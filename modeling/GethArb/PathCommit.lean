/-
  **What a commit into the disk layer leaves, and what flattening leaves.**

  A disk layer with its store stands for a state (`DiskLayer.view`): the store, under the
  frozen buffer, under the live one.  Flushing moves entries from a buffer to the store and
  does not change the state; a commit changes it by exactly the sets of the layer that is
  merged (`commit_spec`).

  `persist_spec` is the same for a whole chain of diff layers.  It also says how the heap
  changes: the layers of the chain get new parents with the old roots, and nothing else but
  the stale flag of the old disk layer is touched.
-/
import GethArb.PathLayers

namespace GethArb.Pathdb

open DiskLayer Frozen Pathdb List Nat

/-! ### The state of a layer -/

/-- The accounts, slots and trie nodes of a state. -/
@[ext]
structure View where
  flat : FlatState
  nodes : NodeView

def View.override (v : View) (nodes : NodeSet) (states : StateSet) : View :=
  ⟨v.flat.override states, overrideNodes v.nodes nodes⟩

/-- The state of a layer over the state of its parent. -/
def View.apply (v : View) (dl : DiffLayer) : View :=
  v.override dl.nodes.toNodeSet dl.states.toStateSet

def Buffer.over (b : Buffer) (v : View) : View := v.override b.nodes b.states

def KeyValue.view (kv : KeyValue) : View := ⟨kv.flat, kv.nodeView⟩

/-- The store under the frozen buffer. -/
def frozenView (kv : KeyValue) (frozen : Option Frozen) : View :=
  frozen.elim kv.view fun f => f.buffer.over kv.view

def DiskLayer.view (kv : KeyValue) (dl : DiskLayer) : View :=
  dl.buffer.over (frozenView kv dl.frozen)

theorem View.override_merge (v : View) (b : Buffer) (nodes : NodeSet) (states : StateSet) :
    (b.commit nodes states).over v = (b.over v).override nodes states := by
  simp [Buffer.over, Buffer.commit, View.override, FlatState.override_merge, overrideNodes_merge]

@[simp] theorem Buffer.over_new (v : View) : Buffer.new.over v = v := by
  simp [Buffer.over, Buffer.new, View.override, FlatState.override_empty, overrideNodes_empty]

@[simp] theorem Buffer.over_over (b : Buffer) (v : View) : b.over (b.over v) = b.over v := by
  simp [Buffer.over, View.override, FlatState.override_override, overrideNodes_overrideNodes]

variable (kv : KeyValue)

@[simp] theorem KeyValue.view_flush (b : Buffer) (root : Hash) (id : Nat) :
    (kv.flush b root id).view = b.over kv.view := by
  ext1
  · exact (kv.writeNodes b.nodes.all).flat_writeStates b.states
  · exact kv.nodeView_write b.nodes

/-! ### Reads of the disk layer -/

/-- What the three reads of a disk layer have in common. -/
theorem DiskLayer.read_eq {α : Type} (get : Buffer → Option α) (blob : α → Blob) (stored : Blob)
    (dl : DiskLayer) (h : dl.stale = false) :
    ∃ b, dl.read get blob stored = .ok b ∧
      bytesOf b = ((get dl.buffer).map (bytesOf ∘ blob)).getD
        ((dl.frozen.elim none fun f => (get f.buffer).map (bytesOf ∘ blob)).getD
          (bytesOf stored)) := by
  unfold read buffered
  rw [h]
  refine ⟨_, rfl, ?_⟩
  cases get dl.buffer with
  | some x => rfl
  | none =>
    cases dl.frozen with
    | none => rfl
    | some f =>
      simp only [Option.bind_some, Option.elim_some]
      cases get f.buffer <;> rfl

theorem DiskLayer.account_eq (hash : Hash) (dl : DiskLayer) (h : dl.stale = false) :
    ∃ b, dl.account kv hash = .ok b ∧ bytesOf b = (dl.view kv).flat.account hash := by
  obtain ⟨b, hb, heq⟩ := dl.read_eq (fun b => b.states.account hash) (fun blob => blob)
    (kv.readAccount hash) h
  refine ⟨b, hb, heq.trans ?_⟩
  unfold view frozenView
  cases dl.frozen <;> rfl

theorem DiskLayer.storage_eq (a k : Hash) (dl : DiskLayer) (h : dl.stale = false) :
    ∃ b, dl.storage kv a k = .ok b ∧ bytesOf b = (dl.view kv).flat.storage a k := by
  obtain ⟨b, hb, heq⟩ := dl.read_eq (fun b => b.states.storage a k) (fun blob => blob)
    (kv.readStorage a k) h
  refine ⟨b, hb, heq.trans ?_⟩
  unfold view frozenView
  cases dl.frozen <;> rfl

theorem DiskLayer.node_eq (owner : Hash) (path : Bytes) (dl : DiskLayer) (h : dl.stale = false) :
    ∃ b, dl.node kv owner path = .ok b ∧ bytesOf b = (dl.view kv).nodes owner path := by
  obtain ⟨b, hb, heq⟩ := dl.read_eq (fun b => b.nodes.node owner path) TrieNode.blob
    (kv.readNode owner path) h
  refine ⟨b, hb, heq.trans ?_⟩
  unfold view frozenView
  cases dl.frozen <;> rfl

/-! ### Flushing -/

/-- A buffer whose flush is done is in the store. -/
def Flushed (kv : KeyValue) (frozen : Option Frozen) : Prop :=
  ∀ f, frozen = some f → f.flush = .done → f.buffer.over kv.view = kv.view

variable {kv kv' : KeyValue} {frozen : Option Frozen}

theorem Flushed.writeStateIDs (h : Flushed kv frozen) (dl : DiskLayer) (bottom : DiffLayer) :
    Flushed (kv.writeStateIDs dl bottom) frozen := h

theorem Flushed.pending {b : Buffer} {root : Hash} {id : Nat} :
    Flushed kv (some ⟨b, root, id, .pending⟩) := by
  rintro f ⟨⟩ hdone
  cases hdone

/-- The end of a flush does not change the state. -/
theorem Frozen.run_view {f : Frozen} (h : Flushed kv (some f)) :
    frozenView (f.run kv).2 (some (f.run kv).1) = frozenView kv (some f) ∧
      Flushed (f.run kv).2 (some (f.run kv).1) := by
  obtain ⟨b, root, id, flush⟩ := f
  cases flush with
  | pending =>
    by_cases hid : kv.persistentStateID + b.layers ≠ id
    · simp only [run, if_pos hid]
      refine ⟨rfl, ?_⟩
      rintro f ⟨⟩ hdone
      cases hdone
    · simp only [run, if_neg hid, frozenView, Option.elim_some, KeyValue.view_flush,
        Buffer.over_over, true_and]
      rintro f ⟨⟩ -
      simp
  | done | failed => exact ⟨rfl, h⟩

variable {dl ndl : DiskLayer}

theorem DiskLayer.settle_spec (h : Flushed kv dl.frozen) :
    (dl.settle kv).1.view (dl.settle kv).2 = dl.view kv ∧
      Flushed (dl.settle kv).2 (dl.settle kv).1.frozen ∧
      ∃ frozen, (dl.settle kv).1 = { dl with frozen := frozen } := by
  obtain ⟨root, id, buffer, frozen, stale⟩ := dl
  cases frozen with
  | none => exact ⟨rfl, h, none, rfl⟩
  | some f =>
    obtain ⟨hview, hflushed⟩ := run_view h
    exact ⟨congrArg buffer.over hview, hflushed, _, rfl⟩

/-- After a successful wait the store has the frozen buffer. -/
theorem Frozen.waitFlush_view {f : Frozen} (h : Flushed kv (some f))
    (hwait : f.waitFlush kv = .ok kv') : kv'.view = f.buffer.over kv.view := by
  obtain ⟨b, root, id, flush⟩ := f
  cases flush with
  | pending =>
    by_cases hid : kv.persistentStateID + b.layers ≠ id
    · simp only [waitFlush, run, if_pos hid] at hwait
      cases hwait
    · simp only [waitFlush, run, if_neg hid] at hwait
      cases hwait
      exact KeyValue.view_flush kv b root id
  | done =>
    cases hwait
    exact (h _ rfl rfl).symm
  | failed => cases hwait

theorem waitFrozen_view (h : Flushed kv frozen) (hwait : waitFrozen frozen kv = .ok kv') :
    kv'.view = frozenView kv frozen := by
  cases frozen with
  | none =>
    cases hwait
    rfl
  | some f => exact waitFlush_view h hwait

/-! ### Commit -/

/-- The outcome of a commit of `bottom` over the state `v`. -/
structure Committed (v : View) (bottom : DiffLayer) (ndl : DiskLayer) (kv : KeyValue) : Prop where
  view : ndl.view kv = v.apply bottom
  root : ndl.root = bottom.root
  id : ndl.id = bottom.id
  alive : ndl.stale = false
  flushed : Flushed kv ndl.frozen

variable {cfg : Config} {bottom : DiffLayer}
variable {combined : Buffer}

theorem DiskLayer.schedule_spec {v : View}
    (h : schedule cfg combined bottom kv = .ok (ndl, kv'))
    (hview : combined.over kv.view = v.apply bottom) : Committed v bottom ndl kv' := by
  unfold schedule at h
  by_cases hsync : cfg.noAsyncFlush = true
  · simp only [if_pos hsync] at h
    obtain ⟨kv₁, hwait, h⟩ := bind_eq_ok.mp h
    cases h
    have hkv₁ := waitFlush_view Flushed.pending hwait
    refine ⟨?_, rfl, rfl, rfl, fun f hf => nomatch hf⟩
    simp [view, frozenView, hkv₁, hview]
  · simp only [if_neg hsync] at h
    cases h
    refine ⟨?_, rfl, rfl, rfl, Flushed.pending⟩
    simp [view, frozenView, hview]

variable {flush early force : Bool}

theorem DiskLayer.freeze_spec {v : View}
    (h : freeze cfg frozen combined flush bottom kv = .ok (ndl, kv'))
    (hflushed : Flushed kv frozen) (hview : combined.over (frozenView kv frozen) = v.apply bottom) :
    Committed v bottom ndl kv' := by
  unfold freeze at h
  by_cases hflush : (cfg.full combined || flush) = true
  · rw [if_pos hflush] at h
    obtain ⟨kv₁, hwait, h⟩ := bind_eq_ok.mp h
    exact schedule_spec h (waitFrozen_view hflushed hwait ▸ hview)
  · rw [if_neg hflush] at h
    cases h
    exact ⟨hview, rfl, rfl, rfl, hflushed⟩

variable {freezer freezer' : Freezer StateHistory}

/-- A history is only stored under the next id. -/
theorem DiskLayer.writeStateHistory_spec {diff : DiffLayer}
    (h : dl.writeStateHistory cfg kv freezer diff = .ok (flush, freezer')) :
    diff.id = freezer.ancients + 1 ∧ freezer'.ancients = diff.id := by
  unfold DiskLayer.writeStateHistory Pathdb.writeStateHistory at h
  by_cases hid : diff.id ≠ freezer.ancients + 1
  · rw [if_pos hid] at h
    cases h
  rw [if_neg hid] at h
  have hid := not_not.mp hid
  have hlength : ∀ hist, ({ freezer with items := freezer.items ++ [hist] } :
      Freezer StateHistory).ancients = diff.id := by
    intro hist
    rw [hid]
    exact length_append
  refine ⟨hid, ?_⟩
  simp only [bind, Except.bind] at h
  split at h
  · cases h
    exact hlength _
  split at h
  · cases h
    exact hlength _
  split at h
  · cases h
    exact hlength _
  unfold truncateFromTail at h
  split at h
  · cases h
  rename_i htrunc
  split at htrunc
  · cases htrunc
  · cases htrunc
    cases h
    exact hlength _

variable (h : dl.commit cfg early force kv freezer bottom = .ok (ndl, kv', freezer'))
include h

theorem DiskLayer.commit_next : bottom.id = freezer.ancients + 1 := by
  obtain ⟨⟨flush, freezer₁⟩, hhist, -⟩ := bind_eq_ok.mp h
  exact (writeStateHistory_spec hhist).1

/-- **A commit changes the state by the sets of the layer.** -/
theorem DiskLayer.commit_spec (hflushed : Flushed kv dl.frozen) :
    Committed (dl.view kv) bottom ndl kv' ∧ freezer'.ancients = bottom.id := by
  unfold commit at h
  -- the background flush may have ended before
  obtain ⟨dl₁, kv₁, hpair, hview, hflushed₁⟩ : ∃ dl₁ kv₁,
      (if early = true then dl.settle kv else (dl, kv)) = (dl₁, kv₁) ∧
        dl₁.view kv₁ = dl.view kv ∧ Flushed kv₁ dl₁.frozen := by
    by_cases hearly : early = true
    · obtain ⟨hview, hfl, -⟩ := settle_spec hflushed
      exact ⟨_, _, if_pos hearly, hview, hfl⟩
    · exact ⟨_, _, if_neg hearly, rfl, hflushed⟩
  rw [hpair] at h
  obtain ⟨⟨flush, freezer₁⟩, hhist, h⟩ := bind_eq_ok.mp h
  obtain ⟨⟨ndl₁, kv₂⟩, hfreeze, h⟩ := bind_eq_ok.mp h
  cases h
  have hcommitted := freeze_spec hfreeze (hflushed₁.writeStateIDs dl₁ bottom)
    (v := dl.view kv) (by
      rw [View.override_merge, ← hview]
      rfl)
  exact ⟨hcommitted, (writeStateHistory_spec hhist).2⟩

omit h

/-! ### The heap -/

section
variable {α : Type} {l : List α} {x y : α} {p q : Nat}

theorem getElem?_append_single : (l ++ [x])[q]? = some y ↔ l[q]? = some y ∨ q = l.length ∧
    y = x := by
  rcases lt_trichotomy q l.length with h | h | h
  · rw [getElem?_append_left h]
    exact ⟨Or.inl, fun h' => h'.resolve_right fun h' => absurd h'.1 (Nat.ne_of_lt h)⟩
  · subst h
    simp [eq_comm]
  · have hlen : (l ++ [x]).length ≤ q := by
      rw [length_append]
      exact h
    rw [getElem?_eq_none hlen, getElem?_eq_none (le_of_lt h)]
    simp [ne_of_gt h]

theorem getElem?_set_iff (hp : p < l.length) :
    (l.set p x)[q]? = some y ↔ q = p ∧ y = x ∨ q ≠ p ∧ l[q]? = some y := by
  by_cases h : q = p
  · subst h
    rw [getElem?_set_self hp]
    simp [eq_comm]
  · rw [getElem?_set_ne (Ne.symm h)]
    simp [h]

end

/-- Every diff layer has its parent in the heap, with the id before its own. -/
def Chained (heap : List Layer) : Prop :=
  ∀ (p : Ptr) (dl : DiffLayer), heap[p]? = some (.diff dl) →
    ∃ l, heap[dl.parent]? = some l ∧ dl.id = l.stateID + 1

/-- The memory around the disk layer `dl` at `base`: it is the only disk layer in use, all
    others have smaller ids, and the histories up to its id are stored. -/
structure MemInv (m : Memory) (base : Ptr) (dl : DiskLayer) : Prop where
  chained : Chained m.heap
  at_base : m.heap[base]? = some (.disk dl)
  alive : dl.stale = false
  flushed : Flushed m.kv dl.frozen
  histories : m.freezer.ancients = dl.id
  others : ∀ (p : Ptr) (dl' : DiskLayer), m.heap[p]? = some (.disk dl') → p ≠ base → dl'.id < dl.id

/-- `v` is the state of the layer at `p`, whose parents lead down to `base`. -/
inductive Over (heap : List Layer) (base : Ptr) (v₀ : View) : Ptr → View → Prop
  | base : Over heap base v₀ base v₀
  | diff {p : Ptr} {dl : DiffLayer} {v : View} (hp : heap[p]? = some (.diff dl))
      (h : Over heap base v₀ dl.parent v) : Over heap base v₀ p (v.apply dl)

/-- How a heap may change while layers with ids up to `bound` are flattened: parents are
    replaced by others with the same root, and disk layers turn stale. -/
structure Evolved (bound : Nat) (heap heap' : List Layer) : Prop where
  diff : ∀ (q : Ptr) (dl : DiffLayer), heap[q]? = some (.diff dl) →
    ∃ q', heap'[q]? = some (.diff { dl with parent := q' }) ∧
      rootAt heap' q' = rootAt heap dl.parent ∧ (bound < dl.id → q' = dl.parent)
  disk : ∀ (q : Ptr) (dl : DiskLayer), heap[q]? = some (.disk dl) →
    ∃ s, heap'[q]? = some (.disk { dl with stale := s })

variable {heap heap' : List Layer}
variable {l : Layer} {q : Ptr}

theorem rootAt_eq (h : heap[q]? = some l) : rootAt heap q = l.rootHash := by
  simp [rootAt, h]

variable {bound : Nat}

theorem Evolved.layer (h : Evolved bound heap heap') (hl : heap[q]? = some l) :
    ∃ l', heap'[q]? = some l' ∧ l'.rootHash = l.rootHash ∧ l'.stateID = l.stateID := by
  cases l with
  | disk dl =>
    obtain ⟨s, hs⟩ := h.disk q dl hl
    exact ⟨_, hs, rfl, rfl⟩
  | diff dl =>
    obtain ⟨q', hq', -⟩ := h.diff q dl hl
    exact ⟨_, hq', rfl, rfl⟩

theorem Evolved.rootAt_eq (h : Evolved bound heap heap') (hl : heap[q]? = some l) :
    rootAt heap' q = rootAt heap q := by
  obtain ⟨l', hl', hroot, -⟩ := h.layer hl
  rw [Pathdb.rootAt_eq hl, Pathdb.rootAt_eq hl', hroot]

theorem Evolved.trans {b b' : Nat} {heap₁ heap₂ : List Layer} (h : Evolved b heap heap₁)
    (h' : Evolved b' heap₁ heap₂) (hb : b ≤ b') : Evolved b' heap heap₂ := by
  constructor
  · intro q dl hq
    obtain ⟨q₁, hq₁, hroot₁, hid₁⟩ := h.diff q dl hq
    obtain ⟨q₂, hq₂, hroot₂, hid₂⟩ := h'.diff q _ hq₁
    exact ⟨q₂, hq₂, hroot₂.trans hroot₁, fun hlt => (hid₂ hlt).trans (hid₁ (hb.trans_lt hlt))⟩
  · intro q dl hq
    obtain ⟨s₁, hs₁⟩ := h.disk q dl hq
    obtain ⟨s₂, hs₂⟩ := h'.disk q _ hs₁
    exact ⟨s₂, hs₂⟩

/-- A heap that keeps the layers up to the stale flag and the parents, with roots as before,
    is chained as before. -/
theorem Evolved.chained_old (h : Evolved bound heap heap') (hch : Chained heap) {dl : DiffLayer}
    (hq : heap[q]? = some (.diff dl)) :
    ∃ l, heap'[dl.parent]? = some l ∧ dl.id = l.stateID + 1 := by
  obtain ⟨l, hl, hid⟩ := hch q dl hq
  obtain ⟨l', hl', -, hid'⟩ := h.layer hl
  exact ⟨l', hl', by rw [hid', hid]⟩

variable {disk : DiskLayer}

namespace Memory

variable {m : Memory}

theorem link_eq {p : Ptr} {dl : DiffLayer} (hp : m.heap[p]? = some (.diff dl)) (q : Ptr) :
    m.link p q = { m with heap := m.heap.set p (.diff { dl with parent := q }) } := by
  simp only [link, hp]

theorem lt_of_getElem? {p : Ptr} (hp : m.heap[p]? = some l) :
    p < m.heap.length := (List.getElem?_eq_some_iff.mp hp).1

/-- The assignment of a parent with the same root. -/
theorem link_evolved {p : Ptr} {dl : DiffLayer} (hp : m.heap[p]? = some (.diff dl))
    (hq : m.heap[q]? = some l) (hroot : l.rootHash = rootAt m.heap dl.parent)
    (hch : Chained m.heap) : Evolved dl.id m.heap (m.link p q).heap := by
  rw [link_eq hp]
  have hlt := lt_of_getElem? hp
  have hget : ∀ (r : Ptr) (l : Layer), m.heap[r]? = some l →
      rootAt (m.heap.set p (.diff { dl with parent := q })) r = l.rootHash := by
    intro r l hr
    by_cases hrp : r = p
    · subst hrp
      rw [hp] at hr
      cases hr
      have hset : (m.heap.set r (.diff { dl with parent := q }))[r]? =
        some (.diff { dl with parent := q }) :=
        (getElem?_set_iff hlt).mpr (Or.inl ⟨rfl, rfl⟩)
      exact (rootAt_eq hset).trans rfl
    · exact rootAt_eq ((getElem?_set_iff hlt).mpr (Or.inr ⟨hrp, hr⟩))
  constructor
  · intro r dl' hr
    by_cases hrp : r = p
    · subst hrp
      rw [hp] at hr
      cases hr
      exact ⟨q, (getElem?_set_iff hlt).mpr (Or.inl ⟨rfl, rfl⟩), (hget q l hq).trans hroot,
        fun h => absurd h (lt_irrefl _)⟩
    · obtain ⟨l', hl', -⟩ := hch r dl' hr
      exact ⟨dl'.parent, (getElem?_set_iff hlt).mpr (Or.inr ⟨hrp, hr⟩),
        (hget _ l' hl').trans (rootAt_eq hl').symm, fun _ => rfl⟩
  · intro r dl' hr
    have hrp : r ≠ p := by
      rintro rfl
      rw [hp] at hr
      cases hr
    exact ⟨dl'.stale, (getElem?_set_iff hlt).mpr (Or.inr ⟨hrp, hr⟩)⟩

theorem link_inv {base p : Ptr} {dl : DiffLayer} (h : MemInv m base disk)
    (hp : m.heap[p]? = some (.diff dl)) (hq : m.heap[q]? = some l)
    (hroot : l.rootHash = rootAt m.heap dl.parent) (hid : dl.id = l.stateID + 1) :
    MemInv (m.link p q) base disk := by
  have hev := link_evolved hp hq hroot h.chained
  rw [link_eq hp] at hev ⊢
  have hlt := lt_of_getElem? hp
  refine ⟨?_, ?_, h.alive, h.flushed, h.histories, ?_⟩
  · intro r dl' hr
    rcases (getElem?_set_iff hlt).mp hr with ⟨rfl, heq⟩ | ⟨hrp, hr⟩
    · cases heq
      obtain ⟨l', hl', -, hid'⟩ := hev.layer hq
      exact ⟨l', hl', by rw [hid', hid]⟩
    · exact hev.chained_old h.chained hr
  · refine (getElem?_set_iff hlt).mpr (Or.inr ⟨?_, h.at_base⟩)
    rintro rfl
    rw [h.at_base] at hp
    cases hp
  · intro r dl' hr
    rcases (getElem?_set_iff hlt).mp hr with ⟨rfl, heq⟩ | ⟨hrp, hr⟩
    · cases heq
    · exact h.others r dl' hr

/-- The heap after a commit: the old disk layer is stale, the new one comes last. -/
def replaceDisk (heap : List Layer) (base : Ptr) (disk ndl : DiskLayer) : List Layer :=
  heap.set base (.disk { disk with stale := true }) ++ [.disk ndl]

section
variable {heap : List Layer} {base q : Ptr} {disk ndl : DiskLayer} {l : Layer}

variable (hbase : heap[base]? = some (.disk disk))
include hbase

theorem getElem?_replaceDisk :
    (replaceDisk heap base disk ndl)[q]? = some l ↔
      (q = base ∧ l = .disk { disk with stale := true } ∨ q ≠ base ∧ heap[q]? = some l) ∨
        q = heap.length ∧ l = .disk ndl := by
  have hlt : base < heap.length := (List.getElem?_eq_some_iff.mp hbase).1
  unfold replaceDisk
  rw [getElem?_append_single, getElem?_set_iff hlt, length_set]

theorem rootAt_replaceDisk (hq : heap[q]? = some l) :
    rootAt (replaceDisk heap base disk ndl) q = l.rootHash := by
  by_cases hqb : q = base
  · subst hqb
    rw [hbase] at hq
    cases hq
    have hset : (replaceDisk heap q disk ndl)[q]? = some (.disk { disk with stale := true }) :=
      (getElem?_replaceDisk hbase).mpr (Or.inl (Or.inl ⟨rfl, rfl⟩))
    exact (rootAt_eq hset).trans rfl
  · exact rootAt_eq ((getElem?_replaceDisk hbase).mpr (Or.inl (Or.inr ⟨hqb, hq⟩)))

theorem replaceDisk_evolved (hch : Chained heap) (bound : Nat) :
    Evolved bound heap (replaceDisk heap base disk ndl) := by
  constructor
  · intro q dl hq
    have hqb : q ≠ base := by
      rintro rfl
      rw [hbase] at hq
      cases hq
    obtain ⟨l, hl, -⟩ := hch q dl hq
    exact ⟨dl.parent, (getElem?_replaceDisk hbase).mpr (Or.inl (Or.inr ⟨hqb, hq⟩)),
      (rootAt_replaceDisk hbase hl).trans (rootAt_eq hl).symm, fun _ => rfl⟩
  · intro q dl hq
    by_cases hqb : q = base
    · subst hqb
      rw [hbase] at hq
      cases hq
      exact ⟨true, (getElem?_replaceDisk hbase).mpr (Or.inl (Or.inl ⟨rfl, rfl⟩))⟩
    · exact ⟨dl.stale, (getElem?_replaceDisk hbase).mpr (Or.inl (Or.inr ⟨hqb, hq⟩))⟩

end

/-- The new disk layer is the one in use. -/
theorem replaceDisk_inv {base : Ptr} (h : MemInv m base disk) (halive : ndl.stale = false)
    (hflushed : Flushed kv ndl.frozen) (hid : disk.id < ndl.id)
    (hancients : freezer.ancients = ndl.id) :
    MemInv ⟨replaceDisk m.heap base disk ndl, kv, freezer⟩ m.heap.length ndl := by
  have hev : Evolved 0 m.heap (replaceDisk m.heap base disk ndl) :=
    replaceDisk_evolved h.at_base h.chained 0
  refine ⟨?_, ?_, halive, hflushed, hancients, ?_⟩
  · intro q dl hq
    rcases (getElem?_replaceDisk h.at_base).mp hq with (⟨-, heq⟩ | ⟨-, hq⟩) | ⟨-, heq⟩
    · cases heq
    · exact hev.chained_old h.chained hq
    · cases heq
  · exact (getElem?_replaceDisk h.at_base).mpr (Or.inr ⟨rfl, rfl⟩)
  · intro q dl hq hne
    rcases (getElem?_replaceDisk h.at_base).mp hq with (⟨-, heq⟩ | ⟨hqb, hq⟩) | ⟨hlen, -⟩
    · cases heq
      exact hid
    · exact (h.others q dl hq hqb).trans hid
    · exact absurd hlen hne

/-- The outcome of flattening the layer `dl` with the state `v`. -/
structure Flattened (m : Memory) (v : View) (dl : DiffLayer) (m' : Memory) (base' : Ptr)
    (ndl : DiskLayer) : Prop where
  inv : MemInv m' base' ndl
  view : ndl.view m'.kv = v
  root : ndl.root = dl.root
  id : ndl.id = dl.id
  evolved : Evolved dl.id m.heap m'.heap

/-- **`diffToDisk` over the disk layer in use.**  Only that one can take the next history. -/
theorem diffToDisk_spec {early : Nat → Bool} {m' : Memory} {base base' p : Ptr} {dl : DiffLayer}
    (h : MemInv m base disk) (hp : m.heap[p]? = some (.diff dl))
    (hcommit : m.diffToDisk cfg early force p = .ok (m', base')) :
    dl.parent = base ∧ m'.heap[p]? = some (.diff dl) ∧
      ∃ ndl, Flattened m ((disk.view m.kv).apply dl) dl m' base' ndl := by
  unfold diffToDisk at hcommit
  simp only [hp] at hcommit
  obtain ⟨l, hl, hid⟩ := h.chained p dl hp
  rw [hl] at hcommit
  cases l with
  | diff _ => cases hcommit
  | disk disk' =>
    obtain ⟨⟨ndl, kv, freezer⟩, hndl, hcommit⟩ := bind_eq_ok.mp hcommit
    cases hcommit
    have hnext := commit_next hndl
    rw [h.histories] at hnext
    -- the history has the next id, so the parent is the disk layer in use
    have hbase : dl.parent = base := by
      by_contra hne
      have hlt := h.others _ disk' hl hne
      simp only [Layer.stateID] at hid
      omega
    rw [hbase, h.at_base] at hl
    cases hl
    obtain ⟨hcommitted, hancients⟩ := commit_spec hndl h.flushed
    have hlt : disk.id < ndl.id := by
      rw [hcommitted.id, hid]
      exact lt_succ_self _
    have hpb : p ≠ base := by
      rintro rfl
      rw [h.at_base] at hp
      cases hp
    refine ⟨hbase, ?_, ndl, ?_, hcommitted.view, hcommitted.root, hcommitted.id, ?_⟩
    · rw [hbase]
      exact (getElem?_replaceDisk h.at_base).mpr (Or.inl (Or.inr ⟨hpb, hp⟩))
    · rw [hbase]
      exact replaceDisk_inv h hcommitted.alive hcommitted.flushed hlt
        (hancients.trans hcommitted.id.symm)
    · rw [hbase]
      exact replaceDisk_evolved h.at_base h.chained dl.id

/-- **Flattening a chain of diff layers.**  A flattened layer has the state that the chain
    gives it over the disk layer, and its own parent is a disk layer from then on. -/
theorem persist_spec {early : Nat → Bool} :
    ∀ {fuel : Nat} {m m' : Memory} {base base' p : Ptr} {disk : DiskLayer} {dl : DiffLayer},
      MemInv m base disk → m.heap[p]? = some (.diff dl) →
      m.persist cfg early force fuel p = .ok (m', base') →
      ∃ ndl v, Over m.heap base (disk.view m.kv) p v ∧ Flattened m v dl m' base' ndl ∧
        ∃ q d, m'.heap[p]? = some (.diff { dl with parent := q }) ∧ m'.heap[q]? =
          some (.disk d) := by
  intro fuel
  induction fuel with
  | zero => exact fun _ _ h => nomatch h
  | succ fuel ih =>
    intro m m' base base' p disk dl h hp hpersist
    obtain ⟨l, hl, hid⟩ := h.chained p dl hp
    simp only [persist, hp, hl] at hpersist
    cases l with
    | disk d =>
      -- the bottom of the chain
      obtain ⟨hbase, hp', ndl, hflat⟩ := diffToDisk_spec h hp hpersist
      have hover : Over m.heap base (disk.view m.kv) dl.parent (disk.view m.kv) := by
        rw [hbase]
        exact Over.base
      obtain ⟨s, hs⟩ := hflat.evolved.disk dl.parent d hl
      exact ⟨ndl, _, Over.diff hp hover, hflat, dl.parent, _, hp', hs⟩
    | diff d =>
      obtain ⟨⟨m₁, base₁⟩, hrec, hcommit⟩ := bind_eq_ok.mp hpersist
      obtain ⟨ndl₁, v, hover, hflat₁, -⟩ := ih h hl hrec
      -- the layer itself is as it was: its id is larger than those flattened so far
      obtain ⟨q, hp₁, -, hq⟩ := hflat₁.evolved.diff p dl hp
      have hlt : d.id < dl.id := by
        rw [hid]
        exact lt_succ_self _
      rw [hq hlt] at hp₁
      have hroot : (Layer.disk ndl₁).rootHash = rootAt m₁.heap dl.parent := by
        rw [hflat₁.evolved.rootAt_eq hl, rootAt_eq hl]
        exact hflat₁.root
      have hid₁ : dl.id = (Layer.disk ndl₁).stateID + 1 := by
        rw [hid]
        exact congrArg succ hflat₁.id.symm
      have hlink := link_inv hflat₁.inv hp₁ hflat₁.inv.at_base hroot hid₁
      have hp₂ : (m₁.link p base₁).heap[p]? = some (.diff { dl with parent := base₁ }) := by
        rw [link_eq hp₁]
        exact (getElem?_set_iff (lt_of_getElem? hp₁)).mpr (Or.inl ⟨rfl, rfl⟩)
      obtain ⟨-, hp', ndl, hflat⟩ := diffToDisk_spec hlink hp₂ hcommit
      have hkv : (m₁.link p base₁).kv = m₁.kv := by rw [link_eq hp₁]
      have hev :=
        (hflat₁.evolved.trans (link_evolved hp₁ hflat₁.inv.at_base hroot hflat₁.inv.chained)
        (le_of_lt hlt)).trans hflat.evolved (le_refl _)
      obtain ⟨s, hs⟩ := hflat.evolved.disk base₁ ndl₁ hlink.at_base
      refine ⟨ndl, _, Over.diff hp hover, ⟨hflat.inv, ?_, hflat.root, hflat.id, hev⟩, base₁, _,
        hp', hs⟩
      rw [hflat.view, hkv, hflat₁.view]
      rfl

end Memory

end GethArb.Pathdb
