/-
  **Finding an entry through the index is walking down the layers.**

  The tree is seen as a forest of roots (`Database.up`): the parent of a root is the root of
  the parent of its layer.  `TreeInv` ties the tree to it: the descendants of a root are its
  descendants in the forest, the index holds the diff layers of the tree with no layer
  before an ancestor, and every layer has the state of its parent under its own sets.

  A layer of the tree need not be linked to the layer of the tree with its parent's root.
  When a diff layer is flattened, only the layer that `cap` walked to is linked to the new
  disk layer; the other children keep the old object, whose own parents are gone from the
  tree (`Detached`).  The index does not go through these links, but `fillAncestors` does.
-/
import GethArb.LayerIndex

namespace GethArb.Pathdb

open Forest Option Finmap Pathdb.Database List GoMap Lookup Function

variable {disk : DiskLayer}

namespace Database

/-! ### The forest of a tree -/

/-- The diff layer of a root. -/
def diffAt (db : Database) (r : Hash) : Option DiffLayer :=
  (db.layers.lookup r).bind fun p =>
    match db.heap[p]? with
    | some (.diff dl) => some dl
    | _ => none

/-- The root of the parent. -/
def up (db : Database) (r : Hash) : Option Hash :=
  (db.diffAt r).map fun dl => rootAt db.heap dl.parent

/-- The state set of a diff layer of the tree. -/
def sets (db : Database) (r : Hash) : Option StateSet :=
  (db.diffAt r).map fun dl => dl.states.toStateSet

/-- The id of the layer of a root. -/
def idAt (db : Database) (r : Hash) : Nat :=
  ((db.layers.lookup r).bind fun p => db.heap[p]?).elim 0 Layer.stateID

section
variable {db : Database} {r : Hash} {p : Ptr} {dl : DiffLayer}

theorem diffAt_eq_some : db.diffAt r = some dl ↔
    ∃ p, db.layers.lookup r = some p ∧ db.heap[p]? = some (.diff dl) := by
  unfold diffAt
  constructor
  · intro h
    obtain ⟨p, hp, hdl⟩ := bind_eq_some_iff.mp h
    refine ⟨p, hp, ?_⟩
    split at hdl
    · rename_i heq
      cases hdl
      exact heq
    · cases hdl
  · rintro ⟨p, hp, hdl⟩
    simp [hp, hdl]

theorem diffAt_of_disk (hp : db.layers.lookup r = some p)
    (hdisk : db.heap[p]? = some (.disk disk)) : db.diffAt r = none := by
  simp [diffAt, hp, hdisk]

theorem diffAt_of_notMem (h : r ∉ db.layers) : db.diffAt r = none := by
  simp [diffAt, lookup_eq_none.mpr h]

theorem mem_of_diffAt (h : db.diffAt r = some dl) : r ∈ db.layers := by
  obtain ⟨p, hp, -⟩ := diffAt_eq_some.mp h
  exact mem_of_lookup_eq_some hp

theorem idAt_eq {l : Layer} (hp : db.layers.lookup r = some p) (hl : db.heap[p]? = some l) :
    db.idAt r = l.stateID := by
  simp [idAt, hp, hl]

theorem up_eq_some {a : Hash} : db.up r = some a ↔ ∃ dl, db.diffAt r = some dl ∧
    rootAt db.heap dl.parent = a :=
  map_eq_some_iff

theorem mem_of_anc {a : Hash} (hra : Anc db.up r a) : r ∈ db.layers := by
  obtain ⟨b, hb, -⟩ := anc_iff.mp hra
  obtain ⟨dl, hdl, -⟩ := up_eq_some.mp hb
  exact mem_of_diffAt hdl

end

end Database

/-! ### The invariant -/

/-- The layer at `q` stands below the disk layer `disk` of the tree without being it: it has
    its root and id, and nothing that it links to is in the tree. -/
structure Detached (db : Database) (disk : DiskLayer) (q : Ptr) : Prop where
  root : rootAt db.heap q = disk.root
  id : ∃ l, db.heap[q]? = some l ∧ l.stateID = disk.id
  gone : ∀ a ∈ ancestors db.heap q, a ∉ db.layers

/-- The tree over the disk layer `disk`, with the states `σ` of its roots. -/
structure TreeInv (db : Database) (disk : DiskLayer) (σ : Hash → View) : Prop where
  mem : MemInv db.toMemory db.base disk
  base_mem : db.layers.lookup disk.root = some db.base
  root_eq : ∀ r p, db.layers.lookup r = some p → ∃ l, db.heap[p]? = some l ∧ l.rootHash = r
  disk_eq : ∀ (r : Hash) (p : Ptr) (d : DiskLayer), db.layers.lookup r = some p →
    db.heap[p]? = some (.disk d) → p = db.base
  parent : ∀ r dl, db.diffAt r = some dl →
    db.layers.lookup (rootAt db.heap dl.parent) = some dl.parent ∨ Detached db disk dl.parent
  view_base : σ disk.root = disk.view db.kv
  view : ∀ r dl, db.diffAt r = some dl → σ r = (σ (rootAt db.heap dl.parent)).apply dl
  desc : ∀ a x, a ∈ db.layers → (x ∈ GoMap.get db.descendants a ↔ x ∈ db.layers ∧ Anc db.up x a)
  indexed : Indexed (fun e f => ¬Anc db.up e f) db.lookup db.sets

variable {dl : DiffLayer}

namespace TreeInv

variable {db : Database} {disk : DiskLayer} {σ : Hash → View}

theorem rootAt_base (h : TreeInv db disk σ) : rootAt db.heap db.base = disk.root :=
  rootAt_eq h.mem.at_base

theorem up_base (h : TreeInv db disk σ) : db.up disk.root = none := by
  unfold up
  rw [diffAt_of_disk h.base_mem h.mem.at_base]
  rfl

variable {r a : Hash}

variable (h : TreeInv db disk σ)
include h

theorem up_mem (hup : db.up r = some a) : a ∈ db.layers ∧ db.idAt r = db.idAt a + 1 := by
  obtain ⟨dl, hdl, rfl⟩ := up_eq_some.mp hup
  obtain ⟨p, hp, hheap⟩ := diffAt_eq_some.mp hdl
  obtain ⟨l, hl, hid⟩ := h.mem.chained p dl hheap
  have hr : db.idAt r = l.stateID + 1 := (idAt_eq hp hheap).trans hid
  rcases h.parent r dl hdl with hparent | hdet
  · exact ⟨mem_of_lookup_eq_some hparent, by rw [hr, idAt_eq hparent hl]⟩
  obtain ⟨l', hl', hid'⟩ := hdet.id
  rw [hl] at hl'
  cases hl'
  rw [hdet.root]
  refine ⟨mem_of_lookup_eq_some h.base_mem, ?_⟩
  rw [hr, hid', idAt_eq h.base_mem h.mem.at_base]
  rfl

theorem up_lt : ∀ x y, db.up x = some y → db.idAt y < db.idAt x := by
  intro x y hxy
  have := (h.up_mem hxy).2
  omega

theorem irrefl (e : Hash) : ¬Anc db.up e e := Anc.irrefl h.up_lt e

theorem ne_of_anc {e f : Hash} (hanc : Anc db.up e f) : e ≠ f := by
  rintro rfl
  exact h.irrefl _ hanc

theorem anc_mem (hra : Anc db.up r a) : a ∈ db.layers := by
  obtain ⟨b, -, hba⟩ := Relation.TransGen.tail'_iff.mp hra
  exact (h.up_mem hba).1

theorem root_of_diffAt (hdl : db.diffAt r = some dl) : dl.root = r := by
  obtain ⟨p, hp, hheap⟩ := diffAt_eq_some.mp hdl
  obtain ⟨l, hl, hroot⟩ := h.root_eq r p hp
  rw [hheap] at hl
  cases hl
  exact hroot

/-- A root of the tree is the root of the disk layer or has a diff layer. -/
theorem base_or_diff (hr : r ∈ db.layers) : r = disk.root ∨ ∃ dl, db.diffAt r = some dl := by
  obtain ⟨p, hp⟩ := mem_iff.mp hr
  obtain ⟨l, hl, hroot⟩ := h.root_eq r p hp
  cases l with
  | diff dl => exact Or.inr ⟨dl, diffAt_eq_some.mpr ⟨p, hp, hl⟩⟩
  | disk d =>
    have hbase := h.disk_eq r p d hp hl
    subst hbase
    rw [h.mem.at_base] at hl
    cases hl
    exact Or.inl hroot.symm

/-- Every root of the tree leads down to the disk layer. -/
theorem via_base (hr : r ∈ db.layers) : Via db.up r disk.root := by
  generalize hn : db.idAt r = n
  induction n using Nat.strong_induction_on generalizing r with
  | _ n ih =>
    subst hn
    rcases h.base_or_diff hr with rfl | ⟨dl, hdl⟩
    · exact Via.refl _
    · have hup : db.up r = some (rootAt db.heap dl.parent) := up_eq_some.mpr ⟨dl, hdl, rfl⟩
      have hlt := h.up_lt _ _ hup
      exact Or.inr (anc_iff.mpr ⟨_, hup, ih _ hlt (h.up_mem hup).1 rfl⟩)

/-- The layers below a layer of the tree are its ancestors, as far as they are in the tree. -/
theorem mem_ancestors {p : Ptr} (hp : db.layers.lookup r = some p) (ha : a ∈ db.layers) :
    a ∈ ancestors db.heap p ↔ Anc db.up r a := by
  generalize hn : db.idAt r = n
  induction n using Nat.strong_induction_on generalizing r p with
  | _ n ih =>
    subst hn
    obtain ⟨l, hl, -⟩ := h.root_eq r p hp
    cases l with
    | disk d =>
      have hnone : db.up r = none := by
        unfold up
        rw [diffAt_of_disk hp hl]
        rfl
      rw [ancestors_disk hl]
      exact ⟨fun h => absurd h not_mem_nil, fun h => absurd h (not_anc_of_none hnone)⟩
    | diff dl =>
      have hdl : db.diffAt r = some dl := diffAt_eq_some.mpr ⟨p, hp, hl⟩
      have hup : db.up r = some (rootAt db.heap dl.parent) := up_eq_some.mpr ⟨dl, hdl, rfl⟩
      rw [ancestors_diff h.mem.chained hl, mem_cons, anc_iff, hup]
      simp only [Option.some.injEq, exists_eq_left']
      refine or_congr_right ?_
      rcases h.parent r dl hdl with hparent | hdet
      · exact ih _ (h.up_lt _ _ hup) hparent rfl
      · -- below a detached layer there is nothing of the tree, and neither below the disk layer
        rw [hdet.root]
        exact ⟨fun hmem => absurd ha (hdet.gone a hmem),
          fun hanc => absurd hanc (not_anc_of_none h.up_base)⟩

omit h

/-! ### Lookups -/

section
variable {K : Type} [DecidableEq K] {m : GoMap K (List Hash)} {keys : StateSet → Finset K}

theorem mem_of_key
    (hl : Lists (fun e f => ¬Anc db.up e f) m fun e => (db.sets e).elim ∅ keys) {k : K} {e : Hash}
    (he : e ∈ get m k) : e ∈ db.layers := by
  have hk := (hl.mem k e).mp he
  cases hset : db.sets e with
  | none =>
    rw [hset] at hk
    exact absurd hk (Finset.notMem_empty k)
  | some s =>
    obtain ⟨dl, hdl, -⟩ := map_eq_some_iff.mp hset
    exact mem_of_diffAt hdl

variable (h : TreeInv db disk σ)
include h

theorem selects_iff {e : Hash} (hr : r ∈ db.layers) (he : e ∈ db.layers) :
    (decide (e = r) || db.isDescendant r e) = true ↔ Via db.up r e := by
  unfold isDescendant
  rw [Bool.or_eq_true, decide_eq_true_eq, decide_eq_true_eq, h.desc e r he]
  exact or_congr_right (and_iff_right hr)

variable (hl : Lists (fun e f => ¬Anc db.up e f) m fun e => (db.sets e).elim ∅ keys)
include hl

/-- The tip is the nearest layer on the way down that has the entry, or the disk layer. -/
theorem tip_spec (hr : r ∈ db.layers) (k : K) {t : Hash}
    (ht : tip db.isDescendant (get m k) r disk.root = t) :
    t ∈ db.layers ∧ Via db.up r t ∧ (t = disk.root ∨ k ∈ (db.sets t).elim ∅ keys) ∧
      ∀ f, Via db.up r f → Anc db.up f t → k ∉ (db.sets f).elim ∅ keys := by
  have hbase : disk.root ∈ db.layers := mem_of_lookup_eq_some h.base_mem
  unfold tip at ht
  cases hfind : (get m k).reverse.find? fun e => decide (e = r) || db.isDescendant r e with
  | some e =>
    simp only [hfind] at ht
    subst ht
    obtain ⟨hmem, hsel, hnear⟩ := nearest_of_find (hl.order k) h.irrefl hfind
    have he := mem_of_key hl hmem
    refine ⟨he, (h.selects_iff hr he).mp hsel, Or.inr ((hl.mem k e).mp hmem), ?_⟩
    intro f hrf hfe hk
    have hf := (hl.mem k f).mpr hk
    exact hnear f hf ((h.selects_iff hr (mem_of_key hl hf)).mpr hrf) hfe
  | none =>
    have hvia := h.via_base hr
    simp only [hfind, if_pos ((h.selects_iff hr hbase).mpr hvia)] at ht
    subst ht
    refine ⟨hbase, hvia, Or.inl rfl, ?_⟩
    intro f hrf _ hk
    have hf := (hl.mem k f).mpr hk
    exact find?_eq_none.mp hfind f (mem_reverse.mpr hf)
      ((h.selects_iff hr (mem_of_key hl hf)).mpr hrf)

/-- There is no tip for a root that is not in the tree. -/
theorem tip_of_notMem (hr : r ∉ db.layers) (k : K) :
    tip db.isDescendant (get m k) r disk.root = 0 := by
  have hnot : ∀ e, e ∈ db.layers → ¬(decide (e = r) || db.isDescendant r e) = true := by
    intro e he hsel
    unfold isDescendant at hsel
    rw [Bool.or_eq_true, decide_eq_true_eq, decide_eq_true_eq, h.desc e r he] at hsel
    rcases hsel with rfl | hsel
    · exact hr he
    · exact hr hsel.1
  have hfind : (get m k).reverse.find? (fun e => decide (e = r) || db.isDescendant r e) = none :=
    find?_eq_none.mpr fun e he => hnot e (mem_of_key hl (mem_reverse.mp he))
  unfold tip
  rw [hfind]
  simp only [if_neg (hnot _ (mem_of_lookup_eq_some h.base_mem))]

/-- **The layer of the tip reads as the state of the root**, for any kind of entry. -/
theorem read_tip (k : K) (get : StateSet → Option Blob)
    (hget : ∀ s, k ∈ keys s ↔ (get s).isSome = true) (value : FlatState → Bytes)
    (hvalue : ∀ R s, value (R.override s) = ((get s).map bytesOf).getD (value R))
    (read : DiskLayer → Except LayerError Blob)
    (hread : ∃ b, read disk = .ok b ∧ bytesOf b = value (disk.view db.kv).flat)
    (hzero : (0 : Hash) ∉ db.layers) (hr : r ∈ db.layers) :
    ∃ p b, db.resolve r (tip db.isDescendant (GoMap.get m k) r (rootAt db.heap db.base)) = .ok p ∧
      walk db.heap (fun dl => get dl.states.toStateSet) read (depthOf db.heap p) p = .ok b ∧
        bytesOf b = value (σ r).flat := by
  obtain ⟨ht, hvia, hkey, hnear⟩ := h.tip_spec hl hr k rfl
  rw [h.rootAt_base]
  generalize tip db.isDescendant (GoMap.get m k) r disk.root = t at *
  obtain ⟨p, hp⟩ := mem_iff.mp ht
  have hres : db.resolve r t = .ok p := by
    have ht0 : t ≠ 0 := by
      rintro rfl
      exact hzero ht
    unfold resolve
    rw [if_neg ht0]
    simp only [hp]
  -- the value of `r` is that of the tip
  have hsame : value (σ r).flat = value (σ t).flat := by
    have hstep : ∀ x b, db.up x = some b → value (σ x).flat =
        ((db.sets x).bind fun s => (get s).map bytesOf).getD (value (σ b).flat) := by
      intro x b hxb
      obtain ⟨dl, hdl, rfl⟩ := up_eq_some.mp hxb
      simp only [h.view x dl hdl, sets, hdl]
      exact hvalue _ _
    have hnone : ∀ f, Via db.up r f → Anc db.up f t →
        ((db.sets f).bind fun s => (get s).map bytesOf) = none := by
      intro f hf hft
      have hk := hnear f hf hft
      cases hset : db.sets f with
      | none => rfl
      | some s =>
        rw [hset, elim_some, hget s, Bool.not_eq_true, isSome_eq_false_iff,
          isNone_iff_eq_none] at hk
        rw [bind_some, hk]
        rfl
    exact @value_eq_of_unchanged _ _ _ _ (fun e => (db.sets e).bind fun s => (get s).map bytesOf)
      (fun e => value (σ e).flat) hstep _ hvia hnone
  refine ⟨p, ?_⟩
  rcases h.base_or_diff ht with rfl | ⟨dl, hdl⟩
  · -- the disk layer
    rw [h.base_mem] at hp
    cases hp
    obtain ⟨b, hb, hbytes⟩ := hread
    refine ⟨b, hres, (walk_disk h.mem.at_base).trans hb, ?_⟩
    rw [hbytes, hsame, h.view_base]
  · -- a diff layer that has the entry
    obtain ⟨p', hp', hheap⟩ := diffAt_eq_some.mp hdl
    rw [hp] at hp'
    cases hp'
    have hne : t ≠ disk.root := by
      rintro rfl
      rw [h.base_mem] at hp
      cases hp
      rw [h.mem.at_base] at hheap
      cases hheap
    have hkey := hkey.resolve_left hne
    simp only [sets, hdl, map_some, elim_some, hget] at hkey
    obtain ⟨b, hb⟩ := isSome_iff_exists.mp hkey
    refine ⟨b, hres, ?_, ?_⟩
    · rw [walk_diff h.mem.chained hheap, hb]
      rfl
    · rw [hsame, h.view t dl hdl]
      exact (by rw [View.apply, View.override, hvalue, hb]; rfl)

end

theorem lookupAccount_spec (h : TreeInv db disk σ) (hzero : (0 : Hash) ∉ db.layers) (x r : Hash) :
    (r ∈ db.layers → ∃ p b, db.lookupAccount x r = .ok p ∧ db.account p x = .ok b ∧
      bytesOf b = (σ r).flat.account x) ∧
    (r ∉ db.layers → db.lookupAccount x r = .error (.staleState r)) := by
  constructor
  · intro hr
    exact h.read_tip h.indexed.accounts x (fun s => s.account x)
      (fun s => mem_keys.trans lookup_isSome.symm)
      (fun R => R.account x) (fun _ _ => rfl) _ (disk.account_eq db.kv x h.mem.alive) hzero hr
  · intro hr
    unfold lookupAccount accountTip
    rw [h.rootAt_base, h.tip_of_notMem h.indexed.accounts hr]
    rfl

theorem lookupStorage_spec (h : TreeInv db disk σ) (hzero : (0 : Hash) ∉ db.layers) (a k r : Hash) :
    (r ∈ db.layers → ∃ p b, db.lookupStorage a k r = .ok p ∧ db.storage p a k = .ok b ∧
      bytesOf b = (σ r).flat.storage a k) ∧
    (r ∉ db.layers → db.lookupStorage a k r = .error (.staleState r)) := by
  constructor
  · intro hr
    exact h.read_tip h.indexed.storages (a, k) (fun s => s.storage a k) (fun s => mem_slotKeys)
      (fun R => R.storage a k) (fun _ _ => rfl) _ (disk.storage_eq db.kv a k h.mem.alive) hzero hr
  · intro hr
    unfold lookupStorage storageTip
    rw [h.rootAt_base, h.tip_of_notMem h.indexed.storages hr]
    rfl

end TreeInv

/-! ### A tree with a disk layer only -/

variable {σ : Hash → View}

theorem TreeInv.newLayerTree {m : Memory} {base : Ptr} (hmem : MemInv m base disk)
    (hview : σ disk.root = disk.view m.kv) :
    TreeInv (Database.newLayerTree m base disk) disk σ := by
  have hlook : ∀ r, (Database.newLayerTree m base disk).layers.lookup r =
      if r = disk.root then some base else none := fun r => lookup_singleton_ite _ _ _
  have hlook_eq : ∀ {r p}, (Database.newLayerTree m base disk).layers.lookup r = some p →
      r = disk.root ∧ p = base := by
    intro r p hp
    rw [hlook] at hp
    split at hp
    · rename_i heq
      exact ⟨heq, (Option.some.inj hp).symm⟩
    · cases hp
  have hdiff : ∀ r, (Database.newLayerTree m base disk).diffAt r = none := by
    intro r
    rw [eq_none_iff_forall_ne_some]
    intro dl hdl
    obtain ⟨p, hp, hheap⟩ := diffAt_eq_some.mp hdl
    rw [(hlook_eq hp).2, show (Database.newLayerTree m base disk).heap[base]? = _ from hmem.at_base]
      at hheap
    cases hheap
  have hup : ∀ r, (Database.newLayerTree m base disk).up r = none := by
    intro r
    rw [up, hdiff, map_none]
  refine ⟨hmem, ?_, ?_, ?_, ?_, hview, ?_, ?_, ?_⟩
  · rw [hlook, if_pos rfl]
    rfl
  · intro r p hp
    obtain ⟨rfl, rfl⟩ := hlook_eq hp
    exact ⟨_, hmem.at_base, rfl⟩
  · intro r p d hp _
    exact (hlook_eq hp).2
  · intro r dl hdl
    rw [hdiff] at hdl
    cases hdl
  · intro r dl hdl
    rw [hdiff] at hdl
    cases hdl
  · intro a x _
    constructor
    · intro hx
      exact absurd hx (Finset.notMem_empty x)
    · exact fun hx => absurd hx.2 (not_anc_of_none (hup x))
  · have hsets : (Database.newLayerTree m base disk).sets = fun _ => none := by
      funext r
      rw [sets, hdiff, map_none]
    rw [hsets]
    exact Indexed.empty _

/-! ### Adding a layer -/

theorem mem_fillAncestors {hash x a : Hash} :
    ∀ {roots : List Hash} {d : GoMap Hash (Finset Hash)},
      x ∈ get (fillAncestors d hash roots) a ↔ x ∈ get d a ∨ x = hash ∧ a ∈ roots := by
  intro roots
  induction roots with
  | nil =>
    exact ⟨Or.inl, fun h => h.elim (fun h => h) fun h => absurd h.2 not_mem_nil⟩
  | cons b roots ih =>
    intro d
    have hstep : fillAncestors d hash (b :: roots) =
        fillAncestors (d.insert b (insert hash (get d b))) hash roots := rfl
    rw [hstep, ih, get_insert, mem_cons]
    by_cases hab : a = b
    · subst hab
      rw [if_pos rfl, Finset.mem_insert]
      tauto
    · rw [if_neg hab]
      tauto

/-- A root that is new to the tree, and of which the tree remembers no earlier layer. -/
structure Fresh (db : Database) (root : Hash) : Prop where
  new : root ∉ db.layers
  below : ∀ r p, db.layers.lookup r = some p → root ∉ ancestors db.heap p
  unlinked : GoMap.get db.descendants root = ∅

/-- The database `db'` after the layer `l` with the root `root` was added. -/
structure Added (db : Database) (root parentRoot : Hash) (l : DiffLayer)
    (db' : Database) : Prop where
  ne : root ≠ parentRoot
  root_eq : l.root = root
  lookup_parent : db.layers.lookup parentRoot = some l.parent
  parent : ∃ y, db.heap[l.parent]? = some y ∧ l.id = y.stateID + 1
  eq : db' = { db with
    heap := db.heap ++ [.diff l]
    layers := db.layers.insert root db.heap.length
    descendants :=
      fillAncestors db.descendants root (ancestors (db.heap ++ [.diff l]) db.heap.length)
    lookup := db.lookup.addLayer l }

/-- What a successful `add` does. -/
theorem Database.add_spec {db db' : Database} {root parentRoot : Hash} {block : Nat}
    {nodes : NodeSetWithOrigin} {states : StateSetWithOrigin}
    (h : db.add root parentRoot block nodes states = .ok db') :
    ∃ id q, Added db root parentRoot ⟨root, id, block, nodes, states, q⟩ db' := by
  unfold add at h
  split at h
  · cases h
  rename_i hne
  split at h
  · cases h
  rename_i q hq
  split at h
  · cases h
  rename_i parent hparent
  exact ⟨parent.stateID + 1, q, hne, rfl, hq, ⟨parent, hparent, rfl⟩, (Except.ok.inj h).symm⟩

variable {y : Layer} {x : Ptr} {r : Hash}

namespace Added

variable {db db' : Database} {disk : DiskLayer} {σ : Hash → View} {root parentRoot : Hash}
    {l : DiffLayer}

section
variable (a : Added db root parentRoot l db')
include a

theorem heap_eq : db'.heap = db.heap ++ [.diff l] := by rw [a.eq]

/-- The heap only grows. -/
theorem at_old (hxy : db.heap[x]? = some y) : db'.heap[x]? = some y := by
  rw [a.heap_eq]
  exact getElem?_append_single.mpr (Or.inl hxy)

theorem at_new : db'.heap[db.heap.length]? = some (.diff l) := by
  rw [a.heap_eq]
  exact getElem?_append_single.mpr (Or.inr ⟨rfl, rfl⟩)

theorem at_cases (hxy : db'.heap[x]? = some y) :
    db.heap[x]? = some y ∨ x = db.heap.length ∧ y = .diff l := by
  rw [a.heap_eq] at hxy
  exact getElem?_append_single.mp hxy

theorem rootAt_old (hxy : db.heap[x]? = some y) : rootAt db'.heap x = rootAt db.heap x :=
  (rootAt_eq (a.at_old hxy)).trans (rootAt_eq hxy).symm

theorem lookup_old (hr : r ≠ root) : db'.layers.lookup r = db.layers.lookup r := by
  rw [a.eq]
  exact lookup_insert_of_ne _ hr

theorem lookup_new : db'.layers.lookup root = some db.heap.length := by
  rw [a.eq]
  exact lookup_insert _

theorem mem_iff (r : Hash) : r ∈ db'.layers ↔ r = root ∨ r ∈ db.layers := by
  rw [a.eq]
  exact mem_insert

theorem diffAt_new : db'.diffAt root = some l := diffAt_eq_some.mpr ⟨_, a.lookup_new, a.at_new⟩

end

section
variable (h : TreeInv db disk σ) (a : Added db root parentRoot l db')
include h a

theorem chained : Chained db'.heap := by
  intro x dl hx
  rcases a.at_cases hx with hx | ⟨-, hx⟩
  · obtain ⟨y, hy, hid⟩ := h.mem.chained x dl hx
    exact ⟨y, a.at_old hy, hid⟩
  · cases hx
    obtain ⟨y, hy, hid⟩ := a.parent
    exact ⟨y, a.at_old hy, hid⟩

theorem ancestors_old (hxy : db.heap[x]? = some y) : ancestors db'.heap x = ancestors db.heap x :=
  ancestors_congr h.mem.chained (chained h a) (fun _ _ => a.at_old)
    (fun _ d hd => ⟨d, a.at_old hd, rfl⟩) hxy

theorem diffAt_old (hr : r ≠ root) : db'.diffAt r = db.diffAt r := by
  ext dl
  rw [diffAt_eq_some, diffAt_eq_some, a.lookup_old hr]
  refine exists_congr fun x => and_congr_right fun hx => ?_
  obtain ⟨y, hy, -⟩ := h.root_eq r x hx
  rw [hy, a.at_old hy]

/-- The parent of a diff layer that was there before. -/
theorem parent_old (hdl : db.diffAt r = some dl) :
    rootAt db'.heap dl.parent = rootAt db.heap dl.parent ∧
      rootAt db.heap dl.parent ∈ db.layers := by
  obtain ⟨x, -, hx⟩ := diffAt_eq_some.mp hdl
  obtain ⟨y, hy, -⟩ := h.mem.chained x dl hx
  exact ⟨a.rootAt_old hy, (h.up_mem (up_eq_some.mpr ⟨dl, hdl, rfl⟩)).1⟩

theorem rootAt_parent : rootAt db'.heap l.parent = parentRoot := by
  obtain ⟨y, hy, hroot⟩ := h.root_eq parentRoot l.parent a.lookup_parent
  rw [a.rootAt_old hy, rootAt_eq hy, hroot]

theorem up_new : db'.up root = some parentRoot :=
  up_eq_some.mpr ⟨l, a.diffAt_new, rootAt_parent h a⟩

theorem up_old (hr : r ≠ root) : db'.up r = db.up r := by
  unfold up
  rw [diffAt_old h a hr]
  cases hdl : db.diffAt r with
  | none => rfl
  | some dl => rw [map_some, map_some, (parent_old h a hdl).1]

/-- The roots below the new layer. -/
theorem ancestors_new :
    ancestors db'.heap db.heap.length = parentRoot :: ancestors db.heap l.parent := by
  obtain ⟨y, hy, -⟩ := a.parent
  rw [ancestors_diff (chained h a) a.at_new, rootAt_parent h a, ancestors_old h a hy]

theorem mem_descendants {x b : Hash} : x ∈ get db'.descendants b ↔
    x ∈ get db.descendants b ∨ x = root ∧ (b = parentRoot ∨ b ∈ ancestors db.heap l.parent) := by
  rw [← mem_cons, ← ancestors_new h a, ← mem_fillAncestors, a.eq]

theorem sets_eq : db'.sets = update db.sets l.root (some l.states.toStateSet) := by
  funext r
  rw [a.root_eq]
  by_cases hr : r = root
  · rw [hr, update_self, sets, a.diffAt_new, map_some]
  · rw [update_of_ne hr, sets, sets, diffAt_old h a hr]

theorem inv_memory : MemInv db'.toMemory db'.base disk := by
  have hbase : db'.base = db.base := by rw [a.eq]
  have hkv : db'.kv = db.kv := by rw [a.eq]
  have hfreezer : db'.freezer = db.freezer := by rw [a.eq]
  refine ⟨chained h a, ?_, h.mem.alive, ?_, ?_, ?_⟩
  · rw [hbase]
    exact a.at_old h.mem.at_base
  · rw [hkv]
    exact h.mem.flushed
  · rw [hfreezer]
    exact h.mem.histories
  · intro x d hx hxb
    rw [hbase] at hxb
    rcases a.at_cases hx with hx | ⟨-, hx⟩
    · exact h.mem.others x d hx hxb
    · cases hx

theorem linked_new : db'.layers.lookup (rootAt db'.heap l.parent) = some l.parent := by
  rw [rootAt_parent h a, a.lookup_old a.ne.symm]
  exact a.lookup_parent

variable (hnew : root ∉ db.layers)
include hnew

theorem anc_old {x b : Hash} (hx : x ≠ root) : Anc db'.up x b ↔ Anc db.up x b :=
  (anc_extend (up_new h a) (fun _ hr => up_old h a hr)
    (fun _ hup => hnew (h.up_mem hup).1) a.ne.symm).1 hx

theorem anc_new {b : Hash} : Anc db'.up root b ↔ Via db.up parentRoot b :=
  (anc_extend (up_new h a) (fun _ hr => up_old h a hr)
    (fun _ hup => hnew (h.up_mem hup).1) a.ne.symm).2

theorem not_anc_root (x : Hash) : ¬Anc db'.up x root := by
  intro hx
  by_cases hxr : x = root
  · rw [hxr, anc_new h a hnew] at hx
    rcases hx with heq | hanc
    · exact a.ne heq
    · exact hnew (h.anc_mem hanc)
  · rw [anc_old h a hnew hxr] at hx
    exact hnew (h.anc_mem hx)

/-- A layer that was linked to a layer of the tree still is. -/
theorem linked_old (hdl : db.diffAt r = some dl)
    (hlink : db.layers.lookup (rootAt db.heap dl.parent) = some dl.parent) :
    db'.layers.lookup (rootAt db'.heap dl.parent) = some dl.parent := by
  obtain ⟨heq, hin⟩ := parent_old h a hdl
  have hne : rootAt db.heap dl.parent ≠ root := by
    rintro hroot
    exact hnew (hroot ▸ hin)
  rw [heq, a.lookup_old hne]
  exact hlink

end

end Added

open Added

/-- **Adding a layer keeps the invariant**, with the state of the parent under the new sets. -/
theorem TreeInv.add {db db' : Database} (h : TreeInv db disk σ) {root parentRoot : Hash}
    {l : DiffLayer} (hfresh : Fresh db root) (a : Added db root parentRoot l db') :
    TreeInv db' disk (update σ root ((σ parentRoot).apply l)) := by
  have hnew := hfresh.new
  have hne_root : ∀ {r}, r ∈ db.layers → r ≠ root := by
    rintro r hr rfl
    exact hnew hr
  have hbase : db'.base = db.base := by rw [a.eq]
  have hbase_mem : disk.root ∈ db.layers := mem_of_lookup_eq_some h.base_mem
  refine ⟨inv_memory h a, ?_, ?_, ?_, ?_, ?_, ?_, ?_, ?_⟩
  · rw [a.lookup_old (hne_root hbase_mem), hbase]
    exact h.base_mem
  · -- the layer of a root has this root
    intro r x hx
    by_cases hr : r = root
    · subst hr
      rw [a.lookup_new] at hx
      cases hx
      exact ⟨_, a.at_new, a.root_eq⟩
    · rw [a.lookup_old hr] at hx
      obtain ⟨y, hy, hroot⟩ := h.root_eq r x hx
      exact ⟨y, a.at_old hy, hroot⟩
  · -- there is one disk layer
    intro r x d hx hd
    rw [hbase]
    by_cases hr : r = root
    · subst hr
      rw [a.lookup_new] at hx
      cases hx
      rw [a.at_new] at hd
      cases hd
    · rw [a.lookup_old hr] at hx
      obtain ⟨y, hy, -⟩ := h.root_eq r x hx
      rw [a.at_old hy] at hd
      cases hd
      exact h.disk_eq r x d hx hy
  · -- parents
    intro r dl hdl
    by_cases hr : r = root
    · subst hr
      rw [a.diffAt_new] at hdl
      cases hdl
      exact Or.inl (linked_new h a)
    rw [diffAt_old h a hr] at hdl
    rcases h.parent r dl hdl with hlink | hdet
    · exact Or.inl (linked_old h a hnew hdl hlink)
    right
    obtain ⟨x, hx, hxheap⟩ := diffAt_eq_some.mp hdl
    obtain ⟨y, hy, hid⟩ := hdet.id
    refine ⟨(parent_old h a hdl).1.trans hdet.root, ⟨y, a.at_old hy, hid⟩, ?_⟩
    intro b hb hin
    rw [ancestors_old h a hy] at hb
    rcases (a.mem_iff b).mp hin with rfl | hin
    · refine hfresh.below r x hx ?_
      rw [ancestors_diff h.mem.chained hxheap]
      exact mem_cons_of_mem _ hb
    · exact hdet.gone b hb hin
  · rw [update_of_ne (hne_root hbase_mem), show db'.kv = db.kv by rw [a.eq]]
    exact h.view_base
  · -- states
    intro r dl hdl
    by_cases hr : r = root
    · subst hr
      rw [a.diffAt_new] at hdl
      cases hdl
      rw [update_self, rootAt_parent h a, update_of_ne a.ne.symm]
    · rw [diffAt_old h a hr] at hdl
      obtain ⟨heq, hin⟩ := parent_old h a hdl
      rw [update_of_ne hr, heq, update_of_ne (hne_root hin)]
      exact h.view r dl hdl
  · -- descendants
    intro b x hb
    rw [mem_descendants h a, a.mem_iff]
    rcases (a.mem_iff b).mp hb with rfl | hb
    · constructor
      · rintro (hx | ⟨-, hx | hx⟩)
        · rw [hfresh.unlinked] at hx
          exact absurd hx (Finset.notMem_empty x)
        · exact absurd hx a.ne
        · exact absurd hx (hfresh.below parentRoot l.parent a.lookup_parent)
      · exact fun hx => absurd hx.2 (not_anc_root h a hnew x)
    · by_cases hx : x = root
      · rw [hx, h.desc b root hb, anc_new h a hnew, h.mem_ancestors a.lookup_parent hb]
        constructor
        · rintro (hx' | ⟨-, hx'⟩)
          · exact absurd hx'.1 hnew
          · exact ⟨Or.inl rfl, hx'⟩
        · exact fun hx' => Or.inr ⟨rfl, hx'.2⟩
      · rw [h.desc b x hb, anc_old h a hnew hx]
        constructor
        · rintro (hx' | ⟨hx', -⟩)
          · exact ⟨Or.inr hx'.1, hx'.2⟩
          · exact absurd hx' hx
        · exact fun hx' => Or.inl ⟨hx'.1.resolve_left hx, hx'.2⟩
  · -- the index
    have hsets_root : db.sets root = none := by
      rw [sets, diffAt_of_notMem hnew, map_none]
    rw [show db'.lookup = db.lookup.addLayer l by rw [a.eq], sets_eq h a]
    refine (h.indexed.mono ?_).addLayer (by rw [a.root_eq]; exact hsets_root) ?_
    · intro e f he _ hef
      have he' : e ≠ root := by
        rintro rfl
        rw [hsets_root] at he
        cases he
      rw [anc_old h a hnew he']
      exact hef
    · intro e _
      rw [a.root_eq]
      exact not_anc_root h a hnew e

end GethArb.Pathdb
