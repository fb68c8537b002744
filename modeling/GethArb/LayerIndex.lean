/-
  **The lookup index and the walks over parents.**

  `Indexed R l sets` says that the index `l` holds the layers `sets`: the list of an entry
  has exactly the roots of the layers that have the entry, once each, and every root is
  related by `R` to the ones after it.  Adding and removing a layer keep this; in
  particular `removeLayer` finds every entry it looks for, so its early exit is never taken.

  The walks of the layers (`walk`, `ancestorRoots`) go down parents whose ids fall by one,
  so they are given here by one equation for each kind of layer, without a bound.
-/
import GethArb.PathCommit
import GethArb.LayerForest

namespace GethArb.Pathdb

open GoMap Finset Finmap List Function

/-! ### Walks -/

variable {own : DiffLayer → Option Blob} {dl : DiffLayer}

section
variable {heap : List Layer}
variable {p : Ptr}

theorem depthOf_eq {l : Layer} (h : heap[p]? = some l) : depthOf heap p = l.stateID + 1 := by
  simp [depthOf, h]

variable {disk : DiskLayer → Except LayerError Blob}

theorem walk_disk {dl : DiskLayer} (h : heap[p]? = some (.disk dl)) :
    walk heap own disk (depthOf heap p) p = disk dl := by
  simp [depthOf_eq h, walk, h]

theorem walk_diff (hch : Chained heap) (h : heap[p]? = some (.diff dl)) :
    walk heap own disk (depthOf heap p) p =
      (own dl).elim (walk heap own disk (depthOf heap dl.parent) dl.parent) .ok := by
  obtain ⟨l, hl, hid⟩ := hch p dl h
  have hdepth : depthOf heap p = depthOf heap dl.parent + 1 := by
    rw [depthOf_eq h, depthOf_eq hl, ← hid]
    rfl
  rw [hdepth]
  simp only [walk, h]
  cases own dl <;> rfl

/-- The roots below a layer. -/
def ancestors (heap : List Layer) (p : Ptr) : List Hash := ancestorRoots heap (depthOf heap p) p

theorem ancestors_disk {dl : DiskLayer} (h : heap[p]? = some (.disk dl)) :
    ancestors heap p = [] := by
  simp [ancestors, depthOf_eq h, ancestorRoots, h]

theorem ancestors_diff (hch : Chained heap) (h : heap[p]? = some (.diff dl)) :
    ancestors heap p = rootAt heap dl.parent :: ancestors heap dl.parent := by
  obtain ⟨l, hl, hid⟩ := hch p dl h
  have hdepth : depthOf heap p = depthOf heap dl.parent + 1 := by
    rw [depthOf_eq h, depthOf_eq hl, ← hid]
    rfl
  unfold ancestors
  rw [hdepth, ancestorRoots, h]
  simp only [hl, rootAt_eq hl]

/-- A heap that keeps the diff layers, and the roots of the disk layers, keeps the ancestors. -/
theorem ancestors_congr {heap' : List Layer} (hch : Chained heap) (hch' : Chained heap')
    (hdiff : ∀ (q : Ptr) (dl : DiffLayer), heap[q]? = some (.diff dl) → heap'[q]? = some (.diff dl))
    (hdisk : ∀ (q : Ptr) (d : DiskLayer), heap[q]? = some (.disk d) →
      ∃ d', heap'[q]? = some (.disk d') ∧ d'.root = d.root)
    {l : Layer} (hp : heap[p]? = some l) : ancestors heap' p = ancestors heap p := by
  have hroot : ∀ {q : Ptr} {l : Layer}, heap[q]? = some l → rootAt heap' q = rootAt heap q := by
    intro q l hq
    cases l with
    | disk d =>
      obtain ⟨d', hd', heq⟩ := hdisk q d hq
      rw [rootAt_eq hd', rootAt_eq hq]
      exact heq
    | diff dl => rw [rootAt_eq (hdiff q dl hq), rootAt_eq hq]
  generalize hn : l.stateID = n
  induction n using Nat.strong_induction_on generalizing p l with
  | _ n ih =>
    cases l with
    | disk d =>
      obtain ⟨d', hd', -⟩ := hdisk p d hp
      rw [ancestors_disk hp, ancestors_disk hd']
    | diff dl =>
      obtain ⟨l', hl', hid⟩ := hch p dl hp
      have hlt : l'.stateID < n := by
        rw [← hn]
        exact Nat.lt_of_succ_le hid.ge
      rw [ancestors_diff hch hp, ancestors_diff hch' (hdiff p dl hp), ih _ hlt hl' rfl, hroot hl']

end

/-! ### The index -/

variable {state : Hash} {l : Lookup} (R : Hash → Hash → Prop) (ord : RangeOrder Hash)

namespace Lookup

section
variable {K : Type} [DecidableEq K]

theorem get_append (m : GoMap K (List Hash)) (keys : Finset K) (state : Hash) (k : K) :
    get (append m keys state) k =
      if k ∈ keys then get m k ++ [state] else get m k := by
  unfold GoMap.get append
  rw [lookup_build]
  by_cases hk : k ∈ keys
  · rw [if_pos (mem_union_right _ hk), if_pos hk, if_pos hk]
    rfl
  rw [if_neg hk, if_neg hk]
  by_cases hm : k ∈ m.keys
  · rw [if_pos (mem_union_left _ hm)]
  · rw [if_neg fun h => (mem_union.mp h).elim hm hk,
      lookup_eq_none.mpr fun h => hm (mem_keys.mpr h)]

/-- If all lists have the layer, the loop removes it from each. -/
theorem get_unlink :
    ∀ {ks : List K} {m : GoMap K (List Hash)}, ks.Nodup → (∀ k ∈ ks, state ∈ get m k) → ∀ j,
      get (unlink state ks m) j = if j ∈ ks then (get m j).erase state else get m j := by
  intro ks
  induction ks with
  | nil => exact fun _ _ _ => rfl
  | cons k ks ih =>
    intro m hnd hmem j
    obtain ⟨hk, hnd⟩ := nodup_cons.mp hnd
    have hfound : removeFromList (get m k) state = some ((get m k).erase state) :=
      if_pos (hmem k mem_cons_self)
    simp only [unlink, hfound]
    -- the map after this key
    have hget : ∀ i, get (if ((get m k).erase state).length ≠ 0
        then m.insert k ((get m k).erase state) else m.erase k) i =
        if i = k then (get m k).erase state else get m i := by
      intro i
      split
      · exact get_insert m k i _
      · rename_i hlen
        rw [get_erase, length_eq_zero_iff.mp (not_not.mp hlen)]
        rfl
    rw [ih hnd fun i hi => ?_]
    · rw [hget]
      by_cases hjk : j = k
      · subst hjk
        simp [hk]
      · simp [hjk]
    · have hik : i ≠ k := by
        rintro rfl
        exact hk hi
      rw [hget, if_neg hik]
      exact hmem i (mem_cons_of_mem _ hi)

/-- The lists of one index hold the layers with the keys `keys`, in an order that agrees
    with `R`. -/
structure Lists (R : Hash → Hash → Prop) (m : GoMap K (List Hash))
    (keys : Hash → Finset K) : Prop where
  mem : ∀ k e, e ∈ GoMap.get m k ↔ k ∈ keys e
  nodup : ∀ k, (GoMap.get m k).Nodup
  order : ∀ k, (GoMap.get m k).Pairwise R

theorem Lists.empty : Lists (K := K) R ∅ fun _ => ∅ where
  mem k e := by
    exact ⟨fun h => absurd h not_mem_nil, fun h => absurd h (notMem_empty k)⟩
  nodup k := by
    exact nodup_nil
  order k := by
    exact Pairwise.nil

variable {keys : Hash → Finset K} {m : GoMap K (List Hash)}

theorem Lists.append {R : Hash → Hash → Prop} (h : Lists R m keys) (hstate : keys state = ∅)
    (ks : Finset K) (hR : ∀ e, (keys e).Nonempty → R e state) :
    Lists R (append m ks state) (update keys state ks) := by
  have hnot : ∀ k, state ∉ get m k := by
    intro k hk
    have := (h.mem k state).mp hk
    rw [hstate] at this
    exact notMem_empty k this
  refine ⟨fun k e => ?_, fun k => ?_, fun k => ?_⟩
  · rw [get_append]
    by_cases he : e = state
    · subst he
      split
      · rename_i hk
        simp [hk]
      · rename_i hk
        simp [hk, hnot k]
    · rw [update_of_ne he, ← h.mem k e]
      split
      · simp [he]
      · rfl
  · rw [get_append]
    split
    · refine nodup_append.mpr ⟨h.nodup k, nodup_singleton _, ?_⟩
      intro a ha b hb
      rw [List.mem_singleton.mp hb]
      rintro rfl
      exact hnot k ha
    · exact h.nodup k
  · rw [get_append]
    split
    · refine pairwise_append.mpr ⟨h.order k, pairwise_singleton _ _, ?_⟩
      intro a ha b hb
      rw [List.mem_singleton.mp hb]
      exact hR a ⟨k, (h.mem k a).mp ha⟩
    · exact h.order k

theorem Lists.unlink {R : Hash → Hash → Prop} (h : Lists R m keys) {ks : List K}
    (hks : ∀ k, k ∈ ks ↔ k ∈ keys state) (hnd : ks.Nodup) :
    Lists R (unlink state ks m) (update keys state ∅) := by
  have hget := get_unlink hnd fun k hk => (h.mem k state).mpr ((hks k).mp hk)
  refine ⟨fun k e => ?_, fun k => ?_, fun k => ?_⟩
  · rw [hget]
    by_cases he : e = state
    · subst he
      split
      · simp [(h.nodup k).mem_erase_iff]
      · rename_i hk
        have : e ∉ get m k := fun hmem => hk ((hks k).mpr ((h.mem k e).mp hmem))
        simp [this]
    · rw [update_of_ne he, ← h.mem k e]
      split
      · exact mem_erase_of_ne he
      · rfl
  · rw [hget]
    split
    · exact (h.nodup k).erase _
    · exact h.nodup k
  · rw [hget]
    split
    · exact (h.order k).sublist erase_sublist
    · exact h.order k

end

/-- The index holds the layers `sets`, in an order that agrees with `R`. -/
structure Indexed (R : Hash → Hash → Prop) (l : Lookup) (sets : Hash → Option StateSet) : Prop where
  accounts : Lists R l.accounts fun e => (sets e).elim ∅ fun s => s.accountData.keys
  storages : Lists R l.storages fun e => (sets e).elim ∅ slotKeys

theorem mem_slotKeys {s : StateSet} {k : Hash × Hash} :
    k ∈ slotKeys s ↔ (s.storage k.1 k.2).isSome = true := by
  obtain ⟨a, k⟩ := k
  unfold slotKeys StateSet.storage lookup₂
  simp only [mem_biUnion, mem_image, Prod.mk.injEq]
  constructor
  · rintro ⟨a', ha', k', hk', rfl, rfl⟩
    obtain ⟨slots, hslots⟩ := mem_iff.mp ha'
    rw [GoMap.get, hslots] at hk'
    rw [hslots]
    exact lookup_isSome.mpr hk'
  · intro h
    cases hslots : lookup a s.storageData with
    | none =>
      rw [hslots] at h
      cases h
    | some slots =>
      rw [hslots] at h
      refine ⟨a, mem_of_lookup_eq_some hslots, k, ?_, rfl, rfl⟩
      rw [GoMap.get, hslots]
      exact lookup_isSome.mp h

theorem Indexed.empty : Indexed R empty fun _ => none :=
  ⟨Lists.empty R, Lists.empty R⟩

variable {R : Hash → Hash → Prop} {sets : Hash → Option StateSet}

theorem Indexed.mono {R' : Hash → Hash → Prop} (h : Indexed R l sets)
    (hR : ∀ e f, (sets e).isSome = true → (sets f).isSome = true → R e f → R' e f) :
    Indexed R' l sets := by
  have hsome : ∀ {K : Type} {f : StateSet → Finset K} {e : Hash} {k : K},
      k ∈ (sets e).elim ∅ f → (sets e).isSome = true := by
    intro K f e k hk
    cases he : sets e with
    | none =>
      rw [he] at hk
      exact absurd hk (notMem_empty k)
    | some s => rfl
  refine ⟨⟨h.accounts.mem, h.accounts.nodup, fun k => ?_⟩,
    ⟨h.storages.mem, h.storages.nodup, fun k => ?_⟩⟩
  · exact (h.accounts.order k).imp_of_mem fun he hf =>
      hR _ _ (hsome ((h.accounts.mem k _).mp he)) (hsome ((h.accounts.mem k _).mp hf))
  · exact (h.storages.order k).imp_of_mem fun he hf =>
      hR _ _ (hsome ((h.storages.mem k _).mp he)) (hsome ((h.storages.mem k _).mp hf))

theorem update_elim {K : Type} (sets : Hash → Option StateSet) (e : Hash) (s : Option StateSet)
    (f : StateSet → Finset K) :
    (fun x => (update sets e s x).elim ∅ f) =
      update (fun x => (sets x).elim ∅ f) e (s.elim ∅ f) := by
  funext x
  by_cases hx : x = e
  · subst hx
    simp
  · simp [update_of_ne hx]

theorem Indexed.addLayer (h : Indexed R l sets) (hfresh : sets dl.root = none)
    (hR : ∀ e, (sets e).isSome = true → R e dl.root) :
    Indexed R (l.addLayer dl) (update sets dl.root (some dl.states.toStateSet)) := by
  have hR' : ∀ {K : Type} (f : StateSet → Finset K) (e : Hash),
      ((sets e).elim ∅ f).Nonempty → R e dl.root := by
    rintro K f e ⟨k, hk⟩
    refine hR e ?_
    cases he : sets e with
    | none =>
      rw [he] at hk
      exact absurd hk (notMem_empty k)
    | some s => rfl
  constructor
  · rw [update_elim]
    exact h.accounts.append (by rw [hfresh]; rfl) _ (hR' _)
  · rw [update_elim]
    exact h.storages.append (by rw [hfresh]; rfl) _ (hR' _)

theorem nodup_slots (s : StateSet) :
    ((ord.visit s.storageData.keys).flatMap fun a =>
      (ord.visit (get s.storageData a).keys).map fun k => (a, k)).Nodup := by
  refine nodup_flatMap.mpr ⟨fun a _ => ?_, ?_⟩
  · exact (ord.nodup _).map fun _ _ h => (Prod.mk.inj h).2
  · refine (ord.nodup _).imp fun {a b} hab => ?_
    intro k ha hb
    obtain ⟨_, -, rfl⟩ := mem_map.mp ha
    obtain ⟨_, -, h⟩ := mem_map.mp hb
    exact hab (Prod.mk.inj h).1.symm

theorem Indexed.removeLayer (h : Indexed R l sets) (ord : RangeOrder Hash)
    (hin : sets dl.root = some dl.states.toStateSet) :
    Indexed R (l.removeLayer ord dl) (update sets dl.root none) := by
  constructor
  · rw [update_elim]
    refine h.accounts.unlink (fun k => ?_) (ord.nodup _)
    rw [hin, RangeOrder.mem_visit]
    rfl
  · rw [update_elim]
    refine h.storages.unlink (fun k => ?_) (nodup_slots ord _)
    simp [hin, slotKeys]

end Lookup

end GethArb.Pathdb
