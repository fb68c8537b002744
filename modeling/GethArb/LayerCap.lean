/-
  **Flattening layers keeps the lookups right.**

  `cap` moves the layers below the one it walked to into a new disk layer, and removes the
  old disk layer with everything that does not lead to the new one.  Two points carry the
  proof that the invariant of `LayerLookup` is kept:

    * only a chain that really ends at the disk layer in use can be flattened, since the
      history freezer takes no other id; so the new disk layer has the state of its root
      (`TreeInv.over_view`);
    * the cascade of removals visits the roots whose way down, with the link below the new
      disk layer cut, still ends at the old one (`mem_removed`).
-/
import GethArb.LayerLookup

namespace GethArb.Pathdb

open Forest Pathdb.Database GoMap List Finmap Function Memory Nat Anc Except

/-! ### Chains that end at the disk layer in use -/

variable {heap : List Layer} {disk : DiskLayer} {l : Layer}

/-- Ids grow from the disk layer up. -/
theorem Over.id_le {base q : Ptr} {v₀ v : View} (hch : Chained heap)
    (hbase : heap[base]? = some (.disk disk)) (h : Over heap base v₀ q v) (hq : heap[q]? = some l) :
    q = base ∨ disk.id < l.stateID := by
  induction h generalizing l with
  | base => exact Or.inl rfl
  | @diff p dl v hp _ ih =>
    right
    rw [hp] at hq
    cases hq
    obtain ⟨l', hl', hid⟩ := hch p dl hp
    have hid : (Layer.diff dl).stateID = l'.stateID + 1 := hid
    rcases ih hl' with hbase' | hlt
    · rw [hbase', hbase] at hl'
      cases hl'
      rw [hid]
      exact lt_succ_self _
    · omega

/-- What `descend` walks over is above where it stops. -/
theorem Over.of_descend {base : Ptr} {v₀ v : View} :
    ∀ {n : Nat} {q p : Ptr}, descend heap n q = some p → Over heap base v₀ p v →
      ∃ v', Over heap base v₀ q v' := by
  intro n
  induction n with
  | zero =>
    intro q p hdesc hover
    cases hdesc
    exact ⟨v, hover⟩
  | succ n ih =>
    intro q p hdesc hover
    simp only [descend] at hdesc
    split at hdesc
    · rename_i dl hq
      split at hdesc
      · obtain ⟨v', hv'⟩ := ih hdesc hover
        exact ⟨_, Over.diff hq hv'⟩
      · cases hdesc
    · cases hdesc

variable {dl : DiffLayer} {r : Hash}

namespace TreeInv

variable {db : Database} {disk : DiskLayer} {σ : Hash → View}

/-- A layer of the tree on a chain to the disk layer is linked to a layer of the tree. -/
theorem linked_of_over (h : TreeInv db disk σ) {v₀ v : View} (hdl : db.diffAt r = some dl)
    (hover : Over db.heap db.base v₀ dl.parent v) :
    db.layers.lookup (rootAt db.heap dl.parent) = some dl.parent := by
  rcases h.parent r dl hdl with hlink | hdet
  · exact hlink
  obtain ⟨l, hl, hid⟩ := hdet.id
  rcases hover.id_le h.mem.chained h.mem.at_base hl with hbase | hlt
  · rw [hbase, h.rootAt_base]
    exact h.base_mem
  · omega

/-- The state of a chain over the disk layer is the state of its root. -/
theorem over_view (h : TreeInv db disk σ) {p : Ptr} {v : View} (hp : db.layers.lookup r = some p)
    (hover : Over db.heap db.base (disk.view db.kv) p v) : v = σ r := by
  induction hover generalizing r with
  | base =>
    obtain ⟨l, hl, hroot⟩ := h.root_eq r _ hp
    rw [h.mem.at_base] at hl
    cases hl
    rw [← hroot]
    exact h.view_base.symm
  | @diff p dl v hheap hover ih =>
    have hdl : db.diffAt r = some dl := diffAt_eq_some.mpr ⟨p, hp, hheap⟩
    rw [h.view r dl hdl, ih (h.linked_of_over hdl hover)]

/-- The layer that `descend` stops at is in the tree if its parents lead to the disk layer. -/
theorem mem_of_descend (h : TreeInv db disk σ) {v₀ v : View} :
    ∀ {n : Nat} {r : Hash} {q p : Ptr} {dl : DiffLayer}, db.layers.lookup r = some q →
      descend db.heap n q = some p → db.heap[p]? = some (.diff dl) →
      Over db.heap db.base v₀ dl.parent v → db.layers.lookup dl.root = some p := by
  intro n
  induction n with
  | zero =>
    intro r q p dl hq hdesc hp _
    cases hdesc
    obtain ⟨l, hl, hroot⟩ := h.root_eq r _ hq
    rw [hp] at hl
    cases hl
    rw [show dl.root = r from hroot]
    exact hq
  | succ n ih =>
    intro r q p dl hq hdesc hp hover
    simp only [descend] at hdesc
    split at hdesc
    · rename_i dl' hq'
      split at hdesc
      · obtain ⟨v', hv'⟩ := Over.of_descend hdesc (Over.diff hp hover)
        have hdl' : db.diffAt r = some dl' := diffAt_eq_some.mpr ⟨q, hq, hq'⟩
        exact ih (h.linked_of_over hdl' hv') hdesc hp hover
      · cases hdesc
    · cases hdesc

end TreeInv

/-! ### The cascade of removals -/

variable {db : Database}

namespace Database

theorem mem_addChild (hch : Chained heap) (c : GoMap Hash (List Hash)) (root x a : Hash) (p : Ptr) :
    x ∈ get (addChild heap c (root, p)) a ↔
      x ∈ get c a ∨ x = root ∧ ∃ dl : DiffLayer, heap[p]? = some (.diff dl) ∧
        rootAt heap dl.parent = a := by
  unfold addChild
  split
  · rename_i dl hp
    obtain ⟨parent, hparent, -⟩ := hch p dl hp
    have hroot := rootAt_eq hparent
    simp only [hparent, get_insert]
    constructor
    · intro hmem
      split at hmem
      · rename_i ha
        rcases mem_append.mp hmem with hmem | hmem
        · rw [ha]
          exact Or.inl hmem
        · exact Or.inr ⟨mem_singleton.mp hmem, dl, hp, hroot.trans ha.symm⟩
      · exact Or.inl hmem
    · rintro (hmem | ⟨rfl, dl', hp', ha⟩)
      · split
        · rename_i ha
          rw [← ha]
          exact mem_append_left _ hmem
        · exact hmem
      · rw [show heap[p]? = some (.diff dl) from hp] at hp'
        cases hp'
        rw [if_pos (ha.symm.trans hroot)]
        exact mem_append_right _ (mem_singleton.mpr rfl)
  · rename_i hnot
    refine ⟨Or.inl, ?_⟩
    rintro (hmem | ⟨-, dl, hp, -⟩)
    · exact hmem
    · exact absurd hp (hnot dl)

theorem mem_foldl_addChild (hch : Chained heap) (x a : Hash) :
    ∀ (xs : List (Hash × Ptr)) (c : GoMap Hash (List Hash)),
      x ∈ get (xs.foldl (addChild heap) c) a ↔
        x ∈ get c a ∨ ∃ (p : Ptr) (dl : DiffLayer), (x, p) ∈ xs ∧ heap[p]? = some (.diff dl) ∧
          rootAt heap dl.parent = a := by
  intro xs
  induction xs with
  | nil =>
    simp
  | cons e xs ih =>
    intro c
    obtain ⟨root, p⟩ := e
    rw [foldl_cons, ih, mem_addChild hch, or_assoc]
    refine or_congr_right ?_
    constructor
    · rintro (⟨rfl, dl, hp, ha⟩ | ⟨p', dl, hmem, hrest⟩)
      · exact ⟨p, dl, mem_cons_self, hp, ha⟩
      · exact ⟨p', dl, mem_cons_of_mem _ hmem, hrest⟩
    · rintro ⟨p', dl, hmem, hp, ha⟩
      rcases mem_cons.mp hmem with heq | hmem
      · cases heq
        exact Or.inl ⟨rfl, dl, hp, ha⟩
      · exact Or.inr ⟨p', dl, hmem, hp, ha⟩

variable {ord : RangeOrder Hash}

theorem mem_children (hch : Chained db.heap) (x a : Hash) :
    x ∈ GoMap.get (db.children ord) a ↔ db.up x = some a := by
  unfold children
  rw [mem_foldl_addChild hch, up_eq_some]
  simp only [diffAt_eq_some, GoMap.mem_range]
  constructor
  · rintro (hmem | ⟨p, dl, hp, hheap, ha⟩)
    · exact absurd hmem List.not_mem_nil
    · exact ⟨dl, ⟨p, hp, hheap⟩, ha⟩
  · rintro ⟨dl, ⟨p, hp, hheap⟩, ha⟩
    exact Or.inr ⟨p, dl, hp, hheap, ha⟩

/-- `remove` drops a root and what is below it. -/
theorem remove_eq (ord : RangeOrder Hash) (c : GoMap Hash (List Hash)) :
    ∀ (fuel : Nat) (db : Database) (root : Hash),
      remove ord c fuel db root = (preorder (get c) fuel root).foldl (drop ord) db := by
  intro fuel
  induction fuel with
  | zero => exact fun _ _ => rfl
  | succ fuel ih =>
    intro db root
    rw [preorder, foldl_cons, foldl_flatMap]
    exact congrArg (fun f => foldl f (drop ord db root) (get c root))
      (funext fun d => funext fun r => ih d r)

/-- The roots that `remove` drops, starting with `root`. -/
def removedRoots (ord : RangeOrder Hash) (db : Database) (root : Hash) : List Hash :=
  preorder (GoMap.get (db.children ord)) (db.maxID + 1) root

theorem idAt_le_maxID (db : Database) (r : Hash) : db.idAt r ≤ db.maxID := by
  by_cases hr : r ∈ db.layers
  · exact Finset.le_sup (mem_keys.mpr hr)
  · unfold idAt
    rw [lookup_eq_none.mpr hr]
    exact zero_le _

/-- What dropping one root does. -/
theorem drop_spec {db : Database} {R : Hash → Hash → Prop} {s : Hash → Option StateSet}
    {root : Hash} (hroots : ∀ r dl, db.diffAt r = some dl → dl.root = r)
    (hidx : Lookup.Indexed R db.lookup s) (hs : s root = db.sets root) :
    (db.drop ord root).toMemory = db.toMemory ∧ (db.drop ord root).base = db.base ∧
      (db.drop ord root).layers = db.layers.erase root ∧
      (db.drop ord root).descendants = db.descendants.erase root ∧
      Lookup.Indexed R (db.drop ord root).lookup (update s root none) := by
  -- the layer in question is the diff layer of the root, if it has one
  have hclear : ∀ l : Option Layer, ((db.layers.lookup root).bind fun p => db.heap[p]?) = l →
      (db.clearDiff ord l).toMemory = db.toMemory ∧ (db.clearDiff ord l).base = db.base ∧
        (db.clearDiff ord l).layers = db.layers ∧ (db.clearDiff ord l).descendants =
          db.descendants ∧
        Lookup.Indexed R (db.clearDiff ord l).lookup (update s root none) := by
    intro l hl
    by_cases hdiff : ∃ dl, l = some (.diff dl)
    · obtain ⟨dl, rfl⟩ := hdiff
      obtain ⟨p, hp, hheap⟩ := Option.bind_eq_some_iff.mp hl
      have hdl : db.diffAt root = some dl := diffAt_eq_some.mpr ⟨p, hp, hheap⟩
      have hroot := hroots root dl hdl
      refine ⟨rfl, rfl, rfl, rfl, ?_⟩
      rw [← hroot]
      refine hidx.removeLayer ord ?_
      rw [hroot, hs, sets, hdl, Option.map_some]
    · have hnone : db.diffAt root = none := by
        rw [Option.eq_none_iff_forall_ne_some]
        intro dl hdl
        obtain ⟨p, hp, hheap⟩ := diffAt_eq_some.mp hdl
        refine hdiff ⟨dl, ?_⟩
        rw [← hl, hp, Option.bind_some, hheap]
      have hsame : db.clearDiff ord l = db := by
        unfold clearDiff
        split
        · rename_i dl
          exact absurd ⟨dl, rfl⟩ hdiff
        · rfl
      have hupd : update s root none = s := by
        refine update_eq_self_iff.mpr ?_
        rw [hs, sets, hnone, Option.map_none]
      rw [hsame, hupd]
      exact ⟨rfl, rfl, rfl, rfl, hidx⟩
  obtain ⟨hmem, hbase, hlayers, hdesc, hidx'⟩ := hclear _ rfl
  refine ⟨hmem, hbase, ?_, ?_, hidx'⟩
  · exact congrArg (fun m => erase root m) hlayers
  · exact congrArg (fun m => erase root m) hdesc

/-- What dropping a list of roots does. -/
theorem foldl_drop_spec {R : Hash → Hash → Prop} :
    ∀ {L : List Hash} {db : Database} {s : Hash → Option StateSet},
      (∀ r dl, db.diffAt r = some dl → dl.root = r) → Lookup.Indexed R db.lookup s →
      (∀ r ∈ L, s r = db.sets r) →
      (L.foldl (drop ord) db).toMemory = db.toMemory ∧ (L.foldl (drop ord) db).base = db.base ∧
        (∀ r, (L.foldl (drop ord) db).layers.lookup r = if r ∈ L then none
          else db.layers.lookup r) ∧
        (∀ r, get (L.foldl (drop ord) db).descendants r =
          if r ∈ L then ∅ else get db.descendants r) ∧
        Lookup.Indexed R (L.foldl (drop ord) db).lookup (fun r => if r ∈ L then none else s r) := by
  intro L
  induction L with
  | nil =>
    intro db s _ hidx _
    refine ⟨rfl, rfl, fun _ => rfl, fun _ => rfl, ?_⟩
    exact hidx
  | cons root L ih =>
    intro db s hroots hidx hs
    obtain ⟨hmem, hbase, hlayers, hdesc, hidx'⟩ :=
      @drop_spec ord db R s root hroots hidx (hs root mem_cons_self)
    have hheap : (db.drop ord root).heap = db.heap := congrArg heap hmem
    have hdiff : ∀ r, (db.drop ord root).diffAt r = if r = root then none else db.diffAt r := by
      intro r
      unfold diffAt
      rw [hlayers, hheap, lookup_erase_ite]
      split
      · rfl
      · rfl
    have hroots' : ∀ r dl, (db.drop ord root).diffAt r = some dl → dl.root = r := by
      intro r dl hdl
      rw [hdiff] at hdl
      split at hdl
      · cases hdl
      · exact hroots r dl hdl
    have hs' : ∀ r ∈ L, update s root none r = (db.drop ord root).sets r := by
      intro r hr
      unfold sets
      rw [hdiff]
      by_cases hroot : r = root
      · rw [if_pos hroot, hroot, update_self, Option.map_none]
      · rw [if_neg hroot, update_of_ne hroot, hs r (mem_cons_of_mem _ hr)]
        rfl
    obtain ⟨hmem₂, hbase₂, hlayers₂, hdesc₂, hidx₂⟩ := ih hroots' hidx' hs'
    refine ⟨hmem₂.trans hmem, hbase₂.trans hbase, fun r => ?_, fun r => ?_, ?_⟩
    · rw [foldl_cons, hlayers₂ r, hlayers, lookup_erase_ite]
      by_cases hr : r = root
      · simp [hr]
      · simp [hr]
    · rw [foldl_cons, hdesc₂ r, hdesc, get_erase]
      by_cases hr : r = root
      · have hin : r ∈ root :: L := hr ▸ mem_cons_self
        rw [if_pos hr, if_pos hin]
        exact ite_self _
      · simp [hr]
    · have hfun : (fun r => if r ∈ L then none else update s root none r) =
          fun r => if r ∈ root :: L then none else s r := by
        funext r
        by_cases hr : r = root
        · subst hr
          simp
        · simp [hr]
      rw [← hfun]
      exact hidx₂

end Database

/-! ### Flattening -/

/-- What a flattening that goes through does, with the parts of the old database that it reads. -/
structure FlattenStep (db : Database) (disk : DiskLayer) (σ : Hash → View) (p : Ptr)
    (diff par : DiffLayer)
    (m : Memory) (newBase : Ptr) (ndl : DiskLayer) : Prop where
  /-- the layer above stays, and the one below is in the tree as well -/
  mem_diff : db.layers.lookup diff.root = some p
  at_diff : db.heap[p]? = some (.diff diff)
  mem_par : db.layers.lookup par.root = some diff.parent
  at_par : db.heap[diff.parent]? = some (.diff par)
  inv : MemInv m newBase ndl
  view : ndl.view m.kv = σ par.root
  root : ndl.root = par.root
  id : ndl.id = par.id
  evolved : Evolved par.id db.heap m.heap
  at_par' : ∃ q d, m.heap[diff.parent]? = some (.diff { par with parent := q }) ∧
    m.heap[q]? = some (.disk d)

/-- The database between `persist` and the removals. -/
def Database.relinked (db : Database) (m : Memory) (p newBase : Ptr) : Database :=
  { db with
    toMemory := m.link p newBase
    layers := db.layers.insert (rootAt m.heap newBase) newBase }

variable {x : Ptr}

namespace FlattenStep

variable {db : Database} {disk : DiskLayer} {σ : Hash → View} {p newBase : Ptr}
    {diff par : DiffLayer}
  {m : Memory} {ndl : DiskLayer}

section
variable (s : FlattenStep db disk σ p diff par m newBase ndl)
include s

theorem diffAt_par : db.diffAt par.root = some par :=
  diffAt_eq_some.mpr ⟨_, s.mem_par, s.at_par⟩

theorem up_diff : db.up diff.root = some par.root :=
  up_eq_some.mpr ⟨diff, diffAt_eq_some.mpr ⟨_, s.mem_diff, s.at_diff⟩, rootAt_eq s.at_par⟩

theorem rootAt_par' : rootAt m.heap diff.parent = par.root := by
  obtain ⟨q, d, hq, -⟩ := s.at_par'
  exact (rootAt_eq hq).trans rfl

/-- The database between `persist` and the removals. -/
abbrev relinked (_s : FlattenStep db disk σ p diff par m newBase ndl) : Database :=
  db.relinked m p newBase

theorem lookup_relinked (r : Hash) : s.relinked.layers.lookup r =
    if r = par.root then some newBase else db.layers.lookup r := by
  have hroot : rootAt m.heap newBase = par.root := (rootAt_eq s.inv.at_base).trans s.root
  rw [relinked, Database.relinked, hroot, GoMap.lookup_insert_ite]

theorem lookup_relinked_par : s.relinked.layers.lookup par.root = some newBase := by
  rw [lookup_relinked s, if_pos rfl]

end

section
variable (h : TreeInv db disk σ) (s : FlattenStep db disk σ p diff par m newBase ndl)
include h s

theorem par_ne_base : par.root ≠ disk.root := by
  intro heq
  have hnone := h.up_base
  rw [← heq, up, diffAt_par s] at hnone
  cases hnone

theorem id_diff : diff.id = par.id + 1 := by
  obtain ⟨l, hl, hstep⟩ := h.mem.chained p diff s.at_diff
  rw [s.at_par] at hl
  cases hl
  exact hstep

/-- The layer above, in the heap after `persist`. -/
theorem at_diff' : m.heap[p]? = some (.diff diff) := by
  obtain ⟨q, hq, -, hid⟩ := s.evolved.diff p diff s.at_diff
  have hlt : par.id < diff.id := lt_of_succ_le (id_diff h s).ge
  rw [hid hlt] at hq
  exact hq

theorem linked_inv : MemInv (m.link p newBase) newBase ndl := by
  refine link_inv s.inv (at_diff' h s) s.inv.at_base ?_ ?_
  · rw [rootAt_par' s]
    exact s.root
  · rw [id_diff h s]
    exact congrArg (· + 1) s.id.symm

theorem linked_evolved : Evolved diff.id db.heap (m.link p newBase).heap := by
  have hlink : Evolved diff.id m.heap (m.link p newBase).heap := by
    refine link_evolved (at_diff' h s) s.inv.at_base ?_ s.inv.chained
    rw [rootAt_par' s]
    exact s.root
  exact s.evolved.trans hlink (le_of_succ_le (id_diff h s).ge)

/-- Layers above the flattened one are as before, apart from the one that is linked. -/
theorem at_above (hx : db.heap[x]? = some (.diff dl)) (hid : par.id < dl.id) (hxp : x ≠ p) :
    (m.link p newBase).heap[x]? = some (.diff dl) := by
  obtain ⟨q, hq, -, hsame⟩ := s.evolved.diff x dl hx
  rw [hsame hid] at hq
  rw [link_eq (at_diff' h s)]
  exact (getElem?_set_iff (lt_of_getElem? (at_diff' h s))).mpr (Or.inr ⟨hxp, hq⟩)

theorem at_linked : (m.link p newBase).heap[p]? = some (.diff { diff with parent := newBase }) := by
  rw [link_eq (at_diff' h s)]
  exact (getElem?_set_iff (lt_of_getElem? (at_diff' h s))).mpr (Or.inl ⟨rfl, rfl⟩)

/-! The forest of the database between `persist` and the removals. -/

theorem diffAt_relinked_par : s.relinked.diffAt par.root = none :=
  diffAt_of_disk (lookup_relinked_par s) (linked_inv h s).at_base

variable {r x : Hash}

/-- A diff layer keeps its sets and the root of its parent. -/
theorem diffAt_relinked (hr : r ≠ par.root) (hdl : db.diffAt r = some dl) :
    ∃ q, s.relinked.diffAt r = some { dl with parent := q } ∧
      rootAt s.relinked.heap q = rootAt db.heap dl.parent := by
  obtain ⟨x, hx, hheap⟩ := diffAt_eq_some.mp hdl
  obtain ⟨q, hq, hroot, -⟩ := (linked_evolved h s).diff x dl hheap
  refine ⟨q, diffAt_eq_some.mpr ⟨x, ?_, hq⟩, hroot⟩
  rw [lookup_relinked s, if_neg hr]
  exact hx

theorem diffAt_relinked_none (hdl : db.diffAt r = none) : s.relinked.diffAt r = none := by
  by_cases hr : r = par.root
  · rw [hr]
    exact diffAt_relinked_par h s
  rw [Option.eq_none_iff_forall_ne_some]
  intro dl hdl'
  obtain ⟨x, hx, hheap⟩ := diffAt_eq_some.mp hdl'
  rw [lookup_relinked s, if_neg hr] at hx
  obtain ⟨l, hl, -⟩ := h.root_eq r x hx
  cases l with
  | disk d =>
    obtain ⟨stale, hd⟩ := (linked_evolved h s).disk x d hl
    rw [show (m.link p newBase).heap[x]? = some (.diff dl) from hheap] at hd
    cases hd
  | diff dl' =>
    rw [diffAt_eq_some.mpr ⟨x, hx, hl⟩] at hdl
    cases hdl

theorem up_relinked (hr : r ≠ par.root) : s.relinked.up r = db.up r := by
  unfold up
  cases hdl : db.diffAt r with
  | none => rw [diffAt_relinked_none h s hdl, Option.map_none, Option.map_none]
  | some dl =>
    obtain ⟨q, hq, hroot⟩ := diffAt_relinked h s hr hdl
    rw [hq]
    exact congrArg some hroot

theorem up_relinked_par : s.relinked.up par.root = none := by
  rw [up, diffAt_relinked_par h s, Option.map_none]

theorem up_of_relinked {y : Hash} (hxy : s.relinked.up x = some y) : db.up x = some y := by
  have hx : x ≠ par.root := by
    rintro rfl
    rw [up_relinked_par h s] at hxy
    cases hxy
  rw [← up_relinked h s hx]
  exact hxy

theorem sets_relinked (hr : r ≠ par.root) : s.relinked.sets r = db.sets r := by
  unfold sets
  cases hdl : db.diffAt r with
  | none => rw [diffAt_relinked_none h s hdl]
  | some dl =>
    obtain ⟨q, hq, -⟩ := diffAt_relinked h s hr hdl
    rw [hq, Option.map_some, Option.map_some]

theorem idAt_relinked (r : Hash) : s.relinked.idAt r = db.idAt r := by
  by_cases hr : r = par.root
  · subst hr
    rw [idAt_eq (lookup_relinked_par s) (linked_inv h s).at_base, idAt_eq s.mem_par s.at_par]
    exact s.id
  unfold idAt
  rw [lookup_relinked s, if_neg hr]
  cases hx : db.layers.lookup r with
  | none => rfl
  | some x =>
    obtain ⟨l, hl, -⟩ := h.root_eq r x hx
    obtain ⟨l', hl', -, hid⟩ := (linked_evolved h s).layer hl
    rw [Option.bind_some, Option.bind_some, hl,
      show s.relinked.heap[x]? = some l' from hl']
    exact hid

variable (ord : RangeOrder Hash)

/-- **What the cascade removes**: everything in the tree that does not lead to the new disk
    layer. -/
theorem mem_removed (hx : x ∈ db.layers) :
    x ∈ s.relinked.removedRoots ord disk.root ↔ ¬Via db.up x par.root := by
  unfold removedRoots
  have hrank : ∀ x y, s.relinked.up x = some y → s.relinked.idAt y < s.relinked.idAt x := by
    intro x y hxy
    rw [idAt_relinked h s, idAt_relinked h s]
    exact h.up_lt x y (up_of_relinked h s hxy)
  have hfuel : s.relinked.idAt x < s.relinked.idAt disk.root + (s.relinked.maxID + 1) := by
    have := s.relinked.idAt_le_maxID x
    omega
  rw [mem_preorder (fun x a => mem_children (linked_inv h s).chained x a) hrank hfuel]
  have hpar_base : Anc db.up par.root disk.root := by
    rcases h.via_base (mem_of_lookup_eq_some s.mem_par) with heq | hanc
    · exact absurd heq.symm (par_ne_base h s)
    · exact hanc
  have hcut : Anc s.relinked.up x disk.root ↔ Anc db.up x disk.root ∧ ¬Via db.up x par.root := by
    rw [anc_cut (up_relinked_par h s) (fun x hx => up_relinked h s hx) h.irrefl]
    exact and_congr_right fun _ => not_congr (and_iff_left hpar_base)
  constructor
  · rintro (rfl | hanc)
    · rintro (heq | hanc)
      · exact par_ne_base h s heq
      · exact not_anc_of_none h.up_base hanc
    · exact (hcut.mp hanc).2
  · intro hnot
    rcases h.via_base hx with heq | hanc
    · exact Or.inl heq
    · exact Or.inr (hcut.mpr ⟨hanc, hnot⟩)

/-- Only roots of the tree are removed. -/
theorem mem_removed_iff :
    x ∈ s.relinked.removedRoots ord disk.root ↔ x ∈ db.layers ∧ ¬Via db.up x par.root := by
  constructor
  · intro hx
    have hin : x ∈ db.layers := by
      rcases eq_or_child_of_mem_preorder hx with rfl | ⟨a, ha⟩
      · exact mem_of_lookup_eq_some h.base_mem
      · have hup := (mem_children (linked_inv h s).chained x a).mp ha
        exact mem_of_anc (of_up (up_of_relinked h s hup))
    exact ⟨hin, (mem_removed h s ord hin).mp hx⟩
  · exact fun hx => (mem_removed h s ord hx.1).mpr hx.2

/-- A sibling of the layer that `cap` walked to has the same object below it. -/
theorem sibling (hdl : db.diffAt r = some dl) (hparent : rootAt db.heap dl.parent = par.root) :
    dl.parent = diff.parent := by
  rcases h.parent r dl hdl with hlink | hdet
  · rw [hparent, s.mem_par] at hlink
    exact (Option.some.inj hlink).symm
  · exact absurd (hparent.symm.trans hdet.root) (par_ne_base h s)

/-- A diff layer of the relinked database, with what it was before. -/
theorem diffAt_of_relinked {dl' : DiffLayer} (hdl' : s.relinked.diffAt r = some dl') :
    ∃ dl q, db.diffAt r = some dl ∧ dl' = { dl with parent := q } ∧
      rootAt s.relinked.heap q = rootAt db.heap dl.parent := by
  have hr : r ≠ par.root := by
    rintro rfl
    rw [diffAt_relinked_par h s] at hdl'
    cases hdl'
  cases hdl : db.diffAt r with
  | none =>
    rw [diffAt_relinked_none h s hdl] at hdl'
    cases hdl'
  | some dl =>
    obtain ⟨q, hq, hroot⟩ := diffAt_relinked h s hr hdl
    rw [hq] at hdl'
    cases hdl'
    exact ⟨dl, q, rfl, rfl, hroot⟩

theorem relinked_roots : ∀ r dl, s.relinked.diffAt r = some dl → dl.root = r := by
  intro r dl hdl
  obtain ⟨dl₀, q, hold, rfl, -⟩ := diffAt_of_relinked h s hdl
  have hroot : dl₀.root = r := h.root_of_diffAt hold
  exact hroot

end

end FlattenStep

/-- The database `db'` after the removals: what led to the flattened layer `par` is left, over
    the new disk layer. -/
structure Capped (db : Database) (p : Ptr) (par : DiffLayer) (m : Memory) (newBase : Ptr)
    (db' : Database) : Prop where
  memory : db'.toMemory = m.link p newBase
  base : db'.base = newBase
  lookup_par : db'.layers.lookup par.root = some newBase
  lookup_above : ∀ r, Anc db.up r par.root → db'.layers.lookup r = db.layers.lookup r
  kept : ∀ r ∈ db'.layers, Via db.up r par.root
  descendants : ∀ a, GoMap.get db'.descendants a =
    open Classical in if a ∈ db.layers ∧ ¬Via db.up a par.root then ∅
      else GoMap.get db.descendants a
  index : Lookup.Indexed (fun e f => ¬Anc db.up e f) db'.lookup
    (open Classical in fun r => if Anc db.up r par.root then db.sets r else none)

theorem FlattenStep.capped {db : Database} {disk : DiskLayer} {σ : Hash → View} {p newBase : Ptr}
    {diff par : DiffLayer} {m : Memory} {ndl : DiskLayer} (h : TreeInv db disk σ)
    (s : FlattenStep db disk σ p diff par m newBase ndl) (ord : RangeOrder Hash) :
    Capped db p par m newBase
      { ((s.relinked.removedRoots ord disk.root).foldl (drop ord)
          s.relinked).clearDiff ord (some (.diff par)) with base := newBase } := by
  classical
  have hremoved : ∀ {x}, x ∈ s.relinked.removedRoots ord disk.root ↔
      x ∈ db.layers ∧ ¬Via db.up x par.root := mem_removed_iff h s ord
  generalize s.relinked.removedRoots ord disk.root = L at hremoved ⊢
  have hpar_notMem : par.root ∉ L := fun hin => (hremoved.mp hin).2 (Via.refl _)
  have hs : ∀ r ∈ L, db.sets r = s.relinked.sets r := by
    intro r hr
    refine (sets_relinked h s ?_).symm
    rintro rfl
    exact hpar_notMem hr
  obtain ⟨hmem, -, hlayers, hdescs, hidx⟩ :=
    @foldl_drop_spec ord _ L s.relinked db.sets (relinked_roots h s) h.indexed hs
  have habove : ∀ {r}, Anc db.up r par.root → r ≠ par.root ∧ r ∉ L := by
    intro r hr
    exact ⟨h.ne_of_anc hr, fun hin => (hremoved.mp hin).2 (Or.inr hr)⟩
  have hlook : ∀ r, (L.foldl (drop ord) s.relinked).layers.lookup r =
      if r ∈ L then none else if r = par.root then some newBase else db.layers.lookup r := by
    intro r
    rw [hlayers, lookup_relinked s]
  refine ⟨hmem, rfl, ?_, ?_, ?_, ?_, ?_⟩
  · exact (hlook par.root).trans (by rw [if_neg hpar_notMem, if_pos rfl])
  · intro r hr
    exact (hlook r).trans (by rw [if_neg (habove hr).2, if_neg (habove hr).1])
  · intro r hr
    obtain ⟨x, hx⟩ := mem_iff.mp hr
    have hx := (hlook r).symm.trans hx
    split at hx
    · cases hx
    rename_i hnot
    split at hx
    · rename_i heq
      exact Or.inl heq.symm
    · by_contra hvia
      exact hnot (hremoved.mpr ⟨mem_of_lookup_eq_some hx, hvia⟩)
  · intro a
    refine (hdescs a).trans ?_
    by_cases ha : a ∈ L
    · rw [if_pos ha, if_pos (hremoved.mp ha)]
    · rw [if_neg ha, if_neg fun h => ha (hremoved.mpr h)]
      rfl
  · -- the entries of the flattened layer go last
    have hpar_sets : (if par.root ∈ L then none else db.sets par.root) =
      some par.states.toStateSet := by
      rw [if_neg hpar_notMem, sets, diffAt_par s, Option.map_some]
    have hsets : (fun r => if Anc db.up r par.root then db.sets r else none) =
        update (fun r => if r ∈ L then none else db.sets r) par.root none := by
      funext r
      by_cases hr : r = par.root
      · rw [hr, update_self, if_neg (h.irrefl _)]
      rw [update_of_ne hr]
      by_cases hanc : Anc db.up r par.root
      · rw [if_pos hanc, if_neg (habove hanc).2]
      rw [if_neg hanc]
      split
      · rfl
      rename_i hin
      rw [sets, diffAt_of_notMem, Option.map_none]
      intro hmem'
      refine hin (hremoved.mpr ⟨hmem', ?_⟩)
      rintro (heq | hanc')
      · exact hr heq.symm
      · exact hanc hanc'
    rw [hsets]
    exact hidx.removeLayer ord hpar_sets

variable {early : Nat → Bool}
variable {ord : RangeOrder Hash} {cfg : Config} {σ : Hash → View} {n : Nat}

open FlattenStep

/-- **What `flatten` does**: nothing, if the layer stands on a disk layer; else a flattening
    step with the removals after it. -/
theorem TreeInv.flatten_spec {db' : Database} (h : TreeInv db disk σ) {q p : Ptr}
    (hq : db.layers.lookup r = some q) (hdesc : descend db.heap n q = some p)
    (hflat : db.flatten cfg ord early p = .ok db') :
    ∃ diff : DiffLayer, db.heap[p]? = some (.diff diff) ∧
      (db' = db ∧ (∃ d : DiskLayer, db.heap[diff.parent]? = some (.disk d)) ∨
        ∃ par m newBase ndl, FlattenStep db disk σ p diff par m newBase ndl ∧
          Capped db p par m newBase db') := by
  unfold Database.flatten at hflat
  split at hflat
  · rename_i diff hp
    refine ⟨diff, hp, ?_⟩
    split at hflat
    · rename_i par hpar
      obtain ⟨⟨m, newBase⟩, hpersist, hflat⟩ := bind_eq_ok.mp hflat
      obtain ⟨ndl, v, hover, hflattened, hpar'⟩ := persist_spec h.mem hpar hpersist
      have hdiff_mem := h.mem_of_descend hq hdesc hp hover
      have hpar_mem := h.linked_of_over (diffAt_eq_some.mpr ⟨p, hdiff_mem, hp⟩) hover
      rw [rootAt_eq hpar] at hpar_mem
      have s : FlattenStep db disk σ p diff par m newBase ndl :=
        ⟨hdiff_mem, hp, hpar_mem, hpar, hflattened.inv,
          hflattened.view.trans (h.over_view hpar_mem hover),
          hflattened.root, hflattened.id, hflattened.evolved, hpar'⟩
      refine Or.inr ⟨par, m, newBase, ndl, s, ?_⟩
      rw [← ok.inj hflat]
      -- the removals start at the root of the old disk layer
      have hroot : rootAt s.relinked.heap s.relinked.base = disk.root :=
        ((linked_evolved h s).rootAt_eq h.mem.at_base).trans h.rootAt_base
      have hcapped := capped h s ord
      rw [removedRoots, ← remove_eq, ← hroot] at hcapped
      exact hcapped
    · rename_i d hd
      cases hflat
      exact Or.inl ⟨rfl, d, hd⟩
    · cases hflat
  · cases hflat

namespace Capped

variable {db db' : Database} {disk : DiskLayer} {σ : Hash → View} {p newBase : Ptr}
    {diff par : DiffLayer}
  {m : Memory} {ndl : DiskLayer}

theorem heap_eq (c : Capped db p par m newBase db') : db'.heap = (m.link p newBase).heap :=
  congrArg heap c.memory

theorem mem_iff (c : Capped db p par m newBase db')
    (r : Hash) : r ∈ db'.layers ↔ Via db.up r par.root := by
  refine ⟨c.kept r, ?_⟩
  rintro (rfl | hr)
  · exact mem_of_lookup_eq_some c.lookup_par
  · obtain ⟨x, hx⟩ := Finmap.mem_iff.mp (Database.mem_of_anc hr)
    exact mem_of_lookup_eq_some ((c.lookup_above r hr).trans hx)

theorem mem_of_kept (s : FlattenStep db disk σ p diff par m newBase ndl)
    (c : Capped db p par m newBase db') (hr : r ∈ db'.layers) : r ∈ db.layers := by
  rcases c.kept r hr with heq | hanc
  · rw [← heq]
    exact mem_of_lookup_eq_some s.mem_par
  · exact mem_of_anc hanc

section
variable (h : TreeInv db disk σ) (s : FlattenStep db disk σ p diff par m newBase ndl)
  (c : Capped db p par m newBase db')
include h s c

theorem inv_memory : MemInv db'.toMemory db'.base ndl := by
  rw [c.memory, c.base]
  exact linked_inv h s

theorem kv_eq : db'.kv = m.kv := by
  rw [show db'.kv = (m.link p newBase).kv from congrArg kv c.memory, link_eq (at_diff' h s)]

theorem evolved : Evolved diff.id db.heap db'.heap := by
  rw [c.heap_eq]
  exact linked_evolved h s

variable {r : Hash}

theorem diffAt_above (hr : Anc db.up r par.root) : db'.diffAt r = s.relinked.diffAt r := by
  have hne := h.ne_of_anc hr
  unfold diffAt
  rw [c.lookup_above r hr, lookup_relinked s, if_neg hne, c.heap_eq]
  rfl

theorem diffAt_other (hr : ¬Anc db.up r par.root) : db'.diffAt r = none := by
  by_cases heq : r = par.root
  · rw [heq]
    have hat : db'.heap[newBase]? = some (.disk ndl) := by
      rw [c.heap_eq]
      exact (linked_inv h s).at_base
    exact diffAt_of_disk c.lookup_par hat
  · refine diffAt_of_notMem fun hin => ?_
    rcases c.kept r hin with heq' | hanc
    · exact heq heq'.symm
    · exact hr hanc

variable {dl' dl : DiffLayer}

/-- A diff layer that is left, with what it was before. -/
theorem before (hdl' : db'.diffAt r = some dl') :
    Anc db.up r par.root ∧ ∃ dl q, db.diffAt r = some dl ∧ dl' = { dl with parent := q } ∧
      rootAt db'.heap q = rootAt db.heap dl.parent := by
  have hanc : Anc db.up r par.root := by
    by_contra hnot
    rw [diffAt_other h s c hnot] at hdl'
    cases hdl'
  rw [diffAt_above h s c hanc] at hdl'
  obtain ⟨dl, q, hdl, rfl, hroot⟩ := diffAt_of_relinked h s hdl'
  refine ⟨hanc, dl, q, hdl, rfl, ?_⟩
  rw [c.heap_eq]
  exact hroot

theorem up_above (hr : Anc db.up r par.root) : db'.up r = db.up r := by
  have hne := h.ne_of_anc hr
  rw [← up_relinked h s hne, up, diffAt_above h s c hr, c.heap_eq]
  rfl

theorem up_other (hr : ¬Anc db.up r par.root) : db'.up r = none := by
  rw [up, diffAt_other h s c hr, Option.map_none]

theorem anc_iff_above {x a : Hash} : Anc db'.up x a ↔ Anc db.up x a ∧ Via db.up a par.root :=
  anc_restrict (fun _ hx => up_above h s c hx) fun _ hx => up_other h s c hx

/-- The layer that was linked to the new disk layer. -/
theorem linked_diff : db'.diffAt diff.root = some { diff with parent := newBase } := by
  refine diffAt_eq_some.mpr ⟨p, ?_, ?_⟩
  · rw [c.lookup_above _ (of_up (up_diff s))]
    exact s.mem_diff
  · rw [c.heap_eq]
    exact at_linked h s

/-- Every other diff layer that is left is as it was. -/
theorem diffAt_unlinked (hanc : Anc db.up r par.root) (hdl : db.diffAt r = some dl)
    (hr : r ≠ diff.root) : db'.diffAt r = some dl := by
  obtain ⟨x, hx, hheap⟩ := diffAt_eq_some.mp hdl
  have hid : par.id < dl.id := by
    have hlt := hanc.rank_lt h.up_lt
    rwa [idAt_eq hx hheap, idAt_eq s.mem_par s.at_par] at hlt
  have hxp : x ≠ p := by
    rintro rfl
    rw [s.at_diff] at hheap
    cases hheap
    exact hr (h.root_of_diffAt hdl).symm
  refine diffAt_eq_some.mpr ⟨x, ?_, ?_⟩
  · rw [c.lookup_above r hanc]
    exact hx
  · rw [c.heap_eq]
    exact at_above h s hheap hid hxp

/-- The old object of the flattened layer, in the heap after the removals. -/
theorem at_par : ∃ (q : Ptr)
    (d : DiskLayer), db'.heap[diff.parent]? = some (.diff { par with parent := q }) ∧
    db'.heap[q]? = some (.disk d) := by
  obtain ⟨q, d, hq, hd⟩ := s.at_par'
  have hlt := lt_of_getElem? (at_diff' h s)
  have hpar_p : diff.parent ≠ p := by
    intro hcontra
    have hpar := s.at_par
    rw [hcontra, s.at_diff] at hpar
    cases hpar
    exact h.irrefl _ (of_up (up_diff s))
  have hq_p : q ≠ p := by
    rintro rfl
    rw [at_diff' h s] at hd
    cases hd
  rw [c.heap_eq, link_eq (at_diff' h s)]
  exact ⟨q, d, (getElem?_set_iff hlt).mpr (Or.inr ⟨hpar_p, hq⟩),
    (getElem?_set_iff hlt).mpr (Or.inr ⟨hq_p, hd⟩)⟩

/-- The old object of the flattened layer stands below the new disk layer, and what it links
    to is gone. -/
theorem detached_par : Detached db' ndl diff.parent := by
  obtain ⟨q, d, hq, hd⟩ := at_par h s c
  refine ⟨(rootAt_eq hq).trans s.root.symm, ⟨_, hq, s.id.symm⟩, ?_⟩
  intro a ha hin
  rw [ancestors_diff (inv_memory h s c).chained hq, ancestors_disk hd, List.mem_singleton] at ha
  obtain ⟨q', hq', hroot, -⟩ := (evolved h s c).diff diff.parent par s.at_par
  rw [hq] at hq'
  have hqq : q = q' := congrArg DiffLayer.parent (Layer.diff.inj (Option.some.inj hq'))
  have hup_par : db.up par.root = some a := by
    refine up_eq_some.mpr ⟨par, diffAt_par s, ?_⟩
    rw [ha, hqq]
    exact hroot.symm
  exact h.irrefl _ ((of_up hup_par).trans_via (c.kept a hin))

/-- A layer that is left is linked to a layer of the tree, siblings apart. -/
theorem linked_kept (hdl' : db'.diffAt r = some dl')
    (hsibling : rootAt db'.heap dl'.parent = par.root → r = diff.root) :
    db'.layers.lookup (rootAt db'.heap dl'.parent) = some dl'.parent := by
  by_cases hr : r = diff.root
  · subst hr
    rw [linked_diff h s c] at hdl'
    cases hdl'
    have hat := (inv_memory h s c).at_base
    rw [c.base] at hat
    rw [rootAt_eq hat, show (Layer.disk ndl).rootHash = par.root from s.root]
    exact c.lookup_par
  · obtain ⟨hanc, dl, q, hdl, -, -⟩ := before h s c hdl'
    have hsame := diffAt_unlinked h s c hanc hdl hr
    rw [hdl'] at hsame
    cases hsame
    obtain ⟨x, -, hx⟩ := diffAt_eq_some.mp hdl
    obtain ⟨y, hy, -⟩ := h.mem.chained x dl' hx
    have hrootAt : rootAt db'.heap dl'.parent = rootAt db.heap dl'.parent :=
      (evolved h s c).rootAt_eq hy
    obtain ⟨b, hb, hvia⟩ := anc_iff.mp hanc
    obtain ⟨dl₀, hdl₀, rfl⟩ := up_eq_some.mp hb
    rw [hdl] at hdl₀
    cases hdl₀
    rw [hrootAt] at hsibling ⊢
    rcases hvia with heq | hanc_parent
    · exact absurd (hsibling heq.symm) hr
    rw [c.lookup_above _ hanc_parent]
    rcases h.parent r dl' hdl with hlink | hdet
    · exact hlink
    · rw [hdet.root] at hanc_parent
      exact absurd hanc_parent (not_anc_of_none h.up_base)

/-- A sibling stays with the old object of the flattened layer. -/
theorem sibling_kept (hdl : db.diffAt r = some dl) (hparent : rootAt db.heap dl.parent = par.root)
    (hr : r ≠ diff.root) : db'.diffAt r = some dl ∧ dl.parent = diff.parent := by
  have hup : db.up r = some par.root := up_eq_some.mpr ⟨dl, hdl, hparent⟩
  exact ⟨diffAt_unlinked h s c (of_up hup) hdl hr, sibling h s hdl hparent⟩

theorem parent_kept (hdl' : db'.diffAt r = some dl') :
    db'.layers.lookup (rootAt db'.heap dl'.parent) = some dl'.parent ∨
      Detached db' ndl dl'.parent := by
  by_cases hsibling : rootAt db'.heap dl'.parent = par.root → r = diff.root
  · exact Or.inl (linked_kept h s c hdl' hsibling)
  right
  obtain ⟨hroot, hr⟩ := Classical.not_imp.mp hsibling
  obtain ⟨-, dl, q, hdl, rfl, hsame⟩ := before h s c hdl'
  obtain ⟨hdl₂, hparent⟩ := sibling_kept h s c hdl (hsame.symm.trans hroot) hr
  rw [hdl'] at hdl₂
  have hq : q = dl.parent := congrArg DiffLayer.parent (Option.some.inj hdl₂)
  rw [hq, hparent]
  exact detached_par h s c

/-- **The removals leave a tree over the new disk layer**, with the same states. -/
theorem inv : TreeInv db' ndl σ := by
  refine ⟨inv_memory h s c, ?_, ?_, ?_, fun r dl' => parent_kept h s c, ?_, ?_, ?_, ?_⟩
  · rw [s.root, c.base]
    exact c.lookup_par
  · -- the layer of a root has this root
    intro r x hx
    rcases c.kept r (mem_of_lookup_eq_some hx) with rfl | hanc
    · rw [c.lookup_par] at hx
      cases hx
      rw [c.heap_eq]
      exact ⟨_, (linked_inv h s).at_base, s.root⟩
    · rw [c.lookup_above r hanc] at hx
      obtain ⟨l, hl, hroot⟩ := h.root_eq r x hx
      obtain ⟨l', hl', hroot', -⟩ := (evolved h s c).layer hl
      exact ⟨l', hl', hroot'.trans hroot⟩
  · -- there is one disk layer
    intro r x d hx hd
    rcases c.kept r (mem_of_lookup_eq_some hx) with rfl | hanc
    · rw [c.lookup_par] at hx
      cases hx
      exact c.base.symm
    rw [c.lookup_above r hanc] at hx
    obtain ⟨b, hb, -⟩ := anc_iff.mp hanc
    obtain ⟨dl, hdl, -⟩ := up_eq_some.mp hb
    obtain ⟨x', hx', hheap'⟩ := diffAt_eq_some.mp hdl
    rw [hx] at hx'
    cases hx'
    obtain ⟨q, hq, -⟩ := (evolved h s c).diff x dl hheap'
    rw [hd] at hq
    cases hq
  · rw [s.root, kv_eq h s c]
    exact s.view.symm
  · -- states
    intro r dl' hdl'
    obtain ⟨-, dl, q, hdl, rfl, hroot⟩ := before h s c hdl'
    rw [hroot]
    exact h.view r dl hdl
  · -- descendants
    intro a x ha
    have hvia := c.kept a ha
    have ha_mem := mem_of_kept s c ha
    rw [c.descendants a, if_neg fun hnot => hnot.2 hvia, h.desc a x ha_mem, anc_iff_above h s c,
      c.mem_iff]
    constructor
    · rintro ⟨-, hxa⟩
      exact ⟨Or.inr (hxa.trans_via hvia), hxa, hvia⟩
    · rintro ⟨-, hxa, -⟩
      exact ⟨mem_of_anc hxa, hxa⟩
  · -- the index
    have hsets : db'.sets = open Classical in fun r => if Anc db.up r par.root then db.sets r
      else none := by
      funext r
      by_cases hanc : Anc db.up r par.root
      · have hne := h.ne_of_anc hanc
        rw [if_pos hanc, ← sets_relinked h s hne, sets, sets, diffAt_above h s c hanc]
      · rw [if_neg hanc, sets, diffAt_other h s c hanc, Option.map_none]
    rw [hsets]
    exact c.index.mono fun e f _ _ hef hanc => hef ((anc_iff_above h s c).mp hanc).1

end

end Capped

/-! ### The operations keep the invariant -/

variable {root : Hash}

namespace TreeInv

variable {db db' : Database} {disk : DiskLayer} {σ : Hash → View}

/-- `cap` to no layers leaves a tree with a disk layer only, which has the state of the root. -/
theorem cap_zero (h : TreeInv db disk σ) (hcap : db.cap cfg ord early root 0 = .ok db') :
    ∃ disk', MemInv db'.toMemory db'.base disk' ∧ σ disk'.root = disk'.view db'.kv ∧
      db' = Database.newLayerTree db'.toMemory db'.base disk' ∧ disk'.root ∈ db.layers := by
  unfold cap at hcap
  split at hcap
  · cases hcap
  rename_i p hp
  split at hcap
  · rename_i diff hdiff
    obtain ⟨⟨m, base⟩, hpersist, hcap⟩ := bind_eq_ok.mp hcap
    obtain ⟨ndl, v, hover, hflat, -⟩ := persist_spec h.mem hdiff hpersist
    have hroot : rootAt m.heap base = ndl.root := rootAt_eq hflat.inv.at_base
    obtain ⟨l, hl, hrooteq⟩ := h.root_eq root p hp
    rw [hdiff] at hl
    cases hl
    have hndl : ndl.root = root := hflat.root.trans hrooteq
    have hdb' := (ok.inj hcap).symm
    rw [hroot] at hdb'
    subst hdb'
    refine ⟨ndl, hflat.inv, ?_, rfl, ?_⟩
    · rw [hndl, ← h.over_view hp hover]
      exact hflat.view.symm
    · rw [hndl]
      exact mem_of_lookup_eq_some hp
  · cases hcap
  · cases hcap

end TreeInv

/-- What a successful `cap` with at least one layer does. -/
theorem Database.cap_spec {db' : Database} (hn : n ≠ 0)
    (hcap : db.cap cfg ord early root n = .ok db') :
    ∃ q, db.layers.lookup root = some q ∧ (descend db.heap (n - 1) q = none ∧ db' = db ∨
      ∃ p, descend db.heap (n - 1) q = some p ∧ db.flatten cfg ord early p = .ok db') := by
  unfold cap at hcap
  split at hcap
  · cases hcap
  rename_i q hq
  refine ⟨q, hq, ?_⟩
  split at hcap
  · rw [if_neg hn] at hcap
    split at hcap
    · rename_i hdesc
      exact Or.inl ⟨hdesc, (ok.inj hcap).symm⟩
    · rename_i p hdesc
      exact Or.inr ⟨p, hdesc, hcap⟩
  · cases hcap
  · cases hcap

/-- **`cap` keeps the invariant**, over the same states, and adds no root. -/
theorem TreeInv.cap {db' : Database} (h : TreeInv db disk σ)
    (hcap : db.cap cfg ord early root n = .ok db') :
    ∃ disk', TreeInv db' disk' σ ∧ ∀ r ∈ db'.layers, r ∈ db.layers := by
  by_cases hn : n = 0
  · subst hn
    obtain ⟨disk', hmem, hview, hdb', hroot⟩ := h.cap_zero hcap
    rw [hdb']
    refine ⟨disk', TreeInv.newLayerTree hmem hview, ?_⟩
    intro r hr
    rw [(Finmap.mem_singleton _ _ _).mp hr]
    exact hroot
  · obtain ⟨q, hq, ⟨-, rfl⟩ | ⟨p, hdesc, hflat⟩⟩ := cap_spec hn hcap
    · exact ⟨disk, h, fun _ hr => hr⟩
    · obtain ⟨diff, -, ⟨rfl, -⟩ | ⟨par, m, newBase, ndl, s, c⟩⟩ := h.flatten_spec hq hdesc hflat
      · exact ⟨disk, h, fun _ hr => hr⟩
      · exact ⟨ndl, Capped.inv h s c, fun _ => Capped.mem_of_kept s c⟩

/-! ### The end of a background flush -/

/-- The database `db'` after the flush of `disk` came to its end, which left `disk'`. -/
structure Settled (db : Database) (disk disk' : DiskLayer) (db' : Database) : Prop where
  frozen : ∃ frozen, disk' = { disk with frozen := frozen }
  view : disk'.view db'.kv = disk.view db.kv
  flushed : Flushed db'.kv disk'.frozen
  eq : db' = { db with heap := db.heap.set db.base (.disk disk'), kv := db'.kv }

theorem TreeInv.settled (h : TreeInv db disk σ) : ∃ disk', Settled db disk disk' db.settle := by
  obtain ⟨hview, hflushed, hfrozen⟩ := DiskLayer.settle_spec h.mem.flushed
  have hdb : db.settle = { db with
      heap := db.heap.set db.base (.disk (disk.settle db.kv).1), kv := (disk.settle db.kv).2 } := by
    unfold settle
    simp only [h.mem.at_base]
  have hkv : db.settle.kv = (disk.settle db.kv).2 := by rw [hdb]
  refine ⟨(disk.settle db.kv).1, hfrozen, ?_, ?_, ?_⟩
  · rw [hkv]
    exact hview
  · rw [hkv]
    exact hflushed
  · rw [hkv]
    exact hdb

namespace Settled

variable {db db' : Database} {disk disk' : DiskLayer} {σ : Hash → View}

theorem root_eq (e : Settled db disk disk' db') : disk'.root = disk.root := by
  obtain ⟨frozen, hfrozen⟩ := e.frozen
  rw [hfrozen]

theorem id_eq (e : Settled db disk disk' db') : disk'.id = disk.id := by
  obtain ⟨frozen, hfrozen⟩ := e.frozen
  rw [hfrozen]

theorem layers_eq (e : Settled db disk disk' db') : db'.layers = db.layers := by rw [e.eq]

theorem base_eq (e : Settled db disk disk' db') : db'.base = db.base := by rw [e.eq]

section
variable (h : TreeInv db disk σ) (e : Settled db disk disk' db')
include h e

theorem at_iff (x : Ptr) (y : Layer) : db'.heap[x]? = some y ↔
    x = db.base ∧ y = .disk disk' ∨ x ≠ db.base ∧ db.heap[x]? = some y := by
  rw [e.eq]
  exact getElem?_set_iff (lt_of_getElem? h.mem.at_base)

theorem at_diff_iff (x : Ptr) (dl : DiffLayer) :
    db'.heap[x]? = some (.diff dl) ↔ db.heap[x]? = some (.diff dl) := by
  rw [at_iff h e]
  constructor
  · rintro (⟨-, heq⟩ | ⟨-, hx⟩)
    · cases heq
    · exact hx
  · intro hx
    refine Or.inr ⟨?_, hx⟩
    rintro rfl
    rw [h.mem.at_base] at hx
    cases hx

theorem layer (hx : db.heap[x]? = some l) :
    ∃ l', db'.heap[x]? = some l' ∧ l'.rootHash = l.rootHash ∧ l'.stateID = l.stateID := by
  by_cases hxb : x = db.base
  · subst hxb
    rw [h.mem.at_base] at hx
    cases hx
    exact ⟨_, (at_iff h e _ _).mpr (Or.inl ⟨rfl, rfl⟩), e.root_eq, e.id_eq⟩
  · exact ⟨l, (at_iff h e _ _).mpr (Or.inr ⟨hxb, hx⟩), rfl, rfl⟩

theorem chained : Chained db'.heap := by
  intro x dl hx
  obtain ⟨l, hl, hstep⟩ := h.mem.chained x dl ((at_diff_iff h e x dl).mp hx)
  obtain ⟨l', hl', -, hid'⟩ := layer h e hl
  exact ⟨l', hl', by rw [hid', hstep]⟩

theorem ancestors_eq (hx : db.heap[x]? = some l) : ancestors db'.heap x = ancestors db.heap x := by
  refine ancestors_congr h.mem.chained (chained h e) (fun q dl => (at_diff_iff h e q dl).mpr) ?_ hx
  intro q d hq
  obtain ⟨l', hl', heq, -⟩ := layer h e hq
  cases l' with
  | disk d' => exact ⟨d', hl', heq⟩
  | diff dl =>
    rw [(at_diff_iff h e q dl).mp hl'] at hq
    cases hq

theorem diffAt_eq (r : Hash) : db'.diffAt r = db.diffAt r := by
  ext dl
  rw [diffAt_eq_some, diffAt_eq_some, e.layers_eq]
  exact exists_congr fun x => and_congr_right fun _ => at_diff_iff h e x dl

theorem rootAt_parent (hdl : db.diffAt r = some dl) :
    rootAt db'.heap dl.parent = rootAt db.heap dl.parent := by
  obtain ⟨x, -, hx⟩ := diffAt_eq_some.mp hdl
  obtain ⟨l, hl, -⟩ := h.mem.chained x dl hx
  obtain ⟨l', hl', heq, -⟩ := layer h e hl
  rw [rootAt_eq hl', rootAt_eq hl, heq]

theorem up_eq : db'.up = db.up := by
  funext r
  unfold up
  rw [diffAt_eq h e]
  cases hdl : db.diffAt r with
  | none => rfl
  | some dl => rw [Option.map_some, Option.map_some, rootAt_parent h e hdl]

theorem inv_memory : MemInv db'.toMemory db'.base disk' := by
  refine ⟨chained h e, ?_, ?_, e.flushed, ?_, ?_⟩
  · rw [e.base_eq]
    exact (at_iff h e _ _).mpr (Or.inl ⟨rfl, rfl⟩)
  · obtain ⟨frozen, hfrozen⟩ := e.frozen
    rw [hfrozen]
    exact h.mem.alive
  · rw [e.id_eq, show db'.freezer = db.freezer by rw [e.eq]]
    exact h.mem.histories
  · intro x d hx hxb
    rw [e.base_eq] at hxb
    rcases (at_iff h e x _).mp hx with ⟨heq, -⟩ | ⟨-, hx⟩
    · exact absurd heq hxb
    · rw [e.id_eq]
      exact h.mem.others x d hx hxb

/-- **The end of a background flush keeps the invariant.** -/
theorem inv : TreeInv db' disk' σ := by
  refine ⟨inv_memory h e, ?_, ?_, ?_, ?_, ?_, ?_, ?_, ?_⟩
  · rw [e.layers_eq, e.root_eq, e.base_eq]
    exact h.base_mem
  · intro r x hx
    rw [e.layers_eq] at hx
    obtain ⟨l, hl, hroot⟩ := h.root_eq r x hx
    obtain ⟨l', hl', heq, -⟩ := layer h e hl
    exact ⟨l', hl', heq.trans hroot⟩
  · intro r x d hx hxd
    rw [e.layers_eq] at hx
    rw [e.base_eq]
    rcases (at_iff h e x _).mp hxd with ⟨heq, -⟩ | ⟨-, hxd⟩
    · exact heq
    · exact h.disk_eq r x d hx hxd
  · intro r dl hdl
    rw [diffAt_eq h e] at hdl
    rw [rootAt_parent h e hdl, e.layers_eq]
    rcases h.parent r dl hdl with hlink | hdet
    · exact Or.inl hlink
    right
    obtain ⟨l, hl, hlid⟩ := hdet.id
    obtain ⟨l', hl', -, hid'⟩ := layer h e hl
    refine ⟨?_, ⟨l', hl', by rw [hid', hlid, e.id_eq]⟩, ?_⟩
    · rw [rootAt_parent h e hdl, e.root_eq]
      exact hdet.root
    · rw [ancestors_eq h e hl, e.layers_eq]
      exact hdet.gone
  · rw [e.root_eq, e.view]
    exact h.view_base
  · intro r dl hdl
    rw [diffAt_eq h e] at hdl
    rw [rootAt_parent h e hdl]
    exact h.view r dl hdl
  · intro a x ha
    rw [e.layers_eq] at ha ⊢
    rw [up_eq h e, show db'.descendants = db.descendants by rw [e.eq]]
    exact h.desc a x ha
  · have hsets : db'.sets = db.sets := by
      funext r
      rw [sets, sets, diffAt_eq h e]
    rw [up_eq h e, hsets, show db'.lookup = db.lookup by rw [e.eq]]
    exact h.indexed

end

end Settled

end GethArb.Pathdb
