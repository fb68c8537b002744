/-
  **A commit writes what changed.**  The committer records one event for every node it
  visits; what it does not visit is in the database already.  With what the tracers know
  (`TrieInv`), the node set turns a database with exactly the nodes of the old tree into one
  with exactly the nodes of the new tree, in whatever order the children are committed.
-/
import GethArb.TrieCommit
import GethArb.TrieRun

namespace GethArb.MPT

open Patricia NodeSet Finmap Collapsed NodeFlag MPT.Trie
open List hiding Perm

/-! ### Events -/

/-- One addition to a node set. -/
inductive Event where
  | node (path : Path) (n : NodeWithPrev)
  | leaf (parent : Hash) (blob : Bytes)

def NodeSet.record (set : NodeSet) : Event → NodeSet
  | .node path n => set.addNode path n
  | .leaf parent blob => set.addLeaf parent blob

def NodeSet.recordAll (set : NodeSet) (evs : List Event) : NodeSet := evs.foldl record set

variable (set : NodeSet)

theorem recordAll_append (evs evs' : List Event) :
    set.recordAll (evs ++ evs') = (set.recordAll evs).recordAll evs' :=
  foldl_append

@[simp] theorem addNode_eq (path : Path) (n : NodeWithPrev) :
    set.addNode path n =
      { nodes := set.nodes.insert path n.toNodeBlob
        origins := set.origins.insert path n.prev
        leaves := set.leaves
        updates := set.updates + if n.isDeleted then 0 else 1
        deletes := set.deletes + if n.isDeleted then 1 else 0 } := by
  unfold addNode
  split <;> rfl

attribute [ext] NodeSet

/-- Merging a set that got one more event. -/
theorem mergeDisjoint_record (other : NodeSet) (e : Event) :
    set.mergeDisjoint (other.record e) = (set.mergeDisjoint other).record e := by
  cases e with
  | node path n =>
    ext1
    · simp [record, mergeDisjoint]
    · simp [record, mergeDisjoint, insert_union]
    · simp [record, mergeDisjoint, insert_union]
    · simp [record, mergeDisjoint, Nat.add_assoc]
    · simp [record, mergeDisjoint, Nat.add_assoc]
  | leaf parent blob =>
    ext1 <;> simp [record, mergeDisjoint, addLeaf]

/-- A goroutine's set, merged, is the same as its events recorded in place. -/
theorem mergeDisjoint_recordAll (evs : List Event) :
    set.mergeDisjoint (newNodeSet.recordAll evs) = set.recordAll evs := by
  have hgen : ∀ other : NodeSet, set.mergeDisjoint (other.recordAll evs) =
      (set.mergeDisjoint other).recordAll evs := by
    induction evs with
    | nil => exact fun _ => rfl
    | cons e evs ih =>
      intro other
      exact (ih (other.record e)).trans (by rw [mergeDisjoint_record]; rfl)
  have hempty : set.mergeDisjoint newNodeSet = set := by
    ext1 <;> simp [mergeDisjoint, newNodeSet]
  rw [hgen, hempty]

/-! #### What is in a set -/

/-- No path gets two different entries. -/
def Functional (evs : List Event) : Prop :=
  ∀ path n n', .node path n ∈ evs → .node path n' ∈ evs → n = n'

variable {evs evs' : List Event}

/-- Paths without an event keep their entry. -/
theorem recordAll_of_notMem {path : Path} (h : ∀ n, .node path n ∉ evs) (set : NodeSet) :
    (set.recordAll evs).nodes.lookup path = set.nodes.lookup path ∧
      (set.recordAll evs).origins.lookup path = set.origins.lookup path := by
  induction evs generalizing set with
  | nil => exact ⟨rfl, rfl⟩
  | cons e evs ih =>
    have hrest := ih (fun n hn => h n (mem_cons_of_mem _ hn)) (set.record e)
    refine ⟨hrest.1.trans ?_, hrest.2.trans ?_⟩
    all_goals
      cases e with
      | leaf parent blob => rfl
      | node path' n =>
        have hne : path ≠ path' := by
          rintro rfl
          exact h n mem_cons_self
        simp [record, hne]

theorem recordAll_of_mem {path : Path} {n : NodeWithPrev} (hfun : Functional evs)
    (h : .node path n ∈ evs) (set : NodeSet) :
    (set.recordAll evs).nodes.lookup path = some n.toNodeBlob ∧
      (set.recordAll evs).origins.lookup path = some n.prev := by
  induction evs generalizing set with
  | nil => cases h
  | cons e evs ih =>
    have hfun' : Functional evs := fun p m m' hm hm' =>
      hfun p m m' (mem_cons_of_mem _ hm) (mem_cons_of_mem _ hm')
    by_cases hlater : ∃ m, .node path m ∈ evs
    · rcases hlater with ⟨m, hm⟩
      cases hfun path m n (mem_cons_of_mem _ hm) h
      exact ih hfun' hm _
    · have hkeep := recordAll_of_notMem (fun m hm => hlater ⟨m, hm⟩) (set.record e)
      rcases mem_cons.mp h with rfl | hmem
      · refine ⟨hkeep.1.trans ?_, hkeep.2.trans ?_⟩ <;> simp [record]
      · exact absurd ⟨n, hmem⟩ hlater

def Event.written : Event → Bool
  | .node _ n => !n.isDeleted
  | .leaf _ _ => false

def Event.deleted : Event → Bool
  | .node _ n => n.isDeleted
  | .leaf _ _ => false

def Event.leaf? : Event → Option (Hash × Bytes)
  | .node _ _ => none
  | .leaf parent blob => some (parent, blob)

theorem recordAll_counts (evs : List Event) :
    (set.recordAll evs).updates = set.updates + evs.countP Event.written ∧
      (set.recordAll evs).deletes = set.deletes + evs.countP Event.deleted ∧
      (set.recordAll evs).leaves = set.leaves ++ evs.filterMap Event.leaf? := by
  induction evs generalizing set with
  | nil => simp [recordAll]
  | cons e evs ih =>
    have hrest := ih (set.record e)
    refine ⟨hrest.1.trans ?_, hrest.2.1.trans ?_, hrest.2.2.trans ?_⟩
    all_goals
      cases e with
      | leaf parent blob =>
        simp [record, addLeaf, Event.written, Event.deleted, Event.leaf?]
      | node path n =>
        cases hdel : n.isDeleted <;>
          simp [record, Event.written, Event.deleted, Event.leaf?, hdel, Nat.add_assoc,
            Nat.add_comm 1, filterMap_cons]

/-- Two sets with the same nodes; the leaves may be in another order. -/
structure NodeSet.Same (set set' : NodeSet) : Prop where
  nodes : set.nodes = set'.nodes
  origins : set.origins = set'.origins
  updates : set.updates = set'.updates
  deletes : set.deletes = set'.deletes
  leaves : set.leaves.Perm set'.leaves

theorem Functional.perm (h : Functional evs) (hperm : evs.Perm evs') : Functional evs' :=
  fun p n n' hn hn' => h p n n' (hperm.mem_iff.mpr hn) (hperm.mem_iff.mpr hn')

/-- The order of the events does not matter. -/
theorem recordAll_perm (hfun : Functional evs) (hperm : evs.Perm evs') (set : NodeSet) :
    (set.recordAll evs).Same (set.recordAll evs') := by
  have hlookup : ∀ p, (set.recordAll evs).nodes.lookup p = (set.recordAll evs').nodes.lookup p ∧
      (set.recordAll evs).origins.lookup p = (set.recordAll evs').origins.lookup p := by
    intro p
    by_cases hp : ∃ n, .node p n ∈ evs
    · rcases hp with ⟨n, hn⟩
      have h := recordAll_of_mem hfun hn set
      have h' := recordAll_of_mem (hfun.perm hperm) (hperm.mem_iff.mp hn) set
      exact ⟨h.1.trans h'.1.symm, h.2.trans h'.2.symm⟩
    · have h := recordAll_of_notMem (fun n hn => hp ⟨n, hn⟩) set
      have h' := recordAll_of_notMem (fun n hn => hp ⟨n, hperm.mem_iff.mpr hn⟩) set
      exact ⟨h.1.trans h'.1.symm, h.2.trans h'.2.symm⟩
  rcases recordAll_counts set evs with ⟨hup, hdel, hleaves⟩
  rcases recordAll_counts set evs' with ⟨hup', hdel', hleaves'⟩
  refine ⟨ext_lookup fun p => (hlookup p).1, ext_lookup fun p => (hlookup p).2, ?_,
    ?_, ?_⟩
  · rw [hup, hup', hperm.countP_eq]
  · rw [hdel, hdel', hperm.countP_eq]
  · rw [hleaves, hleaves']
    exact (hperm.filterMap _).append_left _

/-! ### The nodes a committer visits -/

/-- The node at a path is met by the committer: it and all nodes above it are not clean. -/
def Visits : Node → Path → Prop
  | .short key val fl, q =>
    fl.clean = none ∧ (q = [] ∨ key <+: q ∧ Visits val (q.drop key.length))
  | .full _ fl, [] => fl.clean = none
  | .full children fl, a :: q => fl.clean = none ∧ Visits (children a) q
  | _, _ => False

variable {fl : NodeFlag}

theorem NodeFlag.clean_eq_some {h : Hash} (hclean : fl.clean = some h) :
    fl.dirty = false ∧ fl.hash = some h := by
  unfold clean at hclean
  split at hclean
  · cases hclean
  · exact ⟨Bool.not_eq_true _ ▸ ‹_›, hclean⟩

theorem visits_short {key : Path} {val : Node} {q : Path} :
    Visits (.short key val fl) q ↔
      fl.clean = none ∧ (q = [] ∨ ∃ r, q = key ++ r ∧ Visits val r) := by
  refine and_congr_right fun _ => or_congr_right ?_
  constructor
  · rintro ⟨⟨r, rfl⟩, hv⟩
    rw [drop_left] at hv
    exact ⟨r, rfl, hv⟩
  · rintro ⟨r, rfl, hv⟩
    rw [drop_left]
    exact ⟨prefix_append _ _, hv⟩

theorem visits_full {children : Nibble → Node} {q : Path} :
    Visits (.full children fl) q ↔
      fl.clean = none ∧ (q = [] ∨ ∃ a r, q = a :: r ∧ Visits (children a) r) := by
  cases q with
  | nil | cons a q => simp [Visits]

variable [Crypto]

section
variable {T₀ : Tree} {n : Node} {root : Bool} {path : Path} {t : Tree}

/-- What is visited is a node of the tree and not behind an unresolved hash. -/
theorem Rep.visits (h : Rep T₀ n root path t) (ht : IsValue t ∨ Canonical t) {q : Path}
    (hv : Visits n q) : IsNode t q ∧ ¬ Hidden n q := by
  induction n generalizing root path t q with
  | nil | value v | hash h' => exact hv.elim
  | short key val fl ih =>
    rcases h with ⟨c, rfl, hrep, -⟩
    have hc := ht.resolve_left (not_isValue_short key c)
    rcases hc.of_short with ⟨hne, hchild⟩
    rcases visits_short.mp hv with ⟨-, rfl | ⟨r, rfl, hr⟩⟩
    · exact ⟨(isNode_short hne c _).mpr (.inl rfl), fun hh => hne (prefix_nil.mp hh.1)⟩
    · rcases ih hrep hchild hr with ⟨hnode, hnot⟩
      refine ⟨(isNode_short_append hne c r).mpr hnode, fun hh => hnot ?_⟩
      have hbelow := hh.2
      rwa [drop_left] at hbelow
  | full children fl ih =>
    rcases h with ⟨ts, rfl, hrep, -⟩
    have hc := ht.resolve_left (not_isValue_full ts)
    rcases visits_full.mp hv with ⟨-, rfl | ⟨a, r, rfl, hr⟩⟩
    · exact ⟨isNode_full_here ts, id⟩
    · exact ih a (hrep a) (hc.of_full a) hr

/-- A clean node is the database's. -/
theorem FlagOk.sub_eq {below : Prop} (h : FlagOk T₀ root path fl t below)
    (hclean : fl.clean ≠ none) (q : Path) : T₀.sub (path ++ q) = t.sub q := by
  rcases Option.ne_none_iff_exists'.mp hclean with ⟨h', hh'⟩
  exact sub_append (h.clean (clean_eq_some hh').1) q

/-- What is not visited is as in the database: a node, or what is behind an unresolved hash. -/
theorem Rep.kept (h : Rep T₀ n root path t) (ht : IsValue t ∨ Canonical t) {q : Path}
    (hq : IsNode t q ∨ Hidden n q) (hv : ¬ Visits n q) : T₀.sub (path ++ q) = t.sub q := by
  induction n generalizing root path t q with
  | nil =>
    cases h
    exact absurd (hq.resolve_right id) (isNode_isValue (.inl rfl) q)
  | value v =>
    rcases h with ⟨w, -, rfl⟩
    exact absurd (hq.resolve_right id) (isNode_isValue (.inr ⟨w, rfl⟩) q)
  | hash h' => exact sub_append h.2.2.2 q
  | short key val fl ih =>
    rcases h with ⟨c, rfl, hrep, hfl⟩
    rcases (ht.resolve_left (not_isValue_short key c)).of_short with ⟨hne, hchild⟩
    by_cases hcl : fl.clean = none
    · rw [visits_short, not_and, not_or] at hv
      obtain ⟨r, rfl, hr⟩ : ∃ r, q = key ++ r ∧ (IsNode c r ∨ Hidden val r) := by
        rcases hq with hq | ⟨⟨r, rfl⟩, hr⟩
        · rcases (isNode_short hne c q).mp hq with rfl | ⟨r, rfl, hr⟩
          · exact absurd rfl (hv hcl).1
          · exact ⟨r, rfl, .inl hr⟩
        · rw [drop_left] at hr
          exact ⟨r, rfl, .inr hr⟩
      rw [sub_short hne, ← append_assoc]
      exact ih hrep hchild hr fun hvr => (hv hcl).2 ⟨r, rfl, hvr⟩
    · exact hfl.sub_eq hcl q
  | full children fl ih =>
    rcases h with ⟨ts, rfl, hrep, hfl⟩
    have hc := ht.resolve_left (not_isValue_full ts)
    by_cases hcl : fl.clean = none
    · rw [visits_full, not_and, not_or] at hv
      obtain ⟨a, r, rfl, hr⟩ : ∃ a r, q = a :: r ∧ (IsNode (ts a) r ∨ Hidden (children a) r) := by
        cases q with
        | nil => exact absurd rfl (hv hcl).1
        | cons a r => exact ⟨a, r, rfl, hq⟩
      have hbelow := ih a (hrep a) (hc.of_full a) hr fun hvr => (hv hcl).2 ⟨a, r, rfl, hvr⟩
      rwa [append_assoc] at hbelow
    · exact hfl.sub_eq hcl q

end

/-! ### What the committer does -/

variable {order : List Nibble} {i : Nibble}

section
variable {T₀ : Tree} {P : GoMap Path Bytes} {collectLeaf : Bool}

/-- What is recorded for a node that is visited. -/
def change (P : GoMap Path Bytes) (root : Bool) (path : Path) (u : Tree) : Option NodeWithPrev :=
  if root || standalone u then
    some (newNodeWithPrev (keccak256 (enc u)) (enc u) (prevalue P path))
  else if (prevalue P path).length ≠ 0 then some (newDeletedWithPrev (prevalue P path))
  else none

variable {root : Bool} {path : Path} {fl : NodeFlag} {t : Tree}

/-- The hash that is cached in a hashed node. -/
def ownHash (root : Bool) (t : Tree) : Option Hash :=
  if root || standalone t then some (keccak256 (enc t)) else none

theorem FlagOk.hash_eq {below : Prop} (h : FlagOk T₀ root path fl t below)
    (hplain : isPlain t = false) (hhashed : standalone t = true → fl.hash ≠ none)
    (hroot : root = true → fl.hash ≠ none) : fl.hash = ownHash root t := by
  unfold ownHash
  cases hh : fl.hash with
  | none =>
    have hr : root = false := Bool.eq_false_iff.mpr fun hr => hroot hr hh
    have hs : standalone t = false := Bool.eq_false_iff.mpr fun hs => hhashed hs hh
    rw [hr, hs]
    rfl
  | some h' =>
    rcases h.hash h' hh with ⟨rfl, hlarge, -⟩
    rw [if_pos]
    cases root with
    | true => rfl
    | false => exact standalone_iff.mpr ⟨hplain, hlarge rfl⟩

/-- The result of the committer on a node: what its parent holds, and what is recorded. -/
structure Committed (P : GoMap Path Bytes) (root : Bool) (path : Path) (n : Node) (t : Tree)
    (c : Collapsed) (evs : List Event) : Prop where
  top : root = true → c = .hash (keccak256 (enc t))
  ref : root = false → ∀ i, i ≠ 16 → c.encode = written i t
  events : ∀ p e, .node p e ∈ evs ↔ ∃ q u, p = path ++ q ∧ Visits n q ∧ t.sub q = some u ∧
    change P (root && q.isEmpty) p u = some e

/-- The committer has this result, whatever set it is given. -/
structure Commits (P : GoMap Path Bytes) (collectLeaf root : Bool) (path : Path) (n : Node)
    (t : Tree) (c : Collapsed) (evs : List Event) : Prop where
  run : ∀ set, commit P collectLeaf n path set = some (c, set.recordAll evs)
  done : Committed P root path n t c evs

/-- The leaf that is recorded with a node. -/
def leafEvents (collectLeaf : Bool) (h : Hash) : Collapsed → List Event
  | .short _ (.value v) => if collectLeaf then [.leaf h v] else []
  | _ => []

section
omit [Crypto]

theorem node_notMem_leafEvents (h : Hash) (c : Collapsed) (p : Path) (e : NodeWithPrev) :
    .node p e ∉ leafEvents collectLeaf h c := by
  unfold leafEvents
  split
  · split <;> simp
  · simp

theorem store_some (path : Path) (c : Collapsed) (h : Hash) (set : NodeSet) :
    store P collectLeaf path c (some h) set = (.hash h, set.recordAll
      (.node path
        (newNodeWithPrev h c.encode (prevalue P path)) :: leafEvents collectLeaf h c)) := by
  rcases c with _ | _ | ⟨key, _ | _ | _ | _ | v⟩ | _ | _ <;> try rfl
  cases collectLeaf <;> rfl

theorem store_none (path : Path) (c : Collapsed) (set : NodeSet) :
    store P collectLeaf path c none set = (c, set.recordAll
      (if (prevalue P path).length ≠ 0 then
        [.node path (newDeletedWithPrev (prevalue P path))] else [])) := by
  unfold store
  by_cases h : (prevalue P path).length ≠ 0
  · simp only [if_pos h]
    rfl
  · simp only [if_neg h]
    rfl

end

/-- `store` records the node itself. -/
theorem store_spec (P : GoMap Path Bytes) (collectLeaf : Bool) (hc : Canonical t) {c : Collapsed}
    (hblob : c.encode = enc t) {hash : Option Hash} (hhash : hash = ownHash root t) :
    ∃ c' evs, (∀ set, store P collectLeaf path c hash set = (c', set.recordAll evs)) ∧
      (root = true → c' = .hash (keccak256 (enc t))) ∧
      (root = false → ∀ i, i ≠ 16 → c'.encode = written i t) ∧
      ∀ p e, .node p e ∈ evs ↔ p = path ∧ change P root path t = some e := by
  unfold change
  unfold ownHash at hhash
  by_cases hkeep : (root || standalone t) = true
  · rw [if_pos hkeep] at hhash ⊢
    subst hhash
    refine ⟨_, _, store_some path c _, fun _ => rfl, fun hroot i hi => ?_, fun p e => ?_⟩
    · rw [hroot] at hkeep
      rw [written_standalone i hkeep]
      rfl
    · simp [hblob, node_notMem_leafEvents, eq_comm]
  · rw [if_neg hkeep] at hhash ⊢
    subst hhash
    rw [Bool.or_eq_true, not_or, Bool.not_eq_true, Bool.not_eq_true] at hkeep
    refine ⟨_, _, store_none path c, fun hroot => ?_, fun _ i hi => ?_, fun p e => ?_⟩
    · rw [hkeep.1] at hroot
      cases hroot
    · rw [written_embedded hi (enc_ne_nil hc) (Canonical.isPlain hc) hkeep.2, hblob]
    · split <;> simp [eq_comm]

/-! #### Children -/

variable {c : Nibble → Collapsed} {children : Nibble → Node}
variable {f : Nibble → NodeSet → Option (Collapsed × NodeSet)} {evs : Nibble → List Event}

omit [Crypto] in
/-- The loop over the children records the events of each child that is committed. -/
theorem commitEach_spec
    (hf : ∀ i ∈ order, (children i).skipped = false → ∀ set, f i set = some (c i,
      set.recordAll (evs i)))
    (hskip : ∀ i, (children i).skipped = true ∨ i ∉ order → c i = (children i).raw)
    (hnone : ∀ i, (children i).skipped = true → evs i = []) (set : NodeSet) :
    commitEach children f order set = some (c, set.recordAll (order.flatMap evs)) := by
  have hgen : ∀ (l : List Nibble) (cs : Nibble → Collapsed) (set : NodeSet), (∀ i ∈ l, i ∈ order) →
      l.foldlM (commitChild children f) (cs, set) =
        some (fun i => if i ∈ l ∧ (children i).skipped = false then c i else cs i,
          set.recordAll (l.flatMap evs)) := by
    intro l
    induction l with
    | nil =>
      simp [recordAll]
    | cons a l ih =>
      intro cs set hl
      have hrest : ∀ i ∈ l, i ∈ order := fun i hi => hl i (mem_cons_of_mem _ hi)
      rw [foldlM_cons, flatMap_cons, recordAll_append, commitChild]
      by_cases hs : (children a).skipped = true
      · rw [if_pos hs, hnone a hs]
        refine (ih cs set hrest).trans ?_
        congr 2
        funext i
        by_cases hi : i = a <;> simp [hi, hs]
      · rw [if_neg hs]
        rw [Bool.not_eq_true] at hs
        rw [hf a (hl a mem_cons_self) hs set]
        refine (ih _ _ hrest).trans ?_
        congr 2
        funext i
        by_cases hi : i = a <;> simp [hi, hs]
  unfold commitEach
  rw [hgen order _ set fun _ h => h]
  congr 2
  funext i
  split
  · rfl
  rename_i hi
  refine (hskip i ?_).symm
  by_cases hmem : i ∈ order
  · left
    rw [← Bool.not_eq_false]
    exact fun hs => hi ⟨hmem, hs⟩
  · exact .inr hmem

variable {n : Node}

/-- A child that is left as it is. -/
theorem Rep.raw_encode (h : Rep T₀ n false path t) (hs : n.skipped = true ∨ i = 16 ∧ IsValue t) :
    n.raw.encode = written i t := by
  rcases hs with hs | ⟨rfl, hv⟩
  · cases n with
    | nil =>
      cases h
      rfl
    | hash h' =>
      rcases h with ⟨-, rfl, hst, -⟩
      exact (written_standalone i hst).symm
    | value v | short key val fl | full children fl => cases hs
  · rcases h.plain hv with ⟨rfl, rfl⟩ | ⟨w, rfl, rfl⟩
    · rfl
    · exact (written_value w).symm

/-- The children of a full node after the loop. -/
structure ChildrenCommitted (P : GoMap Path Bytes) (path : Path) (children : Nibble → Node)
    (ts : Nibble → Tree) (c : Nibble → Collapsed) (evs : Nibble → List Event) : Prop where
  left : ∀ i, (children i).skipped = true ∨ i = 16 → c i = (children i).raw ∧ evs i = []
  done : ∀ i, (children i).skipped = false → i ≠ 16 →
    Committed P false (path ++ [i]) (children i) (ts i) (c i) (evs i)

variable {ts : Nibble → Tree}

/-- A full node, after its children. -/
theorem ChildrenCommitted.store (collectLeaf : Bool)
    (h : ChildrenCommitted P path children ts c evs) (hc : Canonical (.full ts))
    (hrep : ∀ i, Rep T₀ (children i) false (path ++ [i]) (ts i)) (hclean : fl.clean = none)
    (hhash : fl.hash = ownHash root (.full ts)) :
    ∃ c' top, (∀ set, store P collectLeaf path (.full c) fl.hash set = (c', set.recordAll top)) ∧
      ∀ order : List Nibble, (∀ i, i ∈ order ↔ i ≠ 16) →
        Committed P root path (.full children fl) (.full ts) c' (order.flatMap evs ++ top) := by
  have hblob : (full c).encode = enc (.full ts) := by
    rw [Collapsed.encode]
    congr 3
    funext i
    by_cases hs : (children i).skipped = true ∨ i = 16
    · rw [(h.left i hs).1]
      refine (hrep i).raw_encode (hs.imp_right fun hi => ⟨hi, ?_⟩)
      rw [hi]
      exact branch_value hc
    · rw [not_or, Bool.not_eq_true] at hs
      exact (h.done i hs.1 hs.2).ref rfl i hs.2
  rcases store_spec P collectLeaf hc hblob hhash with
    ⟨c', top, hstore, htop, href, hevents⟩
  refine ⟨c', top, hstore, fun order horder => ⟨htop, href, fun p e => ?_⟩⟩
  rw [mem_append, mem_flatMap, hevents]
  constructor
  · rintro (⟨i, hi, hmem⟩ | ⟨rfl, hch⟩)
    · by_cases hs : (children i).skipped = true
      · rw [(h.left i (.inl hs)).2] at hmem
        cases hmem
      · rw [Bool.not_eq_true] at hs
        rcases ((h.done i hs ((horder i).mp hi)).events p e).mp hmem with ⟨q, u, rfl, hv, hu, hch⟩
        refine ⟨i :: q, u, by simp, visits_full.mpr ⟨hclean, .inr ⟨i, q, rfl, hv⟩⟩, hu, ?_⟩
        simpa using hch
    · refine ⟨[], _, by simp, visits_full.mpr ⟨hclean, .inl rfl⟩, sub_here _, ?_⟩
      simpa using hch
  · rintro ⟨q, u, rfl, hv, hu, hch⟩
    rcases visits_full.mp hv with ⟨-, rfl | ⟨a, r, rfl, hr⟩⟩
    · right
      rw [sub_here, Option.some.injEq] at hu
      subst hu
      simpa using hch
    left
    have hs : (children a).skipped = false := by
      cases hn : children a <;> rw [hn] at hr <;> first | exact hr.elim | rfl
    have ha : a ≠ 16 := by
      rintro rfl
      rcases (hrep 16).plain (branch_value hc) with ⟨hn, -⟩ | ⟨w, hn, -⟩ <;> rw [hn] at hr <;>
        exact hr.elim
    refine ⟨a, (horder a).mpr ha, ((h.done a hs ha).events _ e).mpr ⟨r, u, by simp, hr, hu, ?_⟩⟩
    simpa using hch

omit [Crypto] in
theorem mem_childIndices : i ∈ childIndices ↔ i ≠ 16 := by
  rw [childIndices, mem_map]
  constructor
  · rintro ⟨j, -, rfl⟩
    exact castSucc_ne j
  · intro hi
    exact ⟨i.castPred hi, mem_finRange _, Fin.castSucc_castPred i hi⟩

/-- The loop, if each child can be committed. -/
theorem exists_children
    (h : ∀ i, (children i).skipped = false → i ≠ 16 →
      ∃ c evs, Commits P collectLeaf false (path ++ [i]) (children i) (ts i) c evs) :
    ∃ c evs, ChildrenCommitted P path children ts c evs ∧
      ∀ i, (children i).skipped = false → i ≠ 16 → ∀ set,
        commit P collectLeaf (children i) (path ++ [i]) set =
          some (c i, set.recordAll (evs i)) := by
  have hall : ∀ i, ∃ c evs, ((children i).skipped = true ∨ i = 16 →
      c = (children i).raw ∧ evs = []) ∧ ((children i).skipped = false → i ≠ 16 →
        Commits P collectLeaf false (path ++ [i]) (children i) (ts i) c evs) := by
    intro i
    by_cases hi : (children i).skipped = true ∨ i = 16
    · refine ⟨_, _, fun _ => ⟨rfl, rfl⟩, fun hs hne => ?_⟩
      rcases hi with hs' | rfl
      · rw [hs] at hs'
        cases hs'
      · exact absurd rfl hne
    · have hi' := hi
      rw [not_or, Bool.not_eq_true] at hi'
      rcases h i hi'.1 hi'.2 with ⟨c, evs, hcommit⟩
      exact ⟨c, evs, fun hs => absurd hs hi, fun _ _ => hcommit⟩
  choose c evs hleft hdone using hall
  exact ⟨c, evs, ⟨hleft, fun i hs hi => (hdone i hs hi).done⟩, fun i hs hi => (hdone i hs hi).run⟩

/-- A child that is committed stands for a node. -/
theorem Rep.canonical_child (h : Rep T₀ n false path (ts i)) (hc : Canonical (.full ts))
    (hs : n.skipped = false) (hi : i ≠ 16) : Canonical (ts i) := by
  refine (branch_child hc hi).resolve_left fun hnil => ?_
  have hisNil := h.isNil
  rw [hnil] at hisNil
  rw [Node.skipped, hisNil] at hs
  cases hs

/-- The loop over the children, in any order. -/
theorem ChildrenCommitted.loop (h : ChildrenCommitted P path children ts c evs)
    (hf : ∀ i ∈ order, (children i).skipped = false → ∀ set, f i set = some (c i,
      set.recordAll (evs i))) (horder : ∀ i, i ∈ order ↔ i ≠ 16) (set : NodeSet) :
    commitEach children f order set = some (c, set.recordAll (order.flatMap evs)) := by
  refine commitEach_spec hf (fun i hi => (h.left i (hi.imp_right fun hnot => ?_)).1)
    (fun i hi => (h.left i (.inl hi)).2) set
  by_contra hne
  exact hnot ((horder i).mpr hne)

/-- A full node, if each child can be committed: the children may be taken in any order, and
    by any means with the same result. -/
theorem commitFull_spec (P : GoMap Path Bytes) (collectLeaf : Bool) (hc : Canonical (.full ts))
    (hrep : ∀ i, Rep T₀ (children i) false (path ++ [i]) (ts i)) (hclean : fl.clean = none)
    (hhash : fl.hash = ownHash root (.full ts))
    (hbelow : ∀ i, (children i).skipped = false → i ≠ 16 →
      ∃ c evs, Commits P collectLeaf false (path ++ [i]) (children i) (ts i) c evs) :
    ∃ (c' : Collapsed) (c : Nibble → Collapsed) (evs : Nibble → List Event) (top : List Event),
      (∀ i, (children i).skipped = false → i ≠ 16 → ∀ set,
        commit P collectLeaf (children i) (path ++ [i]) set = some (c i, set.recordAll (evs i))) ∧
      ∀ f (order : List Nibble), (∀ i, i ∈ order ↔ i ≠ 16) →
        (∀ i ∈ order, (children i).skipped = false → ∀ set,
          f i set = some (c i, set.recordAll (evs i))) →
        Committed P root path (.full children fl) (.full ts) c' (order.flatMap evs ++ top) ∧
        ∀ set, (commitEach children f order set).map (fun res =>
          store P collectLeaf path (.full res.1) fl.hash res.2) =
            some (c', set.recordAll (order.flatMap evs ++ top)) := by
  rcases exists_children hbelow with ⟨c, evs, hchildren, hcommit⟩
  rcases hchildren.store collectLeaf hc hrep hclean hhash with ⟨c', top, hstore, hdone⟩
  refine ⟨c', c, evs, top, hcommit, fun f order horder hf => ⟨hdone order horder, fun set => ?_⟩⟩
  rw [hchildren.loop hf horder set, Option.map_some, hstore, recordAll_append]

/-- A clean node. -/
theorem FlagOk.committed {below : Prop} (h : FlagOk T₀ root path fl t below)
    (hplain : isPlain t = false) {hash : Hash} (hclean : fl.clean = some hash)
    (hv : ∀ q, ¬ Visits n q) : Committed P root path n t (.hash hash) [] := by
  rcases h.hash hash (clean_eq_some hclean).2 with ⟨rfl, hlarge, -⟩
  refine ⟨fun _ => rfl, fun hroot i hi => ?_, fun p e => ?_⟩
  · rw [written_standalone i (standalone_iff.mpr ⟨hplain, hlarge hroot⟩)]
    rfl
  · constructor
    · exact nofun
    · rintro ⟨q, u, -, hq, -⟩
      exact absurd hq (hv q)

/-- A short node, after what is below it. -/
theorem store_short (collectLeaf : Bool) {key : Path} {val : Node} {cv : Collapsed}
    {evs : List Event} (hc : Canonical (.short key t)) (hclean : fl.clean = none)
    (hhash : fl.hash = ownHash root (.short key t))
    (hblob : (short (hexToCompact key) cv).encode = enc (.short key t))
    (hevs : ∀ p e, .node p e ∈ evs ↔ ∃ q u, p = path ++ key ++ q ∧ Visits val q ∧ t.sub q = some u ∧
      change P false p u = some e) :
    ∃ c' top, (∀ set, store P collectLeaf path (.short (hexToCompact key) cv) fl.hash set =
        (c', set.recordAll top)) ∧
      Committed P root path (.short key val fl) (.short key t) c' (evs ++ top) := by
  have hne := (hc.of_short).1
  rcases store_spec P collectLeaf hc hblob hhash with ⟨c', top, hstore, htop, href, hevents⟩
  refine ⟨c', top, hstore, htop, href, fun p e => ?_⟩
  rw [mem_append, hevs, hevents]
  constructor
  · rintro (⟨q, u, rfl, hv, hu, hch⟩ | ⟨rfl, hch⟩)
    · refine ⟨key ++ q, u, by simp, visits_short.mpr ⟨hclean, .inr ⟨q, rfl, hv⟩⟩, ?_, ?_⟩
      · rw [sub_short hne, hu]
      · have hempty : (key ++ q).isEmpty = false := by
          simp [hne]
        rwa [hempty, Bool.and_false]
    · refine ⟨[], _, by simp, visits_short.mpr ⟨hclean, .inl rfl⟩, sub_here _, ?_⟩
      simpa using hch
  · rintro ⟨q, u, rfl, hv, hu, hch⟩
    rcases visits_short.mp hv with ⟨-, rfl | ⟨r, rfl, hr⟩⟩
    · right
      rw [sub_here, Option.some.injEq] at hu
      subst hu
      simpa using hch
    · left
      have hempty : (key ++ r).isEmpty = false := by
        simp [hne]
      rw [hempty, Bool.and_false] at hch
      rw [sub_short hne] at hu
      exact ⟨r, u, by simp, hr, hu, hch⟩

/-- **The committer.**  It returns the reference to the tree and records the nodes it
    visits, whatever set it is given. -/
theorem commit_spec (h : Rep T₀ n root path t) (hc : Canonical t) (hh : Hashed n t)
    (hroot : root = true → n.cache.1 ≠ none) :
    ∃ c evs, Commits P collectLeaf root path n t c evs := by
  induction n generalizing root path t with
  | nil =>
    cases h
    cases hc
  | value v =>
    rcases h with ⟨w, -, rfl⟩
    cases hc
  | hash h' =>
    rcases h with ⟨rfl, rfl, hst, -⟩
    refine ⟨.hash _, [], fun set => rfl, by simp, fun _ i hi => ?_, fun p e => ?_⟩
    · rw [written_standalone i hst]
      rfl
    · constructor
      · simp
      · rintro ⟨q, u, -, hq, -⟩
        exact hq.elim
  | short key val fl ih =>
    rcases h with ⟨c, rfl, hrep, hfl⟩
    cases hclean : fl.clean with
    | some hash =>
      refine ⟨.hash hash, [], fun set => ?_, hfl.committed rfl hclean fun q hq => ?_⟩
      · rw [commit, hclean]
        rfl
      · rw [(visits_short.mp hq).1] at hclean
        cases hclean
    | none =>
      have hhash := hfl.hash_eq rfl hh.1 hroot
      -- what is below: a value, an unresolved hash or a full node
      obtain ⟨cv, evs, hval, hblob, hevs⟩ : ∃ cv evs,
          (∀ set, (if val.isFull then commit P collectLeaf val (path ++ key) set
            else some (val.raw, set)) = some (cv, set.recordAll evs)) ∧
          (short (hexToCompact key) cv).encode = enc (.short key c) ∧
          ∀ p e, .node p e ∈ evs ↔ ∃ q u, p = path ++ key ++ q ∧ Visits val q ∧
            c.sub q = some u ∧ change P false p u = some e := by
        rw [enc_eq_encodeList hc.shaped hc.ne_nil]
        cases hc with
        | leaf v hkey =>
          cases hrep.eq_value
          refine ⟨.value v.val, [], fun set => rfl, ?_, fun p e => ?_⟩
          · simp [Collapsed.encode, items]
          · simp [Visits]
        | @ext _ ts hne hlast hfull =>
          have hitems : ∀ {cv : Collapsed}, cv.encode = written 0 (.full ts) →
              (short (hexToCompact key) cv).encode =
                Rlp.encodeList (items (.short key (.full ts))).flatten := by
            intro cv hcv
            simp [Collapsed.encode, items, hcv]
          cases val with
          | nil => cases hrep
          | value v =>
            rcases hrep with ⟨w, -, hw⟩
            cases hw
          | short key' val' fl' =>
            rcases hrep with ⟨c', hc', -⟩
            cases hc'
          | hash h' =>
            refine ⟨.hash h', [], fun set => rfl, hitems ?_, fun p e => ?_⟩
            · exact hrep.raw_encode (.inl rfl)
            · simp [Visits]
          | full children' fl' =>
            rcases ih hrep hfull hh.2 (by simp) with ⟨cv, evs, hcommit, hdone⟩
            refine ⟨cv, evs, hcommit, hitems (hdone.ref rfl 0 (by decide)), fun p e => ?_⟩
            rw [hdone.events]
            simp
      rcases store_short collectLeaf hc hclean hhash hblob hevs with ⟨c', top, hstore, hdone⟩
      refine ⟨c', evs ++ top, fun set => ?_, hdone⟩
      rw [commit, hclean]
      simp [hval, hstore, recordAll_append]
  | full children fl ih =>
    rcases h with ⟨ts, rfl, hrep, hfl⟩
    cases hclean : fl.clean with
    | some hash =>
      refine ⟨.hash hash, [], fun set => ?_, hfl.committed rfl hclean fun q hq => ?_⟩
      · rw [commit, hclean]
        rfl
      · rw [(visits_full.mp hq).1] at hclean
        cases hclean
    | none =>
      have hhash := hfl.hash_eq rfl hh.1 hroot
      rcases commitFull_spec P collectLeaf hc hrep hclean hhash fun i hs hi =>
        ih i (hrep i) ((hrep i).canonical_child hc hs hi) (hh.2 i) (by simp) with
        ⟨c', c, evs, top, hcommit, hfull⟩
      rcases hfull (fun i set => commit P collectLeaf (children i) (path ++ [i]) set) childIndices
        (fun i => mem_childIndices) fun i hi hs => hcommit i hs (mem_childIndices.mp hi) with
        ⟨hdone, hloop⟩
      refine ⟨c', _, fun set => ?_, hdone⟩
      rw [commit, hclean]
      exact hloop set

omit [Crypto] in
theorem commitTop_of_not_full (h : ∀ children fl, n = .full children fl → fl.clean ≠ none)
    (parallel : Bool) (schedule : List Nibble) (set : NodeSet) :
    commitTop P collectLeaf parallel schedule n set = commit P collectLeaf n [] set := by
  cases parallel with
  | false => rfl
  | true =>
    cases n with
    | full children fl =>
      rcases Option.ne_none_iff_exists'.mp (h children fl rfl) with ⟨h', hclean⟩
      simp [commitTop, commit, hclean]
    | nil | value v | hash h' | short key val fl => rfl

/-- The committer on the root: one thread or several record the same events. -/
theorem commitTop_spec (P : GoMap Path Bytes) (collectLeaf : Bool) (h : Rep T₀ n true [] t)
    (hc : Canonical t) (hh : Hashed n t) (hroot : n.cache.1 ≠ none) :
    ∃ c evs, Committed P true [] n t c evs ∧
      ∀ (parallel : Bool) (schedule : List Nibble), schedule.Perm childIndices →
        ∃ evs' : List Event, evs'.Perm evs ∧ ∀ set,
          commitTop P collectLeaf parallel schedule n set = some (c, set.recordAll evs') := by
  by_cases hfull : ∀ children fl, n = .full children fl → fl.clean ≠ none
  · rcases commit_spec h hc hh fun _ => hroot with ⟨c, evs, hcommit, hdone⟩
    refine ⟨c, evs, hdone, fun parallel schedule _ => ⟨evs, .refl _, fun set => ?_⟩⟩
    rw [commitTop_of_not_full hfull]
    exact hcommit set
  push Not at hfull
  rcases hfull with ⟨children, fl, rfl, hclean⟩
  rcases h with ⟨ts, rfl, hrep, hfl⟩
  have hhash := hfl.hash_eq rfl hh.1 fun _ => hroot
  rcases commitFull_spec P collectLeaf hc hrep hclean hhash fun i hs hi =>
    commit_spec (hrep i) ((hrep i).canonical_child hc hs hi) (hh.2 i) nofun with
    ⟨c', c, evs, top, hcommit, hloop⟩
  simp only [nil_append] at hcommit
  have hsequential := hloop (fun i set => commit P collectLeaf (children i) [i] set) childIndices
    (fun i => mem_childIndices) fun i hi hs => hcommit i hs (mem_childIndices.mp hi)
  refine ⟨c', _, hsequential.1, fun parallel schedule hperm => ?_⟩
  cases parallel with
  | false =>
    refine ⟨_, .refl _, fun set => ?_⟩
    rw [commitTop, commit, hclean]
    exact hsequential.2 set
    exact nofun
  | true =>
    have horder : ∀ i, i ∈ schedule ↔ i ≠ 16 := fun i => hperm.mem_iff.trans mem_childIndices
    -- a goroutine's own set, merged
    have hparallel := hloop (fun i set => (commit P collectLeaf (children i) [i] newNodeSet).map
      fun res => (res.1, set.mergeDisjoint res.2)) schedule horder fun i hi hs set => by
        rw [hcommit i hs ((horder i).mp hi) newNodeSet, Option.map_some, mergeDisjoint_recordAll]
    refine ⟨_, (hperm.flatMap_right evs).append_right top, fun set => ?_⟩
    simp only [commitTop, hclean]
    exact hparallel.2 set

theorem commitRoot_spec (P : GoMap Path Bytes) (collectLeaf : Bool) (h : Rep T₀ n true [] t)
    (hc : Canonical t) (hh : Hashed n t) (hroot : n.cache.1 ≠ none) :
    ∃ evs : List Event, (∀ p e, .node p e ∈ evs ↔ Visits n p ∧ ∃ u, t.sub p = some u ∧
        change P p.isEmpty p u = some e) ∧
      ∀ (parallel : Bool) (schedule : List Nibble), schedule.Perm childIndices →
        ∃ evs' : List Event, evs'.Perm evs ∧ ∀ set, commitRoot P collectLeaf parallel schedule
          n set = some (keccak256 (enc t), set.recordAll evs') := by
  rcases commitTop_spec P collectLeaf h hc hh hroot with ⟨c, evs, hdone, hall⟩
  refine ⟨evs, fun p e => ?_, fun parallel schedule hperm => ?_⟩
  · rw [hdone.events]
    constructor
    · rintro ⟨q, u, rfl, hv, hu, hch⟩
      exact ⟨hv, u, hu, hch⟩
    · rintro ⟨hv, u, hu, hch⟩
      exact ⟨p, u, rfl, hv, hu, hch⟩
  · rcases hall parallel schedule hperm with ⟨evs', hevs, hres⟩
    refine ⟨evs', hevs, fun set => ?_⟩
    rw [commitRoot, hres, hdone.top rfl]

end

/-! ### The database afterwards -/

/-- A database by path that has exactly the nodes of the tree. -/
def Exact (db : Path → Option Bytes) (t : Tree) : Prop :=
  ∀ p b, db p = some b ↔ ∃ u, Stored t p u ∧ b = enc u

/-- The entries of a node set, written. -/
def NodeSet.applyTo (set : NodeSet) (db : Path → Option Bytes) (p : Path) : Option Bytes :=
  match set.nodes.lookup p with
  | none => db p
  | some n => if n.isDeleted then none else some n.blob

variable {ord : RangeOrder Path}

section
variable {T₀ t : Tree} {m : GoMap Bytes Bytes} {trie : Trie} {db : Path → Option Bytes}
  {evs : List Event}

variable {p : Path}

theorem Exact.ne_nil (h : Exact db T₀) (hT : Base T₀) {b : Bytes} (hb : db p = some b) :
    b ≠ [] := by
  rcases (h p b).mp hb with ⟨u, hu, rfl⟩
  exact enc_ne_nil (hT.sub_canonical hu.1 hu.2.1)

/-- The events of a commit: the deletions of nodes that were loaded, and what the committer
    visits. -/
def Changes (trie : Trie) (t : Tree) (evs : List Event) : Prop :=
  ∀ p e, .node p e ∈ evs ↔
    (p ∈ trie.tracers.ops.deletes ∧ p ∈ trie.tracers.prevalues ∧
      e = newDeletedWithPrev (prevalue trie.tracers.prevalues p)) ∨
    Visits trie.root p ∧ ∃ u, t.sub p = some u ∧
      change trie.tracers.prevalues p.isEmpty p u = some e

omit [Crypto] in
theorem isNode_iff : IsNode t p ↔ ∃ u, t.sub p = some u ∧ isPlain u = false := by
  simp [IsNode, ← Bool.not_eq_true, isPlain_iff]

theorem Stored.isNode {u : Tree} (h : Stored t p u) : IsNode t p :=
  isNode_iff.mpr ⟨u, h.1, h.2.1⟩

theorem stored_congr {u : Tree} (h : T₀.sub p = t.sub p) : Stored T₀ p u ↔ Stored t p u := by
  unfold Stored
  rw [h]

variable (h : TrieInv T₀ m trie t)
include h

theorem TrieInv.sound : IsValue t ∨ Canonical t :=
  h.contents.canonical.imp_left .inl

theorem TrieInv.mem_deletes (p : Path) :
    p ∈ trie.tracers.ops.deletes ↔ IsNode T₀ p ∧ ¬ IsNode t p :=
  (h.traced.tracked p).2

/-- The blob the database had is the one that was loaded. -/
theorem TrieInv.prevalue_eq (hdb : Exact db T₀) (hp : p ∈ trie.tracers.prevalues) :
    db p = some (prevalue trie.tracers.prevalues p) := by
  rcases Option.isSome_iff_exists.mp (lookup_isSome.mpr hp) with ⟨b, hb⟩
  rw [prevalue, hb]
  exact (hdb p b).mpr (h.genuine p b hb)

/-- A node of the database that was not loaded is behind an unresolved hash. -/
theorem TrieInv.hidden {u : Tree} (hu : Stored T₀ p u) (hp : p ∉ trie.tracers.prevalues) :
    Hidden trie.root p :=
  (h.traced.seen p u hu).resolve_left hp

/-- The blob the database had where the committer records a change. -/
theorem TrieInv.prevalue_visited (hdb : Exact db T₀) (hv : Visits trie.root p) :
    prevalue trie.tracers.prevalues p = (db p).getD [] := by
  by_cases hp : p ∈ trie.tracers.prevalues
  · rw [h.prevalue_eq hdb hp]
    rfl
  rw [prevalue, lookup_eq_none.mpr hp]
  cases hb : db p with
  | none => rfl
  | some b =>
    rcases (hdb p b).mp hb with ⟨u, hu, -⟩
    exact absurd (h.hidden hu hp) (h.rep.visits h.sound hv).2

/-- A path is deleted or visited, not both. -/
theorem TrieInv.not_visits (hp : p ∈ trie.tracers.ops.deletes) : ¬ Visits trie.root p :=
  fun hv => ((h.mem_deletes p).mp hp).2 (h.rep.visits h.sound hv).1

omit h

theorem Changes.functional (hch : Changes trie t evs) (h : TrieInv T₀ m trie t) :
    Functional evs := by
  intro p e e' he he'
  rcases (hch p e).mp he with ⟨hdel, -, rfl⟩ | ⟨hv, u, hu, hce⟩
  · rcases (hch p e').mp he' with ⟨-, -, rfl⟩ | ⟨hv, -⟩
    · rfl
    · exact absurd hv (h.not_visits hdel)
  · rcases (hch p e').mp he' with ⟨hdel, -⟩ | ⟨-, u', hu', hce'⟩
    · exact absurd hv (h.not_visits hdel)
    rw [hu] at hu'
    cases hu'
    rw [hce] at hce'
    cases hce'
    rfl

omit [Crypto] in
/-- Where nothing is recorded the database stays as it is. -/
theorem applyTo_of_notMem (hp : ∀ e, .node p e ∉ evs) :
    (newNodeSet.recordAll evs).applyTo db p = db p := by
  rw [applyTo, (recordAll_of_notMem hp newNodeSet).1]
  rfl

omit [Crypto] in
theorem applyTo_of_mem (hfun : Functional evs) {e : NodeWithPrev} (hp : .node p e ∈ evs) :
    (newNodeSet.recordAll evs).applyTo db p = if e.isDeleted then none else some e.blob := by
  rw [applyTo, (recordAll_of_mem hfun hp newNodeSet).1]

variable (hch : Changes trie t evs) (h : TrieInv T₀ m trie t)
include hch h

variable (hdb : Exact db T₀)
include hdb

/-- At a path the committer visits. -/
theorem Changes.exact_visited (hv : Visits trie.root p) (b : Bytes) :
    (newNodeSet.recordAll evs).applyTo db p = some b ↔ ∃ u, Stored t p u ∧ b = enc u := by
  have hfun := hch.functional h
  rcases isNode_iff.mp (h.rep.visits h.sound hv).1 with ⟨u, hu, hplain⟩
  have hstored : ∀ u', Stored t p u' ↔ u' = u ∧ (p.isEmpty || standalone u) = true := by
    intro u'
    rw [Stored, hu, Bool.or_eq_true, List.isEmpty_iff, standalone_iff]
    constructor
    · rintro ⟨heq, hp', hkeep⟩
      cases heq
      exact ⟨rfl, hkeep.imp_right fun hlen => ⟨hp', hlen⟩⟩
    · rintro ⟨rfl, hkeep⟩
      exact ⟨rfl, hplain, hkeep.imp_right And.right⟩
  by_cases hkeep : (p.isEmpty || standalone u) = true
  · -- a node of its own: written
    have hmem := (hch p _).mpr (.inr ⟨hv, u, hu, if_pos hkeep⟩)
    have hlen : (enc u).length ≠ 0 := fun hzero =>
      enc_ne_nil (h.contents.base.sub_canonical hu hplain) (length_eq_zero_iff.mp hzero)
    rw [applyTo_of_mem hfun hmem]
    simp [newNodeWithPrev, NodeBlob.isDeleted, hlen, hstored, hkeep, eq_comm]
  · -- embedded: deleted if the database had a node here
    have hnone : ¬ ∃ u', Stored t p u' ∧ b = enc u' := by
      rintro ⟨u', hu', -⟩
      exact hkeep ((hstored u').mp hu').2
    refine iff_of_false ?_ hnone
    by_cases hprev : (prevalue trie.tracers.prevalues p).length ≠ 0
    · have hmem := (hch p _).mpr (.inr ⟨hv, u, hu, (if_neg hkeep).trans (if_pos hprev)⟩)
      rw [applyTo_of_mem hfun hmem]
      exact nofun
    have hnot : ∀ e, .node p e ∉ evs := by
      intro e he
      rcases (hch p e).mp he with ⟨hdel, -⟩ | ⟨-, u', hu', hce⟩
      · exact h.not_visits hdel hv
      · rw [hu] at hu'
        cases hu'
        rw [change, if_neg hkeep, if_neg hprev] at hce
        cases hce
    rw [applyTo_of_notMem hnot]
    rw [h.prevalue_visited hdb hv, not_not, length_eq_zero_iff] at hprev
    intro hb
    rw [hb] at hprev
    exact hdb.ne_nil h.base hb hprev

/-- At any other path. -/
theorem Changes.exact_kept (hv : ¬ Visits trie.root p) (b : Bytes) :
    (newNodeSet.recordAll evs).applyTo db p = some b ↔ ∃ u, Stored t p u ∧ b = enc u := by
  have hmem : ∀ e, .node p e ∈ evs ↔ p ∈ trie.tracers.ops.deletes ∧
      p ∈ trie.tracers.prevalues ∧ e = newDeletedWithPrev (prevalue trie.tracers.prevalues p) := by
    intro e
    rw [hch p e]
    simp [hv]
  by_cases hnode : IsNode t p
  · -- the subtree of the database
    have hnot : ∀ e, .node p e ∉ evs := by
      intro e he
      exact ((h.mem_deletes p).mp ((hmem e).mp he).1).2 hnode
    rw [applyTo_of_notMem hnot, hdb p b]
    have hsub : T₀.sub p = t.sub p := h.rep.kept h.sound (.inl hnode) hv
    simp only [stored_congr hsub]
  · have hnone : ¬ ∃ u, Stored t p u ∧ b = enc u := by
      rintro ⟨u, hu, -⟩
      exact hnode hu.isNode
    refine iff_of_false ?_ hnone
    by_cases hgone : p ∈ trie.tracers.ops.deletes ∧ p ∈ trie.tracers.prevalues
    · rw [applyTo_of_mem (hch.functional h) ((hmem _).mpr ⟨hgone.1, hgone.2, rfl⟩)]
      exact nofun
    rw [applyTo_of_notMem fun e he => hgone ⟨((hmem e).mp he).1, ((hmem e).mp he).2.1⟩, hdb p b]
    rintro ⟨u, hu, -⟩
    -- a node of the old tree that is gone and was not loaded would still be there
    have hdel := (h.mem_deletes p).mpr ⟨hu.isNode, hnode⟩
    have hsub := h.rep.kept h.sound (.inr (h.hidden hu fun hp => hgone ⟨hdel, hp⟩)) hv
    exact hnode ((stored_congr hsub).mp hu).isNode

theorem Changes.exact : Exact ((newNodeSet.recordAll evs).applyTo db) t := by
  intro p b
  by_cases hv : Visits trie.root p
  · exact hch.exact_visited h hdb hv b
  · exact hch.exact_kept h hdb hv b

/-- The origins are the blobs the database had. -/
theorem Changes.origins {n : NodeBlob} (hn : (newNodeSet.recordAll evs).nodes.lookup p = some n) :
    (newNodeSet.recordAll evs).origins.lookup p = some ((db p).getD []) := by
  by_cases hp : ∃ e, .node p e ∈ evs
  · rcases hp with ⟨e, he⟩
    rw [(recordAll_of_mem (hch.functional h) he newNodeSet).2]
    rcases (hch p e).mp he with ⟨-, hp, rfl⟩ | ⟨hv, u, -, hce⟩
    · rw [h.prevalue_eq hdb hp]
      rfl
    rw [← h.prevalue_visited hdb hv]
    unfold change at hce
    split at hce
    · cases hce
      rfl
    · split at hce
      · cases hce
        rfl
      · cases hce
  · rw [(recordAll_of_notMem (fun e he => hp ⟨e, he⟩) newNodeSet).1] at hn
    cases hn

omit hdb

omit h hch

/-! ### Commit -/

def deletionEvent (P : GoMap Path Bytes) (p : Path) : Event :=
  .node p (newDeletedWithPrev (prevalue P p))

section
omit [Crypto]

theorem deletedSet_eq (trie : Trie) (ord : RangeOrder Path) : trie.deletedSet ord =
    newNodeSet.recordAll ((trie.deletedNodes ord).map (deletionEvent trie.tracers.prevalues)) := by
  rw [recordAll, foldl_map]
  rfl

theorem mem_deletedNodes : p ∈ trie.deletedNodes ord ↔
    p ∈ trie.tracers.ops.deletes ∧ p ∈ trie.tracers.prevalues := by
  simp [deletedNodes]

theorem mem_deletions {e : NodeWithPrev} :
    .node p e ∈ (trie.deletedNodes ord).map (deletionEvent trie.tracers.prevalues) ↔
      p ∈ trie.tracers.ops.deletes ∧ p ∈ trie.tracers.prevalues ∧
        e = newDeletedWithPrev (prevalue trie.tracers.prevalues p) := by
  rw [mem_map]
  constructor
  · rintro ⟨q, hq, heq⟩
    cases heq
    exact ⟨(mem_deletedNodes.mp hq).1, (mem_deletedNodes.mp hq).2, rfl⟩
  · rintro ⟨hdel, hprev, rfl⟩
    exact ⟨p, mem_deletedNodes.mpr ⟨hdel, hprev⟩, rfl⟩

/-- The map is ranged over in some order. -/
theorem deletedNodes_perm (trie : Trie) (ord ord' : RangeOrder Path) :
    (trie.deletedNodes ord).Perm (trie.deletedNodes ord') := by
  refine (perm_ext_iff_of_nodup ?_ ?_).mpr fun p => ?_
  · exact (ord.nodup _).filter _
  · exact (ord'.nodup _).filter _
  · rw [mem_deletedNodes, mem_deletedNodes]

end

/-- What a commit returns, however it is run: the events, in some order, or no set if there
    are none. -/
structure CommitResult (trie : Trie) (t : Tree) (collectLeaf : Bool) (evs : List Event)
    (quiet : Bool) : Prop where
  unchanged : quiet = true → evs = []
  result : ∀ (parallel : Bool) (ord : RangeOrder Path) (schedule : List Nibble),
    schedule.Perm childIndices → ∃ evs' trie', evs'.Perm evs ∧
      trie.commitWith parallel ord schedule collectLeaf =
        some ((rootHash t, if quiet then none else some (newNodeSet.recordAll evs')), trie')

/-- An empty trie. -/
theorem TrieInv.commit_empty (h : TrieInv T₀ m trie t) (hnil : trie.root.isNil = true)
    (collectLeaf : Bool) (ord₀ : RangeOrder Path) : ∃ evs quiet, Changes trie t evs ∧
      CommitResult trie t collectLeaf evs quiet := by
  have hroot := Node.isNil_iff.mp hnil
  have ht : rootHash t = emptyRootHash := by
    rw [rootHash, ← h.rep.isNil, if_pos hnil]
  refine ⟨(trie.deletedNodes ord₀).map (deletionEvent trie.tracers.prevalues),
    (trie.deletedNodes ord₀).length = 0, fun p e => ?_, fun hquiet => ?_,
    fun parallel ord schedule _ => ?_⟩
  · rw [mem_deletions, hroot]
    exact ⟨.inl, fun hor => hor.resolve_right fun hv => hv.1⟩
  · rw [decide_eq_true_eq, length_eq_zero_iff] at hquiet
    rw [hquiet]
    rfl
  · have hperm := deletedNodes_perm trie ord ord₀
    refine ⟨_, { trie with committed := true },
      hperm.map (deletionEvent trie.tracers.prevalues), ?_⟩
    rw [commitWith, if_pos hnil, ht, deletedSet_eq, hperm.length_eq]
    simp

/-- A root that is clean. -/
theorem Rep.clean {n : Node} {root : Bool} {path : Path} {hash : Hash} (h : Rep T₀ n root path t)
    (hhash : n.cache.1 = some hash) (hdirty : n.cache.2 = false) :
    T₀.sub path = some t ∧ ∀ q, ¬ Visits n q := by
  have hclean : ∀ {fl : NodeFlag}, fl.hash = some hash → fl.dirty = false → fl.clean ≠ none := by
    intro fl hh hd
    rw [NodeFlag.clean, hd, hh]
    exact nofun
  cases n with
  | nil | value v | hash h' => cases hhash
  | short key val fl =>
    rcases h with ⟨c, rfl, -, hfl⟩
    exact ⟨hfl.clean hdirty, fun q hq => hclean hhash hdirty (visits_short.mp hq).1⟩
  | full children fl =>
    rcases h with ⟨ts, rfl, -, hfl⟩
    exact ⟨hfl.clean hdirty, fun q hq => hclean hhash hdirty (visits_full.mp hq).1⟩

/-- A trie with a root. -/
theorem TrieInv.commit_root (h : TrieInv T₀ m trie t) (hnil : trie.root.isNil = false)
    (collectLeaf : Bool) (ord₀ : RangeOrder Path) : ∃ trie₁ evs quiet, TrieInv T₀ m trie₁ t ∧
      Changes trie₁ t evs ∧ CommitResult trie t collectLeaf evs quiet := by
  rcases h.toHolds.hash with ⟨trie₁, hhash, -, hholds, hf, hhashed, hcache⟩
  have h₁ := h.follows hholds hf
  have hne : t ≠ .nil := by
    intro ht
    rw [h.rep.isNil, ht] at hnil
    cases hnil
  have hc := h.contents.canonical.resolve_left hne
  have hroot := hcache hnil
  cases hdirty : trie₁.root.cache.2 with
  | false =>
    -- nothing changed
    rcases h₁.rep.clean hroot hdirty with ⟨hsub, hvisits⟩
    rw [sub_here, Option.some.injEq] at hsub
    subst hsub
    refine ⟨trie₁, [], true, h₁, fun p e => ?_, fun _ => rfl, fun parallel ord schedule _ => ?_⟩
    · refine iff_of_false nofun ?_
      rintro (⟨hdel, -⟩ | ⟨hv, -⟩)
      · have hgone := (h₁.mem_deletes p).mp hdel
        exact hgone.2 hgone.1
      · exact hvisits p hv
    · refine ⟨[], { trie₁ with root := .hash (rootHash T₀), committed := true }, .refl _, ?_⟩
      simp [commitWith, hnil, hhash, hdirty, hroot]
  | true =>
    rcases commitRoot_spec trie₁.tracers.prevalues collectLeaf h₁.rep hc hhashed
      (by rw [hroot]; exact nofun) with ⟨evs, hevs, hall⟩
    refine ⟨trie₁, (trie₁.deletedNodes ord₀).map (deletionEvent trie₁.tracers.prevalues) ++ evs,
      false, h₁, fun p e => ?_, nofun, fun parallel ord schedule hschedule => ?_⟩
    · rw [mem_append, mem_deletions, hevs]
    · rcases hall parallel schedule hschedule with ⟨evs', hperm, hres⟩
      refine ⟨(trie₁.deletedNodes ord).map (deletionEvent trie₁.tracers.prevalues) ++ evs',
        { trie₁ with root := .hash (keccak256 (enc t)), uncommitted := 0, committed := true },
        ((deletedNodes_perm trie₁ ord ord₀).map _).append hperm, ?_⟩
      simp [commitWith, hnil, hhash, hdirty, deletedSet_eq, hres, recordAll_append]

theorem TrieInv.commit (h : TrieInv T₀ m trie t) (collectLeaf : Bool) (ord₀ : RangeOrder Path) :
    ∃ trie₁ evs quiet, TrieInv T₀ m trie₁ t ∧ Changes trie₁ t evs ∧
      CommitResult trie t collectLeaf evs quiet := by
  cases hnil : trie.root.isNil with
  | true =>
    rcases h.commit_empty hnil collectLeaf ord₀ with ⟨evs, quiet, hch, hres⟩
    exact ⟨trie, evs, quiet, h, hch, hres⟩
  | false => exact h.commit_root hnil collectLeaf ord₀

end

/-- The database after a commit; without a set it stays as it is. -/
def applySet (set : Option NodeSet) (db : Path → Option Bytes) : Path → Option Bytes :=
  set.elim db fun set => set.applyTo db

theorem Exact.complete {r : Reader} {T₀ : Tree} {db : Path → Option Bytes} (h : Exact db T₀)
    (hr : ∀ p b, db p = some b → r p (keccak256 b) = some b) : Complete r T₀ :=
  fun p u hu => hr p (enc u) ((h p _).mpr ⟨u, hu, rfl⟩)

/-- **A commit is exact.**  Over a database with exactly the nodes of the opened root, after
    any run of calls, the node set of `Commit` makes a database with exactly the nodes of the
    new trie.  The origins are the blobs that were there.  It does not matter whether the
    committer is parallel, in what order it is scheduled, or how the deletions are ranged
    over. -/
theorem commit_exact {r : Reader} {T₀ : Tree} {m : GoMap Bytes Bytes} {trie : Trie}
    (hopen : Opened r T₀ m trie) {db : Path → Option Bytes} (hdb : Exact db T₀)
    (hreader : ∀ p b, db p = some b → r p (keccak256 b) = some b) {ops : List TrieOp}
    (hops : ∀ op ∈ ops, op.Valid) {trie' : Trie} (hrun : trie.run ops = some trie')
    (collectLeaf : Bool) (ord : RangeOrder Path) {schedule : List Nibble}
    (hschedule : schedule.Perm childIndices) :
    ∃ t set trie'', Contents t (ops.foldl TrieOp.effect m) ∧
      trie'.commit ord schedule collectLeaf = some ((rootHash t, set), trie'') ∧
      Exact (applySet set db) t ∧
      (∀ s, set = some s → ∀ p n, s.nodes.lookup p = some n →
        s.origins.lookup p = some ((db p).getD [])) ∧
      ∀ (parallel : Bool) (ord' : RangeOrder Path) (schedule' : List Nibble),
        schedule'.Perm childIndices → ∃ set' trie₃,
          trie'.commitWith parallel ord' schedule' collectLeaf = some ((rootHash t, set'), trie₃) ∧
          Option.Rel NodeSet.Same set set' := by
  rcases hopen.inv with ⟨hinv, -, rfl⟩
  rcases hinv.run (hdb.complete hreader) hops with ⟨trie₀, t, hrun', -, hinv'⟩
  rw [hrun] at hrun'
  cases hrun'
  rcases hinv'.commit collectLeaf ord with ⟨trie₁, evs, quiet, h₁, hch, hres⟩
  rcases hres.result (100 < trie'.uncommitted) ord schedule hschedule with
    ⟨evs₁, trie₂, hperm, hcommit⟩
  have hch₁ : Changes trie₁ t evs₁ := fun p e => (hperm.mem_iff).trans (hch p e)
  have hfun := hch₁.functional h₁
  refine ⟨t, _, trie₂, hinv'.contents, hcommit, ?_, ?_,
    fun parallel ord' schedule' hschedule' => ?_⟩
  · have hexact := hch₁.exact h₁ hdb
    cases quiet with
    | false => exact hexact
    | true =>
      rw [hres.unchanged rfl, perm_nil] at hperm
      rw [hperm] at hexact
      exact hexact
  · intro s hs p n hn
    cases quiet with
    | false =>
      cases hs
      exact hch₁.origins h₁ hdb hn
    | true => cases hs
  · rcases hres.result parallel ord' schedule' hschedule' with ⟨evs₂, trie₃, hperm₂, hcommit₂⟩
    refine ⟨_, trie₃, hcommit₂, ?_⟩
    cases quiet with
    | false => exact .some (recordAll_perm hfun (hperm.trans hperm₂.symm) newNodeSet)
    | true => exact .none

/-- The database with the nodes of one tree. -/
def dbOf (t : Tree) (p : Path) : Option Bytes :=
  (t.sub p).bind fun u =>
    if isPlain u = false ∧ (p = [] ∨ 32 ≤ (enc u).length) then some (enc u) else none

theorem exact_dbOf (t : Tree) : Exact (dbOf t) t := by
  intro p b
  unfold dbOf Stored
  rw [Option.bind_eq_some_iff]
  constructor
  · rintro ⟨u, hu, hb⟩
    split at hb
    · cases hb
      exact ⟨u, ⟨hu, ‹_›⟩, rfl⟩
    · cases hb
  · rintro ⟨u, ⟨hu, hst⟩, rfl⟩
    exact ⟨u, hu, if_pos hst⟩

theorem readerOf_dbOf (t : Tree) (p : Path) (b : Bytes) (h : dbOf t p = some b) :
    readerOf t p (keccak256 b) = some b := by
  rcases (exact_dbOf t p b).mp h with ⟨u, hu, rfl⟩
  exact complete_readerOf t p u hu

omit [Crypto] in
theorem commit_exact_reopened :
    letI := numberCrypto
    ∃ (T₀ t : Tree) (trie trie' trie'' : Trie) (set : Option NodeSet) (ord : RangeOrder Path),
      T₀ ≠ .nil ∧ trie.run [.update [0x12] (List.replicate 40 9), .update [0x12, 0x35] [8],
        .delete [0x12, 0x34], .hash] = some trie' ∧
      trie'.commit ord childIndices true = some ((rootHash t, set), trie'') ∧
      Exact (applySet set (dbOf T₀)) t := by
  let _ : Crypto := numberCrypto
  rcases exists_opened_leaf with ⟨T₀, trie, hne, hopen⟩
  have hops : ∀ op ∈ [TrieOp.update [0x12] (replicate 40 9), .update [0x12, 0x35] [8],
      .delete [0x12, 0x34], .hash], op.Valid := by
    simp [TrieOp.Valid, ValidKey, ValidValue]
  have hreader := (hopen.inv).2.2
  rcases hopen.inv.1.run (hreader ▸ complete_readerOf _) hops with ⟨trie', -, hrun, -⟩
  let ord : RangeOrder Path := ⟨Finset.toList, Finset.nodup_toList, fun _ _ => Finset.mem_toList⟩
  rcases commit_exact hopen (exact_dbOf _) (readerOf_dbOf _) hops hrun true ord (.refl _) with
    ⟨t, set, trie'', -, hcommit, hexact, -⟩
  exact ⟨_, t, trie, trie', trie'', set, ord, hne, hrun, hcommit, hexact⟩

end GethArb.MPT
