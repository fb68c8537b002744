/-
  **What `delete` does**: on a node that stands for a canonical tree it does to the tree
  what the Patricia library says and keeps the tracers right.  It fails when the reader
  lacks a node on the way to the key, and also when it lacks the last sibling of what was
  deleted, which has to be looked at before the full node above can be reduced.
-/
import GethArb.TrieSpec

namespace GethArb.MPT

open Patricia Function
open List hiding lookup insert

variable [Crypto]
variable {root : Bool} {fuel : Nat} {e : TrieError}

section
variable {T₀ : Tree} {r : Reader}

/-! ### Joining short nodes -/

/-- A short node below a path, joined with it if it is short itself. -/
def mergeNode (key : Path) : Node → Node
  | .short ckey cval _ => .short (key ++ ckey) cval newFlag
  | n => .short key n newFlag

def mergeTracers (key : Path) (n : Node) (tr : Tracers) (path : Path) : Tracers :=
  match n with
  | .short _ _ _ => tr.onDelete (path ++ key)
  | _ => tr

theorem Moves.mergeTracers (key : Path) (n : Node) (tr : Tracers) (pre : Path) :
    Moves T₀ pre tr (mergeTracers key n tr pre) := by
  cases n with
  | short ckey cval fl => exact .onDelete tr key
  | _ => exact .refl ..

variable {pre key k q : Path} {n val left : Node} {t : Tree}

/-- Joining a short node with the one above it. -/
theorem rep_merge (hrep : Rep T₀ n false (pre ++ key) t) (hn : n.isHash = false)
    (ht : Canonical t) : Rep T₀ (mergeNode key n) root pre (merge key t) := by
  cases n with
  | nil => exact absurd hrep ht.ne_nil
  | value v =>
    rcases hrep with ⟨w, -, rfl⟩
    exact absurd ht (not_canonical_value w)
  | hash h => cases hn
  | full children fl =>
    rcases hrep with ⟨ts, rfl, hrep, hfl⟩
    exact ⟨_, rfl, ⟨ts, rfl, hrep, hfl⟩, flagOk_newFlag ..⟩
  | short ckey cval fl =>
    rcases hrep with ⟨c, rfl, hrep, -⟩
    refine ⟨c, rfl, ?_, flagOk_newFlag ..⟩
    rwa [← append_assoc]

variable {tr : Tracers}

theorem Traced.merge (hne : key ≠ []) (hrep : Rep T₀ n false (pre ++ key) t) (hn : n.isHash = false)
    (ht : Canonical t) (h : Traced T₀ pre (.short key n newFlag) (.short key t) tr) :
    Traced T₀ pre (mergeNode key n) (merge key t) (mergeTracers key n tr pre) := by
  cases n with
  | nil => exact absurd hrep ht.ne_nil
  | value v =>
    rcases hrep with ⟨w, -, rfl⟩
    exact absurd ht (not_canonical_value w)
  | hash h => cases hn
  | full children fl' =>
    rcases hrep with ⟨ts, rfl, -, -⟩
    exact ⟨h.tracked, h.seen.mono (fun _ h => h) fun _ h => h⟩
  | short ckey cval fl' =>
    rcases hrep with ⟨c, rfl, -, -⟩
    have hnode : IsNode (.short key (.short ckey c) : Tree) key := by
      have : IsNode (.short key (.short ckey c) : Tree) (key ++ []) :=
        (isNode_short_append hne _ []).mpr ⟨_, sub_here _, not_isValue_short ckey c⟩
      rwa [append_nil] at this
    constructor
    · exact (h.tracked.onDelete hnode).congr fun q =>
        isNode_merge hne (Shaped.key_ne_nil ht.shaped) c q
    · refine h.seen.mono (fun _ h => h) ?_
      rintro q ⟨⟨s, rfl⟩, hs⟩
      rw [drop_left] at hs
      rcases hs with ⟨⟨s, rfl⟩, hs⟩
      rw [drop_left] at hs
      rw [← append_assoc]
      refine ⟨prefix_append _ _, ?_⟩
      rwa [drop_left]

/-! ### Failed deletions -/

/-- The node above the path is a full node in memory. -/
def LoadedParent : Node → Path → Prop
  | .full _ _, [_] => True
  | .full children _, a :: q => LoadedParent (children a) q
  | .short key val _, q => key <+: q ∧ LoadedParent val (q.drop key.length)
  | _, _ => False

/-- The key leads to nothing, and no node has to be loaded to see it. -/
def Absent : Node → Path → Prop
  | .nil, _ => True
  | .short key val _, k => key ≠ [] ∧ (key <+: k → Absent val (k.drop key.length))
  | .full children _, a :: k => Absent (children a) k
  | _, _ => False

/-- The error of a failed deletion.  The missing node is on the way to the key or it is the
    last sibling of what was deleted.  In that case the full node above it, if it was in
    memory before the call, has lost the key. -/
def DeleteError (T₀ : Tree) (r : Reader) (pre : Path) (n : Node) (t : Tree) (k : Path)
    (e : TrieError) (left : Node) : Prop :=
  ∃ p u, Stored T₀ (pre ++ p) u ∧ e = .missing (pre ++ p) (keccak256 (enc u)) ∧
    r (pre ++ p) (keccak256 (enc u)) = none ∧
    (left = n ∧ (p <+: k ∨ ¬ LoadedParent n p) ∨
      (¬ p <+: k ∧ LoadedParent n p) ∧ Absent left k ∧ t.lookup k ≠ none)

/-! ### Delete -/

/-- The result of `delete`. -/
def DeleteSpec (T₀ : Tree) (r : Reader) (root : Bool) (pre : Path) (n : Node) (t : Tree) (k : Path)
    (tr tr' : Tracers) : Outcome → Prop
  | .ok dirty n' =>
    Rep T₀ n' root pre (t.delete k) ∧
      (Traced T₀ pre n t tr → Traced T₀ pre n' (t.delete k) tr') ∧
      (dirty = true ↔ t.lookup k ≠ none) ∧ (dirty = false → t.delete k = t) ∧
      (dirty = true → n'.isHash = false)
  | .err e left => DeleteError T₀ r pre n t k e left

/-- What is left of a key on the way down a canonical tree. -/
def FitsCanonical (t : Tree) (k : Path) : Prop :=
  k = [] ∧ IsValue t ∨ Terminated k ∧ CanonicalRoot t

omit [Crypto] in
/-- At a node the key is not used up. -/
theorem FitsCanonical.node (h : FitsCanonical t k) (ht : ¬ IsValue t) :
    Terminated k ∧ Canonical t := by
  rcases h with ⟨-, hv⟩ | ⟨hk, rfl | hc⟩
  · exact absurd hv ht
  · exact absurd (.inl rfl) ht
  · exact ⟨hk, hc⟩

variable {children : Nibble → Node} {ts : Nibble → Tree}

theorem occupiedNodes_eq (h : ∀ i, Rep T₀ (children i) false (pre ++ [i]) (ts i)) :
    occupiedNodes children = occupied ts := by
  refine filter_congr fun i _ => ?_
  rw [(h i).isNil]

omit [Crypto] in
theorem reduce_many (h : ∀ pos, occupiedNodes children ≠ [pos]) :
    reduce r children pre tr = (.ok true (.full children newFlag), tr) := by
  unfold reduce
  split
  · rename_i pos heq
    exact absurd heq (h pos)
  · rfl

variable {fl : NodeFlag} {pos a : Nibble}

/-- A full node with one child, as a short node above it. -/
theorem Traced.singleton (hrep : ∀ i, Rep T₀ (children i) false (pre ++ [i]) (ts i))
    (hpos : occupied ts = [pos]) (h : Traced T₀ pre (.full children fl) (.full ts) tr) :
    Traced T₀ pre (.short [pos] (children pos) newFlag) (.short [pos] (ts pos)) tr := by
  constructor
  · exact h.tracked.congr fun q => (isNode_of_occupied hpos q).symm
  · refine h.seen.mono (fun _ h => h) fun q hq => ?_
    cases q with
    | nil => exact hq.elim
    | cons b q =>
      by_cases hb : b = pos
      · subst hb
        exact ⟨⟨q, rfl⟩, hq⟩
      · have hnil := (hrep b).isNil
        rw [(occupied_eq_singleton hpos).2 b hb] at hnil
        rw [Hidden, Node.isNil_iff.mp hnil] at hq
        exact hq.elim

/-- The result of `reduce`. -/
def ReduceSpec (T₀ : Tree) (r : Reader) (root : Bool) (pre : Path) (children : Nibble → Node)
    (ts : Nibble → Tree) (tr tr' : Tracers) : Outcome → Prop
  | .ok dirty n' =>
    dirty = true ∧ Rep T₀ n' root pre (collapse ts) ∧
      (Traced T₀ pre (.full children newFlag) (.full ts) tr →
        Traced T₀ pre n' (collapse ts) tr') ∧ n'.isHash = false
  | .err e left =>
    left = .full children newFlag ∧ ∃ pos, occupied ts = [pos] ∧
      Stored T₀ (pre ++ [pos]) (ts pos) ∧
      e = .missing (pre ++ [pos]) (keccak256 (enc (ts pos))) ∧
      r (pre ++ [pos]) (keccak256 (enc (ts pos))) = none

omit [Crypto] in
/-- The last child does not have to be loaded. -/
theorem reduce_loaded (h : occupiedNodes children = [pos]) (h16 : pos ≠ 16)
    (hhash : (children pos).isHash = false) :
    reduce r children pre tr =
      (.ok true (mergeNode [pos] (children pos)), mergeTracers [pos] (children pos) tr pre) := by
  rw [reduce, h]
  simp only [ne_eq, h16]
  cases hn : children pos with
  | hash h =>
    rw [hn] at hhash
    cases hhash
  | _ => rfl

omit [Crypto] in
theorem reduce_value (h : occupiedNodes children = [16]) :
    reduce r children pre tr = (.ok true (.short [16] (children 16) newFlag), tr) := by
  rw [reduce, h]
  rfl

/-- The end of a deletion below a full node. -/
theorem reduce_spec (hT : Base T₀) (hr : Faithful r T₀) (tr : Tracers)
    (hrep : ∀ i, Rep T₀ (children i) false (pre ++ [i]) (ts i))
    (hchild : ∀ i, i ≠ 16 → CanonicalRoot (ts i)) (hvalue : IsValue (ts 16)) :
    ∃ out tr', reduce r children pre tr = (out, tr') ∧ Moves T₀ pre tr tr' ∧
      ReduceSpec T₀ r root pre children ts tr tr' out := by
  by_cases hone : ∃ pos, occupied ts = [pos]
  · rcases hone with ⟨pos, hpos⟩
    have hocc : occupiedNodes children = [pos] := (occupiedNodes_eq hrep).trans hpos
    have hother := occupied_eq_singleton hpos
    have htree := collapse_eq_merge hpos
    by_cases h16 : pos = 16
    · subst h16
      have hplain : merge [16] (ts 16) = .short [16] (ts 16) := by
        rcases hvalue with hv | ⟨v, hv⟩ <;> rw [hv] <;> rfl
      rw [hplain] at htree
      refine ⟨_, _, reduce_value hocc, .refl .., rfl, ?_⟩
      rw [htree]
      exact ⟨⟨_, rfl, hrep 16, flagOk_newFlag ..⟩, fun h => h.singleton hrep hpos, rfl⟩
    · have hcan : Canonical (ts pos) := (hchild pos h16).resolve_left hother.1
      by_cases hhash : (children pos).isHash = true
      · obtain ⟨h, hnode⟩ : ∃ h, children pos = .hash h := by
          cases hn : children pos with
          | hash h => exact ⟨h, rfl⟩
          | _ =>
            rw [hn] at hhash
            cases hhash
        have hposRep := hrep pos
        rw [hnode] at hposRep
        rcases hposRep.hash_load hT with ⟨-, hst, rfl, hload⟩
        rw [reduce, hocc]
        simp only [ne_eq, h16, hnode, resolve]
        rcases resolveAndTrack_spec hT hr hst tr with ⟨hnone, hres⟩ | ⟨-, hres⟩
        · rw [hres]
          exact ⟨_, _, rfl, .refl .., rfl, pos, hpos, hst, rfl, hnone⟩
        rw [hres]
        have hput : Moves T₀ pre tr (tr.put (pre ++ [pos]) (enc (ts pos))) :=
          (Moves.put hst tr).widen
        have hkey : [pos] ≠ [] := cons_ne_nil _ _
        cases hts : ts pos with
        | nil => exact absurd hts hcan.ne_nil
        | value v =>
          rw [hts] at hcan
          exact absurd hcan (not_canonical_value v)
        | short ckey c =>
          rw [hts] at hload hst hput hcan htree
          refine ⟨_, _, rfl, hput.trans (.onDelete _ [pos]), rfl, ?_⟩
          rw [htree]
          refine ⟨rep_merge hload rfl hcan, fun h => ?_, rfl⟩
          have hsing := h.singleton hrep hpos
          rw [hnode, hts] at hsing
          have hchild :=
            (hsing.child_short hkey).load hT hst (some (keccak256 (enc (.short ckey c))))
          exact Traced.merge hkey hload rfl hcan (hsing.update_short hkey (Moves.put hst tr) hchild)
        | full cs =>
          rw [hts] at hput htree
          have hchild := hrep pos
          rw [hnode, hts] at hchild
          refine ⟨_, _, rfl, hput, rfl, ?_⟩
          rw [htree]
          refine ⟨⟨_, rfl, hchild, flagOk_newFlag ..⟩, fun h => ?_, rfl⟩
          have hsing := h.singleton hrep hpos
          rw [hnode, hts] at hsing
          exact ⟨hsing.tracked, hsing.seen.mono hput.grows fun _ h => h⟩
      · rw [Bool.not_eq_true] at hhash
        refine ⟨_, _, reduce_loaded hocc h16 hhash, .mergeTracers .., rfl, ?_⟩
        rw [htree]
        refine ⟨rep_merge (hrep pos) hhash hcan, fun h => ?_, ?_⟩
        · exact (h.singleton hrep hpos).merge (cons_ne_nil _ _) (hrep pos) hhash hcan
        · cases children pos <;> rfl
  · have hfull : collapse ts = .full ts := collapse_eq_full fun pos h => hone ⟨pos, h⟩
    refine ⟨_, _, reduce_many fun pos => ?_, .refl .., rfl, ?_⟩
    · rw [occupiedNodes_eq hrep]
      exact fun h => hone ⟨pos, h⟩
    · rw [hfull]
      exact ⟨⟨ts, rfl, hrep, flagOk_newFlag ..⟩, id, rfl⟩

section
omit [Crypto]

theorem delete_mismatch (h : ¬ key <+: k) :
    delete r (fuel + 1) (.short key val fl) pre k tr =
      some (.ok false (.short key val fl), tr) := by
  have hlt : prefixLen k key < key.length :=
    lt_of_le_of_ne (prefixLen_le_right k key) fun h' => h (prefixLen_eq_length.mp h')
  rw [delete]
  simp only [hlt, if_true]

theorem delete_self :
    delete r (fuel + 1) (.short key val fl) pre key tr = some (.ok true .nil, tr.onDelete pre) := by
  have hlen : prefixLen key key = key.length := prefixLen_eq_length.mpr (prefix_refl _)
  rw [delete]
  simp [hlen]

theorem delete_through (hq : q ≠ []) :
    delete r (fuel + 1) (.short key val fl) pre (key ++ q) tr = (do
      let (out, tr) ← delete r fuel val (pre ++ key) q tr
      match out with
      | .err e left => some (.err e (.short key left fl), tr)
      | .ok false _ => some (.ok false (.short key val fl), tr)
      | .ok true child =>
          some (.ok true (mergeNode key child), mergeTracers key child tr pre)) := by
  have hlen : prefixLen (key ++ q) key = key.length :=
    prefixLen_eq_length.mpr (prefix_append _ _)
  have hne : key.length ≠ (key ++ q).length := by simpa using hq
  rw [delete]
  simp only [hlen, lt_irrefl, hne, take_left, drop_left]
  cases delete r fuel val (pre ++ key) q tr with
  | none => rfl
  | some res =>
    rcases res with ⟨_ | _, tr⟩
    · rename_i dirty n
      cases dirty with
      | false => rfl
      | true => cases n <;> rfl
    · rfl

theorem FitsCanonical.of_full (h : FitsCanonical (.full ts) k) :
    ∃ a q, k = a :: q ∧ Canonical (.full ts) ∧ FitsCanonical (ts a) q := by
  rcases h.node (not_isValue_full ts) with ⟨hk, hc⟩
  rcases exists_cons_of_ne_nil hk.ne_nil with ⟨a, q, rfl⟩
  refine ⟨a, q, rfl, hc, ?_⟩
  rcases terminated_cons.mp hk with ⟨rfl, rfl⟩ | ⟨ha, hq⟩
  · exact .inl ⟨rfl, branch_value hc⟩
  · exact .inr ⟨hq, branch_child hc ha⟩

end

/-- A leaf that is gone. -/
theorem Traced.gone (hne : key ≠ []) {v : Value}
    (h : Traced T₀ pre (.short key (.value v.val) fl) (.short key (.value v)) tr) :
    Traced T₀ pre .nil .nil (tr.onDelete pre) := by
  have hgone : Tracked T₀ pre (IsNode (.nil : Tree)) (tr.onDelete (pre ++ [])).ops := by
    refine (h.tracked.onDelete ⟨_, sub_here _, not_isValue_short key _⟩).congr fun q => ?_
    refine iff_of_false (isNode_isValue (.inl rfl) q) ?_
    rw [isNode_short hne]
    rintro ⟨rfl | ⟨s, -, hs⟩, hq⟩
    · exact hq rfl
    · exact isNode_isValue (.inr ⟨v, rfl⟩) s hs
  rw [append_nil] at hgone
  refine ⟨hgone, h.seen.mono (fun _ h => h) ?_⟩
  rintro q ⟨-, hq⟩
  exact hq.elim

omit [Crypto] in
theorem branch_child_update (h : Canonical (.full ts)) (ht : t = .nil) (i : Nibble) (hi : i ≠ 16) :
    CanonicalRoot (update ts a t i) := by
  by_cases hia : i = a
  · rw [hia, update_self]
    exact .inl ht
  · rw [update_of_ne hia]
    exact branch_child h hi

omit [Crypto] in
theorem branch_value_update (h : Canonical (.full ts)) (ht : t = .nil) :
    IsValue (update ts a t 16) := by
  by_cases hia : (16 : Nibble) = a
  · rw [← hia]
    exact .inl ht
  · rw [update_of_ne hia]
    exact branch_value h

theorem DeleteError.of_missing (h : Missing T₀ r pre k e) : DeleteError T₀ r pre n t k e n := by
  rcases h with ⟨p, u, hst, rfl, hnone, hp⟩
  exact ⟨p, u, hst, rfl, hnone, .inl ⟨rfl, .inl hp⟩⟩

theorem DeleteError.below_short {c : Tree} (hne : key ≠ [])
    (h : DeleteError T₀ r (pre ++ key) val c q e left) :
    DeleteError T₀ r pre (.short key val fl) (.short key c) (key ++ q) e (.short key left fl) := by
  rcases h with ⟨p, u, hst, rfl, hnone, hcase⟩
  rw [append_assoc] at hst hnone ⊢
  have hloaded : LoadedParent (.short key val fl) (key ++ p) ↔ LoadedParent val p := by
    rw [LoadedParent, drop_left, and_iff_right (prefix_append _ _)]
  refine ⟨key ++ p, u, hst, rfl, hnone, ?_⟩
  rw [prefix_append_right_inj, hloaded, lookup_short_append]
  rcases hcase with ⟨rfl, hcond⟩ | ⟨hcond, habs, hlost⟩
  · exact .inl ⟨rfl, hcond⟩
  · refine .inr ⟨hcond, ⟨hne, fun _ => ?_⟩, hlost⟩
    rwa [drop_left]

theorem DeleteError.below_full (h : DeleteError T₀ r (pre ++ [a]) (children a) (ts a) q e left) :
    DeleteError T₀ r pre (.full children fl) (.full ts) (a :: q) e
      (.full (update children a left) fl) := by
  rcases h with ⟨p, u, hst, rfl, hnone, hcase⟩
  rw [append_assoc] at hst hnone ⊢
  refine ⟨a :: p, u, hst, rfl, hnone, ?_⟩
  cases p with
  | nil =>
    rcases hcase with ⟨rfl, -⟩ | ⟨⟨hnot, -⟩, -⟩
    · rw [update_eq_self]
      exact .inl ⟨rfl, .inl ⟨q, rfl⟩⟩
    · exact absurd nil_prefix hnot
  | cons b p =>
    rw [cons_prefix_cons, LoadedParent, and_iff_right rfl]
    · rcases hcase with ⟨rfl, hcond⟩ | ⟨hcond, habs, hlost⟩
      · rw [update_eq_self]
        exact .inl ⟨rfl, hcond⟩
      · refine .inr ⟨hcond, ?_, hlost⟩
        rwa [Absent, update_self]
    · simp

theorem delete_spec (hT : Base T₀) (hr : Faithful r T₀) (hfuel : need n k ≤ fuel)
    (hrep : Rep T₀ n root pre t) (hk : FitsCanonical t k) (tr : Tracers) :
    ∃ out tr', delete r fuel n pre k tr = some (out, tr') ∧ Moves T₀ pre tr tr' ∧
      DeleteSpec T₀ r root pre n t k tr tr' out := by
  induction fuel generalizing n root pre t k tr with
  | zero =>
    have := need_pos n k
    omega
  | succ fuel ih =>
    cases n with
    | nil =>
      have ht : t = .nil := hrep
      subst ht
      exact ⟨_, _, rfl, .refl .., rfl, id, by simp, fun _ => rfl, by simp⟩
    | value w =>
      rcases hrep with ⟨w, rfl, rfl⟩
      have hnil : k = [] := by
        rcases hk with ⟨hk, -⟩ | ⟨-, hc | hc⟩
        · exact hk
        · cases hc
        · exact absurd hc (not_canonical_value w)
      subst hnil
      refine ⟨_, _, rfl, .refl .., rfl, ?_, by simp [lookup_value], by simp, fun _ => rfl⟩
      exact Traced.plain (.inr ⟨w, rfl⟩) (.inl rfl) fun q hq => hq.elim
    | short key val fl =>
      rcases hrep with ⟨c, rfl, hrep, hfl⟩
      rcases hk.node (not_isValue_short key c) with ⟨hterm, hcan⟩
      have hne := Shaped.key_ne_nil hcan.shaped
      by_cases hpre : key <+: k
      · cases hcan with
        | leaf v hkey =>
          -- the whole leaf goes
          have heq := hkey.eq_of_initial hterm hpre
          subst heq
          have hmove : Moves T₀ pre tr (tr.onDelete (pre ++ [])) := .onDelete tr []
          rw [append_nil] at hmove
          cases hrep.eq_value
          refine ⟨_, _, delete_self, hmove, ?_⟩
          rw [DeleteSpec, delete_short_self]
          exact ⟨rfl, fun h => h.gone hne, by simp [lookup_leaf], by simp, fun _ => rfl⟩
        | @ext _ cs _ hlast hfull =>
          rcases hpre with ⟨q, rfl⟩
          have hq := (terminated_append hlast).mp hterm
          rcases ih (need_through hne hfuel) hrep (.inr ⟨hq, .inr hfull⟩) tr with
            ⟨out, tr', hdel, hmove, hspec⟩
          rw [delete_through hq.ne_nil, hdel]
          cases out with
          | err e left => exact ⟨_, _, rfl, hmove.widen, DeleteError.below_short hne hspec⟩
          | ok dirty n' =>
            rcases hspec with ⟨hrep', htraced, hdirty, hsame, hhash⟩
            have htree : (short key (.full cs)).delete (key ++ q) =
                merge key ((full cs).delete q) := delete_short_append hq.ne_nil
            rw [← lookup_short_append key (.full cs) q] at hdirty
            cases dirty with
            | false =>
              rw [hsame rfl] at htraced htree
              refine ⟨_, _, rfl, hmove.widen, ?_⟩
              rw [DeleteSpec, htree]
              exact ⟨⟨_, rfl, hrep, hfl⟩, fun h => h.keep_short hne hmove
                (htraced (h.child_short hne)), hdirty, fun _ => rfl, by simp⟩
            | true =>
              have hcan' := (hfull.delete hq).resolve_left (delete_full_ne_nil cs q)
              refine ⟨_, _, rfl, hmove.widen.trans (.mergeTracers ..), ?_⟩
              rw [DeleteSpec, htree]
              refine ⟨rep_merge hrep' (hhash rfl) hcan', fun h => ?_, hdirty, by simp, fun _ => ?_⟩
              · exact Traced.merge hne hrep' (hhash rfl) hcan'
                  (h.update_short hne hmove (htraced (h.child_short hne)))
              · cases n' <;> rfl
      · refine ⟨_, _, delete_mismatch hpre, .refl .., ?_⟩
        rw [DeleteSpec, delete_short_mismatch hpre]
        exact ⟨⟨_, rfl, hrep, hfl⟩, id, by simp [lookup_short, hpre], fun _ => rfl, by simp⟩
    | full children fl =>
      rcases hrep with ⟨ts, rfl, hrep, hfl⟩
      rcases hk.of_full with ⟨a, q, rfl, hcan, hq⟩
      rcases ih (need_below hfuel (by simp)) (hrep a) hq tr with ⟨out, tr', hdel, hmove, hspec⟩
      rw [delete]
      simp only [hdel]
      cases out with
      | err e left => exact ⟨_, _, rfl, hmove.widen, DeleteError.below_full hspec⟩
      | ok dirty n' =>
        rcases hspec with ⟨hrep', htraced, hdirty, hsame, -⟩
        cases dirty with
        | false =>
          have htree : (full ts).delete (a :: q) = .full ts := by
            rw [delete_full_cons, hsame rfl, update_eq_self, collapse_of_canonical hcan]
          rw [hsame rfl] at htraced
          refine ⟨_, _, rfl, hmove.widen, ?_⟩
          rw [DeleteSpec, htree]
          exact ⟨⟨_, rfl, hrep, hfl⟩, fun h => h.keep_full hmove (htraced (h.child_full a)), hdirty,
            fun _ => rfl, by simp⟩
        | true =>
          by_cases hnil : n'.isNil = true
          · have htree := hrep'.isNil_iff.mp hnil
            rcases reduce_spec hT hr tr' (rep_update_both hrep hrep')
              (branch_child_update hcan htree) (branch_value_update hcan htree) with
              ⟨out, tr'', hred, hmove', hout⟩
            simp only [bind, Option.bind, hnil, hred]
            refine ⟨_, _, rfl, hmove.widen.trans hmove', ?_⟩
            cases out with
            | ok dirty n'' =>
              rcases hout with ⟨rfl, hrep'', htraced', hhash⟩
              exact ⟨hrep'', fun h => htraced' (h.update_full hmove (htraced (h.child_full a))),
                hdirty, by simp, fun _ => hhash⟩
            | err e left =>
              rcases hout with ⟨rfl, pos, hpos, hst, rfl, hnone⟩
              -- the sibling is missing, and the child is already gone
              have hne : pos ≠ a := by
                rintro rfl
                apply (occupied_eq_singleton hpos).1
                rw [update_self, htree]
              refine ⟨[pos], _, hst, rfl, hnone, .inr ⟨⟨?_, trivial⟩, ?_, hdirty.mp rfl⟩⟩
              · rw [cons_prefix_cons]
                exact fun h => hne h.1
              · rw [Absent, update_self, Node.isNil_iff.mp hnil]
                trivial
          · have htree := hrep'.isNil_iff.not.mp hnil
            simp only [bind, Option.bind, hnil]
            refine ⟨_, _, rfl, hmove.widen, ?_⟩
            rw [DeleteSpec, delete_full_cons, collapse_update hcan htree]
            exact ⟨⟨_, rfl, rep_update_both hrep hrep', flagOk_newFlag ..⟩,
              fun h => h.update_full hmove (htraced (h.child_full a)), hdirty, by simp,
                fun _ => rfl⟩
    | hash h =>
      rcases hrep.hash_load hT with ⟨rfl, hst, rfl, hload⟩
      rw [delete]
      rcases resolveAndTrack_spec hT hr hst tr with ⟨hnone, hres⟩ | ⟨-, hres⟩
      · simp only [hres]
        exact ⟨_, _, rfl, .refl .., DeleteError.of_missing (Missing.here hst hnone)⟩
      simp only [hres]
      have hc := hT.sub_canonical hst.1 hst.2.1
      rcases ih (need_load hc hfuel) hload hk (tr.put pre (enc t)) with
        ⟨out, tr', hdel, hmove, hspec⟩
      simp only [hdel]
      have hmove' := (Moves.put hst tr).trans hmove
      cases out with
      | err e left =>
        rcases hspec with ⟨p, u, hst, rfl, hnone, -⟩
        exact ⟨_, _, rfl, hmove', p, u, hst, rfl, hnone, .inl ⟨rfl, .inr id⟩⟩
      | ok dirty n' =>
        rcases hspec with ⟨hrep', htraced, hdirty, hsame, hhash⟩
        cases dirty with
        | true =>
          exact ⟨_, _, rfl, hmove', hrep', fun h => htraced (h.load hT hst _), hdirty, hsame, hhash⟩
        | false =>
          rw [hsame rfl] at htraced
          refine ⟨_, _, rfl, hmove', ?_⟩
          rw [DeleteSpec, hsame rfl]
          exact ⟨hload, fun h => (h.load hT hst _).keep (htraced (h.load hT hst _)) hmove.grows,
            hdirty, fun _ => rfl, by simp⟩

end

end GethArb.MPT
