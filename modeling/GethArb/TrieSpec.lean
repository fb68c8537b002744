/-
  **What `get` and `insert` do**, one theorem each: on a node that stands for a tree they
  do to the tree what the Patricia library says, keep the tracers right, and fail only when
  the reader lacks a node on the way to the key.
-/
import GethArb.TrieRep

namespace GethArb.MPT

open Patricia Function
open List hiding lookup insert

/-! ### Keys and trees that go together -/

/-- What is left of a key on the way down: nothing at a value, a key at a node. -/
def Fits (t : Tree) (k : Path) : Prop := k = [] ∧ IsValue t ∨ Terminated k ∧ Shaped t

variable {k key r : Path}

theorem Fits.value {v : Value} (h : Fits (.value v) k) : k = [] := by
  rcases h with ⟨hk, -⟩ | ⟨-, hs⟩
  · exact hk
  · cases hs

/-- At a node the key is not used up. -/
theorem Fits.node {t : Tree} (h : Fits t k) (ht : ¬ IsValue t) : Terminated k ∧ Shaped t :=
  Or.resolve_left h fun h' => ht h'.2

theorem Fits.terminated_short {c : Tree} (h : Fits (.short key c) k) : Terminated k :=
  (h.node (not_isValue_short key c)).1

theorem Fits.shaped_short {c : Tree} (h : Fits (.short key c) k) : Shaped (.short key c) :=
  (h.node (not_isValue_short key c)).2

theorem Shaped.key_ne_nil {c : Tree} (h : Shaped (.short key c)) : key ≠ [] := by
  cases h with
  | leaf v hkey => exact hkey.ne_nil
  | ext hne _ _ _ => exact hne

theorem Shaped.key_kind {c : Tree} (h : Shaped (.short key c)) :
    Terminated key ∨ Fin.last 16 ∉ key := by
  cases h with
  | leaf v hkey => exact .inl hkey
  | ext _ hlast _ _ => exact .inr hlast

/-- On the way through a short node. -/
theorem Fits.of_short {c : Tree} (h : Fits (.short key c) (key ++ r)) : Fits c r := by
  have hk := h.terminated_short
  cases h.shaped_short with
  | leaf v hkey => exact .inl ⟨hkey.eq_nil_of_append hk, .inr ⟨v, rfl⟩⟩
  | ext _ hlast hc _ => exact .inr ⟨(terminated_append hlast).mp hk, hc⟩

/-- On the way through a full node. -/
theorem Fits.of_full {ts : Nibble → Tree} (h : Fits (.full ts) k) :
    ∃ a r, k = a :: r ∧ Fits (ts a) r := by
  rcases h with ⟨-, hv⟩ | ⟨hk, hs⟩
  · exact absurd hv (not_isValue_full ts)
  rcases exists_cons_of_ne_nil hk.ne_nil with ⟨a, r, rfl⟩
  refine ⟨a, r, rfl, ?_⟩
  cases hs with
  | branch hchild hlast =>
    rcases terminated_cons.mp hk with ⟨rfl, rfl⟩ | ⟨ha, hr⟩
    · exact .inl ⟨rfl, hlast⟩
    · exact .inr ⟨hr, hchild a ha⟩

/-! ### Fuel -/

/-- The depth of the recursion on a node, for a key. -/
def need (n : Node) (k : Path) : Nat := 2 * k.length + if n.isHash then 2 else 1

theorem need_le (n : Node) (k : Path) : need n k ≤ 2 * k.length + 2 := by
  unfold need
  split <;> omega

theorem need_pos (n : Node) (k : Path) : 0 < need n k := by
  unfold need
  split <;> omega

variable {fuel : Nat}

theorem need_below {n m : Node} (h : need n k ≤ fuel + 1) (hlen : r.length < k.length) :
    need m r ≤ fuel := by
  have := need_le m r
  have : 2 * k.length + 1 ≤ need n k := by
    unfold need
    split <;> omega
  omega

theorem need_through {n m : Node} (hne : key ≠ []) (h : need n (key ++ r) ≤ fuel + 1) :
    need m r ≤ fuel := by
  have := length_pos_iff.mpr hne
  refine need_below h ?_
  rw [length_append]
  omega

variable [Crypto]

theorem need_load {t : Tree} (hc : Canonical t) {hash : Option Hash} {h : Hash}
    (hf : need (.hash h) k ≤ fuel + 1) : need (load t hash) k ≤ fuel := by
  have hnot : (load t hash).isHash = false := by
    cases hc <;> rfl
  have hcost : need (.hash h) k = 2 * k.length + 2 := rfl
  rw [need, hnot, if_neg Bool.false_ne_true]
  omega

variable {fl : NodeFlag}

section
variable {T₀ : Tree} {r : Reader}

/-! ### Missing nodes -/

/-- The error of a call that meets a node of the database the reader lacks. -/
def Missing (T₀ : Tree) (r : Reader) (pre k : Path) (e : TrieError) : Prop :=
  ∃ p u, Stored T₀ (pre ++ p) u ∧ e = .missing (pre ++ p) (keccak256 (enc u)) ∧
    r (pre ++ p) (keccak256 (enc u)) = none ∧ p <+: k

variable {pre q k key p : Path}

theorem Missing.below {e : TrieError} (h : Missing T₀ r (pre ++ q) k e) :
    Missing T₀ r pre (q ++ k) e := by
  rcases h with ⟨p, u, hst, rfl, hr, hp⟩
  rw [append_assoc] at hst hr ⊢
  refine ⟨q ++ p, u, hst, rfl, hr, ?_⟩
  rwa [prefix_append_right_inj]

theorem Missing.here {u : Tree} (hst : Stored T₀ pre u) (hr : r pre (keccak256 (enc u)) = none) :
    Missing T₀ r pre k (.missing pre (keccak256 (enc u))) := by
  refine ⟨[], u, ?_, ?_, ?_, nil_prefix⟩
  · rwa [append_nil]
  · rw [append_nil]
  · rwa [append_nil]

/-! ### Get -/

/-- The result of `get`. -/
def GetSpec (T₀ : Tree) (r : Reader) (root : Bool) (pre : Path) (n : Node) (t : Tree) (k : Path)
    (tr tr' : Tracers) : Except TrieError (Option Bytes × Node × Bool) → Prop
  | .ok (v, n', didResolve) =>
    v = (t.lookup k).map Subtype.val ∧ Rep T₀ n' root pre t ∧
      (Seen T₀ pre n tr.prevalues → Seen T₀ pre n' tr'.prevalues) ∧
      (Hashed n t → Hashed n' t) ∧ (didResolve = false → n' = n)
  | .error e => Missing T₀ r pre k e

variable {n val value : Node} {t c : Tree} {root : Bool}

open Missing

theorem get_spec (hT : Base T₀) (hr : Faithful r T₀) (hfuel : need n k ≤ fuel)
    (hrep : Rep T₀ n root pre t) (hk : Fits t k) (tr : Tracers) :
    ∃ res tr', get r fuel n pre k tr = some (res, tr') ∧ Moves T₀ pre tr tr' ∧
      tr'.ops = tr.ops ∧ GetSpec T₀ r root pre n t k tr tr' res := by
  induction fuel generalizing n root pre t k tr with
  | zero =>
    have := need_pos n k
    omega
  | succ fuel ih =>
    cases n with
    | nil =>
      have ht : t = .nil := hrep
      subst ht
      exact ⟨_, _, rfl, .refl .., rfl, rfl, rfl, id, id, fun _ => rfl⟩
    | value v =>
      rcases hrep with ⟨w, rfl, rfl⟩
      have := hk.value
      subst this
      exact ⟨_, _, rfl, .refl .., rfl, rfl, ⟨w, rfl, rfl⟩, id, id, fun _ => rfl⟩
    | short key val fl =>
      rcases hrep with ⟨c, rfl, hrep, hfl⟩
      have hne := Shaped.key_ne_nil hk.shaped_short
      rw [get]
      by_cases hpre : key <+: k
      · rcases hpre with ⟨q, rfl⟩
        rw [if_pos (prefix_append _ _), drop_left]
        rcases ih (need_through hne hfuel) hrep hk.of_short tr with
          ⟨res, tr', hget, hmove, hops, hspec⟩
        rw [hget]
        cases res with
        | error e => exact ⟨_, _, rfl, hmove.widen, hops, below hspec⟩
        | ok out =>
          rcases out with ⟨v, n', did⟩
          rcases hspec with ⟨rfl, hrep', hseen, hhashed, hsame⟩
          have hval : (if did = true then n' else val) = n' := by
            cases did with
            | true => rfl
            | false => exact (hsame rfl).symm
          refine ⟨_, _, rfl, hmove.widen, hops, ?_⟩
          simp only [hval]
          refine ⟨?_, ⟨c, rfl, hrep', hfl.mono hhashed⟩, fun h => ?_, fun h => ⟨h.1, hhashed h.2⟩,
            fun hdid => ?_⟩
          · rw [lookup_short_append]
          · exact h.update_short hmove.grows (hseen h.child_short)
          · rw [hsame hdid]
      · rw [if_neg hpre]
        refine ⟨_, _, rfl, .refl .., rfl, ?_, ⟨c, rfl, hrep, hfl⟩, id, id, fun _ => rfl⟩
        rw [lookup_short, if_neg hpre]
        rfl
    | full children fl =>
      rcases hrep with ⟨ts, rfl, hrep, hfl⟩
      rcases hk.of_full with ⟨a, q, rfl, hq⟩
      rcases ih (need_below hfuel (by simp)) (hrep a) hq tr with
        ⟨res, tr', hget, hmove, hops, hspec⟩
      rw [get]
      simp only [hget]
      cases res with
      | error e => exact ⟨_, _, rfl, hmove.widen, hops, below hspec⟩
      | ok out =>
        rcases out with ⟨v, n', did⟩
        rcases hspec with ⟨rfl, hrep', hseen, hhashed, hsame⟩
        have hchildren : (if did = true then update children a n' else children) =
            update children a n' := by
          cases did with
          | true => rfl
          | false =>
            rw [hsame rfl, update_eq_self]
            rfl
        have hbelow : (∀ i, Hashed (children i) (ts i)) →
            ∀ i, Hashed (update children a n' i) (ts i) := by
          intro h i
          by_cases hi : i = a
          · subst hi
            rw [update_self]
            exact hhashed (h i)
          · rw [update_of_ne hi]
            exact h i
        refine ⟨_, _, rfl, hmove.widen, hops, ?_⟩
        simp only [hchildren]
        refine ⟨rfl, ⟨ts, rfl, rep_update hrep hrep', hfl.mono hbelow⟩, fun h => ?_,
          fun h => ⟨h.1, hbelow h.2⟩, fun hdid => ?_⟩
        · exact h.update_full hmove.grows (hseen (h.child_full a))
        · rw [hsame hdid, update_eq_self]
    | hash h =>
      rcases hrep.hash_load hT with ⟨rfl, hst, rfl, hload⟩
      rw [get]
      rcases resolveAndTrack_spec hT hr hst tr with ⟨hnone, hres⟩ | ⟨-, hres⟩
      · rw [hres]
        exact ⟨_, _, rfl, .refl .., rfl, here hst hnone⟩
      rw [hres]
      have hc := hT.sub_canonical hst.1 hst.2.1
      rcases ih (need_load hc hfuel) hload hk (tr.put pre (enc t)) with
        ⟨res, tr', hget, hmove, hops, hspec⟩
      simp only [hget]
      have hmove' := (Moves.put hst tr).trans hmove
      cases res with
      | error e => exact ⟨_, _, rfl, hmove', hops, hspec⟩
      | ok out =>
        rcases out with ⟨v, n', did⟩
        rcases hspec with ⟨rfl, hrep', hseen, hhashed, -⟩
        exact ⟨_, _, rfl, hmove', hops, rfl, hrep', fun _ => hseen (seen_load hc hst.1 _ _ _),
          fun _ => hhashed (hashed_load nofun), nofun⟩

/-! ### Insert -/

/-- A node below a path that may be empty. -/
def attachNode (key : Path) (n : Node) : Node := if key = [] then n else .short key n newFlag

def traceInsert (p : Bool) (tr : Tracers) (path : Path) : Tracers :=
  if p then tr.onInsert path else tr

omit [Crypto] in
theorem insert_nil (fuel : Nat) (pre k : Path) (val : Node) (tr : Tracers) :
    insert r (fuel + 1) .nil pre k val tr =
      some (.ok true (attachNode k val), traceInsert (k ≠ []) tr pre) := by
  unfold insert attachNode traceInsert
  by_cases hk : k = []
  · simp [hk]
  · simp [hk]

theorem rep_attach (h : Rep T₀ n false (pre ++ key) t) :
    Rep T₀ (attachNode key n) false pre (attach key t) := by
  cases key with
  | nil => simpa [attachNode] using h
  | cons a key => exact ⟨t, rfl, h, flagOk_newFlag ..⟩

omit [Crypto] in
theorem hidden_attach (h : Hidden n q) : Hidden (attachNode key n) (key ++ q) := by
  cases key with
  | nil => exact h
  | cons a key =>
    refine ⟨prefix_append _ _, ?_⟩
    rw [drop_left]
    exact h

theorem Moves.traceInsert (c : Bool) (tr : Tracers) (q : Path) :
    Moves T₀ pre tr (traceInsert c tr (pre ++ q)) := by
  cases c with
  | true => exact .onInsert tr q
  | false => exact .refl ..

variable {tr : Tracers}

omit [Crypto] in
theorem Tracked.traceInsert {nodes : Path → Prop} (c : Bool) (h : Tracked T₀ pre nodes tr.ops)
    (hnew : c = true → ¬ nodes q) :
    Tracked T₀ pre (fun p => nodes p ∨ c = true ∧ p = q) (traceInsert c tr (pre ++ q)).ops := by
  cases c with
  | true => exact (h.onInsert (hnew rfl)).congr fun p => by simp
  | false => exact h.congr fun p => by simp

/-- The tracers after a fork. -/
def forkTracers (tr : Tracers) (pre p : Path) (a : Nibble) (key : Path) (b : Nibble) (k : Path) :
    Tracers :=
  traceInsert (p ≠ [])
    (traceInsert (k ≠ []) (traceInsert (key ≠ []) tr (pre ++ (p ++ [a]))) (pre ++ (p ++ [b])))
    (pre ++ p)

theorem Moves.forkTracers (tr : Tracers) (pre p : Path) (a : Nibble) (key : Path) (b : Nibble)
    (k : Path) : Moves T₀ pre tr (forkTracers tr pre p a key b k) :=
  (Moves.traceInsert _ _ _).trans ((Moves.traceInsert _ _ _).trans (Moves.traceInsert _ _ _))

/-- A short node that is forked. -/
theorem rep_fork {a b : Nibble} (v : Value) (hval : Rep T₀ val false (pre ++ (p ++ a :: key)) c) :
    Rep T₀ (attachNode p (branchNode a (attachNode key val) b (attachNode k (.value v.val)))) root
      pre (attach p (.full (fork a (attach key c) b (attach k (.value v))))) := by
  have hchild : Rep T₀ (attachNode key val) false (pre ++ p ++ [a]) (attach key c) := by
    apply rep_attach
    simpa using hval
  have hleaf : Rep T₀ (attachNode k (.value v.val)) false (pre ++ p ++ [b])
      (attach k (.value v)) := rep_attach ⟨v, rfl, rfl⟩
  have hbranch : ∀ root', Rep T₀ (branchNode a (attachNode key val) b
      (attachNode k (.value v.val))) root' (pre ++ p)
      (.full (fork a (attach key c) b (attach k (.value v)))) := by
    intro root'
    refine ⟨_, rfl, rep_update_both (rep_update_both (fun i => ?_) hchild) hleaf, flagOk_newFlag ..⟩
    rfl
  cases p with
  | nil => simpa [attachNode] using hbranch root
  | cons x p => exact ⟨_, rfl, hbranch false, flagOk_newFlag ..⟩

theorem Traced.fork {a b : Nibble} (hab : a ≠ b) (v : Value)
    (h : Traced T₀ pre (.short (p ++ a :: key) val fl) (.short (p ++ a :: key) c) tr) :
    Traced T₀ pre
      (attachNode p (branchNode a (attachNode key val) b (attachNode k (.value v.val))))
      (attach p (.full (fork a (attach key c) b (attach k (.value v)))))
      (forkTracers tr pre p a key b k) := by
  constructor
  · have h₁ := h.tracked.traceInsert (q := p ++ [a]) (key ≠ []) (by
      intro hkey
      rw [isNode_short (by simp)]
      have hkey : key ≠ [] := by simpa using hkey
      simp [hkey])
    have h₂ := h₁.traceInsert (q := p ++ [b]) (k ≠ []) (by
      rw [isNode_short (by simp)]
      simp [Ne.symm hab])
    have h₃ := h₂.traceInsert (q := p) (p ≠ []) (by
      rw [isNode_short (by simp)]
      simp)
    refine h₃.congr fun q => ?_
    simpa using isNode_insert_fork hab c v q
  · have hmove : Moves T₀ pre tr (forkTracers tr pre p a key b k) := .forkTracers ..
    refine h.seen.mono hmove.grows ?_
    rintro q ⟨⟨s, rfl⟩, hs⟩
    rw [drop_left] at hs
    rw [append_assoc]
    apply hidden_attach
    rw [cons_append, branchNode, Hidden, update_of_ne hab, update_self]
    exact hidden_attach hs

omit [Crypto] in
theorem insert_fork {a b : Nibble} (hab : a ≠ b) :
    insert r (fuel + 2) (.short (p ++ a :: key) val fl) pre (p ++ b :: k) value tr =
      some (.ok true (attachNode p (branchNode a (attachNode key val) b (attachNode k value))),
        forkTracers tr pre p a key b k) := by
  have hlen : prefixLen (p ++ b :: k) (p ++ a :: key) = p.length := by
    rw [prefixLen_append]
    simp [prefixLen, Ne.symm hab]
  have htake : ∀ (x : Nibble) (xs : Path), (p ++ x :: xs).take (p.length + 1) = p ++ [x] := by
    intro x xs
    rw [take_length_add_append]
    rfl
  rw [insert, if_neg (by simp)]
  simp only [hlen, drop_left, take_left, htake, insert_nil]
  rw [if_neg (by simp)]
  cases p with
  | nil | cons x p => rfl

/-- The result of `insert`. -/
def InsertSpec (T₀ : Tree) (r : Reader) (root : Bool) (pre : Path) (n : Node) (t : Tree) (k : Path)
    (v : Value) (tr tr' : Tracers) : Outcome → Prop
  | .ok dirty n' =>
    Rep T₀ n' root pre (t.insert k v) ∧
      (Traced T₀ pre n t tr → Traced T₀ pre n' (t.insert k v) tr') ∧
      (dirty = true ↔ t.lookup k ≠ some v) ∧ (dirty = false → t.insert k v = t)
  | .err e left => left = n ∧ Missing T₀ r pre k e

/-- A new leaf. -/
theorem rep_leaf (k : Path) (v : Value) :
    Rep T₀ (attachNode k (.value v.val)) root pre (attach k (.value v)) := by
  cases k with
  | nil => exact ⟨v, rfl, rfl⟩
  | cons a k => exact ⟨_, rfl, ⟨v, rfl, rfl⟩, flagOk_newFlag ..⟩

theorem Traced.leaf (k : Path) (v : Value) (h : Traced T₀ pre .nil .nil tr) :
    Traced T₀ pre (attachNode k (.value v.val)) (attach k (.value v))
      (traceInsert (k ≠ []) tr pre) := by
  have hvalue : ∀ p, ¬ IsNode (.value v : Tree) p := isNode_isValue (.inr ⟨v, rfl⟩)
  have hempty : ∀ p, ¬ IsNode (.nil : Tree) p := isNode_isValue (.inl rfl)
  constructor
  · have htrack := h.tracked.traceInsert (q := []) (k ≠ []) fun _ => hempty []
    rw [append_nil] at htrack
    refine htrack.congr fun q => ?_
    rw [isNode_attach]
    simp [hvalue, hempty]
  · have hmove : Moves T₀ pre tr (traceInsert (k ≠ []) tr (pre ++ [])) := .traceInsert ..
    rw [append_nil] at hmove
    exact h.seen.mono hmove.grows fun q hq => hq.elim

/-- A value in the place of a value. -/
theorem Traced.plain {n' : Node} {t' : Tree} (ht : IsValue t) (ht' : IsValue t')
    (hn : ∀ q, ¬ Hidden n q) (h : Traced T₀ pre n t tr) : Traced T₀ pre n' t' tr :=
  ⟨h.tracked.congr fun q => iff_of_false (isNode_isValue ht' q) (isNode_isValue ht q),
    h.seen.mono (fun _ h => h) fun q hq => absurd hq (hn q)⟩

omit [Crypto] in
theorem insert_through (hne : key ++ q ≠ []) :
    insert r (fuel + 1) (.short key val fl) pre (key ++ q) value tr = (do
      let (out, tr) ← insert r fuel val (pre ++ key) q value tr
      match out with
      | .err e left => some (.err e (.short key left fl), tr)
      | .ok false _ => some (.ok false (.short key val fl), tr)
      | .ok true nn => some (.ok true (.short key nn newFlag), tr)) := by
  have hlen : prefixLen (key ++ q) key = key.length :=
    prefixLen_eq_length.mpr (prefix_append _ _)
  rw [insert, if_neg hne]
  simp only [hlen, take_left, drop_left]
  rfl

theorem insert_spec (hT : Base T₀) (hr : Faithful r T₀) (v : Value) (hfuel : need n k ≤ fuel)
    (hrep : Rep T₀ n root pre t) (hk : Fits t k) (tr : Tracers) :
    ∃ out tr', insert r fuel n pre k (.value v.val) tr = some (out, tr') ∧ Moves T₀ pre tr tr' ∧
      InsertSpec T₀ r root pre n t k v tr tr' out := by
  induction fuel generalizing n root pre t k tr with
  | zero =>
    have := need_pos n k
    omega
  | succ fuel ih =>
    cases n with
    | nil =>
      have ht : t = .nil := hrep
      subst ht
      have hmove : Moves T₀ pre tr (traceInsert (k ≠ []) tr (pre ++ [])) := .traceInsert ..
      rw [append_nil] at hmove
      have htree : (.nil : Tree).insert k v = attach k (.value v) := by
        cases k <;> rfl
      refine ⟨_, _, insert_nil .., hmove, ?_⟩
      rw [InsertSpec, htree]
      exact ⟨rep_leaf k v, fun h => h.leaf k v, by simp, nofun⟩
    | value w =>
      rcases hrep with ⟨w, rfl, rfl⟩
      have := hk.value
      subst this
      refine ⟨_, _, rfl, .refl .., ⟨v, rfl, rfl⟩, ?_, ?_, ?_⟩
      · exact Traced.plain (.inr ⟨w, rfl⟩) (.inr ⟨v, rfl⟩) fun q hq => hq.elim
      · simp [lookup_value, Subtype.ext_iff]
      · intro hdirty
        have : w.val = v.val := by simpa using hdirty
        rw [insert_empty, Subtype.ext this]
    | short key val fl =>
      rcases hrep with ⟨c, rfl, hrep, hfl⟩
      have hne := Shaped.key_ne_nil hk.shaped_short
      rcases through_or_fork hk.terminated_short (Shaped.key_kind hk.shaped_short) with
        ⟨q, rfl⟩ | ⟨p, a, key', b, k', rfl, rfl, hab⟩
      · rcases ih (need_through hne hfuel) hrep hk.of_short tr with ⟨out, tr', hins, hmove, hspec⟩
        rw [insert_through hk.terminated_short.ne_nil, hins]
        cases out with
        | err e left =>
          rcases hspec with ⟨rfl, hmiss⟩
          exact ⟨_, _, rfl, hmove.widen, rfl, hmiss.below⟩
        | ok dirty n' =>
          rcases hspec with ⟨hrep', htraced, hdirty, hsame⟩
          have htree : (short key c).insert (key ++ q) v = .short key (c.insert q v) :=
            insert_short_append hk.terminated_short.ne_nil v
          rw [← lookup_short_append key c q] at hdirty
          cases dirty with
          | true =>
            refine ⟨_, _, rfl, hmove.widen, ?_⟩
            rw [InsertSpec, htree]
            exact ⟨⟨_, rfl, hrep', flagOk_newFlag ..⟩, fun h => h.update_short hne hmove
              (htraced (h.child_short hne)), hdirty, nofun⟩
          | false =>
            rw [hsame rfl] at htraced htree
            refine ⟨_, _, rfl, hmove.widen, ?_⟩
            rw [InsertSpec, htree]
            exact ⟨⟨_, rfl, hrep, hfl⟩, fun h => h.keep_short hne hmove
              (htraced (h.child_short hne)), hdirty, fun _ => rfl⟩
      · obtain ⟨fuel, rfl⟩ : ∃ m, fuel = m + 1 := by
          refine ⟨fuel - 1, ?_⟩
          have : 2 * (p ++ b :: k').length + 1 ≤ need (.short (p ++ a :: key') val fl)
            (p ++ b :: k') := le_rfl
          rw [length_append, length_cons] at this
          omega
        refine ⟨_, _, insert_fork hab, .forkTracers .., ?_⟩
        rw [InsertSpec, insert_short_fork hab]
        refine ⟨rep_fork v hrep, fun h => h.fork hab v, ?_, nofun⟩
        rw [lookup_short, if_neg]
        · simp
        · rw [prefix_append_right_inj, cons_prefix_cons]
          exact fun h => hab h.1
    | full children fl =>
      rcases hrep with ⟨ts, rfl, hrep, hfl⟩
      rcases hk.of_full with ⟨a, q, rfl, hq⟩
      rcases ih (need_below hfuel (by simp)) (hrep a) hq tr with ⟨out, tr', hins, hmove, hspec⟩
      rw [insert]
      simp only [hins]
      cases out with
      | err e left =>
        rcases hspec with ⟨rfl, hmiss⟩
        refine ⟨_, _, rfl, hmove.widen, ?_, below hmiss⟩
        rw [update_eq_self]
      | ok dirty n' =>
        rcases hspec with ⟨hrep', htraced, hdirty, hsame⟩
        cases dirty with
        | true =>
          exact ⟨_, _, rfl, hmove.widen, ⟨_, rfl, rep_update_both hrep hrep', flagOk_newFlag ..⟩,
            fun h => h.update_full hmove (htraced (h.child_full a)), hdirty, nofun⟩
        | false =>
          have htree : (full ts).insert (a :: q) v = .full ts := by
            rw [insert_full_cons, hsame rfl, update_eq_self]
          rw [hsame rfl] at htraced
          refine ⟨_, _, rfl, hmove.widen, ?_⟩
          rw [InsertSpec, htree]
          exact ⟨⟨_, rfl, hrep, hfl⟩, fun h => h.keep_full hmove (htraced (h.child_full a)), hdirty,
            fun _ => rfl⟩
    | hash h =>
      have hs := hrep.2.2.1
      rcases hrep.hash_load hT with ⟨rfl, hst, rfl, hload⟩
      have hnil : k ≠ [] := by
        rintro rfl
        rcases hk with ⟨-, hv⟩ | ⟨hk, -⟩
        · rw [standalone_iff, isPlain_iff.mpr hv] at hs
          cases hs.1
        · exact hk.ne_nil rfl
      rw [insert, if_neg hnil]
      rcases resolveAndTrack_spec hT hr hst tr with ⟨hnone, hres⟩ | ⟨-, hres⟩
      · simp only [hres]
        exact ⟨_, _, rfl, .refl .., rfl, here hst hnone⟩
      simp only [hres]
      have hc := hT.sub_canonical hst.1 hst.2.1
      rcases ih (need_load hc hfuel) hload hk (tr.put pre (enc t)) with
        ⟨out, tr', hins, hmove, hspec⟩
      simp only [hins]
      have hmove' := (Moves.put hst tr).trans hmove
      cases out with
      | err e left => exact ⟨_, _, rfl, hmove', rfl, hspec.2⟩
      | ok dirty n' =>
        rcases hspec with ⟨hrep', htraced, hdirty, hsame⟩
        cases dirty with
        | true =>
          exact ⟨_, _, rfl, hmove', hrep', fun h => htraced (h.load hT hst _), hdirty, hsame⟩
        | false =>
          rw [hsame rfl] at htraced
          refine ⟨_, _, rfl, hmove', ?_⟩
          rw [InsertSpec, hsame rfl]
          exact ⟨hload, fun h => (h.load hT hst _).keep (htraced (h.load hT hst _)) hmove.grows,
            hdirty, fun _ => rfl⟩

end

end GethArb.MPT
