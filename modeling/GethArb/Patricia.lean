/-
  **Patricia trees** of radix `n`, with values of any type.  Keys are words over
  `Fin (n + 1)` that end in the terminator `Fin.last n` and have it nowhere else, so no
  key is a proper prefix of another.  Nothing here names the modelled program.

  A tree is a finite map in disguise (`lookup`).  Among the trees of one map exactly
  one is `Canonical`: no path is stored in two pieces and no branch has fewer than two
  children (`Canonical.ext`).  `insert` and `delete` keep trees canonical and do to the
  map what their names say, so the tree they end in depends on the final map only.
-/
import Mathlib

namespace GethArb

open List Function

universe u

/-- Nodes as a Merkle Patricia trie has them. -/
inductive Patricia (n : Nat) (V : Type u) where
  | nil
  | value (v : V)
  | short (key : List (Fin (n + 1))) (child : Patricia n V)
  | full (children : Fin (n + 1) → Patricia n V)

namespace Patricia

variable {n : Nat} {V : Type u}

/-! ### Words -/

abbrev Word (n : Nat) := List (Fin (n + 1))

/-- A key: the terminator at the end and nowhere else. -/
def Terminated (k : List (Fin (n + 1))) : Prop :=
  ∃ ns, k = ns ++ [Fin.last n] ∧ Fin.last n ∉ ns

variable {k : Word n}

theorem Terminated.ne_nil (h : Terminated k) : k ≠ [] := by
  rcases h with ⟨ns, rfl, -⟩
  simp

theorem Terminated.exists_cons (h : Terminated k) : ∃ a r, k = a :: r :=
  exists_cons_of_ne_nil h.ne_nil

theorem terminated_cons {a : Fin (n + 1)} :
    Terminated (a :: k) ↔ a = Fin.last n ∧ k = [] ∨ a ≠ Fin.last n ∧ Terminated k := by
  constructor
  · rintro ⟨ns, heq, hns⟩
    cases ns with
    | nil =>
      simp only [nil_append, cons.injEq] at heq
      exact .inl heq
    | cons b ns =>
      rcases heq with ⟨rfl, rfl⟩
      rw [mem_cons, not_or] at hns
      exact .inr ⟨Ne.symm hns.1, ns, rfl, hns.2⟩
  · rintro (⟨rfl, rfl⟩ | ⟨ha, ns, rfl, hns⟩)
    · exact ⟨[], rfl, not_mem_nil⟩
    · refine ⟨a :: ns, rfl, ?_⟩
      rw [mem_cons, not_or]
      exact ⟨Ne.symm ha, hns⟩

/-- A piece without terminator in front of a key. -/
theorem terminated_append {p : Word n} (hp : Fin.last n ∉ p) :
    Terminated (p ++ k) ↔ Terminated k := by
  induction p with
  | nil => exact Iff.rfl
  | cons a p ih =>
    rw [mem_cons, not_or] at hp
    rw [cons_append, terminated_cons, ih hp.2]
    constructor
    · rintro (⟨ha, -⟩ | ⟨-, hk⟩)
      · exact absurd ha.symm hp.1
      · exact hk
    · intro hk
      exact .inr ⟨Ne.symm hp.1, hk⟩

/-- A key with something behind it is no key. -/
theorem Terminated.eq_nil_of_append {r : Word n} (hk : Terminated k)
    (h : Terminated (k ++ r)) : r = [] := by
  rcases hk with ⟨ns, rfl, hns⟩
  rw [append_assoc, terminated_append hns] at h
  rcases terminated_cons.mp h with ⟨-, hr⟩ | ⟨hne, -⟩
  · exact hr
  · exact absurd rfl hne

/-- No key is a proper prefix of another. -/
theorem Terminated.eq_of_initial {k' : Word n} (hk : Terminated k) (hk' : Terminated k')
    (h : k <+: k') : k = k' := by
  rcases h with ⟨r, rfl⟩
  rw [hk.eq_nil_of_append hk', append_nil]

/-- `prefixLen`: the length of the common prefix of two words. -/
def prefixLen {α : Type*} [DecidableEq α] : List α → List α → Nat
  | a :: as, b :: bs => if a = b then prefixLen as bs + 1 else 0
  | _, _ => 0

section
variable {α : Type*} [DecidableEq α]

theorem prefixLen_le_right (as bs : List α) : prefixLen as bs ≤ bs.length := by
  induction as generalizing bs with
  | nil => simp [prefixLen]
  | cons a as ih =>
    cases bs with
    | nil => simp [prefixLen]
    | cons b bs =>
      unfold prefixLen
      split
      · simpa using ih bs
      · simp

theorem prefixLen_append (p as bs : List α) :
    prefixLen (p ++ as) (p ++ bs) = p.length + prefixLen as bs := by
  induction p with
  | nil => simp
  | cons c p ih =>
    simp only [cons_append, prefixLen, if_true, length_cons]
    omega

/-- The common prefix, and how the words go on. -/
theorem prefixLen_spec (as bs : List α) : ∃ p as' bs', as = p ++ as' ∧ bs = p ++ bs' ∧
    p.length = prefixLen as bs ∧ ∀ a as'' b bs'', as' = a :: as'' → bs' = b :: bs'' → a ≠ b := by
  induction as generalizing bs with
  | nil => exact ⟨[], [], bs, rfl, rfl, by simp [prefixLen], fun a as'' b bs'' h => by cases h⟩
  | cons a as ih =>
    cases bs with
    | nil =>
      exact ⟨[], a :: as, [], rfl, rfl, by simp [prefixLen], fun _ _ _ _ _ h => by cases h⟩
    | cons b bs =>
      by_cases hab : a = b
      · subst hab
        rcases ih bs with ⟨p, as', bs', rfl, rfl, hlen, hne⟩
        exact ⟨a :: p, as', bs', rfl, rfl, by simp [prefixLen, hlen], hne⟩
      · refine ⟨[], a :: as, b :: bs, rfl, rfl, by simp [prefixLen, hab], ?_⟩
        intro a' as'' b' bs'' ha hb
        cases ha
        cases hb
        exact hab

/-- The whole second word matches iff it is a prefix of the first. -/
theorem prefixLen_eq_length {as bs : List α} : prefixLen as bs = bs.length ↔ bs <+: as := by
  constructor
  · intro h
    rcases prefixLen_spec as bs with ⟨p, as', bs', rfl, rfl, hlen, -⟩
    rw [h, length_append] at hlen
    have : bs' = [] := eq_nil_of_length_eq_zero (by omega)
    subst this
    rw [append_nil]
    exact prefix_append p as'
  · rintro ⟨r, rfl⟩
    have h := prefixLen_append bs r []
    rw [append_nil] at h
    rw [h]
    cases r <;> simp [prefixLen]

end

/-! ### Lookup -/

def lookup : Patricia n V → List (Fin (n + 1)) → Option V
  | nil, _ => none
  | value v, [] => some v
  | value _, _ :: _ => none
  | short key child, k => if key <+: k then child.lookup (k.drop key.length) else none
  | full _, [] => none
  | full children, a :: k => (children a).lookup k

@[simp] theorem lookup_nil (k : Word n) : (nil : Patricia n V).lookup k = none := rfl

@[simp] theorem lookup_full_cons (children : Fin (n + 1) → Patricia n V) (a : Fin (n + 1))
    (k : Word n) : (full children).lookup (a :: k) = (children a).lookup k := rfl

theorem lookup_value (v : V) (k : Word n) :
    (value v : Patricia n V).lookup k = if k = [] then some v else none := by
  cases k <;> simp [lookup]

theorem lookup_short (key : Word n) (child : Patricia n V) (k : Word n) :
    (short key child).lookup k =
      if key <+: k then child.lookup (k.drop key.length) else none := rfl

@[simp] theorem lookup_short_append (key : Word n) (child : Patricia n V)
    (k : Word n) : (short key child).lookup (key ++ k) = child.lookup k := by
  rw [lookup_short, if_pos (prefix_append _ _), drop_left]

variable {key k key' p : Word n} {child t t' u : Patricia n V}

theorem lookup_short_eq_some {v : V} :
    (short key child).lookup k = some v ↔ ∃ r, k = key ++ r ∧ child.lookup r = some v := by
  constructor
  · intro h
    rw [lookup_short] at h
    split at h
    · rename_i hprefix
      rcases hprefix with ⟨r, rfl⟩
      rw [drop_left] at h
      exact ⟨r, rfl, h⟩
    · cases h
  · rintro ⟨r, rfl, h⟩
    rw [lookup_short_append]
    exact h

theorem lookup_leaf (key : Word n) (v : V) (k : Word n) :
    (short key (value v) : Patricia n V).lookup k = if k = key then some v else none := by
  by_cases h : k = key
  · subst h
    have h := lookup_short_append k (value v : Patricia n V) []
    rw [append_nil] at h
    rw [h, if_pos rfl]
    rfl
  · rw [if_neg h]
    cases hl : (short key (value v) : Patricia n V).lookup k with
    | none => rfl
    | some w =>
      rcases lookup_short_eq_some.mp hl with ⟨r, rfl, hr⟩
      rw [lookup_value] at hr
      split at hr
      · subst_vars
        simp at h
      · cases hr

/-! ### Shaped and canonical trees -/

/-- What may stand behind the terminator. -/
def IsValue (t : Patricia n V) : Prop := t = nil ∨ ∃ v, t = value v

/-- Trees with their values behind terminators and nowhere else. -/
inductive Shaped : Patricia n V → Prop
  | empty : Shaped nil
  | leaf {key : List (Fin (n + 1))} (v : V) : Terminated key → Shaped (short key (value v))
  | ext {key : List (Fin (n + 1))} {child : Patricia n V} :
      key ≠ [] → Fin.last n ∉ key → Shaped child → child ≠ nil → Shaped (short key child)
  | branch {children : Fin (n + 1) → Patricia n V} :
      (∀ a, a ≠ Fin.last n → Shaped (children a)) → IsValue (children (Fin.last n)) →
      Shaped (full children)

/-- Trees in minimal form: below an extension there is a branch, and a branch has two
    children. -/
inductive Canonical : Patricia n V → Prop
  | leaf {key : List (Fin (n + 1))} (v : V) : Terminated key → Canonical (short key (value v))
  | ext {key : List (Fin (n + 1))} {children : Fin (n + 1) → Patricia n V} :
      key ≠ [] → Fin.last n ∉ key → Canonical (full children) →
      Canonical (short key (full children))
  | branch {children : Fin (n + 1) → Patricia n V} :
      (∀ a, a ≠ Fin.last n → children a ≠ nil → Canonical (children a)) →
      IsValue (children (Fin.last n)) →
      (∃ a b, a ≠ b ∧ children a ≠ nil ∧ children b ≠ nil) → Canonical (full children)

theorem Canonical.shaped (h : Canonical t) : Shaped t := by
  induction h with
  | leaf v hkey => exact .leaf v hkey
  | ext hne hlast _ ih => exact .ext hne hlast ih (by simp)
  | @branch children _ hlast _ ih =>
    refine .branch (fun a ha => ?_) hlast
    by_cases hnil : children a = nil
    · rw [hnil]
      exact .empty
    · exact ih a ha hnil

theorem Canonical.ne_nil (h : Canonical t) : t ≠ nil := by
  rintro rfl
  cases h

theorem not_canonical_value (v : V) : ¬ Canonical (value v : Patricia n V) := by
  intro h
  cases h

theorem lookup_isValue (h : IsValue t) (hk : k ≠ []) : t.lookup k = none := by
  rcases h with rfl | ⟨v, rfl⟩
  · rfl
  · rw [lookup_value, if_neg hk]

/-- What hangs at symbol `a` of a branch: a value behind the terminator, else a
    canonical tree. -/
def Hangs (a : Fin (n + 1)) (t : Patricia n V) : Prop :=
  a = Fin.last n ∧ (∃ v, t = value v) ∨ a ≠ Fin.last n ∧ Canonical t

variable {children : Fin (n + 1) → Patricia n V} {a b : Fin (n + 1)}

theorem Hangs.ne_nil (h : Hangs a t) : t ≠ nil := by
  rcases h with ⟨-, v, rfl⟩ | ⟨-, h⟩
  · simp
  · exact h.ne_nil

theorem canonical_full : Canonical (full children) ↔
    (∀ a, children a = nil ∨ Hangs a (children a)) ∧
      ∃ a b, a ≠ b ∧ children a ≠ nil ∧ children b ≠ nil := by
  constructor
  · intro h
    cases h with
    | branch hchild hlast htwo =>
      refine ⟨fun a => or_iff_not_imp_left.mpr fun hne => ?_, htwo⟩
      by_cases ha : a = Fin.last n
      · subst ha
        exact .inl ⟨rfl, hlast.resolve_left hne⟩
      · exact .inr ⟨ha, hchild a ha hne⟩
  · rintro ⟨hplace, htwo⟩
    refine .branch (fun a ha hne => ?_) ?_ htwo
    · rcases (hplace a).resolve_left hne with ⟨hlast, -⟩ | ⟨-, h⟩
      · exact absurd hlast ha
      · exact h
    · rcases hplace (Fin.last n) with hnil | ⟨-, hv⟩ | ⟨hne, -⟩
      · exact .inl hnil
      · exact .inr hv
      · exact absurd rfl hne

theorem places_update (h : ∀ b, children b = nil ∨ Hangs b (children b))
    (ht : t = nil ∨ Hangs a t) (b : Fin (n + 1)) :
    update children a t b = nil ∨ Hangs b (update children a t b) := by
  by_cases hba : b = a
  · subst hba
    rw [update_self]
    exact ht
  · rw [update_of_ne hba]
    exact h b

/-- A canonical tree is not empty. -/
theorem Canonical.exists_key (h : Canonical t) : ∃ k v, t.lookup k = some v := by
  induction h with
  | @leaf key v hkey => exact ⟨key, v, by simp [lookup_leaf]⟩
  | @ext key _ _ _ _ ih =>
    rcases ih with ⟨k, v, hk⟩
    exact ⟨key ++ k, v, by rw [lookup_short_append, hk]⟩
  | @branch children _ hlast htwo ih =>
    rcases htwo with ⟨a, -, -, ha, -⟩
    by_cases halast : a = Fin.last n
    · subst halast
      rcases hlast with hnil | ⟨v, hv⟩
      · exact absurd hnil ha
      · exact ⟨[Fin.last n], v, by simp [hv, lookup]⟩
    · rcases ih a halast ha with ⟨k, v, hk⟩
      exact ⟨a :: k, v, hk⟩

/-- A child of a branch that is there holds a key. -/
theorem Hangs.exists_key (h : Hangs a t) : ∃ k v, t.lookup k = some v := by
  rcases h with ⟨-, v, rfl⟩ | ⟨-, h⟩
  · exact ⟨[], v, rfl⟩
  · exact h.exists_key

variable (h : Canonical (full children))
include h

/-- A branch holds two keys that differ in their first symbol. -/
theorem Canonical.two_keys : ∃ a b k k' v v', a ≠ b ∧
      (full children).lookup (a :: k) = some v ∧ (full children).lookup (b :: k') = some v' := by
  rcases canonical_full.mp h with ⟨hplace, a, b, hab, ha, hb⟩
  rcases ((hplace a).resolve_left ha).exists_key with ⟨k, v, hk⟩
  rcases ((hplace b).resolve_left hb).exists_key with ⟨k', v', hk'⟩
  exact ⟨a, b, k, k', v, v', hab, hk, hk'⟩

/-! ### One canonical tree for a map -/

/-- An extension stores the common prefix of its keys, so it is determined by them. -/
theorem ext_key_initial (heq : (short key (full children)).lookup = (short key' t).lookup) :
    key' <+: key := by
  rcases h.two_keys with ⟨a, b, k, k', v, v', hab, hk, hk'⟩
  have hmem : ∀ {c r w}, (full children).lookup (c :: r) = some w → key' <+: key ++ c :: r := by
    intro c r w hr
    have hlookup : (short key' t).lookup (key ++ c :: r) = some w := by
      rw [← heq, lookup_short_append, hr]
    rcases lookup_short_eq_some.mp hlookup with ⟨s, hs, -⟩
    exact ⟨s, hs.symm⟩
  by_contra hnot
  -- otherwise `key'` goes on past `key`, with the first symbol of every key of the branch
  have hlong : ∀ {c r}, key' <+: key ++ c :: r → ∃ s, key' = key ++ c :: s := by
    intro c r hpre
    rcases prefix_or_prefix_of_prefix hpre (prefix_append key (c :: r)) with hle | ⟨s, hs⟩
    · exact absurd hle hnot
    subst hs
    rw [prefix_append_right_inj] at hpre
    cases s with
    | nil => exact absurd (by simp) hnot
    | cons d s => exact ⟨s, by rw [(cons_prefix_cons.mp hpre).1]⟩
  rcases hlong (hmem hk) with ⟨s, hs⟩
  rcases hlong (hmem hk') with ⟨s', hs'⟩
  rw [hs, append_cancel_left_eq, cons.injEq] at hs'
  exact hab hs'.1

theorem ext_key_unique {children' : Fin (n + 1) → Patricia n V} (h' : Canonical (full children'))
    (heq : (short key (full children)).lookup = (short key' (full children')).lookup) :
    key = key' := by
  have hle := ext_key_initial h heq
  have hge := ext_key_initial h' heq.symm
  exact hge.eq_of_length (Nat.le_antisymm hge.length_le hle.length_le)

/-- A branch and a path that is not empty do not have the same keys. -/
theorem branch_ne_short (hkey : key ≠ []) (t : Patricia n V) :
    (full children).lookup ≠ (short key t).lookup := by
  intro heq
  have heq' : (short [] (full children)).lookup = (short key t).lookup := by
    rw [← heq]
    rfl
  exact hkey (prefix_nil.mp (ext_key_initial h heq'))

/-- A leaf does not have the keys of anything with a branch in it. -/
theorem leaf_ne_branch {v : V} :
    (short key (value v)).lookup ≠ (short key' (full children)).lookup := by
  intro heq
  rcases h.two_keys with ⟨a, b, k, k', w, w', hab, hk, hk'⟩
  have hmem : ∀ {c r x}, (full children).lookup (c :: r) = some x → key' ++ c :: r = key := by
    intro c r x hr
    have hlookup : (short key (value v)).lookup (key' ++ c :: r) = some x := by
      rw [heq, lookup_short_append, hr]
    rw [lookup_leaf] at hlookup
    split at hlookup
    · assumption
    · cases hlookup
  have hsame := (hmem hk).trans (hmem hk').symm
  rw [append_cancel_left_eq, cons.injEq] at hsame
  exact hab hsame.1

omit h

theorem isValue_unique (h : IsValue t) (h' : IsValue t') (heq : t.lookup [] = t'.lookup []) :
    t = t' := by
  rcases h with rfl | ⟨v, rfl⟩ <;> rcases h' with rfl | ⟨v', rfl⟩
  · rfl
  · cases heq
  · cases heq
  · simp only [lookup, Option.some.injEq] at heq
    rw [heq]

/-- **A canonical tree is determined by its map.** -/
theorem Canonical.ext_lookup (h : Canonical t) (h' : Canonical t') (heq : t.lookup = t'.lookup) :
    t = t' := by
  induction h generalizing t' with
  | @leaf key v hkey =>
    cases h' with
    | @leaf key' v' hkey' =>
      have hself := congrFun heq key
      rw [lookup_leaf, if_pos rfl, lookup_leaf] at hself
      split at hself
      · simp only [Option.some.injEq] at hself
        subst_vars
        rfl
      · cases hself
    | ext _ _ hfull => exact absurd heq (leaf_ne_branch hfull)
    | branch hchild hlast htwo =>
      exact absurd heq.symm
        (branch_ne_short (.branch hchild hlast htwo) hkey.ne_nil _)
  | @ext key children hne _ hfull ih =>
    cases h' with
    | leaf v' _ => exact absurd heq.symm (leaf_ne_branch hfull)
    | @ext key' children' _ _ hfull' =>
      have hkey := ext_key_unique hfull hfull' heq
      subst hkey
      rw [ih hfull' ?_]
      funext k
      have hk := congrFun heq (key ++ k)
      rw [lookup_short_append, lookup_short_append] at hk
      exact hk
    | branch hchild hlast htwo =>
      exact absurd heq.symm
        (branch_ne_short (.branch hchild hlast htwo) hne _)
  | @branch children hchild hlast htwo ih =>
    cases h' with
    | leaf v' hkey' => exact absurd heq (branch_ne_short (.branch hchild hlast htwo) hkey'.ne_nil _)
    | ext hne' _ _ => exact absurd heq (branch_ne_short (.branch hchild hlast htwo) hne' _)
    | @branch children' hchild' hlast' _ =>
      have hpoint : ∀ a, (children a).lookup = (children' a).lookup := by
        intro a
        funext k
        exact congrFun heq (a :: k)
      congr 1
      funext a
      by_cases ha : a = Fin.last n
      · subst ha
        exact isValue_unique hlast hlast' (congrFun (hpoint _) [])
      by_cases hnil : children a = nil
      · by_cases hnil' : children' a = nil
        · rw [hnil, hnil']
        · rcases (hchild' a ha hnil').exists_key with ⟨k, v, hk⟩
          rw [← hpoint a, hnil] at hk
          cases hk
      · by_cases hnil' : children' a = nil
        · rcases (hchild a ha hnil).exists_key with ⟨k, v, hk⟩
          rw [hpoint a, hnil'] at hk
          cases hk
        · exact ih a ha hnil (hchild' a ha hnil') (hpoint a)

/-- The trees at a root: the empty one and the canonical ones. -/
def CanonicalRoot (t : Patricia n V) : Prop := t = nil ∨ Canonical t

theorem CanonicalRoot.shaped (h : CanonicalRoot t) : Shaped t := by
  rcases h with rfl | h
  · exact .empty
  · exact h.shaped

theorem CanonicalRoot.ext_lookup (h : CanonicalRoot t) (h' : CanonicalRoot t')
    (heq : t.lookup = t'.lookup) : t = t' := by
  rcases h with rfl | h <;> rcases h' with rfl | h'
  · rfl
  · rcases h'.exists_key with ⟨k, v, hk⟩
    rw [← heq] at hk
    cases hk
  · rcases h.exists_key with ⟨k, v, hk⟩
    rw [heq] at hk
    cases hk
  · exact h.ext_lookup h' heq

/-! ### Insertion -/

/-- `t` below a path that may be empty. -/
def attach (key : List (Fin (n + 1))) (t : Patricia n V) : Patricia n V :=
  if key = [] then t else short key t

/-- A branch with two children. -/
def fork (a : Fin (n + 1)) (t : Patricia n V) (b : Fin (n + 1)) (u : Patricia n V) :
    Fin (n + 1) → Patricia n V :=
  update (update (fun _ => nil) a t) b u

def insert : Patricia n V → List (Fin (n + 1)) → V → Patricia n V
  | _, [], v => value v
  | nil, k, v => short k (value v)
  | value w, _, _ => value w
  | short key child, k, v =>
    if prefixLen k key = key.length then short key (child.insert (k.drop key.length) v)
    else
      match key.drop (prefixLen k key), k.drop (prefixLen k key) with
      | a :: key', b :: k' =>
        attach (k.take (prefixLen k key))
          (full (fork a (attach key' child) b (attach k' (value v))))
      | _, _ => short key child
  | full children, a :: k, v =>
    full (update children a ((children a).insert k v))

@[simp] theorem attach_nil (t : Patricia n V) : attach [] t = t := rfl

@[simp] theorem attach_cons (a : Fin (n + 1)) (key : Word n) (t : Patricia n V) :
    attach (a :: key) t = short (a :: key) t := rfl

theorem lookup_attach (key : Word n) (t : Patricia n V) :
    (attach key t).lookup = (short key t).lookup := by
  cases key with
  | nil | cons a key => rfl

theorem lookup_fork_left (h : a ≠ b) (t u : Patricia n V) : fork a t b u a = t := by
  rw [fork, update_of_ne h, update_self]

@[simp] theorem lookup_fork_right (a b : Fin (n + 1)) (t u : Patricia n V) :
    fork a t b u b = u := by
  rw [fork, update_self]

theorem lookup_fork_other {c : Fin (n + 1)} (ha : c ≠ a) (hb : c ≠ b) (t u : Patricia n V) :
    fork a t b u c = nil := by
  rw [fork, update_of_ne hb, update_of_ne ha]

@[simp] theorem insert_empty (t : Patricia n V) (v : V) : t.insert [] v = value v := by
  cases t <;> rfl

@[simp] theorem insert_full_cons (children : Fin (n + 1) → Patricia n V) (a : Fin (n + 1))
    (k : Word n) (v : V) : (full children).insert (a :: k) v =
      full (update children a ((children a).insert k v)) := rfl

/-- A word that goes through a path. -/
theorem insert_short_append (hne : key ++ k ≠ []) (v : V) :
    (short key child).insert (key ++ k) v = short key (child.insert k v) := by
  have hlen : prefixLen (key ++ k) key = key.length :=
    prefixLen_eq_length.mpr (prefix_append _ _)
  cases hk : key ++ k with
  | nil => exact absurd hk hne
  | cons a r =>
    rw [hk] at hlen
    rw [insert, if_pos hlen, ← hk, drop_left]
    simp

/-- A word that leaves a path after `p`. -/
theorem insert_short_fork (hab : a ≠ b) (child : Patricia n V) (v : V) :
    (short (p ++ a :: key) child).insert (p ++ b :: k) v =
      attach p (full (fork a (attach key child) b (attach k (value v)))) := by
  have hlen : prefixLen (p ++ b :: k) (p ++ a :: key) = p.length := by
    rw [prefixLen_append]
    simp [prefixLen, Ne.symm hab]
  have hne : ¬ p.length = (p ++ a :: key).length := by simp
  cases hk : p ++ b :: k with
  | nil => simp at hk
  | cons c r =>
    rw [hk] at hlen
    rw [insert, hlen, if_neg hne, ← hk, drop_left, drop_left, take_left]
    simp

/-- The two ways a key meets the path of a short node: it goes through, or it leaves
    the path at some symbol. -/
theorem through_or_fork (hk : Terminated k) (hkey : Terminated key ∨ Fin.last n ∉ key) :
    (∃ r, k = key ++ r) ∨ ∃ p a key' b k', key = p ++ a :: key' ∧ k = p ++ b :: k' ∧ a ≠ b := by
  rcases prefixLen_spec k key with ⟨p, k', key', rfl, rfl, -, hne⟩
  cases key' with
  | nil => exact .inl ⟨k', by simp⟩
  | cons a key' =>
    cases k' with
    | cons b k' => exact .inr ⟨p, a, key', b, k', rfl, rfl, (hne b k' a key' rfl rfl).symm⟩
    | nil =>
      -- then the path goes on behind a terminator
      rw [append_nil] at hk
      rcases hkey with hkey | hkey
      · have := hk.eq_nil_of_append hkey
        cases this
      · rcases hk with ⟨ns, rfl, -⟩
        simp at hkey

/-- A write below a path is a write at the longer key. -/
theorem lookup_short_write {x : Option V} (h : ∀ i, u.lookup i = if i = k then x else t.lookup i)
    (j : Word n) :
    (short key u).lookup j = if j = key ++ k then x else (short key t).lookup j := by
  by_cases hj : key <+: j
  · rcases hj with ⟨i, rfl⟩
    rw [lookup_short_append, h]
    simp
  · rw [lookup_short, if_neg hj, lookup_short, if_neg hj, if_neg]
    rintro rfl
    exact hj (prefix_append _ _)

/-- So is a write below a branch. -/
theorem lookup_full_write {x : Option V}
    (h : ∀ i, t.lookup i = if i = k then x else (children a).lookup i) (j : Word n) :
    (full (update children a t)).lookup j =
      if j = a :: k then x else (full children).lookup j := by
  cases j with
  | nil => rfl
  | cons b j =>
    rw [lookup_full_cons, lookup_full_cons]
    by_cases hba : b = a
    · subst hba
      rw [update_self, h]
      simp
    · rw [update_of_ne hba, if_neg (by simp [hba])]

/-- The map of a branch made where a key leaves a path. -/
theorem lookup_fork (hab : a ≠ b) (child : Patricia n V) (v : V) (j : Word n) :
    (attach p (full (fork a (attach key child) b (attach k (value v))))).lookup j =
      if j = p ++ b :: k then some v else (short (p ++ a :: key) child).lookup j := by
  rw [lookup_attach]
  by_cases hp : p <+: j
  · rcases hp with ⟨r, rfl⟩
    rw [lookup_short_append]
    simp only [append_cancel_left_eq]
    cases r with
    | nil =>
      rw [if_neg (by simp), lookup_short, if_neg]
      · rfl
      · intro hpre
        have := hpre.length_le
        simp at this
    | cons c r =>
      rw [lookup_full_cons]
      by_cases hcb : c = b
      · subst hcb
        rw [lookup_fork_right, lookup_attach, lookup_leaf]
        have hnot : ¬ p ++ a :: key <+: p ++ c :: r := by
          rw [prefix_append_right_inj, cons_prefix_cons]
          exact fun h => hab h.1
        simp only [cons.injEq, true_and, lookup_short, if_neg hnot]
      · rw [if_neg (by simp [hcb])]
        by_cases hca : c = a
        · subst hca
          rw [lookup_fork_left hab, lookup_attach, lookup_short, lookup_short]
          simp only [prefix_append_right_inj, cons_prefix_cons, true_and,
            length_append, length_cons]
          rw [← drop_drop, drop_left, drop_succ_cons]
        · rw [lookup_fork_other hca hcb, lookup_short, if_neg]
          · rfl
          · rw [prefix_append_right_inj, cons_prefix_cons]
            exact fun h => hca h.1.symm
  · rw [lookup_short, if_neg hp, if_neg, lookup_short, if_neg]
    · intro hpre
      exact hp ((prefix_append _ _).trans hpre)
    · rintro rfl
      exact hp (prefix_append _ _)

/-- **Insertion writes one key.** -/
theorem Shaped.lookup_insert (h : Shaped t) (hk : Terminated k) (v : V) (j : Word n) :
    (t.insert k v).lookup j = if j = k then some v else t.lookup j := by
  induction h generalizing k j with
  | empty =>
    obtain ⟨a, k, rfl⟩ := hk.exists_cons
    exact lookup_leaf (a :: k) v j
  | @leaf key w hkey =>
    rcases through_or_fork hk (.inl hkey) with ⟨r, rfl⟩ | ⟨p, a, key', b, k', rfl, rfl, hab⟩
    · have hr := hkey.eq_nil_of_append hk
      subst hr
      rw [insert_short_append hk.ne_nil, insert_empty, lookup_leaf, lookup_leaf, append_nil]
      by_cases hj : j = key
      · rw [if_pos hj, if_pos hj]
      · rw [if_neg hj, if_neg hj, if_neg hj]
    · rw [insert_short_fork hab, lookup_fork hab]
  | @ext key child hne hlast _ _ ih =>
    rcases through_or_fork hk (.inr hlast) with ⟨r, rfl⟩ | ⟨p, a, key', b, k', rfl, rfl, hab⟩
    · rw [insert_short_append hk.ne_nil]
      exact lookup_short_write (ih ((terminated_append hlast).mp hk)) j
    · rw [insert_short_fork hab, lookup_fork hab]
  | @branch children _ hlast ih =>
    obtain ⟨a, k, rfl⟩ := hk.exists_cons
    refine lookup_full_write (fun i => ?_) j
    rcases terminated_cons.mp hk with ⟨rfl, rfl⟩ | ⟨ha, hk⟩
    · rw [insert_empty, lookup_value]
      by_cases hi : i = []
      · rw [if_pos hi, if_pos hi]
      · rw [if_neg hi, if_neg hi, lookup_isValue hlast hi]
    · exact ih a ha hk i

/-! #### Insertion keeps trees canonical -/

/-- The rest of a key below a symbol. -/
theorem hangs_leaf (h : Terminated (a :: k)) (v : V) :
    Hangs a (attach k (value v) : Patricia n V) := by
  rcases terminated_cons.mp h with ⟨ha, rfl⟩ | ⟨ha, hk⟩
  · exact .inl ⟨ha, v, rfl⟩
  · refine .inr ⟨ha, ?_⟩
    rw [attach, if_neg hk.ne_nil]
    exact .leaf v hk

/-- The rest of a path below a symbol. -/
theorem hangs_ext (h : Canonical (short (p ++ a :: key) child)) : Hangs a (attach key child) := by
  cases h with
  | leaf v hkey =>
    by_cases hp : Fin.last n ∈ p
    · rcases hkey with ⟨ns, heq, hns⟩
      have hlen := congrArg length heq
      have hpre : p <+: ns := by
        have hns' : ns <+: p ++ a :: key := heq ▸ prefix_append ns _
        refine prefix_of_prefix_length_le (prefix_append p (a :: key)) hns' ?_
        simp only [length_append, length_cons, length_nil] at hlen
        omega
      exact absurd (hpre.subset hp) hns
    · exact hangs_leaf ((terminated_append hp).mp hkey) v
  | ext _ hlast hchild =>
    have ha : a ≠ Fin.last n := by
      rintro rfl
      simp at hlast
    refine .inr ⟨ha, ?_⟩
    by_cases hkey : key = []
    · subst hkey
      exact hchild
    · rw [attach, if_neg hkey]
      refine .ext hkey ?_ hchild
      simp only [mem_append, mem_cons, not_or] at hlast
      exact hlast.2.2

theorem canonical_fork (hab : a ≠ b) (ht : Hangs a t) (hu : Hangs b u) :
    Canonical (full (fork a t b u)) := by
  have hplace := places_update (places_update (fun _ => .inl rfl) (.inr ht)) (.inr hu)
  refine canonical_full.mpr ⟨hplace, a, b, hab, ?_, ?_⟩
  · rw [lookup_fork_left hab]
    exact ht.ne_nil
  · rw [lookup_fork_right]
    exact hu.ne_nil

theorem canonical_attach_full (hp : Fin.last n ∉ p) (h : Canonical (full children)) :
    Canonical (attach p (full children)) := by
  by_cases hnil : p = []
  · subst hnil
    exact h
  · rw [attach, if_neg hnil]
    exact .ext hnil hp h

/-- The common prefix of two different keys, or of a key and a path, has no terminator. -/
theorem last_notMem_common (h : Terminated (p ++ b :: k)) : Fin.last n ∉ p := by
  induction p with
  | nil => exact not_mem_nil
  | cons a p ih =>
    rw [cons_append, terminated_cons] at h
    rcases h with ⟨-, h⟩ | ⟨ha, h⟩
    · simp at h
    · rw [mem_cons, not_or]
      exact ⟨Ne.symm ha, ih h⟩

theorem canonical_insert_fork (hab : a ≠ b) (h : Canonical (short (p ++ a :: key) child))
    (hk : Terminated (p ++ b :: k)) (v : V) :
    Canonical ((short (p ++ a :: key) child).insert (p ++ b :: k) v) := by
  have hp := last_notMem_common hk
  rw [insert_short_fork hab]
  exact canonical_attach_full hp
    (canonical_fork hab (hangs_ext h) (hangs_leaf ((terminated_append hp).mp hk) v))

theorem Canonical.insert (h : Canonical t) (hk : Terminated k) (v : V) :
    Canonical (t.insert k v) := by
  induction h generalizing k with
  | @leaf key w hkey =>
    rcases through_or_fork hk (.inl hkey) with ⟨r, rfl⟩ | ⟨p, a, key', b, k', rfl, rfl, hab⟩
    · have hr := hkey.eq_nil_of_append hk
      subst hr
      rw [insert_short_append hk.ne_nil]
      exact .leaf v hkey
    · exact canonical_insert_fork hab (.leaf w hkey) hk v
  | @ext key children hne hlast hchild ih =>
    rcases through_or_fork hk (.inr hlast) with ⟨r, rfl⟩ | ⟨p, a, key', b, k', rfl, rfl, hab⟩
    · rw [insert_short_append hk.ne_nil]
      have hr := (terminated_append hlast).mp hk
      have hfull := ih hr
      obtain ⟨a, r, rfl⟩ := hr.exists_cons
      exact .ext hne hlast hfull
    · exact canonical_insert_fork hab (.ext hne hlast hchild) hk v
  | @branch children hchild hlast htwo ih =>
    obtain ⟨a, k, rfl⟩ := hk.exists_cons
    -- the child at `a` after the insertion
    have hnew : Hangs a ((children a).insert k v) := by
      rcases terminated_cons.mp hk with ⟨ha, rfl⟩ | ⟨ha, hk⟩
      · exact .inl ⟨ha, v, insert_empty _ _⟩
      refine .inr ⟨ha, ?_⟩
      by_cases hnil : children a = nil
      · rw [hnil]
        cases k with
        | nil => exact absurd rfl hk.ne_nil
        | cons b k => exact .leaf v hk
      · exact ih a ha hnil hk
    have hkeep : ∀ b, children b ≠ nil → update children a ((children a).insert k v) b ≠ nil := by
      intro b hb
      by_cases hba : b = a
      · subst hba
        rw [update_self]
        exact hnew.ne_nil
      · rw [update_of_ne hba]
        exact hb
    rcases htwo with ⟨b, c, hbc, hb, hc⟩
    have hplace := (canonical_full.mp (.branch hchild hlast ⟨b, c, hbc, hb, hc⟩)).1
    exact canonical_full.mpr ⟨places_update hplace (.inr hnew), b, c, hbc, hkeep b hb, hkeep c hc⟩

theorem CanonicalRoot.insert (h : CanonicalRoot t) (hk : Terminated k) (v : V) :
    Canonical (t.insert k v) := by
  rcases h with rfl | h
  · obtain ⟨a, k, rfl⟩ := hk.exists_cons
    exact .leaf v hk
  · exact h.insert hk v

/-! ### Deletion -/

def isNil : Patricia n V → Bool
  | nil => true
  | _ => false

@[simp] theorem isNil_iff : t.isNil = true ↔ t = nil := by
  cases t <;> simp [isNil]

/-- The symbols of a branch that have a child. -/
def occupied (children : Fin (n + 1) → Patricia n V) : List (Fin (n + 1)) :=
  (finRange (n + 1)).filter fun a => !(children a).isNil

/-- A branch from which a child was removed: with one child left it turns into a path,
    joined with the path below if there is one. -/
def collapse (children : Fin (n + 1) → Patricia n V) : Patricia n V :=
  match occupied children with
  | [a] =>
    match children a with
    | short key child => short (a :: key) child
    | t => short [a] t
  | _ => full children

/-- A path above a tree, in one piece. -/
def merge (key : List (Fin (n + 1))) : Patricia n V → Patricia n V
  | short key' child => short (key ++ key') child
  | t => short key t

def delete : Patricia n V → List (Fin (n + 1)) → Patricia n V
  | nil, _ => nil
  | value _, _ => nil
  | short key child, k =>
    if key <+: k then
      if k.length = key.length then nil else merge key (child.delete (k.drop key.length))
    else short key child
  | full children, [] => full children
  | full children, a :: k => collapse (update children a ((children a).delete k))

theorem mem_occupied : a ∈ occupied children ↔ children a ≠ nil := by
  simp only [occupied, mem_filter, mem_finRange, true_and, Bool.not_eq_true']
  rw [← Bool.not_eq_true, isNil_iff]

theorem nodup_occupied (children : Fin (n + 1) → Patricia n V) : (occupied children).Nodup :=
  (nodup_finRange _).filter _

/-- One child is left. -/
theorem occupied_eq_singleton (h : occupied children = [a]) :
    children a ≠ nil ∧ ∀ b, b ≠ a → children b = nil := by
  constructor
  · exact mem_occupied.mp (h ▸ mem_singleton_self a)
  · intro b hb
    by_contra hne
    have hmem := mem_occupied.mpr hne
    rw [h, mem_singleton] at hmem
    exact hb hmem

theorem lookup_merge (key : Word n) (t : Patricia n V) :
    (merge key t).lookup = (short key t).lookup := by
  cases t with
  | short key' child =>
    funext k
    rw [merge]
    by_cases hkey : key <+: k
    · rcases hkey with ⟨r, rfl⟩
      rw [lookup_short_append, lookup_short, lookup_short, length_append, ← drop_drop]
      simp
    · rw [lookup_short, if_neg, lookup_short, if_neg hkey]
      intro hpre
      exact hkey ((prefix_append _ _).trans hpre)
  | nil | value v | full children => rfl

/-- Both cases of a branch with one child are a path above that child. -/
theorem collapse_eq_merge (h : occupied children = [a]) :
    collapse children = merge [a] (children a) := by
  unfold collapse
  rw [h]
  simp only
  cases children a <;> rfl

theorem collapse_eq_full (h : ∀ a, occupied children ≠ [a]) :
    collapse children = full children := by
  unfold collapse
  split
  · rename_i a heq
    exact absurd heq (h a)
  · rfl

theorem lookup_collapse (children : Fin (n + 1) → Patricia n V) :
    (collapse children).lookup = (full children).lookup := by
  by_cases h : ∃ a, occupied children = [a]
  · rcases h with ⟨a, ha⟩
    rcases occupied_eq_singleton ha with ⟨-, hother⟩
    rw [collapse_eq_merge ha, lookup_merge]
    funext k
    cases k with
    | nil => simp [lookup]
    | cons b k =>
      rw [lookup_full_cons]
      by_cases hb : b = a
      · subst hb
        exact lookup_short_append [b] (children b) k
      · rw [hother b hb, lookup_short, if_neg]
        · rfl
        · rw [cons_prefix_cons]
          exact fun h => hb h.1.symm
  · rw [collapse_eq_full fun a ha => h ⟨a, ha⟩]

theorem delete_short_append (hk : k ≠ []) :
    (short key child).delete (key ++ k) = merge key (child.delete k) := by
  rw [delete, if_pos (prefix_append _ _), if_neg, drop_left]
  rw [length_append]
  have := length_pos_iff.mpr hk
  omega

@[simp] theorem delete_short_self (key : Word n) (child : Patricia n V) :
    (short key child).delete key = nil := by
  rw [delete, if_pos (prefix_refl _), if_pos rfl]

theorem delete_short_mismatch (h : ¬ key <+: k) : (short key child).delete k = short key child := by
  rw [delete, if_neg h]

@[simp] theorem delete_full_cons (children : Fin (n + 1) → Patricia n V) (a : Fin (n + 1))
    (k : Word n) : (full children).delete (a :: k) =
      collapse (update children a ((children a).delete k)) := rfl

theorem delete_isValue (h : IsValue t) (k : Word n) : t.delete k = nil := by
  rcases h with rfl | ⟨v, rfl⟩ <;> rfl

/-- **Deletion removes one key.** -/
theorem Shaped.lookup_delete (h : Shaped t) (hk : Terminated k) (j : Word n) :
    (t.delete k).lookup j = if j = k then none else t.lookup j := by
  induction h generalizing k j with
  | empty => simp [delete]
  | @leaf key w hkey =>
    by_cases hpre : key <+: k
    · have hkk := hkey.eq_of_initial hk hpre
      subst hkk
      rw [delete_short_self, lookup_leaf]
      by_cases hj : j = key
      · rw [if_pos hj]
        rfl
      · rw [if_neg hj, if_neg hj]
        rfl
    · rw [delete_short_mismatch hpre, lookup_leaf]
      by_cases hj : j = k
      · subst hj
        rw [if_pos rfl, if_neg]
        rintro rfl
        exact hpre (prefix_refl _)
      · rw [if_neg hj]
  | @ext key child _ hlast hchild _ ih =>
    by_cases hpre : key <+: k
    · rcases hpre with ⟨r, rfl⟩
      have hr := (terminated_append hlast).mp hk
      rw [delete_short_append hr.ne_nil, lookup_merge]
      exact lookup_short_write (ih hr) j
    · rw [delete_short_mismatch hpre]
      by_cases hj : j = k
      · subst hj
        rw [if_pos rfl, lookup_short, if_neg hpre]
      · rw [if_neg hj]
  | @branch children _ hlast ih =>
    obtain ⟨a, k, rfl⟩ := hk.exists_cons
    rw [delete_full_cons, lookup_collapse]
    refine lookup_full_write (fun i => ?_) j
    rcases terminated_cons.mp hk with ⟨rfl, rfl⟩ | ⟨ha, hk⟩
    · rw [delete_isValue hlast, lookup_nil]
      by_cases hi : i = []
      · rw [if_pos hi]
      · rw [if_neg hi, lookup_isValue hlast hi]
    · exact ih a ha hk i

/-! #### Deletion keeps trees canonical -/

theorem Canonical.merge (hne : key ≠ []) (hlast : Fin.last n ∉ key) (h : Canonical t) :
    Canonical (merge key t) := by
  cases h with
  | leaf v hkey => exact .leaf v ((terminated_append hlast).mpr hkey)
  | @ext key' children hne' hlast' hchild =>
    refine .ext (by simp [hne]) ?_ hchild
    rw [mem_append, not_or]
    exact ⟨hlast, hlast'⟩
  | branch hchild hl htwo => exact .ext hne hlast (.branch hchild hl htwo)

theorem canonical_collapse (hplace : ∀ a, children a = nil ∨ Hangs a (children a))
    (hone : ∃ a, children a ≠ nil) : Canonical (collapse children) := by
  by_cases h : ∃ a, occupied children = [a]
  · rcases h with ⟨a, ha⟩
    rw [collapse_eq_merge ha]
    rcases (hplace a).resolve_left (occupied_eq_singleton ha).1 with ⟨hlast, v, hv⟩ | ⟨hne, hchild⟩
    · rw [hv, hlast]
      exact .leaf v ⟨[], rfl, not_mem_nil⟩
    · refine hchild.merge (cons_ne_nil _ _) ?_
      rw [mem_singleton]
      exact Ne.symm hne
  · rw [collapse_eq_full fun a ha => h ⟨a, ha⟩]
    refine canonical_full.mpr ⟨hplace, ?_⟩
    rcases hone with ⟨a, ha⟩
    by_contra hnot
    -- no second child: then there is exactly one
    refine h ⟨a, Perm.eq_singleton ?_⟩
    refine (perm_ext_iff_of_nodup (nodup_occupied children) (nodup_singleton a)).mpr ?_
    intro b
    rw [mem_occupied, mem_singleton]
    constructor
    · intro hb
      by_contra hba
      exact hnot ⟨b, a, hba, hb, ha⟩
    · rintro rfl
      exact ha

/-- A branch has a child besides any one. -/
theorem Canonical.exists_other (h : Canonical (full children)) (a : Fin (n + 1)) :
    ∃ d, d ≠ a ∧ children d ≠ nil := by
  rcases canonical_full.mp h with ⟨-, b, c, hbc, hb, hc⟩
  by_cases hba : b = a
  · exact ⟨c, fun h => hbc (hba.trans h.symm), hc⟩
  · exact ⟨b, hba, hb⟩

theorem Canonical.delete_full (h : Canonical (full children)) (ht : t = nil ∨ Hangs a t) :
    Canonical (collapse (update children a t)) := by
  refine canonical_collapse (places_update (canonical_full.mp h).1 ht) ?_
  rcases h.exists_other a with ⟨d, hda, hd⟩
  refine ⟨d, ?_⟩
  rw [update_of_ne hda]
  exact hd

/-- A branch does not disappear. -/
theorem delete_full_ne_nil (children : Fin (n + 1) → Patricia n V) (k : Word n) :
    (full children).delete k ≠ nil := by
  cases k with
  | nil => simp [delete]
  | cons a k =>
    rw [delete_full_cons]
    unfold collapse
    split
    · split <;> simp
    · simp

theorem Canonical.delete (h : Canonical t) (hk : Terminated k) : CanonicalRoot (t.delete k) := by
  induction h generalizing k with
  | @leaf key w hkey =>
    by_cases hpre : key <+: k
    · rw [hkey.eq_of_initial hk hpre, delete_short_self]
      exact .inl rfl
    · rw [delete_short_mismatch hpre]
      exact .inr (.leaf w hkey)
  | @ext key children hne hlast hchild ih =>
    by_cases hpre : key <+: k
    · rcases hpre with ⟨r, rfl⟩
      have hr := (terminated_append hlast).mp hk
      rw [delete_short_append hr.ne_nil]
      have h := (ih hr).resolve_left (delete_full_ne_nil children r)
      exact .inr (h.merge hne hlast)
    · rw [delete_short_mismatch hpre]
      exact .inr (.ext hne hlast hchild)
  | @branch children hchild hlast htwo ih =>
    obtain ⟨a, k, rfl⟩ := hk.exists_cons
    refine .inr ((Canonical.branch hchild hlast htwo).delete_full ?_)
    rcases terminated_cons.mp hk with ⟨rfl, -⟩ | ⟨ha, hk⟩
    · exact .inl (delete_isValue hlast k)
    · by_cases hnil : children a = nil
      · rw [hnil]
        exact .inl rfl
      · exact (ih a ha hnil hk).imp_right fun h => .inr ⟨ha, h⟩

theorem CanonicalRoot.delete (h : CanonicalRoot t) (hk : Terminated k) :
    CanonicalRoot (t.delete k) := by
  rcases h with rfl | h
  · exact .inl rfl
  · exact h.delete hk

/-! ### Subtrees -/

/-- The subtree at a path, if a node, a value or an empty place is there. -/
def sub : Patricia n V → List (Fin (n + 1)) → Option (Patricia n V)
  | t, [] => some t
  | short key child, a :: p =>
    if key <+: a :: p then child.sub ((a :: p).drop key.length) else none
  | full children, a :: p => (children a).sub p
  | _, _ :: _ => none

@[simp] theorem sub_here (t : Patricia n V) : t.sub [] = some t := by
  cases t <;> rfl

@[simp] theorem sub_full (children : Fin (n + 1) → Patricia n V) (a : Fin (n + 1))
    (p : Word n) : (full children).sub (a :: p) = (children a).sub p := rfl

theorem sub_short_append (hne : key ++ p ≠ []) (child : Patricia n V) :
    (short key child).sub (key ++ p) = child.sub p := by
  cases hk : key ++ p with
  | nil => exact absurd hk hne
  | cons a r => rw [sub, ← hk, if_pos (prefix_append _ _), drop_left]

theorem sub_short (hne : key ≠ []) (child : Patricia n V) (p : Word n) :
    (short key child).sub (key ++ p) = child.sub p :=
  sub_short_append (append_ne_nil_of_left_ne_nil hne p) child

theorem sub_short_self (hne : key ≠ []) (child : Patricia n V) :
    (short key child).sub key = some child := by
  have := sub_short hne child []
  rwa [append_nil, sub_here] at this

/-- The way from a tree down to a subtree. -/
inductive Below (u : Patricia n V) : Patricia n V → List (Fin (n + 1)) → Prop
  | here : Below u u []
  | short {key r : List (Fin (n + 1))} {child : Patricia n V} :
      key ++ r ≠ [] → Below u child r → Below u (short key child) (key ++ r)
  | full {children : Fin (n + 1) → Patricia n V} {a : Fin (n + 1)} {r : List (Fin (n + 1))} :
      Below u (children a) r → Below u (full children) (a :: r)

theorem below_of_sub (h : t.sub p = some u) : Below u t p := by
  induction t generalizing p with
  | nil | value v =>
    cases p with
    | nil =>
      cases h
      exact .here
    | cons a p => cases h
  | short key child ih =>
    cases p with
    | nil =>
      cases h
      exact .here
    | cons a p =>
      rw [sub] at h
      split at h
      · rename_i hpre
        rcases hpre with ⟨r, hr⟩
        rw [← hr, drop_left] at h
        rw [← hr]
        exact .short (by simp [hr]) (ih h)
      · cases h
  | full children ih =>
    cases p with
    | nil =>
      cases h
      exact .here
    | cons a p => exact .full (ih a h)

theorem sub_isValue (h : IsValue t) (hu : t.sub p = some u) : p = [] ∧ u = t := by
  rcases h with rfl | ⟨v, rfl⟩
  all_goals
    cases below_of_sub hu with
    | here => exact ⟨rfl, rfl⟩

theorem sub_short_iff (hne : key ≠ []) : (short key child).sub p = some u ↔
    p = [] ∧ u = short key child ∨ ∃ r, p = key ++ r ∧ child.sub r = some u := by
  constructor
  · intro h
    cases below_of_sub h with
    | here => exact .inl ⟨rfl, rfl⟩
    | short _ _ => exact .inr ⟨_, rfl, by rwa [sub_short hne] at h⟩
  · rintro (⟨rfl, rfl⟩ | ⟨r, rfl, h⟩)
    · exact sub_here _
    · rwa [sub_short hne]

theorem sub_full_iff : (full children).sub p = some u ↔
    p = [] ∧ u = full children ∨ ∃ a r, p = a :: r ∧ (children a).sub r = some u := by
  cases p with
  | nil => simp [eq_comm]
  | cons a r => simp

theorem sub_append (h : t.sub p = some u) (q : Word n) : t.sub (p ++ q) = u.sub q := by
  induction below_of_sub h with
  | here => rfl
  | short hne hbelow ih =>
    rw [sub_short_append hne] at h
    rw [append_assoc, sub_short_append ?_, ih h]
    rw [← append_assoc]
    exact append_ne_nil_of_left_ne_nil hne q
  | full hbelow ih => exact ih h

/-- The map of a subtree. -/
theorem lookup_sub (h : t.sub p = some u) (k : Word n) : u.lookup k = t.lookup (p ++ k) := by
  induction below_of_sub h with
  | here => rfl
  | short hne hbelow ih =>
    rw [sub_short_append hne] at h
    rw [ih h, append_assoc, lookup_short_append]
  | full hbelow ih => exact ih h

/-- The tree below a short node. -/
theorem Canonical.of_short (h : Canonical (short key child)) :
    key ≠ [] ∧ (IsValue child ∨ Canonical child) := by
  cases h with
  | leaf v hkey => exact ⟨hkey.ne_nil, .inl (.inr ⟨v, rfl⟩)⟩
  | ext hne _ hchild => exact ⟨hne, .inr hchild⟩

/-- The trees below a full node. -/
theorem Canonical.of_full (h : Canonical (full children)) (a : Fin (n + 1)) :
    IsValue (children a) ∨ Canonical (children a) := by
  rcases (canonical_full.mp h).1 a with hnil | ⟨-, hv⟩ | ⟨-, hchild⟩
  · exact .inl (.inl hnil)
  · exact .inl (.inr hv)
  · exact .inr hchild

theorem not_isValue_short (key : Word n) (child : Patricia n V) : ¬ IsValue (short key child) := by
  rintro (h | ⟨v, h⟩) <;> cases h

theorem not_isValue_full (children : Fin (n + 1) → Patricia n V) : ¬ IsValue (full children) := by
  rintro (h | ⟨v, h⟩) <;> cases h

theorem Canonical.sub (h : Canonical t) (hu : t.sub p = some u) : IsValue u ∨ Canonical u := by
  replace h : IsValue t ∨ Canonical t := .inr h
  induction below_of_sub hu with
  | here => exact h
  | short hne _ ih =>
    rw [sub_short_append hne] at hu
    rcases h with hval | hcan
    · exact absurd hval (not_isValue_short _ _)
    · exact ih hu hcan.of_short.2
  | full _ ih =>
    rcases h with hval | hcan
    · exact absurd hval (not_isValue_full _)
    · exact ih hu (hcan.of_full _)

/-- There is a node (not a value) at the path. -/
def IsNode (t : Patricia n V) (p : List (Fin (n + 1))) : Prop :=
  ∃ u, t.sub p = some u ∧ ¬ IsValue u

theorem isNode_isValue (h : IsValue t) (p : Word n) : ¬ IsNode t p := by
  rintro ⟨u, hu, hnot⟩
  rw [(sub_isValue h hu).2] at hnot
  exact hnot h

theorem isNode_short (hne : key ≠ []) (child : Patricia n V) (p : Word n) :
    IsNode (short key child) p ↔ p = [] ∨ ∃ r, p = key ++ r ∧ IsNode child r := by
  constructor
  · rintro ⟨u, hu, hnot⟩
    rcases (sub_short_iff hne).mp hu with ⟨hp, -⟩ | ⟨r, rfl, hr⟩
    · exact .inl hp
    · exact .inr ⟨r, rfl, u, hr, hnot⟩
  · rintro (rfl | ⟨r, rfl, u, hu, hnot⟩)
    · exact ⟨_, sub_here _, not_isValue_short key child⟩
    · exact ⟨u, by rw [sub_short hne, hu], hnot⟩

theorem isNode_short_append (hne : key ≠ []) (child : Patricia n V) (p : Word n) :
    IsNode (short key child) (key ++ p) ↔ IsNode child p := by
  unfold IsNode
  rw [sub_short hne]

section
variable (children : Fin (n + 1) → Patricia n V)

theorem isNode_full_here : IsNode (full children) [] :=
  ⟨_, sub_here _, not_isValue_full children⟩

theorem isNode_full_cons (a : Fin (n + 1)) (p : Word n) :
    IsNode (full children) (a :: p) ↔ IsNode (children a) p :=
  Iff.rfl

theorem isNode_full (p : Word n) :
    IsNode (full children) p ↔ p = [] ∨ ∃ a r, p = a :: r ∧ IsNode (children a) r := by
  constructor
  · intro h
    cases p with
    | nil => exact .inl rfl
    | cons a r => exact .inr ⟨a, r, rfl, h⟩
  · rintro (rfl | ⟨a, r, rfl, h⟩)
    · exact isNode_full_here children
    · exact h

end

theorem isNode_attach (key : Word n) (t : Patricia n V) (p : Word n) :
    IsNode (attach key t) p ↔ key ≠ [] ∧ p = [] ∨ ∃ r, p = key ++ r ∧ IsNode t r := by
  cases key with
  | nil => simp
  | cons a key =>
    rw [attach_cons, isNode_short (cons_ne_nil a key)]
    simp

theorem isNode_fork (hab : a ≠ b) (t u : Patricia n V) (p : Word n) :
    IsNode (full (fork a t b u)) p ↔
      p = [] ∨ (∃ r, p = a :: r ∧ IsNode t r) ∨ ∃ r, p = b :: r ∧ IsNode u r := by
  rw [isNode_full]
  refine or_congr_right ?_
  constructor
  · rintro ⟨c, r, rfl, h⟩
    by_cases ha : c = a
    · subst ha
      rw [lookup_fork_left hab] at h
      exact .inl ⟨r, rfl, h⟩
    · by_cases hb : c = b
      · subst hb
        rw [lookup_fork_right] at h
        exact .inr ⟨r, rfl, h⟩
      · rw [lookup_fork_other ha hb] at h
        exact absurd h (isNode_isValue (.inl rfl) r)
  · rintro (⟨r, rfl, h⟩ | ⟨r, rfl, h⟩)
    · exact ⟨a, r, rfl, by rwa [lookup_fork_left hab]⟩
    · exact ⟨b, r, rfl, by rwa [lookup_fork_right]⟩

/-- The nodes after an insertion that forks a path: the branch, and what is left of the
    two paths behind it. -/
theorem isNode_insert_fork (hab : a ≠ b) (child : Patricia n V) (v : V) (q : Word n) :
    IsNode (attach p (full (fork a (attach key child) b (attach k (value v))))) q ↔
      ((IsNode (short (p ++ a :: key) child) q ∨ key ≠ [] ∧ q = p ++ [a]) ∨
        k ≠ [] ∧ q = p ++ [b]) ∨ p ≠ [] ∧ q = p := by
  have hvalue : ∀ r, ¬ IsNode (value v : Patricia n V) r := isNode_isValue (.inr ⟨v, rfl⟩)
  simp only [isNode_attach, isNode_fork hab, isNode_short (append_ne_nil_of_right_ne_nil p
    (cons_ne_nil a key)), hvalue, and_false, exists_false, or_false]
  constructor
  · rintro (⟨-, rfl⟩ | ⟨r, rfl, rfl | ⟨s, rfl, hs⟩ | ⟨s, rfl, hk, rfl⟩⟩)
    · exact .inl (.inl (.inl (.inl rfl)))
    · by_cases hp : p = []
      · exact .inl (.inl (.inl (.inl (by simp [hp]))))
      · exact .inr ⟨hp, by simp⟩
    · rcases hs with ⟨hkey, rfl⟩ | ⟨s, rfl, hs⟩
      · exact .inl (.inl (.inr ⟨hkey, rfl⟩))
      · exact .inl (.inl (.inl (.inr ⟨s, by simp, hs⟩)))
    · exact .inl (.inr ⟨hk, rfl⟩)
  · rintro ((((rfl | ⟨s, rfl, hs⟩) | ⟨hkey, rfl⟩) | ⟨hk, rfl⟩) | ⟨hp, rfl⟩)
    · by_cases hp : p = []
      · exact .inr ⟨[], by simp [hp], .inl rfl⟩
      · exact .inl ⟨hp, rfl⟩
    · exact .inr ⟨a :: (key ++ s), by simp, .inr (.inl ⟨_, rfl, .inr ⟨s, rfl, hs⟩⟩)⟩
    · exact .inr ⟨[a], rfl, .inr (.inl ⟨[], rfl, .inl ⟨hkey, rfl⟩⟩)⟩
    · exact .inr ⟨[b], rfl, .inr (.inr ⟨[], rfl, hk, rfl⟩)⟩
    · exact .inr ⟨[], by simp, .inl rfl⟩

/-- The nodes of two paths joined in one. -/
theorem isNode_merge (hne : key ≠ []) (hne' : key' ≠ []) (child : Patricia n V)
    (p : Word n) :
    IsNode (short (key ++ key') child) p ↔ IsNode (short key (short key' child)) p ∧ p ≠ key := by
  have happ : key ++ key' ≠ [] := append_ne_nil_of_left_ne_nil hne key'
  simp only [isNode_short hne, isNode_short hne', isNode_short happ]
  constructor
  · rintro (rfl | ⟨r, rfl, hr⟩)
    · exact ⟨.inl rfl, Ne.symm hne⟩
    · refine ⟨.inr ⟨key' ++ r, append_assoc .., .inr ⟨r, rfl, hr⟩⟩, ?_⟩
      simp [hne']
  · rintro ⟨rfl | ⟨r, rfl, rfl | ⟨s, rfl, hs⟩⟩, hp⟩
    · exact .inl rfl
    · exact absurd (append_nil key) hp
    · exact .inr ⟨s, (append_assoc ..).symm, hs⟩

/-- A branch with one child has the nodes of a path to it. -/
theorem isNode_of_occupied (h : occupied children = [a]) (p : Word n) :
    IsNode (full children) p ↔ IsNode (short [a] (children a)) p := by
  rw [isNode_full, isNode_short (cons_ne_nil a [])]
  refine or_congr_right ?_
  constructor
  · rintro ⟨b, r, rfl, hr⟩
    by_cases hb : b = a
    · subst hb
      exact ⟨r, rfl, hr⟩
    · rw [(occupied_eq_singleton h).2 b hb] at hr
      exact absurd hr (isNode_isValue (.inl rfl) r)
  · rintro ⟨r, rfl, hr⟩
    exact ⟨a, r, rfl, hr⟩

theorem collapse_of_canonical (h : Canonical (full children)) :
    collapse children = full children := by
  refine collapse_eq_full fun e he => ?_
  rcases h.exists_other e with ⟨d, hde, hd⟩
  exact hd ((occupied_eq_singleton he).2 d hde)

/-- A branch of a canonical tree stays one when a child is replaced by another. -/
theorem collapse_update (h : Canonical (full children)) (ht : t ≠ nil) :
    collapse (update children a t) = full (update children a t) := by
  rcases h.exists_other a with ⟨d, hda, hd⟩
  refine collapse_eq_full fun e he => ?_
  rcases occupied_eq_singleton he with ⟨-, hother⟩
  by_cases hea : e = a
  · have := hother d (fun h => hda (h.trans hea))
    rw [update_of_ne hda] at this
    exact hd this
  · have := hother a (Ne.symm hea)
    rw [update_self] at this
    exact ht this

end Patricia

end GethArb
