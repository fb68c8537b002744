/-
  **Forests given by a parent function**, over an arbitrary type, and two things kept over
  them: values that a node inherits from its parent unless it has its own, and lists in
  which no node comes before one of its ancestors.

    * `value_eq_of_unchanged`: a node has the value of an ancestor if nothing from the node
      up to that ancestor has a value of its own.
    * `nearest_of_find`: in such a list the last node on the way up from `r` is the nearest.
    * `mem_preorder`: what a walk over the children visits.
    * `Way`: the list of nodes between a node and an ancestor.
-/
import Mathlib

namespace GethArb.Forest

open List Nat

variable {α : Type} {V : Type}

section
variable (up : α → Option α)

/-- `a` is a proper ancestor of `r`. -/
def Anc (r a : α) : Prop := Relation.TransGen (fun x y => up x = some y) r a

/-- `a` is `r` or an ancestor of it. -/
def Via (r a : α) : Prop := a = r ∨ Anc up r a

end

variable {up : α → Option α}
variable {r a b : α}

theorem anc_iff : Anc up r a ↔ ∃ b, up r = some b ∧ Via up b a := by
  constructor
  · intro h
    rcases Relation.TransGen.head'_iff.mp h with ⟨b, hb, hrest⟩
    rcases Relation.reflTransGen_iff_eq_or_transGen.mp hrest with heq | htrans
    · exact ⟨b, hb, Or.inl heq⟩
    · exact ⟨b, hb, Or.inr htrans⟩
  · rintro ⟨b, hb, rfl | hab⟩
    · exact Relation.TransGen.single hb
    · exact Relation.TransGen.head hb hab

theorem Anc.of_up (h : up r = some b) : Anc up r b := Relation.TransGen.single h

theorem Anc.trans (h : Anc up r a) (h' : Anc up a b) : Anc up r b :=
  Relation.TransGen.trans h h'

theorem Via.refl (r : α) : Via up r r := Or.inl rfl

theorem Via.trans_anc (h : Via up r a) (h' : Anc up a b) : Anc up r b := by
  rcases h with rfl | h
  · exact h'
  · exact h.trans h'

theorem Anc.trans_via (h : Anc up r a) (h' : Via up a b) : Anc up r b := by
  rcases h' with rfl | h'
  · exact h
  · exact h.trans h'

theorem Via.trans (h : Via up r a) (h' : Via up a b) : Via up r b := by
  rcases h' with rfl | h'
  · exact h
  · exact Or.inr (h.trans_anc h')

theorem not_anc_of_none (h : up r = none) : ¬Anc up r a := by
  rw [anc_iff]
  rintro ⟨b, hb, -⟩
  rw [h] at hb
  cases hb

open Anc

/-- Going up from a node one meets its ancestors in one line. -/
theorem Via.linear (ha : Via up r a) (hb : Via up r b) : Via up a b ∨ Anc up b a := by
  rcases ha with rfl | ha
  · exact Or.inl hb
  induction ha using Relation.TransGen.head_induction_on with
  | single hra =>
    rcases hb with rfl | hb
    · exact Or.inr (of_up hra)
    · obtain ⟨c, hc, hcb⟩ := anc_iff.mp hb
      rw [hra] at hc
      cases hc
      exact Or.inl hcb
  | head hrc hca ih =>
    rcases hb with rfl | hb
    · exact Or.inr (anc_iff.mpr ⟨_, hrc, Or.inr hca⟩)
    · obtain ⟨c, hc, hcb⟩ := anc_iff.mp hb
      rw [hrc] at hc
      cases hc
      exact ih hcb

section
variable {rank : α → Nat} (hrank : ∀ x y, up x = some y → rank y < rank x)
include hrank

theorem Anc.rank_lt (h : Anc up r a) : rank a < rank r := by
  induction h with
  | single h => exact hrank _ _ h
  | tail _ hstep ih => exact lt_trans (hrank _ _ hstep) ih

theorem Anc.irrefl (r : α) : ¬Anc up r r := fun h => lt_irrefl _ (h.rank_lt hrank)

end

variable {up' : α → Option α} {r a b c x : α}

open Via

/-- A change of the parent function that keeps the parents of everything between `r` and an
    ancestor keeps the ancestor. -/
theorem Anc.congr (h : Anc up r a) (heq : ∀ x, Via up r x → Anc up x a → up' x = up x) :
    Anc up' r a := by
  induction h using Relation.TransGen.head_induction_on with
  | single hra =>
    have hup := heq _ (refl _) (of_up hra)
    exact of_up (hup.trans hra)
  | head hrc hca ih =>
    have hup := heq _ (refl _) (anc_iff.mpr ⟨_, hrc, Or.inr hca⟩)
    have hrest := ih fun x hx hxa => heq x (Or.inr (anc_iff.mpr ⟨_, hrc, hx⟩)) hxa
    exact anc_iff.mpr ⟨_, hup.trans hrc, Or.inr hrest⟩

/-- Ancestors after a leaf is added below `b`. -/
theorem anc_extend (hr : up' r = some b) (hup : ∀ x, x ≠ r → up' x = up x)
    (hleaf : ∀ x, up x ≠ some r) (hb : b ≠ r) :
    (∀ {x a}, x ≠ r → (Anc up' x a ↔ Anc up x a)) ∧ ∀ {a}, Anc up' r a ↔ Via up b a := by
  have hold : ∀ {x a}, x ≠ r → (Anc up' x a ↔ Anc up x a) := by
    intro x a hx
    constructor
    · intro h
      refine h.congr fun y hy _ => (hup y ?_).symm
      -- a way up that starts elsewhere never meets the leaf
      rintro rfl
      rcases hy with rfl | hy
      · exact hx rfl
      obtain ⟨c, -, hcy⟩ := Relation.TransGen.tail'_iff.mp hy
      by_cases hc : c = y
      · subst hc
        rw [hr] at hcy
        exact hb (Option.some.inj hcy)
      · exact hleaf c ((hup c hc).symm.trans hcy)
    · intro h
      refine h.congr fun y hy _ => hup y ?_
      rintro rfl
      rcases hy with rfl | hy
      · exact hx rfl
      · obtain ⟨c, -, hcy⟩ := Relation.TransGen.tail'_iff.mp hy
        exact hleaf c hcy
  refine ⟨hold, fun {a} => ?_⟩
  rw [anc_iff, hr]
  simp [Via, hold hb]

/-- Ancestors after the link above `c` is cut. -/
theorem anc_cut (hc : up' c = none) (hup : ∀ x, x ≠ c → up' x = up x) (hirrefl : ∀ e, ¬Anc up e e) :
    Anc up' x a ↔ Anc up x a ∧ ¬(Via up x c ∧ Anc up c a) := by
  -- a link that is left stays on the way to `c`
  have hstep : ∀ {y b}, up' y = some b → Via up y c → Via up b c := by
    intro y b hyb hvia
    have hyc : y ≠ c := by
      rintro rfl
      rw [hc] at hyb
      cases hyb
    obtain ⟨b', hb', hbc⟩ := anc_iff.mp (hvia.resolve_left (Ne.symm hyc))
    rw [hup y hyc, hb'] at hyb
    cases hyb
    exact hbc
  constructor
  · intro h
    constructor
    · refine h.congr fun y _ hya => ?_
      have hyc : y ≠ c := by
        rintro rfl
        exact not_anc_of_none hc hya
      exact (hup y hyc).symm
    · induction h using Relation.TransGen.head_induction_on with
      | single hxa =>
        rintro ⟨hvia, hca⟩
        exact hirrefl _ ((hstep hxa hvia).trans_anc hca)
      | head hxb _ ih =>
        rintro ⟨hvia, hca⟩
        exact ih ⟨hstep hxb hvia, hca⟩
  · rintro ⟨h, hnot⟩
    refine h.congr fun y hy hya => hup y ?_
    rintro rfl
    exact hnot ⟨hy, hya⟩

/-- Ancestors in what is left when only the nodes above `c` and `c` itself are kept, with
    `c` as the new root. -/
theorem anc_restrict (hkeep : ∀ x, Anc up x c → up' x = up x)
    (hdrop : ∀ x, ¬Anc up x c → up' x = none) : Anc up' x a ↔ Anc up x a ∧ Via up a c := by
  have hsub : ∀ {x y}, up' x = some y → up x = some y ∧ Anc up x c := by
    intro x y hxy
    by_cases hx : Anc up x c
    · exact ⟨(hkeep x hx).symm.trans hxy, hx⟩
    · rw [hdrop x hx] at hxy
      cases hxy
  constructor
  · intro h
    obtain ⟨b, hxb, hba⟩ := Relation.TransGen.tail'_iff.mp h
    obtain ⟨hba, hbc⟩ := hsub hba
    constructor
    · refine h.congr fun y _ hya => ?_
      obtain ⟨b', hb', -⟩ := anc_iff.mp hya
      exact (hsub hb').1.trans hb'.symm
    · obtain ⟨a', ha', hvia⟩ := anc_iff.mp hbc
      rw [hba] at ha'
      cases ha'
      exact hvia
  · rintro ⟨h, hvia⟩
    exact h.congr fun y _ hya => hkeep y (hya.trans_via hvia)

/-! ### Ways up -/

/-- `chain` lists the nodes from `r` up to `a`, without `a` itself. -/
inductive Way (up : α → Option α) : α → List α → α → Prop
  | nil (r : α) : Way up r [] r
  | cons {r b a : α} {chain : List α} (h : up r = some b) (rest : Way up b chain a) :
      Way up r (r :: chain) a

variable {chain chain' : List α}

theorem Way.via (h : Way up r chain a) : Via up r a := by
  induction h with
  | nil r => exact refl r
  | cons h _ ih => exact Via.trans (Or.inr (of_up h)) ih

/-- What is on the way. -/
theorem Way.of_mem (h : Way up r chain a) (hx : x ∈ chain) : Via up r x ∧ Anc up x a := by
  induction h with
  | nil r => cases hx
  | cons h rest ih =>
    rcases mem_cons.mp hx with rfl | hx
    · exact ⟨refl _, (of_up h).trans_via rest.via⟩
    · obtain ⟨hvia, hanc⟩ := ih hx
      exact ⟨Via.trans (Or.inr (of_up h)) hvia, hanc⟩

/-- An ancestor is on the way or further up. -/
theorem Way.cover (h : Way up r chain a) (hx : Via up r x) : x ∈ chain ∨ Via up a x := by
  induction h with
  | nil r => exact Or.inr hx
  | cons h _ ih =>
    rcases hx with rfl | hx
    · exact Or.inl mem_cons_self
    obtain ⟨b, hb, hbx⟩ := anc_iff.mp hx
    rw [h] at hb
    cases hb
    rcases ih hbx with hmem | hvia
    · exact Or.inl (mem_cons_of_mem _ hmem)
    · exact Or.inr hvia

theorem Way.append (h : Way up r chain b) (h' : Way up b chain' a) :
    Way up r (chain ++ chain') a := by
  induction h with
  | nil r => exact h'
  | cons h _ ih => exact Way.cons h (ih h')

theorem Way.head? (h : Way up r chain a) (hne : chain ≠ []) : chain.head? = some r := by
  cases h with
  | nil => exact absurd rfl hne
  | cons => rfl

/-- A way to a root begins with every other way. -/
theorem Way.split {first : List α} (h : Way up r chain a) (ha : up a =
      none) (h' : Way up r first c) :
    ∃ rest, chain = first ++ rest ∧ Way up c rest a := by
  induction h' generalizing chain with
  | nil r => exact ⟨chain, rfl, h⟩
  | cons hup _ ih =>
    cases h with
    | nil =>
      rw [ha] at hup
      cases hup
    | cons hup' rest =>
      rw [hup] at hup'
      cases hup'
      obtain ⟨tail, htail, hway⟩ := ih rest
      exact ⟨tail, congrArg _ htail, hway⟩

/-- Where two ways that share nothing meet is below every other common ancestor. -/
theorem Way.common {r' : α} (h : Way up r chain c) (h' : Way up r' chain' c)
    (hdisjoint : ∀ x ∈ chain, x ∉ chain') (hx : Via up r x) (hx' : Via up r' x) : Via up c x := by
  rcases h.cover hx with hmem | hvia
  · rcases h'.cover hx' with hmem' | hvia
    · exact absurd hmem' (hdisjoint x hmem)
    · exact hvia
  · exact hvia

section
variable {rank : α → Nat} (hrank : ∀ x y, up x = some y → rank y < rank x)
include hrank

theorem Way.rank_lt (h : Way up r chain a) (hx : x ∈ chain) :
    rank a < rank x ∧ rank x ≤ rank r := by
  obtain ⟨hvia, hanc⟩ := h.of_mem hx
  refine ⟨hanc.rank_lt hrank, ?_⟩
  rcases hvia with rfl | hvia
  · exact le_refl _
  · exact le_of_lt (hvia.rank_lt hrank)

theorem Way.disjoint_of_rank {r' a' : α} (h : Way up r chain a) (h' : Way up r' chain' a')
    (hle : rank r' ≤ rank a) : ∀ x ∈ chain, x ∉ chain' := by
  intro x hx hx'
  have := (h.rank_lt hrank hx).1
  have := (h'.rank_lt hrank hx').2
  omega

/-- Two ways that share nothing, each with one more node of the same rank. -/
theorem Way.disjoint_cons {r' : α} (ha : up a = some r) (hb : up b = some r')
    (h : Way up r chain c) (h' : Way up r' chain' c) (hne : a ≠ b) (heq : rank a = rank b)
    (hdisjoint : ∀ x ∈ chain, x ∉ chain') : ∀ x ∈ a :: chain, x ∉ b :: chain' := by
  have hra := hrank a r ha
  have hrb := hrank b r' hb
  intro x hx hx'
  rcases mem_cons.mp hx with rfl | hx
  · rcases mem_cons.mp hx' with rfl | hx'
    · exact hne rfl
    · have := (h'.rank_lt hrank hx').2
      omega
  · rcases mem_cons.mp hx' with rfl | hx'
    · have := (h.rank_lt hrank hx).2
      omega
    · exact hdisjoint x hx hx'

end

/-! ### Inherited values -/

/-- A node has the value of `e` further up if nothing on the way has its own. -/
theorem value_eq_of_unchanged {own : α → Option V} {value : α → V}
    (hvalue : ∀ r b, up r = some b → value r = (own r).getD (value b)) {e : α} (hre : Via up r e)
    (hnone : ∀ f, Via up r f → Anc up f e → own f = none) : value r = value e := by
  rcases hre with rfl | hre
  · rfl
  induction hre using Relation.TransGen.head_induction_on with
  | single hra =>
    rw [hvalue _ _ hra, hnone _ (refl _) (of_up hra)]
    rfl
  | head hrc hce ih =>
    rw [hvalue _ _ hrc, hnone _ (refl _) (anc_iff.mpr ⟨_, hrc, Or.inr hce⟩)]
    exact ih fun f hf hfe => hnone f (Or.inr (anc_iff.mpr ⟨_, hrc, hf⟩)) hfe

/-! ### Ordered lists -/

/-- In a list that has no node before one of its ancestors, no node that satisfies `P` lies
    below the last one. -/
theorem nearest_of_find {L : List α} (hL : L.Pairwise fun e f => ¬Anc up e f)
    (hirrefl : ∀ e, ¬Anc up e e) {P : α → Bool} {e : α} (h : L.reverse.find? P = some e) :
    e ∈ L ∧ P e = true ∧ ∀ f ∈ L, P f = true → ¬Anc up f e := by
  obtain ⟨hP, later, earlier, hsplit, hlater⟩ := find?_eq_some_iff_append.mp h
  have hL' : L = earlier.reverse ++ e :: later.reverse := by
    rw [← L.reverse_reverse, hsplit]
    simp
  have hmem : e ∈ L := by simp [hL']
  refine ⟨hmem, hP, fun f hf hPf => ?_⟩
  rw [hL'] at hf hL
  rcases mem_append.mp hf with hf | hf
  · exact (pairwise_append.mp hL).2.2 f hf e mem_cons_self
  rcases mem_cons.mp hf with rfl | hf
  · exact hirrefl f
  · have := hlater f (mem_reverse.mp hf)
    rw [hPf] at this
    cases this

/-! ### Walks over the children -/

/-- A node and what is below it, parents first; the first argument bounds the depth. -/
def preorder (children : α → List α) : Nat → α → List α
  | 0, _ => []
  | fuel + 1, r => r :: (children r).flatMap (preorder children fuel)

variable {children : α → List α}

/-- Apart from where it starts, a walk visits only children. -/
theorem eq_or_child_of_mem_preorder :
    ∀ {fuel : Nat} {r : α}, x ∈ preorder children fuel r → x = r ∨ ∃ a, x ∈ children a := by
  intro fuel
  induction fuel with
  | zero => exact fun h => absurd h not_mem_nil
  | succ fuel ih =>
    intro r h
    simp only [preorder, mem_cons, mem_flatMap] at h
    rcases h with rfl | ⟨c, hc, hx⟩
    · exact Or.inl rfl
    · rcases ih hx with rfl | hchild
      · exact Or.inr ⟨r, hc⟩
      · exact Or.inr hchild

/-- A walk that is deep enough visits a node and its descendants. -/
theorem mem_preorder {rank : α → Nat} (hchildren : ∀ x a, x ∈ children a ↔ up x = some a)
    (hrank : ∀ x y, up x = some y → rank y < rank x) :
    ∀ {fuel : Nat}, rank x < rank r + fuel → (x ∈ preorder children fuel r ↔ Via up x r) := by
  intro fuel
  induction fuel generalizing r with
  | zero =>
    intro hfuel
    refine ⟨fun h => absurd h not_mem_nil, fun h => ?_⟩
    rcases h with rfl | h
    · omega
    · have := h.rank_lt hrank
      omega
  | succ fuel ih =>
    intro hfuel
    simp only [preorder, mem_cons, mem_flatMap]
    constructor
    · rintro (rfl | ⟨c, hc, hx⟩)
      · exact refl x
      · have hcr := (hchildren c r).mp hc
        have hlt := hrank c r hcr
        exact ((ih (by omega)).mp hx).trans (Or.inr (of_up hcr))
    · rintro (rfl | h)
      · exact Or.inl rfl
      · -- the last node before `r` on the way up is the child to go to
        obtain ⟨c, hxc, hcr⟩ := Relation.TransGen.tail'_iff.mp h
        have hlt := hrank c r hcr
        refine Or.inr ⟨c, (hchildren c r).mpr hcr, (ih (by omega)).mpr ?_⟩
        rcases Relation.reflTransGen_iff_eq_or_transGen.mp hxc with heq | htrans
        · exact Or.inl heq
        · exact Or.inr htrans

end GethArb.Forest
