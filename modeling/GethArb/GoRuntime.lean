/-
  **The pieces of the Go language and standard library the development uses**,
  stated over arbitrary types: fixed-width words, maps, `range` loops over maps
  and `sort.Search`.  Nothing here names the modelled program.

  A Go map is Mathlib's `Finmap`: extensional equality and a ready
  `lookup` / `insert` / `erase` API.  Two things are added.

    * `GoMap.get` is the one-result map read `m[k]`, which yields the zero
      value of the element type on a missing key.
    * A `range` loop visits the keys of a map in an order the language leaves
      open.  `RangeOrder` is one such choice, made for every key set at once;
      definitions that loop over a map take a `RangeOrder`, so a theorem about
      them is a theorem about every order.

  `GoMap.foldl_range` is the rule for the loops met most often: a body that only
  touches the part of the state that belongs to the visited key.
-/
import Mathlib

namespace GethArb

open Finmap List Option

universe u v w

/-! ### Words -/

abbrev U64 := BitVec 64

abbrev U256 := BitVec 256

/-! ### Errors -/

/-- A computation with errors that succeeds, taken apart at its first step. -/
theorem bind_eq_ok {ε α β : Type} {x : Except ε α} {f : α → Except ε β} {b : β} :
    (x >>= f) = .ok b ↔ ∃ a, x = .ok a ∧ f a = .ok b := by
  constructor
  · intro h
    cases x with
    | error e => cases h
    | ok a => exact ⟨a, rfl, h⟩
  · rintro ⟨a, rfl, h⟩
    exact h

section
variable {ε α β : Type} (f : α → Except ε β)

@[simp] theorem ok_bind (a : α) : (Except.ok a >>= f) = f a := rfl

@[simp] theorem error_bind (e : ε) : (Except.error e >>= f) = .error e := rfl

end

/-! ### Maps -/

abbrev GoMap (K : Type u) (V : Type v) := Finmap fun _ : K => V

namespace GoMap

variable {K : Type u} {V : Type v} [DecidableEq K]

/-- The map read `m[k]`, with the zero value of `V` on a missing key. -/
def get [Inhabited V] (m : GoMap K V) (k : K) : V := (m.lookup k).getD default

variable (m : GoMap K V) (k : K)

@[grind =] theorem lookup_insert_ite (j : K) (v : V) :
    lookup j (insert k v m) = if j = k then some v else lookup j m := by
  by_cases h : j = k
  · subst h
    simp
  · rw [if_neg h, lookup_insert_of_ne _ h]

variable {m} in
/-- What holds of a new entry and of those that were there holds of all. -/
theorem forall_insert {P : K → V → Prop} {k : K} {v : V} (h : ∀ j w, lookup j m = some w → P j w)
    (hk : P k v) : ∀ j w, lookup j (insert k v m) = some w → P j w := by
  intro j w hj
  rw [lookup_insert_ite] at hj
  split at hj
  · rename_i heq
    cases hj
    rwa [heq]
  · exact h j w hj

@[grind =] theorem lookup_erase_ite (j : K) :
    lookup j (erase k m) = if j = k then none else lookup j m := by
  by_cases h : j = k
  · subst h
    simp
  · rw [if_neg h, lookup_erase_ne h]

@[grind =] theorem get_insert [Inhabited V] (j : K) (v : V) :
    get (insert k v m) j = if j = k then v else get m j := by
  unfold get
  rw [lookup_insert_ite]
  split <;> rfl

@[grind =] theorem get_erase [Inhabited V] (j : K) :
    get (erase k m) j = if j = k then default else get m j := by
  unfold get
  rw [lookup_erase_ite]
  split <;> rfl

@[simp] theorem get_empty [Inhabited V] : get (∅ : GoMap K V) k = default := by
  simp [get]

theorem lookup_singleton_ite (j : K) (v : V) :
    lookup j (singleton k v : GoMap K V) = if j = k then some v else none := by
  by_cases h : j = k
  · subst h
    rw [if_pos rfl]
    exact lookup_singleton_eq
  · rw [if_neg h]
    exact lookup_eq_none.mpr fun hmem => h ((mem_singleton _ _ _).mp hmem)

/-- A loop that writes one value under many keys. -/
theorem lookup_foldl_insert (v : V) (ks : List K) (m : GoMap K V) (k : K) :
    (ks.foldl (fun m k => m.insert k v) m).lookup k = if k ∈ ks then some v else m.lookup k := by
  induction ks generalizing m with
  | nil => simp
  | cons j ks ih =>
    rw [foldl_cons, ih, lookup_insert_ite]
    by_cases hmem : k ∈ ks
    · simp [hmem]
    · simp [hmem]

/-- A loop that deletes many keys. -/
theorem lookup_foldl_erase (ks : List K) (m : GoMap K V) (k : K) :
    (ks.foldl (fun m k => m.erase k) m).lookup k = if k ∈ ks then none else m.lookup k := by
  induction ks generalizing m with
  | nil => simp
  | cons j ks ih =>
    rw [foldl_cons, ih, lookup_erase_ite]
    by_cases hmem : k ∈ ks
    · simp [hmem]
    · simp [hmem]

theorem lookup_union (m' : GoMap K V) (k : K) :
    lookup k (m ∪ m') = (lookup k m).or (lookup k m') := by
  by_cases h : k ∈ m
  · obtain ⟨v, hv⟩ := mem_iff.mp h
    rw [lookup_union_left h, hv, some_or]
  · rw [lookup_union_right h, lookup_eq_none.mpr h, none_or]

/-- Inserting and then deleting a fresh key changes nothing. -/
theorem erase_insert_of_lookup_none (v : V) (h : lookup k m = none) :
    erase k (insert k v m) = m := by
  refine ext_lookup fun j => ?_
  by_cases hj : j = k
  · subst hj
    simp [h]
  · simp [hj]

/-- Writing back the value a key already has changes nothing. -/
theorem insert_of_lookup_some (v : V) (h : lookup k m = some v) : insert k v m = m := by
  refine ext_lookup fun j => ?_
  by_cases hj : j = k
  · subst hj
    simp [h]
  · simp [hj]

/-- The map with the keys of `s` at which `f` gives a value. -/
def build (s : Finset K) (f : K → Option V) : GoMap K V :=
  keysLookupEquiv.symm
    ⟨(s.filter fun k => (f k).isSome, fun k => if k ∈ s then f k else none), fun k => by
      by_cases h : k ∈ s <;> simp [h]⟩

@[simp] theorem lookup_build (s : Finset K) (f : K → Option V) (k : K) :
    lookup k (build s f) = if k ∈ s then f k else none :=
  keysLookupEquiv_symm_apply_lookup _ k

section Combine
variable {L : Type u} {W : Type v} {X : Type w} [DecidableEq L]

/-- Two maps combined key by key.  It is what a loop over `m'` leaves that writes or deletes
    the visited key of `m` only, in any order. -/
def combine (f : Option V → Option W → Option X) (m : GoMap K V) (m' : GoMap K W) : GoMap K X :=
  build (m.keys ∪ m'.keys) fun k => f (lookup k m) (lookup k m')

theorem lookup_combine {f : Option V → Option W → Option X} (hf : f none none = none)
    (m : GoMap K V) (m' : GoMap K W) (k : K) :
    lookup k (combine f m m') = f (lookup k m) (lookup k m') := by
  unfold combine
  rw [lookup_build]
  split
  · rfl
  · rename_i h
    rw [Finset.mem_union, not_or] at h
    rw [lookup_eq_none.mpr h.1, lookup_eq_none.mpr h.2, hf]

/-- The read `m[k][l]` in a map of maps. -/
def lookup₂ (m : GoMap K (GoMap L V)) (k : K) (l : L) : Option V :=
  (lookup k m).bind (lookup l)

@[simp] theorem lookup₂_empty (l : L) : lookup₂ (∅ : GoMap K (GoMap L V)) k l = none := by
  simp [lookup₂]

/-- Two maps of maps combined entry by entry. -/
def combine₂ (f : Option V → Option W → Option V) (m : GoMap K (GoMap L V))
    (m' : GoMap K (GoMap L W)) : GoMap K (GoMap L V) :=
  combine (fun sub sub' => match sub' with
    | none => sub
    | some sub' => some (combine f (sub.getD ∅) sub')) m m'

theorem lookup₂_combine₂ {f : Option V → Option W → Option V} (hf : ∀ a, f a none = a)
    (m : GoMap K (GoMap L V)) (m' : GoMap K (GoMap L W)) (k : K) (l : L) :
    lookup₂ (combine₂ f m m') k l = f (lookup₂ m k l) (lookup₂ m' k l) := by
  unfold lookup₂ combine₂
  rw [lookup_combine rfl]
  cases hsub' : lookup k m' with
  | none => exact (hf _).symm
  | some sub' =>
    simp only [bind_some]
    rw [lookup_combine (hf none)]
    cases lookup k m <;> simp

end Combine

end GoMap

/-! ### Range loops -/

/-- A visiting order for `range` loops: for every key set one enumeration of it.
    The language leaves the order open, so a run of the program picks one. -/
structure RangeOrder (K : Type u) [DecidableEq K] where
  visit : Finset K → List K
  nodup : ∀ s, (visit s).Nodup
  mem_visit : ∀ s k, k ∈ visit s ↔ k ∈ s

attribute [simp] RangeOrder.mem_visit

/-- Words in ascending order. -/
def RangeOrder.ascending (w : Nat) : RangeOrder (BitVec w) :=
  let le := fun a b : BitVec w => a.toNat ≤ b.toNat
  have hsorted : ∀ l : List (BitVec w), (l.insertionSort le).Pairwise le := fun l =>
    haveI : Std.Total le := ⟨fun a b => Nat.le_total a.toNat b.toNat⟩
    haveI : IsTrans (BitVec w) le := ⟨fun _ _ _ => Nat.le_trans⟩
    l.pairwise_insertionSort le
  { visit := fun s => Quot.liftOn s.val (insertionSort le) fun l l' hperm =>
      haveI : Std.Antisymm le := ⟨fun _ _ h h' => BitVec.eq_of_toNat_eq (Nat.le_antisymm h h')⟩
      (((perm_insertionSort le l).trans hperm).trans
        (perm_insertionSort le l').symm).eq_of_pairwise' (hsorted l) (hsorted l')
    nodup := fun ⟨s, hs⟩ => by
      induction s using Quot.inductionOn
      exact (perm_insertionSort le _).nodup_iff.mpr hs
    mem_visit := fun ⟨s, hs⟩ k => by
      induction s using Quot.inductionOn
      exact mem_insertionSort le }

/-- The pairs a `range` loop over `m` visits, in the order `ord`. -/
def GoMap.range {K : Type u} {V : Type v} [DecidableEq K] (ord : RangeOrder K) (m : GoMap K V) :
    List (K × V) :=
  (ord.visit m.keys).filterMap fun k => (lookup k m).map (Prod.mk k)

open GoMap

theorem GoMap.mem_range {K : Type u} {V : Type v} [DecidableEq K] {ord : RangeOrder K}
    {m : GoMap K V} {k : K} {v : V} : (k, v) ∈ range ord m ↔ lookup k m = some v := by
  unfold range
  simp only [mem_filterMap, RangeOrder.mem_visit, map_eq_some_iff, Prod.mk.injEq]
  constructor
  · rintro ⟨_, -, _, hl, rfl, rfl⟩
    exact hl
  · intro hl
    exact ⟨k, mem_of_lookup_eq_some hl, v, hl, rfl, rfl⟩

theorem GoMap.nodup_range {K : Type u} {V : Type v} [DecidableEq K] (ord : RangeOrder K)
    (m : GoMap K V) : ((range ord m).map Prod.fst).Nodup := by
  have hsub : ((range ord m).map Prod.fst).Sublist (ord.visit m.keys) := by
    unfold range
    generalize ord.visit m.keys = ks
    induction ks with
    | nil => exact Sublist.refl _
    | cons k ks ih =>
      rw [filterMap_cons]
      cases lookup k m with
      | none => exact ih.cons k
      | some v => exact ih.cons_cons k
  exact (ord.nodup _).sublist hsub

section Loops

variable {J K V : Type u} {σ : Type v} {α : Type w} {β : Type u}

section
variable (P : σ → Prop)

/-- **Rule for local loop bodies.**  `read s j` is the part of the state at `j`, and
    `loc x` tells where the pass at `x` works.  If one pass relates its part before
    and after by `f x` and leaves every other part alone, then so does the loop for
    each pass.  `P` is whatever the body needs of the rest of the state and preserves. -/
theorem foldlM_pointwise (loc : β → J) (read : σ → J → α) (body : σ → β → Option σ)
    (f : β → α → α → Prop) :
    ∀ (xs : List β) (s s' : σ),
      (∀ s s' x, x ∈ xs → P s → body s x = some s' →
        P s' ∧ f x (read s (loc x)) (read s' (loc x)) ∧
          ∀ j, j ≠ loc x → read s' j = read s j) →
      (xs.map loc).Nodup → P s → xs.foldlM body s = some s' →
      P s' ∧ (∀ j, (∀ x ∈ xs, loc x ≠ j) → read s' j = read s j) ∧
        ∀ x ∈ xs, f x (read s (loc x)) (read s' (loc x)) := by
  intro xs
  induction xs with
  | nil =>
    intro s s' _ _ hs h
    cases h
    exact ⟨hs, fun _ _ => rfl, fun x hx => absurd hx not_mem_nil⟩
  | cons x rest ih =>
    intro s s' hbody hnd hs h
    obtain ⟨hx, hnd⟩ := nodup_cons.mp hnd
    have hlater : ∀ y ∈ rest, loc y ≠ loc x := fun y hy heq => hx (mem_map.mpr ⟨y, hy, heq⟩)
    obtain ⟨r, hr, h⟩ := bind_eq_some_iff.mp h
    obtain ⟨hPr, hself, hother⟩ := hbody s r x mem_cons_self hs hr
    obtain ⟨hPs', hout, hin⟩ := ih r s'
      (fun s s' y hy => hbody s s' y (mem_cons_of_mem _ hy)) hnd hPr h
    refine ⟨hPs', fun j hj => ?_, fun y hy => ?_⟩
    · rw [hout j fun y hy => hj y (mem_cons_of_mem _ hy)]
      exact hother j (Ne.symm (hj x mem_cons_self))
    · rcases mem_cons.mp hy with rfl | hlate
      · -- no later pass works on the same part
        rw [hout (loc y) hlater]
        exact hself
      · rw [← hother (loc y) (hlater y hlate)]
        exact hin y hlate

theorem GoMap.entries_inj [DecidableEq K] {enc : K → J} {m : GoMap K V}
    (h : Set.InjOn enc {k | k ∈ m}) (k : K) (v : V) (k' : K) (v' : V) (hv : lookup k m = some v)
    (hv' : lookup k' m = some v') : enc k = enc k' → k = k' :=
  h (mem_of_lookup_eq_some hv) (mem_of_lookup_eq_some hv')

variable [DecidableEq K] (ord : RangeOrder K) (m : GoMap K V)

/-- The rule for a `range` loop over a map, with a body that may panic.  The pass at an
    entry works at `loc`, which no two entries share. -/
theorem GoMap.foldlM_range_at (loc : K → V → J) (read : σ → J → α) (body : σ → K × V → Option σ)
    (f : K → V → α → α → Prop) {s s' : σ}
    (hloc : ∀ k v k' v', lookup k m = some v → lookup k' m = some v' → loc k v = loc k' v' → k = k')
    (hbody : ∀ s s' k v, lookup k m = some v → P s → body s (k, v) = some s' → P s' ∧
      f k v (read s (loc k v)) (read s' (loc k v)) ∧ ∀ j, j ≠ loc k v → read s' j = read s j)
    (hs : P s) (h : (range ord m).foldlM body s = some s') :
    P s' ∧ (∀ j, (∀ k v, lookup k m = some v → loc k v ≠ j) → read s' j = read s j) ∧
      ∀ k v, lookup k m = some v → f k v (read s (loc k v)) (read s' (loc k v)) := by
  have hnd : ((range ord m).map fun e => loc e.1 e.2).Nodup := by
    refine (Nodup.of_map _ (nodup_range ord m)).map_on ?_
    rintro ⟨k, v⟩ he ⟨k', v'⟩ he' heq
    have hv := mem_range.mp he
    have hv' := mem_range.mp he'
    cases hloc k v k' v' hv hv' heq
    cases hv.symm.trans hv'
    rfl
  obtain ⟨hP, hout, hin⟩ := foldlM_pointwise P (fun e => loc e.1 e.2) read body
    (fun e => f e.1 e.2) (range ord m) s s'
    (fun s s' e he => hbody s s' e.1 e.2 (mem_range.mp he)) hnd hs h
  exact ⟨hP, fun j hj => hout j fun e he => hj e.1 e.2 (mem_range.mp he),
    fun k v hv => hin (k, v) (mem_range.mpr hv)⟩

/-- The rule for passes that work at their key. -/
theorem GoMap.foldlM_range (read : σ → K → α) (body : σ → K × V → Option σ)
    (f : K → V → α → α → Prop) {s s' : σ}
    (hbody : ∀ s s' k v, lookup k m = some v → P s → body s (k, v) = some s' → P s' ∧
      f k v (read s k) (read s' k) ∧ ∀ j, j ≠ k → read s' j = read s j)
    (hs : P s) (h : (range ord m).foldlM body s = some s') :
    P s' ∧ (∀ j, lookup j m = none → read s' j = read s j) ∧
      ∀ j v, lookup j m = some v → f j v (read s j) (read s' j) := by
  obtain ⟨hP, hout, hin⟩ := foldlM_range_at P ord m (fun k _ => k) read body f
    (fun _ _ _ _ _ _ => id) hbody hs h
  refine ⟨hP, fun j hj => hout j fun k v hv heq => ?_, hin⟩
  rw [heq, hj] at hv
  cases hv

/-- The rule for a body that does not panic. -/
theorem GoMap.foldl_range_at (loc : K → V → J) (read : σ → J → α) (body : σ → K × V → σ)
    (f : K → V → α → α) {s : σ}
    (hloc : ∀ k v k' v', lookup k m = some v → lookup k' m = some v' → loc k v = loc k' v' → k = k')
    (hbody : ∀ s k v, lookup k m = some v → P s → P (body s (k, v)) ∧
      read (body s (k, v)) (loc k v) = f k v (read s (loc k v)) ∧
      ∀ j, j ≠ loc k v → read (body s (k, v)) j = read s j)
    (hs : P s) :
    P ((range ord m).foldl body s) ∧
      (∀ j, (∀ k v, lookup k m = some v → loc k v ≠ j) →
        read ((range ord m).foldl body s) j = read s j) ∧
      ∀ k v, lookup k m = some v →
        read ((range ord m).foldl body s) (loc k v) = f k v (read s (loc k v)) := by
  have hpure : (range ord m).foldlM (fun s kv => some (body s kv)) s =
      some ((range ord m).foldl body s) := foldlM_pure
  exact foldlM_range_at P ord m loc read (fun s kv => some (body s kv))
    (fun k v x y => y = f k v x) hloc
    (fun s s' k v hv hs h => by
      cases h
      exact hbody s k v hv hs) hs hpure

theorem GoMap.foldl_range (read : σ → K → α) (body : σ → K × V → σ) (f : K → V → α → α) {s : σ}
    (hbody : ∀ s k v, lookup k m = some v → P s → P (body s (k, v)) ∧
      read (body s (k, v)) k = f k v (read s k) ∧ ∀ j, j ≠ k → read (body s (k, v)) j = read s j)
    (hs : P s) :
    P ((range ord m).foldl body s) ∧ ∀ j, read ((range ord m).foldl body s) j =
      (lookup j m).elim (read s j) fun v => f j v (read s j) := by
  obtain ⟨hP, hout, hin⟩ := foldl_range_at P ord m (fun k _ => k) read body f
    (fun _ _ _ _ _ _ => id) hbody hs
  refine ⟨hP, fun j => ?_⟩
  cases hl : lookup j m with
  | some v => exact hin j v hl
  | none =>
    refine hout j fun k v hv heq => ?_
    rw [heq, hl] at hv
    cases hv

/-- A loop whose body cannot fail ends. -/
theorem foldlM_pure_of {m : Type v → Type*} [Monad m] [LawfulMonad m] (body : σ → β → m σ) :
    ∀ (xs : List β) (s : σ), (∀ s x, x ∈ xs → P s → ∃ s', body s x = pure s' ∧ P s') →
      P s → ∃ s', xs.foldlM body s = pure s' ∧ P s' := by
  intro xs
  induction xs with
  | nil => exact fun s _ hs => ⟨s, rfl, hs⟩
  | cons x xs ih =>
    intro s hbody hs
    obtain ⟨r, hr, hPr⟩ := hbody s x mem_cons_self hs
    obtain ⟨s', hs', hPs'⟩ := ih r (fun s x hx => hbody s x (mem_cons_of_mem _ hx)) hPr
    refine ⟨s', ?_, hPs'⟩
    rw [foldlM_cons, hr, pure_bind]
    exact hs'

end

/-- A loop that returns errors, seen as one that may stop. -/
theorem foldlM_toOption {ε : Type} (body : σ → β → Except ε σ) (xs : List β) (s : σ) :
    (xs.foldlM body s).toOption = xs.foldlM (fun s x => (body s x).toOption) s := by
  induction xs generalizing s with
  | nil => rfl
  | cons x xs ih =>
    rw [foldlM_cons, foldlM_cons]
    cases h : body s x with
    | error err => rfl
    | ok r => exact ih r

/-- What a loop body preserves, the loop preserves. -/
theorem foldl_preserves (P : σ → Prop) (body : σ → K → σ) (hP : ∀ s k, P s → P (body s k)) :
    ∀ (order : List K) (s : σ), P s → P (order.foldl body s) := by
  intro order
  induction order with
  | nil => intro s hs; exact hs
  | cons k rest ih => intro s hs; exact ih _ (hP s k hs)

/-- A component that no pass of the body changes is unchanged by the loop. -/
theorem foldl_constant (read : σ → α) (body : σ → K → σ)
    (h : ∀ s k, read (body s k) = read s) (order : List K) (s : σ) :
    read (order.foldl body s) = read s :=
  foldl_preserves (fun t => read t = read s) body (fun t k ht => (h t k).trans ht) order s rfl

/-- What each pass of a body that may panic preserves, the loop preserves. -/
theorem foldlM_preserves (P : σ → Prop) (body : σ → K → Option σ)
    (hP : ∀ s k s', P s → body s k = some s' → P s') :
    ∀ (order : List K) (s s' : σ), P s → order.foldlM body s = some s' → P s' := by
  intro order
  induction order with
  | nil =>
    intro s s' hs h
    cases h
    exact hs
  | cons k rest ih =>
    intro s s' hs h
    obtain ⟨r, hr, h⟩ := bind_eq_some_iff.mp h
    exact ih r s' (hP s k r hs hr) h

/-- What a pass establishes for its element, and no pass breaks, holds for every
    element in the end. -/
theorem foldlM_establishes (Q : β → σ → Prop) (body : σ → β → Option σ)
    (hself : ∀ s s' x, body s x = some s' → Q x s')
    (hkeep : ∀ s s' x y, Q x s → body s y = some s' → Q x s') :
    ∀ (xs : List β) (s s' : σ), xs.foldlM body s = some s' → ∀ x ∈ xs, Q x s' := by
  intro xs
  induction xs with
  | nil => exact fun _ _ _ x hx => absurd hx not_mem_nil
  | cons y ys ih =>
    intro s s' h x hx
    obtain ⟨r, hr, hrest⟩ := bind_eq_some_iff.mp h
    rcases mem_cons.mp hx with rfl | hx
    · exact foldlM_preserves (Q x) body (fun s z s' hs hz => hkeep s s' x z hs hz) ys r s'
        (hself s r x hr) hrest
    · exact ih r s' hrest x hx

end Loops

/-! ### `sort.Search` -/

/-- The loop of `sort.Search`: halve `[i, j)` until it is empty.  The first
    argument bounds the number of passes; `j - i` of them are enough. -/
def searchLoop (f : Nat → Bool) : Nat → Nat → Nat → Nat
  | 0, i, _ => i
  | fuel + 1, i, j =>
    if i < j then
      let h := (i + j) / 2
      if f h then searchLoop f fuel i h else searchLoop f fuel (h + 1) j
    else i

def search (n : Nat) (f : Nat → Bool) : Nat := searchLoop f n 0 n

/-- The loop returns the boundary `b` of a predicate that is false below `b`
    and true from `b` on, whenever `b` lies in the searched interval. -/
theorem searchLoop_eq (f : Nat → Bool) (b : Nat) :
    ∀ fuel i j, j - i ≤ fuel → i ≤ b → b ≤ j → (∀ k, i ≤ k → k < b → f k = false) →
      (∀ k, b ≤ k → k < j → f k = true) → searchLoop f fuel i j = b := by
  intro fuel
  induction fuel with
  | zero =>
    simp only [searchLoop]
    omega
  | succ fuel ih =>
    intro i j hfuel hib hbj hlow hhigh
    simp only [searchLoop]
    split
    · split
      · rename_i hf
        -- `f` holds at the midpoint, so the boundary is there or below
        have hbh : b ≤ (i + j) / 2 := by
          by_contra hlt
          have := hlow ((i + j) / 2) (by omega) (by omega)
          simp [this] at hf
        exact ih _ _ (by omega) hib hbh hlow fun k hk hkh => hhigh k hk (by omega)
      · rename_i hf
        have hhb : (i + j) / 2 < b := by
          by_contra hle
          have := hhigh ((i + j) / 2) (by omega) (by omega)
          simp [this] at hf
        exact ih _ _ (by omega) (by omega) hbj (fun k hk hkb => hlow k (by omega) hkb) hhigh
    · omega

/-- `sort.Search` finds the boundary of a monotone predicate. -/
theorem search_eq (n : Nat) (f : Nat → Bool) (b : Nat) (hb : b ≤ n)
    (hlow : ∀ k, k < b → f k = false) (hhigh : ∀ k, b ≤ k → k < n → f k = true) :
    search n f = b :=
  searchLoop_eq f b n 0 n (Nat.sub_le n 0) (Nat.zero_le b) hb (fun k _ hk => hlow k hk) hhigh

end GethArb
