/-
  **The rendered range of the log index** (`core/filtermaps/map_renderer.go`:
  `addRenderedRange`; `common/range.go`).

  The rendered maps are an interval and, below it, the first maps of the epoch that ends one
  epoch earlier.  `addRenderedRange` adds an interval and removes the one after it: it sorts
  signed endpoints, adds them up and keeps the places where the sum turns positive or stops
  being so.  `merge_spec` gives those places their meaning: a map is inside them exactly if
  the endpoints up to it add up to something positive.
-/
import Mathlib

namespace GethArb.FilterMaps

open List

abbrev U32 := BitVec 32

/-- `common.Range`. -/
structure Range where
  first : U32
  afterLast : U32

def newRange (first count : U32) : Range := ⟨first, first + count⟩

def Range.Includes (r : Range) (v : U32) : Prop := r.first ≤ v ∧ v < r.afterLast

theorem newRange_sub (a b : U32) : newRange a (b - a) = ⟨a, b⟩ := by
  rw [newRange, add_sub_cancel]

theorem not_includes_empty (a x : U32) : ¬ (newRange a 0#32).Includes x := by
  simp [newRange, Range.Includes]

/-- `filterMapsRange`, as far as it describes the rendered maps. -/
structure FilterMapsRange where
  initialized : Bool
  maps : Range
  tailPartialEpoch : U32

structure Endpoint where
  m : U32
  d : Int

inductive RangeError where
  | notInitialized
  | invalidTailPartialEpoch (merged : List U32)
  | invalidSections (merged : List U32)

/-- `sort.Slice` by `m`, which need not be stable. -/
structure EndpointSort where
  sort : List Endpoint → List Endpoint
  perm : ∀ es, (sort es).Perm es
  sorted : ∀ es, (sort es).Pairwise fun a b => a.m ≤ b.m

/-- The loop over the sorted endpoints, with its `sum` and `last`. -/
def merge (sum : Int) (last : Bool) : List Endpoint → List U32
  | [] => []
  | e :: es =>
    if es.head?.map Endpoint.m = some e.m then merge (sum + e.d) last es
    else if decide (0 < sum + e.d) ≠ last then e.m :: merge (sum + e.d) (!last) es
    else merge (sum + e.d) last es

namespace FilterMapsRange

variable (fmr : FilterMapsRange) (sort : EndpointSort)
  (firstRendered afterLastRendered afterLastRemoved mapsPerEpoch : U32)

def endpoints : List Endpoint :=
  [⟨fmr.maps.first, 1⟩, ⟨fmr.maps.afterLast, -1⟩, ⟨firstRendered, 1⟩, ⟨afterLastRendered, -101⟩,
    ⟨afterLastRemoved, 100⟩] ++
  if 0 < fmr.tailPartialEpoch then
    [⟨fmr.maps.first - mapsPerEpoch, 1⟩, ⟨fmr.maps.first - mapsPerEpoch + fmr.tailPartialEpoch, -1⟩]
  else []

/-- The range afterwards, and the error. -/
def addRenderedRange : FilterMapsRange × Option RangeError :=
  if fmr.initialized then
    match merge 0 false (sort.sort (fmr.endpoints firstRendered afterLastRendered afterLastRemoved
      mapsPerEpoch)) with
    | [] => ({ fmr with maps := newRange firstRendered 0, tailPartialEpoch := 0 }, none)
    | [a, b] => ({ fmr with maps := newRange a (b - a), tailPartialEpoch := 0 }, none)
    | [a, b, c, d] =>
      if c ≠ a + mapsPerEpoch then (fmr, some (.invalidTailPartialEpoch [a, b, c, d]))
      else ({ fmr with maps := newRange c (d - c), tailPartialEpoch := b - a }, none)
    | merged => (fmr, some (.invalidSections merged))
  else (fmr, some .notInitialized)

/-- The maps that the range describes. -/
def Rendered (x : U32) : Prop :=
  fmr.maps.Includes x ∨ (newRange (fmr.maps.first - mapsPerEpoch) fmr.tailPartialEpoch).Includes x

end FilterMapsRange

/-! ### The merged boundaries -/

/-- Whether a map is between the boundaries; each one up to it toggles. -/
def inside (x : U32) : Bool → List U32 → Bool
  | last, [] => last
  | last, m :: ms => if m ≤ x then inside x (!last) ms else last

/-- What the endpoints up to a map add up to. -/
def weight (x : U32) (es : List Endpoint) : Int :=
  (es.map fun e => if e.m ≤ x then e.d else 0).sum

variable {es : List Endpoint} {x : U32} {sum : Int} {last : Bool}

theorem merge_before (h : ∀ e ∈ es, ¬ e.m ≤ x) : inside x last (merge sum last es) = last := by
  induction es generalizing sum with
  | nil => rfl
  | cons e es ih =>
    have hrest : ∀ e ∈ es, ¬ e.m ≤ x := fun e he => h e (mem_cons_of_mem _ he)
    rw [merge]
    split
    · exact ih hrest
    split
    · rw [inside, if_neg (h e mem_cons_self)]
    · exact ih hrest

theorem weight_before (h : ∀ e ∈ es, ¬ e.m ≤ x) : weight x es = 0 := by
  apply sum_eq_zero
  simp +contextual [h]

/-- In the middle of a group of equal endpoints `last` lags behind `sum`. -/
theorem merge_spec (hsorted : es.Pairwise fun a b => a.m ≤ b.m)
    (h : last = decide (0 < sum) ∨ ∃ e ∈ es, e.m ≤ x) :
    inside x last (merge sum last es) = decide (0 < sum + weight x es) := by
  induction es generalizing sum last with
  | nil => simpa [merge, inside, weight] using h
  | cons e es ih =>
    obtain ⟨hle, hsorted⟩ := pairwise_cons.mp hsorted
    by_cases he : e.m ≤ x
    · have hweight : sum + weight x (e :: es) = sum + e.d + weight x es := by
        simp [weight, he, add_assoc]
      rw [hweight, merge]
      split
      · rename_i hnext
        obtain ⟨e', he', hm⟩ := Option.map_eq_some_iff.mp hnext
        exact ih hsorted (.inr ⟨e', mem_of_mem_head? he', hm ▸ he⟩)
      split
      · rename_i hne
        rw [inside, if_pos he]
        exact ih hsorted (.inl (Bool.eq_not.mpr hne).symm)
      · rename_i heq
        exact ih hsorted (.inl (not_not.mp heq).symm)
    · have hbefore : ∀ e' ∈ e :: es, ¬ e'.m ≤ x := by
        intro e' he' hx
        rcases List.mem_cons.mp he' with rfl | he'
        · exact he hx
        · exact he (BitVec.le_trans (hle e' he') hx)
      rw [merge_before hbefore, weight_before hbefore, add_zero]
      exact h.resolve_right fun ⟨e', he', hx⟩ => hbefore e' he' hx

theorem merge_sublist (sum : Int) (last : Bool) (es : List Endpoint) :
    (merge sum last es).Sublist (es.map Endpoint.m) := by
  induction es generalizing sum last with
  | nil => exact .slnil
  | cons e es ih =>
    rw [merge]
    split
    · exact (ih _ _).cons _
    split
    · exact (ih _ _).cons_cons _
    · exact (ih _ _).cons _

namespace FilterMapsRange

variable {fmr : FilterMapsRange} {sort : EndpointSort}
  {firstRendered afterLastRendered afterLastRemoved mapsPerEpoch : U32}

variable (hmaps : fmr.maps.first ≤ fmr.maps.afterLast)
  (htail : 0 < fmr.tailPartialEpoch →
    fmr.tailPartialEpoch < mapsPerEpoch ∧ mapsPerEpoch ≤ fmr.maps.first)
  (hrendered : firstRendered ≤ afterLastRendered) (hremoved : afterLastRendered ≤ afterLastRemoved)
include hmaps htail hrendered hremoved

/-- What the endpoints add up to. -/
theorem weight_endpoints :
    0 < weight x (fmr.endpoints firstRendered afterLastRendered afterLastRemoved mapsPerEpoch) ↔
      (fmr.Rendered mapsPerEpoch x ∨ (firstRendered ≤ x ∧ x < afterLastRendered)) ∧
        ¬ (afterLastRendered ≤ x ∧ x < afterLastRemoved) := by
  obtain ⟨init, ⟨first, afterLast⟩, tail⟩ := fmr
  simp only [Rendered, Range.Includes, newRange, endpoints, weight]
  by_cases hpos : 0 < tail
  · obtain ⟨hlt, hle⟩ := htail hpos
    simp only [if_pos hpos, cons_append, nil_append, map_cons, map_nil, sum_cons, sum_nil]
    split_ifs <;> bv_omega
  · have hzero : tail = 0 := by bv_omega
    subst hzero
    simp only [if_neg hpos, append_nil, map_cons, map_nil, sum_cons, sum_nil]
    split_ifs <;> bv_omega

/-- **The rendered range.**  `addRenderedRange` fails and leaves the range as it is, or the range
    describes the maps that were rendered before or are now, without the removed ones. -/
theorem addRenderedRange_spec (hinit : fmr.initialized = true)
    {res : FilterMapsRange × Option RangeError}
    (hres : fmr.addRenderedRange sort firstRendered afterLastRendered afterLastRemoved
      mapsPerEpoch = res) :
    res.2 ≠ none ∧ res.1 = fmr ∨ res.2 = none ∧ ∀ x, res.1.Rendered mapsPerEpoch x ↔
      (fmr.Rendered mapsPerEpoch x ∨ (firstRendered ≤ x ∧ x < afterLastRendered)) ∧
        ¬ (afterLastRendered ≤ x ∧ x < afterLastRemoved) := by
  subst hres
  simp only [← weight_endpoints hmaps htail hrendered hremoved]
  rw [addRenderedRange, if_pos hinit]
  generalize fmr.endpoints firstRendered afterLastRendered afterLastRemoved mapsPerEpoch = es
  have hinside : ∀ x, 0 < weight x es ↔ inside x false (merge 0 false (sort.sort es)) = true := by
    intro x
    have hweight : weight x (sort.sort es) = weight x es := ((sort.perm es).map _).sum_eq
    have hmerge : inside x false (merge 0 false (sort.sort es)) = _ :=
      merge_spec (sort.sorted es) (.inl rfl)
    rw [hmerge, hweight, zero_add, decide_eq_true_eq]
  have hsorted : (merge 0 false (sort.sort es)).Pairwise (· ≤ ·) :=
    (pairwise_map.mpr (sort.sorted es)).sublist (merge_sublist _ _ _)
  simp only [hinside]
  generalize merge 0 false (sort.sort es) = merged at hsorted
  match merged with
  | [] =>
    refine .inr ⟨rfl, fun x => ?_⟩
    simp [Rendered, not_includes_empty, inside]
  | [a, b] =>
    refine .inr ⟨rfl, fun x => ?_⟩
    refine (or_iff_left (not_includes_empty _ x)).trans ?_
    simp [newRange_sub, Range.Includes, inside]
  | [a, b, c, d] =>
    by_cases hc : c = a + mapsPerEpoch
    · have hac : a ≤ c := rel_of_pairwise_cons hsorted (by simp)
      have htop : c - mapsPerEpoch = a := by rw [hc, add_sub_cancel_right]
      refine .inr ?_
      simp only [if_neg (not_not.mpr hc), true_and]
      intro x
      simp only [Rendered, newRange_sub, htop, Range.Includes]
      grind [inside]
    · exact .inl (by simp [hc])
  | [_] | [_, _, _] | _ :: _ :: _ :: _ :: _ :: _ => exact .inl ⟨nofun, rfl⟩

end FilterMapsRange

def EndpointSort.insertion : EndpointSort :=
  let le := fun a b : Endpoint => a.m ≤ b.m
  haveI : Std.Total le := ⟨fun a b => BitVec.le_total a.m b.m⟩
  haveI : IsTrans Endpoint le := ⟨fun _ _ _ => BitVec.le_trans⟩
  ⟨insertionSort le, perm_insertionSort le, pairwise_insertionSort le⟩

/-- The maps between the partial epoch and the main section are rendered. -/
theorem addRenderedRange_joined :
    let fmr : FilterMapsRange := ⟨true, ⟨8, 12⟩, 2⟩
    let res := fmr.addRenderedRange .insertion 6 8 8 4
    res.2 = none ∧ ∀ x, res.1.Rendered 4 x ↔
      (fmr.Rendered 4 x ∨ (6 ≤ x ∧ x < 8)) ∧ ¬ (8 ≤ x ∧ x < 8) :=
  (FilterMapsRange.addRenderedRange_spec (by decide) (by decide) (by decide) (by decide) rfl
    rfl).resolve_left fun h => h.1 (by decide)

end GethArb.FilterMaps
