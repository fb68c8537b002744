/-
  **Multi-dimensional gas** (`arbitrum/multigas/resources.go`): one counter for each kind of
  resource, and next to them their total, which every operation updates on its own.

  All counters are `uint64` and clamp at the largest value, the total at the same value as
  each of its parts.  So a total that has clamped no longer tells the sum of the counters.
  Additions do not mind, since the sum stays above the clamp.  `SafeSub` and `SaturatingSub`
  compute the total anew.  `With` and `SaturatingDecrement` take the old counter off the
  total, and are right only as long as the sum has not passed the clamp
  (`Restorable`, `obtained_step_iff`).

  A kind outside the range of the array panics and yields no value, so kinds are an
  enumeration here.

  The RLP encoding is a list of words that may be longer or shorter than the array
  (`info`, `roundTrip`).  Counters that the list does not reach stay as they were in the
  receiver (`decodeRLP_receiver`).
-/
import GethArb.RlpTypes

namespace GethArb.Multigas

open BitVec Function List Option Finset

/-! ### Saturating words -/

def maxUint64 : U64 := allOnes 64

/-- The sum, clamped, and whether it was. -/
def saturatingScalarAdd (a b : U64) : U64 × Bool :=
  if uaddOverflow a b then (maxUint64, true) else (a + b, false)

/-- The difference, clamped at zero, and whether it was. -/
def saturatingScalarSub (a b : U64) : U64 × Bool :=
  if usubOverflow a b then (0, true) else (a - b, false)

@[simp] theorem toNat_maxUint64 : maxUint64.toNat = 2 ^ 64 - 1 := rfl

theorem saturatingScalarAdd_fst (a b : U64) :
    (saturatingScalarAdd a b).1.toNat = min (a.toNat + b.toNat) (2 ^ 64 - 1) := by
  unfold saturatingScalarAdd
  split
  · rename_i h
    rw [uaddOverflow, decide_eq_true_eq] at h
    simp only [toNat_maxUint64]
    omega
  · rename_i h
    rw [uaddOverflow, decide_eq_true_eq] at h
    rw [toNat_add]
    omega

theorem saturatingScalarAdd_snd (a b : U64) :
    (saturatingScalarAdd a b).2 = true ↔ 2 ^ 64 ≤ a.toNat + b.toNat := by
  unfold saturatingScalarAdd
  split
  · rename_i h
    rw [uaddOverflow] at h
    simpa using h
  · rename_i h
    rw [uaddOverflow] at h
    simpa using h

/-! ### Kinds -/

inductive ResourceKind where
  | unknown
  | computation
  | historyGrowth
  | storageAccessRead
  | storageAccessWrite
  | storageGrowth
  | singleDim
  | l2Calldata
  | wasmComputation
deriving DecidableEq, Repr

namespace ResourceKind

/-- The kinds in the order of the loops. -/
def all : List ResourceKind :=
  [.unknown, .computation, .historyGrowth, .storageAccessRead, .storageAccessWrite,
    .storageGrowth, .singleDim, .l2Calldata, .wasmComputation]

theorem mem_all (k : ResourceKind) : k ∈ all := by cases k <;> decide

theorem nodup_all : all.Nodup := by decide

instance : Fintype ResourceKind := ⟨⟨all, nodup_all⟩, mem_all⟩

end ResourceKind

/-- The counters, one for each kind. -/
abbrev Counters := ResourceKind → U64

/-- A loop over all kinds that rewrites the counter it visits. -/
def forKinds (f : ResourceKind → U64 → U64) (gas : Counters) : Counters :=
  ResourceKind.all.foldl (fun gas kind => update gas kind (f kind (gas kind))) gas

/-- Such a loop that may stop; `none` if it did. -/
def tryKinds (f : ResourceKind → U64 → Option U64) (gas : Counters) : Option Counters :=
  ResourceKind.all.foldlM
    (fun gas kind => (f kind (gas kind)).map fun amount => update gas kind amount) gas

variable (ks : List ResourceKind)

section
variable {α : Type} {f : ResourceKind → α → α} {g : ResourceKind → α → Option α}

/-- Each kind is visited once, so it is rewritten from its old value. -/
theorem foldl_update (hnodup : ks.Nodup) :
    ∀ (gas : ResourceKind → α) (k : ResourceKind),
      ks.foldl (fun gas kind => update gas kind (f kind (gas kind))) gas k =
        if k ∈ ks then f k (gas k) else gas k := by
  induction ks with
  | nil => exact fun gas k => rfl
  | cons kind rest ih =>
    intro gas k
    obtain ⟨hkind, hrest⟩ := nodup_cons.mp hnodup
    rw [foldl_cons, ih hrest]
    by_cases hk : k = kind
    · subst hk
      simp [hkind]
    · simp [hk]

theorem foldlM_update (hnodup : ks.Nodup) :
    ∀ gas : ResourceKind → α,
      (∀ gas', ks.foldlM (fun gas kind => (g kind (gas kind)).map fun amount =>
          update gas kind amount) gas = some gas' →
        ∀ k, if k ∈ ks then g k (gas k) = some (gas' k) else gas' k = gas k) := by
  induction ks with
  | nil =>
    intro gas gas' h k
    cases h
    rfl
  | cons kind rest ih =>
    intro gas gas' h k
    obtain ⟨hkind, hrest⟩ := nodup_cons.mp hnodup
    obtain ⟨gas₁, hfirst, h⟩ := bind_eq_some_iff.mp h
    obtain ⟨amount, hamount, rfl⟩ := map_eq_some_iff.mp hfirst
    have hk := ih hrest _ gas' h k
    by_cases hkind' : k = kind
    · subst hkind'
      rw [if_neg hkind, update_self] at hk
      rw [if_pos List.mem_cons_self, hk]
      exact hamount
    · simpa [hkind'] using hk

end

open ResourceKind

theorem forKinds_apply (f : ResourceKind → U64 → U64) (gas : Counters) (k : ResourceKind) :
    forKinds f gas k = f k (gas k) := by
  rw [forKinds, foldl_update _ nodup_all, if_pos (mem_all k)]

theorem tryKinds_eq_some {f : ResourceKind → U64 → Option U64} {gas gas' : Counters}
    (h : tryKinds f gas = some gas') (k : ResourceKind) : f k (gas k) = some (gas' k) := by
  have hk := foldlM_update _ nodup_all gas gas' h k
  rwa [if_pos (mem_all k)] at hk

/-! ### Values and operations -/

@[ext]
structure MultiGas where
  gas : Counters
  total : U64
  refund : U64
deriving DecidableEq

def zeroGas : MultiGas := ⟨fun _ => 0, 0, 0⟩

def newMultiGas (kind : ResourceKind) (amount : U64) : MultiGas :=
  ⟨update (fun _ => 0) kind amount, amount, 0⟩

/-- The running total over the counters; stops at the first overflow. -/
def totalFrom (gas : Counters) : List ResourceKind → U64 → U64 × Bool
  | [], total => (total, false)
  | kind :: rest, total =>
    match saturatingScalarAdd total (gas kind) with
    | (total, true) => (total, true)
    | (total, false) => totalFrom gas rest total

namespace MultiGas

/-- `recomputeTotal`: the value with its total set, and whether there was an overflow. -/
def recomputeTotal (z : MultiGas) : MultiGas × Bool :=
  let (total, overflow) := totalFrom z.gas all 0
  ({ z with total := total }, overflow)

end MultiGas

/-- `MultiGasFromPairs`; `none` is a panic. -/
def multiGasFromPairs (pairs : List (ResourceKind × U64)) : Option MultiGas :=
  let gas := pairs.foldl (fun gas p => update gas p.1 p.2) zeroGas.gas
  match { zeroGas with gas := gas }.recomputeTotal with
  | (_, true) => none
  | (mg, false) => some mg

def computationGas (amount : U64) : MultiGas := newMultiGas .computation amount

/-- A saturating step of a loop that gives up on overflow. -/
def unlessOverflow (r : U64 × Bool) : Option U64 := if r.2 then none else some r.1

variable (gas : Counters)

namespace MultiGas

/-- The assignment `z.gas[kind] = amount`. -/
def set (z : MultiGas) (kind : ResourceKind) (amount : U64) : MultiGas :=
  { z with gas := update z.gas kind amount }

/-- `With`. -/
def with_ (z : MultiGas) (kind : ResourceKind) (amount : U64) : MultiGas × Bool :=
  match saturatingScalarAdd (z.total - z.gas kind) amount with
  | (_, true) => (z, true)
  | (total, false) => ({ z with total := total }.set kind amount, false)

def withRefund (z : MultiGas) (amount : U64) : MultiGas := { z with refund := amount }

def safeAdd (z x : MultiGas) : MultiGas × Bool :=
  let sum : Option MultiGas := do
    let gas ← tryKinds
      (fun kind amount => unlessOverflow (saturatingScalarAdd amount (x.gas kind))) z.gas
    let total ← unlessOverflow (saturatingScalarAdd z.total x.total)
    let refund ← unlessOverflow (saturatingScalarAdd z.refund x.refund)
    some ⟨gas, total, refund⟩
  match sum with
  | none => (z, true)
  | some res => (res, false)

def saturatingAdd (z x : MultiGas) : MultiGas where
  gas := forKinds (fun kind amount => (saturatingScalarAdd amount (x.gas kind)).1) z.gas
  total := (saturatingScalarAdd z.total x.total).1
  refund := (saturatingScalarAdd z.refund x.refund).1

/-- `SaturatingAddInto`: the value the receiver is left with. -/
def saturatingAddInto (z x : MultiGas) : MultiGas := z.saturatingAdd x

def safeSub (z x : MultiGas) : MultiGas × Bool :=
  let difference : Option MultiGas := do
    let gas ← tryKinds
      (fun kind amount => unlessOverflow (saturatingScalarSub amount (x.gas kind))) z.gas
    let refund ← unlessOverflow (saturatingScalarSub z.refund x.refund)
    some ⟨gas, z.total, refund⟩
  match difference with
  | none => (z, true)
  | some res => (res.recomputeTotal.1, false)

def saturatingSub (z x : MultiGas) : MultiGas :=
  let res : MultiGas :=
    { z with
      gas := forKinds (fun kind amount => (saturatingScalarSub amount (x.gas kind)).1) z.gas
      refund := (saturatingScalarSub z.refund x.refund).1 }
  res.recomputeTotal.1

def safeIncrement (z : MultiGas) (kind : ResourceKind) (gas : U64) : MultiGas × Bool :=
  match saturatingScalarAdd (z.gas kind) gas with
  | (_, true) => (z, true)
  | (amount, false) =>
    match saturatingScalarAdd z.total gas with
    | (_, true) => (z, true)
    | (total, false) => ({ z with total := total }.set kind amount, false)

def saturatingIncrement (z : MultiGas) (kind : ResourceKind) (gas : U64) : MultiGas :=
  { z with total := (saturatingScalarAdd z.total gas).1 }.set kind
    (saturatingScalarAdd (z.gas kind) gas).1

/-- `SaturatingIncrementInto`: the value the receiver is left with. -/
def saturatingIncrementInto (z : MultiGas) (kind : ResourceKind) (gas : U64) : MultiGas :=
  z.saturatingIncrement kind gas

/-- What `SaturatingDecrement` takes off the counter. -/
def reduced (z : MultiGas) (kind : ResourceKind) (gas : U64) : U64 :=
  if z.gas kind < gas then z.gas kind else gas

def saturatingDecrement (z : MultiGas) (kind : ResourceKind) (gas : U64) : MultiGas :=
  let current := z.gas kind
  let res := z.set kind (if current < gas then 0 else current - gas)
  let reduced := z.reduced kind gas
  if res.total < reduced then { res with total := 0 } else { res with total := res.total - reduced }

def singleGas (z : MultiGas) : U64 := z.total - z.refund

def isZero (z : MultiGas) : Bool := z.total = 0 ∧ z.refund = 0 ∧ ∀ kind, z.gas kind = 0

/-- The sum over all kinds. -/
def sum (z : MultiGas) : Nat := ∑ kind, (z.gas kind).toNat

/-- The total is the sum of the counters, clamped. -/
def Exact (z : MultiGas) : Prop := z.total.toNat = min z.sum (2 ^ 64 - 1)

instance (z : MultiGas) : Decidable z.Exact := Nat.decEq _ _

section
variable (z : MultiGas)

section
variable (kind : ResourceKind)

/-- One counter apart from the others. -/
theorem sum_split : z.sum = (z.gas kind).toNat + ∑ k ∈ univ.erase kind, (z.gas k).toNat :=
  (add_sum_erase univ (fun k => (z.gas k).toNat) (mem_univ kind)).symm

theorem le_sum : (z.gas kind).toNat ≤ z.sum := by
  rw [z.sum_split kind]
  exact Nat.le_add_right _ _

/-- A counter that is set changes the sum by the difference. -/
theorem sum_set (amount : U64) :
    (z.set kind amount).sum + (z.gas kind).toNat = z.sum + amount.toNat := by
  have hothers : ∑ k ∈ univ.erase kind, ((z.set kind amount).gas k).toNat =
      ∑ k ∈ univ.erase kind, (z.gas k).toNat := by
    refine sum_congr rfl fun k hk => ?_
    have hne : k ≠ kind := ne_of_mem_erase hk
    simp only [set, update_of_ne hne]
  have hself : (z.set kind amount).gas kind = amount := update_self ..
  rw [(z.set kind amount).sum_split kind, z.sum_split kind, hself]
  omega

@[simp] theorem total_set (amount : U64) : (z.set kind amount).total = z.total := rfl

end

/-- The value with another total has the same sum. -/
theorem sum_total (total : U64) : { z with total := total }.sum = z.sum := rfl

end

/-! ### What each operation does to the sum -/

theorem totalFrom_fst (ks : List ResourceKind) :
    ∀ total : U64, (totalFrom gas ks total).1.toNat =
      min (total.toNat + (ks.map fun kind => (gas kind).toNat).sum) (2 ^ 64 - 1) := by
  induction ks with
  | nil =>
    simp only [totalFrom, map_nil, sum_nil]
    omega
  | cons kind rest ih =>
    intro total
    have hfst := saturatingScalarAdd_fst total (gas kind)
    have hsnd := saturatingScalarAdd_snd total (gas kind)
    simp only [totalFrom, List.map_cons, List.sum_cons]
    split
    · rename_i t ht
      rw [ht] at hfst hsnd
      have hover := hsnd.mp rfl
      omega
    · rename_i t ht
      rw [ht] at hfst hsnd
      rw [ih]
      simp only at hfst
      omega

/-- A total that was computed anew is right. -/
theorem exact_recomputeTotal (z : MultiGas) : z.recomputeTotal.1.Exact := by
  have htotal := totalFrom_fst z.gas all 0
  have hzero : (0 : U64).toNat = 0 := rfl
  rw [hzero, Nat.zero_add] at htotal
  exact htotal

theorem unlessOverflow_add {a b c : U64} (h : unlessOverflow (saturatingScalarAdd a b) = some c) :
    c.toNat = a.toNat + b.toNat := by
  have hfst := saturatingScalarAdd_fst a b
  have hsnd := saturatingScalarAdd_snd a b
  unfold unlessOverflow at h
  split at h
  · cases h
  · rename_i hflag
    cases h
    have hfits : ¬ 2 ^ 64 ≤ a.toNat + b.toNat := fun hover => hflag (hsnd.mpr hover)
    omega

variable {z x : MultiGas}

/-- Counters added without overflow. -/
theorem sum_of_add (h : ∀ k, (gas k).toNat = (z.gas k).toNat + (x.gas k).toNat)
    (total refund : U64) : (⟨gas, total, refund⟩ : MultiGas).sum = z.sum + x.sum := by
  simp [sum, h, sum_add_distrib]

theorem exact_safeAdd (hz : z.Exact) (hx : x.Exact) : (z.safeAdd x).1.Exact := by
  unfold safeAdd
  simp only
  split
  · exact hz
  rename_i res hres
  obtain ⟨gas, hgas, hres⟩ := bind_eq_some_iff.mp hres
  obtain ⟨total, htotal, hres⟩ := bind_eq_some_iff.mp hres
  obtain ⟨refund, -, hres⟩ := bind_eq_some_iff.mp hres
  cases hres
  have hsum := sum_of_add gas (fun k => unlessOverflow_add (tryKinds_eq_some hgas k)) total refund
  have htotal := unlessOverflow_add htotal
  simp only [Exact] at hz hx ⊢
  omega

/-- The clamped counters sum up to the clamped sum. -/
theorem min_sum_saturatingAdd (z x : MultiGas) :
    min (z.saturatingAdd x).sum (2 ^ 64 - 1) = min (z.sum + x.sum) (2 ^ 64 - 1) := by
  have hgas : ∀ k, ((z.saturatingAdd x).gas k).toNat =
      min ((z.gas k).toNat + (x.gas k).toNat) (2 ^ 64 - 1) := by
    simp [saturatingAdd, forKinds_apply, saturatingScalarAdd_fst]
  by_cases hfits : ∀ k, (z.gas k).toNat + (x.gas k).toNat ≤ 2 ^ 64 - 1
  · have hsum := sum_of_add (z.saturatingAdd x).gas
      (fun k => (hgas k).trans (Nat.min_eq_left (hfits k))) (z.saturatingAdd x).total
      (z.saturatingAdd x).refund
    exact congrArg (min · _) hsum
  · -- the counter that clamped is itself as large as the bound
    obtain ⟨k, hk⟩ := not_forall.mp hfits
    have hclamped := (z.saturatingAdd x).le_sum k
    have hzk := z.le_sum k
    have hxk := x.le_sum k
    rw [hgas k] at hclamped
    omega

theorem exact_saturatingAdd (hz : z.Exact) (hx : x.Exact) : (z.saturatingAdd x).Exact := by
  have htotal : (z.saturatingAdd x).total.toNat = min (z.total.toNat + x.total.toNat)
    (2 ^ 64 - 1) :=
    saturatingScalarAdd_fst _ _
  simp only [Exact] at hz hx ⊢
  rw [min_sum_saturatingAdd]
  omega

theorem exact_safeSub (hz : z.Exact) : (z.safeSub x).1.Exact := by
  unfold safeSub
  simp only
  split
  · exact hz
  · exact exact_recomputeTotal _

theorem exact_saturatingIncrement (hz : z.Exact) (kind : ResourceKind) (gas : U64) :
    (z.saturatingIncrement kind gas).Exact := by
  have htotal : (z.saturatingIncrement kind gas).total.toNat =
      min (z.total.toNat + gas.toNat) (2 ^ 64 - 1) := saturatingScalarAdd_fst _ _
  have hamount := saturatingScalarAdd_fst (z.gas kind) gas
  have hsum : (z.saturatingIncrement kind gas).sum + (z.gas kind).toNat =
      z.sum + (saturatingScalarAdd (z.gas kind) gas).1.toNat := sum_set _ kind _
  have hle := z.le_sum kind
  simp only [Exact] at hz ⊢
  omega

theorem exact_safeIncrement (hz : z.Exact) (kind : ResourceKind) (gas : U64) :
    (z.safeIncrement kind gas).1.Exact := by
  have hincrement := exact_saturatingIncrement hz kind gas
  unfold safeIncrement
  split
  · exact hz
  rename_i amount hamount
  split
  · exact hz
  rename_i total htotal
  -- without overflow it is the saturating increment
  have heq : { z with total := total }.set kind amount = z.saturatingIncrement kind gas := by
    rw [saturatingIncrement, htotal, hamount]
  rw [heq]
  exact hincrement

/-- `With` that did not overflow. -/
theorem exact_with_iff (hz : z.Exact) (kind : ResourceKind) (amount : U64) :
    (z.with_ kind amount).1.Exact ↔ z.sum ≤ 2 ^ 64 - 1 ∨ z.gas kind ≤ amount := by
  have hle := z.le_sum kind
  have hsub : (z.total - z.gas kind).toNat = z.total.toNat - (z.gas kind).toNat := by
    refine toNat_sub_of_le ?_
    rw [le_def]
    simp only [Exact] at hz
    omega
  have hfst := saturatingScalarAdd_fst (z.total - z.gas kind) amount
  have hsnd := saturatingScalarAdd_snd (z.total - z.gas kind) amount
  rw [le_def]
  unfold with_
  split
  · rename_i t ht
    rw [ht] at hsnd
    have hover := hsnd.mp rfl
    simp only [hz, true_iff]
    omega
  · rename_i t ht
    rw [ht] at hfst hsnd
    have hsum : ({ z with total := t }.set kind amount).sum + (z.gas kind).toNat =
        z.sum + amount.toNat := sum_set _ kind amount
    simp only [Exact, total_set] at hz hfst ⊢
    omega

theorem toNat_reduced (z : MultiGas) (kind : ResourceKind) (gas : U64) :
    (z.reduced kind gas).toNat = min (z.gas kind).toNat gas.toNat := by
  unfold reduced
  split
  · rename_i h
    rw [lt_def] at h
    omega
  · rename_i h
    rw [lt_def] at h
    omega

theorem Exact.reduced_le (hz : z.Exact) (kind : ResourceKind) (gas : U64) :
    z.reduced kind gas ≤ z.total := by
  have hle := z.le_sum kind
  rw [le_def, toNat_reduced]
  simp only [Exact] at hz
  omega

/-- The counter and the total of a right value after a decrement. -/
theorem saturatingDecrement_spec (hz : z.Exact) (kind : ResourceKind) (gas : U64) :
    (z.saturatingDecrement kind gas).sum + min (z.gas kind).toNat gas.toNat = z.sum ∧
      (z.saturatingDecrement kind gas).total.toNat + min (z.gas kind).toNat gas.toNat =
        z.total.toNat := by
  have hreduced := toNat_reduced z kind gas
  have hle := hz.reduced_le kind gas
  have hcurrent : (if z.gas kind < gas then 0 else z.gas kind - gas : U64).toNat =
      (z.gas kind).toNat - gas.toNat := by
    split
    · rename_i h
      rw [lt_def] at h
      have hzero : (0 : U64).toNat = 0 := rfl
      omega
    · rename_i h
      exact toNat_sub_of_le (BitVec.not_lt.mp h)
  have hsum := z.sum_set kind (if z.gas kind < gas then 0 else z.gas kind - gas)
  have hdecrement : z.saturatingDecrement kind gas =
      { z.set kind (if z.gas kind < gas then 0 else z.gas kind - gas) with
        total := z.total - z.reduced kind gas } := if_neg (BitVec.not_lt.mpr hle)
  rw [hdecrement, sum_total, toNat_sub_of_le hle]
  rw [le_def] at hle
  omega

theorem exact_saturatingDecrement_iff (hz : z.Exact) (kind : ResourceKind) (gas : U64) :
    (z.saturatingDecrement kind gas).Exact ↔ z.sum ≤ 2 ^ 64 - 1 ∨ gas = 0 ∨ z.gas kind = 0 := by
  obtain ⟨hsum, htotal⟩ := saturatingDecrement_spec hz kind gas
  have hgas : gas = 0 ↔ gas.toNat = 0 := toNat_eq
  have hcurrent : z.gas kind = 0 ↔ (z.gas kind).toNat = 0 := toNat_eq
  rw [hgas, hcurrent]
  simp only [Exact] at hz ⊢
  omega

end MultiGas

/-! ### Runs -/

/-- The operations with their arguments. -/
inductive Op where
  | with_ (kind : ResourceKind) (amount : U64)
  | safeAdd (x : MultiGas)
  | saturatingAdd (x : MultiGas)
  | saturatingAddInto (x : MultiGas)
  | safeSub (x : MultiGas)
  | saturatingSub (x : MultiGas)
  | safeIncrement (kind : ResourceKind) (gas : U64)
  | saturatingIncrement (kind : ResourceKind) (gas : U64)
  | saturatingIncrementInto (kind : ResourceKind) (gas : U64)
  | saturatingDecrement (kind : ResourceKind) (gas : U64)

namespace Op

/-- The value an operation leaves; the flag of the safe ones apart. -/
def apply (z : MultiGas) : Op → MultiGas
  | with_ kind amount => (z.with_ kind amount).1
  | safeAdd x => (z.safeAdd x).1
  | saturatingAdd x => z.saturatingAdd x
  | saturatingAddInto x => z.saturatingAddInto x
  | safeSub x => (z.safeSub x).1
  | saturatingSub x => z.saturatingSub x
  | safeIncrement kind gas => (z.safeIncrement kind gas).1
  | saturatingIncrement kind gas => z.saturatingIncrement kind gas
  | saturatingIncrementInto kind gas => z.saturatingIncrementInto kind gas
  | saturatingDecrement kind gas => z.saturatingDecrement kind gas

/-- The other value an operation takes. -/
def arg : Op → Option MultiGas
  | safeAdd x | saturatingAdd x | saturatingAddInto x | safeSub x | saturatingSub x => some x
  | _ => none

/-- The unsigned differences `a - b` an operation computes, as pairs.  `saturatingScalarSub`
    looks at the borrow and is not one of them. -/
def subtractions (z : MultiGas) : Op → List (U64 × U64)
  | with_ kind _ => [(z.total, z.gas kind)]
  | saturatingDecrement kind gas =>
    (if z.gas kind < gas then [] else [(z.gas kind, gas)]) ++
      if z.total < z.reduced kind gas then [] else [(z.total, z.reduced kind gas)]
  | _ => []

/-- Where an operation keeps the total right: the two that take a counter off the total
    need a sum below the clamp, unless they change nothing or fail. -/
def Restorable (z : MultiGas) : Op → Prop
  | with_ kind amount => z.sum ≤ 2 ^ 64 - 1 ∨ z.gas kind ≤ amount
  | saturatingDecrement kind gas => z.sum ≤ 2 ^ 64 - 1 ∨ gas = 0 ∨ z.gas kind = 0
  | _ => True

end Op

/-- The values obtained from the constructors by operations that meet `C`. -/
inductive Obtained (C : MultiGas → Op → Prop) : MultiGas → Prop
  | zero : Obtained C zeroGas
  | new (kind : ResourceKind) (amount : U64) : Obtained C (newMultiGas kind amount)
  | pairs {l : List (ResourceKind × U64)} {z : MultiGas} (h : multiGasFromPairs l = some z) :
      Obtained C z
  | step {z : MultiGas} (hz : Obtained C z) (op : Op) (harg : ∀ x ∈ op.arg, Obtained C x)
      (hop : C z op) : Obtained C (op.apply z)

theorem exact_newMultiGas (kind : ResourceKind) (amount : U64) :
    (newMultiGas kind amount).Exact := by
  have hsum := zeroGas.sum_set kind amount
  have hzero : zeroGas.sum = 0 := rfl
  have hnew : (newMultiGas kind amount).sum = (zeroGas.set kind amount).sum := rfl
  have hgas : (zeroGas.gas kind).toNat = 0 := rfl
  have htotal : (newMultiGas kind amount).total = amount := rfl
  simp only [MultiGas.Exact, htotal]
  omega

variable {z : MultiGas}

open MultiGas

theorem exact_multiGasFromPairs {l : List (ResourceKind × U64)} (h : multiGasFromPairs l = some z) :
    z.Exact := by
  unfold multiGasFromPairs at h
  simp only at h
  split at h
  · cases h
  rename_i mg hmg
  cases h
  have hexact := exact_recomputeTotal
    { zeroGas with gas := l.foldl (fun gas p => update gas p.1 p.2) zeroGas.gas }
  rwa [hmg] at hexact

/-- An operation on right values is right exactly where it is restorable. -/
theorem Op.exact_apply_iff (hz : z.Exact) {op : Op} (harg : ∀ x ∈ op.arg, x.Exact) :
    (op.apply z).Exact ↔ op.Restorable z := by
  cases op with
  | with_ kind amount => exact exact_with_iff hz kind amount
  | saturatingDecrement kind gas => exact exact_saturatingDecrement_iff hz kind gas
  | safeAdd x => exact iff_of_true (exact_safeAdd hz (harg x rfl)) trivial
  | saturatingAdd x | saturatingAddInto x =>
    exact iff_of_true (exact_saturatingAdd hz (harg x rfl)) trivial
  | safeSub x => exact iff_of_true (exact_safeSub hz) trivial
  | saturatingSub x => exact iff_of_true (exact_recomputeTotal _) trivial
  | safeIncrement kind gas => exact iff_of_true (exact_safeIncrement hz kind gas) trivial
  | saturatingIncrement kind gas | saturatingIncrementInto kind gas =>
    exact iff_of_true (exact_saturatingIncrement hz kind gas) trivial

/-- On a right value no difference wraps. -/
theorem Op.le_of_mem_subtractions (hz : z.Exact) (op : Op) :
    ∀ p ∈ op.subtractions z, p.2 ≤ p.1 := by
  intro p hp
  cases op with
  | with_ kind amount =>
    rw [List.mem_singleton.mp hp]
    have hle := z.le_sum kind
    simp only [MultiGas.Exact] at hz
    simp only [le_def]
    omega
  | saturatingDecrement kind gas =>
    rcases mem_append.mp hp with hp | hp
    · split at hp
      · cases hp
      · rename_i hlt
        rw [List.mem_singleton.mp hp]
        exact BitVec.not_lt.mp hlt
    · split at hp
      · cases hp
      · rw [List.mem_singleton.mp hp]
        exact hz.reduced_le kind gas
  | _ => cases hp

theorem Obtained.exact (hz : Obtained (fun z op => op.Restorable z) z) : z.Exact := by
  induction hz with
  | zero => decide
  | new kind amount => exact exact_newMultiGas kind amount
  | pairs h => exact exact_multiGasFromPairs h
  | step hz op harg hop ihz iharg => exact (Op.exact_apply_iff ihz iharg).mpr hop

/-- **The total.**  Along every run in which each step is restorable, the total is the sum of
    the counters clamped at the largest word, and no unsigned difference wraps; the next
    step keeps it so if and only if it is restorable too. -/
theorem obtained_step_iff {z : MultiGas} (hz : Obtained (fun z op => op.Restorable z) z) :
    z.total.toNat = min (∑ kind, (z.gas kind).toNat) (2 ^ 64 - 1) ∧
      ∀ op : Op, (∀ x ∈ op.arg, Obtained (fun z op => op.Restorable z) x) →
        (∀ p ∈ op.subtractions z, p.2 ≤ p.1) ∧
        ((op.apply z).total.toNat = min (∑ kind, ((op.apply z).gas kind).toNat) (2 ^ 64 - 1) ↔
          op.Restorable z) := by
  refine ⟨hz.exact, fun op harg => ⟨op.le_of_mem_subtractions hz.exact, ?_⟩⟩
  exact Op.exact_apply_iff hz.exact fun x hx => (harg x hx).exact

/-- The total has clamped: it stays right when a counter is raised, and not when it is lowered. -/
theorem obtained_step_iff_clamped :
    let z := Op.apply (newMultiGas .computation maxUint64) (.saturatingIncrement .storageGrowth 3)
    let raised := Op.apply z (.with_ .storageGrowth 4)
    let lowered := Op.apply z (.with_ .storageGrowth 2)
    raised.total.toNat = min (∑ kind, (raised.gas kind).toNat) (2 ^ 64 - 1) ∧
      lowered.total.toNat ≠ min (∑ kind, (lowered.gas kind).toNat) (2 ^ 64 - 1) := by
  have hz : Obtained (fun z op => op.Restorable z)
      (Op.apply (newMultiGas .computation maxUint64) (.saturatingIncrement .storageGrowth 3)) :=
    .step (.new .computation maxUint64) _ nofun trivial
  constructor
  · exact ((obtained_step_iff hz).2 (.with_ .storageGrowth 4) nofun).2.mpr (.inr (by decide))
  · refine ((obtained_step_iff hz).2 (.with_ .storageGrowth 2) nofun).2.not.mpr ?_
    exact not_or.mpr ⟨by decide, by decide⟩

/-- Two counters at the bound: the total has clamped.  Setting the first to zero takes it
    off the clamped total, and setting the second then wraps. -/
theorem with_after_saturation :
    ∃ z : MultiGas, Obtained (fun _ _ => True) z ∧
      z.total.toNat ≠ min (∑ kind, (z.gas kind).toNat) (2 ^ 64 - 1) ∧
      ∃ p ∈ Op.subtractions z (.with_ .historyGrowth 1), ¬ p.2 ≤ p.1 := by
  let increment : Op := .saturatingIncrement .historyGrowth maxUint64
  let set : Op := .with_ .computation 0
  have hfull : Obtained (fun _ _ => True) (increment.apply (newMultiGas .computation maxUint64)) :=
    .step (.new .computation maxUint64) increment nofun trivial
  refine ⟨set.apply (increment.apply (newMultiGas .computation maxUint64)), ?_, ?_, ?_⟩
  · exact .step hfull set nofun trivial
  · decide
  · decide

/-! ### The RLP encoding -/

namespace MultiGas

open Rlp Rlp.TypeInfo

/-- The writes of the loop of `DecodeRLP`: a counter for each kind as long as the list has one;
    the rest of the list is skipped. -/
def store (gas : Counters) (vals : List U64) : Counters :=
  (all.zip vals).foldl (fun gas p => update gas p.1 p.2) gas

theorem store_map (gas₀ gas : Counters) : store gas₀ (all.map gas) = gas := by
  funext kind
  cases kind <;> rfl

theorem foldl_zip_update {kind : ResourceKind} {ks : List ResourceKind} (hnodup : ks.Nodup)
    (vals : List U64) (gas : Counters) :
    (ks.zip vals).foldl (fun gas p => update gas p.1 p.2) gas kind =
      if kind ∈ ks then (vals[ks.idxOf kind]?).getD (gas kind) else gas kind := by
  induction ks generalizing vals gas with
  | nil => rfl
  | cons k ks ih =>
    obtain ⟨hk, hnodup⟩ := nodup_cons.mp hnodup
    cases vals with
    | nil => simp
    | cons v vals =>
      rw [zip_cons_cons, foldl_cons, ih hnodup]
      by_cases hkind : kind = k
      · subst hkind
        simp [hk]
      · simp [hkind, idxOf_cons_ne _ (Ne.symm hkind)]

/-- A kind that the list does not reach keeps its counter. -/
theorem store_apply (vals : List U64) (kind : ResourceKind) :
    store gas vals kind = (vals[all.idxOf kind]?).getD (gas kind) :=
  (foldl_zip_update nodup_all vals gas).trans (if_pos kind.mem_all)

/-- `DecodeRLP` into the receiver `z`. -/
def decodeRLP (z : MultiGas) (s : Stream) : Except Error (MultiGas × Stream) := do
  let (_, s) ← s.list
  let (total, s) ← uint64.decoder s
  let (refund, s) ← uint64.decoder s
  let (vals, s) ← decodeElems uint64.decoder (s.input.length + 1) s
  let s ← s.listEnd
  .ok (⟨store z.gas vals, total, refund⟩, s)

/-- The stream as `DecodeRLP` leaves it when it fails at the end of a list: the list around the
    value, or the one of the value, before the total or before the refund. -/
def stop (s : Stream) : Stream :=
  match s.list with
  | .error _ => s
  | .ok (_, s) =>
    match uint64.decoder s with
    | .error _ => s
    | .ok (_, s) => s

theorem stop_inList (s : Stream) : stop s.inList = s.inList := by
  simp only [stop, Stream.list_eol (s := s.inList) rfl]

/-- `EncodeRLP`: the total, the refund, then the counters.  A struct that holds the value is
    decoded into a fresh one. -/
def info : TypeInfo MultiGas where
  writer z := (slice uint64).writer (z.total :: z.refund :: all.map z.gas)
  decoder := zeroGas.decodeRLP

/-- What any list of words leaves in the receiver. -/
theorem decodeRLP_push (z : MultiGas) {total refund : U64} {vals : List U64} {b : Bytes}
    {s : Stream}
    (h : (slice uint64).writer (total :: refund :: vals) = .ok b) (hlen : b.length < 2 ^ 64)
    (hfits : s.Fits b.length) :
    z.decodeRLP (s.push b) = .ok (⟨store z.gas vals, total, refund⟩, s) := by
  obtain ⟨content, hcontent, h⟩ := bind_eq_ok.mp h
  cases h
  obtain ⟨first, hfirst, hcontent⟩ := bind_eq_ok.mp hcontent
  obtain ⟨tail, htail, hcontent⟩ := bind_eq_ok.mp hcontent
  cases hcontent
  obtain ⟨second, hsecond, htail⟩ := bind_eq_ok.mp htail
  obtain ⟨counters, hcounters, htail⟩ := bind_eq_ok.mp htail
  cases htail
  have hlen := length_lt_of_encodeList hlen
  have hlist := Stream.list_push hlen hfits
  simp only [length_append] at hlen
  have hfits₁ : (s.inList.push (second ++ counters)).Fits first.length :=
    (Stream.fits_inList (by simp only [length_append]; omega) s).push
  have hfits₂ : (s.inList.push counters).Fits second.length :=
    (Stream.fits_inList (by omega) s).push
  have hread₁ := uint64_lawful.roundTrip.reads _ first _ hfirst (by omega) hfits₁
  have hread₂ := uint64_lawful.roundTrip.reads _ second _ hsecond (by omega) hfits₂
  have hread₃ := decodeElems_push uint64_lawful.roundTrip s _ counters
    ((s.inList.push counters).input.length + 1) hcounters
    (by rw [Stream.length_push]; omega) (by omega)
  rw [Stream.push_append] at hread₁
  rw [List.map_id] at hread₃
  simp only [decodeRLP, hlist, Stream.push_append, hread₁, hread₂, hread₃, Stream.listEnd_inList,
    ok_bind, id]

theorem roundTrip : info.RoundTrip (fun _ => True) id where
  writes z _ := (slice_roundTrip_id uint64_lawful.roundTrip).writes _ trivial
  norm_writer _ := rfl
  ne_nil z b h := (slice_roundTrip_id uint64_lawful.roundTrip).ne_nil _ b h
  eol s h := by simp [info, decodeRLP, Stream.list_eol h]
  reads z b s h hlen hfits := by
    have hread := decodeRLP_push zeroGas h hlen hfits
    rw [store_map] at hread
    exact hread

/-! ### The JSON encoding -/

/-- The names in `multiGasJSON`. -/
def jsonName : ResourceKind → String
  | .unknown => "unknown"
  | .computation => "computation"
  | .historyGrowth => "historyGrowth"
  | .storageAccessRead => "storageAccessRead"
  | .storageAccessWrite => "storageAccessWrite"
  | .storageGrowth => "storageGrowth"
  | .singleDim => "singleDim"
  | .l2Calldata => "l2Calldata"
  | .wasmComputation => "wasmComputation"

/-- `MarshalJSON`: the fields of the object, before they are written as texts. -/
def marshalJSON (z : MultiGas) : List (String × U64) :=
  all.map (fun kind => (jsonName kind, z.gas kind)) ++ [("refund", z.refund), ("total", z.total)]

/-- `UnmarshalJSON` of an object with these fields; one that is left out is zero. -/
def unmarshalJSON (fields : List (String × U64)) : MultiGas :=
  let field (name : String) : U64 := (fields.lookup name).getD 0
  ⟨fun kind => field (jsonName kind), field "total", field "refund"⟩

theorem unmarshalJSON_marshalJSON (z : MultiGas) : unmarshalJSON z.marshalJSON = z := by
  have hkind : ∀ kind, z.marshalJSON.lookup (jsonName kind) = some (z.gas kind) := by
    intro kind
    cases kind <;> rfl
  simp only [unmarshalJSON, hkind]
  rfl

/-- **What `DecodeRLP` leaves in its receiver.**  Total, refund and the listed counters are
    those of the list, and longer lists are cut.  Kinds that the list does not reach are zero
    if and only if they were zero before.  A value that was encoded is read back into any
    receiver, and from JSON as well. -/
theorem decodeRLP_receiver (z : MultiGas) :
    (∀ (total refund : U64) (vals : List U64) (b : Bytes) (s : Stream),
      (slice uint64).writer (total :: refund :: vals) = .ok b → b.length < 2 ^ 64 →
      s.Fits b.length → ∃ z' : MultiGas, z.decodeRLP (s.push b) = .ok (z', s) ∧
        z'.total = total ∧ z'.refund = refund ∧
        (∀ kind v, vals[ResourceKind.all.idxOf kind]? = some v → z'.gas kind = v) ∧
        ((∀ kind, vals[ResourceKind.all.idxOf kind]? = none → z'.gas kind = 0) ↔
          ∀ kind, vals[ResourceKind.all.idxOf kind]? = none → z.gas kind = 0)) ∧
    (∀ (x : MultiGas) (b : Bytes) (s : Stream), info.writer x = .ok b → b.length < 2 ^ 64 →
      s.Fits b.length → z.decodeRLP (s.push b) = .ok (x, s)) ∧
    ∀ x : MultiGas, unmarshalJSON x.marshalJSON = x := by
  refine ⟨?_, ?_, unmarshalJSON_marshalJSON⟩
  · intro total refund vals b s h hlen hfits
    refine ⟨_, decodeRLP_push z h hlen hfits, rfl, rfl, fun kind v hv => ?_, ?_⟩
    · exact (store_apply ..).trans (by rw [hv, getD_some])
    · refine forall_congr' fun kind => imp_congr_right fun hnone => ?_
      simp [store_apply, hnone]
  · intro x b s h hlen hfits
    rw [decodeRLP_push z h hlen hfits, store_map]

theorem decodeRLP_receiver_zero : ∃ b : Bytes, info.writer zeroGas = .ok b ∧
    (newMultiGas .computation 7).decodeRLP (Stream.push b ⟨[], true, []⟩) =
      .ok (zeroGas, ⟨[], true, []⟩) := by
  refine ⟨0xCB :: replicate 11 0x80, by decide +kernel, ?_⟩
  exact (decodeRLP_receiver _).2.1 _ _ _ (by decide +kernel) (by decide)
    (Stream.fits_of_stack_nil rfl _)

/-- A list without counters leaves the old ones, next to the new total. -/
theorem decodeRLP_keeps_counter :
    ((newMultiGas .computation 7).decodeRLP ⟨[0xC2, 0x05, 0x80], true, []⟩).toOption.map
      (fun r => (r.1.total, r.1.refund, r.1.gas .computation)) = some (5, 0, 7) := by
  decide +kernel

end MultiGas

end GethArb.Multigas
