/-
  **Header information** (`core/types/arb_types.go`) **and effective tips** (`transaction.go`).

  * `HeaderInfo` is packed into `Extra` and `MixDigest`.  All of it is read back but the
    tip flag of ArbOS 9, which always collects tips (`deserialize_update`).
  * `calcEffectiveGasTip` computes a signed quantity with 256 unsigned bits.  It is exact as
    long as the fee cap is not below the base fee (`effectiveGasTip_exact`).
-/
import GethArb.StateProcessor

namespace GethArb.Tx

open Rlp List BitVec

/-! ### Header information -/

/-- The ArbOS version that always collects tips. -/
def arbosVersionCollectTipsOld : U64 := 9

structure HeaderInfo where
  sendRoot : Hash
  sendCount : U64
  l1BlockNumber : U64
  arbOSFormatVersion : U64
  collectTips : Bool
deriving DecidableEq

/-- The fields of a header that are read or written here. -/
structure InfoHeader where
  baseFee : BigInt
  extra : Bytes
  difficulty : Int
  mixDigest : Bytes
  time : U64

namespace HeaderInfo

def empty : HeaderInfo := ⟨0, 0, 0, 0, false⟩

def extra (info : HeaderInfo) : Bytes := hashBytes info.sendRoot

def mixDigest (info : HeaderInfo) : Bytes :=
  bytesBE 8 info.sendCount.toNat ++ (bytesBE 8 info.l1BlockNumber.toNat ++
    (bytesBE 8 info.arbOSFormatVersion.toNat ++
      [0, if info.collectTips ∧ info.arbOSFormatVersion ≠ arbosVersionCollectTipsOld then 1 else 0,
        0, 0, 0, 0, 0, 0]))

def updateHeaderWithInfo (info : HeaderInfo) (header : InfoHeader) : InfoHeader :=
  { header with mixDigest := info.mixDigest, extra := info.extra }

/-- `DeserializeHeaderExtraInformation`, with the value of `legacyZeroBaseFeeUntil`. -/
def deserialize (legacyZeroBaseFeeUntil : U64) (header : Option InfoHeader) : HeaderInfo :=
  match header with
  | none => empty
  | some header =>
    match header.baseFee with
    | none => empty
    | some baseFee =>
      if header.extra.length ≠ 32 ∨ header.difficulty ≠ 1 then empty
      else
        let word (offset : Nat) : U64 :=
          BitVec.ofNat 64 (ofBytesBE ((header.mixDigest.drop offset).take 8))
        let version := word 16
        if version ≤ 40 ∧ baseFee = 0 ∧ header.time < legacyZeroBaseFeeUntil then empty
        else
          { sendRoot := BitVec.ofNat 256 (ofBytesBE header.extra)
            sendCount := word 0
            l1BlockNumber := word 8
            arbOSFormatVersion := version
            collectTips :=
              version = arbosVersionCollectTipsOld ∨ header.mixDigest.getD 25 0 &&& 1 = 1 }

/-- The information with the flag that is read back. -/
def stored (info : HeaderInfo) : HeaderInfo :=
  { info with
    collectTips := info.collectTips ∨ info.arbOSFormatVersion = arbosVersionCollectTipsOld }

theorem ofBytesBE_word (x : U64) : BitVec.ofNat 64 (ofBytesBE (bytesBE 8 x.toNat)) = x := by
  apply eq_of_toNat_eq
  rw [ofBytesBE_bytesBE, toNat_ofNat]
  omega

/-- The flag as it is written. -/
theorem mixDigest_flag (info : HeaderInfo) : (info.mixDigest.getD 25 0 &&& 1 = 1) =
    (info.collectTips ∧ info.arbOSFormatVersion ≠ arbosVersionCollectTipsOld) := by
  have hdrop : info.mixDigest[25]? = some (if info.collectTips ∧ info.arbOSFormatVersion ≠
      arbosVersionCollectTipsOld then 1 else 0) := by
    simp [mixDigest]
  rw [getD_eq_getElem?_getD, hdrop, eq_iff_iff]
  split
  · exact iff_of_true (by decide) ‹_›
  · exact iff_of_false (by decide) ‹_›

variable {info : HeaderInfo} {header : InfoHeader} {baseFee : Int} {legacyZeroBaseFeeUntil : U64}

theorem deserialize_eq (hfee : header.baseFee = some baseFee) (hdifficulty : header.difficulty = 1)
    (hguard : ¬ (info.arbOSFormatVersion ≤ 40 ∧ baseFee = 0 ∧
      header.time < legacyZeroBaseFeeUntil)) :
    deserialize legacyZeroBaseFeeUntil (some (info.updateHeaderWithInfo header)) = info.stored := by
  have hlen : ∀ x, (bytesBE 8 x).length = 8 := length_bytesBE 8
  have h₀ : (info.mixDigest.drop 0).take 8 = bytesBE 8 info.sendCount.toNat := take_left' (hlen _)
  have h₈ : (info.mixDigest.drop 8).take 8 = bytesBE 8 info.l1BlockNumber.toNat := by
    rw [mixDigest, drop_left' (hlen _), take_left' (hlen _)]
  have h₁₆ : (info.mixDigest.drop 16).take 8 = bytesBE 8 info.arbOSFormatVersion.toNat := by
    rw [mixDigest, show 16 = 8 + 8 from rfl, ← drop_drop, drop_left' (hlen _), drop_left' (hlen _),
      take_left' (hlen _)]
  have hextra : info.extra.length = 32 := length_bytesBE 32 _
  have hroot : BitVec.ofNat 256 (ofBytesBE info.extra) = info.sendRoot := by
    apply eq_of_toNat_eq
    rw [extra, hashBytes, ofBytesBE_bytesBE, toNat_ofNat]
    omega
  simp only [deserialize, updateHeaderWithInfo, hfee, hextra, hdifficulty, h₀, h₈, h₁₆,
    ofBytesBE_word, hroot, mixDigest_flag, if_neg hguard]
  by_cases hold : info.arbOSFormatVersion = arbosVersionCollectTipsOld
  · simp [stored, hold]
  · simp [stored, hold]

/-- **What is read back of the information in a header.**  All of it but the tip flag, which
    is set for the version that always collects tips; and two pieces of information are
    written the same way if and only if they read back the same. -/
theorem deserialize_update (hfee : header.baseFee = some baseFee)
    (hdifficulty : header.difficulty = 1)
    (hguard : ¬ (info.arbOSFormatVersion ≤ 40 ∧ baseFee = 0 ∧
      header.time < legacyZeroBaseFeeUntil)) :
    deserialize legacyZeroBaseFeeUntil (some (info.updateHeaderWithInfo header)) = info.stored ∧
    (deserialize legacyZeroBaseFeeUntil (some (info.updateHeaderWithInfo header)) = info ↔
      (info.arbOSFormatVersion = arbosVersionCollectTipsOld → info.collectTips = true)) ∧
    ∀ info' : HeaderInfo,
      (info.extra = info'.extra ∧ info.mixDigest = info'.mixDigest ↔ info.stored =
        info'.stored) := by
  have hread := deserialize_eq hfee hdifficulty hguard
  refine ⟨hread, ?_, fun info' => ⟨?_, fun h => ?_⟩⟩
  · obtain ⟨sendRoot, sendCount, l1BlockNumber, version, collectTips⟩ := info
    rw [hread]
    simp [stored]
  · rintro ⟨hextra, hmix⟩
    -- a header on which no guard applies
    have hplain : ∀ info : HeaderInfo, deserialize 0 (some (info.updateHeaderWithInfo
        ⟨some 1, [], 1, [], 0⟩)) = info.stored := fun info => deserialize_eq rfl rfl (by simp)
    rw [← hplain, ← hplain, updateHeaderWithInfo, updateHeaderWithInfo, hextra, hmix]
  · obtain ⟨sendRoot, sendCount, l1BlockNumber, version, collectTips⟩ := info
    obtain ⟨sendRoot', sendCount', l1BlockNumber', version', collectTips'⟩ := info'
    simp only [stored, HeaderInfo.mk.injEq, decide_eq_decide] at h
    obtain ⟨rfl, rfl, rfl, rfl, hflag⟩ := h
    refine ⟨rfl, ?_⟩
    by_cases hold : version = arbosVersionCollectTipsOld
    · simp [mixDigest, hold]
    · simp only [hold, or_false] at hflag
      simp [mixDigest, hflag]

theorem deserialize_update_new :
    deserialize 0 (some (updateHeaderWithInfo ⟨1, 2, 3, 51, true⟩ ⟨some 0, [], 1, [], 5⟩)) =
      ⟨1, 2, 3, 51, true⟩ :=
  (deserialize_update rfl rfl (by decide)).2.1.mpr (by decide)

/-- Under ArbOS 9 the flag is not written and reads back as set. -/
theorem deserialize_arbos_nine :
    deserialize 0 (some (updateHeaderWithInfo ⟨1, 2, 3, 9, false⟩ ⟨some 7, [], 1, [], 5⟩)) =
      ⟨1, 2, 3, 9, true⟩ ∧
    mixDigest ⟨1, 2, 3, 9, false⟩ = mixDigest ⟨1, 2, 3, 9, true⟩ ∧
    extra ⟨1, 2, 3, 9, false⟩ = extra ⟨1, 2, 3, 9, true⟩ := by
  decide +kernel

end HeaderInfo

/-! ### The effective tip -/

/-- `SetFromBig`: the low 256 bits, and whether there are more. -/
def setFromBig (b : Int) : U256 × Bool := (BitVec.ofInt 256 b, 2 ^ 256 ≤ b.natAbs)

inductive TipError where
  | uint256Overflow
  | gasFeeCapTooLow
deriving DecidableEq

namespace TxData

/-- `calcEffectiveGasTip`: what is left in `dst`, and the error. -/
def calcEffectiveGasTip (tx : TxData) : Option U256 → U256 × Option TipError
  | none =>
    let (dst, overflow) := setFromBig tx.gasTipCap
    (dst, if overflow then some .uint256Overflow else none)
  | some baseFee =>
    let (dst, overflow) := setFromBig tx.gasFeeCap
    if overflow then (dst, some .uint256Overflow)
    else
      let err := if dst < baseFee then some .gasFeeCapTooLow else none
      let dst := dst - baseFee
      let (gasTipCap, overflow) := setFromBig tx.gasTipCap
      if overflow then (dst, some .uint256Overflow)
      else (if gasTipCap < dst then gasTipCap else dst, err)

/-- `EffectiveGasTip`: a value, if there is one, and an error. -/
def effectiveGasTip (tx : TxData) (baseFee : BigInt) : Option Nat × Option TipError :=
  let (base, overflow) := setFromBig (baseFee.getD 0)
  if overflow then (none, some .uint256Overflow)
  else
    let (dst, err) := tx.calcEffectiveGasTip (some base)
    (some dst.toNat, err)

/-- `EffectiveGasTipCmp`.  The errors are dropped. -/
def effectiveGasTipCmp (tx other : TxData) : Option U256 → Ordering
  | none => compare tx.gasTipCap other.gasTipCap
  | some baseFee => compare (tx.calcEffectiveGasTip (some baseFee)).1.toNat
      (other.calcEffectiveGasTip (some baseFee)).1.toNat

def effectiveGasTipIntCmp (tx : TxData) (other : U256) : Option U256 → Ordering
  | none => compare tx.gasTipCap other.toNat
  | some baseFee => compare (tx.calcEffectiveGasTip (some baseFee)).1.toNat other.toNat

/-- The tip as an integer. -/
def exactTip (tx : TxData) (baseFee : U256) : Int := min tx.gasTipCap (tx.gasFeeCap - baseFee.toNat)

/-- The caps are unsigned 256-bit integers. -/
structure CapsFit (tx : TxData) : Prop where
  tip_nonneg : 0 ≤ tx.gasTipCap
  tip_lt : tx.gasTipCap < 2 ^ 256
  fee_nonneg : 0 ≤ tx.gasFeeCap
  fee_lt : tx.gasFeeCap < 2 ^ 256

theorem setFromBig_eq {b : Int} (h0 : 0 ≤ b) (hlt : b < 2 ^ 256) :
    (setFromBig b).1.toNat = b.toNat ∧ (setFromBig b).2 = false := by
  have hmod : b % 2 ^ 256 = b := Int.emod_eq_of_lt h0 hlt
  refine ⟨?_, decide_eq_false (by omega)⟩
  exact congrArg Int.toNat hmod

variable {tx other : TxData} {baseFee : U256}

/-- The computed tip, with the difference as it wraps. -/
theorem calcEffectiveGasTip_eq (h : tx.CapsFit) :
    (tx.calcEffectiveGasTip (some baseFee)).1.toNat = min tx.gasTipCap.toNat
      (if baseFee.toNat ≤ tx.gasFeeCap then tx.gasFeeCap.toNat - baseFee.toNat
        else 2 ^ 256 + tx.gasFeeCap.toNat - baseFee.toNat) ∧
    (tx.calcEffectiveGasTip (some baseFee)).2 =
      if baseFee.toNat ≤ tx.gasFeeCap then none else some .gasFeeCapTooLow := by
  obtain ⟨htip, htip'⟩ := setFromBig_eq h.tip_nonneg h.tip_lt
  obtain ⟨hfee, hfee'⟩ := setFromBig_eq h.fee_nonneg h.fee_lt
  have hnonneg := h.fee_nonneg
  have hdiff : ((setFromBig tx.gasFeeCap).1 - baseFee).toNat =
      if baseFee.toNat ≤ tx.gasFeeCap then tx.gasFeeCap.toNat - baseFee.toNat
        else 2 ^ 256 + tx.gasFeeCap.toNat - baseFee.toNat := by
    rw [toNat_sub]
    split <;> omega
  simp only [calcEffectiveGasTip, htip', hfee', Bool.false_eq_true, if_false, lt_def]
  constructor
  · split <;> omega
  · split <;> split <;> first | rfl | omega

/-- **When the comparison of tips is exact.**  The computed tip is the integer tip if and only
    if the fee cap is not below the base fee.  So it is with the comparisons, with every value
    and with every other such transaction; and then `EffectiveGasTip` returns the integer. -/
theorem effectiveGasTip_exact (h : tx.CapsFit) (baseFee : U256) :
    (((tx.calcEffectiveGasTip (some baseFee)).1.toNat : Int) = tx.exactTip baseFee ↔
      baseFee.toNat ≤ tx.gasFeeCap) ∧
    ((∀ value : U256, tx.effectiveGasTipIntCmp value (some baseFee) =
        compare (tx.exactTip baseFee) value.toNat) ↔ baseFee.toNat ≤ tx.gasFeeCap) ∧
    ((∀ other : TxData, other.CapsFit → baseFee.toNat ≤ other.gasFeeCap →
        tx.effectiveGasTipCmp other (some baseFee) =
          compare (tx.exactTip baseFee) (other.exactTip baseFee)) ↔
      baseFee.toNat ≤ tx.gasFeeCap) ∧
    (baseFee.toNat ≤ tx.gasFeeCap →
      tx.effectiveGasTip (some baseFee.toNat) = (some (tx.exactTip baseFee).toNat, none)) := by
  have hexact : ∀ {tx : TxData}, tx.CapsFit →
      ((((tx.calcEffectiveGasTip (some baseFee)).1.toNat : Int) = tx.exactTip baseFee) ↔
        baseFee.toNat ≤ tx.gasFeeCap) := by
    intro tx h
    have htip := h.tip_nonneg
    rw [(calcEffectiveGasTip_eq h).1, exactTip]
    split <;> omega
  have hcompare : ∀ a b : Nat, compare a b = compare (a : Int) (b : Int) := fun a b => by
    simp [compare, compareOfLessAndEq]
  -- below the base fee the integer is negative, and the computed tip is not
  have hzero : ∀ n : Nat, compare n 0 = compare (tx.exactTip baseFee) 0 →
      baseFee.toNat ≤ tx.gasFeeCap := by
    intro n hcmp
    by_contra hlt
    have hneg : compare (tx.exactTip baseFee) 0 = .lt := compare_lt_iff_lt.mpr (by
      rw [exactTip]
      omega)
    exact Nat.not_lt_zero n (compare_lt_iff_lt.mp (hcmp.trans hneg))
  refine ⟨hexact h, ⟨fun hall => hzero _ (hall 0), fun hle value => ?_⟩,
    ⟨fun hall => ?_, fun hle other hother hle' => ?_⟩, fun hle => ?_⟩
  · rw [effectiveGasTipIntCmp, hcompare, (hexact h).mpr hle]
  · -- a transaction that offers just the base fee has the tip zero
    obtain ⟨other, hother, hle, htip⟩ : ∃ other : TxData, other.CapsFit ∧
        baseFee.toNat ≤ other.gasFeeCap ∧ other.exactTip baseFee = 0 := by
      have := baseFee.isLt
      refine ⟨.legacy ⟨0, some baseFee.toNat, 0, none, none, [], none, none, none⟩, ?_, le_rfl, ?_⟩
      · constructor <;> simp only [gasTipCap, gasFeeCap, gasPrice, Option.getD_some] <;> omega
      · simp [exactTip, gasTipCap, gasFeeCap, gasPrice]
    have hcalc := (hexact hother).mpr hle
    rw [htip, Nat.cast_eq_zero] at hcalc
    have hcmp := hall other hother hle
    rw [effectiveGasTipCmp, hcalc, htip] at hcmp
    exact hzero _ hcmp
  · rw [effectiveGasTipCmp, hcompare, (hexact h).mpr hle, (hexact hother).mpr hle']
  · have hbase : setFromBig baseFee.toNat = (baseFee, false) := by
      have := setFromBig_eq (b := baseFee.toNat) (by omega) (by have := baseFee.isLt; omega)
      exact Prod.ext (eq_of_toNat_eq this.1) this.2
    rw [← (hexact h).mpr hle]
    simp only [effectiveGasTip, Option.getD_some, hbase, Bool.false_eq_true, if_false,
      Int.toNat_natCast]
    rw [(calcEffectiveGasTip_eq h).2, if_pos hle]

/-- The base fee decides for the first, and the tip cap for the second. -/
theorem effectiveGasTip_exact_two :
    let tx : TxData := .legacy ⟨0, some 7, 0, none, some 0, [], none, none, none⟩
    let other : TxData :=
      .dynamicFee ⟨some 1, 0, some 3, some 9, 0, none, some 0, [], [], none, none, none⟩
    tx.effectiveGasTipCmp other (some 2) = compare 5 3 := by
  intro tx other
  have htx : tx.CapsFit := by constructor <;> decide
  have hother : other.CapsFit := by constructor <;> decide
  exact (effectiveGasTip_exact htx 2).2.2.1.mpr (by decide) other hother (by decide)

/-- Below the base fee the difference wraps and the tip cap wins: the transaction that cannot
    pay the base fee is ranked above the one that can. -/
theorem effectiveGasTip_underpriced :
    let low : TxData := .legacy ⟨0, some 1, 0, none, some 0, [], none, none, none⟩
    let high : TxData := .legacy ⟨0, some 2, 0, none, some 0, [], none, none, none⟩
    low.exactTip 2 = -1 ∧ high.exactTip 2 = 0 ∧ low.effectiveGasTipCmp high (some 2) = .gt ∧
      low.effectiveGasTipIntCmp 1 (some 2) = .eq := by
  decide +kernel

end TxData

end GethArb.Tx
