/-
  **The receipts of a block in the database** (`core/rawdb/accessors_chain.go`:
  `WriteReceipts`, `ReadRawReceipts`, `ReadReceipts`; `core/types/receipt.go`:
  `Receipt.DeriveFields`, `Receipts.DeriveFields`).

  The receipts of a block are stored as one list.  What the storage format leaves out is
  derived again from the block when they are read: gas from the difference of two counters,
  log indices from the logs before, the contract address from sender and nonce.

  `Made` is what execution puts into the fields that are derived.  The only one that may come
  out different is the contract address (`reproduced_iff`): a creation that has no address in
  its receipt gets one when it is read.  And a pre-Nitro receipt with multi-dimensional gas
  makes the receipts of its block unreadable (`readRawReceipts_written`).
-/
import GethArb.StateProcessor

namespace GethArb

open Rlp Tx Multigas GethArb.Core List Rlp.Stream

/-! ### The effective gas price -/

namespace Tx.TxData

/-- The base fee and what is left for the tip. -/
def tipped (gasFeeCap gasTipCap : Int) : BigInt → Int
  | none => gasFeeCap
  | some baseFee => min (gasFeeCap - baseFee) gasTipCap + baseFee

def effectiveGasPrice (baseFee : BigInt) : TxData → Int
  | .legacy tx => tx.gasPrice.getD 0
  | .accessList tx => tx.gasPrice.getD 0
  | .dynamicFee tx => tipped (tx.gasFeeCap.getD 0) (tx.gasTipCap.getD 0) baseFee
  | .blob tx => tipped (Uint256.toBig tx.gasFeeCap) (Uint256.toBig tx.gasTipCap) baseFee
  | .setCode tx => tipped (Uint256.toBig tx.gasFeeCap) (Uint256.toBig tx.gasTipCap) baseFee
  | .arbitrumUnsigned tx => baseFee.getD (tx.gasFeeCap.getD 0)
  | .arbitrumContract tx => baseFee.getD (tx.gasFeeCap.getD 0)
  | .arbitrumRetry tx => baseFee.getD (tx.gasFeeCap.getD 0)
  | .arbitrumSubmitRetryable tx => baseFee.getD (tx.gasFeeCap.getD 0)
  | .arbitrumLegacy tx => tx.legacyTx.gasPrice.getD 0
  | .arbitrumDeposit _ | .arbitrumInternal _ => 0

end Tx.TxData

/-! ### Deriving -/

structure DeriveReceiptContext where
  blockHash : Hash
  blockNumber : U64
  blockTime : U64
  baseFee : BigInt
  blobGasPrice : BigInt
  gasUsed : U64
  logIndex : U64
  tx : Transaction
  txIndex : U64
  collectTips : Bool

/-- The arguments of `Receipts.DeriveFields`, and how signatures are recovered. -/
structure DeriveBlockContext where
  config : SignerConfig
  recovery : Recovery
  blockHash : Hash
  blockNumber : U64
  blockTime : U64
  baseFee : BigInt
  blobGasPrice : BigInt
  collectTips : Bool

def DeriveBlockContext.signer (ctx : DeriveBlockContext) : Signer :=
  makeSigner ctx.config ctx.blockNumber.toNat ctx.blockTime maxArbosVersionSupported

/-- The sender; zero if it cannot be recovered. -/
def senderOrZero (recovery : Recovery) (signer : Signer) (tx : Transaction) : Address :=
  (signer.sender recovery tx.inner).toOption.getD 0

variable {b : Bytes}

section
variable [Crypto]

/-- The contract address of a receipt that is not pre-Nitro. -/
def derivedAddress (recovery : Recovery) (signer : Signer) (tx : Transaction) (addr : Address) :
    Address :=
  match tx.inner.to_ with
  | none =>
    if addr = 0 then createAddress (senderOrZero recovery signer tx) tx.inner.nonce else addr
  | some _ => 0

def Log.derive (context : DeriveReceiptContext) (j : Nat) (log : Log) : Log :=
  { log with
    blockNumber := context.blockNumber
    blockHash := context.blockHash
    blockTimestamp := context.blockTime
    txHash := context.tx.hash
    txIndex := context.txIndex
    index := context.logIndex + BitVec.ofNat 64 j }

/-- `Receipt.DeriveFields`. -/
def Receipt.deriveFields (recovery : Recovery) (signer : Signer) (context : DeriveReceiptContext)
    (r : Receipt) : Receipt :=
  let type := context.tx.inner.txType
  let logs := r.logs.mapIdx (Log.derive context)
  { r with
    type := type
    txHash := context.tx.hash
    gasUsed := if type ≠ arbitrumLegacyTxType then context.gasUsed else r.gasUsed
    effectiveGasPrice :=
      if context.collectTips then some (context.tx.inner.effectiveGasPrice context.baseFee)
      else context.baseFee
    blobGasUsed := match context.tx.inner with
      | .blob inner => BitVec.ofNat 64 (inner.blobHashes.length * blobTxBlobGasPerBlob)
      | _ => r.blobGasUsed
    blobGasPrice := match context.tx.inner with
      | .blob _ => context.blobGasPrice
      | _ => r.blobGasPrice
    blockHash := context.blockHash
    blockNumber := some context.blockNumber.toNat
    transactionIndex := context.txIndex
    contractAddress :=
      if type ≠ arbitrumLegacyTxType then
        derivedAddress recovery signer context.tx r.contractAddress
      else r.contractAddress
    logs := logs
    bloom := createBloom logs }

namespace Receipts

/-- The context of the `i`-th receipt, with the counters of those before it. -/
def context (ctx : DeriveBlockContext) (i : Nat) (logIndex prevGas : U64) (tx : Transaction)
    (cumulativeGasUsed : U64) : DeriveReceiptContext where
  blockHash := ctx.blockHash
  blockNumber := ctx.blockNumber
  blockTime := ctx.blockTime
  baseFee := ctx.baseFee
  blobGasPrice := ctx.blobGasPrice
  gasUsed := cumulativeGasUsed - prevGas
  logIndex := logIndex
  tx := tx
  txIndex := BitVec.ofNat 64 i
  collectTips := ctx.collectTips

/-- The loop of `Receipts.DeriveFields`, from the `i`-th receipt on. -/
def deriveFrom (ctx : DeriveBlockContext) :
    Nat → U64 → U64 → List Transaction → List Receipt → List Receipt
  | i, logIndex, prevGas, tx :: txs, r :: rs =>
    r.deriveFields ctx.recovery ctx.signer
      (context ctx i logIndex prevGas tx r.cumulativeGasUsed) ::
      deriveFrom ctx (i + 1) (logIndex + BitVec.ofNat 64 r.logs.length) r.cumulativeGasUsed txs rs
  | _, _, _, _, _ => []

/-- `Receipts.DeriveFields`; `none` for the error of different lengths. -/
def deriveFields (ctx : DeriveBlockContext) (txs : List Transaction) (rs : List Receipt) :
    Option (List Receipt) :=
  if txs.length ≠ rs.length then none else some (deriveFrom ctx 0 0 0 txs rs)

/-! ### Storing -/

open ReceiptForStorage

def writeElems : List Receipt → Except Error Bytes
  | [] => .ok []
  | r :: rs => do
    let b ← encodeRLP r
    let bs ← writeElems rs
    .ok (b ++ bs)

/-- `WriteReceipts`: the value that is put into the database. -/
def writeReceipts (rs : List Receipt) : Except Error Bytes := do
  let content ← writeElems rs
  .ok (encodeList content)

/-- The elements of a list of stored receipts, until the list ends. -/
def decodeElems : Nat → Stream → Except ReceiptError (List Receipt × Stream)
  | 0, _ => .error (.rlp .unexpectedEOF)
  | fuel + 1, s =>
    match decodeRLP {} s with
    | .error (.rlp .eol) => .ok ([], s)
    | .error err => .error err
    | .ok (r, s) => do
      let (rs, s) ← decodeElems fuel s
      .ok (r :: rs, s)

/-- `rlp.DecodeBytes` into a slice of stored receipts. -/
def decodeReceipts (data : Bytes) : Except ReceiptError (List Receipt) := do
  let (size, s) ← (list ⟨data, decide (data.length > 0), []⟩).mapError .rlp
  let (rs, s) ← if size = 0 then .ok ([], s) else decodeElems (s.input.length + 1) s
  let s ← s.listEnd.mapError .rlp
  if s.input.length > 0 then .error (.rlp .moreThanOneValue) else .ok rs

/-- `ReadRawReceipts`; `none` is the nil slice. -/
def readRawReceipts (data : Bytes) : Option (List Receipt) :=
  if data.length = 0 then none else (decodeReceipts data).toOption

/-- `ReadReceipts`, of a block whose header and body are there. -/
def readReceipts (ctx : DeriveBlockContext) (txs : List Transaction) (data : Bytes) :
    Option (List Receipt) :=
  (readRawReceipts data).bind (deriveFields ctx txs)

/-! ### Reading what was written -/

/-- A pre-Nitro receipt has no place for multi-dimensional gas. -/
def NoExtraGas (r : Receipt) : Prop := r.type = arbitrumLegacyTxType → r.multiGasUsed.isZero

instance (r : Receipt) : Decidable (NoExtraGas r) := inferInstanceAs (Decidable (_ → _))

section
variable {r : Receipt} {rs : List Receipt}

theorem decodeRLP_written (h : encodeRLP r = .ok b) (hlen : b.length < 2 ^ 64)
    (hwf : r.WellFormed) {s : Stream} (hfits : s.Fits b.length) :
    decodeRLP {} (s.push b) =
      if NoExtraGas r then .ok (readBack r, s) else .error (.rlp .notAtEOL) := by
  by_cases hty : r.type = arbitrumLegacyTxType
  · rw [decodeRLP_preNitro_eq h hlen hty hfits]
    simp [NoExtraGas, hty]
  · rw [decodeRLP_stored_eq h hlen hty hwf hfits]
    exact (if_pos fun hlegacy => absurd hlegacy hty).symm

theorem decodeElems_push (s : Stream) (rs : List Receipt) {content : Bytes} {fuel : Nat}
    (h : writeElems rs = .ok content) (hfuel : content.length < fuel)
    (hlen : content.length < 2 ^ 64) (hwf : ∀ r ∈ rs, r.WellFormed) :
    decodeElems fuel (s.inList.push content) =
      if ∀ r ∈ rs, NoExtraGas r then .ok (rs.map readBack, s.inList)
      else .error (.rlp .notAtEOL) := by
  induction rs generalizing content fuel with
  | nil =>
    cases h
    obtain ⟨fuel, rfl⟩ := Nat.exists_eq_succ_of_ne_zero (Nat.ne_of_gt hfuel)
    rw [decodeElems]
    rfl
  | cons r rs ih =>
    obtain ⟨b, hb, h⟩ := bind_eq_ok.mp h
    obtain ⟨bs, hbs, h⟩ := bind_eq_ok.mp h
    cases h
    obtain ⟨fuel, rfl⟩ := Nat.exists_eq_succ_of_ne_zero (Nat.ne_zero_of_lt hfuel)
    have hpos : 0 < b.length := by
      obtain ⟨content, rfl⟩ := encodeRLP_list hb
      exact length_pos_iff.mpr (encodeList_ne_nil content)
    rw [length_append] at hfuel hlen
    have hfits : (s.inList.push bs).Fits b.length := (fits_inList (by omega) s).push
    have hrest := @ih bs fuel hbs (by omega) (by omega) fun r hr =>
      hwf r (mem_cons_of_mem _ hr)
    rw [push_append, decodeElems, decodeRLP_written hb (by omega) (hwf r mem_cons_self) hfits]
    by_cases hr : NoExtraGas r
    · simp only [if_pos hr, hrest, bind, Except.bind]
      by_cases hrs : ∀ r ∈ rs, NoExtraGas r
      · rw [if_pos hrs, if_pos (forall_mem_cons.mpr ⟨hr, hrs⟩)]
        rfl
      · rw [if_neg hrs, if_neg fun hall => hrs (forall_mem_cons.mp hall).2]
    · rw [if_neg hr, if_neg fun hall => hr (forall_mem_cons.mp hall).1]

omit [Crypto] in
theorem writeReceipts_ok (rs : List Receipt) : ∃ b, writeReceipts rs = .ok b := by
  have helems : ∃ content, writeElems rs = .ok content := by
    induction rs with
    | nil => exact ⟨[], rfl⟩
    | cons r rs ih =>
      obtain ⟨content, hcontent⟩ := ih
      obtain ⟨b, hb⟩ := encodeRLP_ok r
      refine ⟨b ++ content, ?_⟩
      simp [writeElems, hb, hcontent]
  obtain ⟨content, hcontent⟩ := helems
  refine ⟨encodeList content, ?_⟩
  simp [writeReceipts, hcontent]

omit [Crypto] in
theorem nil_of_writeElems_nil (h : writeElems rs = .ok []) : rs = [] := by
  cases rs with
  | nil => rfl
  | cons r rs =>
    obtain ⟨b, hb, h⟩ := bind_eq_ok.mp h
    obtain ⟨bs, -, h⟩ := bind_eq_ok.mp h
    obtain ⟨content, rfl⟩ := encodeRLP_list hb
    have hnil : encodeList content ++ bs = [] := Except.ok.inj h
    exact absurd (append_eq_nil_iff.mp hnil).1 (encodeList_ne_nil content)

theorem decodeReceipts_written (h : writeReceipts rs = .ok b) (hlen : b.length < 2 ^ 64)
    (hwf : ∀ r ∈ rs, r.WellFormed) :
    decodeReceipts b =
      if ∀ r ∈ rs, NoExtraGas r then .ok (rs.map readBack) else .error (.rlp .notAtEOL) := by
  obtain ⟨content, hcontent, h⟩ := bind_eq_ok.mp h
  cases h
  have hshort := length_lt_of_encodeList hlen
  set outer : Stream := ⟨[], decide ((encodeList content).length > 0), []⟩ with houter
  have hlist := list_push hshort (fits_of_stack_nil (s := outer) rfl _)
  rw [houter, push_whole] at hlist
  simp only [decodeReceipts, hlist, Except.mapError, bind, Except.bind]
  by_cases hzero : content.length = 0
  · have hnil : content = [] := length_eq_zero_iff.mp hzero
    subst hnil
    obtain rfl := nil_of_writeElems_nil hcontent
    simp
  have hfuel : content.length < (outer.inList.push content).input.length + 1 := by
    rw [length_push]
    omega
  rw [if_neg hzero, decodeElems_push outer rs hcontent hfuel hshort hwf]
  by_cases hall : ∀ r ∈ rs, NoExtraGas r
  · simp only [if_pos hall]
    rfl
  · simp only [if_neg hall]

/-- The receipts of a block are read together or not at all. -/
theorem readRawReceipts_written (h : writeReceipts rs = .ok b) (hlen : b.length < 2 ^ 64)
    (hwf : ∀ r ∈ rs, r.WellFormed) :
    readRawReceipts b =
      if ∀ r ∈ rs, NoExtraGas r then some (rs.map readBack) else none := by
  have hne : b.length ≠ 0 := by
    obtain ⟨content, -, h⟩ := bind_eq_ok.mp h
    cases h
    exact length_pos_iff.mpr (encodeList_ne_nil content) |>.ne'
  rw [readRawReceipts, if_neg hne, decodeReceipts_written h hlen hwf]
  split
  · rfl
  · rfl

end

/-! ### Deriving what was made -/

/-- What execution puts into the `i`-th receipt of a block, with `n` logs and `prev` gas
    before it. -/
structure Made (ctx : DeriveBlockContext) (i : Nat) (n prev : U64) (tx : Transaction)
    (r : Receipt) : Prop where
  type : r.type = tx.inner.txType
  txHash : r.txHash = tx.hash
  cumulativeGasUsed : r.cumulativeGasUsed = prev + r.gasUsed
  bloom : r.bloom = createBloom r.logs
  blockHash : r.blockHash = ctx.blockHash
  blockNumber : r.blockNumber = some ctx.blockNumber.toNat
  transactionIndex : r.transactionIndex = BitVec.ofNat 64 i
  logs : StateDB.Follows tx.hash (BitVec.ofNat 64 i) n r.logs
  wellFormed : r.WellFormed

/-- What is to come out as it went in. -/
structure Reproduced (r r' : Receipt) : Prop where
  type : r'.type = r.type
  txHash : r'.txHash = r.txHash
  gasUsed : r'.gasUsed = r.gasUsed
  contractAddress : r'.contractAddress = r.contractAddress
  bloom : r'.bloom = r.bloom
  blockHash : r'.blockHash = r.blockHash
  blockNumber : r'.blockNumber = r.blockNumber
  transactionIndex : r'.transactionIndex = r.transactionIndex
  logs : Forall₂ (fun log log' : Log =>
    log'.index = log.index ∧ log'.txIndex = log.txIndex ∧ log'.txHash = log.txHash) r.logs r'.logs

/-- The contract address is derived as it was made. -/
def AddressDerivable (ctx : DeriveBlockContext) (tx : Transaction) (r : Receipt) : Prop :=
  r.type ≠ arbitrumLegacyTxType →
    derivedAddress ctx.recovery ctx.signer tx (tailAddress r) = r.contractAddress

section
variable {ctx : DeriveBlockContext} {i : Nat} {n prev : U64} {tx : Transaction} {r : Receipt}

omit [Crypto] in
/-- The types of Ethereum check nonces. -/
theorem skipChecks_of_ethereum (h : tx.inner.txType < arbitrumDepositTxType) :
    tx.inner.skipChecks = false := by
  obtain ⟨inner⟩ := tx
  cases inner <;> first | rfl | (simp only [TxData.txType] at h; exact absurd h (by decide))

/-- The address of a creation is stored, or derived from sender and nonce. -/
theorem derivedAddress_creation (hto : tx.inner.to_ = none) :
    derivedAddress ctx.recovery ctx.signer tx (tailAddress r) =
      if writesAddress r then r.contractAddress
      else createAddress (senderOrZero ctx.recovery ctx.signer tx) tx.inner.nonce := by
  unfold derivedAddress tailAddress
  rw [hto]
  by_cases hstored : writesAddress r
  · have hzero : r.contractAddress ≠ 0 := (of_decide_eq_true hstored).2.2
    simp only [if_pos hstored, if_neg hzero]
  · simp [hstored]

/-! #### The fields that are kept -/

@[simp] theorem readBack_logs (r : Receipt) : (readBack r).logs = r.logs.map Log.consensus := by
  unfold readBack
  split <;> rfl

@[simp] theorem readBack_cumulativeGasUsed (r : Receipt) :
    (readBack r).cumulativeGasUsed = r.cumulativeGasUsed := by
  unfold readBack
  split <;> rfl

theorem readBack_contractAddress (r : Receipt) : (readBack r).contractAddress =
    if r.type ≠ arbitrumLegacyTxType then tailAddress r else r.contractAddress := by
  unfold readBack
  by_cases h : r.type = arbitrumLegacyTxType
  · simp [h]
  · simp [h]

/-- A bloom filter looks at addresses and topics. -/
theorem createBloom_congr {logs logs' : List Log} (h : Forall₂ (fun log log' : Log =>
    log'.address = log.address ∧ log'.topics = log.topics) logs logs') :
    createBloom logs' = createBloom logs := by
  unfold createBloom
  generalize (0 : Bloom) = bin
  induction h generalizing bin with
  | nil => rfl
  | cons hlog _ ih =>
    simp only [foldl_cons, hlog.1, hlog.2]
    exact ih _

omit [Crypto] in
/-- What holds of each log and the one derived from it. -/
theorem forall₂_derived [Crypto] {R : Log → Log → Prop} {context : DeriveReceiptContext}
    {logs : List Log}
    (h : ∀ k log, logs[k]? = some log → R log (log.consensus.derive context k)) :
    Forall₂ R logs ((logs.map Log.consensus).mapIdx (Log.derive context)) := by
  rw [forall₂_iff_get]
  refine ⟨by simp, ?_⟩
  intro k hk hk'
  have hlog := h k _ (getElem?_eq_getElem hk)
  simpa using hlog

/-- **A receipt that is read and derived again.**  Only the contract address may come out
    different. -/
theorem reproduced_iff (hmade : Made ctx i n prev tx r) :
    Reproduced r ((readBack r).deriveFields ctx.recovery ctx.signer
      (context ctx i n prev tx r.cumulativeGasUsed)) ↔ AddressDerivable ctx tx r := by
  have haddress : ((readBack r).deriveFields ctx.recovery ctx.signer
      (context ctx i n prev tx r.cumulativeGasUsed)).contractAddress = r.contractAddress ↔
        AddressDerivable ctx tx r := by
    simp only [Receipt.deriveFields, context, ← hmade.type, readBack_contractAddress]
    by_cases hty : r.type = arbitrumLegacyTxType
    · simp [hty, AddressDerivable]
    · simp [hty, AddressDerivable]
  constructor
  · intro h
    exact haddress.mp h.contractAddress
  · intro h
    refine
      { type := hmade.type.symm
        txHash := hmade.txHash.symm
        gasUsed := ?_
        contractAddress := haddress.mpr h
        bloom := ?_
        blockHash := hmade.blockHash.symm
        blockNumber := hmade.blockNumber.symm
        transactionIndex := hmade.transactionIndex.symm
        logs := ?_ }
    · simp only [Receipt.deriveFields, context, ← hmade.type]
      by_cases hty : r.type = arbitrumLegacyTxType
      · simp [hty, readBack]
      · simp only [ne_eq, hty, not_false_eq_true, if_true, hmade.cumulativeGasUsed]
        rw [BitVec.add_comm, BitVec.add_sub_cancel]
    · rw [hmade.bloom]
      simp only [Receipt.deriveFields, readBack_logs]
      exact createBloom_congr (forall₂_derived fun _ _ _ => ⟨rfl, rfl⟩)
    · simp only [Receipt.deriveFields, readBack_logs]
      apply forall₂_derived
      intro k log hlog
      obtain ⟨hhash, hindex, hnumber⟩ := hmade.logs k log hlog
      exact ⟨hnumber.symm, hindex.symm, hhash.symm⟩

/-! #### All receipts of a block -/

/-- The receipts of a block from the `i`-th on. -/
inductive MadeFrom (ctx : DeriveBlockContext) :
    Nat → U64 → U64 → List Transaction → List Receipt → Prop where
  | nil (i : Nat) (n prev : U64) : MadeFrom ctx i n prev [] []
  | cons {i : Nat} {n prev : U64} {tx : Transaction} {r : Receipt} {txs : List Transaction}
      {rs : List Receipt} (h : Made ctx i n prev tx r)
      (rest : MadeFrom ctx (i + 1) (n + BitVec.ofNat 64 r.logs.length) r.cumulativeGasUsed txs rs) :
      MadeFrom ctx i n prev (tx :: txs) (r :: rs)

variable {txs : List Transaction} {rs : List Receipt}

variable (h : MadeFrom ctx i n prev txs rs)
include h

theorem MadeFrom.length_eq : txs.length = rs.length := by
  induction h with
  | nil => rfl
  | cons _ _ ih => rw [length_cons, length_cons, ih]

theorem MadeFrom.wellFormed : ∀ r ∈ rs, r.WellFormed := by
  induction h with
  | nil => simp
  | cons h _ ih => exact forall_mem_cons.mpr ⟨h.wellFormed, ih⟩

theorem MadeFrom.reproduced_iff :
    Forall₂ Reproduced rs (deriveFrom ctx i n prev txs (rs.map readBack)) ↔
      Forall₂ (AddressDerivable ctx) txs rs := by
  induction h with
  | nil => simp [deriveFrom]
  | cons h _ ih =>
    simp [deriveFrom, forall₂_cons, Receipts.reproduced_iff h, ih]

omit h

/-- **The receipts of a block in the database.**  What was stored is read and derived as it was
    made exactly if no pre-Nitro receipt has multi-dimensional gas and the contract addresses
    are. -/
theorem readReceipts_iff (h : MadeFrom ctx 0 0 0 txs rs) (hb : writeReceipts rs = .ok b)
    (hlen : b.length < 2 ^ 64) :
    (∃ rs', readReceipts ctx txs b = some rs' ∧ Forall₂ Reproduced rs rs') ↔
      (∀ r ∈ rs, NoExtraGas r) ∧ Forall₂ (AddressDerivable ctx) txs rs := by
  rw [readReceipts, readRawReceipts_written hb hlen h.wellFormed, ← h.reproduced_iff]
  have hlength : txs.length = (rs.map readBack).length := by
    rw [length_map]
    exact h.length_eq
  by_cases hgas : ∀ r ∈ rs, NoExtraGas r
  · rw [if_pos hgas, Option.bind_some, deriveFields, if_neg (not_not.mpr hlength)]
    constructor
    · rintro ⟨rs', hread, hrs⟩
      cases hread
      exact ⟨hgas, hrs⟩
    · rintro ⟨-, hrs⟩
      exact ⟨_, rfl, hrs⟩
  · rw [if_neg hgas]
    constructor
    · rintro ⟨rs', hnone, -⟩
      cases hnone
    · rintro ⟨hall, -⟩
      exact absurd hall hgas

end

end Receipts

end

end GethArb
