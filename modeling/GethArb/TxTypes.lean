/-
  **The payloads of the transaction types** (`core/types/tx_legacy.go`,
  `tx_access_list.go`, `tx_dynamic_fee.go`, `tx_blob.go`, `tx_setcode.go`, `arb_types.go`,
  `arbitrum_legacy_tx.go`) and their RLP encodings.

  An integer of type `*big.Int` or `*uint256.Int` may be nil; a nil integer is written as
  zero.  `zeroed` is what a payload reads back as: the nil integers are zeros, everything
  else is kept.  `InRange` says that the big integers lie in `[0, 2 ^ 256)`.  Slices are
  lists, so a nil slice and an empty one are the same.

  For each payload, `info` is the pair of functions the RLP package generates for the
  struct, and `lawful` says that what was written is read back and that nothing else is
  accepted.  Only `ArbitrumLegacyTxData` has none: its last field is optional and may be nil.
-/
import GethArb.RlpTypes

namespace GethArb.Tx

open Rlp TypeInfo Fields

/-- `*big.Int`. -/
abbrev BigInt := Option Int

/-- `*uint256.Int`. -/
abbrev Uint256 := Option U256

/-- A big integer of at most 256 bits that is not negative. -/
def InRange (i : BigInt) : Prop := ∀ j ∈ i, 0 ≤ j ∧ j < 2 ^ 256

theorem InRange.nonNeg {i : BigInt} (h : InRange i) : NonNeg i := by
  intro j hj
  exact (h j hj).1

/-! ### Access lists and authorizations -/

structure AccessTuple where
  address : Address
  storageKeys : List Hash
deriving DecidableEq, Repr

def AccessTuple.info : TypeInfo AccessTuple :=
  (struct (.cons .address (.last (.slice .hash)))).view
    (fun tuple => (tuple.address, tuple.storageKeys))
    (fun (address, storageKeys) => ⟨address, storageKeys⟩)

abbrev AccessList := List AccessTuple

def accessList : TypeInfo AccessList := .slice AccessTuple.info

instance : AccessTuple.info.Lawful (fun _ => True) id :=
  lawful_view (fun _ => rfl) (fun _ _ => ⟨trivial, trivial⟩) fun _ => rfl

instance : accessList.Lawful (fun _ => True) id :=
  inferInstanceAs (AccessTuple.info.slice.Lawful (fun _ => True) id)

structure SetCodeAuthorization where
  chainID : U256
  address : Address
  nonce : U64
  v : BitVec 8
  r : U256
  s : U256
deriving DecidableEq, Repr

def SetCodeAuthorization.info : TypeInfo SetCodeAuthorization :=
  (struct (.cons .u256 (.cons .address (.cons .uint64 (.cons .uint8 (.cons .u256
    (.last .u256))))))).view
    (fun a => (a.chainID, a.address, a.nonce, a.v, a.r, a.s))
    (fun (chainID, address, nonce, v, r, s) => ⟨chainID, address, nonce, v, r, s⟩)

instance : SetCodeAuthorization.info.Lawful (fun _ => True) id :=
  lawful_view (fun _ => rfl) (fun _ _ => by simp) fun _ => rfl

/-! ### The Ethereum types -/

/-- The transactions of type zero. -/
structure LegacyTx where
  nonce : U64
  gasPrice : BigInt
  gas : U64
  to_ : Option Address
  value : BigInt
  data : Bytes
  v : BigInt
  r : BigInt
  s : BigInt
deriving DecidableEq, Repr

namespace LegacyTx

def info : TypeInfo LegacyTx :=
  (struct <| cons uint64 <| cons bigIntPtr <| cons uint64 <| cons addressPtr <| cons bigIntPtr <|
      cons bytes <| cons bigIntPtr <| cons bigIntPtr <| last bigIntPtr).view
    (fun tx => (tx.nonce, tx.gasPrice, tx.gas, tx.to_, tx.value, tx.data, tx.v, tx.r, tx.s))
    (fun (nonce, gasPrice, gas, to_, value, data, v, r, s) => ⟨nonce, gasPrice, gas, to_, value,
      data, v, r, s⟩)

structure InRange (tx : LegacyTx) : Prop where
  gasPrice : Tx.InRange tx.gasPrice
  value : Tx.InRange tx.value
  v : Tx.InRange tx.v
  r : Tx.InRange tx.r
  s : Tx.InRange tx.s

def zeroed (tx : LegacyTx) : LegacyTx :=
  { tx with
    gasPrice := orZero tx.gasPrice
    value := orZero tx.value
    v := orZero tx.v
    r := orZero tx.r
    s := orZero tx.s }

instance lawful : info.Lawful InRange zeroed :=
  lawful_view (fun _ => rfl) (fun _ h => ⟨trivial, h.gasPrice.nonNeg, trivial,
    trivial, h.value.nonNeg, trivial, h.v.nonNeg, h.r.nonNeg, h.s.nonNeg⟩) fun _ => rfl

end LegacyTx

structure AccessListTx where
  chainID : BigInt
  nonce : U64
  gasPrice : BigInt
  gas : U64
  to_ : Option Address
  value : BigInt
  data : Bytes
  accessList : AccessList
  v : BigInt
  r : BigInt
  s : BigInt
deriving DecidableEq, Repr

namespace AccessListTx

def info : TypeInfo AccessListTx :=
  (struct <| cons bigIntPtr <| cons uint64 <| cons bigIntPtr <| cons uint64 <| cons addressPtr <|
      cons bigIntPtr <| cons bytes <| cons Tx.accessList <| cons bigIntPtr <| cons bigIntPtr <|
      last bigIntPtr).view
    (fun tx => (tx.chainID, tx.nonce, tx.gasPrice, tx.gas, tx.to_, tx.value, tx.data, tx.accessList,
      tx.v, tx.r, tx.s))
    (fun (chainID, nonce, gasPrice, gas, to_, value, data, accessList, v, r, s) => ⟨chainID, nonce,
      gasPrice, gas, to_, value, data, accessList, v, r, s⟩)

structure InRange (tx : AccessListTx) : Prop where
  chainID : Tx.InRange tx.chainID
  gasPrice : Tx.InRange tx.gasPrice
  value : Tx.InRange tx.value
  v : Tx.InRange tx.v
  r : Tx.InRange tx.r
  s : Tx.InRange tx.s

def zeroed (tx : AccessListTx) : AccessListTx :=
  { tx with
    chainID := orZero tx.chainID
    gasPrice := orZero tx.gasPrice
    value := orZero tx.value
    v := orZero tx.v
    r := orZero tx.r
    s := orZero tx.s }

instance lawful : info.Lawful InRange zeroed :=
  lawful_view (fun _ => rfl) (fun _ h => ⟨h.chainID.nonNeg, trivial,
    h.gasPrice.nonNeg, trivial, trivial, h.value.nonNeg, trivial, trivial, h.v.nonNeg, h.r.nonNeg,
    h.s.nonNeg⟩) fun _ => rfl

end AccessListTx

structure DynamicFeeTx where
  chainID : BigInt
  nonce : U64
  gasTipCap : BigInt
  gasFeeCap : BigInt
  gas : U64
  to_ : Option Address
  value : BigInt
  data : Bytes
  accessList : AccessList
  v : BigInt
  r : BigInt
  s : BigInt
deriving DecidableEq, Repr

namespace DynamicFeeTx

def info : TypeInfo DynamicFeeTx :=
  (struct <| cons bigIntPtr <| cons uint64 <| cons bigIntPtr <| cons bigIntPtr <| cons uint64 <|
      cons addressPtr <| cons bigIntPtr <| cons bytes <| cons Tx.accessList <| cons bigIntPtr <|
      cons bigIntPtr <| last bigIntPtr).view
    (fun tx => (tx.chainID, tx.nonce, tx.gasTipCap, tx.gasFeeCap, tx.gas, tx.to_, tx.value, tx.data,
      tx.accessList, tx.v, tx.r, tx.s))
    (fun (chainID, nonce, gasTipCap, gasFeeCap, gas, to_, value, data, accessList, v, r, s) =>
      ⟨chainID, nonce, gasTipCap, gasFeeCap, gas, to_, value, data, accessList, v, r, s⟩)

structure InRange (tx : DynamicFeeTx) : Prop where
  chainID : Tx.InRange tx.chainID
  gasTipCap : Tx.InRange tx.gasTipCap
  gasFeeCap : Tx.InRange tx.gasFeeCap
  value : Tx.InRange tx.value
  v : Tx.InRange tx.v
  r : Tx.InRange tx.r
  s : Tx.InRange tx.s

def zeroed (tx : DynamicFeeTx) : DynamicFeeTx :=
  { tx with
    chainID := orZero tx.chainID
    gasTipCap := orZero tx.gasTipCap
    gasFeeCap := orZero tx.gasFeeCap
    value := orZero tx.value
    v := orZero tx.v
    r := orZero tx.r
    s := orZero tx.s }

instance lawful : info.Lawful InRange zeroed :=
  lawful_view (fun _ => rfl) (fun _ h => ⟨h.chainID.nonNeg, trivial,
    h.gasTipCap.nonNeg, h.gasFeeCap.nonNeg, trivial, trivial, h.value.nonNeg, trivial, trivial,
    h.v.nonNeg, h.r.nonNeg, h.s.nonNeg⟩) fun _ => rfl

end DynamicFeeTx

structure SetCodeTx where
  chainID : Uint256
  nonce : U64
  gasTipCap : Uint256
  gasFeeCap : Uint256
  gas : U64
  to_ : Address
  value : Uint256
  data : Bytes
  accessList : AccessList
  authList : List SetCodeAuthorization
  v : Uint256
  r : Uint256
  s : Uint256
deriving DecidableEq, Repr

namespace SetCodeTx

def info : TypeInfo SetCodeTx :=
  (struct <| cons u256Ptr <| cons uint64 <| cons u256Ptr <| cons u256Ptr <| cons uint64 <|
      cons address <| cons u256Ptr <| cons bytes <| cons Tx.accessList <|
      cons (slice SetCodeAuthorization.info) <| cons u256Ptr <| cons u256Ptr <| last u256Ptr).view
    (fun tx => (tx.chainID, tx.nonce, tx.gasTipCap, tx.gasFeeCap, tx.gas, tx.to_, tx.value, tx.data,
      tx.accessList, tx.authList, tx.v, tx.r, tx.s))
    (fun (chainID, nonce, gasTipCap, gasFeeCap, gas, to_, value, data, accessList, authList, v, r,
      s) => ⟨chainID, nonce, gasTipCap, gasFeeCap, gas, to_, value, data, accessList, authList, v,
      r, s⟩)

def zeroed (tx : SetCodeTx) : SetCodeTx :=
  { tx with
    chainID := orZero tx.chainID
    gasTipCap := orZero tx.gasTipCap
    gasFeeCap := orZero tx.gasFeeCap
    value := orZero tx.value
    v := orZero tx.v
    r := orZero tx.r
    s := orZero tx.s }

instance lawful : info.Lawful (fun _ => True) zeroed :=
  lawful_view (fun _ => rfl) (fun _ _ => by simp) fun _ => rfl

end SetCodeTx

/-! ### Blob transactions -/

/-- `kzg4844.Blob`. -/
abbrev Blob := BitVec (8 * 131072)

/-- `kzg4844.Commitment` and `kzg4844.Proof`. -/
abbrev KzgPoint := BitVec (8 * 48)

structure BlobTxSidecar where
  version : BitVec 8
  blobs : List Blob
  commitments : List KzgPoint
  proofs : List KzgPoint
deriving DecidableEq, Repr

/-- The sidecar is not part of the struct's encoding (tag `-`). -/
structure BlobTx where
  chainID : Uint256
  nonce : U64
  gasTipCap : Uint256
  gasFeeCap : Uint256
  gas : U64
  to_ : Address
  value : Uint256
  data : Bytes
  accessList : AccessList
  blobFeeCap : Uint256
  blobHashes : List Hash
  v : Uint256
  r : Uint256
  s : Uint256
  sidecar : Option BlobTxSidecar
deriving DecidableEq, Repr

namespace BlobTx

def info : TypeInfo BlobTx :=
  (struct <| cons u256Ptr <| cons uint64 <| cons u256Ptr <| cons u256Ptr <| cons uint64 <|
      cons address <| cons u256Ptr <| cons bytes <| cons Tx.accessList <| cons u256Ptr <|
      cons (slice hash) <| cons u256Ptr <| cons u256Ptr <| last u256Ptr).view
    (fun tx => (tx.chainID, tx.nonce, tx.gasTipCap, tx.gasFeeCap, tx.gas, tx.to_, tx.value, tx.data,
      tx.accessList, tx.blobFeeCap, tx.blobHashes, tx.v, tx.r, tx.s))
    (fun (chainID, nonce, gasTipCap, gasFeeCap, gas, to_, value, data, accessList, blobFeeCap,
      blobHashes, v, r, s) => ⟨chainID, nonce, gasTipCap, gasFeeCap, gas, to_, value, data,
      accessList, blobFeeCap, blobHashes, v, r, s, none⟩)

def zeroed (tx : BlobTx) : BlobTx :=
  { tx with
    chainID := orZero tx.chainID
    gasTipCap := orZero tx.gasTipCap
    gasFeeCap := orZero tx.gasFeeCap
    value := orZero tx.value
    blobFeeCap := orZero tx.blobFeeCap
    v := orZero tx.v
    r := orZero tx.r
    s := orZero tx.s
    sidecar := none }

instance lawful : info.Lawful (fun _ => True) zeroed :=
  lawful_view (fun _ => rfl) (fun _ _ => by simp) fun _ => rfl

end BlobTx

/-! ### The Arbitrum types -/

structure ArbitrumUnsignedTx where
  chainId : BigInt
  from_ : Address
  nonce : U64
  gasFeeCap : BigInt
  gas : U64
  to_ : Option Address
  value : BigInt
  data : Bytes
deriving DecidableEq, Repr

namespace ArbitrumUnsignedTx

def info : TypeInfo ArbitrumUnsignedTx :=
  (struct <| cons bigIntPtr <| cons address <| cons uint64 <| cons bigIntPtr <| cons uint64 <|
      cons addressPtr <| cons bigIntPtr <| last bytes).view
    (fun tx => (tx.chainId, tx.from_, tx.nonce, tx.gasFeeCap, tx.gas, tx.to_, tx.value, tx.data))
    (fun (chainId, from_, nonce, gasFeeCap, gas, to_, value, data) => ⟨chainId, from_, nonce,
      gasFeeCap, gas, to_, value, data⟩)

structure InRange (tx : ArbitrumUnsignedTx) : Prop where
  chainId : Tx.InRange tx.chainId
  gasFeeCap : Tx.InRange tx.gasFeeCap
  value : Tx.InRange tx.value

def zeroed (tx : ArbitrumUnsignedTx) : ArbitrumUnsignedTx :=
  { tx with
    chainId := orZero tx.chainId
    gasFeeCap := orZero tx.gasFeeCap
    value := orZero tx.value }

instance lawful : info.Lawful InRange zeroed :=
  lawful_view (fun _ => rfl) (fun _ h => ⟨h.chainId.nonNeg, trivial, trivial,
    h.gasFeeCap.nonNeg, trivial, trivial, h.value.nonNeg, trivial⟩) fun _ => rfl

end ArbitrumUnsignedTx

structure ArbitrumContractTx where
  chainId : BigInt
  requestId : Hash
  from_ : Address
  gasFeeCap : BigInt
  gas : U64
  to_ : Option Address
  value : BigInt
  data : Bytes
deriving DecidableEq, Repr

namespace ArbitrumContractTx

def info : TypeInfo ArbitrumContractTx :=
  (struct <| cons bigIntPtr <| cons hash <| cons address <| cons bigIntPtr <| cons uint64 <|
      cons addressPtr <| cons bigIntPtr <| last bytes).view
    (fun tx => (tx.chainId, tx.requestId, tx.from_, tx.gasFeeCap, tx.gas, tx.to_, tx.value,
      tx.data))
    (fun (chainId, requestId, from_, gasFeeCap, gas, to_, value, data) => ⟨chainId, requestId,
      from_, gasFeeCap, gas, to_, value, data⟩)

structure InRange (tx : ArbitrumContractTx) : Prop where
  chainId : Tx.InRange tx.chainId
  gasFeeCap : Tx.InRange tx.gasFeeCap
  value : Tx.InRange tx.value

def zeroed (tx : ArbitrumContractTx) : ArbitrumContractTx :=
  { tx with
    chainId := orZero tx.chainId
    gasFeeCap := orZero tx.gasFeeCap
    value := orZero tx.value }

instance lawful : info.Lawful InRange zeroed :=
  lawful_view (fun _ => rfl) (fun _ h => ⟨h.chainId.nonNeg, trivial, trivial,
    h.gasFeeCap.nonNeg, trivial, trivial, h.value.nonNeg, trivial⟩) fun _ => rfl

end ArbitrumContractTx

structure ArbitrumRetryTx where
  chainId : BigInt
  nonce : U64
  from_ : Address
  gasFeeCap : BigInt
  gas : U64
  to_ : Option Address
  value : BigInt
  data : Bytes
  ticketId : Hash
  refundTo : Address
  maxRefund : BigInt
  submissionFeeRefund : BigInt
deriving DecidableEq, Repr

namespace ArbitrumRetryTx

def info : TypeInfo ArbitrumRetryTx :=
  (struct <| cons bigIntPtr <| cons uint64 <| cons address <| cons bigIntPtr <| cons uint64 <|
      cons addressPtr <| cons bigIntPtr <| cons bytes <| cons hash <| cons address <|
      cons bigIntPtr <| last bigIntPtr).view
    (fun tx => (tx.chainId, tx.nonce, tx.from_, tx.gasFeeCap, tx.gas, tx.to_, tx.value, tx.data,
      tx.ticketId, tx.refundTo, tx.maxRefund, tx.submissionFeeRefund))
    (fun (chainId, nonce, from_, gasFeeCap, gas, to_, value, data, ticketId, refundTo, maxRefund,
      submissionFeeRefund) => ⟨chainId, nonce, from_, gasFeeCap, gas, to_, value, data, ticketId,
      refundTo, maxRefund, submissionFeeRefund⟩)

structure InRange (tx : ArbitrumRetryTx) : Prop where
  chainId : Tx.InRange tx.chainId
  gasFeeCap : Tx.InRange tx.gasFeeCap
  value : Tx.InRange tx.value
  maxRefund : Tx.InRange tx.maxRefund
  submissionFeeRefund : Tx.InRange tx.submissionFeeRefund

def zeroed (tx : ArbitrumRetryTx) : ArbitrumRetryTx :=
  { tx with
    chainId := orZero tx.chainId
    gasFeeCap := orZero tx.gasFeeCap
    value := orZero tx.value
    maxRefund := orZero tx.maxRefund
    submissionFeeRefund := orZero tx.submissionFeeRefund }

instance lawful : info.Lawful InRange zeroed :=
  lawful_view (fun _ => rfl) (fun _ h => ⟨h.chainId.nonNeg, trivial, trivial,
    h.gasFeeCap.nonNeg, trivial, trivial, h.value.nonNeg, trivial, trivial, trivial,
    h.maxRefund.nonNeg, h.submissionFeeRefund.nonNeg⟩) fun _ => rfl

end ArbitrumRetryTx

structure ArbitrumSubmitRetryableTx where
  chainId : BigInt
  requestId : Hash
  from_ : Address
  l1BaseFee : BigInt
  depositValue : BigInt
  gasFeeCap : BigInt
  gas : U64
  retryTo : Option Address
  retryValue : BigInt
  beneficiary : Address
  maxSubmissionFee : BigInt
  feeRefundAddr : Address
  retryData : Bytes
deriving DecidableEq, Repr

namespace ArbitrumSubmitRetryableTx

def info : TypeInfo ArbitrumSubmitRetryableTx :=
  (struct <| cons bigIntPtr <| cons hash <| cons address <| cons bigIntPtr <| cons bigIntPtr <|
      cons bigIntPtr <| cons uint64 <| cons addressPtr <| cons bigIntPtr <| cons address <|
      cons bigIntPtr <| cons address <| last bytes).view
    (fun tx => (tx.chainId, tx.requestId, tx.from_, tx.l1BaseFee, tx.depositValue, tx.gasFeeCap,
      tx.gas, tx.retryTo, tx.retryValue, tx.beneficiary, tx.maxSubmissionFee, tx.feeRefundAddr,
      tx.retryData))
    (fun (chainId, requestId, from_, l1BaseFee, depositValue, gasFeeCap, gas, retryTo, retryValue,
      beneficiary, maxSubmissionFee, feeRefundAddr, retryData) => ⟨chainId, requestId, from_,
      l1BaseFee, depositValue, gasFeeCap, gas, retryTo, retryValue, beneficiary, maxSubmissionFee,
      feeRefundAddr, retryData⟩)

structure InRange (tx : ArbitrumSubmitRetryableTx) : Prop where
  chainId : Tx.InRange tx.chainId
  l1BaseFee : Tx.InRange tx.l1BaseFee
  depositValue : Tx.InRange tx.depositValue
  gasFeeCap : Tx.InRange tx.gasFeeCap
  retryValue : Tx.InRange tx.retryValue
  maxSubmissionFee : Tx.InRange tx.maxSubmissionFee

def zeroed (tx : ArbitrumSubmitRetryableTx) : ArbitrumSubmitRetryableTx :=
  { tx with
    chainId := orZero tx.chainId
    l1BaseFee := orZero tx.l1BaseFee
    depositValue := orZero tx.depositValue
    gasFeeCap := orZero tx.gasFeeCap
    retryValue := orZero tx.retryValue
    maxSubmissionFee := orZero tx.maxSubmissionFee }

instance lawful : info.Lawful InRange zeroed :=
  lawful_view (fun _ => rfl) (fun _ h => ⟨h.chainId.nonNeg, trivial, trivial,
    h.l1BaseFee.nonNeg, h.depositValue.nonNeg, h.gasFeeCap.nonNeg, trivial, trivial,
    h.retryValue.nonNeg, trivial, h.maxSubmissionFee.nonNeg, trivial, trivial⟩) fun _ => rfl

end ArbitrumSubmitRetryableTx

structure ArbitrumDepositTx where
  chainId : BigInt
  l1RequestId : Hash
  from_ : Address
  to_ : Address
  value : BigInt
deriving DecidableEq, Repr

namespace ArbitrumDepositTx

def info : TypeInfo ArbitrumDepositTx :=
  (struct <| cons bigIntPtr <| cons hash <| cons address <| cons address <| last bigIntPtr).view
    (fun tx => (tx.chainId, tx.l1RequestId, tx.from_, tx.to_, tx.value))
    (fun (chainId, l1RequestId, from_, to_, value) => ⟨chainId, l1RequestId, from_, to_, value⟩)

structure InRange (tx : ArbitrumDepositTx) : Prop where
  chainId : Tx.InRange tx.chainId
  value : Tx.InRange tx.value

def zeroed (tx : ArbitrumDepositTx) : ArbitrumDepositTx :=
  { tx with chainId := orZero tx.chainId, value := orZero tx.value }

instance lawful : info.Lawful InRange zeroed :=
  lawful_view (fun _ => rfl) (fun _ h => ⟨h.chainId.nonNeg, trivial, trivial, trivial,
    h.value.nonNeg⟩) fun _ => rfl

end ArbitrumDepositTx

structure ArbitrumInternalTx where
  chainId : BigInt
  data : Bytes
deriving DecidableEq, Repr

namespace ArbitrumInternalTx

def info : TypeInfo ArbitrumInternalTx :=
  (struct <| cons bigIntPtr <| last bytes).view
    (fun tx => (tx.chainId, tx.data))
    (fun (chainId, data) => ⟨chainId, data⟩)

structure InRange (tx : ArbitrumInternalTx) : Prop where
  chainId : Tx.InRange tx.chainId

def zeroed (tx : ArbitrumInternalTx) : ArbitrumInternalTx :=
  { tx with chainId := orZero tx.chainId }

instance lawful : info.Lawful InRange zeroed :=
  lawful_view (fun _ => rfl) (fun _ h => ⟨h.chainId.nonNeg, trivial⟩) fun _ => rfl

end ArbitrumInternalTx

/-! ### Transactions from before Nitro -/

structure ArbitrumLegacyTxData where
  legacyTx : LegacyTx
  hashOverride : Hash
  effectiveGasPrice : U64
  l1BlockNumber : U64
  sender : Option Address
deriving DecidableEq, Repr

namespace ArbitrumLegacyTxData

/-- The data of the struct as a row. -/
abbrev Row := LegacyTx × Hash × U64 × U64 × Option Address

def row (tx : ArbitrumLegacyTxData) : Row :=
  (tx.legacyTx, tx.hashOverride, tx.effectiveGasPrice, tx.l1BlockNumber, tx.sender)

def ofRow : Row → ArbitrumLegacyTxData
  | (legacyTx, hashOverride, effectiveGasPrice, l1BlockNumber, sender) =>
    ⟨legacyTx, hashOverride, effectiveGasPrice, l1BlockNumber, sender⟩

/-- The fields, with what is done for `Sender`. -/
def fields (sender : Fields (Option Address)) : Fields Row :=
  cons LegacyTx.info <| cons hash <| cons uint64 <| cons uint64 sender

def info : TypeInfo ArbitrumLegacyTxData :=
  (struct (fields (optional addressPtr none))).view row ofRow

/-- The encodings in which `Sender` is there even if it is nil. -/
def spelled : TypeInfo ArbitrumLegacyTxData := (struct (fields (last addressPtr))).view row ofRow

def InRange (tx : ArbitrumLegacyTxData) : Prop := tx.legacyTx.InRange

def zeroed (tx : ArbitrumLegacyTxData) : ArbitrumLegacyTxData :=
  { tx with legacyTx := tx.legacyTx.zeroed }

theorem fields_roundTrip {sender : Fields (Option Address)}
    (h : sender.RoundTrip (fun _ => True) id) :
    ((struct (fields sender)).view row ofRow).RoundTrip InRange zeroed :=
  (view_roundTrip (struct_roundTrip <| cons_roundTrip LegacyTx.lawful.roundTrip <|
    cons_roundTrip hash_lawful.roundTrip <| cons_roundTrip uint64_lawful.roundTrip <|
    cons_roundTrip uint64_lawful.roundTrip h) fun _ => rfl).congr
    (fun _ h => ⟨h, trivial, trivial, trivial, trivial⟩) fun _ => rfl

theorem roundTrip : info.RoundTrip InRange zeroed :=
  fields_roundTrip (optional_roundTrip addressPtr_lawful.roundTrip fun _ => Iff.rfl)

theorem spelled_roundTrip : spelled.RoundTrip InRange zeroed :=
  fields_roundTrip (last_roundTrip addressPtr_lawful.roundTrip)

theorem spelled_canonical : spelled.Canonical := by
  unfold spelled fields
  exact view_accepts Lawful.canonical fun _ => rfl

/-- The four fields in front of `Sender`. -/
def front (tx : ArbitrumLegacyTxData) : Except Error Bytes := do
  let legacyTx ← LegacyTx.info.writer tx.legacyTx
  let hashOverride ← hash.writer tx.hashOverride
  let effectiveGasPrice ← uint64.writer tx.effectiveGasPrice
  let l1BlockNumber ← uint64.writer tx.l1BlockNumber
  .ok (legacyTx ++ (hashOverride ++ (effectiveGasPrice ++ l1BlockNumber)))

theorem writer_fields (sender : Fields (Option Address)) (tx : ArbitrumLegacyTxData) :
    ((struct (fields sender)).view row ofRow).writer tx = (do
      let bs ← front tx
      let b ← sender.writer tx.sender
      .ok (encodeList (bs ++ b))) := by
  simp only [view, struct, fields, cons, row, front]
  cases LegacyTx.info.writer tx.legacyTx with
  | error e => rfl
  | ok legacyTx =>
    cases sender.writer tx.sender with
    | error e => rfl
    | ok b => simp

/-- The only encodings accepted are the one written and, for a nil `Sender`, the one in
    which it is spelled out. -/
theorem accepts : info.Accepts fun tx b =>
    info.writer tx = .ok b ∨ tx.sender = none ∧ spelled.writer tx = .ok b := by
  intro s tx s' hinput h
  have hfields : (fields (.optional addressPtr none)).Accepts fun r b =>
      (fields (.optional addressPtr none)).writer r = .ok b ∨
        r.2.2.2.2 = none ∧ (fields (.last addressPtr)).writer r = .ok b := by
    intro s r s' hinput h
    obtain ⟨b, ⟨b₁, c₁, rfl, hb₁, b₂, c₂, rfl, hb₂, b₃, c₃, rfl, hb₃, b₄, c₄, rfl, hb₄, hc₄⟩, hs⟩ :=
      cons_accepts LegacyTx.lawful.canonical (cons_accepts hash_lawful.canonical
        (cons_accepts uint64_lawful.canonical (cons_accepts
          uint64_lawful.canonical (optional_accepts addressPtr_lawful.canonical))))
        s r s' hinput h
    refine ⟨_, ?_, hs⟩
    rcases hc₄ with hc₄ | ⟨hnone, hc₄⟩
    · refine .inl ?_
      simp [fields, cons, hb₁, hb₂, hb₃, hb₄, hc₄]
    · refine .inr ⟨hnone, ?_⟩
      simp [fields, cons, last, hb₁, hb₂, hb₃, hb₄, hnone, hc₄]
  obtain ⟨b, ⟨content, rfl, henc⟩, hs⟩ :=
    view_accepts (struct_accepts hfields) (fun _ => rfl) s tx s' hinput h
  refine ⟨_, ?_, hs⟩
  rcases henc with hwritten | ⟨hnone, hspelled⟩
  · refine .inl ?_
    simp [info, view, struct, hwritten]
  · refine .inr ⟨hnone, ?_⟩
    simp [spelled, view, struct, hspelled]

/-- A nil `Sender` that is spelled out makes the encoding longer. -/
theorem writer_ne_spelled {tx : ArbitrumLegacyTxData} {b : Bytes} (h : tx.sender = none)
    (hb : info.writer tx = .ok b) : spelled.writer tx ≠ .ok b := by
  intro hspelled
  rw [info, writer_fields, h] at hb
  rw [spelled, writer_fields, h] at hspelled
  obtain ⟨bs, hbs, hb⟩ := bind_eq_ok.mp hb
  rw [hbs] at hspelled
  cases hb
  have hlist : encodeList (bs ++ [0x80]) = encodeList (bs ++ []) := Except.ok.inj hspelled
  have hlt : (encodeList (bs ++ [])).length < (encodeList (bs ++ [0x80])).length :=
    length_encodeList_lt (by simp)
  rw [hlist] at hlt
  exact hlt.false

/-- What is accepted with `Sender` spelled out is accepted without. -/
theorem decoder_of_spelled {s s' : Stream} {tx : ArbitrumLegacyTxData}
    (h : spelled.decoder s = .ok (tx, s')) : info.decoder s = .ok (tx, s') := by
  obtain ⟨r, hstruct, h⟩ := bind_eq_ok.mp h
  have hinfo : (struct (fields (.optional addressPtr none))).decoder s = .ok r := by
    refine struct_decoder_of (fun s r hr => ?_) hstruct
    refine cons_decoder_of (fun s r hr => ?_) hr
    refine cons_decoder_of (fun s r hr => ?_) hr
    refine cons_decoder_of (fun s r hr => ?_) hr
    exact cons_decoder_of (fun s r hr => optional_decoder_of_last hr) hr
  simp only [info, view, hinfo]
  exact h

end ArbitrumLegacyTxData

end GethArb.Tx
