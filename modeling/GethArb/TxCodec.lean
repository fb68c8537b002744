/-
  **Transactions as RLP values** (`core/types/transaction.go`: `EncodeRLP`, `DecodeRLP`,
  `decodeTyped`, `MarshalBinary`, `UnmarshalBinary`, `Hash`; `core/types/tx_blob.go`:
  `encode`, `decode`).

  A legacy transaction is the RLP list of its fields.  Any other transaction is a byte
  string: its type, then the RLP list of its payload.  Blob transactions have a second form
  with the sidecar, told apart by the kind of the first element.

  `decodeRLP_encodeRLP` is the round trip for all twelve types.  `encodeRLP_decodeRLP` says
  which accepted inputs are reproduced: all but a pre-Nitro transaction whose nil sender is
  spelled out.

  The caches of `Transaction` (hash, size, sender) and its time are left out.
-/
import GethArb.TxTypes

namespace GethArb.Tx

open Rlp List ArbitrumLegacyTxData Except Stream

/-! ### Types -/

def legacyTxType : UInt8 := 0x00
def accessListTxType : UInt8 := 0x01
def dynamicFeeTxType : UInt8 := 0x02
def blobTxType : UInt8 := 0x03
def setCodeTxType : UInt8 := 0x04
def arbitrumDepositTxType : UInt8 := 0x64
def arbitrumUnsignedTxType : UInt8 := 0x65
def arbitrumContractTxType : UInt8 := 0x66
def arbitrumRetryTxType : UInt8 := 0x68
def arbitrumSubmitRetryableTxType : UInt8 := 0x69
def arbitrumInternalTxType : UInt8 := 0x6A
def arbitrumLegacyTxType : UInt8 := 0x78

inductive TxData where
  | legacy (tx : LegacyTx)
  | accessList (tx : AccessListTx)
  | dynamicFee (tx : DynamicFeeTx)
  | blob (tx : BlobTx)
  | setCode (tx : SetCodeTx)
  | arbitrumDeposit (tx : ArbitrumDepositTx)
  | arbitrumUnsigned (tx : ArbitrumUnsignedTx)
  | arbitrumContract (tx : ArbitrumContractTx)
  | arbitrumRetry (tx : ArbitrumRetryTx)
  | arbitrumSubmitRetryable (tx : ArbitrumSubmitRetryableTx)
  | arbitrumInternal (tx : ArbitrumInternalTx)
  | arbitrumLegacy (tx : ArbitrumLegacyTxData)
deriving DecidableEq, Repr

def TxData.txType : TxData → UInt8
  | .legacy _ => legacyTxType
  | .accessList _ => accessListTxType
  | .dynamicFee _ => dynamicFeeTxType
  | .blob _ => blobTxType
  | .setCode _ => setCodeTxType
  | .arbitrumDeposit _ => arbitrumDepositTxType
  | .arbitrumUnsigned _ => arbitrumUnsignedTxType
  | .arbitrumContract _ => arbitrumContractTxType
  | .arbitrumRetry _ => arbitrumRetryTxType
  | .arbitrumSubmitRetryable _ => arbitrumSubmitRetryableTxType
  | .arbitrumInternal _ => arbitrumInternalTxType
  | .arbitrumLegacy _ => arbitrumLegacyTxType

structure Transaction where
  inner : TxData
deriving DecidableEq, Repr

inductive TxError where
  | rlp (err : Error)
  | shortTypedTx
  | txTypeNotSupported
  | bufferSize (size : Nat)
  | sidecarVersion (version : BitVec 8)
  | blobTxVersion (version : BitVec 8)
  | encodeCalledOnLegacyTx
deriving DecidableEq, Repr

/-- An error of the RLP package, passed on. -/
def fromRlp {α : Type} : Except Error α → Except TxError α
  | .ok a => .ok a
  | .error err => .error (.rlp err)

/-! ### Blob transactions -/

structure BlobTxWithBlobsV0 where
  blobTx : BlobTx
  blobs : List Blob
  commitments : List KzgPoint
  proofs : List KzgPoint

open TypeInfo Fields in
def BlobTxWithBlobsV0.info : TypeInfo BlobTxWithBlobsV0 :=
  (struct <| cons BlobTx.info <| cons (slice (byteArray 131072)) <| cons (slice (byteArray 48)) <|
      last (slice (byteArray 48))).view
    (fun tx => (tx.blobTx, tx.blobs, tx.commitments, tx.proofs))
    (fun (blobTx, blobs, commitments, proofs) => ⟨blobTx, blobs, commitments, proofs⟩)

structure BlobTxWithBlobsV1 where
  blobTx : BlobTx
  version : BitVec 8
  blobs : List Blob
  commitments : List KzgPoint
  proofs : List KzgPoint

open TypeInfo Fields in
def BlobTxWithBlobsV1.info : TypeInfo BlobTxWithBlobsV1 :=
  (struct <| cons BlobTx.info <| cons uint8 <| cons (slice (byteArray 131072)) <|
      cons (slice (byteArray 48)) <| last (slice (byteArray 48))).view
    (fun tx => (tx.blobTx, tx.version, tx.blobs, tx.commitments, tx.proofs))
    (fun (blobTx, version, blobs, commitments, proofs) =>
      ⟨blobTx, version, blobs, commitments, proofs⟩)

def BlobTx.encode (tx : BlobTx) : Except TxError Bytes :=
  match tx.sidecar with
  | none => fromRlp (info.writer tx)
  | some sc =>
    if sc.version = 0 then
      fromRlp (BlobTxWithBlobsV0.info.writer ⟨tx, sc.blobs, sc.commitments, sc.proofs⟩)
    else if sc.version = 1 then
      fromRlp (BlobTxWithBlobsV1.info.writer ⟨tx, sc.version, sc.blobs, sc.commitments, sc.proofs⟩)
    else .error (.sidecarVersion sc.version)

def BlobTx.decode (input : Bytes) : Except TxError BlobTx := do
  let (firstElem, _) ← fromRlp (splitList input)
  let (firstElemKind, _, secondElem) ← fromRlp (split firstElem)
  if firstElemKind ≠ .list then
    -- without blobs
    fromRlp (decodeBytes info input)
  else
    let (secondElemKind, _, _) ← fromRlp (split secondElem)
    if secondElemKind = .list then
      -- no version byte
      let payload ← fromRlp (decodeBytes BlobTxWithBlobsV0.info input)
      let sc := ⟨0, payload.blobs, payload.commitments, payload.proofs⟩
      .ok { payload.blobTx with sidecar := some sc }
    else
      let payload ← fromRlp (decodeBytes BlobTxWithBlobsV1.info input)
      if payload.version ≠ 1 then .error (.blobTxVersion payload.version)
      else
        let sc := ⟨1, payload.blobs, payload.commitments, payload.proofs⟩
        .ok { payload.blobTx with sidecar := some sc }

/-! ### Payloads -/

/-- `rlp.Encode` of the struct. -/
def TxData.writer : TxData → Except Error Bytes
  | .legacy tx => LegacyTx.info.writer tx
  | .accessList tx => AccessListTx.info.writer tx
  | .dynamicFee tx => DynamicFeeTx.info.writer tx
  | .blob tx => BlobTx.info.writer tx
  | .setCode tx => SetCodeTx.info.writer tx
  | .arbitrumDeposit tx => ArbitrumDepositTx.info.writer tx
  | .arbitrumUnsigned tx => ArbitrumUnsignedTx.info.writer tx
  | .arbitrumContract tx => ArbitrumContractTx.info.writer tx
  | .arbitrumRetry tx => ArbitrumRetryTx.info.writer tx
  | .arbitrumSubmitRetryable tx => ArbitrumSubmitRetryableTx.info.writer tx
  | .arbitrumInternal tx => ArbitrumInternalTx.info.writer tx
  | .arbitrumLegacy tx => info.writer tx

/-- `encode` of the payload.  For `LegacyTx` it panics. -/
def TxData.encode : TxData → Except TxError Bytes
  | .legacy _ => .error .encodeCalledOnLegacyTx
  | .blob tx => tx.encode
  | inner => fromRlp inner.writer

/-- Decoding a payload whose struct is read as a whole. -/
def decodePayload {α : Type} (make : α → TxData) (t : TypeInfo α) (input : Bytes) :
    Except TxError TxData := do
  let tx ← fromRlp (decodeBytes t input)
  .ok (make tx)

/-- The Arbitrum types `decodeTyped` knows, with the decoders of their payloads. -/
def arbitrumDecoder (ty : UInt8) : Option (Bytes → Except TxError TxData) :=
  if ty = arbitrumDepositTxType then
    some (decodePayload .arbitrumDeposit ArbitrumDepositTx.info)
  else if ty = arbitrumInternalTxType then
    some (decodePayload .arbitrumInternal ArbitrumInternalTx.info)
  else if ty = arbitrumUnsignedTxType then
    some (decodePayload .arbitrumUnsigned ArbitrumUnsignedTx.info)
  else if ty = arbitrumContractTxType then
    some (decodePayload .arbitrumContract ArbitrumContractTx.info)
  else if ty = arbitrumRetryTxType then
    some (decodePayload .arbitrumRetry ArbitrumRetryTx.info)
  else if ty = arbitrumSubmitRetryableTxType then
    some (decodePayload .arbitrumSubmitRetryable ArbitrumSubmitRetryableTx.info)
  else if ty = arbitrumLegacyTxType then
    some (decodePayload .arbitrumLegacy info)
  else none

/-- The Ethereum types `decodeTyped` knows. -/
def ethereumDecoder (ty : UInt8) : Option (Bytes → Except TxError TxData) :=
  if ty = accessListTxType then some (decodePayload .accessList AccessListTx.info)
  else if ty = dynamicFeeTxType then some (decodePayload .dynamicFee DynamicFeeTx.info)
  else if ty = blobTxType then some fun input => do
    let tx ← BlobTx.decode input
    .ok (.blob tx)
  else if ty = setCodeTxType then some (decodePayload .setCode SetCodeTx.info)
  else none

def decodeTyped (b : Bytes) (arbParsing : Bool) : Except TxError TxData :=
  match b with
  | [] => .error .shortTypedTx
  | [_] => .error .shortTypedTx
  | ty :: input =>
    let decoder := if arbParsing then (arbitrumDecoder ty).or (ethereumDecoder ty)
      else ethereumDecoder ty
    match decoder with
    | none => .error .txTypeNotSupported
    | some decode => decode input

/-! ### Transactions -/

namespace Transaction

/-- The type and the payload. -/
def encodeTyped (tx : Transaction) : Except TxError Bytes := do
  let payload ← tx.inner.encode
  .ok (tx.inner.txType :: payload)

def encodeRLP (tx : Transaction) : Except TxError Bytes :=
  match tx.inner with
  | .legacy inner => fromRlp (LegacyTx.info.writer inner)
  | _ => do
    let b ← tx.encodeTyped
    .ok (encodeBytes b)

def decodeRLP (s : Stream) : Except TxError (Transaction × Stream) := do
  let (h, _) ← fromRlp s.kind
  match h.kind with
  | .list =>
    let (inner, s) ← fromRlp (LegacyTx.info.decoder s)
    .ok (⟨.legacy inner⟩, s)
  | .byte => .error .shortTypedTx
  | .string =>
    -- `getPooledBuffer`
    if h.size > 2 ^ 63 - 1 then .error (.bufferSize h.size)
    else
      let (b, s) ← fromRlp (s.readBytes h.size)
      let inner ← decodeTyped b true
      .ok (⟨inner⟩, s)

/-- `rlp.DecodeBytes` into a transaction. -/
def decodeBytes (b : Bytes) : Except TxError Transaction := do
  let (tx, s) ← decodeRLP ⟨b, decide (b.length > 0), []⟩
  if s.input.length > 0 then .error (.rlp .moreThanOneValue) else .ok tx

def marshalBinary (tx : Transaction) : Except TxError Bytes :=
  match tx.inner with
  | .legacy inner => fromRlp (LegacyTx.info.writer inner)
  | _ => tx.encodeTyped

def unmarshalBinary (b : Bytes) : Except TxError Transaction :=
  if b.head?.any (· > 0x7f) then do
    let data ← fromRlp (Rlp.decodeBytes LegacyTx.info b)
    .ok ⟨.legacy data⟩
  else do
    let inner ← decodeTyped b false
    .ok ⟨inner⟩

/-- What the hash is taken of: the encoding of the struct, behind the type for typed
    transactions.  An encoding that fails writes nothing. -/
def hashInput (tx : Transaction) : Bytes :=
  let written := tx.inner.writer.toOption.getD []
  match tx.inner with
  | .legacy _ => written
  | inner => inner.txType :: written

/-- `Hash`.  A pre-Nitro transaction carries its hash. -/
def hash [Crypto] (tx : Transaction) : Hash :=
  match tx.inner with
  | .arbitrumLegacy inner => inner.hashOverride
  | _ => keccak256 tx.hashInput

end Transaction

/-! ### What reads back -/

variable (inner : TxData)

namespace TxData

/-- The big integers lie in `[0, 2 ^ 256)`, and there is no sidecar. -/
def InRange : TxData → Prop
  | .legacy tx => tx.InRange
  | .accessList tx => tx.InRange
  | .dynamicFee tx => tx.InRange
  | .blob tx => tx.sidecar = none
  | .setCode _ => True
  | .arbitrumDeposit tx => tx.InRange
  | .arbitrumUnsigned tx => tx.InRange
  | .arbitrumContract tx => tx.InRange
  | .arbitrumRetry tx => tx.InRange
  | .arbitrumSubmitRetryable tx => tx.InRange
  | .arbitrumInternal tx => tx.InRange
  | .arbitrumLegacy tx => tx.InRange

/-- Nil integers are zeros. -/
def zeroed : TxData → TxData
  | .legacy tx => .legacy tx.zeroed
  | .accessList tx => .accessList tx.zeroed
  | .dynamicFee tx => .dynamicFee tx.zeroed
  | .blob tx => .blob tx.zeroed
  | .setCode tx => .setCode tx.zeroed
  | .arbitrumDeposit tx => .arbitrumDeposit tx.zeroed
  | .arbitrumUnsigned tx => .arbitrumUnsigned tx.zeroed
  | .arbitrumContract tx => .arbitrumContract tx.zeroed
  | .arbitrumRetry tx => .arbitrumRetry tx.zeroed
  | .arbitrumSubmitRetryable tx => .arbitrumSubmitRetryable tx.zeroed
  | .arbitrumInternal tx => .arbitrumInternal tx.zeroed
  | .arbitrumLegacy tx => .arbitrumLegacy tx.zeroed

def HasSidecar : TxData → Prop
  | .blob tx => tx.sidecar ≠ none
  | _ => False

@[simp] theorem txType_zeroed : inner.zeroed.txType = inner.txType := by
  cases inner <;> rfl

/-- Without a sidecar, the payload of a typed transaction is the encoding of its struct. -/
theorem encode_eq {inner : TxData} (hlegacy : ∀ tx, inner ≠ .legacy tx)
    (hsidecar : ¬ inner.HasSidecar) : inner.encode = fromRlp inner.writer := by
  cases inner with
  | legacy tx => exact absurd rfl (hlegacy tx)
  | blob tx =>
    have hnone : tx.sidecar = none := by simpa [HasSidecar] using hsidecar
    simp only [encode, BlobTx.encode, hnone]
    rfl
  | _ => rfl

end TxData

/-! ### Typed envelopes -/

variable {α : Type}

theorem fromRlp_eq_ok {x : Except Error α} {a : α} (h : fromRlp x = .ok a) : x = .ok a := by
  cases x with
  | ok b =>
    cases h
    rfl
  | error e => cases h

variable {ty : UInt8}

theorem decodeTyped_cons {input : Bytes} {decode : Bytes → Except TxError TxData}
    (hinput : input ≠ []) (h : (arbitrumDecoder ty).or (ethereumDecoder ty) = some decode) :
    decodeTyped (ty :: input) true = decode input := by
  cases input with
  | nil => exact absurd rfl hinput
  | cons x xs =>
    simp [decodeTyped, h]

variable {payload : Bytes}

variable {tx : BlobTx}

/-- The first element of the struct is the chain id, a string. -/
theorem BlobTx.writer_shape (h : info.writer tx = .ok payload) :
    ∃ chainID rest, payload = encodeList (encodeBytes chainID ++ rest) := by
  obtain ⟨content, hcontent, h⟩ := bind_eq_ok.mp h
  obtain ⟨first, hfirst, hcontent⟩ := bind_eq_ok.mp hcontent
  obtain ⟨rest, -, hcontent⟩ := bind_eq_ok.mp hcontent
  rw [TypeInfo.writer_u256Ptr, TypeInfo.writer_u256] at hfirst
  cases hfirst
  cases hcontent
  cases h
  exact ⟨_, rest, rfl⟩

/-- So the payload is not taken for one with a sidecar. -/
theorem BlobTx.decode_writer (h : info.writer tx = .ok payload) (hlen : payload.length < 2 ^ 64) :
    BlobTx.decode payload = .ok tx.zeroed := by
  have hdecode := decodeBytes_push BlobTx.lawful.roundTrip h hlen
  obtain ⟨chainID, rest, rfl⟩ := writer_shape h
  have hcontent := length_lt_of_encodeList hlen
  rw [length_append] at hcontent
  have hchainID : chainID.length < 2 ^ 64 := length_lt_of_encodeBytes (by omega)
  have hsplitList := (item_encodeList (length_lt_of_encodeList hlen)).splitList []
  have hsplit := (item_encodeBytes hchainID).split rest
  rw [append_nil] at hsplitList
  simp only [BlobTx.decode, hsplitList, hsplit, hdecode, fromRlp, ok_bind]
  exact if_pos (bytesKind_ne_list chainID)

namespace TxData

/-- The data as the value of a struct: how the struct is written, what reads back, and what
    `decodeTyped` makes of it under its type. -/
inductive IsStruct : TxData → Prop
  | mk {α : Type} {t : TypeInfo α} {dom : α → Prop} {norm : α → α} (make : α → TxData) (tx : α)
      (roundTrip : t.RoundTrip dom norm) (writer : ∀ tx, (make tx).writer = t.writer tx)
      (zeroed : (make tx).zeroed = make (norm tx)) (inRange : (make tx).InRange → dom tx)
      (decode : (∀ tx', make tx ≠ .legacy tx') → ∀ payload : Bytes, payload ≠ [] →
        payload.length < 2 ^ 64 → t.writer tx = .ok payload →
        decodeTyped ((make tx).txType :: payload) true = .ok (make (norm tx))) : IsStruct (make tx)

/-- The case of a struct that is read as a whole. -/
theorem IsStruct.whole {t : TypeInfo α} {dom : α → Prop} {norm : α → α} {make : α → TxData}
    (tx : α) (roundTrip : t.RoundTrip dom norm) (writer : ∀ tx, (make tx).writer = t.writer tx)
    (zeroed : (make tx).zeroed = make (norm tx)) (inRange : (make tx).InRange → dom tx)
    (decoder : (arbitrumDecoder (make tx).txType).or (ethereumDecoder (make tx).txType) =
      some (decodePayload make t)) : IsStruct (make tx) := by
  refine .mk make tx roundTrip writer zeroed inRange fun _ payload hne hlen hpayload => ?_
  rw [decodeTyped_cons hne decoder, decodePayload, decodeBytes_push roundTrip hpayload hlen]
  rfl

theorem isStruct : inner.IsStruct := by
  cases inner with
  | legacy tx =>
    exact .mk _ tx LegacyTx.lawful.roundTrip (fun _ => rfl) rfl id fun h => absurd rfl (h tx)
  | blob tx =>
    refine .mk _ tx BlobTx.lawful.roundTrip (fun _ => rfl) rfl (fun _ => trivial) ?_
    intro _ payload hne hlen h
    have hdecode := BlobTx.decode_writer h hlen
    refine (decodeTyped_cons hne rfl).trans ?_
    simp [hdecode]
  | accessList tx | dynamicFee tx | setCode tx | arbitrumDeposit tx | arbitrumUnsigned tx
  | arbitrumContract tx | arbitrumRetry tx | arbitrumSubmitRetryable tx | arbitrumInternal tx =>
    exact .whole tx TypeInfo.Lawful.roundTrip (fun _ => rfl) rfl id rfl
  | arbitrumLegacy tx => exact .whole tx roundTrip (fun _ => rfl) rfl id rfl

theorem writer_zeroed : inner.zeroed.writer = inner.writer := by
  obtain ⟨make, tx, ht, hwriter, hzeroed, -, -⟩ := inner.isStruct
  rw [hzeroed, hwriter, hwriter, ht.norm_writer]

variable {inner : TxData}

/-- The encoder fails only on integers out of range. -/
theorem writer_ok (h : inner.InRange) : ∃ b, inner.writer = .ok b := by
  obtain ⟨make, tx, ht, hwriter, -, hdom, -⟩ := inner.isStruct
  rw [hwriter]
  exact ht.writes tx (hdom h)

theorem writer_ne_nil (h : inner.writer = .ok payload) : payload ≠ [] := by
  obtain ⟨make, tx, ht, hwriter, -, -, -⟩ := inner.isStruct
  rw [hwriter] at h
  exact ht.ne_nil tx payload h

end TxData

open TxData

/-- Any payload that was written is decoded under its type. -/
theorem decodeTyped_writer {inner : TxData} (hlegacy : ∀ tx, inner ≠ .legacy tx)
    (h : inner.writer = .ok payload) (hlen : payload.length < 2 ^ 64) :
    decodeTyped (inner.txType :: payload) true = .ok inner.zeroed := by
  have hne := writer_ne_nil h
  obtain ⟨make, tx, -, hwriter, hzeroed, -, hdecode⟩ := inner.isStruct
  rw [hwriter] at h
  rw [hzeroed]
  exact hdecode hlegacy payload hne hlen h

/-! ### The round trip -/

variable {s : Stream}

namespace Transaction

def zeroed (tx : Transaction) : Transaction := ⟨tx.inner.zeroed⟩

theorem hashInput_zeroed (tx : Transaction) : tx.zeroed.hashInput = tx.hashInput := by
  have hwriter := tx.inner.writer_zeroed
  obtain ⟨inner⟩ := tx
  cases inner <;> simp only [hashInput, zeroed] at hwriter ⊢ <;> rw [hwriter] <;> rfl

theorem hash_zeroed [Crypto] (tx : Transaction) : tx.zeroed.hash = tx.hash := by
  have hinput := tx.hashInput_zeroed
  obtain ⟨inner⟩ := tx
  cases inner with
  | arbitrumLegacy tx => rfl
  | _ => exact congrArg keccak256 hinput

variable {inner : TxData} {payload b : Bytes}

theorem encodeRLP_eq (hlegacy : ∀ tx, inner ≠ .legacy tx) :
    encodeRLP ⟨inner⟩ = (do
      let b ← encodeTyped ⟨inner⟩
      .ok (encodeBytes b)) := by
  cases inner with
  | legacy tx => exact absurd rfl (hlegacy tx)
  | _ => rfl

/-- The encoding of any other transaction, without a sidecar. -/
theorem encodeRLP_typed (hlegacy : ∀ tx, inner ≠ .legacy tx) (hsidecar : ¬ inner.HasSidecar)
    (h : inner.writer = .ok payload) :
    encodeRLP ⟨inner⟩ = .ok (encodeBytes (inner.txType :: payload)) := by
  have hencode := encode_eq hlegacy hsidecar
  rw [h] at hencode
  rw [encodeRLP_eq hlegacy]
  simp [encodeTyped, hencode, fromRlp]

theorem encode_eq_ok (hsidecar : ¬ inner.HasSidecar) (h : inner.encode = .ok payload) :
    (∀ tx, inner ≠ .legacy tx) ∧ inner.writer = .ok payload := by
  have hlegacy : ∀ tx, inner ≠ .legacy tx := by
    rintro tx rfl
    cases h
  rw [encode_eq hlegacy hsidecar] at h
  exact ⟨hlegacy, fromRlp_eq_ok h⟩

/-- What `EncodeRLP` produces, without a sidecar. -/
theorem encodeRLP_cases {tx : Transaction} (hsidecar : ¬ tx.inner.HasSidecar)
    (h : tx.encodeRLP = .ok b) :
    (∃ inner, tx.inner = .legacy inner ∧ LegacyTx.info.writer inner = .ok b) ∨
    (∃ payload, (∀ inner, tx.inner ≠ .legacy inner) ∧ tx.inner.writer = .ok payload ∧
      b = encodeBytes (tx.inner.txType :: payload)) := by
  obtain ⟨inner⟩ := tx
  by_cases hlegacy : ∃ inner', inner = .legacy inner'
  · obtain ⟨inner', rfl⟩ := hlegacy
    exact .inl ⟨inner', rfl, fromRlp_eq_ok h⟩
  have hlegacy : ∀ inner', inner ≠ .legacy inner' := fun inner' hi => hlegacy ⟨inner', hi⟩
  rw [encodeRLP_eq hlegacy] at h
  obtain ⟨c, hc, h⟩ := bind_eq_ok.mp h
  obtain ⟨payload, hpayload, hc⟩ := bind_eq_ok.mp hc
  cases hc
  cases h
  exact .inr ⟨payload, hlegacy, (encode_eq_ok hsidecar hpayload).2, rfl⟩

theorem decodeRLP_legacy {tx : LegacyTx} (h : LegacyTx.info.writer tx = .ok b)
    (hlen : b.length < 2 ^ 64) (hfits : s.Fits b.length) :
    decodeRLP (s.push b) = .ok (⟨.legacy tx.zeroed⟩, s) := by
  have hread := LegacyTx.lawful.roundTrip.reads tx b s h hlen hfits
  obtain ⟨content, -, hlist⟩ := bind_eq_ok.mp h
  have hb : b = header .list content.length ++ content := (ok.inj hlist).symm
  have hcontent : content.length < 2 ^ 64 := by
    rw [hb, length_append] at hlen
    omega
  have hkind : (s.push b).kind = .ok (⟨.list, content.length, 0⟩, s.push content) := by
    rw [hb] at hfits ⊢
    exact kind_push_header (by decide) hcontent hfits
  simp [decodeRLP, hkind, hread, fromRlp]

theorem decodeRLP_typed (hlegacy : ∀ tx, inner ≠ .legacy tx) (h : inner.writer = .ok payload)
    (hlen : (encodeBytes (inner.txType :: payload)).length < 2 ^ 63)
    (hfits : s.Fits (encodeBytes (inner.txType :: payload)).length) :
    decodeRLP (s.push (encodeBytes (inner.txType :: payload))) = .ok (⟨inner.zeroed⟩, s) := by
  have hle := length_le_encodeBytes (inner.txType :: payload)
  have hpayload : payload.length < 2 ^ 64 := by
    rw [length_cons] at hle
    omega
  have hne : payload ≠ [] := writer_ne_nil h
  have hread := readBytes_push (s := s) (b := inner.txType :: payload) (by omega) hfits
  have hdecode := decodeTyped_writer hlegacy h hpayload
  rcases kind_encodeBytes (s := s) (b := inner.txType :: payload) (by omega) hfits with
    ⟨x, -, hx, -⟩ | ⟨-, -, hkind⟩
  · -- a single byte has no payload
    exact absurd (cons.inj hx).2 hne
  · simp only [decodeRLP, hkind, bind, Except.bind, fromRlp]
    rw [if_neg (by omega)]
    simp only [hread, hdecode]

/-- Whatever was encoded is read back from any stream. -/
theorem decodeRLP_push {tx : Transaction} (hsidecar : ¬ tx.inner.HasSidecar)
    (h : tx.encodeRLP = .ok b) (hlen : b.length < 2 ^ 63) (hfits : s.Fits b.length) :
    decodeRLP (s.push b) = .ok (tx.zeroed, s) := by
  rcases encodeRLP_cases hsidecar h with ⟨inner, hinner, hwriter⟩ | ⟨payload, hlegacy, hwriter, rfl⟩
  · rw [decodeRLP_legacy hwriter (by omega) hfits, zeroed, hinner]
    rfl
  · exact decodeRLP_typed hlegacy hwriter hlen hfits

theorem InRange.not_hasSidecar (h : inner.InRange) : ¬ inner.HasSidecar := by
  cases inner with
  | blob tx => exact fun hne => hne h
  | _ => exact fun hf => hf

/-- **Transactions read back.**  Of any transaction without a sidecar, with its integers in
    range, `EncodeRLP` succeeds, and `DecodeRLP` reads the result back from the front of any
    stream: the same type, the same fields with nil integers as zeros, the same hash.  So
    two transactions with the same encoding are equal up to nil integers.  The length is
    that of a Go slice. -/
theorem decodeRLP_encodeRLP [Crypto] (tx : Transaction) (hrange : tx.inner.InRange)
    (hsize : ∀ b, tx.encodeRLP = .ok b → b.length < 2 ^ 63) :
    ∃ b, tx.encodeRLP = .ok b ∧
      (∀ s : Stream, s.Fits b.length → decodeRLP (s.push b) = .ok (tx.zeroed, s)) ∧
      tx.zeroed.inner.txType = tx.inner.txType ∧ tx.zeroed.hash = tx.hash ∧
      ∀ tx' : Transaction, tx'.inner.InRange → tx'.encodeRLP = .ok b → tx'.zeroed = tx.zeroed := by
  have hsidecar := InRange.not_hasSidecar hrange
  obtain ⟨b, hb⟩ : ∃ b, tx.encodeRLP = .ok b := by
    obtain ⟨payload, hpayload⟩ := writer_ok hrange
    obtain ⟨inner⟩ := tx
    by_cases hlegacy : ∃ inner', inner = .legacy inner'
    · obtain ⟨inner', rfl⟩ := hlegacy
      exact ⟨payload, congrArg fromRlp hpayload⟩
    · have hlegacy : ∀ inner', inner ≠ .legacy inner' := fun inner' hi => hlegacy ⟨inner', hi⟩
      exact ⟨_, encodeRLP_typed hlegacy hsidecar hpayload⟩
  have hlen := hsize b hb
  refine ⟨b, hb, fun s hfits => decodeRLP_push hsidecar hb hlen hfits, tx.inner.txType_zeroed,
    hash_zeroed tx, fun tx' hrange' hb' => ?_⟩
  have hfits : (⟨[], false, []⟩ : Stream).Fits b.length := fits_of_stack_nil rfl _
  have hread := decodeRLP_push hsidecar hb hlen hfits
  have hread' := decodeRLP_push (InRange.not_hasSidecar hrange') hb' hlen hfits
  rw [hread] at hread'
  exact (Prod.mk.inj (ok.inj hread')).1.symm

theorem decodeRLP_encodeRLP_nil :
    let tx : Transaction := ⟨.arbitrumInternal ⟨none, [0x6b, 0xf6]⟩⟩
    ∃ b, tx.encodeRLP = .ok b ∧
      decodeRLP (Stream.push b ⟨[], true, []⟩) = .ok (tx.zeroed, ⟨[], true, []⟩) := by
  intro tx
  have hrange : tx.inner.InRange := ⟨fun j hj => by cases hj⟩
  have hsize : ∀ b, tx.encodeRLP = .ok b → b.length < 2 ^ 63 := by
    intro b hb
    have hvalue : tx.encodeRLP = .ok [0x86, 0x6A, 0xC4, 0x80, 0x82, 0x6b, 0xf6] := by decide +kernel
    rw [hvalue] at hb
    cases hb
    norm_num
  obtain ⟨b, hb, hread, -⟩ := @decodeRLP_encodeRLP numberCrypto tx hrange hsize
  exact ⟨b, hb, hread _ (fits_of_stack_nil rfl _)⟩

end Transaction

/-! ### What is accepted -/

variable {input : Bytes} {inner : TxData}

theorem decodePayload_inv {t : TypeInfo α} {enc : α → Bytes → Prop} (ht : t.Accepts enc)
    {make : α → TxData} (hlen : input.length < 2 ^ 64)
    (h : decodePayload make t input = .ok inner) : ∃ tx, inner = make tx ∧ enc tx input := by
  obtain ⟨tx, hdecode, h⟩ := bind_eq_ok.mp h
  cases h
  exact ⟨tx, rfl, decodeBytes_inv ht hlen (fromRlp_eq_ok hdecode)⟩

theorem BlobTx.decode_inv (hlen : input.length < 2 ^ 64) (h : BlobTx.decode input = .ok tx) :
    tx.sidecar ≠ none ∨ info.writer tx = .ok input := by
  obtain ⟨⟨firstElem, r₁⟩, -, h⟩ := bind_eq_ok.mp h
  obtain ⟨⟨kind, r₂, secondElem⟩, -, h⟩ := bind_eq_ok.mp h
  simp only at h
  split at h
  · exact .inr (decodeBytes_inv BlobTx.lawful.canonical hlen (fromRlp_eq_ok h))
  obtain ⟨⟨kind₂, r₃, r₄⟩, -, h⟩ := bind_eq_ok.mp h
  split at h
  · obtain ⟨payload, -, h⟩ := bind_eq_ok.mp h
    cases h
    exact .inl (Option.some_ne_none _)
  · obtain ⟨payload, -, h⟩ := bind_eq_ok.mp h
    split at h
    · cases h
    · cases h
      exact .inl (Option.some_ne_none _)

/-- The payloads that are accepted for a transaction. -/
def TxData.Accepted (inner : TxData) (payload : Bytes) : Prop :=
  inner.writer = .ok payload ∨ inner.HasSidecar ∨
    ∃ tx, inner = .arbitrumLegacy tx ∧ tx.sender = none ∧ spelled.writer tx = .ok payload

variable {decode : Bytes → Except TxError TxData}

theorem arbitrumDecoder_inv (hlen : input.length < 2 ^ 64)
    (hdecoder : arbitrumDecoder ty = some decode) (h : decode input = .ok inner) :
    inner.txType = ty ∧ (∀ tx, inner ≠ .legacy tx) ∧ inner.Accepted input := by
  unfold arbitrumDecoder at hdecoder
  split_ifs at hdecoder with hty hty hty hty hty hty hty
  all_goals cases hdecoder
  iterate 6
    · obtain ⟨tx, rfl, henc⟩ := decodePayload_inv TypeInfo.Lawful.canonical hlen h
      exact ⟨hty.symm, fun _ => TxData.noConfusion, .inl henc⟩
  · obtain ⟨tx, rfl, henc⟩ := decodePayload_inv accepts hlen h
    refine ⟨hty.symm, fun _ => TxData.noConfusion, ?_⟩
    rcases henc with hwriter | ⟨hnone, hspelled⟩
    · exact .inl hwriter
    · exact .inr (.inr ⟨tx, rfl, hnone, hspelled⟩)

theorem ethereumDecoder_inv (hlen : input.length < 2 ^ 64)
    (hdecoder : ethereumDecoder ty = some decode) (h : decode input = .ok inner) :
    inner.txType = ty ∧ (∀ tx, inner ≠ .legacy tx) ∧ inner.Accepted input := by
  unfold ethereumDecoder at hdecoder
  split_ifs at hdecoder with hty hty hty hty
  all_goals cases hdecoder
  iterate 2
    · obtain ⟨tx, rfl, henc⟩ := decodePayload_inv TypeInfo.Lawful.canonical hlen h
      exact ⟨hty.symm, fun _ => TxData.noConfusion, .inl henc⟩
  · obtain ⟨tx, hdecode, h⟩ := bind_eq_ok.mp h
    cases h
    refine ⟨hty.symm, fun _ => TxData.noConfusion, ?_⟩
    rcases BlobTx.decode_inv hlen hdecode with hsidecar | hwriter
    · exact .inr (.inl hsidecar)
    · exact .inl hwriter
  · obtain ⟨tx, rfl, henc⟩ := decodePayload_inv SetCodeTx.lawful.canonical hlen h
    exact ⟨hty.symm, fun _ => TxData.noConfusion, .inl henc⟩

theorem decodeTyped_inv {b : Bytes} (hlen : b.length < 2 ^ 64) (h : decodeTyped b true =
      .ok inner) :
    (∀ tx, inner ≠ .legacy tx) ∧ ∃ payload, b = inner.txType :: payload ∧
      inner.Accepted payload := by
  match b with
  | [] => cases h
  | [x] => cases h
  | ty :: x :: xs =>
    have hinput : (x :: xs).length < 2 ^ 64 := by
      rw [length_cons] at hlen
      omega
    simp only [decodeTyped, if_true] at h
    split at h
    · cases h
    rename_i decode hdecoder
    have hinv := (Option.or_eq_some_iff.mp hdecoder).elim
      (arbitrumDecoder_inv hinput · h) (ethereumDecoder_inv hinput ·.2 h)
    exact ⟨hinv.2.1, x :: xs, by rw [hinv.1], hinv.2.2⟩

namespace Transaction

variable {b payload : Bytes} {tx : Transaction}

/-- The inputs `DecodeRLP` accepts as one complete value. -/
theorem decodeBytes_cases (hlen : b.length < 2 ^ 63) (h : decodeBytes b = .ok tx) :
    (∃ inner, tx.inner = .legacy inner ∧ LegacyTx.info.writer inner = .ok b) ∨
    ((∀ inner, tx.inner ≠ .legacy inner) ∧ ∃ payload,
      b = encodeBytes (tx.inner.txType :: payload) ∧ tx.inner.Accepted payload) := by
  obtain ⟨⟨tx₁, s'⟩, hread, h⟩ := bind_eq_ok.mp h
  simp only at h
  split at h
  · cases h
  cases h
  have hnil : s'.input = [] := length_eq_zero_iff.mp (by omega)
  have hwhole : ∀ c, (⟨b, decide (b.length > 0), []⟩ : Stream) = s'.push c → b = c := by
    intro c hc
    have hbytes := congrArg input hc
    rw [push_input, hnil, append_nil] at hbytes
    exact hbytes
  obtain ⟨⟨hd, s₁⟩, hkind, hread⟩ := bind_eq_ok.mp hread
  simp only at hread
  split at hread
  · obtain ⟨⟨inner, s₂⟩, hlegacy, hread⟩ := bind_eq_ok.mp hread
    cases hread
    obtain ⟨c, hc, hs⟩ := LegacyTx.lawful.canonical _ inner s₂ (hlen.trans (by norm_num))
      (fromRlp_eq_ok hlegacy)
    rw [← hwhole c hs] at hc
    exact .inl ⟨inner, rfl, hc⟩
  · cases hread
  · split at hread
    · cases hread
    obtain ⟨⟨c, s₂⟩, hbytes, hread⟩ := bind_eq_ok.mp hread
    obtain ⟨inner, htyped, hread⟩ := bind_eq_ok.mp hread
    cases hread
    have hb := hwhole _ (readBytes_inv (fromRlp_eq_ok hbytes))
    have hc : c.length < 2 ^ 64 := by
      have hle := length_le_encodeBytes c
      rw [← hb] at hle
      omega
    obtain ⟨hlegacy, payload, rfl, hacc⟩ := decodeTyped_inv hc htyped
    exact .inr ⟨hlegacy, payload, hb, hacc⟩

/-- A pre-Nitro transaction in which a nil sender is spelled out as an empty string. -/
def NilSenderSpelled (b : Bytes) : Prop :=
  ∃ payload tx, b = encodeBytes (arbitrumLegacyTxType :: payload) ∧
    Rlp.decodeBytes ArbitrumLegacyTxData.spelled payload = .ok tx ∧ tx.sender = none

theorem decodeBytes_of_spelled {tx : ArbitrumLegacyTxData}
    (h : Rlp.decodeBytes spelled payload = .ok tx) :
    Rlp.decodeBytes ArbitrumLegacyTxData.info payload = .ok tx := by
  obtain ⟨⟨tx₁, s⟩, hread, h⟩ := bind_eq_ok.mp h
  simp only [Rlp.decodeBytes, decoder_of_spelled hread]
  exact h

/-- No payload is both what is written and one with a nil sender spelled out. -/
theorem not_spelled_of_writer {tx tx' : ArbitrumLegacyTxData} (hlen : payload.length < 2 ^ 64)
    (h : info.writer tx = .ok payload)
    (h' : Rlp.decodeBytes ArbitrumLegacyTxData.spelled payload = .ok tx') : tx'.sender ≠ none := by
  intro hnone
  have hread := decodeBytes_push roundTrip h hlen
  rw [decodeBytes_of_spelled h'] at hread
  have hzeroed : tx' = tx.zeroed := ok.inj hread
  have hspelled := decodeBytes_inv spelled_canonical hlen h'
  rw [hzeroed, spelled_roundTrip.norm_writer] at hspelled
  have hsender : tx.sender = none := by
    rw [hzeroed] at hnone
    exact hnone
  exact writer_ne_spelled hsender h hspelled

theorem arbitrumLegacy_of_txType (h : inner.txType = arbitrumLegacyTxType) :
    ∃ tx, inner = .arbitrumLegacy tx := by
  cases inner with
  | arbitrumLegacy tx => exact ⟨tx, rfl⟩
  | _ => exact absurd (congrArg UInt8.toNat h) (by rw [txType]; decide)

/-- An accepted input is reproduced exactly when it does not spell out a nil sender. -/
theorem encodeRLP_decodeBytes_iff (hlen : b.length < 2 ^ 63) (h : decodeBytes b = .ok tx)
    (hsidecar : ¬ tx.inner.HasSidecar) : tx.encodeRLP = .ok b ↔ ¬ NilSenderSpelled b := by
  have hlen' : b.length < 2 ^ 64 := hlen.trans (by norm_num)
  rcases decodeBytes_cases hlen h with ⟨inner, hinner, hwriter⟩ | ⟨hlegacy, payload, rfl, hacc⟩
  · have hencode : tx.encodeRLP = .ok b := by
      obtain ⟨inner'⟩ := tx
      cases hinner
      exact congrArg fromRlp hwriter
    refine ⟨fun _ => ?_, fun _ => hencode⟩
    rintro ⟨payload, tx', hb, -, -⟩
    obtain ⟨content, -, hlist⟩ := bind_eq_ok.mp hwriter
    cases hlist
    exact encodeList_ne_encodeBytes hlen' hb
  have hpayload : payload.length < 2 ^ 64 := by
    have hle := length_le_encodeBytes (tx.inner.txType :: payload)
    rw [length_cons] at hle
    omega
  rcases hacc with hwriter | hside | ⟨t, hinner, hnone, hspelled⟩
  · refine ⟨fun _ => ?_, fun _ => encodeRLP_typed hlegacy hsidecar hwriter⟩
    rintro ⟨payload', tx', hb, hdecode, hnone⟩
    obtain ⟨hty, rfl⟩ := cons.inj (encodeBytes_inj hlen' hb)
    obtain ⟨t, hinner⟩ := arbitrumLegacy_of_txType hty
    rw [hinner] at hwriter
    exact not_spelled_of_writer hpayload hwriter hdecode hnone
  · exact absurd hside hsidecar
  · refine ⟨fun hencode => ?_, fun hnot => ?_⟩
    · rcases encodeRLP_cases hsidecar hencode with ⟨inner, hlegacy', -⟩ | ⟨payload', -, hwriter, hb⟩
      · exact absurd hlegacy' (hlegacy inner)
      · obtain ⟨-, rfl⟩ := cons.inj (encodeBytes_inj hlen' hb)
        rw [hinner] at hwriter
        exact absurd hspelled (writer_ne_spelled hnone hwriter)
    · refine absurd ⟨payload, t.zeroed, ?_, ?_, hnone⟩ hnot
      · rw [hinner]
        rfl
      · exact decodeBytes_push spelled_roundTrip hspelled hpayload

def IsArbitrumLegacy (tx : Transaction) : Prop := ∃ inner, tx.inner = .arbitrumLegacy inner

theorem hash_eq [Crypto] (h : ¬ tx.IsArbitrumLegacy) : tx.hash = keccak256 tx.hashInput := by
  obtain ⟨inner⟩ := tx
  cases inner with
  | arbitrumLegacy inner => exact absurd ⟨inner, rfl⟩ h
  | _ => rfl

theorem txType_lt (inner : TxData) : inner.txType.toNat < 0x80 := by
  cases inner <;> rw [txType] <;> decide

/-- The input is determined by what the hash is taken of. -/
theorem hashInput_cases (hlen : b.length < 2 ^ 63) (h : decodeBytes b = .ok tx)
    (hsidecar : ¬ tx.inner.HasSidecar) (hnitro : ¬ tx.IsArbitrumLegacy) :
    (b = tx.hashInput ∧ ∃ content, b = encodeList content) ∨
    (b = encodeBytes tx.hashInput ∧ tx.hashInput.head? = some tx.inner.txType) := by
  rcases decodeBytes_cases hlen h with ⟨inner, hinner, hwriter⟩ | ⟨hlegacy, payload, hb, hacc⟩
  · obtain ⟨content, -, hlist⟩ := bind_eq_ok.mp hwriter
    refine .inl ⟨?_, content, (ok.inj hlist).symm⟩
    simp only [hashInput, hinner, writer, hwriter]
    rfl
  have hwriter : tx.inner.writer = .ok payload := by
    rcases hacc with hwriter | hside | ⟨t, hinner, -⟩
    · exact hwriter
    · exact absurd hside hsidecar
    · exact absurd ⟨t, hinner⟩ hnitro
  have hinput : tx.hashInput = tx.inner.txType :: payload := by
    obtain ⟨inner⟩ := tx
    cases inner with
    | legacy inner => exact absurd rfl (hlegacy inner)
    | _ =>
      simp only [hashInput, hwriter]
      rfl
  exact .inr ⟨by rw [hb, hinput], by rw [hinput]; rfl⟩

theorem head_encodeList {c : Bytes} {x : UInt8} (hlen : (encodeList c).length < 2 ^ 64)
    (h : (encodeList c).head? = some x) : 0x80 ≤ x.toNat := by
  have hle := intsize_le_eight (length_lt_of_encodeList hlen)
  simp only [encodeList, puthead] at h
  split at h
  · have hx : UInt8.ofNat (0xC0 + c.length) = x := by simpa using h
    rw [← hx, toNat_ofNat_of_lt (by omega)]
    omega
  · have hx : UInt8.ofNat (0xF7 + intsize c.length) = x := by simpa using h
    rw [← hx, toNat_ofNat_of_lt (by omega)]
    omega

/-- **Canonical decoding.**  An input accepted as one complete transaction without a sidecar
    is reproduced by `EncodeRLP` exactly when it does not spell out the nil sender of a
    pre-Nitro transaction.  Two accepted inputs of the other types with the same hash are
    the same input, unless the hash function collides on the two transactions. -/
theorem encodeRLP_decodeRLP [Crypto] {b : Bytes} {tx : Transaction} (hlen : b.length < 2 ^ 63)
    (h : decodeBytes b = .ok tx) (hsidecar : ¬ tx.inner.HasSidecar) :
    (tx.encodeRLP = .ok b ↔ ¬ NilSenderSpelled b) ∧
    ∀ (b' : Bytes) (tx' : Transaction), b'.length < 2 ^ 63 → decodeBytes b' = .ok tx' →
      ¬ tx'.inner.HasSidecar → ¬ tx.IsArbitrumLegacy → ¬ tx'.IsArbitrumLegacy →
      (keccak256 tx.hashInput = keccak256 tx'.hashInput → tx.hashInput = tx'.hashInput) →
      tx.hash = tx'.hash → b = b' := by
  refine ⟨encodeRLP_decodeBytes_iff hlen h hsidecar, ?_⟩
  intro b' tx' hlen' h' hsidecar' hnitro hnitro' hcollision hhash
  rw [hash_eq hnitro, hash_eq hnitro'] at hhash
  have hinput := hcollision hhash
  -- a list and a type byte cannot begin the same
  have hmixed : ∀ (c : Bytes) (content : Bytes) (inner : TxData), c.length < 2 ^ 63 →
      c = encodeList content → c.head? ≠ some inner.txType := by
    rintro c content inner hc rfl hhead
    have hge := head_encodeList (hc.trans (by norm_num)) hhead
    have hlt := txType_lt inner
    omega
  rcases hashInput_cases hlen h hsidecar hnitro with ⟨hb, content, hlist⟩ | ⟨hb, hhead⟩
  · rcases hashInput_cases hlen' h' hsidecar' hnitro' with ⟨hb', -⟩ | ⟨-, hhead'⟩
    · rw [hb, hb', hinput]
    · rw [← hinput, ← hb] at hhead'
      exact absurd hhead' (hmixed b content tx'.inner hlen hlist)
  · rcases hashInput_cases hlen' h' hsidecar' hnitro' with ⟨hb', content, hlist⟩ | ⟨hb', -⟩
    · rw [hinput, ← hb'] at hhead
      exact absurd hhead (hmixed b' content tx.inner hlen' hlist)
    · rw [hb, hb', hinput]

/-- A transfer in the legacy form and with a dynamic fee. -/
def legacyTransfer : Transaction :=
  ⟨.legacy ⟨9, some 20, 21000, some 0x35, some 5, [1, 2], some 37, some 1, some 2⟩⟩

def dynamicTransfer : Transaction :=
  ⟨.dynamicFee ⟨some 1, 9, some 2, some 20, 21000, some 0x35, some 5, [1, 2], [], some 0, some 1,
    some 2⟩⟩

/-- The fields of both from the gas price to the data. -/
def transferFields : Bytes := [20, 0x82, 82, 8, 0x94] ++ replicate 19 0 ++ [0x35, 5, 0x82, 1, 2]

def legacyBytes : Bytes := encodeList (9 :: transferFields ++ [37, 1, 2])

def dynamicBytes : Bytes := 2 :: encodeList ([1, 9, 2] ++ transferFields ++ [0xC0, 0x80, 1, 2])

theorem encodeRLP_decodeRLP_transfers :
    decodeBytes legacyBytes = .ok legacyTransfer ∧
      decodeBytes (encodeBytes dynamicBytes) = .ok dynamicTransfer ∧
      ¬ NilSenderSpelled legacyBytes ∧
      @hash numberCrypto legacyTransfer ≠ @hash numberCrypto dynamicTransfer := by
  let _ : Crypto := numberCrypto
  have hlegacy : decodeBytes legacyBytes = .ok legacyTransfer := by decide +kernel
  have hdynamic : decodeBytes (encodeBytes dynamicBytes) = .ok dynamicTransfer := by decide +kernel
  have hnitro : ¬ legacyTransfer.IsArbitrumLegacy ∧ ¬ dynamicTransfer.IsArbitrumLegacy := by
    constructor <;> rintro ⟨inner, hinner⟩ <;> cases hinner
  have hcollision : keccak256 legacyTransfer.hashInput = keccak256 dynamicTransfer.hashInput →
      legacyTransfer.hashInput = dynamicTransfer.hashInput := by decide +kernel
  have hmain := encodeRLP_decodeRLP (by decide) hlegacy id
  refine ⟨hlegacy, hdynamic, hmain.1.mp (by decide +kernel), fun heq => ?_⟩
  have hsame := hmain.2 _ _ (by decide) hdynamic id hnitro.1 hnitro.2 hcollision heq
  exact absurd hsame (by decide)

/-- A pre-Nitro transaction with hash one, its nil sender left out or spelled out. -/
def preNitro (nonce : UInt8) (sender : Bytes) : Bytes :=
  encodeBytes (0x78 :: encodeList (0xC9 :: nonce :: replicate 8 0x80 ++
    (0xA0 :: replicate 31 0 ++ [0x01]) ++ [0x80, 0x80] ++ sender))

/-- Two inputs are accepted for one transaction, which is re-encoded as the shorter one.
    Another transaction has the same hash. -/
theorem nil_sender_not_canonical :
    ∃ tx tx' : Transaction,
      decodeBytes (preNitro 0x80 [0x80]) = .ok tx ∧ decodeBytes (preNitro 0x80 []) = .ok tx ∧
      tx.encodeRLP = .ok (preNitro 0x80 []) ∧ preNitro 0x80 [0x80] ≠ preNitro 0x80 [] ∧
      decodeBytes (preNitro 0x01 []) = .ok tx' ∧ tx'.encodeRLP = .ok (preNitro 0x01 []) ∧
      tx' ≠ tx ∧ @hash numberCrypto tx' = @hash numberCrypto tx := by
  let legacy (nonce : U64) : LegacyTx :=
    ⟨nonce, some 0, 0, none, some 0, [], some 0, some 0, some 0⟩
  refine ⟨⟨.arbitrumLegacy ⟨legacy 0, 1, 0, 0, none⟩⟩,
    ⟨.arbitrumLegacy ⟨legacy 1, 1, 0, 0, none⟩⟩, ?_⟩
  decide +kernel

/-! ### Raw transactions -/

def arbosAddress : Address := 0xa4b05

/-- `arbitrumSigner.Sender` over the signer `base`: most Arbitrum types name their sender. -/
def sender {ε : Type} (base : Transaction → Except ε Address)
    (tx : Transaction) : Except ε Address :=
  match tx.inner with
  | .arbitrumUnsigned inner => .ok inner.from_
  | .arbitrumContract inner => .ok inner.from_
  | .arbitrumDeposit inner => .ok inner.from_
  | .arbitrumInternal _ => .ok arbosAddress
  | .arbitrumRetry inner => .ok inner.from_
  | .arbitrumSubmitRetryable inner => .ok inner.from_
  | .arbitrumLegacy inner =>
    match inner.sender with
    | some sender => .ok sender
    | none => base ⟨.legacy inner.legacyTx⟩
  | _ => base tx

/-- The types a signature is needed for. -/
def Signed (tx : Transaction) : Prop :=
  match tx.inner with
  | .legacy _ | .accessList _ | .dynamicFee _ | .blob _ | .setCode _ => True
  | _ => False

/-- A signed transaction has a type of Ethereum, and the base signer finds its sender. -/
theorem Signed.type_and_sender (h : tx.Signed) :
    (tx.inner.txType = 0 ∨ tx.inner.txType = 1 ∨ tx.inner.txType = 2 ∨ tx.inner.txType = 3 ∨
      tx.inner.txType = 4) ∧
      ∀ {ε : Type} (base : Transaction → Except ε Address), tx.sender base = base tx := by
  obtain ⟨inner⟩ := tx
  cases inner with
  | legacy inner => exact ⟨.inl rfl, fun _ => rfl⟩
  | accessList inner => exact ⟨.inr (.inl rfl), fun _ => rfl⟩
  | dynamicFee inner => exact ⟨.inr (.inr (.inl rfl)), fun _ => rfl⟩
  | blob inner => exact ⟨.inr (.inr (.inr (.inl rfl))), fun _ => rfl⟩
  | setCode inner => exact ⟨.inr (.inr (.inr (.inr rfl))), fun _ => rfl⟩
  | _ => exact h.elim

/-- The decoders used for raw transactions give signed types only. -/
theorem signed_of_ethereumDecoder (hdecoder : ethereumDecoder ty = some decode)
    (h : decode input = .ok inner) : Signed ⟨inner⟩ := by
  unfold ethereumDecoder at hdecoder
  split_ifs at hdecoder
  all_goals
    cases hdecoder
    obtain ⟨tx, -, h⟩ := bind_eq_ok.mp h
    cases h
    exact trivial

theorem signed_of_decodeTyped (h : decodeTyped b false = .ok inner) : Signed ⟨inner⟩ := by
  match b with
  | [] => cases h
  | [x] => cases h
  | ty :: x :: xs =>
    cases hdecoder : ethereumDecoder ty with
    | none =>
      simp only [decodeTyped, hdecoder] at h
      cases h
    | some decode =>
      simp only [decodeTyped, hdecoder] at h
      exact signed_of_ethereumDecoder hdecoder h

/-- **No forged system transaction.**  A transaction accepted as raw bytes has one of the
    types 0 to 4, and its sender is the one the base signer finds from its signature. -/
theorem unmarshalBinary_signed {b : Bytes} {tx : Transaction} (h : unmarshalBinary b = .ok tx) :
    (tx.inner.txType = 0 ∨ tx.inner.txType = 1 ∨ tx.inner.txType = 2 ∨ tx.inner.txType = 3 ∨
      tx.inner.txType = 4) ∧
      ∀ {ε : Type} (base : Transaction → Except ε Address), tx.sender base = base tx := by
  apply Signed.type_and_sender
  unfold unmarshalBinary at h
  split at h
  · obtain ⟨data, -, h⟩ := bind_eq_ok.mp h
    cases h
    exact trivial
  · obtain ⟨inner, hinner, h⟩ := bind_eq_ok.mp h
    cases h
    exact signed_of_decodeTyped hinner

theorem unmarshalBinary_signed_dynamic :
    unmarshalBinary dynamicBytes = .ok dynamicTransfer ∧
      dynamicTransfer.sender (fun _ => (.ok 7 : Except Unit Address)) = .ok 7 := by
  have hdecode : unmarshalBinary dynamicBytes = .ok dynamicTransfer := by decide +kernel
  exact ⟨hdecode, (unmarshalBinary_signed hdecode).2 _⟩

end Transaction

end GethArb.Tx
