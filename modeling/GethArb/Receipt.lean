/-
  **Receipts in the consensus format** (`core/types/receipt.go`: `EncodeRLP`,
  `MarshalBinary`, `DecodeRLP`, `UnmarshalBinary`, `decodeTyped`, `setStatus`,
  `Receipts.EncodeIndex`; `core/types/gen_log_rlp.go`; `core/types/bloom9.go`).

  Three writers and two readers share one payload, the RLP list of four consensus fields.
  A receipt of another type than the legacy one has its type in front.  The lists of types
  differ: `MarshalBinary` and `EncodeRLP` write any type, `EncodeIndex` the Ethereum and
  the Arbitrum ones (a pre-Nitro receipt without its type), and `decodeTyped` reads the
  Ethereum ones only.  So the formats agree and read back for the types 0 to 4 and for no
  other (`roundTrips_iff`).

  A decoder works on the receipt it is called on, and leaves the fields it does not set.
  Logs are values: the code never stores a nil pointer among them.
-/
import GethArb.TxCodec
import GethArb.MultiGas

namespace GethArb

open Rlp Tx Multigas TypeInfo Log

/-- `types.Bloom`, 256 bytes. -/
abbrev Bloom := BitVec (8 * 256)

def receiptStatusFailed : U64 := 0

def receiptStatusSuccessful : U64 := 1

def receiptStatusFailedRLP : Bytes := []

def receiptStatusSuccessfulRLP : Bytes := [0x01]

/-! ### Logs -/

/-- The fields that are encoded; the others are left at zero. -/
def Log.consensus (log : Log) : Log :=
  { address := log.address, topics := log.topics, data := log.data }

open TypeInfo Fields in
/-- The generated encoder of a log, and the decoder of the struct. -/
def Log.info : TypeInfo Log :=
  (struct <| cons TypeInfo.address <| cons (slice hash) <| last bytes).view
    (fun log => (log.address, log.topics, log.data))
    (fun (address, topics, data) => { address := address, topics := topics, data := data })

instance Log.lawful : info.Lawful (fun _ => True) consensus :=
  lawful_view (fun _ => rfl) (fun _ _ => ⟨trivial, trivial, trivial⟩) fun _ => rfl

def Log.slice : TypeInfo (List Log) := .slice info

instance Log.slice_lawful : slice.Lawful (fun _ => True) (List.map consensus) where
  roundTrip := (slice_roundTrip lawful.roundTrip).congr (fun _ _ _ _ => trivial) fun _ => rfl
  canonical := slice_canonical lawful.canonical

/-! ### Receipts -/

structure Receipt where
  gasUsedForL1 : U64 := 0
  multiGasUsed : MultiGas := zeroGas
  type : UInt8 := 0
  postState : Bytes := []
  status : U64 := 0
  cumulativeGasUsed : U64 := 0
  bloom : Bloom := 0
  logs : List Log := []
  txHash : Hash := 0
  contractAddress : Address := 0
  gasUsed : U64 := 0
  effectiveGasPrice : BigInt := none
  blobGasUsed : U64 := 0
  blobGasPrice : BigInt := none
  blockHash : Hash := 0
  blockNumber : BigInt := none
  transactionIndex : U64 := 0
deriving DecidableEq

inductive ReceiptError where
  | rlp (err : Error)
  | shortTypedReceipt
  | txTypeNotSupported
  | bufferSize (size : Nat)
  | invalidReceiptStatus (b : Bytes)
  | notArbitrumLegacyTx
deriving DecidableEq, Repr

/-- `receiptRLP`, the consensus encoding of a receipt. -/
structure ReceiptRLP where
  postStateOrStatus : Bytes
  cumulativeGasUsed : U64
  bloom : Bloom
  logs : List Log
deriving DecidableEq, Repr

variable {b : Bytes}

namespace ReceiptRLP

open TypeInfo Fields in
def info : TypeInfo ReceiptRLP :=
  (struct <| cons bytes <| cons uint64 <| cons (byteArray 256) <| last slice).view
    (fun data => (data.postStateOrStatus, data.cumulativeGasUsed, data.bloom, data.logs))
    (fun (postStateOrStatus, cumulativeGasUsed, bloom, logs) =>
      ⟨postStateOrStatus, cumulativeGasUsed, bloom, logs⟩)

theorem lawful : info.Lawful (fun _ => True)
    fun data => { data with logs := data.logs.map consensus } := by
  have := byteArray_lawful (n := 256) (by norm_num)
  exact lawful_view (fun _ => rfl) (fun _ _ => ⟨trivial, trivial, trivial, trivial⟩) fun _ => rfl

/-- The encoding is a list. -/
theorem writer_list {data : ReceiptRLP} (h : info.writer data = .ok b) :
    ∃ content, b = encodeList content := by
  obtain ⟨content, -, h⟩ := bind_eq_ok.mp h
  cases h
  exact ⟨content, rfl⟩

end ReceiptRLP

namespace Receipt

def statusEncoding (r : Receipt) : Bytes :=
  if r.postState.length = 0 then
    if r.status = receiptStatusFailed then receiptStatusFailedRLP else receiptStatusSuccessfulRLP
  else r.postState

def setStatus (r : Receipt) (postStateOrStatus : Bytes) : Except ReceiptError Receipt :=
  if postStateOrStatus = receiptStatusSuccessfulRLP then
    .ok { r with status := receiptStatusSuccessful }
  else if postStateOrStatus = receiptStatusFailedRLP then
    .ok { r with status := receiptStatusFailed }
  else if postStateOrStatus.length = 32 then .ok { r with postState := postStateOrStatus }
  else .error (.invalidReceiptStatus postStateOrStatus)

def setFromRLP (r : Receipt) (data : ReceiptRLP) : Except ReceiptError Receipt :=
  { r with
    cumulativeGasUsed := data.cumulativeGasUsed
    bloom := data.bloom
    logs := data.logs }.setStatus data.postStateOrStatus

/-- The struct the encoders build. -/
def data (r : Receipt) : ReceiptRLP :=
  ⟨r.statusEncoding, r.cumulativeGasUsed, r.bloom, r.logs⟩

/-- The type and the payload. -/
def encodeTyped (r : Receipt) : Except Error Bytes := do
  let payload ← ReceiptRLP.info.writer r.data
  .ok (r.type :: payload)

def encodeRLP (r : Receipt) : Except Error Bytes :=
  if r.type = legacyTxType then ReceiptRLP.info.writer r.data
  else do
    let b ← r.encodeTyped
    .ok (encodeBytes b)

def marshalBinary (r : Receipt) : Except Error Bytes :=
  if r.type = legacyTxType then r.encodeRLP else r.encodeTyped

/-- The types `decodeTyped` reads. -/
def ethereumTyped (ty : UInt8) : Bool :=
  ty = dynamicFeeTxType ∨ ty = accessListTxType ∨ ty = blobTxType ∨ ty = setCodeTxType

def decodeTyped (r : Receipt) (b : Bytes) : Except ReceiptError Receipt :=
  match b with
  | [] => .error .shortTypedReceipt
  | [_] => .error .shortTypedReceipt
  | ty :: input =>
    if ethereumTyped ty then do
      let data ← (decodeBytes ReceiptRLP.info input).mapError .rlp
      { r with type := ty }.setFromRLP data
    else .error .txTypeNotSupported

def decodeRLP (r : Receipt) (s : Stream) : Except ReceiptError (Receipt × Stream) := do
  let (h, _) ← s.kind.mapError .rlp
  match h.kind with
  | .list =>
    let (dec, s) ← (ReceiptRLP.info.decoder s).mapError .rlp
    let r ← { r with type := legacyTxType }.setFromRLP dec
    .ok (r, s)
  | .byte => .error .shortTypedReceipt
  | .string =>
    -- `getPooledBuffer`
    if h.size > 2 ^ 63 - 1 then .error (.bufferSize h.size)
    else
      let (b, s) ← (s.readBytes h.size).mapError .rlp
      let r ← r.decodeTyped b
      .ok (r, s)

/-- `rlp.DecodeBytes` into the receipt. -/
def decodeBytes (r : Receipt) (b : Bytes) : Except ReceiptError Receipt := do
  let (r, s) ← r.decodeRLP ⟨b, decide (b.length > 0), []⟩
  if s.input.length > 0 then .error (.rlp .moreThanOneValue) else .ok r

def unmarshalBinary (r : Receipt) (b : Bytes) : Except ReceiptError Receipt :=
  if b.head?.any (· > 0x7f) then do
    let data ← (Rlp.decodeBytes ReceiptRLP.info b).mapError .rlp
    { r with type := legacyTxType }.setFromRLP data
  else r.decodeTyped b

/-- The Arbitrum types `EncodeIndex` writes with a payload. -/
def arbitrumTyped (ty : UInt8) : Bool :=
  ty = arbitrumDepositTxType ∨ ty = arbitrumUnsignedTxType ∨ ty = arbitrumContractTxType ∨
    ty = arbitrumRetryTxType ∨ ty = arbitrumSubmitRetryableTxType ∨ ty = arbitrumInternalTxType

end Receipt

/-- `Receipts.EncodeIndex`: the bytes written for the receipt at an index.  An error of the
    encoder is dropped. -/
def encodeIndex (rs : List Receipt) (i : Fin rs.length) : Bytes :=
  let r := rs.get i
  let payload := (ReceiptRLP.info.writer r.data).toOption.getD []
  if r.type = legacyTxType ∨ r.type = arbitrumLegacyTxType then payload
  else if Receipt.ethereumTyped r.type ∨ Receipt.arbitrumTyped r.type then r.type :: payload
  else [r.type]

namespace Receipt

/-! ### What reads back -/

/-- The outcome is one the format knows: a post state of 32 bytes, or none and a status of
    zero or one. -/
def WellFormed (r : Receipt) : Prop :=
  r.postState = [] ∧ (r.status = receiptStatusFailed ∨ r.status = receiptStatusSuccessful) ∨
    r.postState.length = 32

instance (r : Receipt) : Decidable r.WellFormed := inferInstanceAs (Decidable (_ ∨ _))

/-- The post state if there is one, else the status. -/
def SameOutcome (r r' : Receipt) : Prop :=
  if r.postState = [] then r'.postState = [] ∧ r'.status = r.status
  else r'.postState = r.postState

/-- The consensus fields. -/
structure SameConsensus (r r' : Receipt) : Prop where
  type : r'.type = r.type
  outcome : r.SameOutcome r'
  cumulativeGasUsed : r'.cumulativeGasUsed = r.cumulativeGasUsed
  bloom : r'.bloom = r.bloom
  logs : r'.logs.map consensus = r.logs.map consensus

/-- A receipt with an outcome set. -/
def withOutcome (r : Receipt) (outcome : Receipt) : Receipt :=
  if outcome.postState = [] then { r with status := outcome.status }
  else { r with postState := outcome.postState }

variable {r r' : Receipt}

theorem setStatus_statusEncoding (h : r.WellFormed) (r₀ : Receipt) :
    r₀.setStatus r.statusEncoding = .ok (r₀.withOutcome r) := by
  rcases h with ⟨hpost, hstatus | hstatus⟩ | hpost
  · simp [setStatus, statusEncoding, withOutcome, hpost, hstatus, receiptStatusFailedRLP,
      receiptStatusSuccessfulRLP]
  · simp [setStatus, statusEncoding, withOutcome, hpost, hstatus, receiptStatusFailed,
      receiptStatusSuccessful]
  · have hne : r.postState ≠ [] := by
      intro hnil
      rw [hnil] at hpost
      cases hpost
    have hsuccessful : r.postState ≠ receiptStatusSuccessfulRLP := by
      intro heq
      rw [heq] at hpost
      cases hpost
    have hencoding : r.statusEncoding = r.postState := if_neg (by omega)
    have hfailed : r.postState ≠ receiptStatusFailedRLP := hne
    rw [hencoding, setStatus, if_neg hsuccessful, if_neg hfailed, if_pos hpost, withOutcome,
      if_neg hne]

theorem sameOutcome_withOutcome (r : Receipt) {r₀ : Receipt} (h : r₀.postState = []) :
    r.SameOutcome (r₀.withOutcome r) := by
  unfold SameOutcome withOutcome
  split
  · exact ⟨h, rfl⟩
  · rfl

/-- A fresh receipt gets an outcome of the format. -/
theorem wellFormed_of_setStatus (hpost : r.postState = []) (h : r.setStatus b = .ok r') :
    r'.WellFormed := by
  unfold setStatus at h
  split at h
  · cases h
    exact .inl ⟨hpost, .inr rfl⟩
  split at h
  · cases h
    exact .inl ⟨hpost, .inl rfl⟩
  split at h
  · rename_i hlen
    cases h
    exact .inr hlen
  · cases h

theorem type_of_setStatus (h : r.setStatus b = .ok r') : r'.type = r.type := by
  unfold setStatus at h
  repeat' split at h
  all_goals cases h
  all_goals rfl

/-- A decoder keeps the type it has set. -/
theorem setFromRLP_inv {data : ReceiptRLP} (hpost : r.postState = [])
    (h : r.setFromRLP data = .ok r') : r'.type = r.type ∧ r'.WellFormed := by
  have htype := type_of_setStatus h
  have hwf := wellFormed_of_setStatus (by exact hpost) h
  exact ⟨htype, hwf⟩

theorem wellFormed_of_sameOutcome (h : r.SameOutcome r') (hr' : r'.WellFormed) : r.WellFormed := by
  unfold SameOutcome at h
  split at h
  · rename_i hpost
    rcases hr' with ⟨-, hstatus⟩ | hlen
    · exact .inl ⟨hpost, h.2 ▸ hstatus⟩
    · rw [h.1] at hlen
      cases hlen
  · rename_i hpost
    rcases hr' with ⟨hnil, -⟩ | hlen
    · exact absurd (h ▸ hnil) hpost
    · exact .inr (h ▸ hlen)

/-- The types that read back. -/
def Readable (ty : UInt8) : Prop := ty = legacyTxType ∨ ethereumTyped ty

instance (ty : UInt8) : Decidable (Readable ty) := inferInstanceAs (Decidable (_ ∨ _))

/-- Only receipts of readable types and with outcomes of the format are ever decoded. -/
theorem unmarshalBinary_inv (hpost : r.postState = []) (h : r.unmarshalBinary b = .ok r') :
    Readable r'.type ∧ r'.WellFormed := by
  unfold unmarshalBinary at h
  split at h
  · obtain ⟨data, -, h⟩ := bind_eq_ok.mp h
    obtain ⟨htype, hwf⟩ := setFromRLP_inv (r := { r with type := legacyTxType }) hpost h
    exact ⟨.inl htype, hwf⟩
  unfold decodeTyped at h
  split at h
  · cases h
  · cases h
  · rename_i ty input _ _
    split at h
    · rename_i hty
      obtain ⟨data, -, h⟩ := bind_eq_ok.mp h
      obtain ⟨htype, hwf⟩ := setFromRLP_inv (r := { r with type := ty }) hpost h
      exact ⟨.inr (htype ▸ hty), hwf⟩
    · cases h

/-- The receipt a payload is read back as. -/
def readBack (r₀ r : Receipt) : Receipt :=
  { r₀ with
    type := r.type
    cumulativeGasUsed := r.cumulativeGasUsed
    bloom := r.bloom
    logs := r.logs.map consensus }.withOutcome r

theorem consensus_idem (logs : List Log) :
    (logs.map consensus).map consensus = logs.map consensus := by
  rw [List.map_map]
  rfl

theorem sameConsensus_readBack (r r₀ : Receipt) (hpost : r₀.postState = []) :
    r.SameConsensus (r₀.readBack r) where
  type := by
    unfold readBack withOutcome
    split <;> rfl
  outcome := sameOutcome_withOutcome r hpost
  cumulativeGasUsed := by
    unfold readBack withOutcome
    split <;> rfl
  bloom := by
    unfold readBack withOutcome
    split <;> rfl
  logs := by
    have hlogs : (r₀.readBack r).logs = r.logs.map consensus := by
      unfold readBack withOutcome
      split <;> rfl
    rw [hlogs, consensus_idem]

section
variable {r : Receipt} (hwf : r.WellFormed) (r₀ : Receipt)

include hwf in
theorem setFromRLP_data :
    { r₀ with type := r.type }.setFromRLP { r.data with logs := r.data.logs.map consensus } =
      .ok (r₀.readBack r) :=
  setStatus_statusEncoding hwf _

variable {payload : Bytes} (hpayload : ReceiptRLP.info.writer r.data = .ok payload)

include hwf hpayload in
/-- A payload behind the type. -/
theorem decodeTyped_payload (hlen : payload.length < 2 ^ 64) (hty : ethereumTyped r.type) :
    r₀.decodeTyped (r.type :: payload) = .ok (r₀.readBack r) := by
  have hread := decodeBytes_push ReceiptRLP.lawful.roundTrip hpayload hlen
  cases payload with
  | nil => exact absurd rfl (ReceiptRLP.lawful.roundTrip.ne_nil _ _ hpayload)
  | cons x xs =>
    simp only [decodeTyped, hty, hread]
    exact setFromRLP_data hwf r₀

theorem le_of_ethereumTyped {ty : UInt8} (h : ethereumTyped ty) : ¬ ty > 0x7f := by
  simp only [ethereumTyped, decide_eq_true_eq] at h
  rcases h with rfl | rfl | rfl | rfl <;> decide

theorem ne_legacy_of_ethereumTyped {ty : UInt8} (h : ethereumTyped ty) : ty ≠ legacyTxType := by
  simp only [ethereumTyped, decide_eq_true_eq] at h
  rcases h with rfl | rfl | rfl | rfl <;> decide

include hwf hpayload in
theorem unmarshalBinary_marshalBinary (hlen : payload.length < 2 ^ 64) (hty : Readable r.type) :
    ∃ b, r.marshalBinary = .ok b ∧ r₀.unmarshalBinary b = .ok (r₀.readBack r) := by
  rcases hty with hty | hty
  · refine ⟨payload, ?_, ?_⟩
    · simp [marshalBinary, encodeRLP, if_pos hty, hpayload]
    · -- a list starts above the types
      obtain ⟨content, rfl⟩ := ReceiptRLP.writer_list hpayload
      have hhead : (encodeList content).head?.any (· > 0x7f) := by
        cases hc : (encodeList content).head? with
        | none => exact absurd (List.head?_eq_none_iff.mp hc) (encodeList_ne_nil content)
        | some x =>
          have hx : 0x80 ≤ x.toNat := Transaction.head_encodeList hlen hc
          have hlt : (0x7f : UInt8) < x := UInt8.lt_iff_toNat_lt.mpr hx
          simpa using hlt
      have hread := decodeBytes_push ReceiptRLP.lawful.roundTrip hpayload hlen
      simp only [unmarshalBinary, hhead, hread]
      have hset := setFromRLP_data hwf r₀
      rw [hty] at hset
      exact hset
  · refine ⟨r.type :: payload, ?_, ?_⟩
    · simp only [marshalBinary, if_neg (ne_legacy_of_ethereumTyped hty), encodeTyped, hpayload]
      rfl
    · have hhead : ¬ (r.type :: payload).head?.any (· > 0x7f) := by
        simpa using le_of_ethereumTyped hty
      rw [unmarshalBinary, if_neg hhead]
      exact decodeTyped_payload hwf r₀ hpayload hlen hty

include hwf in
/-- Whatever was encoded is read back from any stream. -/
theorem decodeRLP_push (hty : Readable r.type) (h : r.encodeRLP = .ok b)
    (hlen : b.length < 2 ^ 63) {s : Stream} (hfits : s.Fits b.length) :
    r₀.decodeRLP (s.push b) = .ok (r₀.readBack r, s) := by
  unfold encodeRLP at h
  rcases hty with hty | hty
  · rw [if_pos hty] at h
    obtain ⟨content, rfl⟩ := ReceiptRLP.writer_list h
    have hread := ReceiptRLP.lawful.roundTrip.reads r.data _ s h (by omega) hfits
    have hkind := Stream.kind_push_header (s := s) (k := .list) (by decide)
      (length_lt_of_encodeList (by omega)) hfits
    have hset := setFromRLP_data hwf r₀
    rw [hty] at hset
    have hlist : encodeList content = header .list content.length ++ content := rfl
    rw [← hlist] at hkind
    simp [decodeRLP, hkind, hread, Except.mapError, hset]
  · rw [if_neg (ne_legacy_of_ethereumTyped hty)] at h
    obtain ⟨typed, htyped, h⟩ := bind_eq_ok.mp h
    obtain ⟨payload, hpayload, htyped⟩ := bind_eq_ok.mp htyped
    cases htyped
    cases h
    have hle := length_le_encodeBytes (r.type :: payload)
    have hdecode := decodeTyped_payload hwf r₀ hpayload (by rw [List.length_cons] at hle; omega) hty
    have hread := Stream.readBytes_push (s := s) (b := r.type :: payload) (by omega) hfits
    rcases Stream.kind_encodeBytes (s := s) (b := r.type :: payload) (by omega) hfits with
      ⟨x, -, hx, -⟩ | ⟨-, -, hkind⟩
    · exact absurd (List.cons.inj hx).2 (ReceiptRLP.lawful.roundTrip.ne_nil _ _ hpayload)
    · simp only [decodeRLP, hkind, bind, Except.bind, Except.mapError]
      rw [if_neg (by omega)]
      simp only [hread, hdecode]

end

/-- The payload is not longer than what `EncodeRLP` writes. -/
theorem length_payload_le {payload : Bytes}
    (hpayload : ReceiptRLP.info.writer r.data = .ok payload) :
    ∃ b, r.encodeRLP = .ok b ∧ payload.length ≤ b.length := by
  unfold encodeRLP
  split
  · exact ⟨payload, hpayload, le_rfl⟩
  · have hle := length_le_encodeBytes (r.type :: payload)
    rw [List.length_cons] at hle
    refine ⟨encodeBytes (r.type :: payload), ?_, by omega⟩
    simp [encodeTyped, hpayload]

/-- The three writers and the two readers agree on the receipt at an index. -/
structure RoundTrips (rs : List Receipt) (i : Fin rs.length) : Prop where
  binary : ∃ b r', (rs.get i).marshalBinary = .ok b ∧ ({} : Receipt).unmarshalBinary b = .ok r' ∧
    (rs.get i).SameConsensus r' ∧ encodeIndex rs i = b
  stream : ∃ b, (rs.get i).encodeRLP = .ok b ∧ ∀ s : Stream, s.Fits b.length →
    ∃ r', ({} : Receipt).decodeRLP (s.push b) = .ok (r', s) ∧ (rs.get i).SameConsensus r'

/-- `EncodeIndex` and `MarshalBinary` on the types that read back. -/
theorem encodeIndex_eq {rs : List Receipt} {i : Fin rs.length} (hty : Readable (rs.get i).type)
    (h : (rs.get i).marshalBinary = .ok b) : encodeIndex rs i = b := by
  obtain ⟨payload, hpayload⟩ := ReceiptRLP.lawful.roundTrip.writes (rs.get i).data trivial
  unfold marshalBinary encodeRLP encodeTyped at h
  rcases hty with hty | hty
  · simp only [hpayload, if_pos hty] at h
    cases h
    simp only [encodeIndex, hpayload, hty]
    rfl
  have hlegacy := ne_legacy_of_ethereumTyped hty
  have hpreNitro : (rs.get i).type ≠ arbitrumLegacyTxType := by
    intro heq
    rw [heq] at hty
    exact absurd hty (by decide)
  simp only [hpayload, if_neg hlegacy] at h
  cases h
  simp only [encodeIndex, hpayload, hlegacy, hpreNitro, hty]
  rfl

/-- **The consensus format.**  `UnmarshalBinary` reads back what `MarshalBinary` wrote,
    `DecodeRLP` what `EncodeRLP` wrote, and `EncodeIndex` writes the bytes of
    `MarshalBinary`, exactly for receipts of the types 0 to 4 whose outcome the format
    knows.  The length is that of a Go slice. -/
theorem roundTrips_iff (rs : List Receipt) (i : Fin rs.length)
    (hsize : ∀ b, (rs.get i).encodeRLP = .ok b → b.length < 2 ^ 63) :
    RoundTrips rs i ↔ Readable (rs.get i).type ∧ (rs.get i).WellFormed := by
  constructor
  · intro h
    obtain ⟨b, r', -, hread, hsame, -⟩ := h.binary
    obtain ⟨hty, hwf⟩ := unmarshalBinary_inv rfl hread
    rw [hsame.type] at hty
    exact ⟨hty, wellFormed_of_sameOutcome hsame.outcome hwf⟩
  · intro ⟨hty, hwf⟩
    obtain ⟨payload, hpayload⟩ := ReceiptRLP.lawful.roundTrip.writes (rs.get i).data trivial
    obtain ⟨b, hb, hle⟩ := length_payload_le hpayload
    have hlen := hsize b hb
    have hsame := sameConsensus_readBack (rs.get i) {} rfl
    constructor
    · obtain ⟨c, hc, hread⟩ := unmarshalBinary_marshalBinary hwf {} hpayload (by omega) hty
      exact ⟨c, _, hc, hread, hsame, encodeIndex_eq hty hc⟩
    · refine ⟨b, hb, fun s hfits => ?_⟩
      exact ⟨_, decodeRLP_push hwf {} hty hb hlen hfits, hsame⟩

/-- A receipt as an execution leaves it, of the given type. -/
def executed (ty : UInt8) : Receipt :=
  { type := ty, status := receiptStatusSuccessful, cumulativeGasUsed := 21000 }

theorem roundTrips_dynamicFee : RoundTrips [executed dynamicFeeTxType] 0 := by
  have hsize : ∀ b, (executed dynamicFeeTxType).encodeRLP = .ok b → b.length < 2 ^ 63 := by
    intro b hb
    have hlength : (executed dynamicFeeTxType).encodeRLP.toOption.map List.length = some 271 := by
      decide +kernel
    rw [hb] at hlength
    have hb : b.length = 271 := Option.some.inj hlength
    omega
  exact (roundTrips_iff [executed dynamicFeeTxType] 0 hsize).mpr ⟨by decide, .inl ⟨rfl, .inr rfl⟩⟩

/-- A deposit receipt is written by all three and read by none; a pre-Nitro receipt is
    written in two ways. -/
theorem arbitrum_receipts_unreadable :
    (∃ b, (executed arbitrumDepositTxType).marshalBinary = .ok b ∧
      encodeIndex [executed arbitrumDepositTxType] 0 = b ∧
      ({} : Receipt).unmarshalBinary b = .error .txTypeNotSupported) ∧
    (∃ b, (executed arbitrumDepositTxType).encodeRLP = .ok b ∧
      ({} : Receipt).decodeBytes b = .error .txTypeNotSupported) ∧
    (executed arbitrumLegacyTxType).marshalBinary ≠
      .ok (encodeIndex [executed arbitrumLegacyTxType] 0) := by
  refine ⟨⟨encodeIndex [executed arbitrumDepositTxType] 0, ?_, rfl, ?_⟩,
    ⟨encodeBytes (encodeIndex [executed arbitrumDepositTxType] 0), ?_, ?_⟩, ?_⟩
  all_goals decide +kernel

end Receipt

end GethArb
