/-
  **Receipts in the storage format** (`core/types/receipt.go`, type `ReceiptForStorage`;
  `core/types/bloom9.go`: `CreateBloom`).

  There are two list formats.  Pre-Nitro receipts store gas, status and contract address in
  fields of their own.  All others store the status or post state, two gas counters and the
  logs; behind them stand the contract address of an Arbitrum receipt and the
  multi-dimensional gas, each only if it is not zero, with a zero address in the first slot
  when only the second is needed.

  The decoder tries the second format, then the first.  The fourth value tells them apart:
  a list in one, an integer in the other.  What reads back is said exactly by `stored_iff`:
  a pre-Nitro receipt needs zero multi-dimensional gas, since its format has no slot for it
  and the encoder appends it all the same, and any other receipt an outcome of the format.
-/
import GethArb.Receipt

namespace GethArb

open Rlp Tx Multigas TypeInfo Stream Fields List Receipt

/-! ### Bloom filters -/

section
variable [Crypto]

/-- The bit the `k`-th pair of hash bytes selects, as an index of a byte counted from the
    end and a bit in it. -/
def bloomValue (hash : Hash) (k : Nat) : Bloom :=
  let pair := hash.toNat >>> (256 - 16 * (k + 1)) % 2 ^ 16
  (1 : Bloom) <<< (8 * (pair % 2 ^ 11 / 2 ^ 3) + pair % 2 ^ 3)

/-- `AddWithBuffer`. -/
def Bloom.add (bin : Bloom) (data : Bytes) : Bloom :=
  let hash := keccak256 data
  bin ||| bloomValue hash 0 ||| bloomValue hash 1 ||| bloomValue hash 2

/-- `CreateBloom` of a receipt with the given logs. -/
def createBloom (logs : List Log) : Bloom :=
  logs.foldl (fun bin log =>
    log.topics.foldl (fun bin topic => Bloom.add bin (hashBytes topic))
      (Bloom.add bin (addressBytes log.address))) 0

end

/-! ### The two formats -/

def receiptRootArbitrumLegacy : Bytes := [0x00]

structure StoredReceiptRLP where
  postStateOrStatus : Bytes
  cumulativeGasUsed : U64
  l1GasUsed : U64
  logs : List Log
  contractAddress : Option Address
  multiGasUsed : Option MultiGas

structure ArbLegacyStoredReceiptRLP where
  postStateOrStatus : Bytes
  cumulativeGasUsed : U64
  gasUsed : U64
  l1GasUsed : U64
  status : U64
  contractAddress : Address
  logs : List Log

open TypeInfo Fields in
/-- The two optional fields. -/
def StoredReceiptRLP.optionalFields : Fields (Option Address × Option MultiGas × Unit) :=
  optionalPtr address id .string (optionalPtr MultiGas.info MultiGas.stop .list nil ()) (none, ())

open TypeInfo Fields in
def StoredReceiptRLP.info : TypeInfo StoredReceiptRLP :=
  (struct <| cons bytes <| cons uint64 <| cons uint64 <| cons Log.slice <| optionalFields).view
    (fun stored => (stored.postStateOrStatus, stored.cumulativeGasUsed, stored.l1GasUsed,
      stored.logs, stored.contractAddress, stored.multiGasUsed, ()))
    (fun (postStateOrStatus, cumulativeGasUsed, l1GasUsed, logs, contractAddress,
      multiGasUsed, _) =>
      ⟨postStateOrStatus, cumulativeGasUsed, l1GasUsed, logs, contractAddress, multiGasUsed⟩)

open TypeInfo Fields in
def ArbLegacyStoredReceiptRLP.info : TypeInfo ArbLegacyStoredReceiptRLP :=
  (struct <| cons bytes <| cons uint64 <| cons uint64 <| cons uint64 <| cons uint64 <|
      cons address <| last Log.slice).view
    (fun stored => (stored.postStateOrStatus, stored.cumulativeGasUsed, stored.gasUsed,
      stored.l1GasUsed, stored.status, stored.contractAddress, stored.logs))
    (fun (postStateOrStatus, cumulativeGasUsed, gasUsed, l1GasUsed, status, contractAddress,
      logs) =>
      ⟨postStateOrStatus, cumulativeGasUsed, gasUsed, l1GasUsed, status, contractAddress, logs⟩)

variable {s : Stream}

namespace ReceiptForStorage

/-- Whether the contract address has a slot of its own. -/
def writesAddress (r : Receipt) : Bool :=
  r.type ≥ arbitrumDepositTxType ∧ r.type ≠ arbitrumLegacyTxType ∧ r.contractAddress ≠ 0

/-- The values in front of the logs. -/
def encodeHead (r : Receipt) : Except Error Bytes :=
  if r.type = arbitrumLegacyTxType then do
    let contractAddress ← address.writer r.contractAddress
    .ok (encodeBytes receiptRootArbitrumLegacy ++ (writeUint64 r.cumulativeGasUsed.toNat ++
      (writeUint64 r.gasUsed.toNat ++ (writeUint64 r.gasUsedForL1.toNat ++
        (writeUint64 r.status.toNat ++ contractAddress)))))
  else .ok (encodeBytes r.statusEncoding ++ (writeUint64 r.cumulativeGasUsed.toNat ++
    writeUint64 r.gasUsedForL1.toNat))

/-- The values behind the logs. -/
def encodeTail (r : Receipt) : Except Error Bytes :=
  let contractAddress :=
    if writesAddress r then encodeBytes (addressBytes r.contractAddress) else []
  if r.multiGasUsed.isZero then .ok contractAddress
  else do
    -- occupy the slot of the contract address
    let slot := if writesAddress r then [] else encodeBytes (addressBytes 0)
    let multiGasUsed ← MultiGas.info.writer r.multiGasUsed
    .ok (contractAddress ++ slot ++ multiGasUsed)

def encodeRLP (r : Receipt) : Except Error Bytes := do
  let head ← encodeHead r
  let logs ← Log.slice.writer r.logs
  let tail ← encodeTail r
  .ok (encodeList (head ++ (logs ++ tail)))

def decodeStoredReceiptRLP (r : Receipt) (blob : Bytes) : Except ReceiptError Receipt := do
  let stored ← (decodeBytes StoredReceiptRLP.info blob).mapError .rlp
  let r ← r.setStatus stored.postStateOrStatus
  .ok { r with
    cumulativeGasUsed := stored.cumulativeGasUsed
    gasUsedForL1 := stored.l1GasUsed
    logs := stored.logs
    contractAddress := stored.contractAddress.getD r.contractAddress
    multiGasUsed := stored.multiGasUsed.getD zeroGas }

section
variable [Crypto]

def decodeArbitrumLegacyStoredReceiptRLP (r : Receipt) (blob : Bytes) :
    Except ReceiptError Receipt := do
  let stored ← (decodeBytes ArbLegacyStoredReceiptRLP.info blob).mapError .rlp
  if stored.postStateOrStatus ≠ receiptRootArbitrumLegacy then .error .notArbitrumLegacyTx
  else .ok { r with
    type := arbitrumLegacyTxType
    postState := receiptRootArbitrumLegacy
    status := stored.status
    cumulativeGasUsed := stored.cumulativeGasUsed
    gasUsed := stored.gasUsed
    gasUsedForL1 := stored.l1GasUsed
    multiGasUsed := zeroGas
    contractAddress := stored.contractAddress
    logs := stored.logs
    bloom := createBloom stored.logs }

def decodeRLP (r : Receipt) (s : Stream) : Except ReceiptError (Receipt × Stream) := do
  let (blob, s) ← s.raw.mapError .rlp
  match decodeStoredReceiptRLP r blob with
  | .ok r => .ok (r, s)
  | .error _ =>
    let r ← decodeArbitrumLegacyStoredReceiptRLP r blob
    .ok (r, s)

end

/-! ### The tail -/

theorem eq_zeroGas_of_isZero {z : MultiGas} (h : z.isZero) : z = zeroGas := by
  obtain ⟨htotal, hrefund, hgas⟩ : z.total = 0 ∧ z.refund = 0 ∧ ∀ kind, z.gas kind = 0 := by
    simpa [MultiGas.isZero] using h
  apply MultiGas.ext
  · funext kind
    exact hgas kind
  · exact htotal
  · exact hrefund

/-- The address the tail holds, or stands for. -/
def tailAddress (r : Receipt) : Address := if writesAddress r then r.contractAddress else 0

theorem encodeTail_ok (r : Receipt) : ∃ tail, encodeTail r = .ok tail := by
  obtain ⟨multiGasUsed, hmulti⟩ := MultiGas.roundTrip.writes r.multiGasUsed trivial
  unfold encodeTail
  simp only [hmulti]
  split
  · exact ⟨_, rfl⟩
  · exact ⟨_, rfl⟩

variable {r : Receipt} {tail b : Bytes}

/-- The tail is empty, or an address, or an address and the multi-dimensional gas. -/
theorem encodeTail_cases (h : encodeTail r = .ok tail) :
    (r.multiGasUsed.isZero ∧ ¬ writesAddress r ∧ tail = []) ∨
    (r.multiGasUsed.isZero ∧ writesAddress r ∧ tail = encodeBytes (addressBytes (tailAddress r))) ∨
    (¬ r.multiGasUsed.isZero ∧ ∃ multiGasUsed, MultiGas.info.writer r.multiGasUsed =
      .ok multiGasUsed ∧
      tail = encodeBytes (addressBytes (tailAddress r)) ++ multiGasUsed) := by
  unfold encodeTail at h
  by_cases hzero : r.multiGasUsed.isZero
  · simp only [hzero] at h
    cases h
    by_cases haddr : writesAddress r
    · refine .inr (.inl ⟨hzero, haddr, ?_⟩)
      simp [haddr, tailAddress]
    · exact .inl ⟨hzero, haddr, if_neg haddr⟩
  · simp only [if_neg hzero] at h
    obtain ⟨multiGasUsed, hmulti, h⟩ := bind_eq_ok.mp h
    cases h
    refine .inr (.inr ⟨hzero, multiGasUsed, hmulti, ?_⟩)
    by_cases haddr : writesAddress r
    · simp [haddr, tailAddress]
    · simp [haddr, tailAddress]

open StoredReceiptRLP

/-- The optional fields read the tail back. -/
theorem optionalFields_reads (h : encodeTail r = .ok tail) (hlen : tail.length < 2 ^ 64) :
    ∃ contractAddress multiGasUsed,
      (∀ s : Stream, optionalFields.decoder (s.inList.push tail) =
        .ok ((contractAddress, multiGasUsed, ()), s.inList)) ∧
      contractAddress.getD 0 = tailAddress r ∧ multiGasUsed.getD zeroGas = r.multiGasUsed := by
  have haddress := writer_byteArray (n := 20) (by norm_num) (tailAddress r)
  rcases encodeTail_cases h with ⟨hzero, haddr, rfl⟩ | ⟨hzero, -, rfl⟩ |
    ⟨-, multiGasUsed, hmulti, rfl⟩
  · refine ⟨none, none, ?_, (if_neg haddr).symm, (eq_zeroGas_of_isZero hzero).symm⟩
    intro s
    exact optionalPtr_eol address_lawful.roundTrip s
  · refine ⟨some (tailAddress r), none, ?_, rfl, (eq_zeroGas_of_isZero hzero).symm⟩
    intro s
    apply optionalPtr_reads address_lawful.roundTrip haddress hlen
    rw [push_nil, optionalPtr_eol MultiGas.roundTrip, MultiGas.stop_inList]
  · refine ⟨some (tailAddress r), some r.multiGasUsed, ?_, rfl, rfl⟩
    intro s
    apply optionalPtr_reads address_lawful.roundTrip haddress hlen
    rw [length_append] at hlen
    rw [← append_nil multiGasUsed]
    apply optionalPtr_reads MultiGas.roundTrip hmulti (by rw [append_nil]; omega)
    rw [push_nil]
    rfl

-- An empty list in the place of the gas is taken for a field that is missing: the struct closes
-- that list and not its own.
example : ((decodeBytes StoredReceiptRLP.info
    (0xDA :: 1 :: 0x80 :: 0x80 :: 0xC0 :: 0x94 :: replicate 20 0 ++ [0xC0])).toOption.map
      fun stored => stored.multiGasUsed.isNone) = some true := by
  decide +kernel

/-! ### The shapes -/

theorem encodeRLP_stored (hty : r.type ≠ arbitrumLegacyTxType) (h : encodeRLP r = .ok b) :
    ∃ logs tail, Log.slice.writer r.logs = .ok logs ∧ encodeTail r = .ok tail ∧
      b = encodeList (encodeBytes r.statusEncoding ++ (writeUint64 r.cumulativeGasUsed.toNat ++
        (writeUint64 r.gasUsedForL1.toNat ++ (logs ++ tail)))) := by
  obtain ⟨head, hhead, h⟩ := bind_eq_ok.mp h
  obtain ⟨logs, hlogs, h⟩ := bind_eq_ok.mp h
  obtain ⟨tail, htail, h⟩ := bind_eq_ok.mp h
  cases h
  rw [encodeHead, if_neg hty] at hhead
  cases hhead
  refine ⟨logs, tail, hlogs, htail, ?_⟩
  simp

theorem encodeRLP_preNitro (hty : r.type = arbitrumLegacyTxType) (h : encodeRLP r = .ok b) :
    ∃ contractAddress logs tail, address.writer r.contractAddress = .ok contractAddress ∧
      Log.slice.writer r.logs = .ok logs ∧ encodeTail r = .ok tail ∧
      b = encodeList (encodeBytes receiptRootArbitrumLegacy ++
        (writeUint64 r.cumulativeGasUsed.toNat ++ (writeUint64 r.gasUsed.toNat ++
          (writeUint64 r.gasUsedForL1.toNat ++ (writeUint64 r.status.toNat ++
            (contractAddress ++ (logs ++ tail))))))) := by
  obtain ⟨head, hhead, h⟩ := bind_eq_ok.mp h
  obtain ⟨logs, hlogs, h⟩ := bind_eq_ok.mp h
  obtain ⟨tail, htail, h⟩ := bind_eq_ok.mp h
  cases h
  rw [encodeHead, if_pos hty] at hhead
  obtain ⟨contractAddress, haddress, hhead⟩ := bind_eq_ok.mp hhead
  cases hhead
  refine ⟨contractAddress, logs, tail, haddress, hlogs, htail, ?_⟩
  simp

theorem encodeRLP_ok (r : Receipt) : ∃ b, encodeRLP r = .ok b := by
  obtain ⟨tail, htail⟩ := encodeTail_ok r
  obtain ⟨logs, hlogs⟩ := Log.slice_lawful.roundTrip.writes r.logs trivial
  have hhead : ∃ head, encodeHead r = .ok head := by
    unfold encodeHead
    split
    · exact ⟨_, rfl⟩
    · exact ⟨_, rfl⟩
  obtain ⟨head, hhead⟩ := hhead
  refine ⟨encodeList (head ++ (logs ++ tail)), ?_⟩
  simp [encodeRLP, hhead, hlogs, htail]

theorem encodeRLP_list (h : encodeRLP r = .ok b) : ∃ content, b = encodeList content := by
  obtain ⟨head, -, h⟩ := bind_eq_ok.mp h
  obtain ⟨logs, -, h⟩ := bind_eq_ok.mp h
  obtain ⟨tail, -, h⟩ := bind_eq_ok.mp h
  cases h
  exact ⟨_, rfl⟩

/-! ### Reading back -/

section
variable {first rest : Bytes} {x y : U64} (hlen : (encodeBytes first ++
  (writeUint64 x.toNat ++ (writeUint64 y.toNat ++ rest))).length < 2 ^ 64)

include hlen

/-- Both formats begin with a byte string and two integers. -/
theorem head_push {α : Type} {fields : Fields α} {q : Except Error (α × Stream)}
    (h : fields.decoder (s.inList.push rest) = q) :
    (cons bytes (cons uint64 (cons uint64 fields))).decoder (s.inList.push
        (encodeBytes first ++ (writeUint64 x.toNat ++ (writeUint64 y.toNat ++ rest)))) =
      q.map fun r => ((first, x, y, r.1), r.2) := by
  have hlen₁ := length_right_lt hlen
  have hread := cons_push uint64_lawful.roundTrip (a := y) rfl (length_right_lt hlen₁) h
  have hread := cons_push uint64_lawful.roundTrip (a := x) rfl hlen₁ hread
  rw [cons_push bytes_lawful.roundTrip (a := first) rfl hlen hread]
  cases q <;> rfl

theorem rest_lt_of_head : rest.length < 2 ^ 64 :=
  length_right_lt (length_right_lt (length_right_lt hlen))

end

section
variable {r : Receipt} {b : Bytes} (h : encodeRLP r = .ok b) (hlen : b.length < 2 ^ 64)

include h hlen

theorem decodeBytes_stored (hty : r.type ≠ arbitrumLegacyTxType) :
    ∃ contractAddress multiGasUsed,
      decodeBytes info b =
        .ok ⟨r.statusEncoding, r.cumulativeGasUsed, r.gasUsedForL1, r.logs.map Log.consensus,
          contractAddress, multiGasUsed⟩ ∧
      contractAddress.getD 0 = tailAddress r ∧ multiGasUsed.getD zeroGas = r.multiGasUsed := by
  obtain ⟨logs, tail, hlogs, htail, rfl⟩ := encodeRLP_stored hty h
  have hcontent := length_lt_of_encodeList hlen
  have hrest := rest_lt_of_head hcontent
  obtain ⟨contractAddress, multiGasUsed, hoptional, haddress, hmulti⟩ :=
    optionalFields_reads htail (length_right_lt hrest)
  refine ⟨contractAddress, multiGasUsed, decodeBytes_reads fun s hfits => ?_, haddress, hmulti⟩
  have hread := cons_push Log.slice_lawful.roundTrip hlogs hrest (hoptional s)
  have hread := struct_reads hcontent hfits (head_push hcontent hread)
  simp [info, view, hread]

/-- The fourth value is a list, where the pre-Nitro format has an integer. -/
theorem decodeBytes_preNitro_of_stored (hty : r.type ≠ arbitrumLegacyTxType) :
    decodeBytes ArbLegacyStoredReceiptRLP.info b = .error .expectedString := by
  obtain ⟨logs, tail, hlogs, htail, rfl⟩ := encodeRLP_stored hty h
  have hcontent := length_lt_of_encodeList hlen
  have hrest := rest_lt_of_head hcontent
  obtain ⟨elems, -, hlogs⟩ := bind_eq_ok.mp hlogs
  cases hlogs
  refine decodeBytes_error fun s hfits => ?_
  have hfits₃ : (s.inList.push tail).Fits (encodeList elems).length := by
    rw [length_append, Nat.add_comm] at hrest
    exact (fits_inList hrest s).push
  have hshort : (encodeList elems).length < 2 ^ 64 := by
    rw [length_append] at hrest
    omega
  have hread : (cons .uint64 (.cons .uint64 (.cons .address (.last Log.slice)))).decoder
      (s.inList.push (encodeList elems ++ tail)) = .error .expectedString := by
    apply cons_error_head (by decide)
    rw [push_append]
    simp [TypeInfo.uint64, TypeInfo.uint, uint_push_list (length_lt_of_encodeList hshort) hfits₃]
  have hread := struct_error hcontent hfits (head_push hcontent hread)
  simp [ArbLegacyStoredReceiptRLP.info, view, hread]

/-- The fourth value is an integer, where the other format has a list. -/
theorem decodeBytes_stored_of_preNitro (hty : r.type = arbitrumLegacyTxType) :
    decodeBytes info b = .error .expectedList := by
  obtain ⟨contractAddress, logs, tail, haddress, hlogs, htail, rfl⟩ := encodeRLP_preNitro hty h
  have hcontent := length_lt_of_encodeList hlen
  have hrest := rest_lt_of_head hcontent
  refine decodeBytes_error fun s hfits => ?_
  have hread : (cons Log.slice optionalFields).decoder
      (s.inList.push (writeUint64 r.gasUsedForL1.toNat ++
        (writeUint64 r.status.toNat ++ (contractAddress ++ (logs ++ tail))))) =
      .error .expectedList := by
    apply cons_error_head (by decide)
    rw [writeUint64_eq r.gasUsedForL1.isLt] at hrest ⊢
    rw [length_append, Nat.add_comm] at hrest
    have hfits₃ := (fits_inList hrest s).push
    have hshort := length_lt_of_encodeBytes (b := intBytes r.gasUsedForL1.toNat) (by omega)
    rw [push_append]
    simp [Log.slice, slice, list_push_bytes hshort hfits₃]
  have hread := struct_error hcontent hfits (head_push hcontent hread)
  simp [info, view, hread]

/-- The pre-Nitro format reads its seven values and needs nothing behind them. -/
theorem decodeBytes_preNitro (hty : r.type = arbitrumLegacyTxType) :
    decodeBytes ArbLegacyStoredReceiptRLP.info b =
      if r.multiGasUsed.isZero then
        .ok ⟨receiptRootArbitrumLegacy, r.cumulativeGasUsed, r.gasUsed, r.gasUsedForL1, r.status,
          r.contractAddress, r.logs.map Log.consensus⟩
      else .error .notAtEOL := by
  obtain ⟨contractAddress, logs, tail, haddress, hlogs, htail, rfl⟩ := encodeRLP_preNitro hty h
  have hcontent := length_lt_of_encodeList hlen
  have hrest := rest_lt_of_head hcontent
  have hlen₁ := length_right_lt hrest
  have hlen₂ := length_right_lt hlen₁
  have hlen₃ := length_right_lt hlen₂
  have hlogs : ∀ s : Stream, (last Log.slice).decoder (s.inList.push (logs ++ tail)) =
      .ok (r.logs.map Log.consensus, s.inList.push tail) := by
    intro s
    rw [length_append, Nat.add_comm] at hlen₃
    have hfits := (fits_inList hlen₃ s).push
    simp [last, push_append, Log.slice_lawful.roundTrip.reads _ logs _ hlogs (by omega) hfits]
  have hfields : ∀ s : Stream, _ := fun s => by
    have hread := cons_push address_lawful.roundTrip haddress hlen₂ (hlogs s)
    have hread := cons_push uint64_lawful.roundTrip (a := r.status) rfl hlen₁ hread
    have hread := cons_push uint64_lawful.roundTrip (a := r.gasUsedForL1) rfl hrest hread
    exact head_push hcontent hread
  have hnoAddress : ¬ writesAddress r := by simp [writesAddress, hty]
  split
  · rename_i hzero
    have htail : tail = [] := by
      rcases encodeTail_cases htail with ⟨-, -, rfl⟩ | ⟨-, haddr, -⟩ | ⟨hnonzero, -⟩
      · rfl
      · exact absurd haddr hnoAddress
      · exact absurd hzero hnonzero
    subst htail
    refine decodeBytes_reads fun s hfits => ?_
    have hread := hfields s
    have hread := struct_reads hcontent hfits hread
    simp only [ArbLegacyStoredReceiptRLP.info, view, hread, ok_bind, id]
  · rename_i hnonzero
    have htail : tail ≠ [] := by
      rcases encodeTail_cases htail with ⟨hzero, -⟩ | ⟨hzero, -⟩ | ⟨-, multiGasUsed, -, rfl⟩
      · exact absurd hzero hnonzero
      · exact absurd hzero hnonzero
      · intro hnil
        exact encodeBytes_ne_nil _ (append_eq_nil_iff.mp hnil).1
    refine decodeBytes_error fun s hfits => ?_
    have hread := struct_error_rest hcontent hfits htail (length_right_lt hlen₃) (hfields s)
    simp [ArbLegacyStoredReceiptRLP.info, view, hread]

end

/-! ### What is stored -/

/-- A receipt of one of the Arbitrum types. -/
def IsArbitrum (r : Receipt) : Prop :=
  arbitrumTyped r.type ∨ r.type = arbitrumLegacyTxType

/-- What the storage format keeps of a receipt. -/
structure Kept (r r' : Receipt) : Prop where
  outcome : if r.type = arbitrumLegacyTxType then r'.status = r.status else r.SameOutcome r'
  cumulativeGasUsed : r'.cumulativeGasUsed = r.cumulativeGasUsed
  gasUsedForL1 : r'.gasUsedForL1 = r.gasUsedForL1
  multiGasUsed : r'.multiGasUsed = r.multiGasUsed
  logs : r'.logs = r.logs.map Log.consensus
  contractAddress : IsArbitrum r → r'.contractAddress = r.contractAddress
  gasUsed : r.type = arbitrumLegacyTxType → r'.gasUsed = r.gasUsed

/-- The format has a place for everything in the receipt. -/
def Storable (r : Receipt) : Prop :=
  (r.type = arbitrumLegacyTxType → r.multiGasUsed.isZero) ∧
    (r.type ≠ arbitrumLegacyTxType → r.WellFormed)

theorem tailAddress_of_arbitrum (h : arbitrumTyped r.type) : tailAddress r = r.contractAddress := by
  have hslot : r.type ≥ arbitrumDepositTxType ∧ r.type ≠ arbitrumLegacyTxType := by
    simp only [arbitrumTyped, decide_eq_true_eq] at h
    rcases h with h | h | h | h | h | h <;> rw [h] <;> decide
  by_cases hzero : r.contractAddress = 0
  · simp [tailAddress, hzero]
  · have hwrites : writesAddress r := decide_eq_true ⟨hslot.1, hslot.2, hzero⟩
    exact if_pos hwrites

/-- The receipt that `DecodeRLP` makes of a stored one. -/
def readBack [Crypto] (r : Receipt) : Receipt :=
  if r.type = arbitrumLegacyTxType then
    { type := arbitrumLegacyTxType
      postState := receiptRootArbitrumLegacy
      status := r.status
      cumulativeGasUsed := r.cumulativeGasUsed
      gasUsed := r.gasUsed
      gasUsedForL1 := r.gasUsedForL1
      contractAddress := r.contractAddress
      logs := r.logs.map Log.consensus
      bloom := createBloom (r.logs.map Log.consensus) }
  else
    { ({} : Receipt).withOutcome r with
      cumulativeGasUsed := r.cumulativeGasUsed
      gasUsedForL1 := r.gasUsedForL1
      logs := r.logs.map Log.consensus
      contractAddress := tailAddress r
      multiGasUsed := r.multiGasUsed }

section
variable [Crypto] {r : Receipt} {b : Bytes} (h : encodeRLP r = .ok b) (hlen : b.length < 2 ^ 64)

include h in
theorem decodeRLP_push (r₀ : Receipt) (hlen : b.length < 2 ^ 64) (hfits : s.Fits b.length) :
    decodeRLP r₀ (s.push b) =
      match decodeStoredReceiptRLP r₀ b with
      | .ok r => .ok (r, s)
      | .error _ => (decodeArbitrumLegacyStoredReceiptRLP r₀ b).map (·, s) := by
  obtain ⟨content, rfl⟩ := encodeRLP_list h
  have hraw := raw_push_list (length_lt_of_encodeList hlen) hfits
  simp only [decodeRLP, hraw]
  rfl

include h hlen

/-- Neither decoder takes the other format. -/
theorem formats_distinct (r₀ : Receipt) :
    (r.type = arbitrumLegacyTxType → ∃ err, decodeStoredReceiptRLP r₀ b = .error err) ∧
    (r.type ≠ arbitrumLegacyTxType →
      ∃ err, decodeArbitrumLegacyStoredReceiptRLP r₀ b = .error err) := by
  constructor
  · intro hty
    refine ⟨.rlp .expectedList, ?_⟩
    simp [decodeStoredReceiptRLP, decodeBytes_stored_of_preNitro h hlen hty, Except.mapError]
  · intro hty
    refine ⟨.rlp .expectedString, ?_⟩
    simp [decodeArbitrumLegacyStoredReceiptRLP, decodeBytes_preNitro_of_stored h hlen hty,
      Except.mapError]

theorem decodeRLP_preNitro_eq (hty : r.type = arbitrumLegacyTxType) (hfits : s.Fits b.length) :
    decodeRLP {} (s.push b) =
      if r.multiGasUsed.isZero then .ok (readBack r, s) else .error (.rlp .notAtEOL) := by
  obtain ⟨err, hstored⟩ := (formats_distinct h hlen {}).1 hty
  have hread := decodeBytes_preNitro h hlen hty
  rw [decodeRLP_push h {} hlen hfits, hstored]
  simp only [decodeArbitrumLegacyStoredReceiptRLP, hread]
  split
  · rw [readBack, if_pos hty]
    rfl
  · rfl

theorem decodeRLP_stored_eq (hty : r.type ≠ arbitrumLegacyTxType) (hwf : r.WellFormed)
    (hfits : s.Fits b.length) : decodeRLP {} (s.push b) = .ok (readBack r, s) := by
  obtain ⟨contractAddress, multiGasUsed, hread, haddress, hmulti⟩ := decodeBytes_stored h hlen hty
  have hset := setStatus_statusEncoding hwf {}
  have hzero : (({} : Receipt).withOutcome r).contractAddress = 0 := by
    unfold withOutcome
    split <;> rfl
  have hstored : decodeStoredReceiptRLP {} b = .ok (readBack r) := by
    rw [readBack, if_neg hty]
    simp only [decodeStoredReceiptRLP, hread, Except.mapError, ok_bind, hset, hzero,
      haddress, hmulti]
  rw [decodeRLP_push h {} hlen hfits, hstored]

/-- A pre-Nitro receipt. -/
theorem decodeRLP_preNitro (hty : r.type = arbitrumLegacyTxType) (hfits : s.Fits b.length) :
    (∃ r', decodeRLP {} (s.push b) = .ok (r', s) ∧ Kept r r') ↔ r.multiGasUsed.isZero := by
  rw [decodeRLP_preNitro_eq h hlen hty hfits]
  constructor
  · rintro ⟨r', hdecode, -⟩
    by_contra hnonzero
    rw [if_neg hnonzero] at hdecode
    cases hdecode
  · intro hzero
    rw [if_pos hzero]
    refine ⟨_, rfl, ?_⟩
    rw [readBack, if_pos hty]
    exact
      { outcome := by rw [if_pos hty]
        cumulativeGasUsed := rfl
        gasUsedForL1 := rfl
        multiGasUsed := (eq_zeroGas_of_isZero hzero).symm
        logs := rfl
        contractAddress := fun _ => rfl
        gasUsed := fun _ => rfl }

/-- Any other receipt. -/
theorem decodeRLP_stored (hty : r.type ≠ arbitrumLegacyTxType) (hfits : s.Fits b.length) :
    (∃ r', decodeRLP {} (s.push b) = .ok (r', s) ∧ Kept r r') ↔ r.WellFormed := by
  constructor
  · rintro ⟨r', hdecode, hkept⟩
    obtain ⟨err, hpreNitro⟩ := (formats_distinct h hlen {}).2 hty
    rw [decodeRLP_push h {} hlen hfits, hpreNitro] at hdecode
    have houtcome := hkept.outcome
    rw [if_neg hty] at houtcome
    split at hdecode
    · rename_i r₁ hstored
      cases hdecode
      obtain ⟨stored, -, hstored⟩ := bind_eq_ok.mp hstored
      obtain ⟨r₂, hset, hstored⟩ := bind_eq_ok.mp hstored
      cases hstored
      have hwf : r₂.WellFormed := wellFormed_of_setStatus rfl hset
      exact wellFormed_of_sameOutcome houtcome hwf
    · cases hdecode
  · intro hwf
    refine ⟨_, decodeRLP_stored_eq h hlen hty hwf hfits, ?_⟩
    rw [readBack, if_neg hty]
    exact
      { outcome := by
          rw [if_neg hty]
          exact sameOutcome_withOutcome r (by rfl)
        cumulativeGasUsed := rfl
        gasUsedForL1 := rfl
        multiGasUsed := rfl
        logs := rfl
        contractAddress := by
          rintro (harbitrum | hlegacy)
          · exact tailAddress_of_arbitrum harbitrum
          · exact absurd hlegacy hty
        gasUsed := fun hlegacy => absurd hlegacy hty }

end

/-- **The storage format.**  What `EncodeRLP` writes is read back by `DecodeRLP`, from the
    front of any stream and with everything the format keeps, exactly if the receipt is
    storable; and no encoding of one format is taken for one of the other.  The length is
    that of a Go slice. -/
theorem stored_iff [Crypto] (r : Receipt) (hsize : ∀ b, encodeRLP r = .ok b → b.length < 2 ^ 63) :
    ∃ b, encodeRLP r = .ok b ∧
      (∀ s : Stream, s.Fits b.length →
        ((∃ r', decodeRLP {} (s.push b) = .ok (r', s) ∧ Kept r r') ↔ Storable r)) ∧
      (∀ r₀ : Receipt,
        (r.type = arbitrumLegacyTxType → ∃ err, decodeStoredReceiptRLP r₀ b = .error err) ∧
        (r.type ≠ arbitrumLegacyTxType →
          ∃ err, decodeArbitrumLegacyStoredReceiptRLP r₀ b = .error err)) := by
  obtain ⟨b, hb⟩ := encodeRLP_ok r
  have hlen : b.length < 2 ^ 64 := (hsize b hb).trans (by norm_num)
  refine ⟨b, hb, ?_, formats_distinct hb hlen⟩
  intro s hfits
  by_cases hty : r.type = arbitrumLegacyTxType
  · rw [decodeRLP_preNitro hb hlen hty hfits]
    simp [Storable, hty]
  · rw [decodeRLP_stored hb hlen hty hfits]
    simp [Storable, hty]

/-- A deposit that created a contract. -/
def deposited : Receipt :=
  { type := arbitrumDepositTxType, status := receiptStatusSuccessful, contractAddress := 7,
    multiGasUsed := computationGas 5 }

theorem stored_deposited :
    letI := numberCrypto
    ∃ b, encodeRLP deposited = .ok b ∧
      ∃ r', decodeRLP {} (Stream.push b ⟨[], true, []⟩) = .ok (r', ⟨[], true, []⟩) ∧
        Kept deposited r' := by
  have hsize : ∀ b, encodeRLP deposited = .ok b → b.length < 2 ^ 63 := by
    intro b hb
    have hlength : (encodeRLP deposited).toOption.map length = some 38 := by decide +kernel
    rw [hb] at hlength
    have hb : b.length = 38 := Option.some.inj hlength
    omega
  obtain ⟨b, hb, hread, -⟩ := @stored_iff numberCrypto deposited hsize
  have hstorable : Storable deposited :=
    ⟨fun h => absurd h (by decide), fun _ => .inl ⟨rfl, .inr rfl⟩⟩
  exact ⟨b, hb, (hread _ (fits_of_stack_nil rfl _)).mpr hstorable⟩

/-- A post state of one byte, and a pre-Nitro receipt with multi-dimensional gas: both are
    written, neither is read. -/
theorem not_stored :
    letI := numberCrypto
    (∃ b, encodeRLP { postState := [0x02] } = .ok b ∧
      ∃ err, decodeRLP {} ⟨b, true, []⟩ = .error err) ∧
    (∃ b, encodeRLP { type := arbitrumLegacyTxType, multiGasUsed := computationGas 5 } = .ok b ∧
      ∃ err, decodeRLP {} ⟨b, true, []⟩ = .error err) := by
  refine ⟨⟨_, rfl, .rlp .expectedString, ?_⟩, ⟨_, rfl, .rlp .notAtEOL, ?_⟩⟩
  all_goals decide +kernel

end ReceiptForStorage

end GethArb
