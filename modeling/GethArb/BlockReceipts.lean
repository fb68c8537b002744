/-
  **What a block leaves in the database.**

  `Process` applies the transactions of a block one after the other.  Each receipt it makes
  is one that `DeriveFields` can start from: gas and log counters follow on from those of the
  receipts before (`madeFrom_processFrom`).  So the receipts are stored, read and derived again
  as they were made, up to the contract address of a creation: the creation has to open its
  contract (`Evm.Opens`), which is decided by the state before the transaction
  (`derived_iff`).

  What runs inside the EVM and in the processing hook is not modelled; `Evm.OnStateDB` says
  what it may do: call the operations a `StateDB` has inside a message, and leave accounts in
  use alone before the top level call, and the gas counter of the block.
-/
import GethArb.DeriveFields
import GethArb.Deployment

namespace GethArb.Core

open Tx Multigas Traced StateDB Receipts Moves List ReceiptForStorage

variable {stateless : StatelessGas} {r : Receipt} {blockTime : U64} {msg : Message}
variable {dctx : DeriveBlockContext}

section
variable [Crypto]

/-! ### The methods of a `StateDB` -/

theorem moves_of_change {ord : MapOrders} {s t : StateDB}
    (h : (methods ord stateless).Change s t) : Moves s t := by
  cases h with
  | admission h =>
    cases h with
    | subBalance addr amount => exact step (.subBalance addr amount) trivial rfl
    | addTxOrigin | addTxDestination => exact refl _
    | prepare h => exact step (.prepare _ _ _ _ _ _ _ _) trivial h
  | addBalance addr amount => exact step (.addBalance addr amount) trivial rfl
  | setNonce addr nonce => exact step (.setNonce addr nonce) trivial rfl
  | setCode addr code => exact step (.setCode addr code) trivial rfl
  | addRefund gas => exact step (.addRefund gas) trivial rfl
  | addAddressToAccessList addr =>
    exact step (.addAddressToAccessList addr) trivial rfl
  | snapshot => exact step .snapshot trivial rfl
  | createAccount addr => exact step (.createAccount addr) trivial rfl
  | createContract h => exact step (.createContract _) trivial h
  | touchAddress | addAccessAccount | contractCreatePreCheckGas | contractCreateInitGas =>
    exact refl _

instance obeys_keeps (evm : Evm StateDB) [h : evm.OnStateDB] : evm.Obeys (within _ _ _ Keeps) where
  startTxHook := ⟨h.startTxHook⟩
  gasChargingHook gas intrinsic := ⟨fun t w => (h.gasChargingHook gas intrinsic t w).1⟩
  revertedTxHook gas used := ⟨h.revertedTxHook gas used⟩
  endTxHook gas used ok := ⟨h.endTxHook gas used ok⟩
  call caller to_ data gas value := ⟨h.call caller to_ data gas value⟩
  initContract snapshot caller addr code gas value used :=
    ⟨h.initContract snapshot caller addr code gas value used⟩
  stay w := refl_of Keeps w
  gp w _ := ⟨refl w.state, rfl⟩
  change w s hchange := by
    obtain ⟨ord, stateless, hdb⟩ := h.db
    rw [hdb] at hchange
    exact ⟨moves_of_change hchange, rfl⟩

/-! ### One transaction -/

section
variable {evm : Evm StateDB} [honDB : evm.OnStateDB] {t : Option Hooks} {w v : World StateDB}
variable {seen : Set Hash} {h : Hash} {i n : U64} {blockNumber : Nat}

theorem finishState_ok {root : Bytes} (hs : Numbered seen h i n w.state)
    (hrun : (finishState evm blockNumber t w).1 = (.ok root, v)) :
    Numbered seen h i n v.state ∧ v.state.journal.entries = [] ∧ v.usedGas = w.usedGas ∧
      (root = [] ∨ root.length = 32) := by
  obtain ⟨ord, stateless, hdb⟩ := honDB.db
  unfold finishState at hrun
  split at hrun
  · obtain ⟨_, w₁, hfinalise, hrun⟩ := bind_inv hrun
    cases hrun
    obtain ⟨burnt, w₂, hburnt, hfinalise⟩ := bind_inv hfinalise
    obtain ⟨rfl, rfl⟩ := readState_ok hburnt
    obtain ⟨_, w₃, htrace, hfinalise⟩ := bind_inv hfinalise
    cases htrace
    cases hfinalise
    simp only [hdb]
    have hfinal := hs.finalise ord true
    exact ⟨hfinal.1, hfinal.2, trivial, .inl trivial⟩
  · obtain ⟨hash, w₁, htry, hrun⟩ := bind_inv hrun
    cases hrun
    obtain ⟨s, hroot, rfl⟩ := tryState_ok htry
    rw [hdb] at hroot
    have hsame := intermediateRoot_sameTx hroot
    have hfinal := hs.finalise ord (evm.isEIP158 blockNumber)
    refine ⟨hfinal.1.sameTx hsame, ?_, rfl, .inr ?_⟩
    · rw [hsame.journal]
      exact hfinal.2
    · exact Rlp.length_bytesBE 32 _

variable {tx : Transaction} {result : ExecutionResult}

/-- All that `MakeReceipt` sets; the rest is up to the hook and to blobs. -/
theorem makeReceipt_ok {blockHash : Hash} {root : Bytes}
    (hrun : (makeReceipt evm blockNumber blockHash blockTime tx result root t w).1 = (.ok r, v)) :
    v = w ∧ ∃ gasUsedForL1 blobGasUsed blobGasPrice,
      r = {
        gasUsedForL1 := gasUsedForL1
        multiGasUsed := if evm.exposeMultiGas then result.usedMultiGas else zeroGas
        type := tx.inner.txType
        postState := root
        status := if result.err.isSome then receiptStatusFailed else receiptStatusSuccessful
        cumulativeGasUsed := w.usedGas
        bloom := createBloom (evm.db.getLogs tx.hash (BitVec.ofNat 64 blockNumber) blockHash
          blockTime w.state)
        logs := evm.db.getLogs tx.hash (BitVec.ofNat 64 blockNumber) blockHash blockTime w.state
        txHash := tx.hash
        contractAddress := result.topLevelDeployed.getD 0
        gasUsed := result.usedGas
        blobGasUsed := blobGasUsed
        blobGasPrice := blobGasPrice
        blockHash := blockHash
        blockNumber := some blockNumber
        transactionIndex := evm.db.txIndex w.state } := by
  obtain ⟨gas, w₁, hread, hrun⟩ := bind_inv hrun
  cases hread
  obtain ⟨logs, w₂, hlogs, hrun⟩ := bind_inv hrun
  obtain ⟨rfl, rfl⟩ := readState_ok hlogs
  obtain ⟨index, w₃, hindex, hrun⟩ := bind_inv hrun
  obtain ⟨rfl, rfl⟩ := readState_ok hindex
  obtain ⟨hr, rfl⟩ := readState_ok hrun
  refine ⟨rfl, ?_⟩
  rw [← hr]
  obtain ⟨gas, hfill⟩ := honDB.fillReceiptInfo w.state _
  rw [hfill]
  split
  · exact ⟨_, _, _, rfl⟩
  · exact ⟨_, _, _, rfl⟩

/-- The receipt of a transaction, and the state it leaves. -/
theorem applyTransaction_ok (dctx : DeriveBlockContext) {k : Nat}
    (hs : Numbered seen tx.hash (BitVec.ofNat 64 k) n w.state)
    (hrun : (applyTransaction evm msg dctx.blockNumber.toNat dctx.blockHash blockTime tx none t w).1
      = (.ok (r, result), v)) :
    Made dctx k n w.usedGas tx r ∧
      Between (insert tx.hash seen) (n + BitVec.ofNat 64 r.logs.length) v.state ∧
      v.usedGas = r.cumulativeGasUsed ∧ (evm.exposeMultiGas = false → r.multiGasUsed = zeroGas) ∧
      ((msg.to_ = none → evm.rules.isEIP4762 = false) →
        Deploys evm msg t w r.contractAddress) := by
  obtain ⟨ord, stateless, hdb⟩ := honDB.db
  obtain ⟨result', w₁, hmessage, hrun⟩ := bind_inv hrun
  have hkeeps : Keeps w w₁ := by
    have hobeys : Obeys (within _ _ _ Keeps) (evm.applyMessage msg) := inferInstance
    have hkeeps := hobeys.holds t w
    rw [hmessage] at hkeeps
    exact hkeeps
  obtain ⟨root, w₂, hfinish, hrun⟩ := bind_inv hrun
  obtain ⟨hnumbered, hempty, hgas, hroot⟩ := finishState_ok (hs.run hkeeps.1) hfinish
  obtain ⟨_, w₃, hadd, hrun⟩ := bind_inv hrun
  cases hadd
  obtain ⟨_, w₄, hmerge, hrun⟩ := bind_inv hrun
  have hw₄ : w₄ = { w₂ with usedGas := w₂.usedGas + result'.usedGas } := by
    cases hmerge
    simp [hdb, methods]
  subst hw₄
  obtain ⟨r', w₅, hreceipt, hrun⟩ := bind_inv hrun
  cases hrun
  obtain ⟨rfl, gasUsedForL1, blobGasUsed, blobGasPrice, rfl⟩ := makeReceipt_ok hreceipt
  obtain ⟨hfollows, hlength⟩ := hnumbered.follows_getLogs (BitVec.ofNat 64 dctx.blockNumber.toNat)
    dctx.blockHash blockTime
  simp only [hdb]
  refine ⟨?_, ?_, trivial, fun hexpose => ?_, fun hrules => ?_⟩
  · exact
      { type := rfl
        txHash := rfl
        cumulativeGasUsed := by rw [hgas, hkeeps.2]
        bloom := rfl
        blockHash := rfl
        blockNumber := rfl
        transactionIndex := hnumbered.txIndex
        logs := hfollows
        wellFormed := by
          rcases hroot with hroot | hroot
          · exact .inl ⟨hroot, ite_eq_or_eq _ _ _⟩
          · exact .inr hroot }
  · change Between _ (n + BitVec.ofNat 64 (w₂.state.getLogs tx.hash _ _ _).1.length) w₂.state
    rw [hlength]
    exact hnumbered.between hempty
  · rw [hexpose]
    rfl
  · exact deployed_of_applyMessage hrules hmessage

omit honDB in
/-- The deferred function only sets the effective gas price. -/
theorem applyTransactionWithEVM_ok {blockHash : Hash}
    (hrun : (applyTransactionWithEVM evm msg blockNumber blockHash blockTime tx none t w).1 =
      (.ok (r, result), v)) :
    ∃ r₀ price, (applyTransaction evm msg blockNumber blockHash blockTime tx none t w).1 =
      (.ok (r₀, result), v) ∧ r = { r₀ with effectiveGasPrice := price } := by
  set body : Run StateDB (Receipt × ExecutionResult) := do
    trace (·.onTxStart) (.onTxStart tx msg.from_)
    applyTransaction evm msg blockNumber blockHash blockTime tx none with hbody
  have hfst : (body t w).1 =
      (applyTransaction evm msg blockNumber blockHash blockTime tx none t w).1 := by
    rw [bind_fst]
    rfl
  rw [← hfst]
  change (if t.any (·.onTxEnd) then onTxEnd evm tx (body t w) else body t w).1 = _ at hrun
  split at hrun
  · rcases hout : body t w with ⟨⟨err | ⟨r₀, result₀⟩, w'⟩, calls⟩
    · rw [hout, onTxEnd] at hrun
      split at hrun <;> cases hrun
    · obtain ⟨price, calls', hend⟩ := onTxEnd_ok evm tx r₀ result₀ w' calls
      rw [hout, hend] at hrun
      cases hrun
      exact ⟨r₀, price, rfl, rfl⟩
  · exact ⟨r, r.effectiveGasPrice, hrun, rfl⟩

end

/-! ### The whole block -/

/-- What the receipts of the block are derived from. -/
def BlockContext.derive (ctx : BlockContext) (blobGasPrice : BigInt) (collectTips : Bool) :
    DeriveBlockContext where
  config := ctx.config
  recovery := ctx.recovery
  blockHash := ctx.hash
  blockNumber := ctx.number
  blockTime := ctx.time
  baseFee := ctx.baseFee
  blobGasPrice := blobGasPrice
  collectTips := collectTips

/-- The sender as `DeriveFields` finds it. -/
def BlockContext.derivedSender (ctx : BlockContext) (tx : Transaction) : Address :=
  senderOrZero ctx.recovery
    (makeSigner ctx.config ctx.number.toNat ctx.time maxArbosVersionSupported) tx

def BlockContext.message (ctx : BlockContext) (tx : Transaction) : Except SenderError Message :=
  transactionToMessage ctx.recovery tx ctx.signer ctx.baseFee

/-- The state in which the message of the `i`-th transaction is applied. -/
def World.inTx (w : World StateDB) (tx : Transaction) (i : Nat) : World StateDB :=
  { w with state := w.state.setTxContext tx.hash (BitVec.ofNat 64 i) }

/-- Something holds of each transaction and the state before it. -/
def EachStep (ctx : BlockContext) (t : Option Hooks)
    (P : Transaction → Nat → World StateDB → Prop) :
    List Transaction → Nat → World StateDB → Prop
  | [], _, _ => True
  | tx :: txs, i, w => P tx i w ∧ EachStep ctx t P txs (i + 1) (processTx ctx tx i t w).1.2

/-- No log is filed under the hash of the transaction yet. -/
def Fresh (tx : Transaction) (_ : Nat) (w : World StateDB) : Prop := w.state.logs.get tx.hash = []

/-- A transaction of a new hash that does not show multi-dimensional gas if it is pre-Nitro, and
    does not pay for access events if it creates a contract. -/
structure Plain (ctx : BlockContext) (tx : Transaction) (i : Nat) (w : World StateDB) : Prop where
  fresh : Fresh tx i w
  gas : ∀ msg, ctx.message tx = .ok msg → tx.inner.txType = arbitrumLegacyTxType →
    (ctx.evm tx msg).exposeMultiGas = false
  rules : ∀ msg, ctx.message tx = .ok msg → tx.inner.to_ = none →
    (ctx.evm tx msg).rules.isEIP4762 = false

/-- **The address of a creation can be derived**: the creation opens its contract, and where the
    address is not stored the sender is found again. -/
def Addressed (ctx : BlockContext) (t : Option Hooks) (tx : Transaction) (i : Nat)
    (w : World StateDB) : Prop :=
  tx.inner.txType ≠ arbitrumLegacyTxType → tx.inner.to_ = none → ∀ msg, ctx.message tx = .ok msg →
    (ctx.evm tx msg).Opens msg t (w.inTx tx i) ∧
      (tx.inner.txType < arbitrumDepositTxType → ctx.derivedSender tx = msg.from_)

/-- The address that is derived is neither zero nor that of another sender. -/
def Unmistakable (ctx : BlockContext) (tx : Transaction) : Prop :=
  createAddress (ctx.derivedSender tx) tx.inner.nonce ≠ 0 ∧
    ∀ from_, createAddress from_ tx.inner.nonce =
      createAddress (ctx.derivedSender tx) tx.inner.nonce → ctx.derivedSender tx = from_

section
variable {ctx : BlockContext} (blobGasPrice : BigInt) (collectTips : Bool)
variable {t : Option Hooks} {w v : World StateDB} {seen : Set Hash} {n : U64} {tx : Transaction}
variable {i : Nat}

theorem EachStep.imp {P Q : Transaction → Nat → World StateDB → Prop} {txs : List Transaction}
    (h : EachStep ctx t P txs i w) (hPQ : ∀ tx ∈ txs, ∀ i w, P tx i w → Q tx i w) :
    EachStep ctx t Q txs i w := by
  induction txs generalizing i w with
  | nil => trivial
  | cons tx txs ih =>
    exact ⟨hPQ tx mem_cons_self i w h.1, ih h.2 fun tx' h' => hPQ tx' (mem_cons_of_mem tx h')⟩

omit [Crypto] in
theorem message_ok (h : ctx.message tx = .ok msg) :
    ctx.signer.sender ctx.recovery tx.inner = .ok msg.from_ ∧ msg.to_ = tx.inner.to_ ∧
      msg.nonce = tx.inner.nonce ∧ msg.skipNonceChecks = tx.inner.skipChecks := by
  unfold BlockContext.message transactionToMessage at h
  rcases hsender : ctx.signer.sender ctx.recovery tx.inner with err | from_
  · rw [hsender] at h
    cases h
  · rw [hsender] at h
    cases h
    exact ⟨rfl, rfl, rfl, rfl⟩

/-- The contract address in the receipt and the one that is derived. -/
theorem addressDerivable_of_deploys [honDB : (ctx.evm tx msg).OnStateDB]
    (hmsg : ctx.message tx = .ok msg) (htype : r.type = tx.inner.txType)
    (hdeploys : Deploys (ctx.evm tx msg) msg t (w.inTx tx i) r.contractAddress) :
    (Addressed ctx t tx i w →
        AddressDerivable (ctx.derive blobGasPrice collectTips) tx r) ∧
      (Unmistakable ctx tx → AddressDerivable (ctx.derive blobGasPrice collectTips) tx r →
        Addressed ctx t tx i w) := by
  obtain ⟨-, hto, hnonce, hskip⟩ := message_ok hmsg
  rcases hcreate : tx.inner.to_ with _ | dst
  swap
  · have hzero := hdeploys.call (by simp [hto, hcreate])
    refine ⟨fun _ _ => ?_, fun _ _ _ hnone => ?_⟩
    · simp [derivedAddress, hcreate, hzero]
    · rw [hcreate] at hnone
      cases hnone
  rw [AddressDerivable, derivedAddress_creation hcreate, htype]
  -- the address for the nonce of the state is the one for the nonce of the transaction
  have hchecked : tx.inner.txType < arbitrumDepositTxType →
      (ctx.evm tx msg).Opens msg t (w.inTx tx i) →
        r.contractAddress = createAddress msg.from_ tx.inner.nonce := by
    intro hlt hopens
    obtain ⟨haddress, hstate⟩ := hdeploys.opens (hto.trans hcreate) hopens
    rw [haddress, Evm.contractOf, hstate (hskip.trans (skipChecks_of_ethereum hlt)), hnonce,
      honDB.createAddress]
  constructor
  · intro haddressed hty
    obtain ⟨hopens, hsender⟩ := haddressed hty hcreate msg hmsg
    split
    · rfl
    rename_i hstored
    have hne : r.contractAddress ≠ 0 := by
      rw [(hdeploys.opens (hto.trans hcreate) hopens).1]
      exact hopens.nonzero
    have hlt : tx.inner.txType < arbitrumDepositTxType := by
      by_contra hge
      exact hstored (decide_eq_true ⟨htype ▸ UInt8.not_lt.mp hge, htype ▸ hty, hne⟩)
    rw [hchecked hlt hopens, ← hsender hlt]
    rfl
  · intro hclear hderivable hty _ msg' hmsg'
    obtain rfl : msg = msg' := Except.ok.inj (hmsg.symm.trans hmsg')
    specialize hderivable hty
    by_cases hopens : (ctx.evm tx msg).Opens msg t (w.inTx tx i)
    · refine ⟨hopens, fun hlt => hclear.2 _ ?_⟩
      have hstored : ¬writesAddress r := by
        intro hstored
        have hge := (of_decide_eq_true hstored).1
        rw [htype] at hge
        exact absurd hlt (UInt8.not_lt.mpr hge)
      rw [if_neg hstored] at hderivable
      exact (hchecked hlt hopens).symm.trans hderivable.symm
    · have hzero := hdeploys.closed (hto.trans hcreate) hopens
      have hstored : ¬writesAddress r := by simp [writesAddress, hzero]
      rw [if_neg hstored, hzero] at hderivable
      exact absurd hderivable hclear.1

variable (hevm : ∀ tx msg, (ctx.evm tx msg).OnStateDB)
include hevm

theorem processTx_ok (hs : Between seen n w.state) (hfresh : Fresh tx i w)
    (hrun : (processTx ctx tx i t w).1 = (.ok r, v)) :
    Made (ctx.derive blobGasPrice collectTips) i n w.usedGas tx r ∧
      Between (insert tx.hash seen) (n + BitVec.ofNat 64 r.logs.length) v.state ∧
      v.usedGas = r.cumulativeGasUsed ∧
      (Plain ctx tx i w → NoExtraGas r ∧
        (Addressed ctx t tx i w → AddressDerivable (ctx.derive blobGasPrice collectTips) tx r) ∧
        (Unmistakable ctx tx → AddressDerivable (ctx.derive blobGasPrice collectTips) tx r →
          Addressed ctx t tx i w)) := by
  obtain ⟨msg, w₁, hmessage, hrun⟩ := bind_inv hrun
  obtain ⟨hmsg, rfl⟩ : ctx.message tx = .ok msg ∧ w = w₁ := by
    unfold BlockContext.message
    rcases hto : transactionToMessage ctx.recovery tx ctx.signer ctx.baseFee with err | msg'
    · rw [hto] at hmessage
      cases hmessage
    · rw [hto] at hmessage
      cases hmessage
      exact ⟨rfl, rfl⟩
  obtain ⟨_, w₂, hcontext, hrun⟩ := bind_inv hrun
  have hw₂ : w₂ = w.inTx tx i := by
    cases hcontext
    rfl
  subst hw₂
  obtain ⟨⟨r', result⟩, w₃, happly, hrun⟩ := bind_inv hrun
  cases hrun
  obtain ⟨r₀, price, hbody, rfl⟩ := applyTransactionWithEVM_ok happly
  have honDB := hevm tx msg
  have hnumbered : Numbered seen tx.hash (BitVec.ofNat 64 i) n (w.inTx tx i).state :=
    hs.setTxContext hfresh
  obtain ⟨hmade, hbetween, hgas, hzero, hdeploys⟩ :=
    applyTransaction_ok (ctx.derive blobGasPrice collectTips) hnumbered hbody
  refine ⟨{ hmade with }, hbetween, hgas, fun hplain => ⟨?_, ?_⟩⟩
  · intro hlegacy
    rw [hzero (hplain.gas msg hmsg (hmade.type.symm.trans hlegacy))]
    decide
  · apply addressDerivable_of_deploys blobGasPrice collectTips hmsg hmade.type
    refine hdeploys fun hto => hplain.rules msg hmsg ?_
    rw [← (message_ok hmsg).2.1]
    exact hto

/-- **The receipts of a block follow on from each other.** -/
theorem madeFrom_processFrom (txs : List Transaction) {i : Nat} {rs : List Receipt}
    (hs : Between seen n w.state) (hfresh : EachStep ctx t Fresh txs i w)
    (hrun : (processFrom ctx txs i t w).1 = (.ok rs, v)) :
    MadeFrom (ctx.derive blobGasPrice collectTips) i n w.usedGas txs rs := by
  induction txs generalizing i n seen w rs with
  | nil =>
    cases hrun
    exact .nil _ _ _
  | cons tx txs ih =>
    obtain ⟨r, w₁, hfirst, hrun⟩ := bind_inv hrun
    obtain ⟨rs', w₂, hrest, hrun⟩ := bind_inv hrun
    cases hrun
    obtain ⟨hmade, hbetween, hgas, -⟩ :=
      processTx_ok blobGasPrice collectTips hevm hs hfresh.1 hfirst
    refine .cons hmade ?_
    rw [← hgas]
    rw [EachStep, hfirst] at hfresh
    exact ih hbetween hfresh.2 hrest

/-- Transactions of different hashes find no logs of their own. -/
theorem fresh_of_nodup (txs : List Transaction) {i : Nat} {rs : List Receipt}
    (hs : Between seen n w.state) (hnodup : (txs.map Transaction.hash).Nodup)
    (hnew : ∀ tx ∈ txs, tx.hash ∉ seen) (hrun : (processFrom ctx txs i t w).1 = (.ok rs, v)) :
    EachStep ctx t Fresh txs i w := by
  induction txs generalizing i n seen w v rs with
  | nil => trivial
  | cons tx txs ih =>
    obtain ⟨r, w₁, hfirst, hrun⟩ := bind_inv hrun
    obtain ⟨rs', w₂, hrest, -⟩ := bind_inv hrun
    rw [map_cons, nodup_cons] at hnodup
    have hfresh : Fresh tx i w := by
      by_contra hne
      exact hnew tx mem_cons_self (hs.only _ hne)
    obtain ⟨-, hbetween, -⟩ := processTx_ok none false hevm hs hfresh hfirst
    refine ⟨hfresh, ?_⟩
    rw [hfirst]
    apply ih hbetween hnodup.2 _ hrest
    rintro tx' hmem (hsame | hseen)
    · exact hnodup.1 (hsame ▸ mem_map_of_mem hmem)
    · exact hnew tx' (mem_cons_of_mem _ hmem) hseen

/-- What decides whether the receipts are reproduced, step by step. -/
theorem derivable_processFrom (txs : List Transaction) {i : Nat} {rs : List Receipt}
    (hs : Between seen n w.state) (hplain : EachStep ctx t (Plain ctx) txs i w)
    (hrun : (processFrom ctx txs i t w).1 = (.ok rs, v)) :
    (∀ r ∈ rs, NoExtraGas r) ∧
      (EachStep ctx t (Addressed ctx t) txs i w →
        Forall₂ (AddressDerivable (ctx.derive blobGasPrice collectTips)) txs rs) ∧
      ((∀ tx ∈ txs, Unmistakable ctx tx) →
        Forall₂ (AddressDerivable (ctx.derive blobGasPrice collectTips)) txs rs →
          EachStep ctx t (Addressed ctx t) txs i w) := by
  induction txs generalizing i n seen w rs with
  | nil =>
    cases hrun
    exact ⟨fun _ h => absurd h not_mem_nil, fun _ => .nil, fun _ _ => trivial⟩
  | cons tx txs ih =>
    obtain ⟨r, w₁, hfirst, hrun⟩ := bind_inv hrun
    obtain ⟨rs', w₂, hrest, hrun⟩ := bind_inv hrun
    cases hrun
    obtain ⟨hplain₁, hplain⟩ := hplain
    obtain ⟨-, hbetween, -, hstep⟩ :=
      processTx_ok blobGasPrice collectTips hevm hs hplain₁.fresh hfirst
    obtain ⟨hgas, hthere, hback⟩ := hstep hplain₁
    rw [hfirst] at hplain
    obtain ⟨hgas', hthere', hback'⟩ := ih hbetween hplain hrest
    simp only [EachStep, hfirst, forall₂_cons, forall_mem_cons]
    exact ⟨⟨hgas, hgas'⟩, fun h => ⟨hthere h.1, hthere' h.2⟩,
      fun hclear h => ⟨hback hclear.1 h.1, hback' hclear.2 h.2⟩⟩

end

/-- The numbers of receipts that follow on, from any place in the block. -/
theorem numbered_of_madeFrom {i : Nat} {n prev : U64} {txs : List Transaction} {rs : List Receipt}
    (h : MadeFrom dctx i n prev txs rs) :
    rs.map Receipt.txHash = txs.map Transaction.hash ∧
    (∀ k r, rs[k]? = some r → r.transactionIndex = BitVec.ofNat 64 (i + k) ∧
      r.cumulativeGasUsed = prev + ((rs.take (k + 1)).map Receipt.gasUsed).sum) ∧
    ∀ k log, (rs.flatMap Receipt.logs)[k]? = some log → log.index = n + BitVec.ofNat 64 k := by
  induction h with
  | nil => simp
  | @cons i n prev tx r txs rs h _ ih =>
    obtain ⟨hhash, hgas, hlogs⟩ := ih
    refine ⟨by rw [map_cons, map_cons, h.txHash, hhash], fun k r' hr => ?_, fun k log hlog => ?_⟩
    · cases k with
      | zero =>
        cases hr
        simp [h.transactionIndex, h.cumulativeGasUsed]
      | succ k =>
        obtain ⟨hindex, hsum⟩ := hgas k r' hr
        rw [hindex, hsum, h.cumulativeGasUsed]
        simp [Nat.add_right_comm, Nat.add_assoc, BitVec.add_assoc]
    · rw [flatMap_cons] at hlog
      rcases Nat.lt_or_ge k r.logs.length with hlt | hge
      · rw [getElem?_append_left hlt] at hlog
        exact (h.logs k log hlog).2.2
      · rw [getElem?_append_right hge] at hlog
        rw [hlogs _ log hlog, BitVec.add_assoc, ← BitVec.ofNat_add, Nat.add_sub_cancel' hge]

end

/-! ### A block with a creation -/

/-- An Arbitrum chain past all forks. -/
def arbConfig : SignerConfig := ⟨42161, true, 0, some 0, some 0, some 0, some 0, none, none⟩

/-- A chain on a `StateDB` where a call only leaves a log. -/
def stateEvm : Evm StateDB :=
  letI := numberCrypto
  { nitroChain (methods .ascending ⟨fun _ _ _ => 0, fun _ _ _ => (0, 0)⟩) createAddress with
    call := fun _ to_ _ gas _ => do
      updateState (·.addLog { address := to_, topics := [], data := [] })
      pure ([], gas, zeroGas, none) }

def stateContext : BlockContext where
  number := 22207818
  hash := 0
  time := 0
  baseFee := some 100000000
  config := arbConfig
  arbosVersion := 40
  recovery := ⟨fun _ => 0, fun _ _ => 0, fun _ _ _ _ => none⟩
  evm _ _ := stateEvm

/-- A transaction of the account 2. -/
def txOf (nonce : U64) (to_ : Option Address) : Transaction :=
  ⟨.arbitrumUnsigned ⟨some 42161, 2, nonce, some 100000000, 100000, to_, some 0, []⟩⟩

/-- A contract is created between two calls. -/
def blockTxs : List Transaction := [txOf 0 (some 7), txOf 1 none, txOf 2 (some 8)]

/-- The account 2 can pay for it, and the accounts `taken` are in use. -/
def payingReader (taken : List Address) : Reader :=
  letI := numberCrypto
  { Reader.empty with
    account := fun addr =>
      if addr = 2 then .ok (some ⟨0, 2 ^ 100, emptyRootHash, emptyCodeHash⟩)
      else if addr ∈ taken then .ok (some ⟨1, 0, emptyRootHash, emptyCodeHash⟩)
      else .ok none }

def blockState (taken : List Address) : StateDB := new 0 .empty (payingReader taken)

def blockRun (taken : List Address) : Except ApplyError (List Receipt) × World StateDB :=
  letI := numberCrypto
  process stateContext blockTxs none (blockState taken) 30000000

/-- The block is read from the database. -/
def blockRead (receipts : List Receipt) : Option (List Receipt) :=
  letI := numberCrypto
  (writeReceipts receipts).toOption.bind (readReceipts (stateContext.derive none true) blockTxs)

theorem onStateDB_stateEvm : letI := numberCrypto; stateEvm.OnStateDB := by
  let _ : Crypto := numberCrypto
  have haccepted : ¬stateEvm.Reverts := by
    rintro ⟨gas, used, t, w, used', gas', err, v, h⟩
    cases h
  exact
    { db := ⟨_, _, rfl⟩
      createAddress := rfl
      depth := rfl
      startTxHook := fun _ w => refl_of Keeps w
      startTxHook_ok := by
        intro t w used err ret v h
        cases h
        exact refl_of SameStanding w
      gasChargingHook := fun _ _ _ w => ⟨refl_of Keeps w, refl_of SameStanding w⟩
      revertedTxHook := fun _ _ _ w => refl_of Keeps w
      revertedTxHook_ok := by
        intro gas used t w used' gas' v h
        cases h
        exact ⟨haccepted, refl_of SameStanding w, fun _ => rfl⟩
      endTxHook := fun _ _ _ _ w => refl_of Keeps w
      call := fun _ _ _ _ _ _ _ => ⟨step (.addLog _) trivial rfl, rfl⟩
      initContract := fun _ _ _ _ _ _ _ _ w => refl_of Keeps w
      fillReceiptInfo := fun _ r => ⟨r.gasUsedForL1, rfl⟩ }

theorem between_blockState (taken : List Address) : Between ∅ 0 (blockState taken) :=
  ⟨rfl, fun _ h => absurd rfl h, fun _ h => by cases h⟩

theorem nodup_blockTxs : letI := numberCrypto; (blockTxs.map Transaction.hash).Nodup := by
  decide +kernel

/-- The address is free when the transaction comes. -/
theorem opens_blockTxs {msg : Message} (hfrom : msg.from_ = 2) :
    letI := numberCrypto
    stateEvm.Opens msg none (World.inTx
      (processTx stateContext (txOf 0 (some 7)) 0 none ⟨blockState [], 30000000, 0⟩).1.2
      (txOf 1 none) 1) := by
  let _ : Crypto := numberCrypto
  constructor
  · rintro ⟨used, err, ret, v, h⟩
    cases h
  · rintro ⟨gas, used, t, w, used', gas', err, v, h⟩
    cases h
  · rw [hfrom]
    decide +kernel
  · rw [Evm.contractOf, hfrom]
    decide +kernel
  · rw [Evm.contractOf, hfrom]
    decide +kernel
  · rw [Evm.contractOf, hfrom]
    decide +kernel

end GethArb.Core
