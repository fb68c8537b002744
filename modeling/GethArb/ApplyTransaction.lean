/-
  **Applying a transaction** (`core/state_processor.go`: `ApplyTransactionWithEVM`,
  `MakeReceipt`; `core/types/receipt.go`: `SetEffectiveGasPrice`).

  With the `OnTxEnd` hook set, a deferred function puts the effective gas price into the
  receipt and hands receipt and error to the hook.  It runs on every way out.  When the
  message is rejected there is no receipt, and to set a field of it is a panic; the code
  only gets past it for a transaction that is not pre-Nitro data on a chain before Nitro,
  where nothing is set.
-/
import GethArb.StateTransition
import GethArb.ReceiptStorage

namespace GethArb.Core

open Tx Multigas Traced

/-- `SetEffectiveGasPrice` on a receipt that may be nil; `none` is a panic. -/
def setEffectiveGasPrice (receipt : Option Receipt) (tx : Transaction) (baseFee : BigInt)
    (isArbitrumNitro : Bool) : Option (Option Receipt) :=
  if isArbitrumNitro then
    receipt.map fun r => some { r with effectiveGasPrice := some (baseFee.getD 0) }
  else
    match tx.inner with
    | .arbitrumLegacy inner =>
      receipt.map fun r => some { r with effectiveGasPrice := some inner.effectiveGasPrice.toInt }
    | _ => some receipt

section
variable {σ : Type} [Crypto] (evm : Evm σ) (msg : Message) (blockNumber : Nat) (blockHash : Hash)
variable (blockTime : U64) (tx : Transaction)
    (resultFilter : Option (ExecutionResult → Option VMError))

def makeReceipt (result : ExecutionResult) (root : Bytes) : Run σ Receipt := do
  let cumulativeGasUsed ← Traced.read World.usedGas
  let logs ← readState (evm.db.getLogs tx.hash (BitVec.ofNat 64 blockNumber) blockHash blockTime)
  let txIndex ← readState evm.db.txIndex
  let receipt : Receipt := {
    type := tx.inner.txType
    postState := root
    cumulativeGasUsed := cumulativeGasUsed
    status := if result.err.isSome then receiptStatusFailed else receiptStatusSuccessful
    txHash := tx.hash
    gasUsed := result.usedGas
    multiGasUsed := if evm.exposeMultiGas then result.usedMultiGas else zeroGas
    contractAddress := result.topLevelDeployed.getD 0
    logs := logs
    bloom := createBloom logs
    blockHash := blockHash
    blockNumber := some blockNumber
    transactionIndex := txIndex }
  let receipt := match tx.inner with
    | .blob inner => { receipt with
        blobGasUsed := BitVec.ofNat 64 (inner.blobHashes.length * blobTxBlobGasPerBlob)
        blobGasPrice := some evm.blobBaseFee }
    | _ => receipt
  readState fun s => evm.hook.fillReceiptInfo s receipt

/-- The end of a transaction in the state; before Byzantium the root goes into the receipt. -/
def finishState : Run σ Bytes :=
  if evm.isByzantium blockNumber then do
    evm.finalise true
    pure []
  else do
    let root ← tryState (evm.db.intermediateRoot (evm.isEIP158 blockNumber))
    pure (hashBytes root)

/-- `ApplyTransactionWithEVM` without the hooks of its own. -/
def applyTransaction : Run σ (Receipt × ExecutionResult) := do
  let result ← evm.applyMessage msg
  match resultFilter.bind (· result) with
  | some err => fail (.filtered err)
  | none => do
    let root ← finishState evm blockNumber
    Traced.modify fun w => { w with usedGas := w.usedGas + result.usedGas }
    updateState fun s => if evm.isVerkle then evm.db.mergeAccessEvents s else s
    let receipt ← makeReceipt evm blockNumber blockHash blockTime tx result root
    pure (receipt, result)

/-- What a run of `ApplyTransactionWithEVM` ends with. -/
abbrev Ended (σ : Type) := Except ApplyError (Receipt × ExecutionResult) × World σ

/-- The deferred function: the receipt gets its price, and the hook is called. -/
def onTxEnd (out : Ended σ × List HookCall) : Ended σ × List HookCall :=
  match out with
  | ((.ok (receipt, result), w), calls) =>
    match setEffectiveGasPrice (some receipt) tx evm.baseFee
      (evm.isArbitrumNitro evm.blockNumber) with
    | some (some receipt) => ((.ok (receipt, result), w), calls ++ [.onTxEnd (some receipt) none])
    | _ => ((.error .panic, w), calls)
  | ((.error err, w), calls) =>
    match setEffectiveGasPrice none tx evm.baseFee (evm.isArbitrumNitro evm.blockNumber) with
    | none => ((.error .panic, w), calls)
    | some receipt => ((.error err, w), calls ++ [.onTxEnd receipt (some err)])

def applyTransactionWithEVM : Run σ (Receipt × ExecutionResult) := fun tracer w =>
  let out := (do
    trace (·.onTxStart) (.onTxStart tx msg.from_)
    applyTransaction evm msg blockNumber blockHash blockTime tx resultFilter) tracer w
  if tracer.any (·.onTxEnd) then onTxEnd evm tx out else out

end

/-- A receipt is at hand, or none is looked at. -/
theorem setEffectiveGasPrice_some (r : Receipt) (tx : Transaction) (baseFee : BigInt)
    (nitro : Bool) :
    ∃ price, setEffectiveGasPrice (some r) tx baseFee nitro =
      some (some { r with effectiveGasPrice := price }) := by
  unfold setEffectiveGasPrice
  split
  · exact ⟨_, rfl⟩
  · split
    · exact ⟨_, rfl⟩
    · exact ⟨r.effectiveGasPrice, rfl⟩

theorem onTxEnd_ok {σ : Type} (evm : Evm σ) (tx : Transaction) (r : Receipt)
    (result : ExecutionResult) (w : World σ) (calls : List HookCall) :
    ∃ price calls', onTxEnd evm tx ((.ok (r, result), w), calls) =
      ((.ok ({ r with effectiveGasPrice := price }, result), w), calls') := by
  obtain ⟨price, hprice⟩ := setEffectiveGasPrice_some r tx evm.baseFee
    (evm.isArbitrumNitro evm.blockNumber)
  refine ⟨price, calls ++ [.onTxEnd (some { r with effectiveGasPrice := price }) none], ?_⟩
  rw [onTxEnd, hprice]

/-- `DefaultTxProcessor`: nothing is charged, and the coinbase has the tips. -/
def defaultTxProcessor {σ : Type} (coinbase : Address) : ProcessingHook σ where
  startTxHook := pure (false, zeroGas, none, [])
  gasChargingHook gas _ := pure (coinbase, zeroGas, gas)
  revertedTxHook gas used := pure (used, gas, none)
  endTxHook _ _ _ := pure ()
  heldGas _ := 0
  nonrefundableGas _ := 0
  collectTips _ := true
  posterGas _ := 0
  scheduledTxes _ := []
  isCalldataPricingIncreaseEnabled _ := true
  fillReceiptInfo _ receipt := receipt

/-- A Nitro chain with no code to run. -/
def nitroChain {σ : Type} (db : StateMethods σ) (createAddress : Address → U64 → Address) :
    Evm σ where
  isArbitrum := true
  isArbitrumNitro _ := true
  isByzantium _ := true
  isEIP158 _ := true
  isLondon := true
  isCancun := true
  isOsaka := true
  isVerkle := false
  rules := ⟨true, true, true, true, true, true, true, false⟩
  chainID := 42161
  maxInitCodeSize := 49152
  blockNumber := 22207818
  baseFee := some 100000000
  blobBaseFee := 0
  coinbase := 0
  noBaseFee := false
  exposeMultiGas := false
  depth := 0
  activePrecompiles := []
  authority _ := none
  db := db
  hook := defaultTxProcessor 0
  createAddress := createAddress
  call _ _ _ gas _ := pure ([], gas, zeroGas, none)
  initContract _ _ _ _ gas _ used := pure ([], gas, used, none)

end GethArb.Core
