/-
  **Applying a message** (`core/state_transition.go`: `preCheck`, `buyGas`, `execute`,
  `IntrinsicMultiGas`, `FloorDataGas`, `applyAuthorization`, `calcRefund`, `returnGas`;
  `core/vm/evm.go`: `Create`, `create`; `core/state/statedb_hooked.go`).

  A message is rejected at one of many places, each with an error of its own, and what was
  done to the state before stays done.  Tracing hooks are called all along the way.  The
  functions are written as `Traced` computations, over any state with the methods of the
  `StateDB` interface that are used here; with a tracer installed the state is the hooked one,
  which calls the hooks of balances, nonces and codes.

  Parameters are what runs inside the EVM (`call`, and `initContract` for the init code) and
  the Arbitrum processing hook.  Reads are functions of the state: what a read caches is not
  part of it.  Integers of a message are not nil, except the base fee of the block.  A panic is
  an error of its own.
-/
import GethArb.Traced
import GethArb.Receipt
import GethArb.Signer

namespace GethArb.Core

open Tx Multigas Traced

/-! ### Messages, results, errors -/

structure Message where
  to_ : Option Address
  from_ : Address
  nonce : U64
  value : Int
  gasLimit : U64
  gasPrice : Int
  gasFeeCap : Int
  gasTipCap : Int
  data : Bytes
  accessList : Option Tx.AccessList
  blobGasFeeCap : Int
  blobHashes : Option (List Hash)
  setCodeAuthorizations : Option (List SetCodeAuthorization)
  skipNonceChecks : Bool
  skipTransactionChecks : Bool
deriving DecidableEq, Repr

/-- The errors of the interpreter and of the hooks, by their text. -/
abbrev VMError := String

structure ExecutionResult where
  usedGas : U64
  maxUsedGas : U64
  err : Option VMError
  returnData : Bytes
  scheduledTxes : List Transaction
  topLevelDeployed : Option Address
  usedMultiGas : MultiGas
deriving DecidableEq

inductive ApplyError where
  | nonceTooHigh (addr : Address) (tx state : U64)
  | nonceTooLow (addr : Address) (tx state : U64)
  | nonceMax (addr : Address) (nonce : U64)
  | gasLimitTooHigh (cap tx : U64)
  | senderNoEOA (addr : Address) (codeLen : Nat)
  | feeCapVeryHigh (addr : Address)
  | tipVeryHigh (addr : Address)
  | tipAboveFeeCap (addr : Address) (tip feeCap : Int)
  | feeCapTooLow (addr : Address) (feeCap baseFee : Int)
  | blobTxCreate
  | missingBlobHashes
  | tooManyBlobs
  | blobHashVersion (blob : Nat)
  | blobFeeCapTooLow (addr : Address) (feeCap blobBaseFee : Int)
  | setCodeTxCreate (addr : Address)
  | emptyAuthList (addr : Address)
  | requiredBalanceExceeds256Bits (addr : Address)
  | insufficientFunds (addr : Address) (have_ want : U256)
  | gasLimitReached
  | gasUintOverflow
  | intrinsicGas (have_ want : U64)
  | floorDataGas (have_ want : U64)
  | insufficientFundsForTransfer (addr : Address)
  | maxInitCodeSizeExceeded (size limit : Nat)
  | sender (err : SenderError)
  | hook (err : VMError)
  | filtered (err : VMError)
  | panic
deriving DecidableEq, Repr

/-! ### Hooks -/

/-- `tracing.Hooks`: which of the functions are set. -/
structure Hooks where
  onTxStart : Bool
  onTxEnd : Bool
  onGasChange : Bool
  captureArbitrumTransfer : Bool
  onBalanceChange : Bool
  onNonceChange : Bool
  onNonceChangeV2 : Bool
  onCodeChange : Bool
  onCodeChangeV2 : Bool
  onEnter : Bool
  onExit : Bool

inductive GasChangeReason where
  | txInitialBalance
  | txIntrinsicGas
  | txRefunds
  | txLeftOverReturned
  | txDataFloor
  | callInitialBalance
  | callLeftOverReturned
  | callFailedExecution
  | witnessContractInit
  | witnessContractCollisionCheck
deriving DecidableEq, Repr

inductive BalanceChangeReason where
  | rewardTransactionFee
  | gasBuy
  | gasReturn
  | selfdestruct
  | selfdestructBurn
deriving DecidableEq, Repr

inductive NonceChangeReason where
  | eoaCall
  | authorization
  | contractCreator
  | newContract
deriving DecidableEq, Repr

inductive CodeChangeReason where
  | authorization
  | authorizationClear
deriving DecidableEq, Repr

/-- The calls of hooks.  `evm` is one from inside the interpreter. -/
inductive HookCall where
  | onTxStart (tx : Transaction) (from_ : Address)
  | onTxEnd (receipt : Option Receipt) (err : Option ApplyError)
  | onGasChange (old new : U64) (reason : GasChangeReason)
  | captureArbitrumTransfer (from_ to_ : Option Address) (value : Int) (before : Bool)
      (reason : BalanceChangeReason)
  | onBalanceChange (addr : Address) (prev new : U256) (reason : BalanceChangeReason)
  | onNonceChange (addr : Address) (prev new : U64)
  | onNonceChangeV2 (addr : Address) (prev new : U64) (reason : NonceChangeReason)
  | onCodeChange (addr : Address) (prevHash : Hash) (prev : Bytes) (codeHash : Hash) (code : Bytes)
  | onCodeChangeV2 (addr : Address) (prevHash : Hash) (prev : Bytes) (codeHash : Hash)
      (code : Bytes)
      (reason : CodeChangeReason)
  | onEnter (from_ to_ : Address) (input : Bytes) (gas : U64) (value : U256)
  | onExit (output : Bytes) (gasUsed : U64) (err : Option VMError)
  | evm (name : String)

/-! ### The state and the EVM -/

/-- The chain rules that are read. -/
structure Rules where
  isHomestead : Bool
  isEIP158 : Bool
  isIstanbul : Bool
  isLondon : Bool
  isShanghai : Bool
  isPrague : Bool
  isEIP2929 : Bool
  isEIP4762 : Bool

/-- The methods of the `StateDB` interface that are called, and those of the access events. -/
structure StateMethods (σ : Type) where
  getBalance : Address → σ → U256
  addBalance : Address → U256 → σ → σ
  subBalance : Address → U256 → σ → σ
  getNonce : Address → σ → U64
  setNonce : Address → U64 → σ → σ
  getCode : Address → σ → Bytes
  getCodeHash : Address → σ → Hash
  setCode : Address → Bytes → σ → σ
  getStorageRoot : Address → σ → Hash
  exist : Address → σ → Bool
  addRefund : U64 → σ → σ
  getRefund : σ → U64
  addAddressToAccessList : Address → σ → σ
  touchAddress : Address → σ → σ
  snapshot : σ → Nat × σ
  createAccount : Address → σ → σ
  /-- `none` is a panic, here, in `prepare` and in `intermediateRoot`. -/
  createContract : Address → σ → Option σ
  prepare : Rules → Address → Address → Option Address → List Address → Tx.AccessList → σ → Option σ
  getSelfDestructs : σ → List Address
  finalise : Bool → σ → σ
  /-- The objects `Finalise` of the hooked state reports, with their balances. -/
  burnt : σ → List (Address × U256)
  intermediateRoot : Bool → σ → Option (Hash × σ)
  getLogs : Hash → U64 → Hash → U64 → σ → List Log
  txIndex : σ → U64
  addTxOrigin : Address → σ → σ
  addTxDestination : Address → Bool → Bool → σ → σ
  addAccessAccount : Address → σ → σ
  contractCreatePreCheckGas : Address → U64 → σ → U64 × σ
  contractCreateInitGas : Address → U64 → σ → (U64 × U64) × σ
  mergeAccessEvents : σ → σ

/-- What a message works on: the state, the gas pool and the gas used so far in the block. -/
structure World (σ : Type) where
  state : σ
  gp : U64
  usedGas : U64

abbrev Run (σ : Type) := Traced (Option Hooks) HookCall (World σ) ApplyError

section
variable {σ α : Type}

def fail (err : ApplyError) : Run σ α := Traced.throw err

def require (c : Bool) (err : ApplyError) : Run σ Unit := if c then pure () else fail err

def readState (f : σ → α) : Run σ α := Traced.read fun w => f w.state

def updateState (f : σ → σ) : Run σ Unit := Traced.modify fun w => { w with state := f w.state }

/-- A method that answers and changes the state. -/
def runState (f : σ → α × σ) : Run σ α := do
  let a ← readState fun s => (f s).1
  updateState fun s => (f s).2
  pure a

/-- A method that may panic. -/
def tryState (f : σ → Option (α × σ)) : Run σ α := do
  let a ← readState fun s => (f s).map Prod.fst
  updateState fun s => ((f s).map Prod.snd).getD s
  match a with
  | none => fail .panic
  | some a => pure a

/-- Call hooks, if there is a tracer. -/
def traceAll (calls : Hooks → List HookCall) : Run σ Unit :=
  observe fun tracer _ =>
    match tracer with
    | none => []
    | some hooks => calls hooks

/-- Call a hook, if it is set. -/
def trace (on : Hooks → Bool) (call : HookCall) : Run σ Unit :=
  traceAll fun hooks => if on hooks then [call] else []

end

/-- `vm.TxProcessingHook`, the part `execute` and `MakeReceipt` call. -/
structure ProcessingHook (σ : Type) where
  startTxHook : Run σ (Bool × MultiGas × Option VMError × Bytes)
  /-- The tip recipient, the gas charged and the gas that remains. -/
  gasChargingHook : U64 → U64 → Run σ (Address × MultiGas × U64)
  revertedTxHook : U64 → MultiGas → Run σ (MultiGas × U64 × Option VMError)
  endTxHook : U64 → MultiGas → Bool → Run σ Unit
  heldGas : σ → U64
  nonrefundableGas : σ → U64
  collectTips : σ → Bool
  posterGas : σ → U64
  scheduledTxes : σ → List Transaction
  isCalldataPricingIncreaseEnabled : σ → Bool
  fillReceiptInfo : σ → Receipt → Receipt

/-- The EVM of a block: its configuration, the state methods and what runs inside. -/
structure Evm (σ : Type) where
  isArbitrum : Bool
  isArbitrumNitro : Nat → Bool
  isByzantium : Nat → Bool
  isEIP158 : Nat → Bool
  isLondon : Bool
  isCancun : Bool
  isOsaka : Bool
  isVerkle : Bool
  rules : Rules
  chainID : Int
  maxInitCodeSize : Nat
  blockNumber : Nat
  baseFee : BigInt
  blobBaseFee : Int
  coinbase : Address
  noBaseFee : Bool
  exposeMultiGas : Bool
  depth : Nat
  activePrecompiles : List Address
  authority : SetCodeAuthorization → Option Address
  db : StateMethods σ
  hook : ProcessingHook σ
  /-- `crypto.CreateAddress`. -/
  createAddress : Address → U64 → Address
  /-- `Call`: the data, the gas left, the gas used and the error. -/
  call : Address → Address → Bytes → U64 → U256 → Run σ (Bytes × U64 × MultiGas × Option VMError)
  /-- `create` from the transfer on, with the snapshot it may go back to. -/
  initContract : Nat → Address → Address → Bytes → U64 → U256 → MultiGas →
    Run σ (Bytes × U64 × MultiGas × Option VMError)

/-! ### Methods of the hooked state -/

namespace Evm

variable {σ : Type} (evm : Evm σ)

def addBalance (addr : Address) (amount : U256) (reason : BalanceChangeReason) : Run σ Unit := do
  let prev ← readState (evm.db.getBalance addr)
  updateState (evm.db.addBalance addr amount)
  trace (fun hooks => hooks.onBalanceChange && amount ≠ 0)
    (.onBalanceChange addr prev (prev + amount) reason)

def subBalance (addr : Address) (amount : U256) (reason : BalanceChangeReason) : Run σ Unit := do
  let prev ← readState (evm.db.getBalance addr)
  updateState (evm.db.subBalance addr amount)
  trace (fun hooks => hooks.onBalanceChange && amount ≠ 0)
    (.onBalanceChange addr prev (prev - amount) reason)

def setNonce (addr : Address) (nonce : U64) (reason : NonceChangeReason) : Run σ Unit := do
  let prev ← readState (evm.db.getNonce addr)
  updateState (evm.db.setNonce addr nonce)
  traceAll fun hooks =>
    if hooks.onNonceChangeV2 then [.onNonceChangeV2 addr prev nonce reason]
    else if hooks.onNonceChange then [.onNonceChange addr prev nonce]
    else []

def setCode [Crypto] (addr : Address) (code : Bytes) (reason : CodeChangeReason) : Run σ Unit := do
  let prev ← readState (evm.db.getCode addr)
  updateState (evm.db.setCode addr code)
  let prevHash := keccak256 prev
  let codeHash := keccak256 code
  traceAll fun hooks =>
    if prevHash = codeHash then []
    else if hooks.onCodeChangeV2 then [.onCodeChangeV2 addr prevHash prev codeHash code reason]
    else if hooks.onCodeChange then [.onCodeChange addr prevHash prev codeHash code]
    else []

def finalise (deleteEmptyObjects : Bool) : Run σ Unit := do
  let burnt ← readState evm.db.burnt
  traceAll fun hooks =>
    if hooks.onBalanceChange then
      burnt.map fun (addr, balance) => .onBalanceChange addr balance 0 .selfdestructBurn
    else []
  updateState (evm.db.finalise deleteEmptyObjects)

def onGasChange (old new : U64) (reason : GasChangeReason) : Run σ Unit :=
  trace (·.onGasChange) (.onGasChange old new reason)

def captureArbitrumTransfer (from_ to_ : Option Address) (value : Int) (before : Bool)
    (reason : BalanceChangeReason) : Run σ Unit :=
  trace (·.captureArbitrumTransfer) (.captureArbitrumTransfer from_ to_ value before reason)

/-- The base fee, where the code does not check that it is there. -/
def someBaseFee : Run σ Int :=
  match evm.baseFee with
  | none => fail .panic
  | some baseFee => pure baseFee

end Evm

/-! ### Intrinsic gas -/

def txGas : U64 := 21000
def txGasContractCreation : U64 := 53000
def txDataZeroGas : U64 := 4
def txDataNonZeroGasFrontier : U64 := 68
def txDataNonZeroGasEIP2028 : U64 := 16
def txTokenPerNonZeroByte : U64 := 4
def txCostFloorPerToken : U64 := 10
def txAccessListAddressGas : U64 := 2400
def txAccessListStorageKeyGas : U64 := 1900
def txAuthTupleGas : U64 := 12500
def initCodeWordGas : U64 := 2
def callNewAccountGas : U64 := 25000
def refundQuotient : U64 := 2
def refundQuotientEIP3529 : U64 := 5
def blobTxBlobGasPerBlob : Nat := 131072
def blobTxMaxBlobs : Nat := 6
def maxTxGasRenamedForNitroMerges : U64 := 16777216
def callCreateDepth : Nat := 1024

/-- `bytes.Count(data, []byte{0})`. -/
def zeroBytes (data : Bytes) : U64 := BitVec.ofNat 64 (data.count 0)

def toWordSize (size : U64) : U64 :=
  if maxUint64 - 31 < size then maxUint64 / 32 + 1 else (size + 31) / 32

/-- Add `count` times `price`, if the product and the sum fit. -/
def addPriced (gas : MultiGas) (kind : ResourceKind)
    (count price : U64) : Except ApplyError MultiGas :=
  if (maxUint64 - gas.singleGas) / price < count then .error .gasUintOverflow
  else .ok (gas.saturatingIncrementInto kind (count * price))

def intrinsicMultiGas (data : Bytes) (accessList : Option Tx.AccessList)
    (authList : Option (List SetCodeAuthorization))
    (isContractCreation isHomestead isEIP2028 isEIP3860 : Bool) : Except ApplyError MultiGas := do
  let gas := zeroGas.saturatingIncrementInto .computation
    (if isContractCreation && isHomestead then txGasContractCreation else txGas)
  let dataLen : U64 := BitVec.ofNat 64 data.length
  let gas ←
    if dataLen = 0 then .ok gas
    else do
      let z := zeroBytes data
      let gas ← addPriced gas .l2Calldata (dataLen - z)
        (if isEIP2028 then txDataNonZeroGasEIP2028 else txDataNonZeroGasFrontier)
      let gas ← addPriced gas .l2Calldata z txDataZeroGas
      if isContractCreation && isEIP3860 then
        addPriced gas .computation (toWordSize dataLen) initCodeWordGas
      else .ok gas
  let gas := match accessList with
    | none => gas
    | some list =>
      (gas.saturatingIncrementInto .storageAccessRead
        (BitVec.ofNat 64 list.length * txAccessListAddressGas)).saturatingIncrementInto
          .storageAccessRead
          (BitVec.ofNat 64 (list.map (·.storageKeys.length)).sum * txAccessListStorageKeyGas)
  .ok (match authList with
    | none => gas
    | some list =>
      gas.saturatingIncrementInto .storageGrowth (BitVec.ofNat 64 list.length * callNewAccountGas))

def floorDataGas (data : Bytes) : Except ApplyError U64 :=
  let z := zeroBytes data
  let nz := BitVec.ofNat 64 data.length - z
  let tokens := nz * txTokenPerNonZeroByte + z
  if (maxUint64 - txGas) / txCostFloorPerToken < tokens then .error .gasUintOverflow
  else .ok (txGas + tokens * txCostFloorPerToken)

/-! ### The checks before execution -/

def delegationPrefix : Bytes := [0xef, 0x01, 0x00]

def parseDelegation (b : Bytes) : Option Address :=
  if b.length ≠ 23 || !delegationPrefix.isPrefixOf b then none
  else some (BitVec.ofNat 160 (ofBytesBE (b.drop 3)))

def addressToDelegation (addr : Address) : Bytes := delegationPrefix ++ addressBytes addr

/-- `kzg4844.IsValidVersionedHash`. -/
def isValidVersionedHash (hash : Hash) : Bool := hash >>> 248 = 1

/-- The integer fits into 256 bits; `uint256.FromBig` reports an overflow otherwise. -/
def fits256 (x : Int) : Bool := x.natAbs < 2 ^ 256

def Message.blobGasUsed (msg : Message) : U64 :=
  BitVec.ofNat 64 ((msg.blobHashes.getD []).length * blobTxBlobGasPerBlob)

namespace Evm

variable {σ : Type} (evm : Evm σ) (msg : Message)

def checkNonce : Run σ Unit :=
  if msg.skipNonceChecks then pure ()
  else do
    let stNonce ← readState (evm.db.getNonce msg.from_)
    require (!decide (stNonce < msg.nonce)) (.nonceTooHigh msg.from_ msg.nonce stNonce)
    require (!decide (msg.nonce < stNonce)) (.nonceTooLow msg.from_ msg.nonce stNonce)
    require (!decide (stNonce + 1 < stNonce)) (.nonceMax msg.from_ stNonce)

def checkSender : Run σ Unit :=
  if msg.skipTransactionChecks then pure ()
  else do
    require (!(!evm.isArbitrum && evm.isOsaka && maxTxGasRenamedForNitroMerges < msg.gasLimit))
      (.gasLimitTooHigh maxTxGasRenamedForNitroMerges msg.gasLimit)
    let code ← readState (evm.db.getCode msg.from_)
    require (!(0 < code.length && (parseDelegation code).isNone))
      (.senderNoEOA msg.from_ code.length)

def checkFees : Run σ Unit :=
  if !evm.isLondon || (evm.noBaseFee && msg.gasFeeCap = 0 && msg.gasTipCap = 0) then pure ()
  else do
    require (fits256 msg.gasFeeCap) (.feeCapVeryHigh msg.from_)
    require (fits256 msg.gasTipCap) (.tipVeryHigh msg.from_)
    require (!decide (msg.gasFeeCap < msg.gasTipCap))
      (.tipAboveFeeCap msg.from_ msg.gasTipCap msg.gasFeeCap)
    let baseFee ← evm.someBaseFee
    require (!decide (msg.gasFeeCap < baseFee)) (.feeCapTooLow msg.from_ msg.gasFeeCap baseFee)

def checkBlobHashes : Run σ Unit :=
  match msg.blobHashes with
  | none => pure ()
  | some hashes => do
    require msg.to_.isSome .blobTxCreate
    require (!hashes.isEmpty) .missingBlobHashes
    require (!(evm.isOsaka && blobTxMaxBlobs < hashes.length)) .tooManyBlobs
    match hashes.findIdx? (!isValidVersionedHash ·) with
    | some i => fail (.blobHashVersion i)
    | none => pure ()

def checkBlobFee : Run σ Unit :=
  if !evm.isCancun || msg.blobGasUsed = 0 || (evm.noBaseFee && msg.blobGasFeeCap = 0) then pure ()
  else require (!decide (msg.blobGasFeeCap < evm.blobBaseFee))
    (.blobFeeCapTooLow msg.from_ msg.blobGasFeeCap evm.blobBaseFee)

def checkAuthorizations : Run σ Unit :=
  match msg.setCodeAuthorizations with
  | none => pure ()
  | some list => do
    require msg.to_.isSome (.setCodeTxCreate msg.from_)
    require (!list.isEmpty) (.emptyAuthList msg.from_)

/-- What blobs add to a price, at a price per unit of blob gas. -/
def blobCost (price : Int) : Int :=
  if evm.isCancun && 0 < msg.blobGasUsed then msg.blobGasUsed.toNat * price else 0

def subGas (amount : U64) : Run σ Unit := do
  let gp ← Traced.read World.gp
  require (!decide (gp < amount)) .gasLimitReached
  Traced.modify fun w => { w with gp := gp - amount }

def addGas (amount : U64) : Run σ Unit := do
  let gp ← Traced.read World.gp
  require (!decide (maxUint64 - amount < gp)) .panic
  Traced.modify fun w => { w with gp := gp + amount }

def buyGas : Run σ Unit := do
  let mgval := msg.gasLimit.toNat * msg.gasPrice + evm.blobCost msg evm.blobBaseFee
  let balanceCheck := msg.gasLimit.toNat * msg.gasFeeCap + msg.value +
    evm.blobCost msg msg.blobGasFeeCap
  require (fits256 balanceCheck) (.requiredBalanceExceeds256Bits msg.from_)
  let have_ ← readState (evm.db.getBalance msg.from_)
  let want := BitVec.ofInt 256 balanceCheck
  require (!decide (have_ < want)) (.insufficientFunds msg.from_ have_ want)
  subGas msg.gasLimit
  onGasChange 0 msg.gasLimit .txInitialBalance
  evm.subBalance msg.from_ (BitVec.ofInt 256 mgval) .gasBuy
  captureArbitrumTransfer (some msg.from_) none mgval true .gasBuy

/-- `preCheck` after the nonce. -/
def checkAndBuyGas : Run σ Unit := do
  evm.checkSender msg
  evm.checkFees msg
  evm.checkBlobHashes msg
  evm.checkBlobFee msg
  checkAuthorizations msg
  evm.buyGas msg

def preCheck : Run σ Unit := do
  evm.checkNonce msg
  evm.checkAndBuyGas msg

/-! ### Contract creation -/

def captureBegin (from_ to_ : Address) (input : Bytes) (startGas : U64)
    (value : U256) : Run σ Unit := do
  trace (·.onEnter) (.onEnter from_ to_ input startGas value)
  onGasChange 0 startGas .callInitialBalance

def captureEnd (startGas leftOverGas : U64) (ret : Bytes) (err : Option VMError) : Run σ Unit := do
  trace (fun hooks => hooks.onGasChange && leftOverGas ≠ 0)
    (.onGasChange leftOverGas 0 .callLeftOverReturned)
  trace (·.onExit) (.onExit ret (startGas - leftOverGas) err)

/-- What `create` returns: data, address, gas left, gas used, error. -/
abbrev Created := Bytes × Address × U64 × MultiGas × Option VMError

/-- An account is there already, and so nothing is created at the address. -/
def collides [Crypto] (address : Address) (s : σ) : Bool :=
  let contractHash := evm.db.getCodeHash address s
  let storageRoot := evm.db.getStorageRoot address s
  evm.db.getNonce address s ≠ 0 || (contractHash ≠ 0 && contractHash ≠ emptyCodeHash) ||
    (storageRoot ≠ 0 && storageRoot ≠ emptyRootHash)

/-- `create` from the snapshot to the setting of the nonce. -/
def openContract (address : Address) : Run σ Nat := do
  let snapshot ← runState evm.db.snapshot
  updateState fun s => if evm.db.exist address s then s else evm.db.createAccount address s
  tryState fun s => (evm.db.createContract address s).map ((), ·)
  (if evm.rules.isEIP158 then evm.setNonce address 1 .newContract else pure ())
  pure snapshot

/-- `create` from the opening of the contract on. -/
def deploy (caller : Address) (code : Bytes) (gas : U64) (value : U256) (address : Address)
    (usedMultiGas : MultiGas) : Run σ Created := do
  let snapshot ← evm.openContract address
  let (consumed, wanted) ←
    if evm.rules.isEIP4762 then runState (evm.db.contractCreateInitGas address gas) else pure (0, 0)
  if consumed < wanted then
    pure ([], 0, 0, computationGas gas, some "out of gas")
  else do
    trace (fun hooks => hooks.onGasChange && evm.rules.isEIP4762)
      (.onGasChange gas (gas - consumed) .witnessContractInit)
    let (ret, left, used, err) ← evm.initContract snapshot caller address code
      (gas - consumed) value
      (if evm.rules.isEIP4762 then usedMultiGas.saturatingIncrement .computation consumed
        else usedMultiGas)
    pure (ret, address, left, used, err)

/-- `create` from the check of the address on. -/
def deployAt [Crypto] (caller : Address) (code : Bytes) (gas : U64) (value : U256)
    (address : Address)
    (usedMultiGas : MultiGas) : Run σ Created := do
  updateState fun s => if evm.rules.isEIP2929 then evm.db.addAddressToAccessList address s else s
  let collision ← readState (evm.collides address)
  if collision then do
    onGasChange gas 0 .callFailedExecution
    pure ([], 0, 0, computationGas gas, some "contract address collision")
  else evm.deploy caller code gas value address usedMultiGas

/-- `create` from the setting of the caller's nonce on. -/
def createAt [Crypto] (caller : Address) (code : Bytes) (gas : U64) (value : U256)
    (address : Address)
    (nonce : U64) : Run σ Created := do
  evm.setNonce caller (nonce + 1) .contractCreator
  let statelessGas ←
    if evm.rules.isEIP4762 then runState (evm.db.contractCreatePreCheckGas address gas) else pure 0
  if gas < statelessGas then
    pure ([], 0, 0, computationGas gas, some "out of gas")
  else do
    trace (fun hooks => hooks.onGasChange && evm.rules.isEIP4762)
      (.onGasChange gas (gas - statelessGas) .witnessContractCollisionCheck)
    evm.deployAt caller code (gas - statelessGas) value address
      (zeroGas.saturatingIncrement .computation statelessGas)

/-- The body of `create`, between the two captures. -/
def createBody [Crypto] (caller : Address) (code : Bytes) (gas : U64) (value : U256)
    (address : Address) : Run σ Created := do
  if callCreateDepth < evm.depth then
    pure ([], 0, gas, zeroGas, some "max call depth exceeded")
  else do
    updateState (evm.db.touchAddress address)
    let balance ← readState (evm.db.getBalance caller)
    if balance < value then
      pure ([], 0, gas, zeroGas, some "insufficient balance for transfer")
    else do
      let nonce ← readState (evm.db.getNonce caller)
      if nonce + 1 < nonce then
        pure ([], 0, gas, zeroGas, some "nonce uint64 overflow")
      else evm.createAt caller code gas value address nonce

def create [Crypto] (caller : Address) (code : Bytes) (gas : U64)
    (value : U256) : Run σ Created := do
  let nonce ← readState (evm.db.getNonce caller)
  let address := evm.createAddress caller nonce
  captureBegin caller address code gas value
  let (ret, addr, left, used, err) ← evm.createBody caller code gas value address
  captureEnd gas left ret err
  pure (ret, addr, left, used, err)

/-! ### Execution -/

/-- `validateAuthorization`; `none` for all its errors, which the caller ignores. -/
def validateAuthorization (auth : SetCodeAuthorization) : Run σ (Option Address) :=
  if auth.chainID ≠ 0 && (auth.chainID.toNat : Int) ≠ evm.chainID then pure none
  else if auth.nonce + 1 < auth.nonce then pure none
  else
    match evm.authority auth with
    | none => pure none
    | some authority => do
      updateState (evm.db.addAddressToAccessList authority)
      let code ← readState (evm.db.getCode authority)
      let nonce ← readState (evm.db.getNonce authority)
      pure (if (code.length ≠ 0 && (parseDelegation code).isNone) || nonce ≠ auth.nonce then none
        else some authority)

def applyAuthorization [Crypto] (auth : SetCodeAuthorization) : Run σ Unit := do
  match ← evm.validateAuthorization auth with
  | none => pure ()
  | some authority => do
    updateState fun s =>
      if evm.db.exist authority s then evm.db.addRefund (callNewAccountGas - txAuthTupleGas) s
        else s
    evm.setNonce authority (auth.nonce + 1) .authorization
    if auth.address = 0 then evm.setCode authority [] .authorizationClear
    else evm.setCode authority (addressToDelegation auth.address) .authorization

/-- Arbitrum drops the tip when tips are not collected. -/
def dropTip : Run σ Message := do
  let collectTips ← readState evm.hook.collectTips
  if collectTips then pure msg
  else do
    let baseFee ← evm.someBaseFee
    pure (if baseFee < msg.gasPrice then { msg with gasPrice := baseFee, gasTipCap := 0 } else msg)

/-- The floor of EIP-7623, zero where it does not apply. -/
def floorGas : Run σ U64 := do
  let enabled ← readState evm.hook.isCalldataPricingIncreaseEnabled
  if evm.rules.isPrague && enabled then do
    let floor ← ofExcept (floorDataGas msg.data)
    require (!decide (msg.gasLimit < floor)) (.floorDataGas msg.gasLimit floor)
    pure floor
  else pure 0

/-- The checks of the value and of the init code. -/
def checkTransfer : Run σ Unit := do
  require (fits256 msg.value) (.insufficientFundsForTransfer msg.from_)
  let balance ← readState (evm.db.getBalance msg.from_)
  require (!(msg.value ≠ 0 && balance < BitVec.ofInt 256 msg.value))
    (.insufficientFundsForTransfer msg.from_)
  require (!(evm.rules.isShanghai && msg.to_.isNone && evm.maxInitCodeSize < msg.data.length))
    (.maxInitCodeSizeExceeded msg.data.length evm.maxInitCodeSize)

/-- What the top level call or creation leaves: data, contract, gas left, gas used, error. -/
structure TopLevel where
  ret : Bytes
  deployed : Option Address
  gasRemaining : U64
  usedMultiGas : MultiGas
  vmerr : Option VMError

def topLevelCall [Crypto] (to_ : Address) (gasRemaining : U64) (usedMultiGas : MultiGas) :
    Run σ TopLevel := do
  let nonce ← readState (evm.db.getNonce msg.from_)
  evm.setNonce msg.from_ (nonce + 1) .eoaCall
  (msg.setCodeAuthorizations.getD []).forM evm.applyAuthorization
  updateState fun s =>
    match parseDelegation (evm.db.getCode to_ s) with
    | none => s
    | some addr => evm.db.addAddressToAccessList addr s
  let (ret, left, multiGas, vmerr) ←
    evm.call msg.from_ to_ msg.data gasRemaining (BitVec.ofInt 256 msg.value)
  pure ⟨ret, none, left, usedMultiGas.saturatingAdd multiGas, vmerr⟩

def topLevelCreate [Crypto] (gasRemaining : U64) (usedMultiGas : MultiGas) : Run σ TopLevel := do
  let (ret, addr, left, multiGas, vmerr) ←
    evm.create msg.from_ msg.data gasRemaining (BitVec.ofInt 256 msg.value)
  pure ⟨ret, some addr, left, usedMultiGas.saturatingAdd multiGas, vmerr⟩

/-- The hook may know that the transaction is to fail, and then it is not executed. -/
def topLevel [Crypto] (gasRemaining : U64) (usedMultiGas : MultiGas) : Run σ TopLevel := do
  let (usedMultiGas, gasRemaining, vmerr) ← evm.hook.revertedTxHook gasRemaining usedMultiGas
  match vmerr with
  | some err => pure ⟨[], none, gasRemaining, usedMultiGas, some err⟩
  | none =>
    match msg.to_ with
    | none => evm.topLevelCreate msg gasRemaining usedMultiGas
    | some to_ => evm.topLevelCall msg to_ gasRemaining usedMultiGas

def calcRefund (gasRemaining gasUsed : U64) : Run σ U64 := do
  let nonrefundable ← readState evm.hook.nonrefundableGas
  let counter ← readState evm.db.getRefund
  let quotient := if evm.isLondon then refundQuotientEIP3529 else refundQuotient
  let cap := if nonrefundable < gasUsed then (gasUsed - nonrefundable) / quotient else 0
  let refund := if counter < cap then counter else cap
  trace (fun hooks => hooks.onGasChange && 0 < refund)
    (.onGasChange gasRemaining (gasRemaining + refund) .txRefunds)
  pure refund

def returnGas (gasRemaining : U64) : Run σ Unit := do
  require (fits256 msg.gasPrice) .panic
  let remaining := gasRemaining.setWidth 256 * BitVec.ofInt 256 msg.gasPrice
  evm.addBalance msg.from_ remaining .gasReturn
  trace (fun hooks => hooks.onGasChange && 0 < gasRemaining)
    (.onGasChange gasRemaining 0 .txLeftOverReturned)
  captureArbitrumTransfer none (some msg.from_) remaining.toNat false .gasReturn
  addGas gasRemaining

/-- The fee for the tip recipient, zero if it is skipped. -/
def payTip (gasUsed : U64) (tipReceipient : Address) : Run σ U256 := do
  let effectiveTip ←
    if evm.rules.isLondon then do
      let baseFee ← evm.someBaseFee
      pure (msg.gasPrice - baseFee)
    else pure msg.gasPrice
  if evm.noBaseFee && msg.gasFeeCap = 0 && msg.gasTipCap = 0 then pure 0
  else do
    let posterGas ← readState evm.hook.posterGas
    let computeGasUsed : U64 := if posterGas < gasUsed then gasUsed - posterGas else 0
    let fee := computeGasUsed.setWidth 256 * BitVec.ofInt 256 effectiveTip
    evm.addBalance tipReceipient fee .rewardTransactionFee
    updateState fun s =>
      if evm.rules.isEIP4762 && fee ≠ 0 then evm.db.addAccessAccount evm.coinbase s else s
    pure fee

/-- The self-destructs are reported at the end. -/
def captureSelfDestructs : Run σ Unit := do
  let destructed ← readState fun s => (evm.db.getSelfDestructs s).map fun addr =>
    (addr, evm.db.getBalance addr s)
  traceAll fun hooks =>
    if hooks.captureArbitrumTransfer then
      destructed.map fun (addr, balance) =>
        .captureArbitrumTransfer (some addr) none balance.toNat false .selfdestruct
    else []

/-- `execute` after the top level call: refunds, floor, fees, the result. -/
def settle (floor : U64) (tipReceipient : Address) (top : TopLevel) : Run σ ExecutionResult := do
  let heldGas ← readState evm.hook.heldGas
  let gasRemaining := top.gasRemaining + heldGas
  let peakGasUsed := msg.gasLimit - gasRemaining
  let refund ← evm.calcRefund gasRemaining peakGasUsed
  let gasRemaining := gasRemaining + refund
  let usedMultiGas := top.usedMultiGas.withRefund refund
  let enabled ← readState evm.hook.isCalldataPricingIncreaseEnabled
  let floored := evm.rules.isPrague && enabled
  let below := floored && msg.gasLimit - gasRemaining < floor
  let usedMultiGas := if below then
      usedMultiGas.saturatingIncrement .l2Calldata (floor - usedMultiGas.singleGas)
    else usedMultiGas
  trace (fun hooks => hooks.onGasChange && below)
    (.onGasChange gasRemaining (msg.gasLimit - floor) .txDataFloor)
  let gasRemaining := if below then msg.gasLimit - floor else gasRemaining
  let peakGasUsed := if floored && peakGasUsed < floor then floor else peakGasUsed
  evm.returnGas msg gasRemaining
  let gasUsed := msg.gasLimit - gasRemaining
  let tipAmount ← evm.payTip msg gasUsed tipReceipient
  let collectTips ← readState evm.hook.collectTips
  trace (fun hooks => hooks.captureArbitrumTransfer && collectTips)
    (.captureArbitrumTransfer none (some tipReceipient) tipAmount.toNat false .rewardTransactionFee)
  evm.hook.endTxHook gasRemaining usedMultiGas top.vmerr.isNone
  evm.captureSelfDestructs
  let scheduledTxes ← readState evm.hook.scheduledTxes
  pure {
    usedGas := gasUsed
    maxUsedGas := peakGasUsed
    err := top.vmerr
    returnData := top.ret
    scheduledTxes := scheduledTxes
    topLevelDeployed := top.deployed
    usedMultiGas := usedMultiGas }

/-- What is known of a message when its execution starts. -/
structure Admitted where
  msg : Message
  floor : U64
  tipReceipient : Address
  gasRemaining : U64
  usedMultiGas : MultiGas

/-- `execute` from the intrinsic gas to the preparation of the state. -/
def chargeMessage : Run σ Admitted := do
  let iMultiGas ← ofExcept (intrinsicMultiGas msg.data msg.accessList msg.setCodeAuthorizations
    msg.to_.isNone evm.rules.isHomestead evm.rules.isIstanbul evm.rules.isShanghai)
  let iGas := iMultiGas.singleGas
  require (!decide (msg.gasLimit < iGas)) (.intrinsicGas msg.gasLimit iGas)
  let floor ← evm.floorGas msg
  onGasChange msg.gasLimit (msg.gasLimit - iGas) .txIntrinsicGas
  let (tipReceipient, multiGas, gasRemaining) ← evm.hook.gasChargingHook (msg.gasLimit - iGas) iGas
  let usedMultiGas := (zeroGas.saturatingAdd iMultiGas).saturatingAdd multiGas
  updateState fun s =>
    if evm.rules.isEIP4762 then
      let s := evm.db.addTxOrigin msg.from_ s
      match msg.to_ with
      | none => s
      | some to_ => evm.db.addTxDestination to_ (msg.value ≠ 0) (!evm.db.exist to_ s) s
    else s
  evm.checkTransfer msg
  tryState fun s => (evm.db.prepare evm.rules msg.from_ evm.coinbase msg.to_ evm.activePrecompiles
    (msg.accessList.getD []) s).map ((), ·)
  pure ⟨msg, floor, tipReceipient, gasRemaining, usedMultiGas⟩

/-- `execute` up to the top level call. -/
def admitMessage : Run σ Admitted := do
  let msg ← evm.dropTip msg
  evm.preCheck msg
  evm.chargeMessage msg

/-- `execute` of a message that the start hook has not ended. -/
def executeMessage [Crypto] : Run σ ExecutionResult := do
  let adm ← evm.admitMessage msg
  let top ← evm.topLevel adm.msg adm.gasRemaining adm.usedMultiGas
  evm.settle adm.msg adm.floor adm.tipReceipient top

/-- `ApplyMessage`, that is `execute`. -/
def applyMessage [Crypto] : Run σ ExecutionResult := do
  let (endTxNow, usedMultiGas, err, returnData) ← evm.hook.startTxHook
  if endTxNow then do
    let scheduledTxes ← readState evm.hook.scheduledTxes
    pure {
      usedGas := usedMultiGas.singleGas
      maxUsedGas := usedMultiGas.singleGas
      err := err
      returnData := returnData
      scheduledTxes := scheduledTxes
      topLevelDeployed := none
      usedMultiGas := usedMultiGas }
  else evm.executeMessage msg

end Evm

/-! ### Properties of a message -/

abbrev RunProperty (σ : Type) := Property (Option Hooks) HookCall (World σ) ApplyError

/-- The changes a message makes before its top level call. -/
inductive StateMethods.Admission {σ : Type} (db : StateMethods σ) : σ → σ → Prop where
  | subBalance (addr : Address) (amount : U256) (s : σ) :
      db.Admission s (db.subBalance addr amount s)
  | addTxOrigin (addr : Address) (s : σ) : db.Admission s (db.addTxOrigin addr s)
  | addTxDestination (addr : Address) (sendsValue doesntExist : Bool) (s : σ) :
      db.Admission s (db.addTxDestination addr sendsValue doesntExist s)
  | prepare {rules : Rules} {sender coinbase : Address} {dst : Option Address}
      {precompiles : List Address} {list : Tx.AccessList} {s s' : σ}
      (h : db.prepare rules sender coinbase dst precompiles list s = some s') : db.Admission s s'

/-- All changes a message makes itself. -/
inductive StateMethods.Change {σ : Type} (db : StateMethods σ) : σ → σ → Prop where
  | admission {s s' : σ} (h : db.Admission s s') : db.Change s s'
  | addBalance (addr : Address) (amount : U256) (s : σ) : db.Change s (db.addBalance addr amount s)
  | setNonce (addr : Address) (nonce : U64) (s : σ) : db.Change s (db.setNonce addr nonce s)
  | setCode (addr : Address) (code : Bytes) (s : σ) : db.Change s (db.setCode addr code s)
  | addRefund (gas : U64) (s : σ) : db.Change s (db.addRefund gas s)
  | addAddressToAccessList (addr : Address) (s : σ) : db.Change s (db.addAddressToAccessList addr s)
  | touchAddress (addr : Address) (s : σ) : db.Change s (db.touchAddress addr s)
  | addAccessAccount (addr : Address) (s : σ) : db.Change s (db.addAccessAccount addr s)
  | snapshot (s : σ) : db.Change s (db.snapshot s).2
  | createAccount (addr : Address) (s : σ) : db.Change s (db.createAccount addr s)
  | createContract {addr : Address} {s s' : σ} (h : db.createContract addr s = some s') :
      db.Change s s'
  | contractCreatePreCheckGas (addr : Address) (gas : U64) (s : σ) :
      db.Change s (db.contractCreatePreCheckGas addr gas s).2
  | contractCreateInitGas (addr : Address) (gas : U64) (s : σ) :
      db.Change s (db.contractCreateInitGas addr gas s).2

/-- The property is kept up to the top level call. -/
class Evm.Admits {σ : Type} (P : RunProperty σ) (evm : Evm σ) : Prop where
  gasChargingHook : ∀ gas intrinsic, Obeys P (evm.hook.gasChargingHook gas intrinsic)
  stay : ∀ w, P.may w w
  gp : ∀ w gp, P.may w { w with gp := gp }
  admission : ∀ w s, evm.db.Admission w.state s → P.may w { w with state := s }

/-- What runs inside the EVM and in the processing hook has the property, and it allows the
    changes a message makes itself. -/
class Evm.Obeys {σ : Type} (P : RunProperty σ) (evm : Evm σ) : Prop where
  startTxHook : Traced.Obeys P evm.hook.startTxHook
  gasChargingHook : ∀ gas intrinsic, Traced.Obeys P (evm.hook.gasChargingHook gas intrinsic)
  revertedTxHook : ∀ gas used, Traced.Obeys P (evm.hook.revertedTxHook gas used)
  endTxHook : ∀ gas used ok, Traced.Obeys P (evm.hook.endTxHook gas used ok)
  call : ∀ caller to_ data gas value, Traced.Obeys P (evm.call caller to_ data gas value)
  initContract : ∀ snapshot caller addr code gas value used,
    Traced.Obeys P (evm.initContract snapshot caller addr code gas value used)
  stay : ∀ w, P.may w w
  gp : ∀ w gp, P.may w { w with gp := gp }
  change : ∀ w s, evm.db.Change w.state s → P.may w { w with state := s }

attribute [instance] Evm.Admits.gasChargingHook Evm.Obeys.startTxHook Evm.Obeys.revertedTxHook
  Evm.Obeys.endTxHook Evm.Obeys.call Evm.Obeys.initContract

instance Evm.admits_of_obeys {σ : Type} (P : RunProperty σ) (evm : Evm σ) [h : evm.Obeys P] :
    evm.Admits P :=
  ⟨h.gasChargingHook, h.stay, h.gp, fun w s hs => h.change w s (.admission hs)⟩

section
variable {σ α : Type} (P : RunProperty σ)

instance obeys_fail (err : ApplyError) : Obeys P (fail err : Run σ α) := obeys_throw P err

instance obeys_require (c : Bool) (err : ApplyError) : Obeys P (require c err) := obeys_ite

instance obeys_readState (f : σ → α) : Obeys P (readState f) := obeys_read P _

instance obeys_traceAll (calls : Hooks → List HookCall) : Obeys P (traceAll calls) :=
  obeys_observe P _

instance obeys_trace (on : Hooks → Bool) (call : HookCall) : Obeys P (trace on call) :=
  obeys_traceAll P _

variable {P} {R : σ → σ → Prop}

/-- An update by steps that are allowed. -/
theorem obeys_updateState (hstay : ∀ w, P.may w w)
    (hR : ∀ w s, R w.state s → P.may w { w with state := s }) {f : σ → σ}
    (hf : ∀ s, Relation.ReflTransGen R s (f s)) : Obeys P (updateState f) := by
  have hmany : ∀ (w : World σ) s, Relation.ReflTransGen R w.state s →
      P.may w { w with state := s } := by
    intro w s h
    induction h with
    | refl => exact hstay w
    | tail _ hlast ih => exact P.may_trans ih (hR _ _ hlast)
  exact obeys_modify P fun w => hmany w _ (hf w.state)

/-- A method that may panic and answers nothing. -/
theorem obeys_tryState (hstay : ∀ w, P.may w w)
    (hR : ∀ w s, R w.state s → P.may w { w with state := s }) {f : σ → Option σ}
    (hf : ∀ {s s'}, f s = some s' → R s s') :
    Obeys P (tryState fun s => (f s).map ((), ·)) := by
  have hupdate : Obeys P (updateState fun s => (((f s).map (((), ·) : σ → Unit × σ)).map
      Prod.snd).getD s) := by
    apply obeys_updateState hstay hR
    intro s
    rcases h : f s with _ | s'
    · exact .refl
    · exact .single (hf h)
  unfold tryState
  apply Obeys.bind inferInstance
  rintro (_ | a)
  · infer_instance
  · infer_instance

end

section
open Evm hiding Obeys

/-! #### Parts that only read -/

section
variable {σ : Type} (P : RunProperty σ) (evm : Evm σ) (msg : Message)

instance obeys_onGasChange (old new : U64) (reason : GasChangeReason) :
    Obeys P (onGasChange old new reason : Run σ Unit) := obeys_trace P _ _

instance obeys_captureArbitrumTransfer (from_ to_ : Option Address) (value : Int)
    (before : Bool) (reason : BalanceChangeReason) :
    Obeys P (captureArbitrumTransfer from_ to_ value before reason : Run σ Unit) :=
  obeys_trace P _ _

instance obeys_someBaseFee : Obeys P evm.someBaseFee := by
  unfold someBaseFee
  split
  · exact obeys_fail P _
  · exact obeys_pure P _

instance obeys_checkBlobHashes : Obeys P (evm.checkBlobHashes msg) := by
  have hversions : ∀ found : Option Nat, Obeys P (match found with
      | some i => fail (.blobHashVersion i)
      | none => pure () : Run σ Unit) := by
    rintro (_ | i)
    · exact obeys_pure P ()
    · exact obeys_fail P _
  unfold checkBlobHashes
  split
  · exact obeys_pure P ()
  · infer_instance

instance obeys_checkAuthorizations : Obeys P (checkAuthorizations msg : Run σ Unit) := by
  unfold checkAuthorizations
  split
  · exact obeys_pure P ()
  · infer_instance

instance obeys_checkNonce : Obeys P (evm.checkNonce msg) := by
  unfold checkNonce
  infer_instance

instance obeys_checkSender : Obeys P (evm.checkSender msg) := by
  unfold checkSender
  infer_instance

instance obeys_checkFees : Obeys P (evm.checkFees msg) := by
  unfold checkFees
  infer_instance

instance obeys_checkBlobFee : Obeys P (evm.checkBlobFee msg) := by
  unfold checkBlobFee
  infer_instance

instance obeys_dropTip : Obeys P (evm.dropTip msg) := by
  unfold dropTip
  infer_instance

instance obeys_floorGas : Obeys P (evm.floorGas msg) := by
  unfold floorGas
  infer_instance

instance obeys_checkTransfer : Obeys P (evm.checkTransfer msg) := by
  unfold checkTransfer
  infer_instance

instance obeys_calcRefund (gasRemaining gasUsed : U64) :
    Obeys P (evm.calcRefund gasRemaining gasUsed) := by
  unfold calcRefund
  infer_instance

instance obeys_captureSelfDestructs : Obeys P evm.captureSelfDestructs := by
  unfold captureSelfDestructs
  infer_instance

end

/-! #### The gas pool -/

section
variable {σ : Type} (P : RunProperty σ) (hgp : ∀ w gp, P.may w { w with gp := gp })
include hgp

theorem obeys_setGp (gp : U64) : Obeys P (Traced.modify fun w : World σ => { w with gp := gp }) :=
  obeys_modify P fun w => hgp w gp

theorem obeys_subGas (amount : U64) : Obeys P (subGas amount) := by
  have hset := obeys_setGp P hgp
  unfold subGas
  infer_instance

theorem obeys_addGas (amount : U64) : Obeys P (addGas amount) := by
  have hset := obeys_setGp P hgp
  unfold addGas
  infer_instance

end

/-! #### Up to the top level call -/

section
variable {σ : Type} (P : RunProperty σ) (evm : Evm σ) (msg : Message) [hadmits : evm.Admits P]

variable {P} in
theorem obeys_admission {f : σ → σ} (hf : ∀ s, Relation.ReflTransGen evm.db.Admission s (f s)) :
    Obeys P (updateState f) :=
  obeys_updateState hadmits.stay hadmits.admission hf

instance obeys_subBalance (addr : Address) (amount : U256) (reason : BalanceChangeReason) :
    Obeys P (evm.subBalance addr amount reason) := by
  have hupdate : Obeys P (updateState (evm.db.subBalance addr amount)) :=
    obeys_admission evm fun s => .single (.subBalance addr amount s)
  unfold subBalance
  infer_instance

instance obeys_buyGas : Obeys P (evm.buyGas msg) := by
  have hgas := obeys_subGas P hadmits.gp msg.gasLimit
  unfold buyGas
  infer_instance

instance obeys_checkAndBuyGas : Obeys P (evm.checkAndBuyGas msg) := by
  unfold checkAndBuyGas
  apply Obeys.bind inferInstance
  intro _
  infer_instance

instance obeys_preCheck : Obeys P (evm.preCheck msg) := by
  unfold preCheck
  infer_instance

/-- The access events of sender and recipient. -/
instance obeys_addTxEvents : Obeys P (updateState fun s =>
    if evm.rules.isEIP4762 then
      let s := evm.db.addTxOrigin msg.from_ s
      match msg.to_ with
      | none => s
      | some to_ => evm.db.addTxDestination to_ (msg.value ≠ 0) (!evm.db.exist to_ s) s
    else s) := by
  apply obeys_admission evm
  intro s
  split
  · have horigin : Relation.ReflTransGen evm.db.Admission s (evm.db.addTxOrigin msg.from_ s) :=
      .single (.addTxOrigin msg.from_ s)
    dsimp only
    split
    · exact horigin
    · exact horigin.tail (.addTxDestination _ _ _ _)
  · exact .refl

instance obeys_prepare : Obeys P (tryState fun s =>
    (evm.db.prepare evm.rules msg.from_ evm.coinbase msg.to_ evm.activePrecompiles
      (msg.accessList.getD []) s).map ((), ·)) :=
  obeys_tryState hadmits.stay hadmits.admission fun h => .prepare h

instance obeys_chargeMessage : Obeys P (evm.chargeMessage msg) := by
  unfold chargeMessage
  apply Obeys.bind inferInstance
  intro iMultiGas
  apply Obeys.bind inferInstance
  intro _
  apply Obeys.bind inferInstance
  intro floor
  apply Obeys.bind inferInstance
  intro _
  infer_instance

instance obeys_admitMessage : Obeys P (evm.admitMessage msg) := by
  unfold admitMessage
  infer_instance

end

/-! #### The whole message -/

variable {σ : Type} (P : RunProperty σ) (evm : Evm σ) (msg : Message) [hobeys : evm.Obeys P]

variable {P} in
theorem obeys_change {f : σ → σ} (hf : ∀ s, Relation.ReflTransGen evm.db.Change s (f s)) :
    Obeys P (updateState f) :=
  obeys_updateState hobeys.stay hobeys.change hf

variable {P} in
/-- A change under a condition. -/
theorem obeys_changeIf {c : σ → Prop} [DecidablePred c] {f : σ → σ}
    (h : ∀ s, evm.db.Change s (f s)) : Obeys P (updateState fun s => if c s then f s else s) := by
  apply obeys_change evm
  intro s
  split
  · exact .single (h s)
  · exact .refl

variable {P} in
theorem obeys_runState {α : Type} {f : σ → α × σ} (h : ∀ s, evm.db.Change s (f s).2) :
    Obeys P (runState f) := by
  have hupdate : Obeys P (updateState fun s => (f s).2) :=
    obeys_change evm fun s => .single (h s)
  unfold runState
  infer_instance

instance obeys_update_addAddressToAccessList (addr : Address) :
    Obeys P (updateState (evm.db.addAddressToAccessList addr)) :=
  obeys_change evm fun s => .single (.addAddressToAccessList addr s)

instance obeys_update_touchAddress (addr : Address) :
    Obeys P (updateState (evm.db.touchAddress addr)) :=
  obeys_change evm fun s => .single (.touchAddress addr s)

instance obeys_addBalance (addr : Address) (amount : U256) (reason : BalanceChangeReason) :
    Obeys P (evm.addBalance addr amount reason) := by
  have hupdate : Obeys P (updateState (evm.db.addBalance addr amount)) :=
    obeys_change evm fun s => .single (.addBalance addr amount s)
  unfold addBalance
  infer_instance

instance obeys_setNonce (addr : Address) (nonce : U64) (reason : NonceChangeReason) :
    Obeys P (evm.setNonce addr nonce reason) := by
  have hupdate : Obeys P (updateState (evm.db.setNonce addr nonce)) :=
    obeys_change evm fun s => .single (.setNonce addr nonce s)
  unfold setNonce
  infer_instance

instance obeys_setCode [Crypto] (addr : Address) (code : Bytes) (reason : CodeChangeReason) :
    Obeys P (evm.setCode addr code reason) := by
  have hupdate : Obeys P (updateState (evm.db.setCode addr code)) :=
    obeys_change evm fun s => .single (.setCode addr code s)
  unfold setCode
  infer_instance

instance obeys_validateAuthorization (auth : SetCodeAuthorization) :
    Obeys P (evm.validateAuthorization auth) := by
  unfold validateAuthorization
  cases evm.authority auth <;> infer_instance

instance obeys_applyAuthorization [Crypto] (auth : SetCodeAuthorization) :
    Obeys P (evm.applyAuthorization auth) := by
  have hrefund : ∀ authority, Obeys P (updateState fun s =>
      if evm.db.exist authority s then evm.db.addRefund (callNewAccountGas - txAuthTupleGas) s
      else s) := fun authority => obeys_changeIf evm fun s => .addRefund _ s
  unfold applyAuthorization
  apply Obeys.bind inferInstance
  rintro (_ | authority)
  · exact obeys_pure P ()
  · infer_instance

instance obeys_returnGas (gasRemaining : U64) : Obeys P (evm.returnGas msg gasRemaining) := by
  have hgas := obeys_addGas P hobeys.gp gasRemaining
  unfold returnGas
  infer_instance

instance obeys_payTip (gasUsed : U64) (tipReceipient : Address) :
    Obeys P (evm.payTip msg gasUsed tipReceipient) := by
  have haccount : ∀ fee : U256, Obeys P (updateState fun s =>
      if evm.rules.isEIP4762 && fee ≠ 0 then evm.db.addAccessAccount evm.coinbase s else s) :=
    fun fee => obeys_changeIf evm fun s => .addAccessAccount _ s
  unfold payTip
  infer_instance

section
variable [Crypto] (caller address : Address) (code : Bytes) (gas : U64) (value : U256)
  (used : MultiGas)

instance obeys_openContract : Obeys P (evm.openContract address) := by
  have hsnapshot : Obeys P (runState evm.db.snapshot) := obeys_runState evm fun s => .snapshot s
  have haccount : Obeys P (updateState fun s =>
      if evm.db.exist address s then s else evm.db.createAccount address s) := by
    apply obeys_change evm
    intro s
    split
    · exact .refl
    · exact .single (.createAccount address s)
  have hcontract : Obeys P (tryState fun s => (evm.db.createContract address s).map ((), ·)) :=
    obeys_tryState hobeys.stay hobeys.change fun h => .createContract h
  unfold openContract
  infer_instance

instance obeys_deploy : Obeys P (evm.deploy caller code gas value address used) := by
  have hinit : Obeys P (runState (evm.db.contractCreateInitGas address gas)) :=
    obeys_runState evm fun s => .contractCreateInitGas address gas s
  unfold deploy
  infer_instance

instance obeys_deployAt : Obeys P (evm.deployAt caller code gas value address used) := by
  have hlist : Obeys P (updateState fun s =>
      if evm.rules.isEIP2929 then evm.db.addAddressToAccessList address s else s) :=
    obeys_changeIf evm fun s => .addAddressToAccessList address s
  unfold deployAt
  infer_instance

instance obeys_createAt (nonce : U64) :
    Obeys P (evm.createAt caller code gas value address nonce) := by
  have hcheck : Obeys P (runState (evm.db.contractCreatePreCheckGas address gas)) :=
    obeys_runState evm fun s => .contractCreatePreCheckGas address gas s
  unfold createAt
  infer_instance

instance obeys_createBody : Obeys P (evm.createBody caller code gas value address) := by
  unfold createBody
  infer_instance

instance obeys_create : Obeys P (evm.create caller code gas value) := by
  unfold create captureBegin captureEnd
  infer_instance

instance obeys_topLevelCall (to_ : Address) : Obeys P (evm.topLevelCall msg to_ gas used) := by
  have hdelegate : Obeys P (updateState fun s =>
      match parseDelegation (evm.db.getCode to_ s) with
      | none => s
      | some addr => evm.db.addAddressToAccessList addr s) := by
    apply obeys_change evm
    intro s
    split
    · exact .refl
    · exact .single (.addAddressToAccessList _ s)
  unfold topLevelCall
  infer_instance

instance obeys_topLevelCreate : Obeys P (evm.topLevelCreate msg gas used) := by
  unfold topLevelCreate
  infer_instance

instance obeys_topLevel : Obeys P (evm.topLevel msg gas used) := by
  unfold topLevel
  apply Obeys.bind inferInstance
  rintro ⟨used, gas, _ | err⟩
  · dsimp only
    split
    · infer_instance
    · infer_instance
  · exact obeys_pure P _

instance obeys_settle (floor : U64) (tipReceipient : Address) (top : TopLevel) :
    Obeys P (evm.settle msg floor tipReceipient top) := by
  unfold settle
  apply Obeys.bind inferInstance
  intro heldGas
  apply Obeys.bind inferInstance
  intro refund
  apply Obeys.bind inferInstance
  intro enabled
  apply Obeys.bind inferInstance
  intro _
  apply Obeys.bind inferInstance
  intro _
  apply Obeys.bind inferInstance
  intro tipAmount
  infer_instance

instance obeys_executeMessage : Obeys P (evm.executeMessage msg) := by
  unfold executeMessage
  infer_instance

/-- What holds of the parts of a message holds of the whole. -/
instance obeys_applyMessage : Obeys P (evm.applyMessage msg) := by
  unfold applyMessage
  infer_instance

end

end

end GethArb.Core
