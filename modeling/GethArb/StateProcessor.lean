/-
  **Processing the transactions of a block** (`core/state_processor.go`: `Process`;
  `core/state_transition.go`: `TransactionToMessage`; the accessors of
  `core/types/transaction.go`, `tx_*.go` and `arb_types.go`).

  Each transaction becomes a message, the state is told hash and index of the transaction,
  and the message is applied to the state the one before has left.  The first error ends the
  block.  What surrounds the loop (system calls before it, requests and rewards after it) is
  not modelled.

  The state is a `StateDB`: `StateDB.methods` are its methods as `StateTransition` calls
  them.  The access events of EIP-4762 are not part of a `StateDB`, and the gas they cost is a
  parameter; neither is the address checker, which only looks.
-/
import GethArb.ApplyTransaction
import GethArb.StateLogs

namespace GethArb

open Tx Multigas

/-! ### Accessors -/

namespace Tx.TxData

def nonce : TxData → U64
  | .legacy tx => tx.nonce
  | .accessList tx => tx.nonce
  | .dynamicFee tx => tx.nonce
  | .blob tx => tx.nonce
  | .setCode tx => tx.nonce
  | .arbitrumUnsigned tx => tx.nonce
  | .arbitrumRetry tx => tx.nonce
  | .arbitrumLegacy tx => tx.legacyTx.nonce
  | .arbitrumContract _ | .arbitrumSubmitRetryable _ | .arbitrumDeposit _ | .arbitrumInternal _ => 0

def gas : TxData → U64
  | .legacy tx => tx.gas
  | .accessList tx => tx.gas
  | .dynamicFee tx => tx.gas
  | .blob tx => tx.gas
  | .setCode tx => tx.gas
  | .arbitrumUnsigned tx => tx.gas
  | .arbitrumContract tx => tx.gas
  | .arbitrumRetry tx => tx.gas
  | .arbitrumSubmitRetryable tx => tx.gas
  | .arbitrumLegacy tx => tx.legacyTx.gas
  | .arbitrumDeposit _ | .arbitrumInternal _ => 0

def gasPrice : TxData → Int
  | .legacy tx => tx.gasPrice.getD 0
  | .accessList tx => tx.gasPrice.getD 0
  | .dynamicFee tx => tx.gasFeeCap.getD 0
  | .blob tx => Uint256.toBig tx.gasFeeCap
  | .setCode tx => Uint256.toBig tx.gasFeeCap
  | .arbitrumUnsigned tx => tx.gasFeeCap.getD 0
  | .arbitrumContract tx => tx.gasFeeCap.getD 0
  | .arbitrumRetry tx => tx.gasFeeCap.getD 0
  | .arbitrumSubmitRetryable tx => tx.gasFeeCap.getD 0
  | .arbitrumLegacy tx => tx.legacyTx.gasPrice.getD 0
  | .arbitrumDeposit _ | .arbitrumInternal _ => 0

def gasTipCap : TxData → Int
  | .legacy tx => tx.gasPrice.getD 0
  | .accessList tx => tx.gasPrice.getD 0
  | .dynamicFee tx => tx.gasTipCap.getD 0
  | .blob tx => Uint256.toBig tx.gasTipCap
  | .setCode tx => Uint256.toBig tx.gasTipCap
  | .arbitrumLegacy tx => tx.legacyTx.gasPrice.getD 0
  | _ => 0

/-- `gasFeeCap`, which is what `gasPrice` returns for every type. -/
def gasFeeCap (tx : TxData) : Int := tx.gasPrice

def arbRetryableTxAddress : Address := 0x6e

def to_ : TxData → Option Address
  | .legacy tx => tx.to_
  | .accessList tx => tx.to_
  | .dynamicFee tx => tx.to_
  | .blob tx => some tx.to_
  | .setCode tx => some tx.to_
  | .arbitrumUnsigned tx => tx.to_
  | .arbitrumContract tx => tx.to_
  | .arbitrumRetry tx => tx.to_
  | .arbitrumSubmitRetryable _ => some arbRetryableTxAddress
  | .arbitrumDeposit tx => some tx.to_
  | .arbitrumInternal _ => some arbosAddress
  | .arbitrumLegacy tx => tx.legacyTx.to_

def value : TxData → Int
  | .legacy tx => tx.value.getD 0
  | .accessList tx => tx.value.getD 0
  | .dynamicFee tx => tx.value.getD 0
  | .blob tx => Uint256.toBig tx.value
  | .setCode tx => Uint256.toBig tx.value
  | .arbitrumUnsigned tx => tx.value.getD 0
  | .arbitrumContract tx => tx.value.getD 0
  | .arbitrumRetry tx => tx.value.getD 0
  | .arbitrumDeposit tx => tx.value.getD 0
  | .arbitrumLegacy tx => tx.legacyTx.value.getD 0
  | .arbitrumSubmitRetryable _ | .arbitrumInternal _ => 0

/-- `math.U256Bytes`. -/
def u256Bytes (x : Int) : Bytes := hashBytes (BitVec.ofInt 256 x)

/-- `data` of `ArbitrumSubmitRetryableTx`: the call of `submitRetryable` it stands for. -/
def submitRetryableData (tx : ArbitrumSubmitRetryableTx) : Bytes :=
  let word (addr : Address) : Bytes := List.replicate 12 0 ++ addressBytes addr
  let data := hashBytes tx.requestId ++ u256Bytes (tx.l1BaseFee.getD 0) ++
    u256Bytes (tx.depositValue.getD 0) ++ u256Bytes (tx.retryValue.getD 0) ++
    u256Bytes (tx.gasFeeCap.getD 0) ++ u256Bytes tx.gas.toNat ++
    u256Bytes (tx.maxSubmissionFee.getD 0) ++ word tx.feeRefundAddr ++ word tx.beneficiary ++
    word (tx.retryTo.getD 0)
  let extra := tx.retryData.length % 32
  [0xc9, 0xf9, 0x5d, 0x32] ++ data ++ u256Bytes (data.length + 32) ++
    u256Bytes tx.retryData.length ++ tx.retryData ++
    if 0 < extra then List.replicate (32 - extra) 0 else []

def data : TxData → Bytes
  | .legacy tx => tx.data
  | .accessList tx => tx.data
  | .dynamicFee tx => tx.data
  | .blob tx => tx.data
  | .setCode tx => tx.data
  | .arbitrumUnsigned tx => tx.data
  | .arbitrumContract tx => tx.data
  | .arbitrumRetry tx => tx.data
  | .arbitrumSubmitRetryable tx => submitRetryableData tx
  | .arbitrumInternal tx => tx.data
  | .arbitrumLegacy tx => tx.legacyTx.data
  | .arbitrumDeposit _ => []

def accessList_ : TxData → Option AccessList
  | .accessList tx => some tx.accessList
  | .dynamicFee tx => some tx.accessList
  | .blob tx => some tx.accessList
  | .setCode tx => some tx.accessList
  | _ => none

/-- `skipNonceChecks`, and `skipTransactionChecks`, which is the same. -/
def skipChecks : TxData → Bool
  | .arbitrumContract _ | .arbitrumRetry _ | .arbitrumSubmitRetryable _ | .arbitrumDeposit _
  | .arbitrumInternal _ => true
  | _ => false

end Tx.TxData

namespace Core

def transactionToMessage (rec : Recovery) (tx : Transaction) (signer : Signer) (baseFee : BigInt) :
    Except SenderError Message :=
  let gasPrice := match baseFee with
    | none => tx.inner.gasPrice
    | some baseFee => min (tx.inner.gasTipCap + baseFee) tx.inner.gasFeeCap
  (signer.sender rec tx.inner).map fun from_ =>
    { to_ := tx.inner.to_
      from_ := from_
      nonce := tx.inner.nonce
      value := tx.inner.value
      gasLimit := tx.inner.gas
      gasPrice := gasPrice
      gasFeeCap := tx.inner.gasFeeCap
      gasTipCap := tx.inner.gasTipCap
      data := tx.inner.data
      accessList := tx.inner.accessList_
      blobGasFeeCap := match tx.inner with
        | .blob inner => Uint256.toBig inner.blobFeeCap
        | _ => 0
      blobHashes := match tx.inner with
        | .blob inner => some inner.blobHashes
        | _ => none
      setCodeAuthorizations := match tx.inner with
        | .setCode inner => some inner.authList
        | _ => none
      skipNonceChecks := tx.inner.skipChecks
      skipTransactionChecks := tx.inner.skipChecks }

/-- `crypto.CreateAddress`. -/
def createAddress [Crypto] (b : Address) (nonce : U64) : Address :=
  let data := ((Rlp.TypeInfo.struct (.cons .address (.last .uint64))).writer (b, nonce)).toOption
  (keccak256 (data.getD [])).setWidth 160

end Core

/-! ### A `StateDB` under a message -/

namespace StateDB

variable [Crypto]

/-- The dirty objects that are marked as destructed. -/
def dirtyDestructs (ord : MapOrders) (s : StateDB) : List (Address × U256) :=
  (GoMap.range ord.account s.journal.dirties).filterMap fun (addr, _) =>
    match s.stateObjects.lookup addr with
    | none => none
    | some obj => if obj.selfDestructed then some (addr, obj.data.balance) else none

/-- The gas of EIP-4762 that depends on the access events. -/
structure StatelessGas where
  preCheck : Address → U64 → StateDB → U64
  init : Address → U64 → StateDB → U64 × U64

/-- The methods of a `StateDB` that a message calls. -/
def methods (ord : MapOrders) (stateless : StatelessGas) : Core.StateMethods StateDB where
  getBalance addr s := (s.getBalance addr).1
  addBalance addr amount s := (s.addBalance addr amount).2
  subBalance addr amount s := (s.subBalance addr amount).2
  getNonce addr s := (s.getNonce addr).1
  setNonce addr nonce s := s.setNonce addr nonce
  getCode addr s := (s.getCode addr).1
  getCodeHash addr s := (s.getCodeHash addr).1
  setCode addr code s := s.setCode addr code
  getStorageRoot addr s := (s.getStorageRoot addr).1
  exist addr s := (s.exist addr).1
  addRefund gas s := s.addRefund gas
  getRefund s := s.getRefund
  addAddressToAccessList addr s := s.addAddressToAccessList addr
  touchAddress _ s := s
  snapshot s := s.snapshot
  createAccount addr s := s.createAccount addr
  createContract addr s := s.createContract addr
  prepare rules sender coinbase dst precompiles list s :=
    s.prepare rules.isEIP2929 rules.isEIP4762 rules.isShanghai sender coinbase dst precompiles
      (list.map fun el => ⟨el.address, el.storageKeys⟩)
  getSelfDestructs s := (s.dirtyDestructs ord).map Prod.fst
  finalise deleteEmptyObjects s := s.finalise ord deleteEmptyObjects
  burnt s := (s.dirtyDestructs ord).filter fun (_, balance) => balance ≠ 0
  intermediateRoot deleteEmptyObjects s := s.intermediateRoot ord deleteEmptyObjects
  getLogs hash blockNumber blockHash blockTime s :=
    (s.getLogs hash blockNumber blockHash blockTime).1
  txIndex s := s.txIndex
  addTxOrigin _ s := s
  addTxDestination _ _ _ s := s
  addAccessAccount _ s := s
  contractCreatePreCheckGas addr gas s := (stateless.preCheck addr gas s, s)
  contractCreateInitGas addr gas s := (stateless.init addr gas s, s)
  mergeAccessEvents s := s

end StateDB

/-! ### The loop over the transactions -/

namespace Core

/-- What `Process` takes from the block and the chain. -/
structure BlockContext where
  number : U64
  hash : Hash
  time : U64
  baseFee : BigInt
  config : SignerConfig
  arbosVersion : U64
  recovery : Recovery
  /-- The EVM, made ready for a message. -/
  evm : Transaction → Message → Evm StateDB

def BlockContext.signer (ctx : BlockContext) : Signer :=
  makeSigner ctx.config ctx.number.toNat ctx.time ctx.arbosVersion

section
variable [Crypto] (ctx : BlockContext)

def processTx (tx : Transaction) (i : Nat) : Run StateDB Receipt := do
  let msg ← Traced.ofExcept
    ((transactionToMessage ctx.recovery tx ctx.signer ctx.baseFee).mapError .sender)
  updateState fun s => s.setTxContext tx.hash (BitVec.ofNat 64 i)
  let (receipt, _) ← applyTransactionWithEVM (ctx.evm tx msg) msg ctx.number.toNat ctx.hash ctx.time
    tx none
  pure receipt

/-- The loop of `Process`, from the `i`-th transaction on. -/
def processFrom : List Transaction → Nat → Run StateDB (List Receipt)
  | [], _ => pure []
  | tx :: txs, i => do
    let receipt ← processTx ctx tx i
    let receipts ← processFrom txs (i + 1)
    pure (receipt :: receipts)

/-- The loop of `Process` over the whole block, which starts with no gas used.  The system calls
    that `Process` makes first have been made in `s`. -/
def process (txs : List Transaction) (tracer : Option Hooks) (s : StateDB) (gasLimit : U64) :
    Except ApplyError (List Receipt) × World StateDB :=
  (processFrom ctx txs 0 tracer ⟨s, gasLimit, 0⟩).1

end

end Core

end GethArb
