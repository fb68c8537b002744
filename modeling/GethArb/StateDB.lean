/-
  **The `StateDB`** (`core/state/statedb.go`, `core/state/statedb_arbitrum.go`):
  its state, its reads, its setters within a transaction, and the journal that
  takes the setters back.  Every function is the source function of the same
  name, with the `StateDB` passed explicitly; `none` is a Go panic.

  A getter returns its value together with the `StateDB` after the object, slot or
  code it looked at was cached.  The journalling setters of `stateObject`, whose
  names differ from the plain ones only by a capital letter in the source, are
  called `objectSetBalance` and so on, and take the address and the object.

  Left out are parts no modelled function reads: preimages, the prefetcher, the
  witness and metrics, the Stylus page counters, and the recording of wasm
  programs.
-/
import GethArb.AccessList
import GethArb.Journal
import GethArb.StateObject
import GethArb.UndoLog

namespace GethArb

inductive MutationType where
  | update
  | deletion
deriving DecidableEq, Repr

structure Mutation where
  typ : MutationType
  applied : Bool
deriving DecidableEq, Repr

structure StateDB where
  db : Database
  reader : Reader
  trie : Option (Trie StateAccount)
  originalRoot : Hash
  stateObjects : GoMap Address StateObject
  /-- objects deleted in this block, as they were when first deleted -/
  stateObjectsDestruct : GoMap Address StateObject
  mutations : GoMap Address Mutation
  dbErr : Option DBError
  refund : U64
  thash : Hash
  txIndex : U64
  logs : GoMap Hash (List Log)
  logSize : U64
  accessList : AccessList
  transientStorage : TransientStorage
  journal : Journal
  /-- with the next two, the modelled part of `arbExtraData` -/
  unexpectedBalanceDelta : Int
  activatedWasms : GoMap Hash ActivatedWasm
  arbTxFilter : Bool

namespace StateDB

/-- `New`, for a root whose reader could be opened. -/
def new (root : Hash) (db : Database) (reader : Reader) : StateDB where
  db := db
  reader := reader
  trie := none
  originalRoot := root
  stateObjects := ∅
  stateObjectsDestruct := ∅
  mutations := ∅
  dbErr := none
  refund := 0
  thash := 0
  txIndex := 0
  logs := ∅
  logSize := 0
  accessList := .new
  transientStorage := ∅
  journal := .new
  unexpectedBalanceDelta := 0
  activatedWasms := ∅
  arbTxFilter := false

/-- `setError` keeps the first error it is called with. -/
def setError (s : StateDB) (err : Option DBError) : StateDB := { s with dbErr := s.dbErr.or err }

def setStateObject (s : StateDB) (addr : Address) (obj : StateObject) : StateDB :=
  { s with stateObjects := s.stateObjects.insert addr obj }

def append (s : StateDB) (entry : JournalEntry) : StateDB :=
  { s with journal := s.journal.append entry }

def destructed (s : StateDB) (addr : Address) : Bool := decide (addr ∈ s.stateObjectsDestruct)

/-! ### Finding and creating objects -/

section
variable [Crypto]

def getStateObject (s : StateDB) (addr : Address) : Option StateObject × StateDB :=
  match s.stateObjects.lookup addr with
  | some obj => (some obj, s)
  | none =>
    if s.destructed addr then (none, s)
    else
      match s.reader.account addr with
      | .error cause => (none, s.setError (some (.getStateObject addr cause)))
      | .ok none => (none, s)
      | .ok (some acct) =>
        (some (newObject (some acct)), s.setStateObject addr (newObject (some acct)))

def createObject (s : StateDB) (addr : Address) : StateObject × StateDB :=
  (newObject none, (s.append (.createObjectChange addr)).setStateObject addr (newObject none))

def createZombie (s : StateDB) (addr : Address) : StateObject × StateDB :=
  (newObject none, (s.append (.createZombieChange addr)).setStateObject addr (newObject none))

def getOrNewStateObject (s : StateDB) (addr : Address) : StateObject × StateDB :=
  match s.getStateObject addr with
  | (some obj, s) => (obj, s)
  | (none, s) => s.createObject addr

/-! ### Getters -/

def exist (s : StateDB) (addr : Address) : Bool × StateDB :=
  let (obj, s) := s.getStateObject addr
  (obj.isSome, s)

/-- A getter that reads one field of an object and has a default for a missing one. -/
def readObject {α : Type} (s : StateDB) (addr : Address) (dflt : α) (f : StateObject → α) :
    α × StateDB :=
  match s.getStateObject addr with
  | (some obj, s) => (f obj, s)
  | (none, s) => (dflt, s)

def empty (s : StateDB) (addr : Address) : Bool × StateDB :=
  s.readObject addr true StateObject.empty

def getBalance (s : StateDB) (addr : Address) : U256 × StateDB :=
  s.readObject addr 0 (·.data.balance)

def getNonce (s : StateDB) (addr : Address) : U64 × StateDB :=
  s.readObject addr 0 (·.data.nonce)

def getStorageRoot (s : StateDB) (addr : Address) : Hash × StateDB :=
  s.readObject addr 0 (·.data.root)

def getCodeHash (s : StateDB) (addr : Address) : Hash × StateDB :=
  s.readObject addr 0 (·.data.codeHash)

def hasSelfDestructed (s : StateDB) (addr : Address) : Bool × StateDB :=
  s.readObject addr false (·.selfDestructed)

/-- The `newContract` flag, which the source only reads in `SelfDestruct6780`. -/
def isNewContract (s : StateDB) (addr : Address) : Bool × StateDB :=
  s.readObject addr false (·.newContract)

def getCode (s : StateDB) (addr : Address) : Bytes × StateDB :=
  match s.getStateObject addr with
  | (none, s) => ([], s)
  | (some obj, s) =>
    let (code, obj, err) := obj.getCode s.reader addr
    (code, (s.setStateObject addr obj).setError err)

def getCodeSize (s : StateDB) (addr : Address) : Nat × StateDB :=
  match s.getStateObject addr with
  | (none, s) => (0, s)
  | (some obj, s) =>
    let (size, err) := obj.codeSize s.reader addr
    (size, s.setError err)

def getCommittedState (s : StateDB) (addr : Address) (key : Hash) : Hash × StateDB :=
  match s.getStateObject addr with
  | (none, s) => (0, s)
  | (some obj, s) =>
    let (value, obj, err) := obj.getCommittedState s.reader addr (s.destructed addr) key
    (value, (s.setStateObject addr obj).setError err)

/-- The current and the committed value of a slot. -/
def getStateAndCommittedState (s : StateDB) (addr : Address) (key : Hash) : Hash × Hash × StateDB :=
  match s.getStateObject addr with
  | (none, s) => (0, 0, s)
  | (some obj, s) =>
    let (value, origin, obj, err) := obj.getState s.reader addr (s.destructed addr) key
    (value, origin, (s.setStateObject addr obj).setError err)

def getState (s : StateDB) (addr : Address) (key : Hash) : Hash × StateDB :=
  let (value, _, s) := s.getStateAndCommittedState addr key
  (value, s)

def getTransientState (s : StateDB) (addr : Address) (key : Hash) : Hash :=
  s.transientStorage.get addr key

def getRefund (s : StateDB) : U64 := s.refund

def getUnexpectedBalanceDelta (s : StateDB) : Int := s.unexpectedBalanceDelta

def addressInAccessList (s : StateDB) (addr : Address) : Bool := s.accessList.containsAddress addr

def slotInAccessList (s : StateDB) (addr : Address) (slot : Hash) : Option (Bool × Bool) :=
  s.accessList.contains addr slot

/-- `GetLogs` annotates the stored logs in place. -/
def getLogs (s : StateDB) (hash : Hash) (blockNumber : U64) (blockHash : Hash) (blockTime : U64) :
    List Log × StateDB :=
  match s.logs.lookup hash with
  | none => ([], s)
  | some logs =>
    let logs := logs.map fun l =>
      { l with blockNumber := blockNumber, blockHash := blockHash, blockTimestamp := blockTime }
    (logs, { s with logs := s.logs.insert hash logs })

/-! ### Journalling setters of an object -/

def objectSetBalance (s : StateDB) (addr : Address) (obj : StateObject) (amount : U256) : StateDB :=
  (s.append (.balanceChange addr obj.data.balance)).setStateObject addr (obj.setBalance amount)

def touch (s : StateDB) (addr : Address) : StateDB :=
  { s with journal := s.journal.touchChange addr }

/-- `stateObject.AddBalance`: adding nothing still touches an empty account (EIP-161). -/
def objectAddBalance (s : StateDB) (addr : Address) (obj : StateObject) (amount : U256) : StateDB :=
  if amount = 0 then
    if obj.empty then s.touch addr else s
  else s.objectSetBalance addr obj (obj.data.balance + amount)

def objectSetNonce (s : StateDB) (addr : Address) (obj : StateObject) (nonce : U64) : StateDB :=
  (s.append (.nonceChange addr obj.data.nonce)).setStateObject addr (obj.setNonce nonce)

/-- `stateObject.SetCode` journals the cached code, loaded or not. -/
def objectSetCode (s : StateDB) (addr : Address) (obj : StateObject) (codeHash : Hash)
    (code : Bytes) : StateDB :=
  (s.append (.codeChange addr obj.code)).setStateObject addr (obj.setCode codeHash code)

def objectSetState (s : StateDB) (addr : Address) (obj : StateObject) (key value : Hash) :
    Hash × StateDB :=
  let (prev, origin, obj, err) := obj.getState s.reader addr (s.destructed addr) key
  let s := (s.setStateObject addr obj).setError err
  if prev = value then (prev, s)
  else
    (prev, (s.append (.storageChange addr key prev origin)).setStateObject addr
      (obj.setState key value origin))

/-! ### Setters -/

/-- `AddBalance`, with the previous balance. -/
def addBalance (s : StateDB) (addr : Address) (amount : U256) : U256 × StateDB :=
  let (obj, s) := s.getOrNewStateObject addr
  let s := { s with unexpectedBalanceDelta := s.unexpectedBalanceDelta + amount.toNat }
  (obj.data.balance, s.objectAddBalance addr obj amount)

def subBalance (s : StateDB) (addr : Address) (amount : U256) : U256 × StateDB :=
  let (obj, s) := s.getOrNewStateObject addr
  if amount = 0 then (obj.data.balance, s)
  else
    let s := { s with unexpectedBalanceDelta := s.unexpectedBalanceDelta - amount.toNat }
    (obj.data.balance, s.objectSetBalance addr obj (obj.data.balance - amount))

def setBalance (s : StateDB) (addr : Address) (amount : U256) : StateDB :=
  let (obj, s) := s.getOrNewStateObject addr
  let s := { s with
    unexpectedBalanceDelta := s.unexpectedBalanceDelta + amount.toNat - obj.data.balance.toNat }
  s.objectSetBalance addr obj amount

def expectBalanceBurn (s : StateDB) (amount : Int) : Option StateDB :=
  if amount < 0 then none
  else some { s with unexpectedBalanceDelta := s.unexpectedBalanceDelta + amount }

def expectBalanceMint (s : StateDB) (amount : Int) : Option StateDB :=
  if amount < 0 then none
  else some { s with unexpectedBalanceDelta := s.unexpectedBalanceDelta - amount }

def setNonce (s : StateDB) (addr : Address) (nonce : U64) : StateDB :=
  let (obj, s) := s.getOrNewStateObject addr
  s.objectSetNonce addr obj nonce

def setCode (s : StateDB) (addr : Address) (code : Bytes) : StateDB :=
  let (obj, s) := s.getOrNewStateObject addr
  s.objectSetCode addr obj (keccak256 code) code

/-- `SetState`, with the previous value. -/
def setState (s : StateDB) (addr : Address) (key value : Hash) : Hash × StateDB :=
  let (obj, s) := s.getOrNewStateObject addr
  s.objectSetState addr obj key value

/-- One pass of the loop of `SetStorage` over the new slots. -/
def setStorageSlot (addr : Address) (st : StateDB × StateObject) (slot : Hash × Hash) :
    StateDB × StateObject :=
  let s := (st.1.objectSetState addr st.2 slot.1 slot.2).2
  (s, (s.stateObjects.lookup addr).getD st.2)

/-- Keep the object of a deleted account, unless an earlier one is kept already. -/
def recordDestruct (s : StateDB) (addr : Address) (obj : StateObject) : StateDB :=
  if s.destructed addr then s
  else { s with stateObjectsDestruct := s.stateObjectsDestruct.insert addr obj }

/-- The part of `SetStorage` that builds the new object with its slots. -/
def createWithStorage (s : StateDB) (ord : RangeOrder Hash) (addr : Address) (storage : Storage) :
    StateDB × StateObject :=
  (GoMap.range ord storage).foldl (setStorageSlot addr) (s.createObject addr).swap

/-- `SetStorage`, a debugging aid: the account is replaced by a fresh object that
    is treated as destructed, so that no slot is read from the database. -/
def setStorage (ord : RangeOrder Hash) (s : StateDB) (addr : Address) (storage : Storage) :
    StateDB :=
  match s.getStateObject addr with
  | (none, s) => (s.createWithStorage ord addr storage).1
  | (some obj, s) =>
    let (s, newObj) := (s.recordDestruct addr obj).createWithStorage ord addr storage
    let s := s.objectSetCode addr newObj obj.data.codeHash obj.code
    let newObj := newObj.setCode obj.data.codeHash obj.code
    let s := s.objectSetNonce addr newObj obj.data.nonce
    let newObj := newObj.setNonce obj.data.nonce
    s.objectSetBalance addr newObj obj.data.balance

/-- `SelfDestruct`, with the balance the account had. -/
def selfDestruct (s : StateDB) (addr : Address) : U256 × StateDB :=
  match s.getStateObject addr with
  | (none, s) => (0, s)
  | (some obj, s) =>
    let prevBalance := obj.data.balance
    let (obj, s) :=
      if obj.data.balance ≠ 0 then
        (obj.setBalance 0,
          { s with unexpectedBalanceDelta := s.unexpectedBalanceDelta - obj.data.balance.toNat
            }.objectSetBalance addr obj 0)
      else (obj, s)
    if obj.selfDestructed then (prevBalance, s)
    else (prevBalance,
      (s.append (.selfDestructChange addr)).setStateObject addr obj.markSelfdestructed)

def selfDestruct6780 (s : StateDB) (addr : Address) : U256 × Bool × StateDB :=
  match s.getStateObject addr with
  | (none, s) => (0, false, s)
  | (some obj, s) =>
    if obj.newContract then
      let (prevBalance, s) := s.selfDestruct addr
      (prevBalance, true, s)
    else (obj.data.balance, false, s)

def setTransientState (s : StateDB) (addr : Address) (key value : Hash) : StateDB :=
  let prev := s.getTransientState addr key
  if prev = value then s
  else
    let s := s.append (.transientStorageChange addr key prev)
    { s with transientStorage := s.transientStorage.set addr key value }

def createAccount (s : StateDB) (addr : Address) : StateDB := (s.createObject addr).2

/-- `CreateContract`; on a missing account the source dereferences nil. -/
def createContract (s : StateDB) (addr : Address) : Option StateDB :=
  match s.getStateObject addr with
  | (none, _) => none
  | (some obj, s) =>
    if obj.newContract then some s
    else
      some ((s.setStateObject addr { obj with newContract := true }).append
        (.createContractChange addr))

def createZombieIfDeleted (s : StateDB) (addr : Address) : StateDB :=
  match s.getStateObject addr with
  | (some _, s) => s
  | (none, s) => if s.destructed addr then (s.createZombie addr).2 else s

def addLog (s : StateDB) (log : Log) : StateDB :=
  let s := s.append (.addLogChange s.thash)
  let log := { log with txHash := s.thash, txIndex := s.txIndex, index := s.logSize }
  { s with
    logs := s.logs.insert s.thash (s.logs.get s.thash ++ [log])
    logSize := s.logSize + 1 }

def addRefund (s : StateDB) (gas : U64) : StateDB :=
  let s := s.append (.refundChange s.refund)
  { s with refund := s.refund + gas }

/-- `SubRefund` panics when the counter would go below zero. -/
def subRefund (s : StateDB) (gas : U64) : Option StateDB :=
  let s := s.append (.refundChange s.refund)
  if s.refund < gas then none else some { s with refund := s.refund - gas }

def addAddressToAccessList (s : StateDB) (addr : Address) : StateDB :=
  let (al, added) := s.accessList.addAddress addr
  let s := { s with accessList := al }
  if added then s.append (.accessListAddAccountChange addr) else s

def addSlotToAccessList (s : StateDB) (addr : Address) (slot : Hash) : Option StateDB :=
  (s.accessList.addSlot addr slot).map fun (al, addrMod, slotMod) =>
    let s := { s with accessList := al }
    let s := if addrMod then s.append (.accessListAddAccountChange addr) else s
    if slotMod then s.append (.accessListAddSlotChange addr slot) else s

/-- The consistency check of `ActivateWasm`: the targets are compared with those of
    one earlier activation, the first one the iteration order `ord` yields. -/
def inconsistentTargets (s : StateDB) (ord : RangeOrder Hash) (asmMap : ActivatedWasm) : Bool :=
  match (GoMap.range ord s.activatedWasms).head? with
  | none => false
  | some (_, previouslyActivated) =>
    decide (asmMap.keys.card ≠ previouslyActivated.keys.card) ||
      decide (∃ target ∈ previouslyActivated.keys, hasAsmForTarget asmMap target = false)

/-- `ActivateWasm`, with whether it succeeded. -/
def activateWasm (ord : RangeOrder Hash) (s : StateDB) (moduleHash : Hash)
    (asmMap : ActivatedWasm) : Bool × StateDB :=
  if s.inconsistentTargets ord asmMap then (false, s)
  else if moduleHash ∈ s.activatedWasms then (true, s)
  else
    (true, { s with activatedWasms := s.activatedWasms.insert moduleHash asmMap }.append
      (.wasmActivation moduleHash))

/-- `RecordCacheWasm` and `RecordEvictWasm` append to the entries directly. -/
def recordWasm (s : StateDB) (entry : JournalEntry) : StateDB :=
  { s with journal := { s.journal with entries := s.journal.entries ++ [entry] } }

/-! ### Undoing journal entries -/

/-- An undo that changes the object of an account, which must exist: a nil
    dereference otherwise. -/
def revertObject (s : StateDB) (addr : Address) (f : StateObject → StateObject) : Option StateDB :=
  match s.getStateObject addr with
  | (none, _) => none
  | (some obj, s) => some (s.setStateObject addr (f obj))

/-- `journalEntry.revert`.  The undo of a wasm cache entry only acts on the cache
    of the Stylus runtime. -/
def revertEntry (s : StateDB) : JournalEntry → Option StateDB
  | .createObjectChange account => some { s with stateObjects := s.stateObjects.erase account }
  | .createZombieChange account => some { s with stateObjects := s.stateObjects.erase account }
  | .createContractChange account => s.revertObject account
      fun obj => { obj with newContract := false }
  | .selfDestructChange account =>
    match s.getStateObject account with
    | (none, s) => some s
    | (some obj, s) => some (s.setStateObject account { obj with selfDestructed := false })
  | .balanceChange account prev => s.revertObject account fun obj => obj.setBalance prev
  | .nonceChange account prev => s.revertObject account fun obj => obj.setNonce prev
  | .storageChange account key prevvalue origvalue =>
    s.revertObject account fun obj => obj.setState key prevvalue origvalue
  | .codeChange account prevCode =>
    s.revertObject account fun obj => obj.setCode (keccak256 prevCode) prevCode
  | .refundChange prev => some { s with refund := prev }
  | .addLogChange txhash =>
    let logs := s.logs.get txhash
    if logs.length = 1 then some { s with logs := s.logs.erase txhash, logSize := s.logSize - 1 }
    else if logs.length = 0 then none
    else some { s with logs := s.logs.insert txhash logs.dropLast, logSize := s.logSize - 1 }
  | .touchChange _ => some s
  | .accessListAddAccountChange address =>
    some { s with accessList := s.accessList.deleteAddress address }
  | .accessListAddSlotChange address slot =>
    (s.accessList.deleteSlot address slot).map fun al => { s with accessList := al }
  | .transientStorageChange account key prevalue =>
    some { s with transientStorage := s.transientStorage.set account key prevalue }
  | .wasmActivation moduleHash =>
    some { s with activatedWasms := s.activatedWasms.erase moduleHash }
  | .cacheWasm _ _ _ _ => some s
  | .evictWasm _ _ _ _ => some s

/-- One pass of the loop of `journal.revert`. -/
def undoEntry (entry : JournalEntry) (s : StateDB) : Option StateDB :=
  (s.revertEntry entry).map fun s => { s with journal := s.journal.dropDirty entry }

/-- `journal.revert`: undo the entries from the end down to `snapshot`. -/
def revert (s : StateDB) (snapshot : Nat) : Option StateDB :=
  if s.journal.length < snapshot then none
  else
    (undoAll undoEntry (s.journal.entries.drop snapshot) s).map fun t =>
      { t with journal := { t.journal with entries := s.journal.entries.take snapshot } }

def snapshot (s : StateDB) : Nat × StateDB :=
  let (id, journal) := s.journal.snapshot s.unexpectedBalanceDelta
  (id, { s with journal := journal })

def revertToSnapshot (s : StateDB) (revid : Nat) : Option StateDB :=
  match s.journal.findRevision revid with
  | none => none
  | some (idx, revision) =>
    let s := { s with unexpectedBalanceDelta := revision.unexpectedBalanceDelta }
    (s.revert revision.journalIndex).map fun s =>
      { s with journal := { s.journal with validRevisions := s.journal.validRevisions.take idx } }

/-! ### Transaction context -/

def setTxContext (s : StateDB) (thash : Hash) (ti : U64) : StateDB :=
  { s with thash := thash, txIndex := ti }

/-- One entry of a transaction's access list. -/
structure AccessTuple where
  address : Address
  storageKeys : List Hash

/-- The access list `Prepare` builds, in the order of its additions. -/
def prepareAccessList (isShanghai : Bool) (sender coinbase : Address) (dst : Option Address)
    (precompiles : List Address) (list : List AccessTuple) : Option AccessList := do
  let al := (AccessList.new.addAddress sender).1
  let al := match dst with
    | none => al
    | some addr => (al.addAddress addr).1
  let al := precompiles.foldl (fun al addr => (al.addAddress addr).1) al
  let al ← list.foldlM (fun al el =>
    el.storageKeys.foldlM (fun al key => (al.addSlot el.address key).map Prod.fst)
      (al.addAddress el.address).1) al
  some (if isShanghai then (al.addAddress coinbase).1 else al)

/-- `Prepare`.  Its rules are reduced to the three flags it reads. -/
def prepare (s : StateDB) (isEIP2929 isEIP4762 isShanghai : Bool) (sender coinbase : Address)
    (dst : Option Address) (precompiles : List Address) (list : List AccessTuple) :
    Option StateDB :=
  if isEIP2929 && isEIP4762 then none
  else if isEIP2929 then
    (prepareAccessList isShanghai sender coinbase dst precompiles list).map fun al =>
      { s with accessList := al, transientStorage := ∅ }
  else some { s with transientStorage := ∅ }

end

end StateDB

end GethArb
