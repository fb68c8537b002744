/-
  **The block side of the `StateDB`**: `Finalise` at the end of a transaction,
  `IntermediateRoot`, `StateDiff` and `commit` with the `stateUpdate` it builds
  (`core/state/statedb.go`, `core/state/stateupdate.go`).

  The loops over Go maps take their visiting orders as an argument (`MapOrders`).
  The source runs some of these loops concurrently or sorted, depending on the
  `deterministic` and `recording` flags; both are special orders.  Trie nodes are
  not modelled, so the node sets of the update are left out.
-/
import GethArb.StateDB

namespace GethArb

/-- The visiting orders of one call: accounts, the slots of each account, and the
    maps keyed by hash. -/
structure MapOrders where
  account : RangeOrder Address
  slot : Address → RangeOrder Hash
  hash : RangeOrder Hash

/-- The sorted loops of the deterministic mode. -/
def MapOrders.ascending : MapOrders where
  account := .ascending 160
  slot _ := .ascending 256
  hash := .ascending 256

namespace StateDB

variable [Crypto]

/-! ### Finalise -/

def markDelete (s : StateDB) (addr : Address) : StateDB :=
  { s with mutations := s.mutations.insert addr ⟨.deletion, false⟩ }

def markUpdate (s : StateDB) (addr : Address) : StateDB :=
  { s with mutations := s.mutations.insert addr ⟨.update, false⟩ }

/-- The condition under which `Finalise` deletes a dirty account. -/
def finaliseDeletes (s : StateDB) (deleteEmptyObjects : Bool) (addr : Address) (dirtyCount : Int)
    (obj : StateObject) : Bool :=
  obj.selfDestructed ||
    (deleteEmptyObjects && obj.empty && !decide (s.journal.zombieEntries.get addr = dirtyCount))

/-- One pass of the loop of `Finalise` over the dirty accounts. -/
def finaliseAccount (ord : MapOrders) (deleteEmptyObjects : Bool) (s : StateDB)
    (dirty : Address × Int) : StateDB :=
  let (addr, dirtyCount) := dirty
  match s.stateObjects.lookup addr with
  | none => s
  | some obj =>
    if s.finaliseDeletes deleteEmptyObjects addr dirtyCount obj then
      ({ s with stateObjects := s.stateObjects.erase addr }.markDelete addr).recordDestruct addr obj
    else
      let (obj, err) := obj.finalise (ord.slot addr) s.reader addr (s.destructed addr)
      ((s.setStateObject addr obj).setError err).markUpdate addr

def clearJournalAndRefund (s : StateDB) : StateDB :=
  { s with journal := s.journal.reset, refund := 0 }

def finalise (ord : MapOrders) (deleteEmptyObjects : Bool) (s : StateDB) : StateDB :=
  ((GoMap.range ord.account s.journal.dirties).foldl (finaliseAccount ord deleteEmptyObjects)
    s).clearJournalAndRefund

/-! ### IntermediateRoot -/

/-- The storage part of `IntermediateRoot` for one mutated account. -/
def updateObjectRoot (ord : MapOrders) (s : StateDB) (mutated : Address × Mutation) :
    Option StateDB :=
  let (addr, op) := mutated
  if op.applied || op.typ = .deletion then some s
  else
    match s.stateObjects.lookup addr with
    | none => none
    | some obj =>
      let (obj, err) := obj.updateRoot (ord.slot addr) s.db s.originalRoot addr
      some ((s.setStateObject addr obj).setError err)

def updateStateObject (s : StateDB) (addr : Address) (obj : StateObject) : Option StateDB :=
  match s.trie with
  | none => none
  | some tr =>
    match tr.update (addrHash addr) obj.data with
    | .error cause => some (s.setError (some (.updateStateObject addr cause)))
    | .ok tr => some { s with trie := some tr }

def deleteStateObject (s : StateDB) (addr : Address) : Option StateDB :=
  match s.trie with
  | none => none
  | some tr =>
    match tr.delete (addrHash addr) with
    | .error cause => some (s.setError (some (.deleteStateObject addr cause)))
    | .ok tr => some { s with trie := some tr }

/-- The account part of `IntermediateRoot` for one mutated account: an update is
    written, a deletion is scheduled. -/
def applyMutation (st : StateDB × List Address) (mutated : Address × Mutation) :
    Option (StateDB × List Address) :=
  let (s, deletedAddrs) := st
  let (addr, op) := mutated
  if op.applied then some st
  else
    let s := { s with mutations := s.mutations.insert addr { op with applied := true } }
    match op.typ with
    | .deletion => some (s, deletedAddrs ++ [addr])
    | .update =>
      match s.stateObjects.lookup addr with
      | none => none
      | some obj => (s.updateStateObject addr obj).map fun s => (s, deletedAddrs)

/-- `IntermediateRoot` after `Finalise`, with the account trie open. -/
def writeMutations (ord : MapOrders) (s : StateDB) : Option StateDB := do
  let s ← (GoMap.range ord.account s.mutations).foldlM (updateObjectRoot ord) s
  let (s, deletedAddrs) ← (GoMap.range ord.account s.mutations).foldlM applyMutation (s, [])
  deletedAddrs.foldlM deleteStateObject s

def intermediateRoot (ord : MapOrders) (deleteEmptyObjects : Bool) (s : StateDB) :
    Option (Hash × StateDB) :=
  let s := s.finalise ord deleteEmptyObjects
  let opened : Except String (Trie StateAccount) :=
    match s.trie with
    | some tr => .ok tr
    | none => (s.db.openTrie s.originalRoot).map fun content => { content }
  match opened with
  | .error cause => some (0, s.setError (some (.openTrie cause)))
  | .ok tr => do
    let s ← { s with trie := some tr }.writeMutations ord
    let tr ← s.trie
    some (s.db.hashTrie tr.content, s)

end StateDB

/-! ### StateDiff -/

structure StateDiff where
  destructs : Finset Hash
  accounts : GoMap Hash SlimAccount
  storages : GoMap Hash (GoMap Hash (Option Hash))
  codes : GoMap Hash Bytes

namespace StateDB

variable [Crypto]

/-- One pass of the loop of `StateDiff` over the destructed accounts. -/
def diffDestruct (destructs : Finset Hash) (entry : Address × StateObject) : Finset Hash :=
  match entry.2.origin with
  | none => destructs
  | some _ => insert (addrHash entry.1) destructs

/-- One pass of the inner loop of `StateDiff` over the pending slots of an object. -/
def diffSlot (addr : Address) (obj : StateObject)
    (storages : GoMap Hash (GoMap Hash (Option Hash))) (slot : Hash × Hash) :
    GoMap Hash (GoMap Hash (Option Hash)) :=
  let (key, val) := slot
  if val = obj.originStorage.get key then storages
  else
    storages.insert (addrHash addr)
      (((storages.lookup (addrHash addr)).getD ∅).insert (slotHash key) (encode val))

/-- One pass of the loop of `StateDiff` over the mutated accounts. -/
def diffAccount (ord : MapOrders) (s : StateDB) (diff : StateDiff) (mutated : Address × Mutation) :
    Option StateDiff :=
  let (addr, op) := mutated
  match op.typ with
  | .deletion => some diff
  | .update =>
    match s.stateObjects.lookup addr with
    | none => none
    | some obj =>
      some { diff with
        accounts := diff.accounts.insert (addrHash addr) (slimAccountRLP obj.data)
        codes := if obj.dirtyCode then diff.codes.insert obj.data.codeHash obj.code else diff.codes
        storages :=
          (GoMap.range (ord.slot addr) obj.pendingStorage).foldl (diffSlot addr obj) diff.storages }

/-- `StateDiff`, which finalises the transaction first. -/
def stateDiff (ord : MapOrders) (deleteEmptyObjects : Bool) (s : StateDB) :
    Option (Except DBError StateDiff × StateDB) :=
  let s := s.finalise ord deleteEmptyObjects
  match s.dbErr with
  | some err => some (.error err, s)
  | none =>
    let destructs := (GoMap.range ord.account s.stateObjectsDestruct).foldl diffDestruct ∅
    ((GoMap.range ord.account s.mutations).foldlM (diffAccount ord s) ⟨destructs, ∅, ∅, ∅⟩).map
      fun diff => (.ok diff, s)

end StateDB

/-! ### The state update -/

structure AccountDelete where
  address : Address
  origin : SlimAccount
  storages : GoMap Hash (Option Hash)
  storagesOrigin : GoMap Hash (Option Hash)

/-- `stateUpdate`, without the trie nodes. -/
structure StateUpdate where
  originRoot : Hash
  root : Hash
  blockNumber : U64
  accounts : GoMap Hash (Option SlimAccount)
  accountsOrigin : GoMap Address (Option SlimAccount)
  storages : GoMap Hash (GoMap Hash (Option Hash))
  storagesOrigin : GoMap Address (GoMap Hash (Option Hash))
  rawStorageKey : Bool
  codes : GoMap Address ContractCode
  activatedWasms : GoMap Hash ActivatedWasm

namespace StateUpdate

/-- One pass of the loop of `newStateUpdate` over the deletions. -/
def addDelete (u : StateUpdate) (entry : Hash × AccountDelete) : StateUpdate :=
  let (addrHash, op) := entry
  { u with
    accounts := u.accounts.insert addrHash none
    accountsOrigin := u.accountsOrigin.insert op.address (some op.origin)
    storages := if op.storages = ∅ then u.storages else u.storages.insert addrHash op.storages
    storagesOrigin :=
      if op.storagesOrigin = ∅ then u.storagesOrigin
      else u.storagesOrigin.insert op.address op.storagesOrigin }

/-- One pass of the loop of `newStateUpdate` over the updates.  A slot written by
    the update wins over a wiped one; an origin already known is kept. -/
def addUpdate (u : StateUpdate) (entry : Hash × AccountUpdate) : StateUpdate :=
  let (addrHash, op) := entry
  let storageOriginSet :=
    if u.rawStorageKey then op.storagesOriginByKey else op.storagesOriginByHash
  { u with
    codes := match op.code with
      | none => u.codes
      | some code => u.codes.insert op.address code
    accounts := u.accounts.insert addrHash (some op.data)
    accountsOrigin :=
      if op.address ∈ u.accountsOrigin then u.accountsOrigin
      else u.accountsOrigin.insert op.address op.origin
    storages :=
      if op.storages = ∅ then u.storages
      else u.storages.insert addrHash (op.storages ∪ (u.storages.lookup addrHash).getD ∅)
    storagesOrigin :=
      if storageOriginSet = ∅ then u.storagesOrigin
      else
        u.storagesOrigin.insert op.address
          ((u.storagesOrigin.lookup op.address).getD ∅ ∪ storageOriginSet) }

end StateUpdate

def newStateUpdate (ord : RangeOrder Hash) (rawStorageKey : Bool) (originRoot root : Hash)
    (blockNumber : U64) (deletes : GoMap Hash AccountDelete) (updates : GoMap Hash AccountUpdate)
    (activatedWasms : GoMap Hash ActivatedWasm) : StateUpdate :=
  let u : StateUpdate :=
    ⟨originRoot, root, blockNumber, ∅, ∅, ∅, ∅, rawStorageKey, ∅, activatedWasms⟩
  let u := (GoMap.range ord deletes).foldl StateUpdate.addDelete u
  (GoMap.range ord updates).foldl StateUpdate.addUpdate u

/-! ### Commit -/

/-- The errors `commit` returns. -/
inductive CommitError where
  | arbTxFilter
  | earlierError (err : DBError)
  | databaseError (err : DBError)
  | unexpectedStorageWiping (addr : Address)
  | deleteStorage (cause : String)
  | missingStateObject
  | flush (cause : String)
deriving DecidableEq, Repr

namespace StateDB

variable [Crypto]

/-- `fastDeleteStorage`: the slots of an account in the flat snapshot, if they hash
    to the storage root. -/
def fastDeleteStorage (s : StateDB) (snaps : Hash → Hash → Except String (GoMap Hash Hash))
    (addrHash root : Hash) : Except String (GoMap Hash Hash) := do
  let content ← snaps s.originalRoot addrHash
  if s.db.hashStorageTrie content = root then .ok content else .error "snapshot is not matched"

/-- `slowDeleteStorage`: the slots of an account in its storage trie. -/
def slowDeleteStorage (s : StateDB) (addr : Address) (root : Hash) :
    Except String (GoMap Hash Hash) :=
  s.db.openStorageTrie s.originalRoot addr root

/-- `deleteStorage`: the slots to wipe, from the snapshot or else from the trie. -/
def deleteStorage (s : StateDB) (addr : Address) (addrHash root : Hash) :
    Except String (GoMap Hash Hash) :=
  match s.db.snapshot with
  | none => s.slowDeleteStorage addr root
  | some snaps =>
    match s.fastDeleteStorage snaps addrHash root with
    | .ok content => .ok content
    | .error _ => s.slowDeleteStorage addr root

/-- The two maps the deletion of an account records for its wiped slots: every slot
    is set to `nil`, and its original value is kept. -/
def wipedSlots (ord : RangeOrder Hash) (content : GoMap Hash Hash) :
    GoMap Hash (Option Hash) × GoMap Hash (Option Hash) :=
  (GoMap.range ord content).foldl
    (fun (storages, origins) (key, slot) =>
      (storages.insert key none, origins.insert key (some slot))) (∅, ∅)

/-- One pass of the loop of `handleDestruction`. -/
def handleDestruct (ord : MapOrders) (noStorageWiping : Bool) (s : StateDB)
    (deletes : GoMap Hash AccountDelete) (entry : Address × StateObject) :
    Except CommitError (GoMap Hash AccountDelete) :=
  let (addr, prevObj) := entry
  match prevObj.origin with
  | none => .ok deletes
  | some prev =>
    if prev.root = emptyRootHash then
      .ok (deletes.insert (addrHash addr) ⟨addr, slimAccountRLP prev, ∅, ∅⟩)
    else if noStorageWiping then .error (.unexpectedStorageWiping addr)
    else
      match s.deleteStorage addr (addrHash addr) prev.root with
      | .error cause => .error (.deleteStorage cause)
      | .ok content =>
        let (storages, origins) := wipedSlots (ord.slot addr) content
        .ok (deletes.insert (addrHash addr) ⟨addr, slimAccountRLP prev, storages, origins⟩)

def handleDestruction (ord : MapOrders) (noStorageWiping : Bool) (s : StateDB) :
    Except CommitError (GoMap Hash AccountDelete) :=
  (GoMap.range ord.account s.stateObjectsDestruct).foldlM (handleDestruct ord noStorageWiping s) ∅

/-- One pass of the loop of `commit` over the mutated accounts; `none` is a panic. -/
def commitAccount (ord : MapOrders) (st : StateDB × Except CommitError (GoMap Hash AccountUpdate))
    (mutated : Address × Mutation) :
      Option (StateDB × Except CommitError (GoMap Hash AccountUpdate)) :=
  let (s, result) := st
  let (addr, op) := mutated
  match result, op.typ with
  | .error _, _ => some st
  | .ok _, .deletion => some st
  | .ok updates, .update =>
    match s.stateObjects.lookup addr with
    | none => some (s, .error .missingStateObject)
    | some obj =>
      (obj.commit (ord.slot addr) s.db addr).map fun (update, obj) =>
        (s.setStateObject addr obj, .ok (updates.insert (addrHash addr) update))

def commit (ord : MapOrders) (deleteEmptyObjects noStorageWiping : Bool) (blockNumber : U64)
    (s : StateDB) : Option (Except CommitError StateUpdate × StateDB) :=
  if s.arbTxFilter then some (.error .arbTxFilter, s)
  else
    match s.dbErr with
    | some err => some (.error (.earlierError err), s)
    | none => do
      let (_, s) ← s.intermediateRoot ord deleteEmptyObjects
      match s.dbErr with
      | some err => some (.error (.databaseError err), s)
      | none =>
        match s.handleDestruction ord noStorageWiping with
        | .error err => some (.error err, s)
        | .ok deletes => do
          let tr ← s.trie
          let root := s.db.hashTrie tr.content
          let s := { s with trie := some tr.commit }
          match ← (GoMap.range ord.account s.mutations).foldlM (commitAccount ord) (s, .ok ∅) with
          | (s, .error err) => some (.error err, s)
          | (s, .ok updates) =>
            some (.ok (newStateUpdate ord.hash noStorageWiping s.originalRoot root blockNumber
                deletes updates s.activatedWasms),
              { s with mutations := ∅, stateObjectsDestruct := ∅, originalRoot := root })

/-- How writing a `stateUpdate` to the data stores ends.  `done` carries the
    reader of the new root. -/
inductive FlushOutcome where
  | codeError (cause : String)
  | wasmError (cause : String)
  | trieError (cause : String)
  | done (reader : Reader)

/-- `commitAndFlush`, which `Commit` and `CommitWithUpdate` wrap. -/
def commitAndFlush (ord : MapOrders) (deleteEmptyObjects noStorageWiping : Bool) (block : U64)
    (flush : FlushOutcome) (s : StateDB) : Option (Except CommitError StateUpdate × StateDB) := do
  match ← s.commit ord deleteEmptyObjects noStorageWiping block with
  | (.error err, s) => some (.error err, s)
  | (.ok ret, s) =>
    -- the activations are dropped before the write that may fail
    let flushed := if s.db.wasmStore then { s with activatedWasms := ∅ } else s
    match flush with
    | .codeError cause => some (.error (.flush cause), s)
    | .wasmError cause => some (.error (.flush cause), flushed)
    | .trieError cause => some (.error (.flush cause), flushed)
    | .done reader => some (.ok ret, { flushed with reader := reader, unexpectedBalanceDelta := 0 })

end StateDB

end GethArb
