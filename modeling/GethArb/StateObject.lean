/-
  **State objects** (`core/state/state_object.go`): the cached account with its
  four storage layers, and the operations of an object that stay inside it.

  In the source an object points back to its `StateDB`.  Here what it reads there
  is passed in: the reader, its own address, whether that address was destructed
  in this block, the database.  What it would report with `setError` is returned
  as an `Option DBError`.  The setters that also write the journal are in
  `StateDB.lean`.
-/
import GethArb.Types

namespace GethArb

abbrev Storage := GoMap Hash Hash

/-- `stateObject`.  The address is the key under which the `StateDB` keeps it. -/
structure StateObject where
  /-- account in the database, `none` if it did not exist there -/
  origin : Option StateAccount
  /-- account with all changes of the block -/
  data : StateAccount
  trie : Option (Trie Hash)
  code : Bytes
  /-- slots read in this block -/
  originStorage : Storage
  /-- slots changed in this transaction -/
  dirtyStorage : Storage
  /-- slots changed in this block -/
  pendingStorage : Storage
  /-- slots changed since the last write to the trie, with their value there -/
  uncommittedStorage : Storage
  dirtyCode : Bool
  selfDestructed : Bool
  newContract : Bool

section
variable [Crypto]

def newObject (acct : Option StateAccount) : StateObject where
  origin := acct
  data := acct.getD newEmptyStateAccount
  trie := none
  code := []
  originStorage := ∅
  dirtyStorage := ∅
  pendingStorage := ∅
  uncommittedStorage := ∅
  dirtyCode := false
  selfDestructed := false
  newContract := false

end

namespace StateObject

def empty [Crypto] (obj : StateObject) : Bool :=
  obj.data.nonce = 0 && obj.data.balance = 0 && obj.data.codeHash = emptyCodeHash

/-! ### Setters that write no journal -/

def markSelfdestructed (obj : StateObject) : StateObject := { obj with selfDestructed := true }

def setBalance (obj : StateObject) (amount : U256) : StateObject :=
  { obj with data := { obj.data with balance := amount } }

def setNonce (obj : StateObject) (nonce : U64) : StateObject :=
  { obj with data := { obj.data with nonce := nonce } }

def setCode (obj : StateObject) (codeHash : Hash) (code : Bytes) : StateObject :=
  { obj with code := code, data := { obj.data with codeHash := codeHash }, dirtyCode := true }

/-- `setState`: a slot set back to its original value is no longer dirty. -/
def setState (obj : StateObject) (key value origin : Hash) : StateObject :=
  if value = origin then { obj with dirtyStorage := obj.dirtyStorage.erase key }
  else { obj with dirtyStorage := obj.dirtyStorage.insert key value }

/-! ### Reads -/

/-- `GetCommittedState`, with the object after its cache was filled. -/
def getCommittedState (reader : Reader) (addr : Address) (destructed : Bool) (obj : StateObject)
    (key : Hash) : Hash × StateObject × Option DBError :=
  match obj.pendingStorage.lookup key with
  | some value => (value, obj, none)
  | none =>
    match obj.originStorage.lookup key with
    | some value => (value, obj, none)
    | none =>
      -- the storage in the database belongs to an earlier incarnation
      if destructed then
        (0, { obj with originStorage := obj.originStorage.insert key 0 }, none)
      else
        match reader.storage addr key with
        | .error cause => (0, obj, some (.readStorage cause))
        | .ok value =>
          (value, { obj with originStorage := obj.originStorage.insert key value }, none)

/-- `getState`: the current and the committed value of a slot. -/
def getState (reader : Reader) (addr : Address) (destructed : Bool) (obj : StateObject)
    (key : Hash) : Hash × Hash × StateObject × Option DBError :=
  let (origin, obj, err) := obj.getCommittedState reader addr destructed key
  match obj.dirtyStorage.lookup key with
  | some value => (value, origin, obj, err)
  | none => (origin, origin, obj, err)

def getCode [Crypto] (reader : Reader) (addr : Address) (obj : StateObject) :
    Bytes × StateObject × Option DBError :=
  if obj.code ≠ [] then (obj.code, obj, none)
  else if obj.data.codeHash = emptyCodeHash then ([], obj, none)
  else
    match reader.code addr obj.data.codeHash with
    | .error cause => ([], { obj with code := [] }, some (.loadCode obj.data.codeHash cause))
    | .ok [] => ([], { obj with code := [] }, some (.codeNotFound obj.data.codeHash))
    | .ok code => (code, { obj with code := code }, none)

/-- `CodeSize`.  Unlike `Code` it does not fill the cache. -/
def codeSize [Crypto] (reader : Reader) (addr : Address) (obj : StateObject) :
    Nat × Option DBError :=
  if obj.code ≠ [] then (obj.code.length, none)
  else if obj.data.codeHash = emptyCodeHash then (0, none)
  else
    match reader.codeSize addr obj.data.codeHash with
    | .error cause => (0, some (.loadCodeSize obj.data.codeHash cause))
    | .ok 0 => (0, some (.codeNotFound obj.data.codeHash))
    | .ok size => (size, none)

/-! ### The end of a transaction -/

/-- One pass of the loop of `finalise` over the dirty slots. -/
def finaliseSlot (reader : Reader) (addr : Address) (destructed : Bool)
    (st : StateObject × Option DBError) (slot : Hash × Hash) : StateObject × Option DBError :=
  let (obj, err) := st
  let (key, value) := slot
  match obj.uncommittedStorage.lookup key with
  | some origin =>
    let uncommitted :=
      if origin = value then obj.uncommittedStorage.erase key else obj.uncommittedStorage
    ({ obj with
        uncommittedStorage := uncommitted
        pendingStorage := obj.pendingStorage.insert key value }, err)
  | none =>
    let (committed, obj, err') := obj.getCommittedState reader addr destructed key
    ({ obj with
        uncommittedStorage := obj.uncommittedStorage.insert key committed
        pendingStorage := obj.pendingStorage.insert key value }, err.or err')

def finalise (ord : RangeOrder Hash) (reader : Reader) (addr : Address) (destructed : Bool)
    (obj : StateObject) : StateObject × Option DBError :=
  let (obj, err) :=
    (GoMap.range ord obj.dirtyStorage).foldl (finaliseSlot reader addr destructed) (obj, none)
  ({ obj with dirtyStorage := ∅, newContract := false }, err)

/-! ### Writing the storage trie -/

def getTrie (db : Database) (originalRoot : Hash) (addr : Address) (obj : StateObject) :
    Except String (Trie Hash) :=
  match obj.trie with
  | some tr => .ok tr
  | none => (db.openStorageTrie originalRoot addr obj.data.root).map fun content => { content }

/-- The slots that the loop of `updateTrie` does not skip, with their pending value. -/
def pendingWrites (ord : RangeOrder Hash) (obj : StateObject) : List (Hash × Hash) :=
  (GoMap.range ord obj.uncommittedStorage).filterMap fun slot =>
    if obj.pendingStorage.get slot.1 = slot.2 then none
    else (obj.pendingStorage.lookup slot.1).map (Prod.mk slot.1)

/-- The trie calls of `updateTrie` in order: the updates as the loop meets them, then
    the deletions, which deterministic mode sorts. -/
def slotWrites (deterministic : Bool) (ord : RangeOrder Hash) (obj : StateObject) :
    List (Hash × Hash) :=
  let writes := obj.pendingWrites ord
  let deletions := writes.filter (·.2 = 0)
  writes.filter (·.2 ≠ 0) ++
    if deterministic then deletions.insertionSort (·.1.toNat ≤ ·.1.toNat) else deletions

/-- `UpdateStorage` or `DeleteStorage`.  `missing` tells whether the call meets a node
    that cannot be read. -/
def writeSlot [Crypto] (missing : Trie Hash → Hash → Bool) (tr : Trie Hash) (slot : Hash × Hash) :
    Except String (Trie Hash) :=
  if missing tr slot.1 then .error "missing trie node"
  else if slot.2 ≠ 0 then tr.update (slotHash slot.1) slot.2
  else tr.delete (slotHash slot.1)

/-- The trie calls up to the first that fails, with the trie it leaves. -/
def writeAll [Crypto] (missing : Trie Hash → Hash → Bool) :
    Trie Hash → List (Hash × Hash) → Trie Hash × Option String
  | tr, [] => (tr, none)
  | tr, slot :: slots =>
    match writeSlot missing tr slot with
    | .error cause => (tr, some cause)
    | .ok tr => writeAll missing tr slots

/-- `updateTrie` over a trie some of whose nodes may be missing. -/
def updateTrieFaulty [Crypto] (missing : Trie Hash → Hash → Bool) (deterministic : Bool)
    (ord : RangeOrder Hash) (db : Database) (originalRoot : Hash) (addr : Address)
    (obj : StateObject) : StateObject × Except DBError (Option (Trie Hash)) :=
  if obj.uncommittedStorage = ∅ then (obj, .ok obj.trie)
  else
    match obj.getTrie db originalRoot addr with
    | .error cause => (obj, .error (.openStorageTrie cause))
    | .ok tr =>
      match writeAll missing tr (obj.slotWrites deterministic ord) with
      | (tr, some cause) => ({ obj with trie := some tr }, .error (.updateStorage cause))
      | (tr, none) => ({ obj with trie := some tr, uncommittedStorage := ∅ }, .ok (some tr))

/-- `updateTrie`, with every node there. -/
def updateTrie [Crypto] (ord : RangeOrder Hash) (db : Database) (originalRoot : Hash)
    (addr : Address) (obj : StateObject) : StateObject × Except DBError (Option (Trie Hash)) :=
  obj.updateTrieFaulty (fun _ _ => false) false ord db originalRoot addr

def updateRoot [Crypto] (ord : RangeOrder Hash) (db : Database) (originalRoot : Hash)
    (addr : Address) (obj : StateObject) : StateObject × Option DBError :=
  match obj.updateTrie ord db originalRoot addr with
  | (obj, .error err) => (obj, some err)
  | (obj, .ok none) => (obj, none)
  | (obj, .ok (some tr)) =>
    ({ obj with data := { obj.data with root := db.hashStorageTrie tr.content } }, none)

end StateObject

/-! ### Committing an object -/

structure ContractCode where
  hash : Hash
  blob : Bytes
deriving DecidableEq, Repr

/-- A slot value as the diffs hold it: `nil` for the zero value. -/
def encode (val : Hash) : Option Hash := if val = 0 then none else some val

structure AccountUpdate where
  address : Address
  data : SlimAccount
  origin : Option SlimAccount
  code : Option ContractCode
  storages : GoMap Hash (Option Hash)
  storagesOriginByKey : GoMap Hash (Option Hash)
  storagesOriginByHash : GoMap Hash (Option Hash)

namespace StateObject

variable [Crypto]

/-- One pass of the loop of `commitStorage` over the pending slots. -/
def commitSlot (st : StateObject × AccountUpdate) (slot : Hash × Hash) :
    StateObject × AccountUpdate :=
  let (obj, op) := st
  let (key, val) := slot
  if val = obj.originStorage.get key then st
  else
    let origin := encode (obj.originStorage.get key)
    ({ obj with originStorage := obj.originStorage.insert key val },
      { op with
        storages := op.storages.insert (slotHash key) (encode val)
        storagesOriginByKey := op.storagesOriginByKey.insert key origin
        storagesOriginByHash := op.storagesOriginByHash.insert (slotHash key) origin })

def commitStorage (ord : RangeOrder Hash) (obj : StateObject) (op : AccountUpdate) :
    StateObject × AccountUpdate :=
  let (obj, op) := (GoMap.range ord obj.pendingStorage).foldl commitSlot (obj, op)
  ({ obj with pendingStorage := ∅ }, op)

/-- The account part of `commit`: the record before storage is added to it. -/
def accountUpdate (addr : Address) (obj : StateObject) : AccountUpdate where
  address := addr
  data := slimAccountRLP obj.data
  origin := obj.origin.map slimAccountRLP
  code := if obj.dirtyCode then some ⟨obj.data.codeHash, obj.code⟩ else none
  storages := ∅
  storagesOriginByKey := ∅
  storagesOriginByHash := ∅

/-- `commit`.  With slots to report the storage trie is committed too; a missing
    trie is a nil dereference. -/
def commit (ord : RangeOrder Hash) (db : Database) (addr : Address) (obj : StateObject) :
    Option (AccountUpdate × StateObject) :=
  let op := obj.accountUpdate addr
  let (obj, op) := { obj with dirtyCode := false }.commitStorage ord op
  if op.storages = ∅ then some (op, { obj with origin := some obj.data })
  else
    obj.trie.map fun tr =>
      let data := { obj.data with root := db.hashStorageTrie tr.content }
      (op, { obj with trie := some tr.commit, data := data, origin := some data })

end StateObject

end GethArb
