/-
  **State sets, node sets and the write buffer of the path database**
  (`triedb/pathdb/states.go`, `nodes.go`, `buffer.go`, `flush.go`).

  A byte slice is a `Blob`, with nil apart from the empty slice: a set holds nil for a
  deleted entry, while the slices cut out of a decoded history are never nil.  Where the
  source asks for `len(blob) == 0` both count as empty.

  A set is read as a partial function (`StateSet.account`, `StateSet.storage`,
  `NodeSet.node`), and every operation has one lemma that says how it reads afterwards.
  `FlatState` is what the sets are about: the accounts and slots of one state, with the
  empty value for what is absent.

  The byte counts of the sets only feed the test whether the buffer is full, which is a
  parameter of the layers.  The sorted key lists a set caches are dropped by every write,
  so they are computed where they are read.
-/
import GethArb.Types

namespace GethArb.Pathdb

open GoMap Finmap

/-! ### Byte slices -/

/-- A byte slice; `none` is nil. -/
abbrev Blob := Option Bytes

/-- The bytes of a slice, none for nil. -/
def bytesOf (b : Blob) : Bytes := b.getD []

/-! ### Flat states -/

/-- The accounts and slots of a state, by hash; the value of an absent one is empty. -/
@[ext]
structure FlatState where
  account : Hash → Bytes
  storage : Hash → Hash → Bytes

/-- The trie nodes of a state by owner and path; the blob of an absent one is empty. -/
abbrev NodeView := Hash → Bytes → Bytes

/-! ### State sets -/

structure StateSet where
  /-- nil means deleted -/
  accountData : GoMap Hash Blob
  storageData : GoMap Hash (GoMap Hash Blob)
  rawStorageKey : Bool
deriving DecidableEq

namespace StateSet

/-- `newStates(nil, nil, false)`. -/
def empty : StateSet := ⟨∅, ∅, false⟩

def account (s : StateSet) (hash : Hash) : Option Blob := s.accountData.lookup hash

def storage (s : StateSet) (accountHash storageHash : Hash) : Option Blob :=
  lookup₂ s.storageData accountHash storageHash

/-- The write of one key in `merge`: what the other set has wins. -/
def overwrite {V : Type} (origin data : Option V) : Option V := data.or origin

def merge (s other : StateSet) : StateSet where
  accountData := combine overwrite s.accountData other.accountData
  storageData := combine₂ overwrite s.storageData other.storageData
  rawStorageKey := s.rawStorageKey

@[simp] theorem account_empty (h : Hash) : empty.account h = none := by simp [empty, account]

@[simp] theorem storage_empty (a k : Hash) : empty.storage a k = none := by simp [empty, storage]

@[simp] theorem account_merge (s other : StateSet) (h : Hash) :
    (s.merge other).account h = (other.account h).or (s.account h) :=
  lookup_combine rfl _ _ h

@[simp] theorem storage_merge (s other : StateSet) (a k : Hash) :
    (s.merge other).storage a k = (other.storage a k).or (s.storage a k) :=
  lookup₂_combine₂ (fun _ => rfl) _ _ a k

end StateSet

/-- The state `R` with the entries of a set written over it. -/
def FlatState.override (R : FlatState) (s : StateSet) : FlatState where
  account h := ((s.account h).map bytesOf).getD (R.account h)
  storage a k := ((s.storage a k).map bytesOf).getD (R.storage a k)

variable (R : FlatState)

open FlatState

theorem FlatState.override_empty : R.override StateSet.empty = R := by
  ext <;> simp [override]

/-- A merged set overrides as the two sets do one after the other. -/
theorem FlatState.override_merge (s other : StateSet) :
    R.override (s.merge other) = (R.override s).override other := by
  ext1
  · funext h
    simp only [override, StateSet.account_merge]
    cases other.account h <;> rfl
  · funext a k
    simp only [override, StateSet.storage_merge]
    cases other.storage a k <;> rfl

/-- Overriding twice with one set is overriding once. -/
theorem FlatState.override_override (s : StateSet) : (R.override s).override s = R.override s := by
  ext1
  · funext h
    simp only [override]
    cases s.account h <;> rfl
  · funext a k
    simp only [override]
    cases s.storage a k <;> rfl

/-- `StateSetWithOrigin`: the values before the transition, by address. -/
structure StateSetWithOrigin extends StateSet where
  accountOrigin : GoMap Address Blob
  storageOrigin : GoMap Address (GoMap Hash Blob)
deriving DecidableEq

/-! ### Node sets -/

/-- `trienode.Node`: the blob of a deleted node is empty. -/
structure TrieNode where
  hash : Hash
  blob : Blob
deriving DecidableEq

/-- Nodes by owner and path, as the tries return them: the zero hash is the owner of the
    account trie. -/
abbrev NodeMap := GoMap Hash (GoMap Bytes TrieNode)

structure NodeSet where
  accountNodes : GoMap Bytes TrieNode
  storageNodes : GoMap Hash (GoMap Bytes TrieNode)
  /-- the zero hash owns the account trie -/
  zero_notMem : storageNodes.lookup (0 : Hash) = none
deriving DecidableEq

namespace NodeSet

/-- `newNodeSet(nil)`. -/
def empty : NodeSet := ⟨∅, ∅, lookup_empty 0⟩

def node (s : NodeSet) (owner : Hash) (path : Bytes) : Option TrieNode :=
  if owner = 0 then s.accountNodes.lookup path else lookup₂ s.storageNodes owner path

def merge (s set : NodeSet) : NodeSet where
  accountNodes := combine StateSet.overwrite s.accountNodes set.accountNodes
  storageNodes := combine₂ StateSet.overwrite s.storageNodes set.storageNodes
  zero_notMem := by
    unfold combine₂
    rw [lookup_combine rfl, s.zero_notMem, set.zero_notMem]

@[simp] theorem node_empty (owner : Hash) (path : Bytes) : empty.node owner path = none := by
  simp [empty, node]

@[simp] theorem node_merge (s set : NodeSet) (owner : Hash) (path : Bytes) :
    (s.merge set).node owner path = (set.node owner path).or (s.node owner path) := by
  unfold node
  split
  · exact lookup_combine rfl _ _ path
  · exact lookup₂_combine₂ (fun _ => rfl) _ _ owner path

end NodeSet

/-- The nodes `N` with those of a set written over them. -/
def overrideNodes (N : NodeView) (s : NodeSet) : NodeView := fun owner path =>
  ((s.node owner path).map fun n => bytesOf n.blob).getD (N owner path)

variable (N : NodeView)

open NodeSet

theorem overrideNodes_empty : overrideNodes N empty = N := by
  funext owner path
  simp [overrideNodes]

theorem overrideNodes_merge (s set : NodeSet) :
    overrideNodes N (s.merge set) = overrideNodes (overrideNodes N s) set := by
  funext owner path
  simp only [overrideNodes, node_merge]
  cases set.node owner path <;> rfl

theorem overrideNodes_overrideNodes (s : NodeSet) :
    overrideNodes (overrideNodes N s) s = overrideNodes N s := by
  funext owner path
  simp only [overrideNodes]
  cases s.node owner path <;> rfl

/-- `nodeSetWithOrigin`: the nodes before the transition, by owner and path. -/
structure NodeSetWithOrigin extends NodeSet where
  nodeOrigin : GoMap Hash (GoMap Bytes Blob)
deriving DecidableEq

/-! ### The write buffer -/

structure Buffer where
  /-- the number of diff layers aggregated inside -/
  layers : Nat
  nodes : NodeSet
  states : StateSet
deriving DecidableEq

namespace Buffer

/-- `newBuffer(limit, nil, nil, 0)`. -/
def new : Buffer := ⟨0, empty, StateSet.empty⟩

def commit (b : Buffer) (nodes : NodeSet) (states : StateSet) : Buffer :=
  ⟨b.layers + 1, b.nodes.merge nodes, b.states.merge states⟩

end Buffer

/-! ### The key-value store -/

/-- The keys of the store that the path database writes. -/
structure KeyValue where
  accounts : GoMap Hash Bytes
  storages : GoMap Hash (GoMap Hash Bytes)
  nodes : GoMap Hash (GoMap Bytes Bytes)
  persistentStateID : Nat
  snapshotRoot : Hash
  /-- root to state id -/
  stateIDs : GoMap Hash Nat
deriving DecidableEq

variable (kv : KeyValue)

namespace KeyValue

/-- `ReadAccountSnapshot`: nil on a missing key. -/
def readAccount (kv : KeyValue) (h : Hash) : Blob := kv.accounts.lookup h

def readStorage (kv : KeyValue) (a k : Hash) : Blob := lookup₂ kv.storages a k

/-- `ReadAccountTrieNode` and `ReadStorageTrieNode`. -/
def readNode (kv : KeyValue) (owner : Hash) (path : Bytes) : Blob := lookup₂ kv.nodes owner path

/-- The write of one entry: an empty value is deleted. -/
def writeEntry (old : Option Bytes) : Option Blob → Option Bytes
  | none => old
  | some blob => if (bytesOf blob).length = 0 then none else some (bytesOf blob)

/-- `writeStates`, with the snapshot fully generated. -/
def writeStates (kv : KeyValue) (accountData : GoMap Hash Blob)
    (storageData : GoMap Hash (GoMap Hash Blob)) : KeyValue :=
  { kv with
    accounts := combine writeEntry kv.accounts accountData
    storages := combine₂ writeEntry kv.storages storageData }

def writeNodes (kv : KeyValue) (nodes : NodeMap) : KeyValue :=
  { kv with nodes := combine₂ (fun old n => writeEntry old (n.map TrieNode.blob)) kv.nodes nodes }

/-- The accounts and slots of the store. -/
def flat (kv : KeyValue) : FlatState where
  account h := bytesOf (kv.readAccount h)
  storage a k := bytesOf (kv.readStorage a k)

def nodeView (kv : KeyValue) : NodeView := fun owner path => bytesOf (kv.readNode owner path)

theorem bytesOf_writeEntry (old : Option Bytes) (data : Option Blob) :
    bytesOf (writeEntry old data) = (data.map bytesOf).getD (bytesOf old) := by
  cases data with
  | none => rfl
  | some blob =>
    simp only [writeEntry]
    split
    · rename_i h
      exact (List.length_eq_zero_iff.mp h).symm
    · rfl

theorem flat_writeStates (s : StateSet) :
    (kv.writeStates s.accountData s.storageData).flat = kv.flat.override s := by
  ext1
  · funext h
    have hl : (kv.writeStates s.accountData s.storageData).readAccount h =
        writeEntry (kv.readAccount h) (s.account h) := lookup_combine rfl _ _ h
    simp [flat, override, hl, bytesOf_writeEntry]
  · funext a k
    have hl : (kv.writeStates s.accountData s.storageData).readStorage a k =
        writeEntry (kv.readStorage a k) (s.storage a k) :=
      lookup₂_combine₂ (fun _ => rfl) _ _ a k
    simp [flat, override, hl, bytesOf_writeEntry]

theorem nodeView_writeNodes (nodes : NodeMap) (owner : Hash) (path : Bytes) :
    (kv.writeNodes nodes).nodeView owner path =
      ((lookup₂ nodes owner path).map fun n => bytesOf n.blob).getD (kv.nodeView owner path) := by
  have hl : (kv.writeNodes nodes).readNode owner path =
      writeEntry (kv.readNode owner path) ((lookup₂ nodes owner path).map TrieNode.blob) :=
    lookup₂_combine₂ (fun _ => rfl) _ _ owner path
  simp only [nodeView, hl, bytesOf_writeEntry, Option.map_map]
  rfl

end KeyValue

/-- `nodeSet.write`: the nodes of the set by owner. -/
def NodeSet.all (s : NodeSet) : NodeMap :=
  if s.accountNodes.keys.card = 0 then s.storageNodes else s.storageNodes.insert 0 s.accountNodes

theorem NodeSet.lookup_all (s : NodeSet) (owner : Hash) (path : Bytes) :
    lookup₂ s.all owner path = s.node owner path := by
  unfold all node lookup₂
  by_cases ho : owner = 0
  · subst ho
    split
    · rename_i hcard
      have hnone : lookup path s.accountNodes = none := by
        rw [lookup_eq_none, ← mem_keys, Finset.card_eq_zero.mp hcard]
        exact Finset.notMem_empty path
      rw [s.zero_notMem, hnone]
      rfl
    · rw [lookup_insert]
      rfl
  · split
    · rfl
    · rw [lookup_insert_of_ne _ ho]

theorem KeyValue.nodeView_write (s : NodeSet) :
    (kv.writeNodes s.all).nodeView = overrideNodes kv.nodeView s := by
  funext owner path
  rw [KeyValue.nodeView_writeNodes, lookup_all]
  rfl

end GethArb.Pathdb
