/-
  **The layers of the path database** (`triedb/pathdb/difflayer.go`, `disklayer.go`,
  `layertree.go`, `lookup.go`): diff layers over one disk layer, the tree they form by state
  root, the flattening of its lower part and the index that finds the layer of an entry.

  Layers are objects with identity: `diff.parent` is reassigned while other layers point to
  `diff`, and a disk layer turns stale while old layers point to it.  So layers live in a
  heap and refer to each other by address (`Ptr`).  A stale disk layer keeps the buffer it
  had; nobody reads it any more.

  What the program leaves open is a parameter.

    * `Config.full` tells when the buffer is full.
    * The flush of a frozen buffer runs in the background.  `early id` tells whether it has
      come to an end when the layer with that id is committed; otherwise it ends when
      somebody waits for it, or in a step of its own.
    * `ord` is the order of the `range` loops whose order could be seen.

  The database has a state freezer.  The indexer of the histories, the snapshot generator
  (its work is done) and the clean caches, which are written together with the key-value
  store, are left out.
-/
import GethArb.PathStates

namespace GethArb.Pathdb

/-! ### The state freezer -/

/-- An append-only table of items whose lower part can be dropped.  The items below
    `tail` cannot be read any more. -/
structure Freezer (α : Type) where
  items : List α
  tail : Nat

/-- The number of items ever stored. -/
def Freezer.ancients {α : Type} (f : Freezer α) : Nat := f.items.length

/-- `meta`. -/
structure Meta where
  /-- 0 if the slots are keyed by hash, 1 if by the raw key -/
  version : Nat
  parent : Hash
  root : Hash
  block : Nat
deriving DecidableEq

/-- `stateHistory`.  The sorted key lists are those of the two maps. -/
structure StateHistory where
  info : Meta
  accounts : GoMap Address Blob
  storages : GoMap Address (GoMap Hash Blob)
deriving DecidableEq

def newStateHistory (root parent : Hash) (block : Nat) (accounts : GoMap Address Blob)
    (storages : GoMap Address (GoMap Hash Blob)) (rawStorageKey : Bool) : StateHistory where
  info := ⟨if rawStorageKey then 1 else 0, parent, root, block⟩
  accounts := accounts
  storages := storages

/-! ### Layers -/

/-- The address of a layer. -/
abbrev Ptr := Nat

structure DiffLayer where
  root : Hash
  id : Nat
  block : Nat
  nodes : NodeSetWithOrigin
  states : StateSetWithOrigin
  parent : Ptr

inductive FlushState where
  | pending
  | done
  | failed
deriving DecidableEq

/-- A frozen buffer with the root and the id its flush is for. -/
structure Frozen where
  buffer : Buffer
  root : Hash
  id : Nat
  flush : FlushState

structure DiskLayer where
  root : Hash
  id : Nat
  buffer : Buffer
  frozen : Option Frozen
  stale : Bool

inductive Layer where
  | disk (dl : DiskLayer)
  | diff (dl : DiffLayer)

def Layer.rootHash : Layer → Hash
  | .disk dl => dl.root
  | .diff dl => dl.root

def Layer.stateID : Layer → Nat
  | .disk dl => dl.id
  | .diff dl => dl.id

inductive LayerError where
  | snapshotStale
  /-- the root asked for is not a state of the tree -/
  | staleState (root : Hash)
  | layerMissing (root : Hash)
  | parentMissing (root : Hash)
  | layerIsDisk (root : Hash)
  | layerCycle
  | historyOutOfOrder (id head : Nat)
  | headTruncationOutOfRange (tail head target : Nat)
  | tailTruncationOutOfRange (tail head target : Nat)
  | flushFailed (layers head id : Nat)
  /-- a panic, or a parent chain that does not end -/
  | panic
deriving DecidableEq

/-- The layers in memory, the key-value store and the freezer. -/
structure Memory where
  heap : List Layer
  kv : KeyValue
  freezer : Freezer StateHistory

structure Config where
  /-- the number of histories to keep, 0 for all -/
  stateHistory : Nat
  noAsyncFlush : Bool
  /-- `buffer.full` -/
  full : Buffer → Bool

/-! ### Flushing -/

/-- The batch that `buffer.flush` writes. -/
def KeyValue.flush (kv : KeyValue) (b : Buffer) (root : Hash) (id : Nat) : KeyValue :=
  { (kv.writeNodes b.nodes.all).writeStates b.states.accountData b.states.storageData with
    persistentStateID := id
    snapshotRoot := root }

/-- The background part of `buffer.flush`. -/
def Frozen.run (f : Frozen) (kv : KeyValue) : Frozen × KeyValue :=
  match f.flush with
  | .pending =>
    if kv.persistentStateID + f.buffer.layers ≠ f.id then ({ f with flush := .failed }, kv)
    else ({ f with flush := .done }, kv.flush f.buffer f.root f.id)
  | _ => (f, kv)

def Frozen.waitFlush (f : Frozen) (kv : KeyValue) : Except LayerError KeyValue :=
  match f.run kv with
  | (⟨b, _, id, .failed⟩, kv) => .error (.flushFailed b.layers kv.persistentStateID id)
  | (_, kv) => .ok kv

/-- `diskLayer.waitFlush`, for the frozen buffer of the layer. -/
def waitFrozen : Option Frozen → KeyValue → Except LayerError KeyValue
  | none, kv => .ok kv
  | some f, kv => f.waitFlush kv

/-- The background flush of the layer comes to its end, if one is running. -/
def DiskLayer.settle (dl : DiskLayer) (kv : KeyValue) : DiskLayer × KeyValue :=
  match dl.frozen with
  | none => (dl, kv)
  | some f => let (f, kv) := f.run kv; ({ dl with frozen := some f }, kv)

/-! ### Committing into the disk layer -/

def truncateFromTail {α : Type} (store : Freezer α) (ntail : Nat) : Except LayerError (Freezer α) :=
  if store.tail > ntail ∨ ntail > store.ancients then
    .error (.tailTruncationOutOfRange store.tail store.ancients ntail)
  else .ok { store with tail := ntail }

/-- `writeStateHistory`: the freezer takes the history of the next id only. -/
def writeStateHistory (freezer : Freezer StateHistory) (dl : DiffLayer) (parentRoot : Hash) :
    Except LayerError (Freezer StateHistory) :=
  let h := newStateHistory dl.root parentRoot dl.block dl.states.accountOrigin
    dl.states.storageOrigin dl.states.rawStorageKey
  if dl.id ≠ freezer.ancients + 1 then .error (.historyOutOfOrder dl.id freezer.ancients)
  else .ok { freezer with items := freezer.items ++ [h] }

/-- `diskLayer.writeStateHistory`: also tells whether the buffer must be flushed. -/
def DiskLayer.writeStateHistory (cfg : Config) (dl : DiskLayer) (kv : KeyValue)
    (freezer : Freezer StateHistory) (diff : DiffLayer) :
    Except LayerError (Bool × Freezer StateHistory) := do
  let freezer ← Pathdb.writeStateHistory freezer diff dl.root
  if cfg.stateHistory = 0 then return (false, freezer)
  if diff.id - freezer.tail ≤ cfg.stateHistory then return (false, freezer)
  -- the id of the first history after truncation
  let newFirst := diff.id - cfg.stateHistory + 1
  -- the histories of the persistent state are kept, and the buffer is flushed instead
  if kv.persistentStateID < newFirst then return (true, freezer)
  let freezer ← truncateFromTail freezer (newFirst - 1)
  return (false, freezer)

/-- The root to id mappings that `commit` stores. -/
def KeyValue.writeStateIDs (kv : KeyValue) (dl : DiskLayer) (bottom : DiffLayer) : KeyValue :=
  let ids := if dl.id = 0 then kv.stateIDs.insert dl.root 0 else kv.stateIDs
  { kv with stateIDs := ids.insert bottom.root bottom.id }

/-- The flush of the combined buffer: in the background, or at once if that is not allowed. -/
def DiskLayer.schedule (cfg : Config) (combined : Buffer) (bottom : DiffLayer) (kv : KeyValue) :
    Except LayerError (DiskLayer × KeyValue) :=
  let f : Frozen := ⟨combined, bottom.root, bottom.id, .pending⟩
  if cfg.noAsyncFlush then do
    let kv ← f.waitFlush kv
    return (⟨bottom.root, bottom.id, Buffer.new, none, false⟩, kv)
  else .ok (⟨bottom.root, bottom.id, Buffer.new, some f, false⟩, kv)

/-- The last part of `commit`: freeze the combined buffer if it has to be flushed. -/
def DiskLayer.freeze (cfg : Config) (frozen : Option Frozen) (combined : Buffer) (flush : Bool)
    (bottom : DiffLayer) (kv : KeyValue) : Except LayerError (DiskLayer × KeyValue) :=
  if cfg.full combined || flush then do
    -- wait until the previous frozen buffer is fully flushed
    let kv ← waitFrozen frozen kv
    DiskLayer.schedule cfg combined bottom kv
  else .ok (⟨bottom.root, bottom.id, combined, frozen, false⟩, kv)

/-- `diskLayer.commit`: the new disk layer; the caller marks the old one stale. -/
def DiskLayer.commit (cfg : Config) (early force : Bool) (dl : DiskLayer) (kv : KeyValue)
    (freezer : Freezer StateHistory) (bottom : DiffLayer) :
    Except LayerError (DiskLayer × KeyValue × Freezer StateHistory) := do
  let (dl, kv) := if early then dl.settle kv else (dl, kv)
  let (flush, freezer) ← dl.writeStateHistory cfg kv freezer bottom
  let kv := kv.writeStateIDs dl bottom
  let combined := dl.buffer.commit bottom.nodes.toNodeSet bottom.states.toStateSet
  let (ndl, kv) ← DiskLayer.freeze cfg dl.frozen combined (force || flush) bottom kv
  return (ndl, kv, freezer)

/-! ### Reading -/

/-- The first buffer of the live and the frozen one that has an entry. -/
def DiskLayer.buffered {α : Type} (get : Buffer → Option α) (dl : DiskLayer) : Option α :=
  (get dl.buffer).or (dl.frozen.bind fun f => get f.buffer)

/-- A read of the disk layer: the buffers, then the store. -/
def DiskLayer.read {α : Type} (get : Buffer → Option α) (blob : α → Blob) (stored : Blob)
    (dl : DiskLayer) : Except LayerError Blob :=
  if dl.stale then .error .snapshotStale
  else .ok ((dl.buffered get).elim stored blob)

def DiskLayer.account (kv : KeyValue) (hash : Hash) (dl : DiskLayer) : Except LayerError Blob :=
  dl.read (fun b => b.states.account hash) (fun blob => blob) (kv.readAccount hash)

def DiskLayer.storage (kv : KeyValue) (accountHash storageHash : Hash) (dl : DiskLayer) :
    Except LayerError Blob :=
  dl.read (fun b => b.states.storage accountHash storageHash) (fun blob => blob)
    (kv.readStorage accountHash storageHash)

def DiskLayer.node (kv : KeyValue) (owner : Hash) (path : Bytes) (dl : DiskLayer) :
    Except LayerError Blob :=
  dl.read (fun b => b.nodes.node owner path) TrieNode.blob (kv.readNode owner path)

/-- A read that goes down the parents until a diff layer has the entry.  Ids fall by one on
    the way, so the id of the first layer bounds the number of steps. -/
def walk (heap : List Layer) (own : DiffLayer → Option Blob)
    (disk : DiskLayer → Except LayerError Blob) : Nat → Ptr → Except LayerError Blob
  | 0, _ => .error .panic
  | fuel + 1, p =>
    match heap[p]? with
    | none => .error .panic
    | some (.disk dl) => disk dl
    | some (.diff dl) =>
      match own dl with
      | some blob => .ok blob
      | none => walk heap own disk fuel dl.parent

/-- The root of the layer at an address. -/
def rootAt (heap : List Layer) (p : Ptr) : Hash := (heap[p]?.map Layer.rootHash).getD 0

/-- Enough steps for a walk from `p`. -/
def depthOf (heap : List Layer) (p : Ptr) : Nat := (heap[p]?.map Layer.stateID).getD 0 + 1

namespace Memory

/-- `layer.account`. -/
def account (m : Memory) (p : Ptr) (hash : Hash) : Except LayerError Blob :=
  walk m.heap (fun dl => dl.states.account hash) (DiskLayer.account m.kv hash) (depthOf m.heap p) p

/-- `layer.storage`. -/
def storage (m : Memory) (p : Ptr) (accountHash storageHash : Hash) : Except LayerError Blob :=
  walk m.heap (fun dl => dl.states.storage accountHash storageHash)
    (DiskLayer.storage m.kv accountHash storageHash) (depthOf m.heap p) p

/-- `layer.node`, the blob of it. -/
def node (m : Memory) (p : Ptr) (owner : Hash) (path : Bytes) : Except LayerError Blob :=
  walk m.heap (fun dl => (dl.nodes.node owner path).map TrieNode.blob)
    (DiskLayer.node m.kv owner path) (depthOf m.heap p) p

/-! ### Flattening -/

def diffToDisk (cfg : Config) (early : Nat → Bool) (force : Bool) (m : Memory) (p : Ptr) :
    Except LayerError (Memory × Ptr) :=
  match m.heap[p]? with
  | some (.diff layer) =>
    match m.heap[layer.parent]? with
    | some (.disk disk) => do
      let (ndl, kv, freezer) ← disk.commit cfg (early layer.id) force m.kv m.freezer layer
      return (⟨m.heap.set layer.parent (.disk { disk with stale := true }) ++ [.disk ndl], kv,
        freezer⟩, m.heap.length)
    | _ => .error .panic
  | _ => .error .panic

/-- The assignment `dl.parent = q`. -/
def link (m : Memory) (p q : Ptr) : Memory :=
  match m.heap[p]? with
  | some (.diff dl) => { m with heap := m.heap.set p (.diff { dl with parent := q }) }
  | _ => m

/-- `diffLayer.persist`: everything from `p` down goes into the disk layer.  The first
    argument bounds the depth of the recursion. -/
def persist (cfg : Config) (early : Nat → Bool) (force : Bool) :
    Nat → Memory → Ptr → Except LayerError (Memory × Ptr)
  | 0, _, _ => .error .panic
  | fuel + 1, m, p =>
    match m.heap[p]? with
    | some (.diff dl) =>
      match m.heap[dl.parent]? with
      | some (.diff _) => do
        let (m, result) ← persist cfg early force fuel m dl.parent
        (m.link p result).diffToDisk cfg early force p
      | _ => m.diffToDisk cfg early force p
    | _ => .error .panic

end Memory

/-! ### The lookup index -/

/-- For each entry the roots of the diff layers that have it, from oldest to newest. -/
structure Lookup where
  accounts : GoMap Hash (List Hash)
  storages : GoMap (Hash × Hash) (List Hash)

namespace Lookup

def empty : Lookup := ⟨∅, ∅⟩

/-- The loop of `accountTip` and `storageTip` over the list, and the fallback to the disk
    layer.  The zero hash means that there is no such layer. -/
def tip (descendant : Hash → Hash → Bool) (list : List Hash) (stateID base : Hash) : Hash :=
  match list.reverse.find? fun e => e = stateID || descendant stateID e with
  | some e => e
  | none => if base = stateID || descendant stateID base then base else 0

def accountTip (l : Lookup) (descendant : Hash → Hash → Bool) (accountHash stateID base : Hash) :
    Hash :=
  tip descendant (GoMap.get l.accounts accountHash) stateID base

def storageTip (l : Lookup) (descendant : Hash → Hash → Bool)
    (accountHash slotHash stateID base : Hash) : Hash :=
  tip descendant (GoMap.get l.storages (accountHash, slotHash)) stateID base

/-- The entries of a state set that are slots. -/
def slotKeys (s : StateSet) : Finset (Hash × Hash) :=
  s.storageData.keys.biUnion fun a => (GoMap.get s.storageData a).keys.image fun k => (a, k)

/-- Append `state` to the lists of the keys. -/
def append {K : Type} [DecidableEq K] (m : GoMap K (List Hash)) (keys : Finset K) (state : Hash) :
    GoMap K (List Hash) :=
  GoMap.build (m.keys ∪ keys) fun k =>
    if k ∈ keys then some (GoMap.get m k ++ [state]) else m.lookup k

def addLayer (l : Lookup) (diff : DiffLayer) : Lookup where
  accounts := append l.accounts diff.states.accountData.keys diff.root
  storages := append l.storages (slotKeys diff.states.toStateSet) diff.root

/-- `removeFromList`: the list without the first occurrence. -/
def removeFromList (list : List Hash) (element : Hash) : Option (List Hash) :=
  if element ∈ list then some (list.erase element) else none

/-- The loop of `removeLayer` over some keys.  It stops at the first key whose list does not
    have the layer. -/
def unlink {K : Type} [DecidableEq K] (state : Hash) : List K → GoMap K (List Hash) →
    GoMap K (List Hash)
  | [], m => m
  | k :: ks, m =>
    match removeFromList (GoMap.get m k) state with
    | none => m
    | some list => unlink state ks (if list.length ≠ 0 then m.insert k list else m.erase k)

def removeLayer (ord : RangeOrder Hash) (l : Lookup) (diff : DiffLayer) : Lookup where
  accounts := unlink diff.root (ord.visit diff.states.accountData.keys) l.accounts
  storages := unlink diff.root ((ord.visit diff.states.storageData.keys).flatMap fun a =>
    (ord.visit (GoMap.get diff.states.storageData a).keys).map fun k => (a, k)) l.storages

end Lookup

/-! ### The layer tree -/

/-- The layers by root, with the index over them.  `base` is the disk layer. -/
structure Database extends Memory where
  base : Ptr
  layers : GoMap Hash Ptr
  /-- the descendants of each root -/
  descendants : GoMap Hash (Finset Hash)
  lookup : Lookup

/-- The roots of the layers below `p`, as `fillAncestors` meets them. -/
def ancestorRoots (heap : List Layer) : Nat → Ptr → List Hash
  | 0, _ => []
  | fuel + 1, p =>
    match heap[p]? with
    | some (.diff dl) =>
      match heap[dl.parent]? with
      | some parent => parent.rootHash :: ancestorRoots heap fuel dl.parent
      | none => []
    | _ => []

/-- `fillAncestors`, for a layer with the root `hash` over the roots `roots`. -/
def fillAncestors (descendants : GoMap Hash (Finset Hash)) (hash : Hash) (roots : List Hash) :
    GoMap Hash (Finset Hash) :=
  roots.foldl (fun d phash => d.insert phash (insert hash (GoMap.get d phash))) descendants

namespace Database

def isDescendant (db : Database) (root ancestor : Hash) : Bool :=
  root ∈ GoMap.get db.descendants ancestor

/-- `newLayerTree` over a disk layer, at the address `base`. -/
def newLayerTree (m : Memory) (base : Ptr) (dl : DiskLayer) : Database where
  toMemory := m
  base := base
  layers := Finmap.singleton dl.root base
  descendants := ∅
  lookup := Lookup.empty

def add (db : Database) (root parentRoot : Hash) (block : Nat) (nodes : NodeSetWithOrigin)
    (states : StateSetWithOrigin) : Except LayerError Database :=
  if root = parentRoot then .error .layerCycle
  else match db.layers.lookup parentRoot with
    | none => .error (.parentMissing parentRoot)
    | some q =>
      match db.heap[q]? with
      | none => .error .panic
      | some parent =>
        let l : DiffLayer := ⟨root, parent.stateID + 1, block, nodes, states, q⟩
        let p := db.heap.length
        let heap := db.heap ++ [.diff l]
        .ok { db with
          heap := heap
          layers := db.layers.insert root p
          descendants := fillAncestors db.descendants root (ancestorRoots heap (depthOf heap p) p)
          lookup := db.lookup.addLayer l }

/-- The loop of `cap` that goes `layers - 1` diff layers down. -/
def descend (heap : List Layer) : Nat → Ptr → Option Ptr
  | 0, p => some p
  | n + 1, p =>
    match heap[p]? with
    | some (.diff dl) =>
      match heap[dl.parent]? with
      | some (.diff _) => descend heap n dl.parent
      | _ => none
    | _ => none

def clearDiff (ord : RangeOrder Hash) (db : Database) : Option Layer → Database
  | some (.diff dl) => { db with lookup := db.lookup.removeLayer ord dl }
  | _ => db

/-- The body of the loop in `cap` that collects the children. -/
def addChild (heap : List Layer) (children : GoMap Hash (List Hash)) (e : Hash × Ptr) :
    GoMap Hash (List Hash) :=
  match heap[e.2]? with
  | some (.diff dl) =>
    match heap[dl.parent]? with
    | some parent => children.insert parent.rootHash (GoMap.get children parent.rootHash ++ [e.1])
    | none => children
  | _ => children

/-- The roots of the diff layers in the tree, by the root of their parent. -/
def children (ord : RangeOrder Hash) (db : Database) : GoMap Hash (List Hash) :=
  (GoMap.range ord db.layers).foldl (addChild db.heap) ∅

/-- The largest state id in the tree.  It bounds the depth of the cascade in `remove`. -/
def maxID (db : Database) : Nat :=
  db.layers.keys.sup fun root =>
    ((db.layers.lookup root).bind fun p => db.heap[p]?).elim 0 Layer.stateID

/-- The part of `remove` that unlinks the layer itself. -/
def drop (ord : RangeOrder Hash) (db : Database) (root : Hash) : Database :=
  let db := db.clearDiff ord ((db.layers.lookup root).bind fun p => db.heap[p]?)
  { db with
    descendants := db.descendants.erase root
    layers := db.layers.erase root }

/-- `remove`: unlink the layer and cascade to its children.  The first argument bounds the
    depth of the recursion. -/
def remove (ord : RangeOrder Hash) (children : GoMap Hash (List Hash)) :
    Nat → Database → Hash → Database
  | 0, db, _ => db
  | fuel + 1, db, root => (GoMap.get children root).foldl (remove ord children fuel)
      (db.drop ord root)

/-- The part of `cap` after the walk: the layers below `p` are flattened. -/
def flatten (cfg : Config) (ord : RangeOrder Hash) (early : Nat → Bool) (db : Database) (p : Ptr) :
    Except LayerError Database :=
  match db.heap[p]? with
  | some (.diff diff) =>
    match db.heap[diff.parent]? with
    | some (.diff parent) => do
      let (m, newBase) ← db.toMemory.persist cfg early false
        (depthOf db.heap diff.parent) diff.parent
      let db : Database := { db with
        toMemory := m.link p newBase
        layers := db.layers.insert (rootAt m.heap newBase) newBase }
      -- remove the old disk layer and what links into it, then the layer that was replaced
      let db := remove ord (db.children ord) (db.maxID + 1) db (rootAt db.heap db.base)
      let db := db.clearDiff ord (some (.diff parent))
      return { db with base := newBase }
    | some (.disk _) => .ok db
    | none => .error .panic
  | _ => .error .panic

def cap (cfg : Config) (ord : RangeOrder Hash) (early : Nat → Bool) (db : Database) (root : Hash)
    (layers : Nat) : Except LayerError Database :=
  match db.layers.lookup root with
  | none => .error (.layerMissing root)
  | some p =>
    match db.heap[p]? with
    | some (.diff _) =>
      if layers = 0 then do
        let (m, base) ← db.toMemory.persist cfg early true (depthOf db.heap p) p
        return {
          toMemory := m
          base := base
          layers := Finmap.singleton (rootAt m.heap base) base
          descendants := ∅
          lookup := Lookup.empty }
      else match descend db.heap (layers - 1) p with
        -- diff stack too shallow
        | none => .ok db
        | some p => db.flatten cfg ord early p
    | some (.disk _) => .error (.layerIsDisk root)
    | none => .error .panic

/-- The background flush of the disk layer comes to its end. -/
def settle (db : Database) : Database :=
  match db.heap[db.base]? with
  | some (.disk dl) =>
    let (dl, kv) := dl.settle db.kv
    { db with heap := db.heap.set db.base (.disk dl), kv := kv }
  | _ => db

/-- The last part of `lookupAccount` and `lookupStorage`. -/
def resolve (db : Database) (state tip : Hash) : Except LayerError Ptr :=
  if tip = 0 then .error (.staleState state)
  else match db.layers.lookup tip with
    | none => .error (.layerMissing tip)
    | some p => .ok p

def lookupAccount (db : Database) (accountHash state : Hash) : Except LayerError Ptr :=
  db.resolve state (db.lookup.accountTip db.isDescendant accountHash state (rootAt db.heap db.base))

def lookupStorage (db : Database) (accountHash slotHash state : Hash) : Except LayerError Ptr :=
  db.resolve state
    (db.lookup.storageTip db.isDescendant accountHash slotHash state (rootAt db.heap db.base))

end Database

end GethArb.Pathdb
