/-
  **Committing a trie** (`trie/committer.go`, `trie/trienode/node.go` and `Commit` of
  `trie/trie.go`): the dirty nodes are collapsed from below, and each one that is a node of
  its own is added to a node set with its blob and the blob the database had at its path.
  Nodes that are gone, and nodes that are embedded now, are added as deleted.

  The committer turns the keys of the short nodes into their compact form in place.  A
  collapsed node is a type of its own here, with byte keys; the trie cannot be used after
  `Commit`.  Node sets have no owner: all sets of one trie have the same.
-/
import GethArb.TrieOps

namespace GethArb.MPT

/-! ### Node sets -/

/-- `trienode.Node`: the blob of a deleted node is empty. -/
structure NodeBlob where
  hash : Hash
  blob : Bytes
deriving DecidableEq

def NodeBlob.isDeleted (n : NodeBlob) : Bool := n.blob.length = 0

structure NodeWithPrev extends NodeBlob where
  prev : Bytes
deriving DecidableEq

def newNodeWithPrev (hash : Hash) (blob prev : Bytes) : NodeWithPrev := ⟨⟨hash, blob⟩, prev⟩

def newDeletedWithPrev (prev : Bytes) : NodeWithPrev := ⟨⟨0, []⟩, prev⟩

structure NodeSet where
  /-- the hash of the parent and the value -/
  leaves : List (Hash × Bytes)
  nodes : GoMap Path NodeBlob
  origins : GoMap Path Bytes
  updates : Nat
  deletes : Nat

def newNodeSet : NodeSet := ⟨[], ∅, ∅, 0, 0⟩

def NodeSet.addNode (set : NodeSet) (path : Path) (n : NodeWithPrev) : NodeSet :=
  let set := if n.isDeleted then { set with deletes := set.deletes + 1 }
    else { set with updates := set.updates + 1 }
  { set with nodes := set.nodes.insert path n.toNodeBlob,
             origins := set.origins.insert path n.prev }

def NodeSet.addLeaf (set : NodeSet) (parent : Hash) (blob : Bytes) : NodeSet :=
  { set with leaves := set.leaves ++ [(parent, blob)] }

def NodeSet.mergeDisjoint (set other : NodeSet) : NodeSet where
  nodes := other.nodes ∪ set.nodes
  origins := other.origins ∪ set.origins
  deletes := set.deletes + other.deletes
  updates := set.updates + other.updates
  leaves := set.leaves ++ other.leaves

/-! ### The committer -/

/-- A node as the committer leaves it. -/
inductive Collapsed where
  | nil
  | full (children : Nibble → Collapsed)
  | short (key : Bytes) (val : Collapsed)
  | hash (h : Hash)
  | value (v : Bytes)

/-- `nodeToBytes`. -/
def Collapsed.encode : Collapsed → Bytes
  | .nil => Rlp.emptyString
  | .full children =>
    Rlp.encodeList ((List.finRange (16 + 1)).map fun i => (children i).encode).flatten
  | .short key val => Rlp.encodeList (Rlp.encodeBytes key ++ val.encode)
  | .hash h => Rlp.encodeBytes (hashBytes h)
  | .value v => Rlp.encodeBytes v

/-- A node that the committer does not touch. -/
def Node.raw : Node → Collapsed
  | .nil => .nil
  | .full children _ => .full fun i => (children i).raw
  | .short key val _ => .short (key.map fun a => UInt8.ofNat a.val) val.raw
  | .hash h => .hash h
  | .value v => .value v

def Node.isFull : Node → Bool
  | .full _ _ => true
  | _ => false

/-- A node with a hash that is not dirty is in the database. -/
def NodeFlag.clean (flags : NodeFlag) : Option Hash :=
  if flags.dirty then none else flags.hash

section
variable (tracer : GoMap Path Bytes) (collectLeaf : Bool)

/-- `PrevalueTracer.Get`. -/
def prevalue (path : Path) : Bytes := (tracer.lookup path).getD []

/-- `committer.store`, for a node with the cached hash `hash`. -/
def store (path : Path) (n : Collapsed) (hash : Option Hash) (set : NodeSet) :
    Collapsed × NodeSet :=
  match hash with
  | none =>
    -- embedded in its parent: deleted if the database had a node here
    let origin := prevalue tracer path
    (n, if origin.length ≠ 0 then set.addNode path (newDeletedWithPrev origin) else set)
  | some h =>
    let set := set.addNode path (newNodeWithPrev h n.encode (prevalue tracer path))
    match n with
    | .short _ (.value v) => (.hash h, if collectLeaf then set.addLeaf h v else set)
    | _ => (.hash h, set)

/-- The children that `commitChildren` leaves as they are. -/
def Node.skipped (n : Node) : Bool := n.isNil || n.isHash

/-- One pass of the loop of `commitChildren`: `f` commits a child. -/
def commitChild (children : Nibble → Node) (f : Nibble → NodeSet → Option (Collapsed × NodeSet))
    (done : (Nibble → Collapsed) × NodeSet) (i : Nibble) :
      Option ((Nibble → Collapsed) × NodeSet) :=
  if (children i).skipped then some done
  else (f i done.2).map fun res => (Function.update done.1 i res.1, res.2)

def commitEach (children : Nibble → Node) (f : Nibble → NodeSet → Option (Collapsed × NodeSet))
    (order : List Nibble) (set : NodeSet) : Option ((Nibble → Collapsed) × NodeSet) :=
  order.foldlM (commitChild children f) (fun i => (children i).raw, set)

/-- The children `0` to `15`. -/
def childIndices : List Nibble := (List.finRange 16).map Fin.castSucc

/-- `committer.commit`, one thread. -/
def commit : Node → Path → NodeSet → Option (Collapsed × NodeSet)
  | .short key val flags, path, set =>
    match flags.clean with
    | some h => some (.hash h, set)
    | none =>
      (if val.isFull then commit val (path ++ key) set else some (val.raw, set)).map fun res =>
        store tracer collectLeaf path (.short (hexToCompact key) res.1) flags.hash res.2
  | .full children flags, path, set =>
    match flags.clean with
    | some h => some (.hash h, set)
    | none =>
      (commitEach children (fun i set => commit (children i) (path ++ [i]) set) childIndices
        set).map fun res => store tracer collectLeaf path (.full res.1) flags.hash res.2
  | .hash h, _, set => some (.hash h, set)
  | .nil, _, _ => none
  | .value _, _, _ => none

/-- `committer.commit` on the root.  In parallel there is a goroutine for each child of a
    full node, which commits into a set of its own; the sets are merged in the order of
    `schedule`. -/
def commitTop (parallel : Bool) (schedule : List Nibble) (n : Node) (set : NodeSet) :
    Option (Collapsed × NodeSet) :=
  match parallel, n with
  | true, .full children flags =>
    match flags.clean with
    | some h => some (.hash h, set)
    | none =>
      (commitEach children (fun i set =>
        (commit tracer collectLeaf (children i) [i] newNodeSet).map fun res =>
          (res.1, set.mergeDisjoint res.2)) schedule set).map fun res =>
            store tracer collectLeaf [] (.full res.1) flags.hash res.2
  | _, n => commit tracer collectLeaf n [] set

/-- `committer.Commit`. -/
def commitRoot (parallel : Bool) (schedule : List Nibble) (n : Node) (set : NodeSet) :
    Option (Hash × NodeSet) :=
  match commitTop tracer collectLeaf parallel schedule n set with
  | some (.hash h, set) => some (h, set)
  | _ => none

end

/-! ### Commit -/

def Trie.deletedNodes (t : Trie) (ord : RangeOrder Path) : List Path :=
  (ord.visit t.tracers.ops.deletes).filter fun path => path ∈ t.tracers.prevalues

/-- The deletions, added to a new set. -/
def Trie.deletedSet (t : Trie) (ord : RangeOrder Path) : NodeSet :=
  (t.deletedNodes ord).foldl
    (fun set path => set.addNode path (newDeletedWithPrev (prevalue t.tracers.prevalues path)))
    newNodeSet

/-- `Commit`, with one thread or with several.  No set is returned if nothing changed. -/
def Trie.commitWith [Crypto] (parallel : Bool) (ord : RangeOrder Path) (schedule : List Nibble)
    (t : Trie) (collectLeaf : Bool) : Option ((Hash × Option NodeSet) × Trie) :=
  if t.root.isNil then
    some ((emptyRootHash,
      if (t.deletedNodes ord).length = 0 then none else some (t.deletedSet ord)),
      { t with committed := true })
  else do
    let (rootHash, t) ← t.hash
    let (hash, dirty) := t.root.cache
    if !dirty then
      some ((rootHash, none), { t with root := hash.elim .nil .hash, committed := true })
    else do
      let (root, set) ← commitRoot t.tracers.prevalues collectLeaf parallel schedule t.root
        (t.deletedSet ord)
      some ((rootHash, some set),
        { t with root := .hash root, uncommitted := 0, committed := true })

/-- `Commit`: several threads after more than 100 changes. -/
def Trie.commit [Crypto] (ord : RangeOrder Path) (schedule : List Nibble) (t : Trie)
    (collectLeaf : Bool) : Option ((Hash × Option NodeSet) × Trie) :=
  t.commitWith (100 < t.uncommitted) ord schedule collectLeaf

end GethArb.MPT
