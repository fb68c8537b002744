/-
  **The stack trie** (`trie/stacktrie.go`): a trie for keys that come in ascending order.
  What lies to the left of the last key gets no more keys; it is hashed at once, and only
  the reference to it is kept.  The nodes are reported to a callback as they are hashed.

  The buffers and pools of the source hold copies and are left out.  A node is a value here,
  and `nil` is a nil pointer; the calls of the callback are kept in a list.  Only the
  conversion of a key to its compact form in place is modelled on the buffer it works on.
-/
import GethArb.TrieCommit

namespace GethArb.MPT

/-! ### Keys -/

/-- `writeHexKey`: no terminator.  It panics on an empty key. -/
def writeHexKey (key : Bytes) : Option Path := if key = [] then none else some (key.flatMap nibbles)

/-- The loop of `hexToCompactInPlace`. -/
def compactLoop (hexLen : Nat) : Nat → Bytes → Nat → Nat → Bytes
  | 0, hex, _, _ => hex
  | fuel + 1, hex, ni, bi =>
    if ni < hexLen then
      compactLoop hexLen fuel
        (hex.set bi (UInt8.ofNat ((hex.getD ni 0).toNat <<< 4 ||| (hex.getD (ni + 1) 0).toNat)))
        (ni + 2) (bi + 1)
    else hex

/-- `hexToCompactInPlace`, on the buffer that holds the nibbles.  It panics on an empty
    buffer. -/
def hexToCompactInPlace (hex : Bytes) : Option Bytes :=
  if hex = [] then none
  else
    let term := hex.getLast? = some 16
    let hexLen := if term then hex.length - 1 else hex.length
    let odd := hexLen % 2 = 1
    let firstByte := UInt8.ofNat ((if term then 1 <<< 5 else 0) |||
      (if odd then 1 <<< 4 ||| (hex.getD 0 0).toNat else 0))
    let hex := compactLoop hexLen hexLen hex (if odd then 1 else 0) 1
    some ((hex.set 0 firstByte).take (hexLen / 2 + 1))

/-- The bytes of a path. -/
def pathBytes (p : Path) : Bytes := p.map fun a => UInt8.ofNat a.val

/-! ### Nodes -/

/-- `stNode`.  The child 16 of a branch is never set. -/
inductive StNode where
  | nil
  | empty
  | branch (children : Nibble → StNode)
  | ext (key : Path) (child : StNode)
  | leaf (key : Path) (val : Bytes)
  | hashed (val : Bytes)

def StNode.isNil : StNode → Bool
  | .nil => true
  | _ => false

/-- One call of `OnTrieNode`. -/
structure Emission where
  path : Path
  hash : Hash
  blob : Bytes
deriving DecidableEq

section
variable [Crypto]

/-- The end of `hash`: a small blob is kept as it is, unless it is the root's. -/
def emitBlob (path : Path) (blob : Bytes) : Bytes × List Emission :=
  if blob.length < 32 ∧ 0 < path.length then (blob, [])
  else (hashBytes (keccak256 blob), [⟨path, keccak256 blob, blob⟩])

/-- One child in the loop of `hash` on a branch. -/
def hashChild (children : Nibble → StNode) (f : Nibble → Option (Bytes × List Emission))
    (done : (Nibble → Bytes) × List Emission) (i : Nibble) :
    Option ((Nibble → Bytes) × List Emission) :=
  if (children i).isNil then some done
  else (f i).map fun res => (Function.update done.1 i res.1, done.2 ++ res.2)

/-- `StackTrie.hash`: the value of the hashed node, and what is reported. -/
def stHash : StNode → Path → Option (Bytes × List Emission)
  | .hashed val, _ => some (val, [])
  | .empty, _ => some (hashBytes emptyRootHash, [])
  | .branch children, path =>
    (childIndices.foldlM (hashChild children fun i => stHash (children i) (path ++ [i]))
      (fun _ => [], [])).map fun res =>
        let (val, out) := emitBlob path (fullEncode res.1)
        (val, res.2 ++ out)
  | .ext key child, path =>
    (stHash child (path ++ key)).bind fun res =>
      (hexToCompactInPlace (pathBytes key)).map fun key =>
        let (val, out) := emitBlob path (extEncode key res.1)
        (val, res.2 ++ out)
  | .leaf key val, path =>
    (hexToCompactInPlace (pathBytes (key ++ [16]))).map fun key => emitBlob path
      (leafEncode key val)
  | .nil, _ => none

/-! ### Insertion -/

/-- `getDiffIndex`: it panics if the key ends before the chunk of the node. -/
def getDiffIndex : Path → Path → Option Nat
  | [], _ => some 0
  | _ :: _, [] => none
  | a :: nkey, b :: key => if a ≠ b then some 0 else (getDiffIndex nkey key).map (· + 1)

/-- The nearest child before `idx`. -/
def elder (children : Nibble → StNode) (idx : Nibble) : Option Nibble :=
  ((List.finRange (16 + 1)).reverse.filter (· < idx)).find? fun i => !(children i).isNil

/-- Unresolve elder siblings: the nearest one is hashed. -/
def hashElder (children : Nibble → StNode) (idx : Nibble) (path : Path) :
    Option ((Nibble → StNode) × List Emission) :=
  match elder children idx with
  | none => some (children, [])
  | some i =>
    (stHash (children i) (path ++ [i])).map fun res =>
      (Function.update children i (.hashed res.1), res.2)

/-- A chunk that is split at `diffidx`: the part of the node below the split is hashed, and
    the new leaf is put next to it. -/
def splitNode (nkey key : Path) (value : Bytes) (diffidx : Nat) (val : Bytes) : Option StNode :=
  match nkey.drop diffidx, key.drop diffidx with
  | origIdx :: _, newIdx :: rest =>
    let p := .branch (Function.update (Function.update (fun _ => .nil) origIdx (.hashed val)) newIdx
      (.leaf rest value))
    some (if diffidx = 0 then p else .ext (nkey.take diffidx) p)
  | _, _ => none

/-- `StackTrie.insert`. -/
def stInsert : StNode → Path → Bytes → Path → Option (StNode × List Emission)
  | .branch children, key, value, path =>
    match key with
    | [] => none
    | idx :: key => do
      let (elders, out) ← hashElder children idx path
      if (children idx).isNil then
        some (.branch (Function.update elders idx (.leaf key value)), out)
      else do
        let (child, out') ← stInsert (children idx) key value (path ++ [idx])
        some (.branch (Function.update elders idx child), out ++ out')
  | .ext nkey child, key, value, path => do
    let diffidx ← getDiffIndex nkey key
    if diffidx = nkey.length then do
      let (child, out) ← stInsert child (key.drop diffidx) value (path ++ key.take diffidx)
      some (.ext nkey child, out)
    else do
      let (val, out) ←
        stHash (if diffidx < nkey.length - 1 then .ext (nkey.drop (diffidx + 1)) child else child)
          (path ++ nkey.take (diffidx + 1))
      let n ← splitNode nkey key value diffidx val
      some (n, out)
  | .leaf nkey val, key, value, path => do
    let diffidx ← getDiffIndex nkey key
    if nkey.length ≤ diffidx then none
    else do
      let (val, out) ← stHash (.leaf (nkey.drop (diffidx + 1)) val)
        (path ++ nkey.take (diffidx + 1))
      let n ← splitNode nkey key value diffidx val
      some (n, out)
  | .empty, key, value, _ => some (.leaf key value, [])
  | .hashed _, _, _, _ => none
  | .nil, _, _, _ => none

end

/-! ### The trie -/

inductive StackError where
  | empty
  | order
deriving DecidableEq

structure StackTrie where
  root : StNode
  last : Path
  emitted : List Emission

def newStackTrie : StackTrie := ⟨.empty, [], []⟩

section
variable [Crypto]

/-- `StackTrie.Update`. -/
def StackTrie.update (t : StackTrie) (key value : Bytes) :
    Option (Except StackError Unit × StackTrie) :=
  if value.length = 0 then some (.error .empty, t)
  else do
    let k ← writeHexKey key
    if ¬ t.last < k then some (.error .order, t)
    else do
      let (root, out) ← stInsert t.root k value []
      some (.ok (), { root := root, last := k, emitted := t.emitted ++ out })

/-- `StackTrie.Hash`. -/
def StackTrie.hash (t : StackTrie) : Option (Hash × StackTrie) := do
  let (val, out) ← stHash t.root []
  some (bytesToHash val, { t with root := .hashed val, emitted := t.emitted ++ out })

end

end GethArb.MPT
