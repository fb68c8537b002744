/-
  **Trie nodes** (`trie/node.go`, `trie/node_enc.go`, `trie/encoding.go`,
  `trie/hasher.go`): key encodings, the in-memory nodes with their cached hashes, the
  decoder of node blobs and the hasher.

  A hex key is a word over `Fin 17`, with 16 as terminator.  A nil interface is the
  constructor `nil`.  The hasher writes the hashes it computes into the nodes; here it
  returns the node it leaves.  `none` is a panic.  In the source the children of the
  root are hashed by goroutines of their own when there are many changes; every child is
  hashed by itself, so the order does not matter.
-/
import GethArb.Rlp
import GethArb.Patricia

namespace GethArb.MPT

/-! ### Key encodings -/

abbrev Nibble := Fin (16 + 1)

abbrev Path := List Nibble

instance (priority := 2000) neZero : NeZero (16 + 1) := ⟨by decide⟩

/-- The two nibbles of a byte. -/
def nibbles (b : UInt8) : Path :=
  [⟨b.toNat / 16, by have := b.toNat_lt; omega⟩, ⟨b.toNat % 16, by omega⟩]

/-- `keybytesToHex`: the nibbles of the key and the terminator. -/
def keybytesToHex (str : Bytes) : Path := str.flatMap nibbles ++ [16]

def hasTerm (s : Path) : Bool := s.getLast? = some 16

/-- `decodeNibbles`: two nibbles to a byte. -/
def decodeNibbles : Path → Bytes
  | a :: b :: rest => UInt8.ofNat (a.val <<< 4 ||| b.val) :: decodeNibbles rest
  | _ => []

/-- The compact form of nibbles without terminator, under the terminator flag. -/
def compactNibbles (terminator : Nat) (hex : Path) : Bytes :=
  if hex.length % 2 = 1 then
    -- odd flag, and the first nibble is contained in the first byte
    match hex with
    | x :: hex => UInt8.ofNat (terminator <<< 5 ||| 1 <<< 4 ||| x.val) :: decodeNibbles hex
    | [] => []
  else UInt8.ofNat (terminator <<< 5) :: decodeNibbles hex

def hexToCompact (hex : Path) : Bytes :=
  if hasTerm hex then compactNibbles 1 hex.dropLast else compactNibbles 0 hex

def compactToHex (compact : Bytes) : Path :=
  match compact with
  | [] => []
  | b :: _ =>
    let base := keybytesToHex compact
    let flag := b.toNat / 16
    -- delete terminator flag
    let base := if flag < 2 then base.dropLast else base
    -- apply odd flag
    base.drop (2 - flag % 2)

/-! ### Nodes -/

structure NodeFlag where
  /-- cached hash of the node -/
  hash : Option Hash
  /-- whether the node has changes that must be written to the database -/
  dirty : Bool
deriving DecidableEq, Repr

def newFlag : NodeFlag := ⟨none, true⟩

inductive Node where
  | nil
  | full (children : Nibble → Node) (flags : NodeFlag)
  | short (key : Path) (val : Node) (flags : NodeFlag)
  | hash (h : Hash)
  | value (v : Bytes)

instance : Inhabited Node := ⟨.nil⟩

def Node.isNil : Node → Bool
  | .nil => true
  | _ => false

@[simp] theorem Node.isNil_iff {n : Node} : n.isNil = true ↔ n = .nil := by
  cases n <;> simp [Node.isNil]

def Node.isHash : Node → Bool
  | .hash _ => true
  | _ => false

/-- `cache`: the cached hash and the dirty flag. -/
def Node.cache : Node → Option Hash × Bool
  | .full _ flags => (flags.hash, flags.dirty)
  | .short _ _ flags => (flags.hash, flags.dirty)
  | _ => (none, true)

/-! ### Decoding -/

/-- `common.BytesToHash` on 32 bytes. -/
def bytesToHash (b : Bytes) : Hash := BitVec.ofNat 256 (ofBytesBE b)

inductive NodeError where
  | unexpectedEOF
  | decode (err : Rlp.Error)
  | elements (count : Nat)
  | rlp (err : Rlp.Error)
  | valueNode (err : Rlp.Error)
  | oversized (size : Nat)
  | stringSize (size : Nat)
  | wrapped (ctx : String) (err : NodeError)
deriving DecidableEq, Repr

def wrapError {α : Type} (ctx : String) : Except NodeError α → Except NodeError α
  | .ok x => .ok x
  | .error err => .error (.wrapped ctx err)

def fromRlp {α : Type} (f : Rlp.Error → NodeError) : Except Rlp.Error α → Except NodeError α
  | .ok x => .ok x
  | .error err => .error (f err)

section
-- the decoder of embedded nodes
variable (decodeNode : Bytes → Except NodeError Node)

/-- `decodeRef`: nothing, a hash, or an embedded node. -/
def decodeRef (buf : Bytes) : Except NodeError (Node × Bytes) := do
  let (kind, val, rest) ← fromRlp .rlp (Rlp.split buf)
  if kind = .list then
    let size := buf.length - rest.length
    if size > 32 then .error (.oversized size)
    else do
      let n ← decodeNode buf
      .ok (n, rest)
  else if kind = .string ∧ val.length = 0 then .ok (.nil, rest)
  else if kind = .string ∧ val.length = 32 then .ok (.hash (bytesToHash val), rest)
  else .error (.stringSize val.length)

def decodeShort (hash : Option Hash) (elems : Bytes) : Except NodeError Node := do
  let (kbuf, rest) ← fromRlp .rlp (Rlp.splitString elems)
  let flag : NodeFlag := ⟨hash, false⟩
  let key := compactToHex kbuf
  if hasTerm key then do
    let (val, _) ← fromRlp .valueNode (Rlp.splitString rest)
    .ok (.short key (.value val) flag)
  else do
    let (r, _) ← wrapError "val" (decodeRef decodeNode rest)
    .ok (.short key r flag)

/-- The loop of `decodeFull` over the children `i, i + 1, …`, `count` of them. -/
def decodeChildren (i : Nat) : Nat → Bytes → Except NodeError (List Node × Bytes)
  | 0, elems => .ok ([], elems)
  | count + 1, elems => do
    let (cld, rest) ← wrapError ("[" ++ toString i ++ "]") (decodeRef decodeNode elems)
    let (clds, rest) ← decodeChildren (i + 1) count rest
    .ok (cld :: clds, rest)

def decodeFull (hash : Option Hash) (elems : Bytes) : Except NodeError Node := do
  let (clds, elems) ← decodeChildren decodeNode 0 16 elems
  let (val, _) ← fromRlp .rlp (Rlp.splitString elems)
  let last : Node := if val.length > 0 then .value val else .nil
  .ok (.full (fun i => if i = 16 then last else clds.getD i .nil) ⟨hash, false⟩)

end

/-- `decodeNodeUnsafe`.  An embedded node is shorter than the node it is in, so the length
    of the blob bounds the depth. -/
def decodeLoop : Nat → Option Hash → Bytes → Except NodeError Node
  | 0, _, _ => .error .unexpectedEOF
  | fuel + 1, hash, buf => do
    if buf.length = 0 then .error .unexpectedEOF
    else do
      let (elems, _) ← fromRlp .decode (Rlp.splitList buf)
      match (Rlp.countValues elems).toOption.getD 0 with
      | 2 => wrapError "short" (decodeShort (decodeLoop fuel none) hash elems)
      | 17 => wrapError "full" (decodeFull (decodeLoop fuel none) hash elems)
      | c => .error (.elements c)

def decodeNode (hash : Option Hash) (buf : Bytes) : Except NodeError Node :=
  decodeLoop (buf.length + 1) hash buf

/-! ### Hashing -/

/-- `leafNodeEncoder.encode`. -/
def leafEncode (key val : Bytes) : Bytes :=
  Rlp.encodeList (Rlp.encodeBytes key ++ Rlp.encodeBytes val)

/-- `extNodeEncoder.encode`: a raw node or a hash below the key. -/
def extEncode (key val : Bytes) : Bytes :=
  Rlp.encodeList (Rlp.encodeBytes key ++
    if val = [] then Rlp.emptyString
    else if val.length < 32 then val
    else Rlp.encodeBytes val)

/-- One child of a full node as `fullnodeEncoder.encode` writes it. -/
def childEncode (i : Nibble) (c : Bytes) : Bytes :=
  if c.length = 0 then Rlp.emptyString
  else if i = 16 ∨ 32 ≤ c.length then Rlp.encodeBytes c
  else c

/-- `fullnodeEncoder.encode`. -/
def fullEncode (children : Nibble → Bytes) : Bytes :=
  Rlp.encodeList ((List.finRange (16 + 1)).map fun i => childEncode i (children i)).flatten

/-- All results, unless one is missing. -/
def sequence {n : Nat} {α : Type} (f : Fin n → Option α) : Option (Fin n → α) :=
  if h : ∀ i, (f i).isSome then some fun i => (f i).get (h i) else none

/-- A small node is kept as it is, a larger one (and the root) by its hash, which is
    cached in the node. -/
def sealRef [Crypto] (force : Bool) (enc : Bytes) (flags : NodeFlag) : Bytes × NodeFlag :=
  if enc.length < 32 ∧ force = false then (enc, flags)
  else (hashBytes (keccak256 enc), { flags with hash := some (keccak256 enc) })

/-- The type assertion `n.(valueNode)`. -/
def Node.asValue : Node → Option Bytes
  | .value v => some v
  | _ => none

/-- `hasher.hash`: the reference to a node, and the node with the hashes cached. -/
def hashNode [Crypto] : Node → Bool → Option (Bytes × Node)
  | .short key val flags, force =>
    match flags.hash with
    | some h => some (hashBytes h, .short key val flags)
    | none =>
      if hasTerm key then
        val.asValue.map fun v =>
          let (ref, flags) := sealRef force (leafEncode (hexToCompact key) v) flags
          (ref, .short key val flags)
      else
        (hashNode val false).map fun child =>
          let (ref, flags) := sealRef force (extEncode (hexToCompact key) child.1) flags
          (ref, .short key child.2 flags)
  | .full children flags, force =>
    match flags.hash with
    | some h => some (hashBytes h, .full children flags)
    | none =>
      (sequence fun i =>
        if (children i).isNil then some ([], .nil)
        else if i = 16 then (children i).asValue.map fun v => (v, children i)
        else hashNode (children i) false).map fun hashed =>
          let (ref, flags) := sealRef force (fullEncode fun i => (hashed i).1) flags
          (ref, .full (fun i => (hashed i).2) flags)
  | .hash h, _ => some (hashBytes h, .hash h)
  | .nil, _ => none
  | .value _, _ => none

end GethArb.MPT
