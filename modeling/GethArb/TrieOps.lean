/-
  **The trie** (`trie/trie.go`, `trie/tracer.go`, `trie/trie_reader.go`): reading,
  inserting and deleting on nodes that are loaded from the database when they are met.

  Full nodes are changed in place.  A call that fails can therefore leave the trie other
  than it was: an outcome with an error carries the node that is left in memory.  The
  path to a node and what is left of the key are two arguments, where `get` of the source
  has the whole key and a position.  `none` is a panic; the fuel bounds the depth of the
  recursion, which takes at least one nibble of the key on every second call.
-/
import GethArb.TrieNode

namespace GethArb.MPT

open Patricia (prefixLen)

/-! ### Tracers -/

structure OpTracer where
  inserts : Finset Path
  deletes : Finset Path
deriving DecidableEq

def OpTracer.onInsert (t : OpTracer) (path : Path) : OpTracer :=
  if path ∈ t.deletes then { t with deletes := t.deletes.erase path }
  else { t with inserts := insert path t.inserts }

def OpTracer.onDelete (t : OpTracer) (path : Path) : OpTracer :=
  if path ∈ t.inserts then { t with inserts := t.inserts.erase path }
  else { t with deletes := insert path t.deletes }

/-- `opTracer` and `PrevalueTracer` of a trie. -/
structure Tracers where
  ops : OpTracer
  prevalues : GoMap Path Bytes

def newTracers : Tracers := ⟨⟨∅, ∅⟩, ∅⟩

def Tracers.onInsert (t : Tracers) (path : Path) : Tracers :=
  { t with ops := t.ops.onInsert path }

def Tracers.onDelete (t : Tracers) (path : Path) : Tracers :=
  { t with ops := t.ops.onDelete path }

/-- `PrevalueTracer.Put`. -/
def Tracers.put (t : Tracers) (path : Path) (val : Bytes) : Tracers :=
  { t with prevalues := t.prevalues.insert path val }

/-! ### Reading from the database -/

/-- The database, by path and hash, for the owner of the trie. -/
abbrev Reader := Path → Hash → Option Bytes

inductive TrieError where
  | missing (path : Path) (hash : Hash)
  | decode (err : NodeError)
  | committed
deriving DecidableEq

/-- `Reader.Node`: an empty blob counts as missing. -/
def Reader.node (r : Reader) (path : Path) (hash : Hash) : Except TrieError Bytes :=
  match r path hash with
  | some (b :: blob) => .ok (b :: blob)
  | _ => .error (.missing path hash)

section
variable (r : Reader)

def resolveAndTrack (h : Hash) (path : Path) (tr : Tracers) : Except TrieError Node × Tracers :=
  match r.node path h with
  | .error e => (.error e, tr)
  | .ok blob =>
    match decodeNode (some h) blob with
    | .error e => (.error (.decode e), tr.put path blob)
    | .ok n => (.ok n, tr.put path blob)

def resolve (n : Node) (path : Path) (tr : Tracers) : Except TrieError Node × Tracers :=
  match n with
  | .hash h => resolveAndTrack r h path tr
  | n => (.ok n, tr)

/-! ### Get -/

/-- `get`: the value, the node with what was loaded, and whether anything was. -/
def get : Nat → Node → Path → Path → Tracers →
    Option (Except TrieError (Option Bytes × Node × Bool) × Tracers)
  | 0, _, _, _, _ => none
  | fuel + 1, n, pre, key, tr =>
    match n with
    | .nil => some (.ok (none, .nil, false), tr)
    | .value v => some (.ok (some v, .value v, false), tr)
    | .short nkey val flags =>
      if nkey <+: key then do
        let (res, tr) ← get fuel val (pre ++ nkey) (key.drop nkey.length) tr
        match res with
        | .error e => some (.error e, tr)
        | .ok (value, newnode, didResolve) =>
          some (.ok (value, .short nkey (if didResolve then newnode else val) flags, didResolve),
            tr)
      else some (.ok (none, n, false), tr)
    | .full children flags =>
      match key with
      | [] => none
      | a :: key => do
        let (res, tr) ← get fuel (children a) (pre ++ [a]) key tr
        match res with
        | .error e => some (.error e, tr)
        | .ok (value, newnode, didResolve) =>
          let children := if didResolve then Function.update children a newnode else children
          some (.ok (value, .full children flags, didResolve), tr)
    | .hash h =>
      match resolveAndTrack r h pre tr with
      | (.error e, tr) => some (.error e, tr)
      | (.ok child, tr) => do
        let (res, tr) ← get fuel child pre key tr
        match res with
        | .error e => some (.error e, tr)
        | .ok (value, newnode, _) => some (.ok (value, newnode, true), tr)

/-! ### Insert and delete -/

/-- What `insert` and `delete` return.  After an error, `left` is what is in memory in the
    place of the node that was passed. -/
inductive Outcome where
  | ok (dirty : Bool) (n : Node)
  | err (e : TrieError) (left : Node)

/-- A full node with two children. -/
def branchNode (a : Nibble) (n : Node) (b : Nibble) (m : Node) : Node :=
  .full (Function.update (Function.update (fun _ => .nil) a n) b m) newFlag

def insert : Nat → Node → Path → Path → Node → Tracers → Option (Outcome × Tracers)
  | 0, _, _, _, _, _ => none
  | fuel + 1, n, pre, key, value, tr =>
    if key = [] then
      match n, value with
      | .value v, .value w => some (.ok (v ≠ w) value, tr)
      | .value _, _ => none
      | _, _ => some (.ok true value, tr)
    else
      match n with
      | .short nkey val flags =>
        let matchlen := prefixLen key nkey
        if matchlen = nkey.length then do
          let (out, tr) ← insert fuel val (pre ++ key.take matchlen) (key.drop matchlen) value tr
          match out with
          | .err e left => some (.err e (.short nkey left flags), tr)
          | .ok false _ => some (.ok false n, tr)
          | .ok true nn => some (.ok true (.short nkey nn newFlag), tr)
        else
          -- branch out at the index where they differ
          match nkey.drop matchlen, key.drop matchlen with
          | a :: nrest, b :: rest => do
            let (out, tr) ← insert fuel .nil (pre ++ nkey.take (matchlen + 1)) nrest val tr
            match out with
            | .err e _ => some (.err e n, tr)
            | .ok _ n₁ => do
              let (out, tr) ← insert fuel .nil (pre ++ key.take (matchlen + 1)) rest value tr
              match out with
              | .err e _ => some (.err e n, tr)
              | .ok _ n₂ =>
                if matchlen = 0 then some (.ok true (branchNode a n₁ b n₂), tr)
                else some (.ok true (.short (key.take matchlen) (branchNode a n₁ b n₂) newFlag),
                  tr.onInsert (pre ++ key.take matchlen))
          | _, _ => none
      | .full children flags =>
        match key with
        | [] => none
        | a :: key => do
          let (out, tr) ← insert fuel (children a) (pre ++ [a]) key value tr
          match out with
          | .err e left => some (.err e (.full (Function.update children a left) flags), tr)
          | .ok false _ => some (.ok false n, tr)
          | .ok true nn => some (.ok true (.full (Function.update children a nn) newFlag), tr)
      | .nil => some (.ok true (.short key value newFlag), tr.onInsert pre)
      | .hash h =>
        match resolveAndTrack r h pre tr with
        | (.error e, tr) => some (.err e n, tr)
        | (.ok rn, tr) => do
          let (out, tr) ← insert fuel rn pre key value tr
          match out with
          -- the loaded node is dropped
          | .err e _ => some (.err e n, tr)
          | .ok false _ => some (.ok false rn, tr)
          | .ok true nn => some (.ok true nn, tr)
      | .value _ => none

/-- The indices of the children that are left. -/
def occupiedNodes (children : Nibble → Node) : List Nibble :=
  (List.finRange (16 + 1)).filter fun i => !(children i).isNil

/-- The end of `delete` on a full node that lost a child: with one child left it becomes
    a short node, and a short node below is merged into it. -/
def reduce (children : Nibble → Node) (pre : Path) (tr : Tracers) : Outcome × Tracers :=
  match occupiedNodes children with
  | [pos] =>
    if pos ≠ 16 then
      match resolve r (children pos) (pre ++ [pos]) tr with
      | (.error e, tr) => (.err e (.full children newFlag), tr)
      | (.ok (.short ckey cval _), tr) =>
        (.ok true (.short (pos :: ckey) cval newFlag), tr.onDelete (pre ++ [pos]))
      | (.ok _, tr) => (.ok true (.short [pos] (children pos) newFlag), tr)
    else (.ok true (.short [pos] (children pos) newFlag), tr)
  | _ => (.ok true (.full children newFlag), tr)

def delete : Nat → Node → Path → Path → Tracers → Option (Outcome × Tracers)
  | 0, _, _, _, _ => none
  | fuel + 1, n, pre, key, tr =>
    match n with
    | .short nkey val flags =>
      let matchlen := prefixLen key nkey
      if matchlen < nkey.length then some (.ok false n, tr)
      else if matchlen = key.length then some (.ok true .nil, tr.onDelete pre)
      else do
        let (out, tr) ← delete fuel val (pre ++ key.take nkey.length) (key.drop nkey.length) tr
        match out with
        | .err e left => some (.err e (.short nkey left flags), tr)
        | .ok false _ => some (.ok false n, tr)
        | .ok true (.short ckey cval _) =>
          some (.ok true (.short (nkey ++ ckey) cval newFlag), tr.onDelete (pre ++ nkey))
        | .ok true child => some (.ok true (.short nkey child newFlag), tr)
    | .full children flags =>
      match key with
      | [] => none
      | a :: key => do
        let (out, tr) ← delete fuel (children a) (pre ++ [a]) key tr
        match out with
        | .err e left => some (.err e (.full (Function.update children a left) flags), tr)
        | .ok false _ => some (.ok false n, tr)
        | .ok true nn =>
          if nn.isNil then some (reduce r (Function.update children a nn) pre tr)
          else some (.ok true (.full (Function.update children a nn) newFlag), tr)
    | .value _ => some (.ok true .nil, tr)
    | .nil => some (.ok false .nil, tr)
    | .hash h =>
      match resolveAndTrack r h pre tr with
      | (.error e, tr) => some (.err e n, tr)
      | (.ok rn, tr) => do
        let (out, tr) ← delete fuel rn pre key tr
        match out with
        -- the loaded node is dropped, with what was done to it
        | .err e _ => some (.err e n, tr)
        | .ok false _ => some (.ok false rn, tr)
        | .ok true nn => some (.ok true nn, tr)

end

/-! ### The trie -/

structure Trie where
  root : Node
  committed : Bool
  unhashed : Nat
  uncommitted : Nat
  reader : Reader
  tracers : Tracers

/-- `New`. -/
def newTrie (root : Hash) (r : Reader) : Except TrieError Trie :=
  if root ≠ 0 ∧ root ≠ emptyRootHash then
    match resolveAndTrack r root [] newTracers with
    | (.error e, _) => .error e
    | (.ok n, tr) => .ok ⟨n, false, 0, 0, r, tr⟩
  else .ok ⟨.nil, false, 0, 0, r, newTracers⟩

/-- Enough passes for a key. -/
def depth (key : Path) : Nat := 2 * key.length + 2

def Trie.get (t : Trie) (key : Bytes) : Option (Except TrieError (Option Bytes) × Trie) :=
  if t.committed then some (.error .committed, t)
  else do
    let k := keybytesToHex key
    let (res, tr) ← MPT.get t.reader (depth k) t.root [] k t.tracers
    match res with
    | .error e => some (.error e, { t with tracers := tr })
    | .ok (value, newroot, didResolve) =>
      some (.ok value, { t with root := if didResolve then newroot else t.root, tracers := tr })

/-- The end of `update` and `Delete`: the new root, unless there was an error. -/
def Trie.settle (t : Trie) (res : Outcome × Tracers) : Except TrieError Unit × Trie :=
  match res with
  | (.err e left, tr) => (.error e, { t with root := left, tracers := tr })
  | (.ok _ n, tr) => (.ok (), { t with root := n, tracers := tr })

def Trie.delete (t : Trie) (key : Bytes) : Option (Except TrieError Unit × Trie) :=
  if t.committed then some (.error .committed, t)
  else do
    let t := { t with uncommitted := t.uncommitted + 1, unhashed := t.unhashed + 1 }
    let k := keybytesToHex key
    let res ← MPT.delete t.reader (depth k) t.root [] k t.tracers
    some (t.settle res)

/-- `Update`: an empty value deletes. -/
def Trie.update (t : Trie) (key value : Bytes) : Option (Except TrieError Unit × Trie) :=
  if t.committed then some (.error .committed, t)
  else do
    let t := { t with unhashed := t.unhashed + 1, uncommitted := t.uncommitted + 1 }
    let k := keybytesToHex key
    if value.length ≠ 0 then do
      let res ← insert t.reader (depth k) t.root [] k (.value value) t.tracers
      some (t.settle res)
    else do
      let res ← MPT.delete t.reader (depth k) t.root [] k t.tracers
      some (t.settle res)

def Trie.hash [Crypto] (t : Trie) : Option (Hash × Trie) :=
  if t.root.isNil then some (emptyRootHash, t)
  else do
    let (h, root) ← hashNode t.root true
    some (bytesToHash h, { t with root := root, unhashed := 0 })

end GethArb.MPT
