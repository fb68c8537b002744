/-
  **The data the state package works on**: addresses, hashes, account records
  (`core/types/state_account.go`), logs, Stylus targets
  (`core/rawdb/accessors_state_arbitrum.go`) and the two interfaces below the
  `StateDB`, the `Reader` of one state root and the `Database` that opens tries.

  Keccak-256 is a parameter (`Crypto`): the development never looks inside it.
  Tries are represented by their contents.  An account trie is a map from the
  hash of an address to the account, a storage trie a map from the hash of a
  slot key to its (non-zero) value; the functions that turn contents into root
  hashes are parameters of `Database`.
-/
import GethArb.GoRuntime

namespace GethArb

open List

/-! ### Addresses, hashes, bytes -/

/-- `common.Address`, 20 bytes. -/
abbrev Address := BitVec 160

/-- `common.Hash`, 32 bytes. -/
abbrev Hash := BitVec 256

instance : LawfulBEq Hash := inferInstance

abbrev Bytes := List UInt8

/-- The `n` low bytes of `x`, most significant first. -/
def bytesBE (n x : Nat) : Bytes :=
  (List.range n).map fun i => UInt8.ofNat (x >>> (8 * (n - 1 - i)))

/-- The number a byte string denotes, most significant byte first. -/
def ofBytesBE (bs : Bytes) : Nat :=
  bs.foldl (fun acc b => acc * 256 + b.toNat) 0

theorem bytesBE_succ (n x : Nat) : bytesBE (n + 1) x = bytesBE n (x / 256) ++ [UInt8.ofNat x] := by
  unfold bytesBE
  rw [range_succ, map_append]
  congr 1
  · refine map_congr_left fun i hi => ?_
    have hi := mem_range.mp hi
    rw [show 8 * (n + 1 - 1 - i) = 8 + 8 * (n - 1 - i) by omega, Nat.shiftRight_add,
      Nat.shiftRight_eq_div_pow x 8]
  · simp

/-- Reading back the bytes of a number. -/
theorem ofBytesBE_bytesBE (n x : Nat) : ofBytesBE (bytesBE n x) = x % 256 ^ n := by
  induction n generalizing x with
  | zero => simp [bytesBE, ofBytesBE, Nat.mod_one]
  | succ n ih =>
    have hsplit : x % 256 ^ (n + 1) = x % 256 + 256 * (x / 256 % 256 ^ n) := by
      rw [Nat.pow_succ', Nat.mod_mul]
    rw [bytesBE_succ]
    unfold ofBytesBE at ih ⊢
    rw [foldl_append, ih, foldl_cons, foldl_nil, UInt8.toNat_ofNat']
    omega

def addressBytes (a : Address) : Bytes := bytesBE 20 a.toNat

def hashBytes (h : Hash) : Bytes := bytesBE 32 h.toNat

/-- The hash function of the chain (`crypto.Keccak256Hash`). -/
class Crypto where
  keccak256 : Bytes → Hash

export Crypto (keccak256)

/-- A hash function for concrete runs: a byte string as a number.  It is injective on
    addresses and on slot keys. -/
@[reducible] def numberCrypto : Crypto where
  keccak256 bs := BitVec.ofNat 256 (ofBytesBE bs)

/-- `types.EmptyRootHash`, the root of the empty trie. -/
def emptyRootHash : Hash := 0x56e81f171bcc55a6ff8345e692c0f86e5b48e01b996cadc001622fb5e363b421#256

section
variable [Crypto]

def emptyCodeHash : Hash := keccak256 []

/-- The key of an account in the account trie. -/
def addrHash (a : Address) : Hash := keccak256 (addressBytes a)

/-- The key of a slot in a storage trie. -/
def slotHash (key : Hash) : Hash := keccak256 (hashBytes key)

end

/-! ### Accounts -/

structure StateAccount where
  nonce : U64
  balance : U256
  root : Hash
  codeHash : Hash
deriving DecidableEq, Repr

def newEmptyStateAccount [Crypto] : StateAccount where
  nonce := 0
  balance := 0
  root := emptyRootHash
  codeHash := emptyCodeHash

/-- `types.SlimAccount`: the empty root and the empty code hash are left out. -/
structure SlimAccount where
  nonce : U64
  balance : U256
  root : Option Hash
  codeHash : Option Hash
deriving DecidableEq, Repr

/-- `types.SlimAccountRLP`, up to the byte encoding of the slim record. -/
def slimAccountRLP [Crypto] (account : StateAccount) : SlimAccount where
  nonce := account.nonce
  balance := account.balance
  root := if account.root = emptyRootHash then none else some account.root
  codeHash := if account.codeHash = emptyCodeHash then none else some account.codeHash

/-- `types.FullAccount`, on decoded slim records. -/
def fullAccount [Crypto] (slim : SlimAccount) : StateAccount where
  nonce := slim.nonce
  balance := slim.balance
  root := slim.root.getD emptyRootHash
  codeHash := slim.codeHash.getD emptyCodeHash

@[simp] theorem fullAccount_slimAccountRLP [Crypto] (account : StateAccount) :
    fullAccount (slimAccountRLP account) = account := by
  obtain ⟨nonce, balance, root, codeHash⟩ := account
  simp only [fullAccount, slimAccountRLP, StateAccount.mk.injEq, true_and]
  constructor
  · split <;> simp_all
  · split <;> simp_all

/-- `types.Log`, with the fields the `StateDB` reads or writes. -/
structure Log where
  address : Address
  topics : List Hash
  data : Bytes
  blockNumber : U64 := 0
  txHash : Hash := 0
  txIndex : U64 := 0
  blockHash : Hash := 0
  blockTimestamp : U64 := 0
  index : U64 := 0
deriving DecidableEq, Repr

/-! ### Stylus modules -/

inductive WasmTarget where
  | wasm
  | wavm
  | arm64
  | amd64
  | host
  | arm64Cranelift
  | amd64Cranelift
  | hostCranelift
deriving DecidableEq, Repr

/-- `rawdb.CraneliftTarget`; `none` is its error. -/
def craneliftTarget : WasmTarget → Option WasmTarget
  | .arm64 => some .arm64Cranelift
  | .amd64 => some .amd64Cranelift
  | .host => some .hostCranelift
  | _ => none

/-- `rawdb.BaseTarget`; `none` is its error. -/
def baseTarget : WasmTarget → Option WasmTarget
  | .arm64Cranelift => some .arm64
  | .amd64Cranelift => some .amd64
  | .hostCranelift => some .host
  | _ => none

/-- `state.ActivatedWasm`: the compiled module per target. -/
abbrev ActivatedWasm := GoMap WasmTarget Bytes

/-- `hasAsmForTarget`: a cranelift key stands in for its base target and the
    other way round. -/
def hasAsmForTarget (asmMap : ActivatedWasm) (target : WasmTarget) : Bool :=
  decide (target ∈ asmMap) ||
    (match craneliftTarget target with
      | some t => decide (t ∈ asmMap)
      | none => false) ||
    match baseTarget target with
      | some t => decide (t ∈ asmMap)
      | none => false

/-! ### Readers and databases -/

/-- The errors `StateDB.setError` is called with, one constructor per call. -/
inductive DBError where
  | getStateObject (addr : Address) (cause : String)
  | readStorage (cause : String)
  | loadCode (codeHash : Hash) (cause : String)
  | codeNotFound (codeHash : Hash)
  | loadCodeSize (codeHash : Hash) (cause : String)
  | openTrie (cause : String)
  | openStorageTrie (cause : String)
  | updateStorage (cause : String)
  | updateStateObject (addr : Address) (cause : String)
  | deleteStateObject (addr : Address) (cause : String)
deriving DecidableEq, Repr

/-- `state.Reader`: accounts, slots and codes as of one state root. -/
structure Reader where
  account : Address → Except String (Option StateAccount)
  storage : Address → Hash → Except String Hash
  code : Address → Hash → Except String Bytes
  codeSize : Address → Hash → Except String Nat

/-- The reader of the empty state. -/
def Reader.empty : Reader where
  account _ := .ok none
  storage _ _ := .ok 0
  code _ _ := .ok []
  codeSize _ _ := .ok 0

/-- A trie by its contents.  A committed trie accepts no further writes
    (`trie.ErrCommitted`). -/
structure Trie (V : Type) where
  content : GoMap Hash V
  committed : Bool := false

namespace Trie

variable {V : Type}

/-- `UpdateAccount` and `UpdateStorage`. -/
def update (tr : Trie V) (key : Hash) (value : V) : Except String (Trie V) :=
  if tr.committed then .error "trie is already committed"
  else .ok { tr with content := tr.content.insert key value }

/-- `DeleteAccount` and `DeleteStorage`. -/
def delete (tr : Trie V) (key : Hash) : Except String (Trie V) :=
  if tr.committed then .error "trie is already committed"
  else .ok { tr with content := tr.content.erase key }

/-- `Commit`, up to the node set it returns. -/
def commit (tr : Trie V) : Trie V := { tr with committed := true }

/-- Deleting a list of keys from an open trie. -/
theorem foldlM_delete {κ : Type} (f : κ → Hash) (ks : List κ) {tr : Trie V}
    (h : tr.committed = false) :
    ∃ tr', ks.foldlM (fun tr k => tr.delete (f k)) tr = .ok tr' ∧ tr'.committed = false ∧
      (∀ k ∈ ks, tr'.content.lookup (f k) = none) ∧
      ∀ x, (∀ k ∈ ks, f k ≠ x) → tr'.content.lookup x = tr.content.lookup x := by
  induction ks generalizing tr with
  | nil => exact ⟨tr, rfl, h, fun _ hk => absurd hk not_mem_nil, fun _ _ => rfl⟩
  | cons k ks ih =>
    have hdelete : tr.delete (f k) = .ok { tr with content := tr.content.erase (f k) } := by
      simp [delete, h]
    obtain ⟨tr', hloop, hopen, hgone, hkept⟩ :=
      @ih { tr with content := tr.content.erase (f k) } h
    refine ⟨tr', ?_, hopen, fun j hj => ?_, fun x hx => ?_⟩
    · rw [foldlM_cons, hdelete]
      exact hloop
    · rcases mem_cons.mp hj with rfl | hj
      · by_cases hlater : ∃ i ∈ ks, f i = f j
        · obtain ⟨i, hi, hij⟩ := hlater
          rw [← hij]
          exact hgone i hi
        · rw [hkept (f j) fun i hi hij => hlater ⟨i, hi, hij⟩]
          exact Finmap.lookup_erase _ _
      · exact hgone j hj
    · rw [hkept x fun i hi => hx i (mem_cons_of_mem _ hi)]
      exact Finmap.lookup_erase_ne (Ne.symm (hx k mem_cons_self))

end Trie

/-- `state.Database` over Merkle tries: tries by root, root hashes of contents,
    and the flat snapshot of the storage of an account where one is maintained. -/
structure Database where
  openTrie : Hash → Except String (GoMap Hash StateAccount)
  openStorageTrie : Hash → Address → Hash → Except String (GoMap Hash Hash)
  hashTrie : GoMap Hash StateAccount → Hash
  hashStorageTrie : GoMap Hash Hash → Hash
  snapshot : Option (Hash → Hash → Except String (GoMap Hash Hash))
  wasmStore : Bool

/-- A database that knows the empty tries only. -/
def Database.empty : Database where
  openTrie _ := .ok ∅
  openStorageTrie _ _ _ := .ok ∅
  hashTrie _ := emptyRootHash
  hashStorageTrie _ := emptyRootHash
  snapshot := none
  wasmStore := false

end GethArb
