/-
  **The chain database** (`core/rawdb/accessors_chain.go`, `accessors_indexes.go`,
  `core/blockchain_reader.go`; `core/blockchain.go`: `writeHeadBlock`): headers and bodies by
  hash, the canonical number-to-hash markers, the transaction lookup entries and the hashes
  of the heads.

  A header carries its hash.  Headers are stored under their number and hash, so a read
  with another number finds nothing.  Numbers are natural numbers; at number zero the source
  asks for the parent at `2 ^ 64 - 1`, where no block is.  The caches of headers, blocks and
  lookups hold what the database holds and are left out, as is the freezer.

  `Tree` says that the ancestors of every stored block are stored.  Ancestry is that of
  `Forest`, with `parent` as the way up.
-/
import GethArb.LayerForest
import GethArb.RlpTypes

namespace GethArb.Chain

open Rlp Forest Option

structure Header where
  hash : Hash
  parentHash : Hash
  number : Nat
  root : Hash
deriving DecidableEq, Repr

/-- A header and the hashes of the transactions. -/
structure Block where
  header : Header
  transactions : List Hash
deriving DecidableEq, Repr

structure ChainDb where
  headers : GoMap Hash Header
  bodies : GoMap Hash (List Hash)
  canonicalHash : GoMap Nat Hash
  txLookup : GoMap Hash Bytes
  headHeaderHash : Hash
  headFastBlockHash : Hash
  headBlockHash : Hash
  currentBlock : Header

structure LegacyTxLookupEntry where
  blockHash : Hash
  blockIndex : U64
  index : U64

open TypeInfo Fields in
def LegacyTxLookupEntry.info : TypeInfo LegacyTxLookupEntry :=
  (struct <| cons TypeInfo.hash <| cons uint64 <| last uint64).view
    (fun entry => (entry.blockHash, entry.blockIndex, entry.index))
    (fun (blockHash, blockIndex, index) => ⟨blockHash, blockIndex, index⟩)

variable {n : Nat} {b : Block} (db : ChainDb)

namespace ChainDb

/-! ### Reads -/

def getHeader (db : ChainDb) (hash : Hash) (number : Nat) : Option Header :=
  match db.headers.lookup hash with
  | none => none
  | some header => if header.number = number then some header else none

def getBlock (db : ChainDb) (hash : Hash) (number : Nat) : Option Block := do
  let header ← db.getHeader hash number
  let transactions ← db.bodies.lookup hash
  some ⟨header, transactions⟩

/-- `GetHeader(h.ParentHash, h.Number-1)`. -/
def parent (db : ChainDb) (h : Header) : Option Header :=
  if h.number = 0 then none else db.getHeader h.parentHash (h.number - 1)

/-- The zero hash stands for no marker. -/
def readCanonicalHash (db : ChainDb) (number : Nat) : Hash :=
  (db.canonicalHash.lookup number).getD 0

def getBlockByNumber (db : ChainDb) (number : Nat) : Option Block :=
  if db.readCanonicalHash number = 0 then none
  else db.getBlock (db.readCanonicalHash number) number

/-- `GetBlock(b.ParentHash(), b.NumberU64()-1)`. -/
def parentBlock (db : ChainDb) (b : Block) : Option Block :=
  if b.header.number = 0 then none else db.getBlock b.header.parentHash (b.header.number - 1)

def decodeTxLookupEntry (db : ChainDb) (data : Bytes) : Option Nat :=
  if data.length < 32 then some (ofBytesBE data % 2 ^ 64)
  else if data.length = 32 then
    -- `ReadHeaderNumber`
    (db.headers.lookup (BitVec.ofNat 256 (ofBytesBE data))).map Header.number
  else (decodeBytes LegacyTxLookupEntry.info data).toOption.map (·.blockIndex.toNat)

def readTxLookupEntry (db : ChainDb) (tx : Hash) : Option Nat :=
  match db.txLookup.lookup tx with
  | none => none
  | some data => if data.length = 0 then none else db.decodeTxLookupEntry data

/-! ### Writes -/

/-- `WriteTxLookupEntriesByBlock`: the number without leading zeros. -/
def writeTxLookupEntriesByBlock (db : ChainDb) (block : Block) : ChainDb :=
  { db with
    txLookup := block.transactions.foldl
      (fun m tx => m.insert tx (intBytes block.header.number)) db.txLookup }

def writeHeadBlock (db : ChainDb) (block : Block) : ChainDb :=
  let db := db.writeTxLookupEntriesByBlock block
  { db with
    headHeaderHash := block.header.hash
    headFastBlockHash := block.header.hash
    canonicalHash := db.canonicalHash.insert block.header.number block.header.hash
    headBlockHash := block.header.hash
    currentBlock := block.header }

@[simp] theorem headers_writeHeadBlock (block : Block) :
    (db.writeHeadBlock block).headers = db.headers := rfl

theorem canonicalHash_writeHeadBlock (block : Block) (n : Nat) :
    (db.writeHeadBlock block).canonicalHash.lookup n =
      if n = block.header.number then some block.header.hash else db.canonicalHash.lookup n :=
  GoMap.lookup_insert_ite ..

theorem txLookup_writeHeadBlock (block : Block) (tx : Hash) :
    (db.writeHeadBlock block).txLookup.lookup tx =
      if tx ∈ block.transactions then some (intBytes block.header.number)
      else db.txLookup.lookup tx :=
  GoMap.lookup_foldl_insert ..

variable {db : ChainDb}

/-- A number that was written is read back; zero is not, since it has no bytes. -/
theorem readTxLookupEntry_of_lookup {tx : Hash} (hpos : n ≠ 0) (hn : n < 2 ^ 64)
    (h : db.txLookup.lookup tx = some (intBytes n)) : db.readTxLookupEntry tx = some n := by
  have hlen : (intBytes n).length ≤ 8 := length_intBytes_le (n := 8) (by omega)
  have hne : (intBytes n).length ≠ 0 := by
    rw [intBytes, if_neg hpos, length_putint]
    exact (intsize_pos n).ne'
  simp only [readTxLookupEntry, h, if_neg hne, decodeTxLookupEntry,
    if_pos (show (intBytes n).length < 32 by omega), ofBytesBE_intBytes, Nat.mod_eq_of_lt hn]

/-! ### Block trees -/

/-- The header is stored. -/
def Stored (db : ChainDb) (h : Header) : Prop := db.headers.lookup h.hash = some h

/-- The transactions of a stored block. -/
def transactionsOf (db : ChainDb) (h : Header) : List Hash := (db.bodies.lookup h.hash).getD []

/-- All blocks and their ancestors are stored, under their own hashes.  No block has the zero
    hash or the last number. -/
structure Tree (db : ChainDb) : Prop where
  hash_eq : ∀ {k h}, db.headers.lookup k = some h → h.hash = k
  hash_ne_zero : ∀ {h}, db.Stored h → h.hash ≠ 0
  number_lt : ∀ {h}, db.Stored h → h.number + 1 < 2 ^ 64
  parent : ∀ {h}, db.Stored h → h.number ≠ 0 → ∃ p, db.parent h = some p
  body : ∀ {h}, db.Stored h → ∃ transactions, db.bodies.lookup h.hash = some transactions

variable {h p a : Header}

theorem getHeader_eq_some {hash : Hash} {number : Nat} :
    db.getHeader hash number = some h ↔ db.headers.lookup hash = some h ∧ h.number = number := by
  unfold getHeader
  cases hlookup : db.headers.lookup hash with
  | none => simp
  | some header =>
    simp only [ite_none_right_eq_some, Option.some.injEq]
    constructor
    · rintro ⟨hnumber, rfl⟩
      exact ⟨rfl, hnumber⟩
    · rintro ⟨rfl, hnumber⟩
      exact ⟨hnumber, rfl⟩

theorem stored_of_getBlock (hb : db.getBlock b.header.hash b.header.number = some b) :
    db.Stored b.header := by
  obtain ⟨header, hheader, hb⟩ := bind_eq_some_iff.mp hb
  obtain ⟨transactions, -, hb⟩ := bind_eq_some_iff.mp hb
  have hlookup := (getHeader_eq_some.mp hheader).1
  cases hb
  exact hlookup

/-- Numbers go down by one. -/
theorem number_parent (hp : db.parent h = some p) : p.number + 1 = h.number := by
  unfold parent at hp
  split at hp
  · cases hp
  · have hnumber := (getHeader_eq_some.mp hp).2
    omega

theorem number_lt_of_parent (h p : Header) (hp : db.parent h = some p) : p.number < h.number := by
  have := number_parent hp
  omega

theorem number_le_of_via (ha : Via db.parent h a) : a.number ≤ h.number := by
  rcases ha with rfl | ha
  · exact le_rfl
  · exact (ha.rank_lt number_lt_of_parent).le

theorem number_lt_of_anc (ha : Anc db.parent h a) : a.number < h.number :=
  ha.rank_lt number_lt_of_parent

/-- A block has one ancestor at each number. -/
theorem eq_of_number_eq {b : Header} (ha : Via db.parent h a) (hb : Via db.parent h b)
    (hnumber : a.number = b.number) : a = b := by
  rcases ha.linear hb with (rfl | hab) | hba
  · rfl
  · have := number_lt_of_anc hab
    omega
  · have := number_lt_of_anc hba
    omega

/-- Headers are stored under their own hashes. -/
def Keyed (db : ChainDb) : Prop := ∀ k h, db.headers.lookup k = some h → h.hash = k

theorem Keyed.stored_parent (hkeyed : db.Keyed) (hp : db.parent h = some p) : db.Stored p := by
  unfold parent at hp
  split at hp
  · cases hp
  · have hlookup := (getHeader_eq_some.mp hp).1
    have hhash := hkeyed _ _ hlookup
    unfold Stored
    rwa [hhash]

theorem Keyed.hash_of_getBlock (hkeyed : db.Keyed) {hash : Hash} {number : Nat}
    (hb : db.getBlock hash number = some b) : b.header.hash = hash := by
  obtain ⟨header, hheader, hb⟩ := bind_eq_some_iff.mp hb
  obtain ⟨transactions, -, hb⟩ := bind_eq_some_iff.mp hb
  cases hb
  exact hkeyed _ _ (getHeader_eq_some.mp hheader).1

theorem Keyed.stored_via (hkeyed : db.Keyed) (hh : db.Stored h) (ha : Via db.parent h a) :
    db.Stored a := by
  rcases ha with rfl | ha
  · exact hh
  · obtain ⟨b, -, hb⟩ := Relation.TransGen.tail'_iff.mp ha
    exact hkeyed.stored_parent hb

theorem eq_of_hash_eq {h' : Header} (hh : db.Stored h) (hh' : db.Stored h')
    (heq : h.hash = h'.hash) : h = h' := by
  unfold Stored at hh hh'
  rw [heq, hh'] at hh
  exact (Option.some.inj hh).symm

namespace Tree

variable {db : ChainDb} (htree : db.Tree)
include htree

theorem keyed : db.Keyed := fun _ _ => htree.hash_eq

theorem stored_parent (hp : db.parent h = some p) : db.Stored p :=
  htree.keyed.stored_parent hp

theorem stored_via (hh : db.Stored h) (ha : Via db.parent h a) : db.Stored a :=
  htree.keyed.stored_via hh ha

/-- There is an ancestor at every number below. -/
theorem exists_via_number (hh : db.Stored h) (hn : n ≤ h.number) :
    ∃ a, Via db.parent h a ∧ a.number = n := by
  obtain ⟨k, hk⟩ : ∃ k, h.number = n + k := ⟨h.number - n, by omega⟩
  induction k generalizing h with
  | zero => exact ⟨h, Via.refl h, hk⟩
  | succ k ih =>
    obtain ⟨p, hp⟩ := htree.parent hh (by omega)
    have hnumber := number_parent hp
    obtain ⟨a, ha, han⟩ := ih (htree.stored_parent hp) (by omega) (by omega)
    exact ⟨a, Via.trans (Or.inr (Anc.of_up hp)) ha, han⟩

theorem getBlock_eq (hh : db.Stored h) :
    db.getBlock h.hash h.number = some ⟨h, db.transactionsOf h⟩ := by
  obtain ⟨transactions, hbody⟩ := htree.body hh
  have hheader : db.getHeader h.hash h.number = some h := getHeader_eq_some.mpr ⟨hh, rfl⟩
  simp [getBlock, hheader, hbody, transactionsOf]

end Tree

/-! ### The canonical index -/

/-- The markers record the ancestry of `head` and nothing above it. -/
structure Indexed (db : ChainDb) (head : Header) : Prop where
  marker : ∀ {a}, Via db.parent head a → db.canonicalHash.lookup a.number = some a.hash
  above : ∀ {n}, head.number < n → db.canonicalHash.lookup n = none

namespace Indexed

variable {db : ChainDb} {head : Header} (hindex : db.Indexed head) (htree : db.Tree)
variable (hhead : db.Stored head)
include hindex htree hhead

theorem getBlockByNumber_of_via (ha : Via db.parent head a) :
    db.getBlockByNumber a.number = some ⟨a, db.transactionsOf a⟩ := by
  have hstored := htree.stored_via hhead ha
  have hread : db.readCanonicalHash a.number = a.hash := by
    rw [readCanonicalHash, hindex.marker ha, getD_some]
  rw [getBlockByNumber, hread, if_neg (htree.hash_ne_zero hstored), htree.getBlock_eq hstored]

/-- The block found at a number is the ancestor of the head at that number. -/
theorem via_of_getBlockByNumber (hb : db.getBlockByNumber n = some b) :
    Via db.parent head b.header ∧ b.header.number = n ∧
      b.transactions = db.transactionsOf b.header := by
  have hle : n ≤ head.number := by
    by_contra hlt
    rw [getBlockByNumber, readCanonicalHash, hindex.above (by omega)] at hb
    cases hb
  obtain ⟨a, ha, rfl⟩ := htree.exists_via_number hhead hle
  rw [hindex.getBlockByNumber_of_via htree hhead ha] at hb
  cases hb
  exact ⟨ha, rfl, rfl⟩

end Indexed

end ChainDb

end GethArb.Chain
