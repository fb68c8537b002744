/-
  **Chain reorganisation** (`core/blockchain.go`: `reorg`, `writeKnownBlock`;
  `core/types/transaction.go`: `HashDifference`).

  `reorg` walks both heads down to the common block, writes every new block but the head
  with `writeHeadBlock`, deletes the lookup entries of the transactions that are gone, and
  deletes the canonical markers above the last block it wrote, scanning upwards until there
  is none.  The new head is left to the caller.  So between the two the transactions of the
  new head may have lost their entries; `writeHeadBlock` puts them back.

  `reorg_restores_index` is the result of both together.  `Run.consistent` carries the
  markers over any sequence of insertions and calls of `writeKnownBlock`, none of which fails
  (`Consistent.writeKnownBlock`).  `SetCanonical` around it is in `LiveChain.lean`.

  Log events, metrics and the recovery of missing states are left out.  A failed database
  write ends the process, so writes do not fail here.
-/
import GethArb.ChainDb

namespace GethArb.Chain

open Rlp Forest List GoMap Finmap ChainDb Via Way

inductive ReorgError where
  | invalidOldChain
  | invalidNewChain
deriving DecidableEq, Repr

/-- `HashDifference`: the hashes of `a` that are not in `b`. -/
def hashDifference (a b : List Hash) : List Hash := a.filter (· ∉ b)

variable {h : Header} {chain : List Header} {n : Nat} {block : Block}

namespace ChainDb

/-! ### The search for the common block -/

/-- The loop that takes the longer chain down to `target`: the headers it passes, and the one
    it stops at, or nil.  The first argument is the number of the header. -/
def reduce (db : ChainDb) (target : Nat) : Nat → Header → List Header × Option Header
  | 0, h => if h.number = target then ([], some h) else ([h], none)
  | fuel + 1, h =>
    if h.number = target then ([], some h)
    else match db.parent h with
      | none => ([h], none)
      | some p =>
        let (chain, last) := db.reduce target fuel p
        (h :: chain, last)

/-- The loop that takes both chains down: what it passes on either side, and the common
    block.  The first argument is the number of the headers. -/
def findCommon (db : ChainDb) : Nat → Header → Header →
    Except ReorgError (List Header × List Header × Header)
  | 0, oldHead, newHead =>
    if oldHead.hash = newHead.hash then .ok ([], [], oldHead) else .error .invalidOldChain
  | fuel + 1, oldHead, newHead =>
    if oldHead.hash = newHead.hash then .ok ([], [], oldHead)
    else match db.parent oldHead, db.parent newHead with
      | none, _ => .error .invalidOldChain
      | some _, none => .error .invalidNewChain
      | some oldParent, some newParent => do
        let (oldChain, newChain, commonBlock) ← db.findCommon fuel oldParent newParent
        .ok (oldHead :: oldChain, newHead :: newChain, commonBlock)

/-- The blocks to drop, the blocks to add, heads first, and the common block. -/
def fork (db : ChainDb) (oldHead newHead : Header) :
    Except ReorgError (List Header × List Header × Header) :=
  if oldHead.number > newHead.number then
    match db.reduce newHead.number oldHead.number oldHead with
    | (_, none) => .error .invalidOldChain
    | (dropped, some oldHead) => do
      let (oldChain, newChain, commonBlock) ← db.findCommon oldHead.number oldHead newHead
      .ok (dropped ++ oldChain, newChain, commonBlock)
  else
    match db.reduce oldHead.number newHead.number newHead with
    | (_, none) => .error .invalidNewChain
    | (added, some newHead) => do
      let (oldChain, newChain, commonBlock) ← db.findCommon oldHead.number oldHead newHead
      .ok (oldChain, added ++ newChain, commonBlock)

/-! ### The change of the indexes -/

/-- The transactions of the dropped blocks. -/
def collectDeleted (db : ChainDb) : List Header → Except ReorgError (List Hash)
  | [] => .ok []
  | h :: rest =>
    match db.getBlock h.hash h.number with
    | none => .error .invalidOldChain
    | some block => do
      let txs ← db.collectDeleted rest
      .ok (block.transactions ++ txs)

/-- The loop over the new blocks, lowest first: the database and the transactions. -/
def applyNew (db : ChainDb) (rebirthTxs : List Hash) :
    List Header → Except ReorgError (ChainDb × List Hash)
  | [] => .ok (db, rebirthTxs)
  | h :: rest =>
    match db.getBlock h.hash h.number with
    | none => .error .invalidNewChain
    | some block => (db.writeHeadBlock block).applyNew (rebirthTxs ++ block.transactions) rest

/-- The scan for markers from `i` on.  Every pass finds a marker, so there are no more passes
    than markers. -/
def markersFrom (db : ChainDb) : Nat → Nat → List Nat
  | 0, _ => []
  | fuel + 1, i => if db.readCanonicalHash i = 0 then [] else i :: db.markersFrom fuel (i + 1)

/-- The number of the last block `reorg` has written, or of the common block. -/
def lastWritten (newChain : List Header) (commonBlock : Header) : Nat :=
  match newChain with
  | _ :: second :: _ => second.number
  | _ => commonBlock.number

/-- The batch at the end. -/
def deleteIndexes (db : ChainDb) (txs : List Hash) (number : Nat) : ChainDb :=
  let markers := db.markersFrom (db.canonicalHash.keys.card + 1) (number + 1)
  { db with
    txLookup := txs.foldl (fun m tx => m.erase tx) db.txLookup
    canonicalHash := markers.foldl (fun m n => m.erase n) db.canonicalHash }

def reorg (db : ChainDb) (oldHead newHead : Header) : Except ReorgError ChainDb := do
  let (oldChain, newChain, commonBlock) ← db.fork oldHead newHead
  let deletedTxs ← db.collectDeleted oldChain
  let (db, rebirthTxs) ← db.applyNew [] newChain.tail.reverse
  .ok (db.deleteIndexes (hashDifference deletedTxs rebirthTxs) (lastWritten newChain commonBlock))

/-- `writeKnownBlock`.  The other callers of `reorg` have the same lines. -/
def writeKnownBlock (db : ChainDb) (head : Block) : Except ReorgError ChainDb :=
  if head.header.parentHash ≠ db.currentBlock.hash then do
    let db ← db.reorg db.currentBlock head.header
    .ok (db.writeHeadBlock head)
  else .ok (db.writeHeadBlock head)

/-! ### The common block -/

variable {db : ChainDb}

theorem way_of_reduce {target fuel : Nat} {c : Header}
    (hreduce : db.reduce target fuel h = (chain, some c)) :
    Way db.parent h chain c ∧ c.number = target := by
  fun_induction reduce db target fuel h generalizing chain with
  | case1 h hnumber | case3 fuel h hnumber =>
    cases hreduce
    exact ⟨nil _, hnumber⟩
  | case2 | case4 => cases hreduce
  | case5 fuel h hnumber p hp rest last hrest ih =>
    cases hreduce
    obtain ⟨hway, hnumber⟩ := ih hrest
    exact ⟨cons hp hway, hnumber⟩

/-- From two headers at the same number, the search passes different headers at each
    number. -/
theorem way_of_findCommon (hkeyed : db.Keyed) {fuel : Nat} {oldHead newHead c : Header}
    {oldChain newChain : List Header} (hold : db.Stored oldHead) (hnew : db.Stored newHead)
    (hnumber : oldHead.number = newHead.number)
    (hfind : db.findCommon fuel oldHead newHead = .ok (oldChain, newChain, c)) :
    Way db.parent oldHead oldChain c ∧ Way db.parent newHead newChain c ∧
      ∀ x ∈ oldChain, x ∉ newChain := by
  fun_induction findCommon db fuel oldHead newHead generalizing oldChain newChain with
  | case1 oldHead newHead hhash | case3 fuel oldHead newHead hhash =>
    cases hfind
    rw [eq_of_hash_eq hold hnew hhash]
    exact ⟨nil _, nil _, nofun⟩
  | case2 | case4 | case5 => cases hfind
  | case6 fuel oldHead newHead hhash oldParent newParent hnp hop ih =>
    obtain ⟨⟨oldRest, newRest, c'⟩, hrest, hfind⟩ := bind_eq_ok.mp hfind
    cases hfind
    have hopNumber := number_parent hop
    have hnpNumber := number_parent hnp
    obtain ⟨hoWay, hnWay, hdisjoint⟩ := ih (hkeyed.stored_parent hop)
      (hkeyed.stored_parent hnp) (by omega) hrest
    refine ⟨cons hop hoWay, cons hnp hnWay, ?_⟩
    have hne : oldHead ≠ newHead := fun heq => hhash (congrArg Header.hash heq)
    exact disjoint_cons number_lt_of_parent hop hnp hoWay hnWay hne hnumber hdisjoint

theorem way_of_fork (hkeyed : db.Keyed) {oldHead newHead c : Header}
    {oldChain newChain : List Header} (hold : db.Stored oldHead) (hnew : db.Stored newHead)
    (hfork : db.fork oldHead newHead = .ok (oldChain, newChain, c)) :
    Way db.parent oldHead oldChain c ∧ Way db.parent newHead newChain c ∧
      ∀ x ∈ oldChain, x ∉ newChain := by
  unfold fork at hfork
  split at hfork
  · split at hfork
    · cases hfork
    rename_i dropped oldHead' hreduce
    obtain ⟨⟨oldRest, newRest, c'⟩, hfind, hfork⟩ := bind_eq_ok.mp hfork
    cases hfork
    obtain ⟨hway, hnumber⟩ := way_of_reduce hreduce
    obtain ⟨hoWay, hnWay, hdisjoint⟩ :=
      way_of_findCommon hkeyed (hkeyed.stored_via hold hway.via) hnew hnumber hfind
    refine ⟨hway.append hoWay, hnWay, ?_⟩
    intro x hx hx'
    rcases mem_append.mp hx with hx | hx
    · exact hway.disjoint_of_rank number_lt_of_parent hnWay hnumber.ge x hx hx'
    · exact hdisjoint x hx hx'
  · split at hfork
    · cases hfork
    rename_i added newHead' hreduce
    obtain ⟨⟨oldRest, newRest, c'⟩, hfind, hfork⟩ := bind_eq_ok.mp hfork
    cases hfork
    obtain ⟨hway, hnumber⟩ := way_of_reduce hreduce
    obtain ⟨hoWay, hnWay, hdisjoint⟩ :=
      way_of_findCommon hkeyed hold (hkeyed.stored_via hnew hway.via) hnumber.symm hfind
    refine ⟨hoWay, hway.append hnWay, ?_⟩
    intro x hx hx'
    rcases mem_append.mp hx' with hx' | hx'
    · exact hway.disjoint_of_rank number_lt_of_parent hoWay hnumber.ge x hx' hx
    · exact hdisjoint x hx hx'

/-! ### The new blocks -/

theorem Tree.congr {db' : ChainDb} (htree : db.Tree) (hheaders : db'.headers = db.headers)
    (hbodies : db'.bodies = db.bodies) : db'.Tree := by
  obtain ⟨headers, bodies⟩ := db'
  subst hheaders hbodies
  exact { htree with }

/-- What writing the blocks of a list has done to the indexes. -/
structure Applied (db : ChainDb) (blocks : List Header) (db' : ChainDb) : Prop where
  headers : db'.headers = db.headers
  bodies : db'.bodies = db.bodies
  canonical_of_not_mem : ∀ {n}, (∀ h ∈ blocks, h.number ≠ n) →
    db'.canonicalHash.lookup n = db.canonicalHash.lookup n
  canonical_of_mem : ∀ {h}, h ∈ blocks → (∀ h' ∈ blocks, h'.number = h.number → h' = h) →
    db'.canonicalHash.lookup h.number = some h.hash
  txLookup_of_mem : ∀ {h tx}, h ∈ blocks → tx ∈ db.transactionsOf h →
    (∀ h' ∈ blocks, tx ∈ db.transactionsOf h' → h' = h) →
    db'.txLookup.lookup tx = some (intBytes h.number)

theorem applyNew_eq (blocks : List Header) :
    ∀ {db : ChainDb} (rebirthTxs : List Hash), db.Tree → (∀ h ∈ blocks, db.Stored h) →
      ∃ db', db.applyNew rebirthTxs blocks =
          .ok (db', rebirthTxs ++ blocks.flatMap db.transactionsOf) ∧
        Applied db blocks db' ∧
        ∀ tx, tx ∉ blocks.flatMap db.transactionsOf →
          db'.txLookup.lookup tx = db.txLookup.lookup tx := by
  induction blocks with
  | nil =>
    intro db rebirthTxs _ _
    refine ⟨db, by simp [applyNew], ⟨rfl, rfl, fun _ => rfl, nofun, nofun⟩, fun _ _ => rfl⟩
  | cons h blocks ih =>
    intro db rebirthTxs htree hstored
    have hblock := htree.getBlock_eq (hstored h mem_cons_self)
    obtain ⟨db', happly, happlied, hother⟩ := ih (rebirthTxs ++ db.transactionsOf h)
      (show (db.writeHeadBlock ⟨h, db.transactionsOf h⟩).Tree from htree.congr rfl rfl)
      (fun h' hh' => hstored h' (mem_cons_of_mem h hh'))
    refine ⟨db', ?_, ?_, ?_⟩
    · simp only [applyNew, hblock, happly, append_assoc]
      rfl
    · constructor
      · exact happlied.headers
      · exact happlied.bodies
      · intro n hn
        rw [happlied.canonical_of_not_mem fun h' hh' => hn h' (mem_cons_of_mem h hh'),
          canonicalHash_writeHeadBlock, if_neg (hn h mem_cons_self).symm]
      · intro a ha hunique
        -- a later block with the same number would be the same block
        by_cases hlater : a ∈ blocks
        · exact happlied.canonical_of_mem hlater
            fun h' hh' => hunique h' (mem_cons_of_mem h hh')
        · obtain rfl : a = h := (mem_cons.mp ha).resolve_right hlater
          rw [happlied.canonical_of_not_mem, canonicalHash_writeHeadBlock, if_pos rfl]
          intro h' hh' hnumber
          exact hlater (hunique h' (mem_cons_of_mem a hh') hnumber ▸ hh')
      · intro a tx ha htx hunique
        by_cases hlater : a ∈ blocks
        · exact happlied.txLookup_of_mem hlater htx
            fun h' hh' => hunique h' (mem_cons_of_mem h hh')
        obtain rfl : a = h := (mem_cons.mp ha).resolve_right hlater
        rw [hother, txLookup_writeHeadBlock, if_pos htx]
        intro hmem
        obtain ⟨h', hh', htx'⟩ := mem_flatMap.mp hmem
        exact hlater (hunique h' (mem_cons_of_mem a hh') htx' ▸ hh')
    · intro tx htx
      rw [flatMap_cons, mem_append, not_or] at htx
      rw [hother tx htx.2, txLookup_writeHeadBlock, if_neg htx.1]

theorem collectDeleted_eq (htree : db.Tree) {blocks : List Header}
    (hstored : ∀ h ∈ blocks, db.Stored h) :
    db.collectDeleted blocks = .ok (blocks.flatMap db.transactionsOf) := by
  induction blocks with
  | nil => rfl
  | cons h blocks ih =>
    have hblock := htree.getBlock_eq (hstored h mem_cons_self)
    have hrest := ih fun h' hh' => hstored h' (mem_cons_of_mem h hh')
    simp [collectDeleted, hblock, hrest]

/-! ### The deletions -/

theorem le_of_mem_markersFrom : ∀ {fuel i : Nat}, n ∈ db.markersFrom fuel i → i ≤ n := by
  intro fuel
  induction fuel with
  | zero => exact fun h => absurd h not_mem_nil
  | succ fuel ih =>
    intro i h
    unfold markersFrom at h
    split at h
    · cases h
    · rcases mem_cons.mp h with rfl | h
      · exact le_rfl
      · have := ih h
        omega

/-- The scan passes a row of markers. -/
theorem mem_markersFrom (last : Nat) :
    ∀ {fuel i : Nat}, (∀ m, i ≤ m → m ≤ last → db.readCanonicalHash m ≠ 0) → i ≤ n → n ≤ last →
      n < i + fuel → n ∈ db.markersFrom fuel i := by
  intro fuel
  induction fuel with
  | zero =>
    omega
  | succ fuel ih =>
    intro i hmarked hi hlast hfuel
    unfold markersFrom
    rw [if_neg (hmarked i le_rfl (hi.trans hlast)), mem_cons]
    rcases Nat.eq_or_lt_of_le hi with rfl | hlt
    · exact .inl rfl
    · exact .inr (ih (fun m hm => hmarked m (by omega)) hlt hlast (by omega))

/-- Of contiguous markers, all above `number` are deleted. -/
theorem canonicalHash_deleteIndexes (txs : List Hash) {number : Nat} (last : Nat)
    (hmarked : ∀ m, number < m → m ≤ last → db.readCanonicalHash m ≠ 0)
    (habove : ∀ m, number < m → last < m → db.canonicalHash.lookup m = none) (n : Nat) :
    (db.deleteIndexes txs number).canonicalHash.lookup n =
      if number < n then none else db.canonicalHash.lookup n := by
  simp only [deleteIndexes, lookup_foldl_erase]
  by_cases hn : number < n
  · rw [if_pos hn]
    by_cases hlast : n ≤ last
    · rw [if_pos]
      apply mem_markersFrom last hmarked hn hlast
      -- there are at least as many markers as numbers in the row
      have hsub : Finset.Ioc number last ⊆ db.canonicalHash.keys := by
        intro m hm
        obtain ⟨hm, hmlast⟩ := Finset.mem_Ioc.mp hm
        by_contra hnone
        exact hmarked m hm hmlast (by simp [readCanonicalHash, lookup_eq_none.mpr hnone])
      have hcard := Finset.card_le_card hsub
      rw [Nat.card_Ioc] at hcard
      omega
    · rw [habove n hn (by omega), ite_self]
  · rw [if_neg hn, if_neg]
    intro hmem
    have := le_of_mem_markersFrom hmem
    omega

theorem txLookup_deleteIndexes (db : ChainDb) (txs : List Hash) (number : Nat) (tx : Hash) :
    (db.deleteIndexes txs number).txLookup.lookup tx =
      if tx ∈ txs then none else db.txLookup.lookup tx :=
  lookup_foldl_erase ..

theorem mem_hashDifference {a b : List Hash} {tx : Hash} :
    tx ∈ hashDifference a b ↔ tx ∈ a ∧ tx ∉ b := by
  simp [hashDifference]

/-! ### The result -/

section
variable {db : ChainDb} {newHead c : Header} {newChain : List Header}
variable (hway : Way db.parent newHead newChain c)
include hway

/-- Only the new head lies above what `reorg` has written. -/
theorem lastWritten_spec :
    lastWritten newChain c ≤ newHead.number ∧ newHead.number ≤ lastWritten newChain c + 1 ∧
      (newChain = [] → lastWritten newChain c = newHead.number) ∧
      (newChain ≠ [] → lastWritten newChain c + 1 = newHead.number) := by
  cases hway with
  | nil => exact ⟨le_rfl, Nat.le_succ _, fun _ => rfl, fun h => absurd rfl h⟩
  | @cons _ b _ chain h rest =>
    have hnumber := number_parent h
    have hlast : lastWritten (newHead :: chain) c + 1 = newHead.number := by
      cases rest with
      | nil | cons h' rest' => exact hnumber
    refine ⟨by omega, by omega, nofun, fun _ => hlast⟩

/-- The blocks `reorg` writes lie between the common block and the new head. -/
theorem mem_tail (hh : h ∈ newChain.tail) :
    Via db.parent newHead h ∧ c.number < h.number ∧ h.number < newHead.number ∧
      h.number ≤ lastWritten newChain c := by
  obtain ⟨hvia, hanc⟩ := hway.of_mem (mem_of_mem_tail hh)
  have hlt : h.number < newHead.number := by
    cases hway with
    | nil => cases hh
    | cons hp rest =>
      have hnumber := number_parent hp
      have hle := number_le_of_via (rest.of_mem hh).1
      omega
  have hspec := lastWritten_spec hway
  refine ⟨hvia, number_lt_of_anc hanc, hlt, by omega⟩

theorem eq_or_mem_tail (hh : h ∈ newChain) : h = newHead ∨ h ∈ newChain.tail := by
  cases hway with
  | nil => cases hh
  | cons hp rest => exact mem_cons.mp hh

end

/-- What a reorganisation that returns has done. -/
theorem reorg_inv {db' : ChainDb} {oldHead newHead : Header} (htree : db.Tree)
    (hold : db.Stored oldHead) (hnew : db.Stored newHead) (h : db.reorg oldHead newHead = .ok db') :
    ∃ oldChain newChain c db₁, Way db.parent oldHead oldChain c ∧ Way db.parent newHead newChain c ∧
      (∀ x ∈ oldChain, x ∉ newChain) ∧ Applied db newChain.tail.reverse db₁ ∧
      db' = db₁.deleteIndexes
        (hashDifference (oldChain.flatMap db.transactionsOf)
          (newChain.tail.reverse.flatMap db.transactionsOf))
        (lastWritten newChain c) := by
  obtain ⟨⟨oldChain, newChain, c⟩, hfork, h⟩ := bind_eq_ok.mp h
  obtain ⟨deletedTxs, hdeleted, h⟩ := bind_eq_ok.mp h
  obtain ⟨⟨db₁, rebirthTxs⟩, happly, h⟩ := bind_eq_ok.mp h
  cases h
  obtain ⟨hoWay, hnWay, hdisjoint⟩ := way_of_fork htree.keyed hold hnew hfork
  rw [collectDeleted_eq htree fun x hx => htree.stored_via hold (hoWay.of_mem hx).1] at hdeleted
  cases hdeleted
  obtain ⟨db₂, happly', happlied, -⟩ := applyNew_eq newChain.tail.reverse [] htree
    fun x hx => htree.stored_via hnew (mem_tail hnWay (mem_reverse.mp hx)).1
  rw [happly'] at happly
  cases happly
  exact ⟨oldChain, newChain, c, db₁, hoWay, hnWay, hdisjoint, happlied, rfl⟩

section
variable {db db₁ : ChainDb} {oldHead newHead c : Header} {oldChain newChain : List Header}
variable (htree : db.Tree) (hold : db.Stored oldHead) (hindex : db.Indexed oldHead)
variable (hoWay : Way db.parent oldHead oldChain c) (hnWay : Way db.parent newHead newChain c)
variable (happlied : Applied db newChain.tail.reverse db₁)

include hnWay happlied in
/-- Above the blocks that were written, the markers are the old ones. -/
theorem canonicalHash_above (hn : lastWritten newChain c < n) :
    db₁.canonicalHash.lookup n = db.canonicalHash.lookup n := by
  apply happlied.canonical_of_not_mem
  intro h hh hnumber
  have := (mem_tail hnWay (mem_reverse.mp hh)).2.2.2
  omega

include htree hold hindex hnWay happlied in
theorem canonicalHash_reorg (txs : List Hash) (n : Nat) :
    (db₁.deleteIndexes txs (lastWritten newChain c)).canonicalHash.lookup n =
      if lastWritten newChain c < n then none else db₁.canonicalHash.lookup n := by
  apply canonicalHash_deleteIndexes txs oldHead.number
  · intro m hm hle
    obtain ⟨a, ha, rfl⟩ := htree.exists_via_number hold hle
    rw [readCanonicalHash, canonicalHash_above hnWay happlied hm, hindex.marker ha]
    exact htree.hash_ne_zero (htree.stored_via hold ha)
  · intro m hm hlt
    rw [canonicalHash_above hnWay happlied hm]
    exact hindex.above hlt

include hindex hoWay hnWay happlied in
/-- Below the new head, the markers are its ancestors. -/
theorem canonicalHash_below {a : Header} (ha : Via db.parent newHead a)
    (hlt : a.number < newHead.number) : db₁.canonicalHash.lookup a.number = some a.hash := by
  rcases hnWay.cover ha with hmem | hvia
  · rcases eq_or_mem_tail hnWay hmem with rfl | htail
    · omega
    · apply happlied.canonical_of_mem (mem_reverse.mpr htail)
      intro b hb hnumber
      exact eq_of_number_eq (mem_tail hnWay (mem_reverse.mp hb)).1 ha hnumber
  · rw [happlied.canonical_of_not_mem, hindex.marker (hoWay.via.trans hvia)]
    intro b hb hnumber
    have hle := number_le_of_via hvia
    have := (mem_tail hnWay (mem_reverse.mp hb)).2.1
    omega

end

variable {db db' : ChainDb}

theorem parent_congr (h : db'.headers = db.headers) : db'.parent = db.parent := by
  funext header
  simp [parent, getHeader, h]

variable {oldHead newHead x : Header}

theorem reorg_keeps_blocks (htree : db.Tree) (hold : db.Stored oldHead) (hnew : db.Stored newHead)
    (h : db.reorg oldHead newHead = .ok db') :
    db'.headers = db.headers ∧ db'.bodies = db.bodies := by
  obtain ⟨oldChain, newChain, c, db₁, -, -, -, happlied, rfl⟩ := reorg_inv htree hold hnew h
  exact ⟨happlied.headers, happlied.bodies⟩

/-- The markers after a reorganisation and the write of the new head. -/
theorem reorg_indexed (htree : db.Tree) (hold : db.Stored oldHead) (hnew : db.Stored newHead)
    (hindex : db.Indexed oldHead) (h : db.reorg oldHead newHead = .ok db')
    (transactions : List Hash) : (db'.writeHeadBlock ⟨newHead, transactions⟩).Indexed newHead := by
  have hparent : (db'.writeHeadBlock ⟨newHead, transactions⟩).parent = db.parent :=
    parent_congr (reorg_keeps_blocks htree hold hnew h).1
  obtain ⟨oldChain, newChain, c, db₁, hoWay, hnWay, hdisjoint, happlied, rfl⟩ :=
    reorg_inv htree hold hnew h
  have hlast := lastWritten_spec hnWay
  have hcanonical := canonicalHash_reorg htree hold hindex hnWay happlied
  constructor
  · intro a ha
    rw [hparent] at ha
    have hle := number_le_of_via ha
    rw [canonicalHash_writeHeadBlock, hcanonical]
    by_cases hnumber : a.number = newHead.number
    · rw [if_pos hnumber, eq_of_number_eq ha (refl newHead) hnumber]
    · rw [if_neg hnumber, if_neg (by omega)]
      exact canonicalHash_below hindex hoWay hnWay happlied ha (by omega)
  · intro n hn
    rw [canonicalHash_writeHeadBlock, hcanonical, if_neg (show n ≠ newHead.number by omega),
      if_pos (by omega)]

/-! ### The search succeeds -/

theorem reduce_ok {target : Nat} (hx : x.number ≤ target) :
    ∀ {fuel : Nat} {h : Header}, Via db.parent h x → h.number = fuel → target ≤ fuel →
      ∃ chain c, db.reduce target fuel h = (chain, some c) := by
  intro fuel
  induction fuel with
  | zero =>
    intro h _ hnumber htarget
    refine ⟨[], h, ?_⟩
    rw [reduce, if_pos (by omega)]
  | succ fuel ih =>
    intro h hvia hnumber htarget
    by_cases hreached : h.number = target
    · exact ⟨[], h, by rw [reduce, if_pos hreached]⟩
    have hne : x ≠ h := by
      rintro rfl
      omega
    obtain ⟨p, hp, hpx⟩ := anc_iff.mp (hvia.resolve_left hne)
    have hpNumber := number_parent hp
    obtain ⟨chain, c, hreduce⟩ := ih hpx (by omega) (by omega)
    refine ⟨h :: chain, c, ?_⟩
    simp [reduce, if_neg hreached, hp, hreduce]

theorem findCommon_ok :
    ∀ {fuel : Nat} {oldHead newHead : Header}, oldHead.number = fuel → newHead.number = fuel →
      Via db.parent oldHead x → Via db.parent newHead x →
      ∃ r, db.findCommon fuel oldHead newHead = .ok r := by
  intro fuel
  induction fuel with
  | zero =>
    intro oldHead newHead hoNumber hnNumber hox hnx
    have hnumber := number_le_of_via hox
    obtain rfl := eq_of_number_eq hox (refl oldHead) (by omega)
    obtain rfl := eq_of_number_eq hnx (refl newHead) (by omega)
    exact ⟨_, by rw [findCommon, if_pos rfl]⟩
  | succ fuel ih =>
    intro oldHead newHead hoNumber hnNumber hox hnx
    by_cases hhash : oldHead.hash = newHead.hash
    · exact ⟨_, by rw [findCommon, if_pos hhash]⟩
    -- neither head is the common ancestor, since the other has the same number
    have hoAnc : Anc db.parent oldHead x := by
      rcases hox with rfl | hox
      · obtain rfl := eq_of_number_eq hnx (refl newHead) (by omega)
        exact absurd rfl hhash
      · exact hox
    have hnAnc : Anc db.parent newHead x := by
      rcases hnx with rfl | hnx
      · have := number_lt_of_anc hoAnc
        omega
      · exact hnx
    obtain ⟨oldParent, hop, hox⟩ := anc_iff.mp hoAnc
    obtain ⟨newParent, hnp, hnx⟩ := anc_iff.mp hnAnc
    have hopNumber := number_parent hop
    have hnpNumber := number_parent hnp
    obtain ⟨r, hr⟩ := ih (by omega) (by omega) hox hnx
    refine ⟨(oldHead :: r.1, newHead :: r.2.1, r.2.2), ?_⟩
    simp [findCommon, if_neg hhash, hop, hnp, hr]

/-- What lies at or below the target is still ahead. -/
theorem via_of_reduce {target fuel : Nat} {c : Header}
    (hreduce : db.reduce target fuel h = (chain, some c)) (hx : Via db.parent h x)
    (hle : x.number ≤ target) : Via db.parent c x := by
  obtain ⟨hway, hnumber⟩ := way_of_reduce hreduce
  refine (hway.cover hx).resolve_left fun hmem => ?_
  have := number_lt_of_anc (hway.of_mem hmem).2
  omega

theorem fork_ok (hox : Via db.parent oldHead x) (hnx : Via db.parent newHead x) :
    ∃ r, db.fork oldHead newHead = .ok r := by
  have hxo := number_le_of_via hox
  have hxn := number_le_of_via hnx
  unfold fork
  split
  · rename_i hgt
    obtain ⟨chain, c, hreduce⟩ := reduce_ok hxn hox rfl hgt.le
    have hnumber := (way_of_reduce hreduce).2
    obtain ⟨r, hr⟩ := findCommon_ok rfl hnumber.symm (via_of_reduce hreduce hox hxn) hnx
    refine ⟨(chain ++ r.1, r.2.1, r.2.2), ?_⟩
    simp [hreduce, hr]
  · rename_i hle
    obtain ⟨chain, c, hreduce⟩ := reduce_ok hxo hnx rfl (Nat.le_of_not_lt hle)
    have hnumber := (way_of_reduce hreduce).2
    obtain ⟨r, hr⟩ := findCommon_ok rfl hnumber hox (via_of_reduce hreduce hnx hxo)
    refine ⟨(r.1, chain ++ r.2.1, r.2.2), ?_⟩
    simp [hreduce, hr]

/-- The search fails exactly if so many headers are missing that the parents that are found
    lead from the two heads to no common block. -/
theorem fork_error_iff (hkeyed : db.Keyed) (hold : db.Stored oldHead) (hnew : db.Stored newHead) :
    (∃ err, db.fork oldHead newHead = .error err) ↔
      ∀ c, Via db.parent oldHead c → ¬Via db.parent newHead c := by
  constructor
  · rintro ⟨err, herr⟩ c hoc hnc
    obtain ⟨r, hfork⟩ := fork_ok hoc hnc
    rw [hfork] at herr
    cases herr
  · intro hnone
    cases hfork : db.fork oldHead newHead with
    | error err => exact ⟨err, rfl⟩
    | ok r =>
      obtain ⟨hoWay, hnWay, -⟩ := way_of_fork hkeyed hold hnew hfork
      exact absurd hnWay.via (hnone _ hoWay.via)

/-- Heads with a common ancestor can be exchanged. -/
theorem reorg_ok (htree : db.Tree) (hold : db.Stored oldHead) (hnew : db.Stored newHead)
    (hox : Via db.parent oldHead x) (hnx : Via db.parent newHead x) :
    ∃ db', db.reorg oldHead newHead = .ok db' := by
  obtain ⟨⟨oldChain, newChain, c⟩, hfork⟩ := fork_ok hox hnx
  obtain ⟨hoWay, hnWay, -⟩ := way_of_fork htree.keyed hold hnew hfork
  have hdeleted := collectDeleted_eq htree fun x hx => htree.stored_via hold (hoWay.of_mem hx).1
  obtain ⟨db₁, happly, -⟩ := applyNew_eq newChain.tail.reverse [] htree
    fun x hx => htree.stored_via hnew (mem_tail hnWay (mem_reverse.mp hx)).1
  simp only [reorg, hfork, hdeleted, happly, ok_bind]
  exact ⟨_, rfl⟩

/-! ### Runs -/

/-- A chain that holds its genesis block. -/
def ofGenesis (block : Block) : ChainDb where
  headers := singleton block.header.hash block.header
  bodies := singleton block.header.hash block.transactions
  canonicalHash := singleton 0 block.header.hash
  txLookup := ∅
  headHeaderHash := block.header.hash
  headFastBlockHash := block.header.hash
  headBlockHash := block.header.hash
  currentBlock := block.header

/-- `rawdb.WriteBlock`. -/
def writeBlock (db : ChainDb) (block : Block) : ChainDb :=
  { db with
    headers := db.headers.insert block.header.hash block.header
    bodies := db.bodies.insert block.header.hash block.transactions }

/-- Children of stored blocks are added, and stored blocks are made the head.  A block that is
    added has a hash no other block has or names as its parent. -/
inductive Run : ChainDb → Prop
  | genesis {block : Block} (hnumber : block.header.number = 0) (hhash : block.header.hash ≠ 0)
      (hself : block.header.parentHash ≠ block.header.hash) : Run (ofGenesis block)
  | writeBlock {db : ChainDb} {block : Block} {p : Header} (run : Run db)
      (hfresh : db.headers.lookup block.header.hash = none) (hhash : block.header.hash ≠ 0)
      (hchildless : ∀ h, db.Stored h → h.parentHash ≠ block.header.hash)
      (hparent : db.headers.lookup block.header.parentHash = some p)
      (hnumber : p.number + 1 = block.header.number) (hlt : block.header.number + 1 < 2 ^ 64) :
      Run (db.writeBlock block)
  | writeKnownBlock {db db' : ChainDb} {head : Block} (run : Run db)
      (hstored : db.getBlock head.header.hash head.header.number = some head)
      (h : db.writeKnownBlock head = .ok db') : Run db'

/-- A tree with one root, whose markers record the ancestry of the current block. -/
structure Consistent (db : ChainDb) : Prop where
  tree : db.Tree
  current : db.Stored db.currentBlock
  indexed : db.Indexed db.currentBlock
  root : ∃ g, ∀ h, db.Stored h → Via db.parent h g
  root_parent : ∀ {h}, db.Stored h → h.number = 0 → db.headers.lookup h.parentHash = none

theorem lookup_ofGenesis {k : Hash} (hh : (ofGenesis block).headers.lookup k = some h) :
    k = block.header.hash ∧ h = block.header := by
  have hh : (if k = block.header.hash then some block.header else none) = some h :=
    (lookup_singleton_ite ..).symm.trans hh
  split at hh
  · rename_i hk
    exact ⟨hk, (Option.some.inj hh).symm⟩
  · cases hh

theorem consistent_ofGenesis (hnumber : block.header.number = 0) (hhash : block.header.hash ≠ 0)
    (hself : block.header.parentHash ≠ block.header.hash) : (ofGenesis block).Consistent := by
  have hnone : (ofGenesis block).parent block.header = none := if_pos hnumber
  constructor
  · constructor
    · intro k h hh
      obtain ⟨rfl, rfl⟩ := lookup_ofGenesis hh
      rfl
    · intro h hh
      obtain ⟨-, rfl⟩ := lookup_ofGenesis hh
      exact hhash
    · intro h hh
      obtain ⟨-, rfl⟩ := lookup_ofGenesis hh
      omega
    · intro h hh hne
      obtain ⟨-, rfl⟩ := lookup_ofGenesis hh
      exact absurd hnumber hne
    · intro h hh
      obtain ⟨-, rfl⟩ := lookup_ofGenesis hh
      exact ⟨block.transactions, lookup_singleton_eq⟩
  · exact lookup_singleton_eq
  · constructor
    · rintro a (rfl | ha)
      · have hzero : (ofGenesis block).currentBlock.number = 0 := hnumber
        rw [hzero]
        exact lookup_singleton_eq
      · exact absurd ha (not_anc_of_none hnone)
    · intro n hn
      have hne : n ≠ 0 := by omega
      exact (lookup_singleton_ite ..).trans (if_neg hne)
  · refine ⟨block.header, fun h hh => ?_⟩
    obtain ⟨-, rfl⟩ := lookup_ofGenesis hh
    exact refl _
  · intro h hh _
    obtain ⟨-, rfl⟩ := lookup_ofGenesis hh
    exact (lookup_singleton_ite ..).trans (if_neg hself)

section
variable {db : ChainDb} {block : Block} {p : Header} (htree : db.Tree)
variable (hfresh : db.headers.lookup block.header.hash = none)

theorem lookup_writeBlock {k : Hash} (hh : (db.writeBlock block).headers.lookup k = some h) :
    (k = block.header.hash ∧ h = block.header) ∨ db.headers.lookup k = some h := by
  simp only [writeBlock, lookup_insert_ite] at hh
  split at hh
  · rename_i hk
    exact .inl ⟨hk, (Option.some.inj hh).symm⟩
  · exact .inr hh

section
variable (hsame : ∀ h, db.headers.lookup block.header.hash = some h → h = block.header)
include hsame

theorem stored_writeBlock (hh : db.Stored h) : (db.writeBlock block).Stored h := by
  unfold Stored at hh ⊢
  simp only [writeBlock, lookup_insert_ite]
  split
  · rename_i heq
    rw [heq] at hh
    rw [hsame h hh]
  · exact hh

/-- A parent that is found is found afterwards. -/
theorem parent_writeBlock_of_some (hp : db.parent h = some p) :
    (db.writeBlock block).parent h = some p := by
  have hnumber := number_parent hp
  rw [parent, if_neg (by omega), getHeader_eq_some] at hp ⊢
  refine ⟨?_, hp.2⟩
  simp only [writeBlock, lookup_insert_ite]
  split
  · rename_i heq
    rw [hsame p (heq ▸ hp.1)]
  · exact hp.1

end

theorem keyed_writeBlock (hkeyed : db.Keyed) (block : Block) : (db.writeBlock block).Keyed := by
  intro k h hh
  rcases lookup_writeBlock hh with ⟨rfl, rfl⟩ | hh
  · rfl
  · exact hkeyed k h hh

include hfresh in
theorem same_of_fresh (h : Header) (hh : db.headers.lookup block.header.hash = some h) :
    h = block.header := by
  rw [hfresh] at hh
  cases hh

include htree hfresh in
/-- The parents of stored blocks stay. -/
theorem parent_writeBlock (hh : db.Stored h) : (db.writeBlock block).parent h = db.parent h := by
  by_cases hnumber : h.number = 0
  · rw [parent, parent, if_pos hnumber, if_pos hnumber]
  · obtain ⟨p, hp⟩ := htree.parent hh hnumber
    rw [hp, parent_writeBlock_of_some (same_of_fresh hfresh) hp]

include htree hfresh in
theorem anc_writeBlock {a : Header} (hh : db.Stored h) :
    Anc (db.writeBlock block).parent h a ↔ Anc db.parent h a := by
  have hdown : ∀ {h a}, db.Stored h → Anc db.parent h a → Anc (db.writeBlock block).parent h a := by
    intro h a hh ha
    refine ha.congr fun x hx _ => ?_
    exact parent_writeBlock htree hfresh (htree.stored_via hh hx)
  constructor
  · intro ha
    induction ha using Relation.TransGen.head_induction_on with
    | single hstep => exact Anc.of_up ((parent_writeBlock htree hfresh hh).symm.trans hstep)
    | head hstep _ ih =>
      have hstep := (parent_writeBlock htree hfresh hh).symm.trans hstep
      exact anc_iff.mpr ⟨_, hstep, .inr (ih (htree.stored_parent hstep))⟩
  · exact hdown hh

end

variable {db : ChainDb}

theorem Consistent.writeBlock (hdb : db.Consistent) {p : Header}
    (hfresh : db.headers.lookup block.header.hash = none) (hhash : block.header.hash ≠ 0)
    (hchildless : ∀ h, db.Stored h → h.parentHash ≠ block.header.hash)
    (hparent : db.headers.lookup block.header.parentHash = some p)
    (hnumber : p.number + 1 = block.header.number) (hlt : block.header.number + 1 < 2 ^ 64) :
    (db.writeBlock block).Consistent := by
  have htree := hdb.tree
  have hp : db.Stored p := by
    have heq := htree.hash_eq hparent
    unfold Stored
    rwa [heq]
  have hold : ∀ {h}, (db.writeBlock block).Stored h → h = block.header ∨ db.Stored h := by
    intro h hh
    rcases lookup_writeBlock hh with ⟨-, rfl⟩ | hh
    · exact .inl rfl
    · exact .inr hh
  have hsame := same_of_fresh hfresh
  have hnewParent : (db.writeBlock block).parent block.header = some p := by
    refine parent_writeBlock_of_some hsame ?_
    rw [parent, if_neg (by omega), getHeader_eq_some]
    exact ⟨hparent, by omega⟩
  constructor
  · constructor
    · exact @keyed_writeBlock db htree.keyed block
    · intro h hh
      rcases hold hh with rfl | hh
      · exact hhash
      · exact htree.hash_ne_zero hh
    · intro h hh
      rcases hold hh with rfl | hh
      · exact hlt
      · exact htree.number_lt hh
    · intro h hh hne
      rcases hold hh with rfl | hh
      · exact ⟨p, hnewParent⟩
      · rw [parent_writeBlock htree hfresh hh]
        exact htree.parent hh hne
    · intro h hh
      simp only [ChainDb.writeBlock, GoMap.lookup_insert_ite]
      split
      · exact ⟨_, rfl⟩
      · rename_i hne
        rcases hold hh with rfl | hh
        · exact absurd rfl hne
        · exact htree.body hh
  · exact stored_writeBlock hsame hdb.current
  · constructor
    · rintro a (rfl | ha)
      · exact hdb.indexed.marker (refl _)
      · exact hdb.indexed.marker (.inr ((anc_writeBlock htree hfresh hdb.current).mp ha))
    · exact hdb.indexed.above
  · obtain ⟨g, hg⟩ := hdb.root
    have hvia : ∀ {h}, db.Stored h → Via (db.writeBlock block).parent h g := by
      intro h hh
      rcases hg h hh with rfl | hanc
      · exact refl _
      · exact .inr ((anc_writeBlock htree hfresh hh).mpr hanc)
    refine ⟨g, fun h hh => ?_⟩
    rcases hold hh with rfl | hh
    · exact Via.trans (.inr (Anc.of_up hnewParent)) (hvia hp)
    · exact hvia hh
  · intro h hh hzero
    rcases hold hh with rfl | hh
    · omega
    · simp only [ChainDb.writeBlock, GoMap.lookup_insert_ite, if_neg (hchildless h hh)]
      exact hdb.root_parent hh hzero

/-- The child of the current block becomes the head without a reorganisation. -/
theorem indexed_writeHeadBlock {head : Block} (hindex : db.Indexed h)
    (hparent : db.parent head.header = some h) : (db.writeHeadBlock head).Indexed head.header := by
  have hnumber := number_parent hparent
  have hsame : (db.writeHeadBlock head).parent = db.parent := parent_congr rfl
  constructor
  · rw [hsame]
    rintro a (rfl | ha)
    · rw [canonicalHash_writeHeadBlock, if_pos rfl]
    · obtain ⟨b, hb, hba⟩ := anc_iff.mp ha
      rw [hparent] at hb
      cases hb
      have hle := number_le_of_via hba
      rw [canonicalHash_writeHeadBlock, if_neg (by omega)]
      exact hindex.marker hba
  · intro n hn
    rw [canonicalHash_writeHeadBlock, if_neg (by omega)]
    exact hindex.above (by omega)

/-- What only the blocks decide. -/
theorem Consistent.of_blocks (hdb : db.Consistent) (hheaders : db'.headers = db.headers)
    (hbodies : db'.bodies = db.bodies) (hcurrent : db.Stored db'.currentBlock)
    (hindex : db'.Indexed db'.currentBlock) : db'.Consistent := by
  have htree := hdb.tree.congr hheaders hbodies
  obtain ⟨headers, bodies⟩ := db'
  subst hheaders hbodies
  exact ⟨htree, hcurrent, hindex, hdb.root, hdb.root_parent⟩

/-- `writeKnownBlock` of a stored block returns, and the block is the head. -/
theorem Consistent.writeKnownBlock (hdb : db.Consistent) {head : Block}
    (hstored : db.getBlock head.header.hash head.header.number = some head) :
    ∃ db', db.writeKnownBlock head = .ok db' ∧ db'.Consistent ∧ db'.currentBlock = head.header := by
  have htree := hdb.tree
  have hhead := stored_of_getBlock hstored
  obtain ⟨g, hg⟩ := hdb.root
  unfold ChainDb.writeKnownBlock
  split
  · obtain ⟨db₁, hreorg⟩ := reorg_ok htree hdb.current hhead (hg _ hdb.current) (hg _ hhead)
    obtain ⟨hheaders, hbodies⟩ := reorg_keeps_blocks htree hdb.current hhead hreorg
    have hindex := reorg_indexed htree hdb.current hhead hdb.indexed hreorg head.transactions
    refine ⟨db₁.writeHeadBlock head, ?_, ?_, rfl⟩
    · simp [hreorg]
    · exact hdb.of_blocks hheaders hbodies hhead hindex
  · rename_i hsame
    have hsame : head.header.parentHash = db.currentBlock.hash := not_ne_iff.mp hsame
    have hlookup : db.headers.lookup head.header.parentHash = some db.currentBlock := by
      rw [hsame]
      exact hdb.current
    have hnumber : head.header.number ≠ 0 := by
      intro hzero
      rw [hdb.root_parent hhead hzero] at hlookup
      cases hlookup
    -- the parent found under that hash is the current block
    obtain ⟨p, hp⟩ := htree.parent hhead hnumber
    have hcurrent : p = db.currentBlock := by
      have hfound := hp
      rw [parent, if_neg hnumber, getHeader_eq_some] at hfound
      exact Option.some.inj (hfound.1.symm.trans hlookup)
    rw [hcurrent] at hp
    refine ⟨db.writeHeadBlock head, rfl, ?_, rfl⟩
    exact hdb.of_blocks rfl rfl hhead (indexed_writeHeadBlock hdb.indexed hp)

/-- **Along every run** the blocks form a tree with one root and the canonical markers record
    exactly the ancestry of the current block. -/
theorem Run.consistent (run : Run db) : db.Consistent := by
  induction run with
  | genesis hnumber hhash hself => exact consistent_ofGenesis hnumber hhash hself
  | writeBlock _ hfresh hhash hchildless hparent hnumber hlt ih =>
    exact ih.writeBlock hfresh hhash hchildless hparent hnumber hlt
  | writeKnownBlock _ hstored h ih =>
    obtain ⟨db₁, hset, hconsistent, -⟩ := ih.writeKnownBlock hstored
    rw [hset] at h
    cases h
    exact hconsistent

/-! ### The indexes after a reorganisation -/

/-- **A reorganisation.**  If the markers record the ancestry of the old head, then after
    `reorg` and `writeHeadBlock` they record that of the new head.  Each transaction from the
    common block on has an entry with its block number, and the transactions of dropped
    blocks that are in no block of the new chain have none. -/
theorem reorg_restores_index {db db' : ChainDb} {oldHead newHead : Header} (htree : db.Tree)
    (hold : db.Stored oldHead) (hnew : db.Stored newHead) (hindex : db.Indexed oldHead)
    (hdistinct : ∀ a b tx, Via db.parent newHead a → Via db.parent newHead b →
      tx ∈ db.transactionsOf a → tx ∈ db.transactionsOf b → a = b)
    (h : db.reorg oldHead newHead = .ok db') :
    (∀ n ≤ newHead.number, ∃ a, Via db.parent newHead a ∧ a.number = n ∧
      (db'.writeHeadBlock ⟨newHead, db.transactionsOf newHead⟩).canonicalHash.lookup n =
        some a.hash) ∧
    (∀ n, newHead.number < n →
      (db'.writeHeadBlock ⟨newHead, db.transactionsOf newHead⟩).canonicalHash.lookup n = none) ∧
    ∃ c, Via db.parent oldHead c ∧ Via db.parent newHead c ∧
      (∀ x, Via db.parent oldHead x → Via db.parent newHead x → Via db.parent c x) ∧
      (∀ a, Via db.parent newHead a → c.number < a.number → ∀ tx ∈ db.transactionsOf a,
        (db'.writeHeadBlock ⟨newHead, db.transactionsOf newHead⟩).readTxLookupEntry tx =
          some a.number) ∧
      (∀ d, Via db.parent oldHead d → c.number < d.number → ∀ tx ∈ db.transactionsOf d,
        (∀ a, Via db.parent newHead a → tx ∉ db.transactionsOf a) →
        (db'.writeHeadBlock ⟨newHead, db.transactionsOf newHead⟩).readTxLookupEntry tx = none) := by
  have hindexed := reorg_indexed htree hold hnew hindex h (db.transactionsOf newHead)
  have hparent : (db'.writeHeadBlock ⟨newHead, db.transactionsOf newHead⟩).parent = db.parent :=
    parent_congr (reorg_keeps_blocks htree hold hnew h).1
  obtain ⟨oldChain, newChain, c, db₁, hoWay, hnWay, hdisjoint, happlied, rfl⟩ :=
    reorg_inv htree hold hnew h
  refine ⟨?_, ?_, c, hoWay.via, hnWay.via, ?_, ?_, ?_⟩
  · intro n hn
    obtain ⟨a, ha, rfl⟩ := htree.exists_via_number hnew hn
    exact ⟨a, ha, rfl, hindexed.marker (hparent ▸ ha)⟩
  · intro n hn
    exact hindexed.above hn
  · intro x hx hx'
    exact hoWay.common hnWay hdisjoint hx hx'
  · intro a ha hlt tx htx
    have hstored := htree.number_lt (htree.stored_via hnew ha)
    apply readTxLookupEntry_of_lookup (by omega) (by omega)
    rw [txLookup_writeHeadBlock, txLookup_deleteIndexes]
    by_cases hhead : tx ∈ db.transactionsOf newHead
    · rw [if_pos hhead, hdistinct a newHead tx ha (refl newHead) htx hhead]
    rw [if_neg hhead]
    -- below the head the entry was written by the loop, and is not among the deleted ones
    have htail : a ∈ newChain.tail.reverse := by
      rcases hnWay.cover ha with hmem | hvia
      · rcases eq_or_mem_tail hnWay hmem with rfl | htail
        · exact absurd htx hhead
        · exact mem_reverse.mpr htail
      · have := number_le_of_via hvia
        omega
    rw [if_neg, happlied.txLookup_of_mem htail htx]
    · intro b hb htx'
      exact hdistinct b a tx (mem_tail hnWay (mem_reverse.mp hb)).1 ha htx' htx
    · intro hmem
      exact (mem_hashDifference.mp hmem).2 (mem_flatMap.mpr ⟨a, htail, htx⟩)
  · intro d hd hlt tx htx hgone
    have hdropped : d ∈ oldChain := by
      rcases hoWay.cover hd with hmem | hvia
      · exact hmem
      · have := number_le_of_via hvia
        omega
    have hdeleted : tx ∈ hashDifference (oldChain.flatMap db.transactionsOf)
        (newChain.tail.reverse.flatMap db.transactionsOf) := by
      rw [mem_hashDifference, mem_flatMap, mem_flatMap]
      refine ⟨⟨d, hdropped, htx⟩, ?_⟩
      rintro ⟨b, hb, htx'⟩
      exact hgone b (mem_tail hnWay (mem_reverse.mp hb)).1 htx'
    unfold readTxLookupEntry
    rw [txLookup_writeHeadBlock, if_neg (hgone newHead (refl newHead)), txLookup_deleteIndexes,
      if_pos hdeleted]

/-- A run that ends with two blocks on top of the genesis block, the first one canonical. -/
theorem run_fork {g b c : Block} (hg : g.header.number = 0) (hghash : g.header.hash ≠ 0)
    (hgparent : g.header.parentHash ∉ [g.header.hash, b.header.hash, c.header.hash])
    (hb : b.header.number = 1) (hbhash : b.header.hash ≠ 0)
      (hbparent : b.header.parentHash = g.header.hash)
    (hc : c.header.number = 1) (hchash : c.header.hash ≠ 0)
      (hcparent : c.header.parentHash = g.header.hash)
    (hdistinct : [g.header.hash, b.header.hash, c.header.hash].Nodup) :
    Run ((((ofGenesis g).writeBlock b).writeHeadBlock b).writeBlock c) := by
  simp only [mem_cons, not_mem_nil, or_false, not_or] at hgparent
  simp only [nodup_cons, mem_cons, not_mem_nil, or_false, not_or] at hdistinct
  obtain ⟨⟨hgb, hgc⟩, hbc, -⟩ := hdistinct
  have hlookup : ∀ k, ((ofGenesis g).writeBlock b).headers.lookup k =
      if k = b.header.hash then some b.header
      else if k = g.header.hash then some g.header else none := by
    simp [writeBlock, ofGenesis, lookup_insert_ite, lookup_singleton_ite]
  have hfirst : Run ((ofGenesis g).writeBlock b) := by
    refine .writeBlock (p := g.header) (.genesis hg hghash hgparent.1) ?_ hbhash ?_ ?_ (by omega)
      (by omega)
    · exact (lookup_singleton_ite ..).trans (if_neg (Ne.symm hgb))
    · intro h hh
      rw [(lookup_ofGenesis hh).2]
      exact hgparent.2.1
    · exact (lookup_singleton_ite ..).trans (if_pos hbparent)
  have hblock : ((ofGenesis g).writeBlock b).getBlock b.header.hash b.header.number = some b := by
    simp [getBlock, getHeader, writeBlock]
  have hset : ((ofGenesis g).writeBlock b).writeKnownBlock b =
      .ok (((ofGenesis g).writeBlock b).writeHeadBlock b) := if_neg (not_not.mpr hbparent)
  refine .writeBlock (p := g.header) (.writeKnownBlock hfirst hblock hset) ?_ hchash ?_ ?_
    (by omega)
    (by omega)
  · rw [headers_writeHeadBlock, hlookup, if_neg (Ne.symm hbc), if_neg (Ne.symm hgc)]
  · intro h hh
    rcases lookup_writeBlock hh with ⟨-, rfl⟩ | hh
    · rw [hbparent]
      exact hgc
    · rw [(lookup_ofGenesis hh).2]
      exact hgparent.2.2
  · rw [headers_writeHeadBlock, hlookup, hcparent, if_neg hgb, if_pos rfl]

/-- Two blocks on top of the genesis block, the first one canonical. -/
def forked : ChainDb :=
  (((ofGenesis ⟨⟨1, 0, 0, 0⟩, []⟩).writeBlock ⟨⟨2, 1, 1, 0⟩, [10]⟩).writeHeadBlock
    ⟨⟨2, 1, 1, 0⟩, [10]⟩).writeBlock ⟨⟨3, 1, 1, 0⟩, [11]⟩

theorem run_forked : Run forked := by
  apply run_fork <;> decide

theorem reorg_restores_index_forked :
    ∃ db', forked.reorg ⟨2, 1, 1, 0⟩ ⟨3, 1, 1, 0⟩ = .ok db' ∧
      (∃ a, Via forked.parent ⟨3, 1, 1, 0⟩ a ∧ a.number = 1 ∧
        (db'.writeHeadBlock
          ⟨⟨3, 1, 1, 0⟩, forked.transactionsOf ⟨3, 1, 1, 0⟩⟩).canonicalHash.lookup 1 =
          some a.hash) := by
  have hdb := run_forked.consistent
  have hlookup : forked.headers.lookup 3 = some ⟨3, 1, 1, 0⟩ := by decide
  have hnew : forked.Stored ⟨3, 1, 1, 0⟩ := hlookup
  have hroot : forked.parent ⟨1, 0, 0, 0⟩ = none := rfl
  obtain ⟨g, hg⟩ := hdb.root
  obtain ⟨db', hreorg⟩ := reorg_ok hdb.tree hdb.current hnew (hg _ hdb.current) (hg _ hnew)
  have hancestors : ∀ a, Via forked.parent ⟨3, 1, 1, 0⟩ a → a = ⟨3, 1, 1, 0⟩ ∨
    a = ⟨1, 0, 0, 0⟩ := by
    rintro a (rfl | ha)
    · exact .inl rfl
    · obtain ⟨b, hb, hba⟩ := anc_iff.mp ha
      cases hb
      rcases hba with rfl | hba
      · exact .inr rfl
      · exact absurd hba (not_anc_of_none hroot)
  have hresult := reorg_restores_index hdb.tree hdb.current hnew hdb.indexed (by
    intro a b tx ha hb hta htb
    rcases hancestors a ha with rfl | rfl
    · rcases hancestors b hb with rfl | rfl
      · rfl
      · cases htb
    · cases hta) hreorg
  exact ⟨db', hreorg, hresult.1 1 le_rfl⟩

end ChainDb

end GethArb.Chain
