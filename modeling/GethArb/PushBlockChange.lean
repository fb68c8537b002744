/-
  **Block change notifications** (`core/blockchain.go`: `pushBlockChange`,
  `getCommonAncestor`).

  When the head changes, the leader tells its consumers which blocks to drop and which to add.
  The fork point is found from the last block that was pushed: the new head is taken down to
  its number, then both are taken down until they are the same.  A head with a smaller number
  than the last pushed block is not pushed at all.

  A consumer that removes what is dropped and appends what is new holds the ancestry of the
  last pushed block after any sequence of heads (`notifications_follow_heads`).

  Headers are read by hash and only turned into contexts, so the store is a map from hashes to
  contexts.  A missing header ends the process (`log.Crit`), here `none`.  The call of
  `OnCommit` for blocks that leave the state as it was is left out.
-/
import GethArb.LayerForest
import GethArb.Types

namespace GethArb.Pipeline

open Forest List

structure BlockContext where
  blockNumber : Nat
  hash : Hash
  parentHash : Hash
  timestamp : U64
deriving DecidableEq, Repr

abbrev HeaderStore := GoMap Hash BlockContext

structure BlockChangeNotification where
  changeType : Nat
  newBlocks : List BlockContext
  dropBlocks : List BlockContext
deriving DecidableEq, Repr

/-! ### The fork point -/

/-- The loop that takes `b` down to a number: what it passes, and where it ends.  The first
    argument bounds the passes; numbers go down, so that of `b` is enough. -/
def levelB (store : HeaderStore) (number : Nat) :
    Nat → BlockContext → Option (List BlockContext × BlockContext)
  | 0, _ => none
  | fuel + 1, b =>
    if b.blockNumber > number then do
      let header ← store.lookup b.parentHash
      let (chainB, last) ← levelB store number fuel header
      some (b :: chainB, last)
    else some ([], b)

/-- The loop that takes both down until they are the same. -/
def meet (store : HeaderStore) :
    Nat → BlockContext → BlockContext →
      Option (List BlockContext × List BlockContext × BlockContext)
  | 0, _, _ => none
  | fuel + 1, a, b =>
    if a.hash ≠ b.hash then do
      let headera ← store.lookup a.parentHash
      let headerb ← store.lookup b.parentHash
      let (chainA, chainB, ancestor) ← meet store fuel headera headerb
      some (a :: chainA, b :: chainB, ancestor)
    else some ([], [], a)

/-- The common ancestor, and the blocks from it to `a` and to `b`, oldest first. -/
def getCommonAncestor (store : HeaderStore) (a b : BlockContext) :
    Option (BlockContext × List BlockContext × List BlockContext) :=
  if b.parentHash = a.hash then some (a, [], [b])
  else do
    let (above, b) ← levelB store a.blockNumber (b.blockNumber + 1) b
    let (chainA, chainB, ancestor) ← meet store (a.blockNumber + 1) a b
    some (ancestor, chainA.reverse, (above ++ chainB).reverse)

/-- The notification for a new head, if there is one. -/
def pushBlockChange (store : HeaderStore) (isLeader : Bool) (lastPushedBlock : Option BlockContext)
    (block : BlockContext) : Option (Option BlockChangeNotification) :=
  if isLeader = false then some none
  else match lastPushedBlock with
    | none => some none
    | some last =>
      if last.blockNumber > block.blockNumber then some none
      else do
        let (_, dropBlocks, newBlocks) ← getCommonAncestor store last block
        if dropBlocks.length > 0 then some (some ⟨2, newBlocks, dropBlocks⟩)
        else if newBlocks.length > 0 then some (some ⟨1, newBlocks, []⟩)
        else some none

/-! ### Leader and consumer -/

/-- The block the leader has pushed last, and what a consumer holds, oldest first. -/
structure Replica where
  lastPushedBlock : BlockContext
  chain : List BlockContext

/-- A consumer can only drop what it holds. -/
def Replica.consume (r : Replica) (n : BlockChangeNotification) : Option (List BlockContext) :=
  if n.dropBlocks <:+ r.chain then
    some (r.chain.take (r.chain.length - n.dropBlocks.length) ++ n.newBlocks)
  else none

/-- A new head, with a push that succeeds. -/
def Replica.step (store : HeaderStore) (r : Replica) (head : BlockContext) : Option Replica := do
  match ← pushBlockChange store true (some r.lastPushedBlock) head with
  | none => some r
  | some n => do
    let chain ← r.consume n
    let last ← n.newBlocks.getLast?
    some ⟨last, chain⟩

/-! ### Trees of headers -/

/-- The parent in the tree: the header under the parent hash, if its number is the one
    before. -/
def parent (store : HeaderStore) (b : BlockContext) : Option BlockContext :=
  (store.lookup b.parentHash).filter (·.blockNumber + 1 = b.blockNumber)

def Stored (store : HeaderStore) (b : BlockContext) : Prop := store.lookup b.hash = some b

/-- Every header has its parent in the store, but for the genesis. -/
structure Rooted (store : HeaderStore) (genesis : BlockContext) : Prop where
  hash_eq : ∀ {k b}, store.lookup k = some b → b.hash = k
  stored : Stored store genesis
  orphan : store.lookup genesis.parentHash = none
  parent : ∀ {b}, Stored store b → b ≠ genesis → ∃ p, parent store b = some p

section
variable {store : HeaderStore} {genesis a b p : BlockContext}

theorem parent_eq_some :
    parent store b = some p ↔ store.lookup b.parentHash = some p ∧ p.blockNumber + 1 =
      b.blockNumber := by
  simp [parent]

theorem number_lt_of_parent (b p : BlockContext) (h : parent store b = some p) :
    p.blockNumber < b.blockNumber := by
  have := (parent_eq_some.mp h).2
  omega

theorem eq_of_hash_eq (ha : Stored store a) (hb : Stored store b)
    (h : a.hash = b.hash) : a = b := by
  unfold Stored at ha hb
  rw [h, hb] at ha
  exact (Option.some.inj ha).symm

variable (htree : Rooted store genesis)
include htree

theorem Rooted.stored_parent (h : Pipeline.parent store b = some p) : Stored store p := by
  have hlookup := (parent_eq_some.mp h).1
  unfold Stored
  rwa [htree.hash_eq hlookup]

theorem Rooted.orphan_parent : Pipeline.parent store genesis = none := by
  rw [Pipeline.parent, htree.orphan]
  rfl

/-- The genesis has the smallest number. -/
theorem Rooted.number_lt (hb : Stored store b) (hne : b ≠ genesis) :
    genesis.blockNumber < b.blockNumber := by
  induction hn : b.blockNumber using Nat.strong_induction_on generalizing b with
  | _ n ih =>
    obtain ⟨p, hp⟩ := htree.parent hb hne
    have hnumber := (parent_eq_some.mp hp).2
    by_cases hroot : p = genesis
    · rw [hroot] at hnumber
      omega
    · have := ih p.blockNumber (by omega) (htree.stored_parent hp) hroot rfl
      omega

/-! ### The loops meet -/

theorem levelB_eq {number : Nat} (hnumber : genesis.blockNumber ≤ number) :
    ∀ {fuel : Nat} {b : BlockContext}, Stored store b → number ≤ b.blockNumber →
      b.blockNumber < fuel → ∃ chain last, levelB store number fuel b = some (chain, last) ∧
        Way (parent store) b chain last ∧ Stored store last ∧ last.blockNumber = number := by
  intro fuel
  induction fuel with
  | zero =>
    omega
  | succ fuel ih =>
    intro b hb hle hfuel
    by_cases hgt : b.blockNumber > number
    · have hne : b ≠ genesis := by
        rintro rfl
        omega
      obtain ⟨p, hp⟩ := htree.parent hb hne
      obtain ⟨hlookup, hpNumber⟩ := parent_eq_some.mp hp
      obtain ⟨chain, last, hlevel, hway, hlast⟩ :=
        ih (htree.stored_parent hp) (by omega) (by omega)
      refine ⟨b :: chain, last, ?_, Way.cons hp hway, hlast⟩
      simp [levelB, hgt, hlookup, hlevel]
    · exact ⟨[], b, by rw [levelB, if_neg hgt], Way.nil b, hb, by omega⟩

theorem meet_eq :
    ∀ {fuel : Nat} {a b : BlockContext}, Stored store a → Stored store b →
      a.blockNumber = b.blockNumber → a.blockNumber < fuel →
      ∃ chainA chainB c, meet store fuel a b = some (chainA, chainB, c) ∧
        Way (parent store) a chainA c ∧ Way (parent store) b chainB c ∧
        ∀ x ∈ chainA, x ∉ chainB := by
  intro fuel
  induction fuel with
  | zero =>
    omega
  | succ fuel ih =>
    intro a b ha hb hnumber hfuel
    by_cases hhash : a.hash = b.hash
    · obtain rfl := eq_of_hash_eq ha hb hhash
      exact ⟨[], [], a, by rw [meet, if_neg (not_not.mpr hhash)], Way.nil a, Way.nil a, nofun⟩
    have hne : a ≠ b := fun heq => hhash (congrArg BlockContext.hash heq)
    -- neither is the genesis, since the other has the same number
    have hga : a ≠ genesis := by
      rintro rfl
      have := htree.number_lt hb hne.symm
      omega
    have hgb : b ≠ genesis := by
      rintro rfl
      have := htree.number_lt ha hne
      omega
    obtain ⟨pa, hpa⟩ := htree.parent ha hga
    obtain ⟨pb, hpb⟩ := htree.parent hb hgb
    obtain ⟨hla, hna⟩ := parent_eq_some.mp hpa
    obtain ⟨hlb, hnb⟩ := parent_eq_some.mp hpb
    obtain ⟨chainA, chainB, c, hmeet, hwayA, hwayB, hdisjoint⟩ :=
      ih (htree.stored_parent hpa) (htree.stored_parent hpb) (by omega) (by omega)
    refine ⟨a :: chainA, b :: chainB, c, ?_, Way.cons hpa hwayA, Way.cons hpb hwayB, ?_⟩
    · simp [meet, hhash, hla, hlb, hmeet]
    · exact Way.disjoint_cons number_lt_of_parent hpa hpb hwayA hwayB hne hnumber hdisjoint

/-- The path between a block and its ancestor `c`, oldest first. -/
def Path (store : HeaderStore) (c : BlockContext) (blocks : List BlockContext) (b : BlockContext) :
    Prop := Way (parent store) b blocks.reverse c

/-- For a head that is not below the last pushed block, the search ends with the paths from the
    common ancestor. -/
theorem getCommonAncestor_eq (ha : Stored store a) (hb : Stored store b)
    (hle : a.blockNumber ≤ b.blockNumber) :
    ∃ c chainA chainB, getCommonAncestor store a b = some (c, chainA, chainB) ∧
      Path store c chainA a ∧ Path store c chainB b ∧ ∀ x ∈ chainA, x ∉ chainB := by
  unfold getCommonAncestor
  split
  · rename_i hchild
    have hne : b ≠ genesis := by
      rintro rfl
      have hlookup := htree.orphan
      rw [hchild, ha] at hlookup
      cases hlookup
    obtain ⟨p, hp⟩ := htree.parent hb hne
    have hpa : p = a := by
      have hlookup := (parent_eq_some.mp hp).1
      rw [hchild, ha] at hlookup
      exact (Option.some.inj hlookup).symm
    rw [hpa] at hp
    exact ⟨a, [], [b], rfl, Way.nil a, Way.cons hp (Way.nil a), nofun⟩
  · have hroot : genesis.blockNumber ≤ a.blockNumber := by
      by_cases heq : a = genesis
      · rw [heq]
      · exact (htree.number_lt ha heq).le
    obtain ⟨above, last, hlevel, habove, hlast, hnumber⟩ :=
      levelB_eq htree hroot hb hle (Nat.lt_succ_self _)
    obtain ⟨chainA, chainB, c, hmeet, hwayA, hwayB, hdisjoint⟩ :=
      meet_eq htree ha hlast hnumber.symm (Nat.lt_succ_self _)
    refine ⟨c, chainA.reverse, (above ++ chainB).reverse, ?_, ?_, ?_, ?_⟩
    · simp [hlevel, hmeet]
    · rw [Path, reverse_reverse]
      exact hwayA
    · rw [Path, reverse_reverse]
      exact habove.append hwayB
    · intro x hx hx'
      rcases mem_append.mp (mem_reverse.mp hx') with hx' | hx'
      · exact habove.disjoint_of_rank number_lt_of_parent hwayA hnumber.ge x hx' (mem_reverse.mp hx)
      · exact hdisjoint x (mem_reverse.mp hx) hx'

/-! ### Notifications -/

/-- The notification leads from the last pushed block to the head, over their lowest common
    ancestor. -/
def Leads (store : HeaderStore) (last head : BlockContext) (n : BlockChangeNotification) : Prop :=
  ∃ c, Path store c n.dropBlocks last ∧ Path store c n.newBlocks head ∧ n.newBlocks ≠ [] ∧
    ∀ x, Via (parent store) last x → Via (parent store) head x → Via (parent store) c x

theorem pushBlockChange_eq (ha : Stored store a) (hb : Stored store b) :
    pushBlockChange store true (some a) b = some none ∨
      ∃ n, pushBlockChange store true (some a) b = some (some n) ∧ Leads store a b n := by
  by_cases hgt : a.blockNumber > b.blockNumber
  · exact .inl (by simp [pushBlockChange, hgt])
  obtain ⟨c, chainA, chainB, hsearch, hpathA, hpathB, hdisjoint⟩ :=
    getCommonAncestor_eq htree ha hb (Nat.le_of_not_lt hgt)
  have hlowest : ∀ x, Via (parent store) a x → Via (parent store) b x → Via (parent store) c x := by
    intro x hx hx'
    refine Way.common hpathA hpathB ?_ hx hx'
    intro y hy hy'
    exact hdisjoint y (mem_reverse.mp hy) (mem_reverse.mp hy')
  by_cases hdrop : chainA = []
  · by_cases hnew : chainB = []
    · exact .inl (by simp [pushBlockChange, hsearch, hdrop, hnew])
    · refine .inr ⟨⟨1, chainB, []⟩, ?_, c, hdrop ▸ hpathA, hpathB, hnew, hlowest⟩
      simp [pushBlockChange, hgt, hsearch, hdrop, length_pos_iff.mpr hnew]
  refine .inr ⟨⟨2, chainB, chainA⟩, ?_, c, hpathA, hpathB, ?_, hlowest⟩
  · simp [pushBlockChange, hgt, hsearch, length_pos_iff.mpr hdrop]
  · -- without new blocks the head would be a proper ancestor, with a smaller number
    rintro rfl
    cases hpathB with
    | nil =>
      obtain ⟨x, hx⟩ := exists_mem_of_ne_nil _ hdrop
      have := hpathA.rank_lt number_lt_of_parent (mem_reverse.mpr hx)
      omega

/-- The consumer holds the ancestry of the last pushed block. -/
structure Replica.Holds (store : HeaderStore) (genesis : BlockContext) (r : Replica) : Prop where
  stored : Stored store r.lastPushedBlock
  chain : ∃ rest, r.chain = genesis :: rest ∧ Path store genesis rest r.lastPushedBlock

/-- A notification can be applied, and the consumer then holds the ancestry of the head. -/
theorem Replica.Holds.consume {r : Replica} (hr : r.Holds store genesis) (hb : Stored store b)
    {n : BlockChangeNotification} (hn : Leads store r.lastPushedBlock b n) :
    ∃ chain, r.consume n = some chain ∧ n.newBlocks.getLast? = some b ∧
      Replica.Holds store genesis ⟨b, chain⟩ := by
  obtain ⟨c, hdrop, hnew, hne, -⟩ := hn
  obtain ⟨rest, hchain, hpath⟩ := hr.chain
  -- the way to the genesis goes through the common ancestor
  obtain ⟨up, hsplit, hup⟩ := Way.split hpath htree.orphan_parent hdrop
  have hrest : rest = up.reverse ++ n.dropBlocks := by
    rw [← reverse_inj, hsplit, reverse_append, reverse_reverse]
  refine ⟨genesis :: (up.reverse ++ n.newBlocks), ?_, ?_, hb, up.reverse ++ n.newBlocks, rfl, ?_⟩
  · have hsuffix : n.dropBlocks <:+ r.chain := by
      rw [hchain, hrest]
      exact ⟨genesis :: up.reverse, rfl⟩
    rw [Replica.consume, if_pos hsuffix, hchain, hrest]
    have hlength : (genesis :: (up.reverse ++ n.dropBlocks)).length - n.dropBlocks.length =
        (genesis :: up.reverse).length := by
      simp
      omega
    rw [hlength, ← cons_append, take_left, cons_append]
  · rw [← head?_reverse]
    exact Way.head? hnew (reverse_ne_nil_iff.mpr hne)
  · rw [Path, reverse_append, reverse_reverse]
    exact Way.append hnew hup

/-- One head: the process does not end, and the consumer keeps up. -/
theorem Replica.Holds.step {r : Replica} (hr : r.Holds store genesis) (hb : Stored store b) :
    ∃ r', r.step store b = some r' ∧ r'.Holds store genesis := by
  rcases pushBlockChange_eq htree hr.stored hb with hpush | ⟨n, hpush, hn⟩
  · exact ⟨r, by simp [Replica.step, hpush], hr⟩
  · obtain ⟨chain, hconsume, hlast, hholds⟩ := hr.consume htree hb hn
    exact ⟨⟨b, chain⟩, by simp [Replica.step, hpush, hconsume, hlast], hholds⟩

/-- **Notifications follow the heads.**  After any sequence of heads the consumer holds the
    ancestry of the last pushed block, and the notification for the next head, if there is
    one, leads to it over the lowest common ancestor. -/
theorem notifications_follow_heads {r : Replica} (hr : r.Holds store genesis)
    (heads : List BlockContext) (hheads : ∀ h ∈ heads, Stored store h) :
    ∃ r', heads.foldlM (Replica.step store) r = some r' ∧ r'.Holds store genesis ∧
      ∀ head, Stored store head → ∃ outcome,
        pushBlockChange store true (some r'.lastPushedBlock) head = some outcome ∧
        ∀ n, outcome = some n → Leads store r'.lastPushedBlock head n := by
  induction heads generalizing r with
  | nil =>
    refine ⟨r, rfl, hr, fun head hhead => ?_⟩
    rcases pushBlockChange_eq htree hr.stored hhead with hpush | ⟨n, hpush, hn⟩
    · exact ⟨none, hpush, nofun⟩
    · refine ⟨some n, hpush, fun m hm => ?_⟩
      cases hm
      exact hn
  | cons h heads ih =>
    obtain ⟨r₁, hstep, hr₁⟩ := hr.step htree (hheads h mem_cons_self)
    obtain ⟨r', hrun, hrest⟩ := ih hr₁ fun x hx => hheads x (mem_cons_of_mem h hx)
    refine ⟨r', ?_, hrest⟩
    simp [hstep, hrun]

end

/-- A genesis at number 5 with two children. -/
def forkedStore : HeaderStore :=
  (((∅ : HeaderStore).insert 1 ⟨5, 1, 0, 0⟩).insert 2 ⟨6, 2, 1, 0⟩).insert 3 ⟨6, 3, 1, 0⟩

theorem lookup_forkedStore {k : Hash} {b : BlockContext} (h : forkedStore.lookup k = some b) :
    (k = 3 ∧ b = ⟨6, 3, 1, 0⟩) ∨ (k = 2 ∧ b = ⟨6, 2, 1, 0⟩) ∨ (k = 1 ∧ b = ⟨5, 1, 0, 0⟩) := by
  simp only [forkedStore, GoMap.lookup_insert_ite, Finmap.lookup_empty] at h
  split_ifs at h with h₃ h₂ h₁
  · exact .inl ⟨h₃, (Option.some.inj h).symm⟩
  · exact .inr (.inl ⟨h₂, (Option.some.inj h).symm⟩)
  · exact .inr (.inr ⟨h₁, (Option.some.inj h).symm⟩)

theorem rooted_forkedStore : Rooted forkedStore ⟨5, 1, 0, 0⟩ where
  hash_eq h := by
    rcases lookup_forkedStore h with ⟨rfl, rfl⟩ | ⟨rfl, rfl⟩ | ⟨rfl, rfl⟩
    all_goals rfl
  stored := by
    unfold Stored
    decide
  orphan := by decide
  parent hb hne := by
    rcases lookup_forkedStore hb with ⟨-, rfl⟩ | ⟨-, rfl⟩ | ⟨-, rfl⟩
    · exact ⟨⟨5, 1, 0, 0⟩, by decide⟩
    · exact ⟨⟨5, 1, 0, 0⟩, by decide⟩
    · exact absurd rfl hne

/-- First one child is pushed, then the other. -/
theorem notifications_follow_fork :
    ∃ r', [(⟨6, 2, 1, 0⟩ : BlockContext), ⟨6, 3, 1, 0⟩].foldlM (Replica.step forkedStore)
        ⟨⟨5, 1, 0, 0⟩, [⟨5, 1, 0, 0⟩]⟩ = some r' ∧ r'.Holds forkedStore ⟨5, 1, 0, 0⟩ ∧
      r'.chain = [⟨5, 1, 0, 0⟩, ⟨6, 3, 1, 0⟩] := by
  have hstart : Replica.Holds forkedStore ⟨5, 1, 0, 0⟩ ⟨⟨5, 1, 0, 0⟩, [⟨5, 1, 0, 0⟩]⟩ :=
    ⟨rooted_forkedStore.stored, [], rfl, Way.nil _⟩
  obtain ⟨r', hrun, hr', -⟩ := notifications_follow_heads rooted_forkedStore hstart
    [⟨6, 2, 1, 0⟩, ⟨6, 3, 1, 0⟩] (by
      intro h hh
      unfold Stored
      fin_cases hh
      all_goals decide)
  refine ⟨r', hrun, hr', ?_⟩
  have hchain : ([(⟨6, 2, 1, 0⟩ : BlockContext), ⟨6, 3, 1, 0⟩].foldlM (Replica.step forkedStore)
      ⟨⟨5, 1, 0, 0⟩, [⟨5, 1, 0, 0⟩]⟩).map Replica.chain = some [⟨5, 1, 0, 0⟩, ⟨6, 3, 1, 0⟩] := by
    decide
  rw [hrun] at hchain
  exact Option.some.inj hchain

end GethArb.Pipeline
