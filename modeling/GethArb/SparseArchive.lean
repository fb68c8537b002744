/-
  **Sparse archive nodes** (`core/blockchain.go`: the archive branch of
  `writeBlockWithState`; `core/blockchain_arbitrum.go`: `ReorgToOldBlock`).

  An archive node may skip the commit of some states, limited by a number of blocks and an
  amount of gas.  What is left of both is counted down from commit to commit, over the blocks in
  the order in which they are written.  Whoever recreates a state goes back along parent hashes
  instead, to the first block with a state on disk.

    * `skipped_bounded`: the limits hold on the way back if each block is written on the last one
      or on one with a committed state.
    * `reorg_doubles_skipped`: they do not if a block is written on an older one.

  Writes succeed; `ReorgToOldBlock` only moves the head, so a block may be written on any other.
-/
import GethArb.TrieGc

namespace GethArb.Chain

open List TrieGc Option

variable {pq : PriorityQueue TrieGcEntry}

namespace TrieGc

/-- How many blocks and how much gas may still be skipped. -/
def counters (s : TrieGc pq) : Nat × Nat :=
  (s.numberOfBlocksToSkipStateSaving, s.amountOfGasInBlocksToSkipStateSaving)

variable (cfg : GcConfig) (env : GcEnv) (b : GcBlock) (s : TrieGc pq)

theorem counters_flushTrie (n : Nat) : (flushTrie cfg env n s).counters = s.counters := by
  unfold flushTrie
  split
  · split
    · rfl
    · rfl
  · rfl

theorem counters_release (q : pq.Queue) (dropped : List (TrieGcEntry × Int))
    (prevEntry : Option (TrieGcEntry × Int)) :
    (release cfg env s q dropped prevEntry).counters = s.counters := by
  cases prevEntry with
  | none => rfl
  | some prevEntry => exact counters_flushTrie cfg env _ _

/-- Garbage collection leaves the counters alone. -/
theorem counters_keepState (root : Hash) : (keepState cfg env b root s).counters = s.counters := by
  unfold keepState collectGarbage
  split
  · rw [counters_release]
    split
    · rfl
    · rfl
  · rfl

/-- A block written by an archive node: the counters go on, and the state is committed if one of
    them ran out. -/
theorem counters_write (hscheme : cfg.pathScheme = false) (harchive : cfg.archiveMode = true)
    {root : Hash} (hparent : env.hasParent = true) (hroot : env.root = some root)
    (processTime : Int) :
    ((GcOp.write env b processTime).run cfg s).counters =
        (saveState cfg s.counters.1 s.counters.2 b.gasUsed).2 ∧
      ((saveState cfg s.counters.1 s.counters.2 b.gasUsed).1 = true →
        .commit root ∈ ((GcOp.write env b processTime).run cfg s).calls) := by
  simp only [GcOp.run, writeBlockWithState, hparent, hroot, hscheme, harchive, counters,
    Bool.true_eq_false, if_true]
  obtain ⟨commit, blocks, gas⟩ := saveState cfg s.numberOfBlocksToSkipStateSaving
    s.amountOfGasInBlocksToSkipStateSaving b.gasUsed
  cases commit with
  | true => exact ⟨rfl, fun _ => mem_append_right _ mem_cons_self⟩
  | false =>
    refine ⟨?_, nofun⟩
    simp only [Bool.false_eq_true, if_false]
    exact counters_keepState cfg env b _ root

end TrieGc

/-! ### The blocks of a node -/

structure ArchiveBlock where
  parentHash : Hash
  number : Nat
  time : Nat
  gasUsed : Nat
  root : Hash
deriving DecidableEq

/-- The headers by hash, the hash of the last block written, and the state of `TrieGc`. -/
structure ArchiveNode (pq : PriorityQueue TrieGcEntry) where
  headers : GoMap Hash ArchiveBlock
  last : Hash
  gc : TrieGc pq

/-- A call of `writeBlockWithState` that succeeds. -/
structure ArchiveWrite where
  hash : Hash
  block : ArchiveBlock
  env : GcEnv
  processTime : Int

namespace ArchiveNode

/-- What the call finds, apart from the parent and the root. -/
def envOf (op : ArchiveWrite) : GcEnv :=
  { op.env with hasParent := true, root := some op.block.root, commitFails := false }

/-- A block without a parent is rejected. -/
def write (cfg : GcConfig) (s : ArchiveNode pq) (op : ArchiveWrite) : ArchiveNode pq :=
  match s.headers.lookup op.block.parentHash with
  | none => s
  | some _ =>
    { headers := s.headers.insert op.hash op.block
      last := op.hash
      gc := (GcOp.write (envOf op) ⟨op.block.number, op.block.time, op.block.gasUsed⟩
        op.processTime).run cfg s.gc }

/-- The state was committed to disk. -/
abbrev Saved (s : ArchiveNode pq) (root : Hash) : Prop := .commit root ∈ s.gc.calls

/-- The blocks on the way back from `h` before the first with a state on disk. -/
def skipped (s : ArchiveNode pq) : Nat → Hash → List ArchiveBlock
  | 0, _ => []
  | fuel + 1, h =>
    match s.headers.lookup h with
    | none => []
    | some b => if s.Saved b.root then [] else b :: skipped s fuel b.parentHash

def gas (blocks : List ArchiveBlock) : Nat := (blocks.map ArchiveBlock.gasUsed).sum

/-- The limits that are not zero hold for these blocks, with so much left to skip. -/
structure Within (cfg : GcConfig) (blocks : List ArchiveBlock) (left : Nat × Nat) : Prop where
  blocks_le : cfg.maxNumberOfBlocksToSkipStateSaving ≠ 0 →
    blocks.length + left.1 ≤ cfg.maxNumberOfBlocksToSkipStateSaving
  gas_le : cfg.maxAmountOfGasToSkipStateSaving ≠ 0 →
    gas blocks + left.2 ≤ cfg.maxAmountOfGasToSkipStateSaving

/-- A fresh node: the state of the genesis block is on disk. -/
def start (pq : PriorityQueue TrieGcEntry) (flushInterval randOffset : Int) (hash : Hash)
    (genesis : ArchiveBlock) : ArchiveNode pq where
  headers := (∅ : GoMap Hash ArchiveBlock).insert hash genesis
  last := hash
  gc := (TrieGc.start pq flushInterval randOffset).call [.commit genesis.root]

/-- A hash stands for one block. -/
def Named (s : ArchiveNode pq) (op : ArchiveWrite) : Prop :=
  ∀ b, s.headers.lookup op.hash = some b → b = op.block

/-- The block is written on the last one, or on one with a state on disk. -/
def Continues (s : ArchiveNode pq) (op : ArchiveWrite) : Prop :=
  op.block.parentHash = s.last ∨ ∃ p, s.headers.lookup op.block.parentHash = some p ∧ s.Saved p.root

/-- The property holds of each write, in the state in which it is made. -/
def Each (cfg : GcConfig) (P : ArchiveNode pq → ArchiveWrite → Prop) :
    ArchiveNode pq → List ArchiveWrite → Prop
  | _, [] => True
  | s, op :: ops => P s op ∧ Each cfg P (s.write cfg op) ops

/-! ### The bound -/

/-- The counters go on from the last block.  Every block but those with a state on disk has a
    parent. -/
structure Inv (cfg : GcConfig) (s : ArchiveNode pq) : Prop where
  last : ∀ fuel, Within cfg (s.skipped fuel s.last) s.gc.counters
  all : ∀ fuel h, Within cfg (s.skipped fuel h) (0, 0)
  parent : ∀ h b, s.headers.lookup h = some b → ¬s.Saved b.root →
    s.headers.lookup b.parentHash ≠ none

section
variable {cfg : GcConfig} {s s' : ArchiveNode pq} {blocks : List ArchiveBlock} {left : Nat × Nat}

theorem Within.weaken (h : Within cfg blocks left) : Within cfg blocks (0, 0) where
  blocks_le hne := by have := h.blocks_le hne; omega
  gas_le hne := by have := h.gas_le hne; omega

theorem Within.nil : Within cfg [] (0, 0) := ⟨fun _ => by simp, fun _ => by simp [gas]⟩

/-- One more block is skipped, or the counters start again. -/
theorem Within.saveState (h : Within cfg blocks left) (b : ArchiveBlock) :
    if (saveState cfg left.1 left.2 b.gasUsed).1 then
      Within cfg [] (saveState cfg left.1 left.2 b.gasUsed).2
    else Within cfg (b :: blocks) (saveState cfg left.1 left.2 b.gasUsed).2 := by
  unfold TrieGc.saveState
  dsimp only
  split
  · exact ⟨fun _ => by simp, fun _ => by simp [gas]⟩
  refine ⟨fun hne => ?_, fun hne => ?_⟩
  · have hle := h.blocks_le hne
    simp only [length_cons, if_pos hne]
    omega
  · have hle := h.gas_le hne
    simp only [gas, map_cons, sum_cons, if_pos hne] at hle ⊢
    omega

theorem Within.of_initial (h : Within cfg blocks left) {short : List ArchiveBlock}
    (hshort : short <+: blocks) : Within cfg short left where
  blocks_le hne := by
    have := h.blocks_le hne
    have := hshort.length_le
    omega
  gas_le hne := by
    have := h.gas_le hne
    obtain ⟨rest, rfl⟩ := hshort
    simp only [gas, map_append, sum_append] at this ⊢
    omega

/-- With more states on disk the way back is shorter. -/
theorem skipped_initial (hs : s.Inv cfg)
    (hheaders : ∀ h b, s.headers.lookup h = some b → s'.headers.lookup h = some b)
    (hsaved : ∀ root, s.Saved root → s'.Saved root) :
    ∀ fuel h, s.headers.lookup h ≠ none → s'.skipped fuel h <+: s.skipped fuel h := by
  intro fuel
  induction fuel with
  | zero =>
    intro h _
    exact nil_prefix
  | succ fuel ih =>
    intro h hstored
    obtain ⟨b, hb⟩ := ne_none_iff_exists'.mp hstored
    simp only [skipped, hb, hheaders h b hb]
    by_cases hnew : s'.Saved b.root
    · rw [if_pos hnew]
      exact nil_prefix
    · have hold : ¬s.Saved b.root := fun hsave => hnew (hsaved _ hsave)
      rw [if_neg hnew, if_neg hold]
      exact (prefix_cons_inj b).mpr (ih _ (hs.parent h b hb hold))

theorem skipped_of_none {h : Hash} (hnone : s.headers.lookup h = none) (fuel : Nat) :
    s.skipped fuel h = [] := by
  cases fuel with
  | zero => rfl
  | succ fuel => simp only [skipped, hnone]

theorem skipped_of_saved {h : Hash} {b : ArchiveBlock} (hb : s.headers.lookup h = some b)
    (hsaved : s.Saved b.root) (fuel : Nat) : s.skipped fuel h = [] := by
  cases fuel with
  | zero => rfl
  | succ fuel => simp [skipped, hb, if_pos hsaved]

variable (hscheme : cfg.pathScheme = false) (harchive : cfg.archiveMode = true)
include hscheme harchive

/-- The step: a block on the last one, or on one with a state on disk. -/
theorem Inv.write {op : ArchiveWrite} (hs : s.Inv cfg) (hnamed : s.Named op)
    (hcontinues : s.Continues op) : (s.write cfg op).Inv cfg := by
  unfold ArchiveNode.write
  cases hparent : s.headers.lookup op.block.parentHash with
  | none => exact hs
  | some p =>
    set s' : ArchiveNode pq := ⟨s.headers.insert op.hash op.block, op.hash, _⟩ with hs'
    obtain ⟨hcounters, hcommit⟩ := counters_write cfg (envOf op)
      ⟨op.block.number, op.block.time,
        op.block.gasUsed⟩ s.gc hscheme harchive rfl rfl op.processTime
    obtain ⟨calls, hstep⟩ := write_step cfg (envOf op)
      ⟨op.block.number, op.block.time, op.block.gasUsed⟩ op.processTime s.gc
    have hlookup : ∀ h, s'.headers.lookup h =
        if h = op.hash then some op.block else s.headers.lookup h :=
      fun h => GoMap.lookup_insert_ite _ _ _ _
    have hheaders : ∀ h b, s.headers.lookup h = some b → s'.headers.lookup h = some b := by
      intro h b hb
      rw [hlookup]
      split
      · rename_i heq
        rw [heq] at hb
        rw [hnamed b hb]
      · exact hb
    have hsaved : ∀ root, s.Saved root → s'.Saved root := by
      intro root hroot
      change _ ∈ TrieGc.calls _
      rw [hstep.calls_eq]
      exact mem_append_left _ hroot
    have hinitial := skipped_initial hs hheaders hsaved
    have hbefore : ∀ fuel, Within cfg (s.skipped fuel op.block.parentHash) s.gc.counters := by
      intro fuel
      rcases hcontinues with hlast | ⟨b, hb, hroot⟩
      · rw [hlast]
        exact hs.last fuel
      · rw [skipped_of_saved hb hroot]
        exact hs.last 0
    have hlast : ∀ fuel, Within cfg (s'.skipped fuel op.hash) s'.gc.counters := by
      intro fuel
      have hsave := (hbefore fuel.pred).saveState op.block
      rw [← hcounters] at hsave
      have hop : s'.headers.lookup op.hash = some op.block := by rw [hlookup, if_pos rfl]
      by_cases hroot : s'.Saved op.block.root
      · rw [skipped_of_saved hop hroot]
        split at hsave
        · exact hsave
        · exact hsave.of_initial nil_prefix
      rw [if_neg fun hc => hroot (hcommit hc)] at hsave
      refine hsave.of_initial ?_
      cases fuel with
      | zero => exact nil_prefix
      | succ fuel =>
        simp only [skipped, hop, if_neg hroot]
        refine (prefix_cons_inj _).mpr (hinitial fuel _ ?_)
        rw [hparent]
        exact some_ne_none p
    refine ⟨hlast, fun fuel h => ?_, fun h b hb hnew => ?_⟩
    · by_cases heq : h = op.hash
      · rw [heq]
        exact (hlast fuel).weaken
      cases hstored : s.headers.lookup h with
      | none =>
        rw [skipped_of_none (by rw [hlookup, if_neg heq, hstored])]
        exact Within.nil
      | some b =>
        refine (hs.all fuel h).of_initial (hinitial fuel h ?_)
        rw [hstored]
        exact some_ne_none b
    · have hparent' : ∃ q, s.headers.lookup b.parentHash = some q := by
        rw [hlookup] at hb
        split at hb
        · cases hb
          exact ⟨p, hparent⟩
        · exact ne_none_iff_exists'.mp (hs.parent h b hb fun hroot => hnew (hsaved _ hroot))
      obtain ⟨q, hq⟩ := hparent'
      rw [hheaders _ q hq]
      exact some_ne_none q

omit hscheme harchive in
theorem inv_start (flushInterval randOffset : Int) (hash : Hash) (genesis : ArchiveBlock) :
    (start pq flushInterval randOffset hash genesis).Inv cfg := by
  have hskipped : ∀ fuel h,
      (start pq flushInterval randOffset hash genesis).skipped fuel h = [] := by
    intro fuel h
    by_cases heq : h = hash
    · refine skipped_of_saved (b := genesis) ?_ mem_cons_self fuel
      rw [heq]
      exact Finmap.lookup_insert _
    · exact skipped_of_none (Finmap.lookup_insert_of_ne _ heq) fuel
  refine ⟨fun fuel => ?_, fun fuel h => ?_, fun h b hb hnew => ?_⟩
  · rw [hskipped]
    exact Within.nil
  · rw [hskipped]
    exact Within.nil
  · by_cases heq : h = hash
    · rw [heq] at hb
      cases (Finmap.lookup_insert _).symm.trans hb
      exact absurd mem_cons_self hnew
    · cases (Finmap.lookup_insert_of_ne _ heq).symm.trans hb

theorem Inv.run {ops : List ArchiveWrite} (hs : s.Inv cfg) (hnamed : Each cfg Named s ops)
    (hcontinues : Each cfg Continues s ops) : (ops.foldl (ArchiveNode.write cfg) s).Inv cfg := by
  induction ops generalizing s with
  | nil => exact hs
  | cons op ops ih =>
    exact ih (hs.write hscheme harchive hnamed.1 hcontinues.1) hnamed.2 hcontinues.2

/-- **The limits of a sparse archive.**  After any run in which each block is written on the last
    one or on one with a state on disk, the way back from any block meets no more blocks, and no
    more gas, than may be skipped. -/
theorem skipped_bounded (pq : PriorityQueue TrieGcEntry) (flushInterval randOffset : Int)
    (hash : Hash) (genesis : ArchiveBlock) {ops : List ArchiveWrite}
    (hnamed : Each cfg Named (start pq flushInterval randOffset hash genesis) ops)
    (hcontinues : Each cfg Continues (start pq flushInterval randOffset hash genesis) ops) :
    let s := ops.foldl (ArchiveNode.write cfg) (start pq flushInterval randOffset hash genesis)
    ∀ fuel h,
      (cfg.maxNumberOfBlocksToSkipStateSaving ≠ 0 →
        (s.skipped fuel h).length ≤ cfg.maxNumberOfBlocksToSkipStateSaving) ∧
      (cfg.maxAmountOfGasToSkipStateSaving ≠ 0 →
        gas (s.skipped fuel h) ≤ cfg.maxAmountOfGasToSkipStateSaving) := by
  intro s fuel h
  have hinv : s.Inv cfg :=
    (inv_start flushInterval randOffset hash genesis).run hscheme harchive hnamed hcontinues
  have hall := hinv.all fuel h
  exact ⟨hall.blocks_le, hall.gas_le⟩

end

/-- An archive node that may skip one block. -/
def oneSkipped : GcConfig := ⟨false, true, 1, 0, 1, 0⟩

/-- The block with this number as its hash and root. -/
def numbered (parentHash : Hash) (n : Nat) : ArchiveWrite :=
  ⟨BitVec.ofNat 256 n, ⟨parentHash, n, n, 0, BitVec.ofNat 256 n⟩,
    ⟨true, none, 0, false, fun _ => none, 0, false⟩, 0⟩

def fresh : ArchiveNode (.list TrieGcEntry) := start _ 0 0 0 (numbered 0 0).block

theorem skipped_bounded_three :
    let ops := [numbered 0 1, numbered 1 2, numbered 2 3]
    ((ops.foldl (ArchiveNode.write oneSkipped) fresh).skipped 9 2).length = 1 ∧
      ((ops.foldl (ArchiveNode.write oneSkipped) fresh).skipped 9 2).length ≤ 1 := by
  have hbounded := @skipped_bounded oneSkipped rfl rfl (.list TrieGcEntry) 0 0 0
    (numbered 0 0).block [numbered 0 1, numbered 1 2, numbered 2 3]
    (by simp only [Each, Named]; decide +kernel) (by simp only [Each, Continues]; decide +kernel)
  exact ⟨by decide +kernel, (hbounded 9 2).1 (by decide)⟩

/-- The third block was committed, so the fourth is skipped: on the second, which was not. -/
theorem reorg_doubles_skipped :
    let ops := [numbered 0 1, numbered 1 2, numbered 2 3, numbered 2 4]
    (ops.foldl (ArchiveNode.write oneSkipped) fresh).skipped 9 4 =
      [(numbered 2 4).block, (numbered 1 2).block] ∧
    oneSkipped.maxNumberOfBlocksToSkipStateSaving = 1 := by
  decide +kernel

end ArchiveNode

end GethArb.Chain
