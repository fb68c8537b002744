/-
  **The state of a header, opened or recreated** (`arbitrum/recreatestate.go`:
  `FindLastAvailableState`; `eth/state_accessor.go`: `hashState`;
  `arbitrum/apibackend.go`: `StateAndHeaderFromHeader`).

  Where the state of a header is gone it is recreated: search backwards for a block whose
  state is there, then execute the blocks above it again.  The search follows the parent
  hashes.  The blocks to execute are looked up by number, in the canonical chain, and the
  root that comes out is not compared with anything.  So for a header on a side branch the
  state that is returned is the one of the canonical block with its number, if the search
  stopped on the canonical chain, and the result of executing canonical blocks on a state
  of the side branch otherwise (`reads_of_header`).

  States are of any type; `Faithful` says which root a state reads and what is assumed of
  execution.  A context is the number of looks at it before it is cancelled.  References to
  the states and their release are left out.
-/
import GethArb.Reorg
import GethArb.Receipt

namespace GethArb.Chain

open Forest ChainDb Option Anc

/-- `context.Context`: how many more times `Err` returns nil, if it is cancelled at all. -/
structure Ctx where
  remaining : Option Nat := none
deriving DecidableEq, Repr

def Ctx.err : Ctx → Bool × Ctx
  | ⟨none⟩ => (false, ⟨none⟩)
  | ⟨some 0⟩ => (true, ⟨some 0⟩)
  | ⟨some (n + 1)⟩ => (false, ⟨some n⟩)

structure BlockChain where
  db : ChainDb
  isArbitrum : Bool
  genesisBlockNum : Nat
  getReceiptsByHash : Hash → Option (List Receipt)

def BlockChain.isArbitrumNitro (bc : BlockChain) (number : Nat) : Bool :=
  bc.isArbitrum && decide (bc.genesisBlockNum ≤ number)

/-! ### FindLastAvailableState -/

inductive FindError where
  | noState (header : Header)
  | noReceipts (hash : Hash)
  | depthLimitExceeded
  | movedBeyondGenesis (target genesis : Nat)
  | noParent (header : Header)
  | ctx
deriving DecidableEq, Repr

section
variable {S : Type} (bc : BlockChain) (stateFor : Header → Option S)
variable (maxDepthInL2Gas : Int) (targetHeader : Header)

def addL2Gas (currentHeader : Header) (l2GasUsed : U64) : Except FindError U64 :=
  if 0 < maxDepthInL2Gas then
    match bc.getReceiptsByHash currentHeader.hash with
    | none => .error (.noReceipts currentHeader.hash)
    | some receipts =>
      let l2GasUsed := receipts.foldl (fun gas r => gas + (r.gasUsed - r.gasUsedForL1)) l2GasUsed
      if maxDepthInL2Gas.toNat < l2GasUsed.toNat then .error .depthLimitExceeded
      else .ok l2GasUsed
  -- `InfiniteMaxRecreateStateDepth`
  else if maxDepthInL2Gas ≠ -1 then .error (.noState currentHeader)
  else .ok l2GasUsed

/-- What follows a failed `stateFor`: the gas so far and the parent. -/
def moveBack (currentHeader : Header) (l2GasUsed : U64) : Except FindError (U64 × Header) := do
  let l2GasUsed ← addL2Gas bc maxDepthInL2Gas currentHeader l2GasUsed
  if currentHeader.number ≤ bc.genesisBlockNum then
    .error (.movedBeyondGenesis targetHeader.number bc.genesisBlockNum)
  else
    match bc.db.parent currentHeader with
    | none => .error (.noParent currentHeader)
    | some parent => .ok (l2GasUsed, parent)

/-- The loop, with the number of the current header as fuel. -/
def findFrom : Nat → Header → U64 → Ctx → Except FindError (S × Header × Ctx)
  | fuel, currentHeader, l2GasUsed, ctx =>
    match ctx.err with
    | (true, _) => .error .ctx
    | (false, ctx) =>
      match stateFor currentHeader with
      | some state =>
        -- the context is looked at once more, on the way out
        match ctx.err with
        | (true, _) => .error .ctx
        | (false, ctx) => .ok (state, currentHeader, ctx)
      | none =>
        match moveBack bc maxDepthInL2Gas targetHeader currentHeader l2GasUsed, fuel with
        | .error err, _ => .error err
        | .ok (l2GasUsed, parent), fuel + 1 => findFrom fuel parent l2GasUsed ctx
        -- the number of a parent is smaller, and number zero has none
        | .ok _, 0 => .error (.noParent currentHeader)

def findLastAvailableState (ctx : Ctx) : Except FindError (S × Header × Ctx) :=
  findFrom bc stateFor maxDepthInL2Gas targetHeader targetHeader.number targetHeader 0 ctx

end

/-- `a` is the nearest ancestor of `h` that has a state, and `s` is its state. -/
structure Nearest {S : Type} (bc : BlockChain) (stateFor : Header → Option S) (h a : Header)
    (s : S) : Prop where
  anc : Anc bc.db.parent h a
  state : stateFor a = some s
  first : ∀ b, Anc bc.db.parent h b → Anc bc.db.parent b a → stateFor b = none

variable {current : Header} {gas : U64} {ctx : Ctx}

section
variable {S : Type} {bc : BlockChain} {stateFor : Header → Option S}
variable {maxDepth : Int} {target h p a : Header} {s : S}

theorem nearest_parent (hp : bc.db.parent h = some p) (hs : stateFor p = some s) :
    Nearest bc stateFor h p s := by
  refine ⟨of_up hp, hs, fun b hb hbp => ?_⟩
  have hlt := number_lt_of_anc hb
  have hlt' := number_lt_of_anc hbp
  have hnumber := number_parent hp
  omega

theorem Nearest.of_parent (h' : Nearest bc stateFor p a s) (hp : bc.db.parent h = some p)
    (hnone : stateFor p = none) : Nearest bc stateFor h a s := by
  refine ⟨(of_up hp).trans h'.anc, h'.state, fun b hb hba => ?_⟩
  obtain ⟨q, hq, hvia⟩ := anc_iff.mp hb
  cases hp.symm.trans hq
  rcases hvia with rfl | hanc
  · exact hnone
  · exact h'.first b hanc hba

theorem parent_of_moveBack {gas' : U64}
    (h : moveBack bc maxDepth target current gas = .ok (gas', p)) :
    bc.db.parent current = some p := by
  obtain ⟨gas, -, h⟩ := bind_eq_ok.mp h
  split at h
  · cases h
  · split at h
    · cases h
    · cases h
      assumption

/-- The search stops at the header itself, or at the nearest ancestor with a state. -/
theorem findFrom_ok {fuel : Nat} {ctx' : Ctx}
    (h : findFrom bc stateFor maxDepth target fuel current gas ctx = .ok (s, a, ctx')) :
    a = current ∧ stateFor current = some s ∨
      stateFor current = none ∧ Nearest bc stateFor current a s := by
  induction fuel generalizing current gas ctx with
  | zero =>
    unfold findFrom at h
    split at h
    · cases h
    split at h
    · rename_i hstate
      split at h <;> cases h
      exact .inl ⟨rfl, hstate⟩
    · split at h
      · cases h
      · contradiction
      · cases h
  | succ fuel ih =>
    unfold findFrom at h
    split at h
    · cases h
    split at h
    · rename_i hstate
      split at h <;> cases h
      exact .inl ⟨rfl, hstate⟩
    · rename_i hstate
      split at h
      · cases h
      · rename_i hback hfuel
        cases hfuel
        have hp := parent_of_moveBack hback
        refine .inr ⟨hstate, ?_⟩
        rcases ih h with ⟨rfl, hsome⟩ | ⟨hnone, hnearest⟩
        · exact nearest_parent hp hsome
        · exact hnearest.of_parent hp hnone
      · contradiction

end

/-! ### hashState -/

/-- A chain with its databases of states: the live one, a fresh one over the disk, and, on the
    path scheme, the histories. -/
structure Node (S : Type) extends BlockChain where
  pathScheme : Bool
  stateAt : Hash → Option S
  diskState : Hash → Option S
  historicState : Hash → Option S
  process : Block → S → Option S
  commit : Block → S → Option Hash
  /-- `state.New` on the database the state was committed to. -/
  reset : Hash → Option S

inductive HashStateError where
  | ctx
  | genesisStateMissing
  | missingBlock (hash : Hash) (number : Nat)
  | unavailable (reexec : Nat)
  | blockNotFound (number : Nat)
  | processing (number : Nat)
  | commit (number : Nat)
  | reset (number : Nat)
  | historicalStateNotAvailable
  | nilPointer
deriving DecidableEq, Repr

namespace Node

variable {S : Type} (node : Node S)

/-- The search of `hashState`, at most `reexec` blocks back. -/
def searchBack (reexec : Nat) : Nat → Block → Ctx → Except HashStateError (S × Block × Ctx)
  | 0, _, _ => .error (.unavailable reexec)
  | i + 1, current, ctx =>
    match ctx.err with
    | (true, _) => .error .ctx
    | (false, ctx) =>
      if current.header.number = 0 then .error .genesisStateMissing
      else
        match node.db.parentBlock current with
        | none => .error (.missingBlock current.header.parentHash (current.header.number - 1))
        | some parent =>
          match node.diskState parent.header.root with
          | some statedb => .ok (statedb, parent, ctx)
          | none => searchBack reexec i parent ctx

/-- One block of the loop that executes blocks again. -/
def reexecute (number : Nat) (statedb : S) : Except HashStateError (S × Block) :=
  match node.db.getBlockByNumber number with
  | none => .error (.blockNotFound number)
  | some block =>
    match node.process block statedb with
    | none => .error (.processing number)
    | some statedb =>
      match node.commit block statedb with
      | none => .error (.commit number)
      | some root =>
        match node.reset root with
        | none => .error (.reset number)
        | some statedb => .ok (statedb, block)

/-- The loop that executes the blocks above `current` again, as many as are left. -/
def regenerate : Nat → Block → S → Ctx → Except HashStateError S
  | 0, _, statedb, _ => .ok statedb
  | left + 1, current, statedb, ctx =>
    match ctx.err with
    | (true, _) => .error .ctx
    | (false, ctx) => do
      let (statedb, block) ← node.reexecute (current.header.number + 1) statedb
      regenerate left block statedb ctx

def hashState (ctx : Ctx) (block : Block) (reexec : Nat) (base : Option S)
    (baseBlock : Option Block)
    (readOnly preferDisk : Bool) : Except HashStateError S :=
  let origin := block.header.number
  match if readOnly then node.stateAt block.header.root else none with
  | some statedb => .ok statedb
  | none =>
    match baseBlock, base with
    | some _, none => .error .nilPointer
    | some current, some statedb =>
      node.regenerate (origin - current.header.number) current statedb ctx
    | none, some statedb =>
      match if preferDisk then node.diskState block.header.root else none with
      | some statedb => .ok statedb
      | none =>
        match node.db.parentBlock block with
        | none => .error .nilPointer
        | some current => node.regenerate (origin - current.header.number) current statedb ctx
    | none, none =>
      match if readOnly then none else node.diskState block.header.root with
      | some statedb => .ok statedb
      | none => do
        let (statedb, current, ctx) ← node.searchBack reexec reexec block ctx
        node.regenerate (origin - current.header.number) current statedb ctx

def pathState (block : Block) : Except HashStateError S :=
  match node.stateAt block.header.root with
  | some statedb => .ok statedb
  | none =>
    match node.historicState block.header.root with
    | some statedb => .ok statedb
    | none => .error .historicalStateNotAvailable

def stateAtBlock (ctx : Ctx) (block : Block) (reexec : Nat) (base : Option S)
    (baseBlock : Option Block) (readOnly preferDisk : Bool) : Except HashStateError S :=
  if node.pathScheme then node.pathState block
  else node.hashState ctx block reexec base baseBlock readOnly preferDisk

end Node

/-! ### StateAndHeaderFromHeader -/

inductive ApiError where
  | caller (err : String)
  | headerNotFound
  | useFallback
  | useArchiveFallback (blockNum : Nat)
  | historic (root : Hash)
  | find (err : FindError)
  | targetBlockNotFound
  | lastBlockNotFound
  | failedToRecreate (err : HashStateError)
deriving DecidableEq, Repr

namespace Node

variable {S : Type} (node : Node S)

/-- `stateFor(ephemeral, nil)`. -/
def ephemeralStateFor (header : Header) : Option S := node.diskState header.root

/-- The end of `StateAndHeaderFromHeader`: from the state that was found to the one of the
    header. -/
def recreateFrom (ctx : Ctx) (header lastHeader : Header) (lastState : S) :
    Except ApiError (S × Header) :=
  -- the pointers are compared; a header that was looked up has a smaller number
  if lastHeader = header then .ok (lastState, header)
  else
    match node.db.getBlockByNumber header.number with
    | none => .error .targetBlockNotFound
    | some targetBlock =>
      match node.db.getBlockByNumber lastHeader.number with
      | none => .error .lastBlockNotFound
      | some lastBlock =>
        match node.stateAtBlock ctx targetBlock 0 (some lastState) (some lastBlock) false false with
        | .error err => .error (.failedToRecreate err)
        | .ok statedb => .ok (statedb, header)

/-- `archive` is the last block the archive clients have, if there are any. -/
def stateAndHeaderFromHeader (ctx : Ctx) (maxRecreateStateDepth : Int) (header : Option Header)
    (err : Option String) (archive : Option Nat) : Except ApiError (S × Header) :=
  match err, header with
  | some err, _ => .error (.caller err)
  | none, none => .error .headerNotFound
  | none, some header =>
    if !node.isArbitrumNitro header.number then .error .useFallback
    else if archive.any (header.number ≤ ·) then .error (.useArchiveFallback header.number)
    else if node.pathScheme then
      match node.stateAt header.root with
      | some statedb => .ok (statedb, header)
      | none =>
        match node.historicState header.root with
        | some statedb => .ok (statedb, header)
        | none => .error (.historic header.root)
    else
      match node.stateAt header.root with
      | some liveState => .ok (liveState, header)
      | none =>
        match findLastAvailableState node.toBlockChain node.ephemeralStateFor maxRecreateStateDepth
          header ctx with
        | .error err => .error (.find err)
        | .ok (lastState, lastHeader, ctx) => node.recreateFrom ctx header lastHeader lastState

/-! ### The state that comes out -/

/-- A state reads one root.  One that is opened at a root reads that root, and the blocks of the
    chain are valid: executed on the state of its parent, a block gives the state of its own
    root. -/
structure Faithful (Reads : S → Hash → Prop) : Prop where
  unique : ∀ {s root root'}, Reads s root → Reads s root' → root = root'
  stateAt : ∀ {root s}, node.stateAt root = some s → Reads s root
  diskState : ∀ {root s}, node.diskState root = some s → Reads s root
  reset : ∀ {root s}, node.reset root = some s → Reads s root
  execute : ∀ {h p : Header} {s s' : S} {root : Hash}, node.db.Stored h →
    node.db.parent h = some p → Reads s p.root →
    node.process ⟨h, node.db.transactionsOf h⟩ s = some s' →
    node.commit ⟨h, node.db.transactionsOf h⟩ s' = some root → root = h.root

/-- The canonical block with this number has this root. -/
def CanonicalRoot (number : Nat) (root : Hash) : Prop :=
  (node.db.getBlockByNumber number).map (·.header.root) = some root

/-- `hashState` opens the state of the block itself. -/
def OpensDirectly (block : Block) (base : Option S) (baseBlock : Option Block)
    (readOnly preferDisk : Bool) : Prop :=
  readOnly = true ∧ (node.stateAt block.header.root).isSome ∨
    baseBlock = none ∧ (if base.isSome then preferDisk else !readOnly) = true ∧
      (node.diskState block.header.root).isSome

/-- The header and the state `hashState` starts to execute from. -/
inductive StartsAt (block : Block) (base : Option S) (baseBlock : Option Block) : Header → S → Prop
  | baseBlock {current : Block} {s : S} (hblock : baseBlock = some current)
      (hbase : base = some s) :
      StartsAt block base baseBlock current.header s
  | base {p : Header} {s : S} (hblock : baseBlock = none) (hbase : base = some s)
      (hparent : node.db.parent block.header = some p) : StartsAt block base baseBlock p s
  | found {a : Header} {s : S} (hblock : baseBlock = none) (hbase : base = none)
      (hnearest : Nearest node.toBlockChain node.ephemeralStateFor block.header a s) :
      StartsAt block base baseBlock a s

end Node

theorem parent_of_parentBlock {db : ChainDb} {b p : Block} (h : db.parentBlock b = some p) :
    db.parent b.header = some p.header := by
  unfold parentBlock at h
  unfold parent
  split at h
  · cases h
  rename_i hnumber
  rw [if_neg hnumber]
  obtain ⟨header, hheader, h⟩ := bind_eq_some_iff.mp h
  obtain ⟨txs, -, h⟩ := bind_eq_some_iff.mp h
  cases h
  exact hheader

variable {block : Block} {reexec : Nat} {baseBlock : Option Block}

section
variable {S : Type} {node : Node S}

theorem nearest_of_searchBack {i : Nat} {current : Block} {s : S} {ctx' : Ctx}
    (h : node.searchBack reexec i block ctx = .ok (s, current, ctx')) :
    Nearest node.toBlockChain node.ephemeralStateFor block.header current.header s := by
  induction i generalizing block ctx with
  | zero => cases h
  | succ i ih =>
    unfold Node.searchBack at h
    split at h
    · cases h
    split at h
    · cases h
    split at h
    · cases h
    rename_i hparent
    have hp := parent_of_parentBlock hparent
    split at h
    · rename_i hstate
      cases h
      exact nearest_parent hp hstate
    · rename_i hstate
      exact (ih h).of_parent hp hstate

/-- `hashState` opens the state of the block, or executes the canonical blocks above the one it
    starts at. -/
theorem hashState_cases {base : Option S} {readOnly preferDisk : Bool} {s : S}
    (h : node.hashState ctx block reexec base baseBlock readOnly preferDisk = .ok s) :
    node.OpensDirectly block base baseBlock readOnly preferDisk ∧
        (node.stateAt block.header.root = some s ∨ node.diskState block.header.root = some s) ∨
      ¬node.OpensDirectly block base baseBlock readOnly preferDisk ∧
        ∃ current s₀ ctx₀, node.StartsAt block base baseBlock current.header s₀ ∧
          node.regenerate (block.header.number - current.header.number) current s₀ ctx₀ =
            .ok s := by
  unfold Node.hashState at h
  split at h
  · rename_i s' hlive
    cases h
    rw [ite_none_right_eq_some] at hlive
    refine .inl ⟨.inl ⟨hlive.1, ?_⟩, .inl hlive.2⟩
    rw [hlive.2, isSome_some]
  · rename_i hlive
    have hlive : ¬(readOnly = true ∧ (node.stateAt block.header.root).isSome) := by
      rintro ⟨rfl, hsome⟩
      rw [if_pos rfl] at hlive
      rw [hlive] at hsome
      cases hsome
    split at h
    · cases h
    · refine .inr ⟨?_, _, _, ctx, .baseBlock rfl rfl, h⟩
      rintro (hdirect | ⟨hnone, -⟩)
      · exact hlive hdirect
      · cases hnone
    · split at h
      · rename_i s' hdisk
        cases h
        rw [ite_none_right_eq_some] at hdisk
        refine .inl ⟨.inr ⟨rfl, hdisk.1, ?_⟩, .inr hdisk.2⟩
        rw [hdisk.2, isSome_some]
      · rename_i hdisk
        split at h
        · cases h
        rename_i current hparent
        refine .inr ⟨?_, _, _, ctx, .base rfl rfl (parent_of_parentBlock hparent), h⟩
        rintro (hdirect | ⟨-, hprefer, hsome⟩)
        · exact hlive hdirect
        · rw [isSome_some, if_pos rfl] at hprefer
          rw [hprefer, if_pos rfl] at hdisk
          rw [hdisk] at hsome
          cases hsome
    · split at h
      · rename_i s' hdisk
        cases h
        rw [ite_none_left_eq_some, Bool.not_eq_true] at hdisk
        refine .inl ⟨.inr ⟨rfl, by rw [hdisk.1]; rfl, ?_⟩, .inr hdisk.2⟩
        rw [hdisk.2, isSome_some]
      · rename_i hdisk
        obtain ⟨⟨s₀, current, ctx₀⟩, hback, h⟩ := bind_eq_ok.mp h
        refine .inr ⟨?_, current, s₀, ctx₀, .found rfl rfl (nearest_of_searchBack hback), h⟩
        rintro (hdirect | ⟨-, hread, hsome⟩)
        · exact hlive hdirect
        · rw [isSome_none, if_neg Bool.false_ne_true, Bool.not_eq_true'] at hread
          rw [hread, if_neg Bool.false_ne_true] at hdisk
          rw [hdisk] at hsome
          cases hsome

end

theorem recreateFrom_inv {S : Type} {node : Node S} {header last h : Header} {lastState s : S}
    (hpath : node.pathScheme = false) (hlast : last ≠ header)
    (hok : node.recreateFrom ctx header last lastState = .ok (s, h)) :
    h = header ∧ ∃ target lastBlock, node.db.getBlockByNumber header.number = some target ∧
      node.db.getBlockByNumber last.number = some lastBlock ∧
      node.hashState ctx target 0 (some lastState) (some lastBlock) false false = .ok s := by
  rw [Node.recreateFrom, if_neg hlast] at hok
  split at hok
  · cases hok
  rename_i target htarget
  split at hok
  · cases hok
  rename_i lastBlock hlastBlock
  split at hok
  · cases hok
  · rename_i statedb hstate
    cases hok
    rw [Node.stateAtBlock, hpath] at hstate
    exact ⟨rfl, target, lastBlock, htarget, hlastBlock, hstate⟩

/-- What comes out of `StateAndHeaderFromHeader` on the hash scheme: the state of the header, or
    one regenerated from the state of an ancestor. -/
theorem stateAndHeaderFromHeader_cases {S : Type} {node : Node S} {depth : Int} {header : Header}
    {err : Option String} {archive : Option Nat} {s : S} {h : Header}
    (hpath : node.pathScheme = false)
    (hok : node.stateAndHeaderFromHeader ctx depth (some header) err archive = .ok (s, h)) :
    h = header ∧ ((node.stateAt header.root = some s ∨ node.diskState header.root = some s) ∨
      node.stateAt header.root = none ∧ node.diskState header.root = none ∧
        ∃ last s₀ target lastBlock ctx₀,
          Nearest node.toBlockChain node.ephemeralStateFor header last s₀ ∧
          node.db.getBlockByNumber header.number = some target ∧
          node.db.getBlockByNumber last.number = some lastBlock ∧
          node.hashState ctx₀ target 0 (some s₀) (some lastBlock) false false = .ok s) := by
  unfold Node.stateAndHeaderFromHeader at hok
  split at hok
  · cases hok
  · rename_i hnone
    cases hnone
  · rename_i _ _ header' hheader
    cases hheader
    split at hok
    · cases hok
    split at hok
    · cases hok
    rw [hpath, if_neg Bool.false_ne_true] at hok
    split at hok
    · rename_i hlive
      cases hok
      exact ⟨rfl, .inl (.inl hlive)⟩
    rename_i hlive
    split at hok
    · cases hok
    rename_i lastState last ctx₀ hfind
    rcases findFrom_ok hfind with ⟨rfl, hfound⟩ | ⟨hmissing, hnearest⟩
    · rw [Node.recreateFrom, if_pos rfl] at hok
      cases hok
      exact ⟨rfl, .inl (.inr hfound)⟩
    have hlast : last ≠ header := by
      rintro rfl
      exact absurd (number_lt_of_anc hnearest.anc) (Nat.lt_irrefl _)
    obtain ⟨rfl, target, lastBlock, htarget, hlastBlock, hstate⟩ :=
      recreateFrom_inv hpath hlast hok
    exact ⟨rfl, .inr ⟨hlive, hmissing, last, lastState, target, lastBlock, ctx₀, hnearest,
      htarget, hlastBlock, hstate⟩⟩

section
variable {S : Type} {node : Node S} {Reads : S → Hash → Prop} (hnode : node.Faithful Reads)
variable (htree : node.db.Tree) {head : Header} (hhead : node.db.Stored head)
variable (hindex : node.db.Indexed head)
include hnode htree hhead hindex

/-- Executed on the state of a canonical block, the next one gives its own state. -/
theorem reads_of_reexecute {a : Header} {s s' : S} (ha : Via node.db.parent head a)
    (hreads : Reads s a.root) (h : node.reexecute (a.number + 1) s = .ok (s', block)) :
    Via node.db.parent head block.header ∧ block.header.number = a.number + 1 ∧
      Reads s' block.header.root := by
  unfold Node.reexecute at h
  split at h
  · cases h
  rename_i b hb
  split at h
  · cases h
  rename_i s₁ hprocess
  split at h
  · cases h
  rename_i root hcommit
  split at h
  · cases h
  rename_i hreset
  cases h
  obtain ⟨hvia, hnumber, htxs⟩ := hindex.via_of_getBlockByNumber htree hhead hb
  obtain ⟨header, transactions⟩ := block
  obtain rfl : transactions = node.db.transactionsOf header := htxs
  have hstored := htree.stored_via hhead hvia
  obtain ⟨p, hp⟩ := htree.parent hstored (by omega)
  have hpnumber := number_parent hp
  have hpa : p = a := eq_of_number_eq (hvia.trans (.inr (of_up hp))) ha (by omega)
  have hroot := hnode.execute hstored (hpa ▸ hp) hreads hprocess hcommit
  exact ⟨hvia, hnumber, hroot ▸ hnode.reset hreset⟩

/-- Executing the blocks of the canonical chain, from the state of one of them. -/
theorem reads_of_regenerate {left : Nat} {current : Block} {a : Header} {s s' : S}
    (ha : Via node.db.parent head a) (hnumber : a.number = current.header.number)
    (hreads : Reads s a.root) (h : node.regenerate left current s ctx = .ok s') :
    ∃ b, Via node.db.parent head b ∧ b.number = a.number + left ∧ Reads s' b.root := by
  induction left generalizing current a s ctx with
  | zero =>
    cases h
    exact ⟨a, ha, rfl, hreads⟩
  | succ left ih =>
    unfold Node.regenerate at h
    split at h
    · cases h
    obtain ⟨⟨s₁, block⟩, hexec, h⟩ := bind_eq_ok.mp h
    rw [← hnumber] at hexec
    obtain ⟨hvia, hblock, hreads⟩ := reads_of_reexecute hnode htree hhead hindex ha hreads hexec
    obtain ⟨b, hb, hbnumber, hend⟩ := ih hvia rfl hreads h
    exact ⟨b, hb, by omega, hend⟩

/-- From the state of a canonical block one gets the state of the canonical block above. -/
theorem reads_regenerated_iff {current : Block} {n : Nat} {s s' : S} {root root' : Hash}
    (hlt : current.header.number < n) (hreads : Reads s root)
    (hroot : node.CanonicalRoot current.header.number root)
    (h : node.regenerate (n - current.header.number) current s ctx = .ok s') :
    Reads s' root' ↔ node.CanonicalRoot n root' := by
  obtain ⟨a, ha, rfl⟩ := Option.map_eq_some_iff.mp hroot
  obtain ⟨havia, hanumber, -⟩ := hindex.via_of_getBlockByNumber htree hhead ha
  obtain ⟨b, hb, hbnumber, hend⟩ :=
    reads_of_regenerate hnode htree hhead hindex havia hanumber hreads h
  obtain rfl : b.number = n := by omega
  rw [Node.CanonicalRoot, hindex.getBlockByNumber_of_via htree hhead hb, Option.map_some,
    Option.some.injEq]
  constructor
  · exact hnode.unique hend
  · rintro rfl
    exact hend

/-- **The state of a header.**  On the hash scheme a header gets its own state if that can be
    opened.  Otherwise the search goes back to the nearest state on disk; if it is the state of
    a canonical block, the header gets its own state exactly if the canonical block with its
    number has the same root.  `hashState` does the same from the state it starts at. -/
theorem reads_of_header (hpath : node.pathScheme = false) :
    (∀ {ctx depth header err archive s h},
      node.stateAndHeaderFromHeader ctx depth (some header) err archive = .ok (s, h) →
      h = header ∧
        ((node.stateAt header.root).isSome ∨ (node.diskState header.root).isSome →
          Reads s header.root) ∧
        (node.stateAt header.root = none → node.diskState header.root = none →
          ∃ last s₀, Nearest node.toBlockChain node.ephemeralStateFor header last s₀ ∧
            (node.CanonicalRoot last.number last.root →
              (Reads s header.root ↔ node.CanonicalRoot header.number header.root)))) ∧
      ∀ {ctx block reexec base baseBlock readOnly preferDisk s},
        node.hashState ctx block reexec base baseBlock readOnly preferDisk = .ok s →
        (node.OpensDirectly block base baseBlock readOnly preferDisk →
          Reads s block.header.root) ∧
        (¬node.OpensDirectly block base baseBlock readOnly preferDisk →
          ∃ current s₀, node.StartsAt block base baseBlock current s₀ ∧
            (block.header.number ≤ current.number → s = s₀) ∧
            (current.number < block.header.number →
              (∃ root, Reads s₀ root ∧ node.CanonicalRoot current.number root) →
              (Reads s block.header.root ↔
                node.CanonicalRoot block.header.number block.header.root))) := by
  constructor
  · intro ctx depth header err archive s h hok
    obtain ⟨rfl, hcases⟩ := stateAndHeaderFromHeader_cases hpath hok
    refine ⟨rfl, fun hopen => ?_, fun hlive hdisk => ?_⟩
    · rcases hcases with (hstate | hstate) | ⟨hlive, hdisk, -⟩
      · exact hnode.stateAt hstate
      · exact hnode.diskState hstate
      · rw [hlive, hdisk] at hopen
        rcases hopen with hopen | hopen <;> cases hopen
    · rcases hcases with hstate | ⟨-, -, last, s₀, target, lastBlock, ctx₀, hnearest, htarget,
        hlastBlock, hhash⟩
      · rw [hlive, hdisk] at hstate
        rcases hstate with hstate | hstate <;> cases hstate
      refine ⟨last, s₀, hnearest, fun hroot => ?_⟩
      obtain ⟨-, htnumber, -⟩ := hindex.via_of_getBlockByNumber htree hhead htarget
      obtain ⟨-, hlnumber, -⟩ := hindex.via_of_getBlockByNumber htree hhead hlastBlock
      have hlt := number_lt_of_anc hnearest.anc
      rw [← hlnumber] at hroot hlt
      rw [← htnumber] at hlt ⊢
      exact reads_regenerated_iff hnode htree hhead hindex hlt (hnode.diskState hnearest.state)
        hroot hhash
  · intro ctx block reexec base baseBlock readOnly preferDisk s hok
    rcases hashState_cases hok with ⟨hopens, hstate⟩ | ⟨hnot, current, s₀, ctx₀, hstart, hregen⟩
    · refine ⟨fun _ => ?_, fun hnot => absurd hopens hnot⟩
      rcases hstate with hstate | hstate
      · exact hnode.stateAt hstate
      · exact hnode.diskState hstate
    · refine ⟨fun hopens => absurd hopens hnot, fun _ => ⟨current.header, s₀, hstart, ?_, ?_⟩⟩
      · intro hle
        rw [Nat.sub_eq_zero_of_le hle] at hregen
        cases hregen
        rfl
      · rintro hlt ⟨root, hreads, hroot⟩
        exact reads_regenerated_iff hnode htree hhead hindex hlt hreads hroot hregen

end

/-- Two blocks on top of the genesis block, of which the first is canonical; only the state of
    the genesis block is on disk.  States are known by the root they read. -/
def sideNode : Node Hash where
  db := (((ofGenesis ⟨⟨1, 0, 0, 100⟩, []⟩).writeBlock ⟨⟨2, 1, 1, 102⟩, [10]⟩).writeHeadBlock
    ⟨⟨2, 1, 1, 102⟩, [10]⟩).writeBlock ⟨⟨3, 1, 1, 103⟩, [11]⟩
  isArbitrum := true
  genesisBlockNum := 0
  getReceiptsByHash _ := none
  pathScheme := false
  stateAt _ := none
  diskState root := if root = 100 then some root else none
  historicState _ := none
  process block _ := some block.header.root
  commit _ s := some s
  reset root := some root

theorem run_sideNode : Run sideNode.db := by
  apply run_fork <;> decide

theorem faithful_sideNode : sideNode.Faithful Eq where
  unique h h' := h.symm.trans h'
  stateAt h := nomatch h
  diskState h := ((ite_none_right_eq_some ..).mp h).2 |> Option.some.inj |>.symm
  reset h := (Option.some.inj h).symm
  execute _ _ _ hprocess hcommit := by
    cases hprocess
    cases hcommit
    rfl

/-- The block of the side branch gets the state of the canonical block, from both functions. -/
theorem side_branch_reads_canonical :
    ChainDb.Run sideNode.db ∧ sideNode.Faithful Eq ∧
      sideNode.db.headers.lookup 3 = some ⟨3, 1, 1, 103⟩ ∧
      sideNode.stateAndHeaderFromHeader {} (-1) (some ⟨3, 1, 1, 103⟩) none none =
        .ok (102, ⟨3, 1, 1, 103⟩) ∧
      sideNode.hashState {} ⟨⟨3, 1, 1, 103⟩, [11]⟩ 1 none none false false = .ok 102 :=
  ⟨run_sideNode, faithful_sideNode, by decide +kernel, by decide +kernel, by decide +kernel⟩

/-- The canonical block gets its own, recreated on the state of the genesis block. -/
theorem reads_of_header_canonical :
    ∃ s, sideNode.stateAndHeaderFromHeader {} (-1) (some ⟨2, 1, 1, 102⟩) none none =
        .ok (s, ⟨2, 1, 1, 102⟩) ∧ s = 102 := by
  have hdb := run_sideNode.consistent
  have hok : sideNode.stateAndHeaderFromHeader {} (-1) (some ⟨2, 1, 1, 102⟩) none none =
      .ok (102, ⟨2, 1, 1, 102⟩) := by decide +kernel
  obtain ⟨last, s₀, hnearest, hiff⟩ := ((reads_of_header faithful_sideNode hdb.tree hdb.current
    hdb.indexed rfl).1 hok).2.2 rfl (by decide +kernel)
  -- the nearest state is that of the genesis block
  have hp : sideNode.db.parent ⟨2, 1, 1, 102⟩ = some ⟨1, 0, 0, 100⟩ := by decide +kernel
  have hlast : last = ⟨1, 0, 0, 100⟩ := by
    obtain ⟨p, hp', hvia⟩ := anc_iff.mp hnearest.anc
    cases hp.symm.trans hp'
    rcases hvia with rfl | hanc
    · rfl
    · exact absurd (number_lt_of_anc hanc) (Nat.not_lt_zero _)
  refine ⟨102, hok, (hiff ?_).mpr ?_⟩
  · rw [hlast]
    unfold Node.CanonicalRoot
    decide +kernel
  · unfold Node.CanonicalRoot
    decide +kernel

end GethArb.Chain
