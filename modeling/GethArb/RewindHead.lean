/-
  **Rewinding the head to a state** (`core/blockchain.go`: `rewindHashHead`), for a node with
  the hash scheme whose head has no state.

  The loop goes back along parents, past the header with the wanted root if there is one, to a
  header whose state is there.  A gas limit may stop it earlier, at the first header on the way
  that had a state.

    * `rewindHashHead_usable_iff`: it finds what it should exactly if the headers it passes are
      safe: a header with a state above the wanted root has a parent, the gas limit does not cut
      in below the wanted root, and the genesis does not lie above it.
    * `rewindHashHead_goes_wrong`: without a stored parent it follows a nil header, and the gas
      limit overwrites the number it reports for the root.

  Logging is left out.  `stateRecoverable` is only asked of headers whose state is there.
-/
import GethArb.Types

namespace GethArb.Chain

structure RewindHeader where
  hash : Hash
  parentHash : Hash
  number : U64
  root : Hash
  gasUsed : U64
deriving DecidableEq

/-- What the loop reads: headers, states, receipts (the L1 part of their gas) and settings. -/
structure RewindChain where
  getHeader : Hash → U64 → Option RewindHeader
  hasState : Hash → Bool
  stateRecoverable : Hash → Bool
  gasUsedForL1 : Hash → List U64
  genesisBlock : RewindHeader
  isArbitrum : Bool
  pivot : Option U64
  headRewindBlocksLimit : U64

inductive RewindFailure where
  | nilHeader
  | outOfFuel
deriving DecidableEq

/-- Head, number of the wanted root, and whether it was found. -/
structure Rewound where
  head : RewindHeader
  rootNumber : U64
  rootFound : Bool
deriving DecidableEq

structure RewindTrack where
  rootFound : Bool
  rootNumber : U64
  lastFullBlock : U64
  lastFullBlockHash : Hash
  gasRolledBack : U64
deriving DecidableEq

def fullImmutabilityThreshold : U64 := 90000

namespace RewindChain

variable (c : RewindChain)

def parent (head : RewindHeader) : Option RewindHeader :=
  c.getHeader head.parentHash (head.number - 1)

/-- The oldest block that is searched. -/
def searchLimit (head : RewindHeader) : U64 :=
  match c.pivot with
  | some pivot => pivot
  | none =>
    if c.headRewindBlocksLimit > 0 ∧ head.number > c.headRewindBlocksLimit then
      head.number - c.headRewindBlocksLimit
    else if head.number > fullImmutabilityThreshold then head.number - fullImmutabilityThreshold
    else 0

def gasUsedInBlock (head : RewindHeader) : U64 :=
  if c.isArbitrum then (c.gasUsedForL1 head.hash).foldl (· - ·) head.gasUsed else head.gasUsed

/-- The gas of a block below the last full block counts as rolled back. -/
def rollBack (rewindGasLimit : U64) (head : RewindHeader) (t : RewindTrack) : RewindTrack :=
  if rewindGasLimit > 0 ∧ t.lastFullBlock ≠ 0 then
    { t with gasRolledBack := t.gasRolledBack + c.gasUsedInBlock head }
  else t

def checkRoot (root : Hash) (head : RewindHeader) (t : RewindTrack) : RewindTrack :=
  if t.rootFound = false ∧ head.root = root then
    { t with rootFound := true, rootNumber := head.number }
  else t

def noteFull (head : RewindHeader) (t : RewindTrack) : RewindTrack :=
  if (c.hasState head.root || c.stateRecoverable head.root) ∧ t.lastFullBlock = 0 then
    { t with lastFullBlock := head.number, lastFullBlockHash := head.hash }
  else t

/-- The round below the gas limit, after the root was looked for: it stops, or goes on with a
    parent. -/
def rewindBelow (limit : U64) (head : RewindHeader) (t : RewindTrack) :
    Except RewindFailure (Rewound ⊕ RewindHeader × RewindTrack) :=
  if head.number < limit then .ok (.inl ⟨c.genesisBlock, t.rootNumber, t.rootFound⟩)
  else if c.hasState head.root = false then
    match c.parent head with
    | none => .ok (.inl ⟨c.genesisBlock, t.rootNumber, t.rootFound⟩)
    | some parent =>
      if parent.number = 0 then .ok (.inl ⟨parent, t.rootNumber, t.rootFound⟩)
      else .ok (.inr (parent, t))
  else if t.rootFound = true ∨ head.number = 0 then .ok (.inl ⟨head, t.rootNumber, t.rootFound⟩)
  else
    match c.parent head with
    | none => .error .nilHeader
    | some parent => .ok (.inr (parent, c.noteFull head t))

/-- The gas limit is reached. -/
abbrev GasStop (rewindGasLimit : U64) (t : RewindTrack) : Prop :=
  rewindGasLimit > 0 ∧ t.lastFullBlock ≠ 0 ∧ t.gasRolledBack ≥ rewindGasLimit

/-- One round of the loop. -/
def rewindStep (root : Hash) (rewindGasLimit limit : U64) (head : RewindHeader) (t : RewindTrack) :
    Except RewindFailure (Rewound ⊕ RewindHeader × RewindTrack) :=
  let t := c.rollBack rewindGasLimit head t
  if GasStop rewindGasLimit t then
    match c.getHeader t.lastFullBlockHash t.lastFullBlock with
    | none => .error .nilHeader
    | some head => .ok (.inl ⟨head, t.lastFullBlock, t.rootFound⟩)
  else c.rewindBelow limit head (checkRoot root head t)

def rewindLoop (root : Hash) (rewindGasLimit limit : U64) :
    Nat → RewindHeader → RewindTrack → Except RewindFailure Rewound
  | 0, _, _ => .error .outOfFuel
  | fuel + 1, head, t =>
    match c.rewindStep root rewindGasLimit limit head t with
    | .error err => .error err
    | .ok (.inl r) => .ok r
    | .ok (.inr (head, t)) => rewindLoop root rewindGasLimit limit fuel head t

def rewindHashHead (fuel : Nat) (head : RewindHeader) (root : Hash) (rewindGasLimit : U64) :
    Except RewindFailure Rewound :=
  c.rewindLoop root rewindGasLimit (c.searchLimit head) fuel head ⟨decide (root = 0), 0, 0, 0, 0⟩

/-! ### What is wanted -/

abbrev Ancestor : RewindHeader → RewindHeader → Prop :=
  Relation.ReflTransGen fun h p => c.parent h = some p

/-- The ancestor with this number has the root, and lies at `number` or above. -/
def FoundAt (root : Hash) (start : RewindHeader) (number rootNumber : U64) : Prop :=
  ∃ a, c.Ancestor start a ∧ a.number = rootNumber ∧ a.root = root ∧ number ≤ rootNumber

structure Usable (root : Hash) (start : RewindHeader) (r : Rewound) : Prop where
  head : r.head = c.genesisBlock ∨ c.Ancestor start r.head ∧ c.hasState r.head.root = true
  root : r.rootFound = true → root ≠ 0 → c.FoundAt root start r.head.number r.rootNumber

def Stored (h : RewindHeader) : Prop := c.getHeader h.hash h.number = some h

/-- Headers are stored under their hash and number, and one with number zero has no parent. -/
structure HeaderStore : Prop where
  keyed : ∀ k n h, c.getHeader k n = some h → h.hash = k ∧ h.number = n
  first : ∀ h, c.Stored h → h.number = 0 → c.parent h = none

/-! ### When it is found -/

/-- What must hold of a header that the gas limit does not stop at. -/
structure SafeBelow (root : Hash) (limit : U64) (head : RewindHeader) (t : RewindTrack) : Prop where
  /-- A reset to the genesis does not go above the root that was found. -/
  reset : (head.number < limit ∨ c.hasState head.root = false ∧ c.parent head = none) →
    t.rootFound = true → root ≠ 0 → c.genesisBlock.number ≤ t.rootNumber
  /-- The loop ends at a parent with number zero, which must be the genesis or have a state. -/
  zero : ¬head.number < limit → c.hasState head.root = false → ∀ p ∈ c.parent head,
    p.number = 0 → p = c.genesisBlock ∨ c.hasState p.root = true
  /-- Above the root the loop goes on from a state to the parent, which must be stored. -/
  parent : ¬head.number < limit → c.hasState head.root = true → t.rootFound = false →
    head.number ≠ 0 → c.parent head ≠ none

/-- What must hold of a header that the loop passes. -/
structure Safe (root : Hash) (rewindGasLimit limit : U64) (head : RewindHeader) (t : RewindTrack) :
    Prop where
  /-- The gas limit does not stop the loop after a wanted root was found. -/
  gas : GasStop rewindGasLimit t → root ≠ 0 → t.rootFound = false
  below : ¬GasStop rewindGasLimit t → c.SafeBelow root limit head (checkRoot root head t)

/-- The loop goes from one header to another. -/
def Passes (root : Hash) (rewindGasLimit limit : U64) :
    RewindHeader × RewindTrack → RewindHeader × RewindTrack → Prop :=
  Relation.ReflTransGen fun x y => c.rewindStep root rewindGasLimit limit x.1 x.2 = .ok (.inr y)

/-- The loop is at `head`. -/
structure Reached (root : Hash) (start head : RewindHeader) (t : RewindTrack) : Prop where
  ancestor : c.Ancestor start head
  stored : c.Stored head
  full : t.lastFullBlock ≠ 0 → ∃ f, c.getHeader t.lastFullBlockHash t.lastFullBlock = some f ∧
    c.Ancestor start f ∧ c.hasState f.root = true ∧ f.root ≠ root
  found : t.rootFound = true → root ≠ 0 → c.FoundAt root start head.number t.rootNumber

section
variable {c} {root : Hash} {rewindGasLimit limit : U64} {start head p : RewindHeader}
  {t : RewindTrack}

theorem FoundAt.lower {n n' rootNumber : U64} (h : c.FoundAt root start n rootNumber)
    (hle : n' ≤ n) : c.FoundAt root start n' rootNumber := by
  obtain ⟨a, hanc, hnumber, hroot, hn⟩ := h
  exact ⟨a, hanc, hnumber, hroot, BitVec.le_trans hle hn⟩

theorem Reached.rollBack (h : c.Reached root start head t) :
    c.Reached root start head (c.rollBack rewindGasLimit head t) := by
  unfold RewindChain.rollBack
  split
  · exact { h with }
  · exact h

/-- After the check the root was found, or the header does not have it. -/
theorem Reached.checkRoot (h : c.Reached root start head t) :
    c.Reached root start head (checkRoot root head t) ∧
      ((RewindChain.checkRoot root head t).rootFound = false → head.root ≠ root) := by
  unfold RewindChain.checkRoot
  split
  · rename_i hhere
    refine ⟨⟨h.ancestor, h.stored, h.full, fun _ _ => ?_⟩, nofun⟩
    exact ⟨head, h.ancestor, rfl, hhere.2, BitVec.le_refl _⟩
  · rename_i hnot
    exact ⟨h, fun hf heq => hnot ⟨hf, heq⟩⟩

variable (hstore : c.HeaderStore)
include hstore

theorem HeaderStore.stored {k : Hash} {n : U64} (h : c.getHeader k n = some p) : c.Stored p := by
  obtain ⟨rfl, rfl⟩ := hstore.keyed k n p h
  exact h

/-- A parent is stored and has the next lower number. -/
theorem parent_spec (hhead : c.Stored head) (h : c.parent head = some p) :
    c.Stored p ∧ p.number.toNat + 1 = head.number.toNat := by
  refine ⟨hstore.stored h, ?_⟩
  obtain ⟨-, hnumber⟩ := hstore.keyed _ _ p h
  have hne : head.number ≠ 0 := by
    intro hzero
    rw [hstore.first head hhead hzero] at h
    cases h
  bv_omega

theorem Reached.parent (h : c.Reached root start head t) (hp : c.parent head = some p) :
    c.Reached root start p t ∧ p.number.toNat < head.number.toNat := by
  obtain ⟨hstored, hnumber⟩ := parent_spec hstore h.stored hp
  refine ⟨⟨h.ancestor.tail hp, hstored, h.full, fun hf hroot => ?_⟩, by omega⟩
  refine (h.found hf hroot).lower ?_
  rw [BitVec.le_def]
  omega

theorem number_lt_of_ancestor {a : RewindHeader} (hhead : c.Stored head) (h : c.Ancestor head a) :
    c.Stored a ∧ (a = head ∨ a.number.toNat < head.number.toNat) := by
  induction h with
  | refl => exact ⟨hhead, .inl rfl⟩
  | tail _ hp ih =>
    obtain ⟨hstored, hnumber⟩ := parent_spec hstore ih.1 hp
    refine ⟨hstored, .inr ?_⟩
    rcases ih.2 with rfl | hlt <;> omega

/-- A header has one ancestor at each number. -/
theorem ancestor_unique {a b : RewindHeader} (hstart : c.Stored start) (ha : c.Ancestor start a)
    (hb : c.Ancestor start b) (hnumber : a.number = b.number) : a = b := by
  have hunique : Relator.RightUnique fun h p => c.parent h = some p :=
    fun _ _ _ hp hp' => Option.some.inj (hp.symm.trans hp')
  have hsa := (number_lt_of_ancestor hstore hstart ha).1
  have hsb := (number_lt_of_ancestor hstore hstart hb).1
  rcases Relation.ReflTransGen.total_of_right_unique hunique ha hb with hab | hba
  · exact ((number_lt_of_ancestor hstore hsa hab).2.resolve_right (by bv_omega)).symm
  · exact (number_lt_of_ancestor hstore hsb hba).2.resolve_right (by bv_omega)

omit hstore in
/-- A reset to the genesis. -/
theorem usable_genesis_iff (h : c.Reached root start head t) :
    c.Usable root start ⟨c.genesisBlock, t.rootNumber, t.rootFound⟩ ↔
      (t.rootFound = true → root ≠ 0 → c.genesisBlock.number ≤ t.rootNumber) := by
  constructor
  · intro husable hf hroot
    obtain ⟨-, -, -, -, hle⟩ := husable.root hf hroot
    exact hle
  · intro hle
    refine ⟨.inl rfl, fun hf hroot => ?_⟩
    obtain ⟨a, hanc, hnumber, haroot, -⟩ := h.found hf hroot
    exact ⟨a, hanc, hnumber, haroot, hle hf hroot⟩

/-- At the gas limit the header returned does not have the wanted root. -/
theorem usable_full_iff (hstart : c.Stored start) (h : c.Reached root start head t)
    {f : RewindHeader} (hf : c.getHeader t.lastFullBlockHash t.lastFullBlock = some f)
    (hfull : t.lastFullBlock ≠ 0) :
    c.Usable root start ⟨f, t.lastFullBlock, t.rootFound⟩ ↔ (root ≠ 0 → t.rootFound = false) := by
  obtain ⟨f', hf', hanc, hstate, hne⟩ := h.full hfull
  cases hf.symm.trans hf'
  constructor
  · intro husable hroot
    by_contra hfound
    obtain ⟨a, ha, hnumber, haroot, -⟩ := husable.root (by simpa using hfound) hroot
    have hsame :=
      ancestor_unique hstore hstart ha hanc (hnumber.trans (hstore.keyed _ _ f hf).2.symm)
    exact hne (hsame ▸ haroot)
  · intro hnot
    refine ⟨.inr ⟨hanc, hstate⟩, fun hfound hroot => ?_⟩
    rw [show t.rootFound = true from hfound] at hnot
    cases hnot hroot

theorem rewindBelow_spec (h : c.Reached root start head t)
    (hroot : t.rootFound = false → head.root ≠ root) :
    (∃ r, c.rewindBelow limit head t = .ok (.inl r) ∧
      (c.Usable root start r ↔ c.SafeBelow root limit head t)) ∨
    (c.rewindBelow limit head t = .error .nilHeader ∧ ¬c.SafeBelow root limit head t) ∨
    ∃ p t', c.rewindBelow limit head t = .ok (.inr (p, t')) ∧ c.SafeBelow root limit head t ∧
      c.Reached root start p t' ∧ p.number.toNat < head.number.toNat := by
  unfold rewindBelow
  by_cases hlimit : head.number < limit
  · rw [if_pos hlimit]
    refine .inl ⟨_, rfl, (usable_genesis_iff h).trans ⟨fun hle => ?_, fun hsafe => ?_⟩⟩
    · exact ⟨fun _ => hle, fun hnot => absurd hlimit hnot, fun hnot => absurd hlimit hnot⟩
    · exact hsafe.reset (.inl hlimit)
  rw [if_neg hlimit]
  by_cases hstate : c.hasState head.root = false
  · have hparent : ¬head.number < limit → c.hasState head.root = true → t.rootFound = false →
        head.number ≠ 0 → c.parent head ≠ none := by simp [hstate]
    rw [if_pos hstate]
    cases hp : c.parent head with
    | none =>
      refine .inl ⟨_, rfl, (usable_genesis_iff h).trans ⟨fun hle => ?_, fun hsafe => ?_⟩⟩
      · exact ⟨fun _ => hle, by simp [hp], hparent⟩
      · exact hsafe.reset (.inr ⟨hstate, hp⟩)
    | some p =>
      obtain ⟨hreached, hlt⟩ := h.parent hstore hp
      dsimp only
      split
      · rename_i hzero
        refine .inl ⟨_, rfl, fun husable => ⟨by simp [hlimit, hp], ?_, hparent⟩, fun hsafe => ?_⟩
        · intro _ _ p' hp' _
          cases hp.symm.trans hp'
          exact husable.head.imp_right And.right
        · refine ⟨?_, fun hf hne => hreached.found hf hne⟩
          exact (hsafe.zero hlimit hstate p hp hzero).imp_right fun hs => ⟨hreached.ancestor, hs⟩
      · rename_i hzero
        refine .inr (.inr ⟨p, t, rfl, ⟨by simp [hlimit, hp], ?_, hparent⟩, hreached, hlt⟩)
        intro _ _ p' hp' hp'zero
        cases hp.symm.trans hp'
        exact absurd hp'zero hzero
  · rw [if_neg hstate]
    have hstate : c.hasState head.root = true := by simpa using hstate
    split
    · rename_i hstop
      refine .inl ⟨_, rfl, iff_of_true ⟨.inr ⟨h.ancestor, hstate⟩, h.found⟩ ?_⟩
      refine ⟨by simp [hlimit, hstate], by simp [hstate], fun _ _ hnot hne => ?_⟩
      rcases hstop with hf | hzero
      · rw [hnot] at hf
        cases hf
      · exact absurd hzero hne
    rename_i hgo
    obtain ⟨hnot, hnumber⟩ := not_or.mp hgo
    have hnot : t.rootFound = false := by simpa using hnot
    cases hp : c.parent head with
    | none => exact .inr (.inl ⟨rfl, fun hsafe => hsafe.parent hlimit hstate hnot hnumber hp⟩)
    | some p =>
      obtain ⟨hreached, hlt⟩ := h.parent hstore hp
      refine .inr
        (.inr ⟨p, _, rfl, ⟨by simp [hlimit, hstate], by simp [hstate], by simp [hp]⟩, ?_, hlt⟩)
      -- the header may be the first with a state, and does not have the root
      unfold noteFull
      split
      · exact ⟨hreached.ancestor, hreached.stored,
          fun _ => ⟨head, h.stored, h.ancestor, hstate, hroot hnot⟩, hreached.found⟩
      · exact hreached

variable (rewindGasLimit limit) in
/-- One round stops, rightly if the header is safe, or goes on below a safe one. -/
theorem rewindStep_spec (hstart : c.Stored start) (h : c.Reached root start head t) :
    (∃ r, c.rewindStep root rewindGasLimit limit head t = .ok (.inl r) ∧
      (c.Usable root start r ↔
        c.Safe root rewindGasLimit limit head (c.rollBack rewindGasLimit head t))) ∨
    (c.rewindStep root rewindGasLimit limit head t = .error .nilHeader ∧
      ¬c.Safe root rewindGasLimit limit head (c.rollBack rewindGasLimit head t)) ∨
    ∃ p t', c.rewindStep root rewindGasLimit limit head t = .ok (.inr (p, t')) ∧
      c.Safe root rewindGasLimit limit head (c.rollBack rewindGasLimit head t) ∧
      c.Reached root start p t' ∧ p.number.toNat < head.number.toNat := by
  have h : c.Reached root start head (c.rollBack rewindGasLimit head t) := h.rollBack
  unfold rewindStep
  generalize c.rollBack rewindGasLimit head t = t at h ⊢
  by_cases hgas : GasStop rewindGasLimit t
  · obtain ⟨f, hf, -⟩ := h.full hgas.2.1
    simp only [if_pos hgas, hf]
    refine .inl ⟨_, rfl, (usable_full_iff hstore hstart h hf hgas.2.1).trans ⟨?_, ?_⟩⟩
    · exact fun hnot => ⟨fun _ => hnot, fun hno => absurd hgas hno⟩
    · exact fun hsafe => hsafe.gas hgas
  · have hsafe : c.Safe root rewindGasLimit limit head t ↔
        c.SafeBelow root limit head (checkRoot root head t) :=
      ⟨fun hsafe => hsafe.below hgas,
        fun hbelow => ⟨fun hstop => absurd hstop hgas, fun _ => hbelow⟩⟩
    simp only [if_neg hgas, hsafe]
    obtain ⟨hchecked, hroot⟩ := h.checkRoot
    exact rewindBelow_spec hstore hchecked hroot

omit hstore in
/-- The headers passed are the one the loop is at and those passed from the next one. -/
theorem forall_passes_iff {Q : RewindHeader × RewindTrack → Prop} {x : RewindHeader × RewindTrack} :
    (∀ y, c.Passes root rewindGasLimit limit x y → Q y) ↔
      Q x ∧ ∀ z, c.rewindStep root rewindGasLimit limit x.1 x.2 = .ok (.inr z) →
        ∀ y, c.Passes root rewindGasLimit limit z y → Q y := by
  constructor
  · exact fun hall => ⟨hall x .refl, fun z hz y hy => hall y (.head hz hy)⟩
  · rintro ⟨hx, hrest⟩ y hy
    rcases Relation.ReflTransGen.cases_head hy with rfl | ⟨z, hz, hy⟩
    · exact hx
    · exact hrest z hz y hy

theorem rewindLoop_iff (hstart : c.Stored start) {fuel : Nat} (h : c.Reached root start head t)
    (hfuel : head.number.toNat < fuel) :
    (∃ r, c.rewindLoop root rewindGasLimit limit fuel head t = .ok r ∧ c.Usable root start r) ↔
      ∀ y, c.Passes root rewindGasLimit limit (head, t) y →
        c.Safe root rewindGasLimit limit y.1 (c.rollBack rewindGasLimit y.1 y.2) := by
  induction fuel generalizing head t with
  | zero => exact absurd hfuel (Nat.not_lt_zero _)
  | succ fuel ih =>
    rw [forall_passes_iff, rewindLoop]
    rcases rewindStep_spec rewindGasLimit limit hstore hstart h with
      ⟨r, hstep, hiff⟩ | ⟨hstep, hnot⟩ | ⟨p, t', hstep, hsafe, hreached, hlt⟩
    · simp [hstep, hiff]
    · simp [hstep, hnot]
    · simp [hstep, hsafe, ih hreached (by omega)]

/-- **When rewinding finds a usable head.**  From any stored header, the loop ends after as many
    rounds as there are numbers, with the genesis or an ancestor with a state, and with what it
    reports of the wanted root right, exactly if the headers it passes are safe. -/
theorem rewindHashHead_usable_iff (hstart : c.Stored start) :
    (∃ r, c.rewindHashHead (start.number.toNat + 1) start root rewindGasLimit = .ok r ∧
      c.Usable root start r) ↔
    ∀ head t, c.Passes root rewindGasLimit (c.searchLimit start)
        (start, ⟨decide (root = 0), 0, 0, 0, 0⟩) (head, t) →
      c.Safe root rewindGasLimit (c.searchLimit start) head (c.rollBack rewindGasLimit head t) := by
  have hreached : c.Reached root start start ⟨decide (root = 0), 0, 0, 0, 0⟩ :=
    ⟨.refl, hstart, nofun, fun hf hroot => absurd (of_decide_eq_true hf) hroot⟩
  exact (rewindLoop_iff hstore hstart hreached (Nat.lt_succ_self _)).trans Prod.forall

end

/-- Headers with these numbers and roots `10 + number`, each the parent of the next, and states
    for these roots. -/
def rewindChain (genesis : U64) (numbers : List U64) (states : List Hash) : RewindChain where
  getHeader k n := if k = n.setWidth 256 ∧ n ∈ numbers then some (header n) else none
  hasState root := root ∈ states
  stateRecoverable _ := false
  gasUsedForL1 _ := []
  genesisBlock := header genesis
  isArbitrum := true
  pivot := none
  headRewindBlocksLimit := 0
where
  header (n : U64) : RewindHeader :=
    ⟨n.setWidth 256, (n - 1).setWidth 256, n, (n + 10).setWidth 256, if n = 1 then 1 else 0⟩

section
open rewindChain
variable {genesis n : U64} {numbers : List U64} {states : List Hash} {k : Hash} {h : RewindHeader}

theorem getHeader_rewindChain (hget : (rewindChain genesis numbers states).getHeader k n = some h) :
    h = header n ∧ k = n.setWidth 256 ∧ n ∈ numbers := by
  simp only [rewindChain] at hget
  split at hget
  · rename_i hk
    exact ⟨(Option.some.inj hget).symm, hk⟩
  · cases hget

theorem headerStore_rewindChain (hzero : 0 - 1 ∉ numbers) :
    (rewindChain genesis numbers states).HeaderStore := by
  constructor
  · intro k n h hget
    obtain ⟨rfl, rfl, -⟩ := getHeader_rewindChain hget
    exact ⟨rfl, rfl⟩
  · intro h hstored hnumber
    by_contra hparent
    obtain ⟨p, hp⟩ := Option.ne_none_iff_exists'.mp hparent
    obtain ⟨-, -, hmem⟩ := getHeader_rewindChain hp
    rw [hnumber] at hmem
    exact hzero hmem

/-- The genesis has number five.  The loop passes the header six, which has the wanted root and
    no state, and ends at the genesis. -/
theorem rewindHashHead_usable_iff_seven :
    let c := rewindChain 5 [5, 6, 7] [15, 17]
    c.rewindHashHead 8 (header 7) 16 0 = .ok ⟨header 5, 6, true⟩ ∧
      ∃ r, c.rewindHashHead 8 (header 7) 16 0 = .ok r ∧ c.Usable 16 (header 7) r := by
  intro c
  have hstart : c.Stored (header 7) := by
    unfold Stored
    decide +kernel
  have hseven : c.rewindStep 16 0 0 (header 7) ⟨false, 0, 0, 0, 0⟩ =
      .ok (.inr (header 6, ⟨false, 0, 7, 7, 0⟩)) := by decide +kernel
  have hsix : c.rewindStep 16 0 0 (header 6) ⟨false, 0, 7, 7, 0⟩ =
      .ok (.inr (header 5, ⟨true, 6, 7, 7, 0⟩)) := by decide +kernel
  have hfive : c.rewindStep 16 0 0 (header 5) ⟨true, 6, 7, 7, 0⟩ =
      .ok (.inl ⟨header 5, 6, true⟩) := by decide +kernel
  have hsafe : ∀ y, c.Passes 16 0 0 (header 7, ⟨false, 0, 0, 0, 0⟩) y →
      c.Safe 16 0 0 y.1 (c.rollBack 0 y.1 y.2) := by
    rw [forall_passes_iff]
    refine ⟨⟨by decide, fun _ => ⟨by decide +kernel, by decide +kernel, by decide +kernel⟩⟩, ?_⟩
    intro z hz
    cases hseven.symm.trans hz
    rw [forall_passes_iff]
    refine ⟨⟨by decide, fun _ => ⟨by decide +kernel, by decide +kernel, by decide +kernel⟩⟩, ?_⟩
    intro z hz
    cases hsix.symm.trans hz
    rw [forall_passes_iff]
    refine ⟨⟨by decide, fun _ => ⟨by decide +kernel, by decide +kernel, by decide +kernel⟩⟩, ?_⟩
    intro z hz
    cases hfive.symm.trans hz
  exact ⟨by decide +kernel, (rewindHashHead_usable_iff (headerStore_rewindChain (by decide))
    hstart).mpr fun head t => hsafe (head, t)⟩

/-- The genesis has number five, so its parent is not stored.  In the second chain the root is
    found at block two, which has no state, and the gas limit is reached at block one. -/
theorem rewindHashHead_goes_wrong :
    (rewindChain 5 [5, 6] [15]).rewindHashHead 9 (header 6) 99 0 = .error .nilHeader ∧
    (rewindChain 0 [0, 1, 2, 3] [10, 13]).rewindHashHead 9 (header 3) 12 1 =
      .ok ⟨header 3, 3, true⟩ ∧ (header 3).root ≠ 12 := by
  decide +kernel

end

end RewindChain

end GethArb.Chain
