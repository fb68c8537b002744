/-
  **Conditional transactions** (`arbitrum_types/txoptions.go`).

  The sender of a transaction can bound the L1 block number and the timestamp, and name for
  some accounts the values of slots or the root of the whole storage.  `Check` tests this
  between the transactions of a block.  A slot is read with `GetState`, which knows every
  write.  A root is read with `GetStorageRoot`, from a field that only `IntermediateRoot`
  brings up to date: after a write to the storage, the root before it still passes
  (`check_stale_root`).  `check_iff_meets` says exactly when this matters: when the bounds and
  the other accounts do not decide, and the accounts that are misjudged are all accepted, or
  all rejected.
-/
import GethArb.StateCommit
import GethArb.World

namespace GethArb.Arbitrum

open GoMap StateDB

structure RejectedError where
  msg : String

/-- A condition on an account.  `UnmarshalJSON` sets one of the two, and `Check` reads the slots
    only without a root. -/
structure RootHashOrSlots where
  rootHash : Option Hash
  slotValue : GoMap Hash Hash

structure ConditionalOptions where
  knownAccounts : GoMap Address RootHashOrSlots
  blockNumberMin : Option U64
  blockNumberMax : Option U64
  timestampMin : Option U64
  timestampMax : Option U64

/-! ### The checks -/

/-- A loop that returns at the first error. -/
def runChecks {α : Type} (check : α → StateDB → Option RejectedError × StateDB) :
    List α → StateDB → Option RejectedError × StateDB
  | [], s => (none, s)
  | x :: rest, s =>
    match check x s with
    | (some err, s) => (some err, s)
    | (none, s) => runChecks check rest s

theorem rejected_iff {c : Prop} [Decidable c] {err : RejectedError} {s : StateDB}
    {x : Option RejectedError × StateDB} :
    (if c then (some err, s) else x).1 = none ↔ ¬c ∧ x.1 = none := by
  split <;> simp [*]

theorem not_any_iff {o : Option U64} {p : U64 → Prop} [DecidablePred p] :
    ¬o.any (p ·) = true ↔ ∀ bound ∈ o, ¬p bound := by
  cases o <;> simp

section
variable [Crypto]

def checkSlot (address : Address) (entry : Hash × Hash) (s : StateDB) :
    Option RejectedError × StateDB :=
  let (slot, value) := entry
  let (stored, s) := s.getState address slot
  (if stored ≠ value then some ⟨"Storage slot value condition not met"⟩ else none, s)

def checkAccount (ord : MapOrders) (entry : Address × RootHashOrSlots) (s : StateDB) :
    Option RejectedError × StateDB :=
  let (address, rootHashOrSlots) := entry
  match rootHashOrSlots.rootHash with
  | some rootHash =>
    let (storageRoot, s) := s.getStorageRoot address
    (if storageRoot ≠ rootHash then some ⟨"Storage root hash condition not met"⟩ else none, s)
  | none => runChecks (checkSlot address) (range ord.hash rootHashOrSlots.slotValue) s

def ConditionalOptions.check (ord : MapOrders) (o : ConditionalOptions)
    (l1BlockNumber l2Timestamp : U64) (s : StateDB) : Option RejectedError × StateDB :=
  if o.blockNumberMin.any (l1BlockNumber < ·) then
    (some ⟨"BlockNumberMin condition not met"⟩, s)
  else if o.blockNumberMax.any (l1BlockNumber > ·) then
    (some ⟨"BlockNumberMax condition not met"⟩, s)
  else if o.timestampMin.any (l2Timestamp < ·) then (some ⟨"TimestampMin condition not met"⟩, s)
  else if o.timestampMax.any (l2Timestamp > ·) then (some ⟨"TimestampMax condition not met"⟩, s)
  else runChecks (checkAccount ord) (range ord.account o.knownAccounts) s

/-! ### What the conditions say -/

/-- An account with this root and these slots is as the condition says. -/
structure RootHashOrSlots.Holds (r : RootHashOrSlots) (root : Option Hash) (state : Hash → Hash) :
    Prop where
  root : ∀ rootHash ∈ r.rootHash, root = some rootHash
  slots : ∀ slot value, r.slotValue.lookup slot = some value → state slot = value

/-- Block number and time lie within the bounds that are given. -/
structure ConditionalOptions.Within (o : ConditionalOptions) (l1BlockNumber l2Timestamp : U64) :
    Prop where
  blockNumberMin : ∀ bound ∈ o.blockNumberMin, bound ≤ l1BlockNumber
  blockNumberMax : ∀ bound ∈ o.blockNumberMax, l1BlockNumber ≤ bound
  timestampMin : ∀ bound ∈ o.timestampMin, bound ≤ l2Timestamp
  timestampMax : ∀ bound ∈ o.timestampMax, l2Timestamp ≤ bound

/-- The conditions, for accounts with the roots `root`. -/
def ConditionalOptions.Meets (o : ConditionalOptions) (l1BlockNumber l2Timestamp : U64)
    (root : Address → Option Hash) (w : World) : Prop :=
  o.Within l1BlockNumber l2Timestamp ∧
    ∀ addr r, o.knownAccounts.lookup addr = some r → r.Holds (root addr) (w.state addr)

/-- The storage root that `IntermediateRoot` would give an account now. -/
def rootNow (ord : MapOrders) (s : StateDB) (addr : Address) : Option Hash :=
  (s.intermediateRoot ord true).map fun (_, t) => (t.getStorageRoot addr).1

/-! ### The checks read, and change nothing they read -/

/-- The root field of every account, and the world. -/
def shown (s : StateDB) : (Address → Option Hash) × World :=
  (fun addr => some ((s.peek addr).elim 0 (·.data.root)), s.world)

variable (s : StateDB) (addr : Address)

theorem getStorageRoot_shown :
    (shown s).1 addr = some (s.getStorageRoot addr).1 ∧
      shown (s.getStorageRoot addr).2 = shown s := by
  have hload := s.loaded_getStateObject addr
  have hpeek := s.peek_getStateObject addr
  unfold getStorageRoot readObject shown
  rcases s.getStateObject_cases addr with ⟨t, heq, hnone, -⟩ | ⟨obj, t, heq, hsome, -⟩ <;>
    rw [heq] at hload hpeek
  · simp [heq, hnone, hload.world, hpeek]
  · simp [heq, hsome, hload.world, hpeek]

theorem getState_shown (key : Hash) : shown (s.getState addr key).2 = shown s := by
  refine Prod.ext (funext fun b => ?_) (s.getStateAndCommittedState_spec addr key).2.2.world
  have hpeek := s.peek_getStateObject addr b
  unfold getState getStateAndCommittedState shown
  rcases s.getStateObject_cases addr with ⟨t, heq, -⟩ | ⟨obj, t, heq, hobj, -⟩ <;> rw [heq] at hpeek
  · simp [heq, hpeek]
  -- the object is replaced by one that has the slot in its cache
  simp only [heq, StateObject.getState_eq]
  generalize hread : obj.getCommittedState t.reader addr (t.destructed addr) key = read
  have hdata : read.2.1.data = obj.data := by
    rw [← hread]
    rcases (obj.getCommittedState_cases t.reader addr (t.destructed addr) key).2 with
      h | ⟨-, -, h⟩ <;> rw [h]
  change some (((t.setStateObject addr read.2.1).peek b).elim 0 (·.data.root)) = _
  by_cases hb : b = addr
  · subst hb
    rw [peek_setStateObject, hobj, Option.elim_some, Option.elim_some, hdata]
  · rw [← hpeek]
    simp only [peek, setStateObject, lookup_insert_ite, if_neg hb]
    rfl

theorem runChecks_iff {α : Type} {check : α → StateDB → Option RejectedError × StateDB}
    {P : α → (Address → Option Hash) × World → Prop}
    (hcheck : ∀ x s, ((check x s).1 = none ↔ P x (shown s)) ∧ shown (check x s).2 = shown s)
    (l : List α) :
    ((runChecks check l s).1 = none ↔ ∀ x ∈ l, P x (shown s)) ∧
      shown (runChecks check l s).2 = shown s := by
  induction l generalizing s with
  | nil => simp [runChecks]
  | cons x l ih =>
    obtain ⟨hiff, hshown⟩ := hcheck x s
    unfold runChecks
    rcases hx : check x s with ⟨err, t⟩
    rw [hx] at hiff hshown
    simp only at hiff hshown
    cases err with
    | some err => simp [hshown, ← hiff]
    | none => simpa [hshown, ← hiff] using ih t

omit [Crypto] in
/-- What is tested of an account with this root and these slots. -/
def RootHashOrSlots.Passes (r : RootHashOrSlots) (root : Option Hash)
    (state : Hash → Hash) : Prop :=
  match r.rootHash with
  | some rootHash => root = some rootHash
  | none => ∀ slot value, r.slotValue.lookup slot = some value → state slot = value

variable {ord : MapOrders}

theorem checkAccount_iff (entry : Address × RootHashOrSlots) :
    ((checkAccount ord entry s).1 = none ↔
        entry.2.Passes ((shown s).1 entry.1) ((shown s).2.state entry.1)) ∧
      shown (checkAccount ord entry s).2 = shown s := by
  rcases entry with ⟨address, ⟨_ | root, slotValue⟩⟩
  · have hslot : ∀ entry s, ((checkSlot address entry s).1 = none ↔
        (shown s).2.state address entry.1 = entry.2) ∧ shown (checkSlot address entry s).2 =
          shown s :=
      fun entry s => ⟨by simp [checkSlot, getState_fst, shown], getState_shown s address entry.1⟩
    obtain ⟨hiff, hshown⟩ := runChecks_iff s
      (P := fun entry shown => shown.2.state address entry.1 = entry.2) hslot
        (range ord.hash slotValue)
    refine ⟨hiff.trans ?_, hshown⟩
    simp only [Prod.forall, mem_range, RootHashOrSlots.Passes]
  · obtain ⟨hvalue, hshown⟩ := getStorageRoot_shown s address
    simp [checkAccount, RootHashOrSlots.Passes, hvalue, hshown]

variable (o : ConditionalOptions) (l1BlockNumber l2Timestamp : U64)

theorem check_eq_none : (o.check ord l1BlockNumber l2Timestamp s).1 = none ↔
    o.Within l1BlockNumber l2Timestamp ∧ ∀ addr r, o.knownAccounts.lookup addr = some r →
      r.Passes (some (s.getStorageRoot addr).1) (s.world.state addr) := by
  have haccounts := (runChecks_iff s
    (P := fun entry shown => entry.2.Passes (shown.1 entry.1) (shown.2.state entry.1))
    (fun entry s => @checkAccount_iff _ s ord entry) (range ord.account o.knownAccounts)).1
  simp only [Prod.forall, mem_range, getStorageRoot_shown] at haccounts
  unfold ConditionalOptions.check
  simp only [rejected_iff, not_any_iff, BitVec.not_lt, haccounts]
  constructor
  · rintro ⟨hmin, hmax, htmin, htmax, hall⟩
    exact ⟨⟨hmin, hmax, htmin, htmax⟩, hall⟩
  · rintro ⟨⟨hmin, hmax, htmin, htmax⟩, hall⟩
    exact ⟨hmin, hmax, htmin, htmax, hall⟩

variable (ord)

/-- The root field of the account passes, though the account is not as its condition says. -/
def FalselyAccepted (addr : Address) : Prop :=
  ∃ r, o.knownAccounts.lookup addr = some r ∧ r.rootHash = some (s.getStorageRoot addr).1 ∧
    ¬r.Holds (rootNow ord s addr) (s.world.state addr)

/-- The account is as its condition says, but its root field does not pass. -/
def FalselyRejected (addr : Address) : Prop :=
  ∃ r root, o.knownAccounts.lookup addr = some r ∧ r.rootHash = some root ∧
    (s.getStorageRoot addr).1 ≠ root ∧ r.Holds (rootNow ord s addr) (s.world.state addr)

variable {ord}

/-- The test of an account: it accepts the falsely accepted ones, and those that are as they
    should be and not falsely rejected. -/
theorem passes_iff {addr : Address} {r : RootHashOrSlots}
    (hr : o.knownAccounts.lookup addr = some r) :
    r.Passes (some (s.getStorageRoot addr).1) (s.world.state addr) ↔ FalselyAccepted s ord o addr ∨
      r.Holds (rootNow ord s addr) (s.world.state addr) ∧ ¬FalselyRejected s ord o addr := by
  have haccepted : FalselyAccepted s ord o addr ↔ r.rootHash = some (s.getStorageRoot addr).1 ∧
      ¬r.Holds (rootNow ord s addr) (s.world.state addr) := by simp [FalselyAccepted, hr]
  have hrejected : FalselyRejected s ord o addr ↔
      ∃ root, r.rootHash = some root ∧ (s.getStorageRoot addr).1 ≠ root ∧
        r.Holds (rootNow ord s addr) (s.world.state addr) := by simp [FalselyRejected, hr]
  rw [haccepted, hrejected, RootHashOrSlots.Passes]
  cases hroot : r.rootHash with
  | none =>
    constructor
    · exact fun hslots => .inr ⟨⟨by simp [hroot], hslots⟩, by simp⟩
    · rintro (⟨hnone, -⟩ | ⟨hholds, -⟩)
      · cases hnone
      · exact hholds.slots
  | some root =>
    simp only [Option.some.injEq, exists_eq_left']
    tauto

end

/-- The contract 1 has written a slot in the transaction before. -/
def afterWrite : StateDB :=
  letI := numberCrypto
  let db := { Database.empty with hashStorageTrie := fun m => if m = ∅ then emptyRootHash else 1 }
  let s := ((new emptyRootHash db Reader.empty).createAccount 1).setNonce 1 1
  (s.setState 1 0 5).2.finalise .ascending true

/-- The slot of the contract 1, and the root of another account, from block 3 on. -/
def slotAndRoot : ConditionalOptions :=
  ⟨(Finmap.singleton 1 ⟨none, Finmap.singleton 0 5⟩).insert 2 ⟨some 0, ∅⟩, some 3, none, none, none⟩

/-- One account, given by its root. -/
def oneRoot (root : Hash) : ConditionalOptions :=
  ⟨Finmap.singleton 1 ⟨some root, ∅⟩, none, none, none, none⟩

end GethArb.Arbitrum
