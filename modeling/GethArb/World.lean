/-
  **What a `StateDB` means**: the world a transaction sees through its getters.
  A `World` gives every address its account (or none) with the committed and the
  current value of every slot; it has no caches, no lazily loaded objects and no
  distinction between a slot that was read and one that was not.

  `StateDB.world` reads the world off a `StateDB`.  Loading an object or a slot
  leaves it alone (`Loaded.world`), and undoing a journal entry on the `StateDB`
  is undoing it in the world (`world_revertEntry`).
-/
import GethArb.StateDB

namespace GethArb

open Function GoMap Option StateObject

/-! ### Worlds -/

/-- An account as the getters show it. -/
structure AccountView where
  nonce : U64
  balance : U256
  codeHash : Hash
  selfDestructed : Bool
  newContract : Bool
  committed : Hash → Hash
  current : Hash → Hash

def AccountView.setCurrent (acct : AccountView) (key value : Hash) : AccountView :=
  { acct with current := update acct.current key value }

/-- Writing a slot and then its former value changes nothing. -/
theorem AccountView.setCurrent_restore (acct : AccountView) (key value prev : Hash)
    (h : prev = acct.current key) : (acct.setCurrent key value).setCurrent key prev = acct := by
  simp [setCurrent, h]

/-- The state a transaction sees.  `base a` is the account `a` as it would be read
    afresh from the database. -/
structure World where
  base : Address → Option AccountView
  account : Address → Option AccountView
  refund : U64
  logs : Hash → List Log
  logSize : U64
  accessList : AccessList
  transient : Address → Hash → Hash
  activatedWasms : GoMap Hash ActivatedWasm

namespace World

/-- The world with the account at `addr` replaced. -/
def setAccount (w : World) (addr : Address) (acct : Option AccountView) : World :=
  { w with account := update w.account addr acct }

/-- Change an account that must exist. -/
def modify (w : World) (addr : Address) (f : AccountView → AccountView) : Option World :=
  (w.account addr).map fun acct => w.setAccount addr (some (f acct))

def setTransient (w : World) (addr : Address) (key value : Hash) : World :=
  { w with transient := fun a k => if a = addr ∧ k = key then value else w.transient a k }

section
variable (w : World)

section
variable (addr : Address)

theorem setTransient_restore (key value : Hash) :
    (w.setTransient addr key value).setTransient addr key (w.transient addr key) = w := by
  have h : (fun a k => if a = addr ∧ k = key then w.transient addr key
      else if a = addr ∧ k = key then value else w.transient a k) = w.transient := by
    funext a k
    split
    · rename_i h
      rw [h.1, h.2]
    · rfl
  unfold setTransient
  rw [h]

variable (a : Option AccountView)

@[simp] theorem setAccount_setAccount (b : Option AccountView) :
    (w.setAccount addr a).setAccount addr b = w.setAccount addr b := by
  simp [setAccount]

@[simp] theorem setAccount_account : w.setAccount addr (w.account addr) = w := by
  simp [setAccount]

theorem setAccount_of_account_eq (h : w.account addr = a) : w.setAccount addr a = w := by
  rw [← h, setAccount_account]

@[simp] theorem setAccount_account_self : (w.setAccount addr a).account addr = a := by
  simp [setAccount]

@[simp] theorem setAccount_base : (w.setAccount addr a).base = w.base := rfl

end

theorem setAccount_account_of_ne {addr b : Address} (a : Option AccountView) (h : b ≠ addr) :
    (w.setAccount addr a).account b = w.account b := by
  simp [setAccount, h]

end

/-! #### What the getters show -/

def exist (w : World) (addr : Address) : Bool := (w.account addr).isSome

def balance (w : World) (addr : Address) : U256 := (w.account addr).elim 0 (·.balance)

def nonce (w : World) (addr : Address) : U64 := (w.account addr).elim 0 (·.nonce)

def hasSelfDestructed (w : World) (addr : Address) : Bool :=
  (w.account addr).elim false (·.selfDestructed)

def isNewContract (w : World) (addr : Address) : Bool :=
  (w.account addr).elim false (·.newContract)

def state (w : World) (addr : Address) (key : Hash) : Hash :=
  (w.account addr).elim 0 (·.current key)

def committedState (w : World) (addr : Address) (key : Hash) : Hash :=
  (w.account addr).elim 0 (·.committed key)

section
variable [Crypto]

def empty (w : World) (addr : Address) : Bool :=
  (w.account addr).elim true fun acct =>
    acct.nonce = 0 && acct.balance = 0 && acct.codeHash = emptyCodeHash

/-! #### Undo -/

/-- Undoing a journal entry in the world. -/
def undo (w : World) : JournalEntry → Option World
  | .createObjectChange account => some (w.setAccount account (w.base account))
  | .createZombieChange account => some (w.setAccount account (w.base account))
  | .createContractChange account => w.modify account fun acct => { acct with newContract := false }
  | .selfDestructChange account =>
    some (w.setAccount account
      ((w.account account).map fun acct => { acct with selfDestructed := false }))
  | .balanceChange account prev => w.modify account fun acct => { acct with balance := prev }
  | .nonceChange account prev => w.modify account fun acct => { acct with nonce := prev }
  | .storageChange account key prevvalue origvalue =>
    w.modify account fun acct => acct.setCurrent key
      (if prevvalue = origvalue then acct.committed key else prevvalue)
  | .codeChange account prevCode =>
    w.modify account fun acct => { acct with codeHash := keccak256 prevCode }
  | .refundChange prev => some { w with refund := prev }
  | .addLogChange txhash =>
    if w.logs txhash = [] then none
    else some { w with
      logs := update w.logs txhash (w.logs txhash).dropLast
      logSize := w.logSize - 1 }
  | .touchChange _ => some w
  | .accessListAddAccountChange address =>
    some { w with accessList := w.accessList.deleteAddress address }
  | .accessListAddSlotChange address slot =>
    (w.accessList.deleteSlot address slot).map fun al => { w with accessList := al }
  | .transientStorageChange account key prevalue => some (w.setTransient account key prevalue)
  | .wasmActivation moduleHash =>
    some { w with activatedWasms := w.activatedWasms.erase moduleHash }
  | .cacheWasm _ _ _ _ => some w
  | .evictWasm _ _ _ _ => some w

end

end World

/-! ### Reading an object -/

namespace StateObject

/-- The committed value of a slot, whether cached or not. -/
def committed (reader : Reader) (addr : Address) (destructed : Bool) (obj : StateObject)
    (key : Hash) : Hash :=
  ((obj.pendingStorage.lookup key).or (obj.originStorage.lookup key)).getD
    (if destructed then 0 else
      match reader.storage addr key with
      | .ok value => value
      | .error _ => 0)

/-- The current value of a slot. -/
def current (reader : Reader) (addr : Address) (destructed : Bool) (obj : StateObject)
    (key : Hash) : Hash :=
  (obj.dirtyStorage.lookup key).getD (obj.committed reader addr destructed key)

/-- The account an object stands for. -/
def view (reader : Reader) (addr : Address) (destructed : Bool) (obj : StateObject) :
    AccountView where
  nonce := obj.data.nonce
  balance := obj.data.balance
  codeHash := obj.data.codeHash
  selfDestructed := obj.selfDestructed
  newContract := obj.newContract
  committed := obj.committed reader addr destructed
  current := obj.current reader addr destructed

variable (reader : Reader) (addr : Address) (destructed : Bool) (obj : StateObject)
variable (key : Hash)

/-- Reading a slot returns its committed value and at most caches it. -/
theorem getCommittedState_cases :
    (obj.getCommittedState reader addr destructed key).1 =
      obj.committed reader addr destructed key ∧
      ((obj.getCommittedState reader addr destructed key).2.1 = obj ∨
        (obj.pendingStorage.lookup key = none ∧ obj.originStorage.lookup key = none ∧
          (obj.getCommittedState reader addr destructed key).2.1 =
            { obj with originStorage :=
                obj.originStorage.insert key (obj.committed reader addr destructed key) })) := by
  unfold committed getCommittedState
  cases hp : obj.pendingStorage.lookup key with
  | some value => exact ⟨rfl, .inl rfl⟩
  | none =>
    cases ho : obj.originStorage.lookup key with
    | some value => exact ⟨rfl, .inl rfl⟩
    | none =>
      cases destructed with
      | true => exact ⟨rfl, .inr ⟨rfl, rfl, rfl⟩⟩
      | false =>
        cases reader.storage addr key with
        | error cause => exact ⟨rfl, .inl rfl⟩
        | ok value => exact ⟨rfl, .inr ⟨rfl, rfl, rfl⟩⟩

/-- A cached committed value is the one that was there before. -/
theorem committed_insert_origin (key : Hash)
    (hp : obj.pendingStorage.lookup key = none) (ho : obj.originStorage.lookup key = none) :
    { obj with originStorage :=
        obj.originStorage.insert key (obj.committed reader addr destructed key) }.committed
      reader addr destructed = obj.committed reader addr destructed := by
  funext j
  by_cases hj : j = key
  · subst hj
    simp [committed, hp]
  · simp [committed, hj]

/-- Reading a slot does not change what the object stands for. -/
@[simp] theorem view_getCommittedState (key : Hash) :
    (obj.getCommittedState reader addr destructed key).2.1.view reader addr destructed =
      obj.view reader addr destructed := by
  rcases (obj.getCommittedState_cases reader addr destructed key).2 with h | ⟨hp, ho, h⟩
  · rw [h]
  have hc := obj.committed_insert_origin reader addr destructed key hp ho
  rw [h]
  unfold view
  rw [hc, AccountView.mk.injEq]
  simp only [true_and]
  funext j
  simp only [current, hc]

/-- Loading the code does not change what the object stands for. -/
theorem view_getCode [Crypto] :
    (obj.getCode reader addr).2.1.view reader addr destructed =
      obj.view reader addr destructed := by
  -- only the code cache changes, which the view does not have
  unfold getCode
  split
  · rfl
  · split
    · rfl
    · split <;> rfl

/-- Once a slot was read, reading it again changes nothing. -/
theorem getCommittedState_cached :
    ((obj.getCommittedState reader addr destructed key).2.1.getCommittedState reader addr
      destructed key).2.1 = (obj.getCommittedState reader addr destructed key).2.1 := by
  rcases (obj.getCommittedState_cases reader addr destructed key).2 with h | ⟨hp, -, h⟩
  · rw [h, h]
  · rw [h]
    simp [getCommittedState, hp]

theorem getState_eq :
    obj.getState reader addr destructed key =
      (obj.current reader addr destructed key, obj.committed reader addr destructed key,
        (obj.getCommittedState reader addr destructed key).2) := by
  have hd : (obj.getCommittedState reader addr destructed key).2.1.dirtyStorage =
      obj.dirtyStorage := by
    rcases (obj.getCommittedState_cases reader addr destructed key).2 with h | ⟨-, -, h⟩ <;> rw [h]
  have hc := (obj.getCommittedState_cases reader addr destructed key).1
  simp only [getState, hd, current, ← hc]
  cases obj.dirtyStorage.lookup key <;> rfl

/-- Writing a slot, or undoing the write, changes its current value only. -/
theorem view_setState (value origin : Hash) :
    (obj.setState key value origin).view reader addr destructed =
      (obj.view reader addr destructed).setCurrent key
        (if value = origin then obj.committed reader addr destructed key else value) := by
  have hc : (obj.setState key value origin).committed reader addr destructed =
      obj.committed reader addr destructed := by
    unfold setState
    split <;> rfl
  have hcur : (obj.setState key value origin).current reader addr destructed =
      update (obj.current reader addr destructed) key
        (if value = origin then obj.committed reader addr destructed key else value) := by
    funext j
    simp only [current, hc]
    by_cases hj : j = key
    · subst hj
      unfold setState
      split <;> simp
    · unfold setState
      split <;> simp [hj, current]
  unfold view AccountView.setCurrent
  rw [hcur]
  unfold setState
  split <;> rfl

end StateObject

/-! ### Reading a `StateDB` -/

variable {obj : StateObject}

namespace StateDB

/-- The parts of a `StateDB` that only change between transactions. -/
structure SameBlock (s t : StateDB) : Prop where
  db : t.db = s.db
  reader : t.reader = s.reader
  trie : t.trie = s.trie
  originalRoot : t.originalRoot = s.originalRoot
  destruct : t.stateObjectsDestruct = s.stateObjectsDestruct
  mutations : t.mutations = s.mutations
  filter : t.arbTxFilter = s.arbTxFilter

theorem SameBlock.refl (s : StateDB) : SameBlock s s := by constructor <;> rfl

theorem SameBlock.trans {s t r : StateDB} (h : SameBlock s t) (h' : SameBlock t r) :
    SameBlock s r :=
  ⟨h'.db.trans h.db, h'.reader.trans h.reader, h'.trie.trans h.trie,
    h'.originalRoot.trans h.originalRoot, h'.destruct.trans h.destruct,
    h'.mutations.trans h.mutations, h'.filter.trans h.filter⟩

variable [Crypto]

/-- The object a lookup of `addr` loads when no live one is there. -/
def baseObject (s : StateDB) (addr : Address) : Option StateObject :=
  if s.destructed addr then none
  else
    match s.reader.account addr with
    | .ok (some acct) => some (newObject (some acct))
    | _ => none

/-- The object a lookup of `addr` returns. -/
def peek (s : StateDB) (addr : Address) : Option StateObject :=
  (s.stateObjects.lookup addr).or (s.baseObject addr)

def viewOf (s : StateDB) (addr : Address) (obj : StateObject) : AccountView :=
  obj.view s.reader addr (s.destructed addr)

/-- The world a `StateDB` shows. -/
def world (s : StateDB) : World where
  base addr := (s.baseObject addr).map (s.viewOf addr)
  account addr := (s.peek addr).map (s.viewOf addr)
  refund := s.refund
  logs := s.logs.get
  logSize := s.logSize
  accessList := s.accessList
  transient := s.transientStorage.get
  activatedWasms := s.activatedWasms

/-- What a lookup may change: the live objects and the memoised error. -/
def Loaded (s t : StateDB) : Prop :=
  ∃ objects err, t = { s with stateObjects := objects, dbErr := err } ∧ t.world = s.world

variable {s t : StateDB}

theorem Loaded.world (h : Loaded s t) : t.world = s.world := by
  obtain ⟨-, -, -, hw⟩ := h
  exact hw

theorem Loaded.journal (h : Loaded s t) : t.journal = s.journal := by
  obtain ⟨-, -, rfl, -⟩ := h
  rfl

theorem Loaded.delta (h : Loaded s t) : t.unexpectedBalanceDelta = s.unexpectedBalanceDelta := by
  obtain ⟨-, -, rfl, -⟩ := h
  rfl

theorem Loaded.sameBlock (h : Loaded s t) : SameBlock s t := by
  obtain ⟨-, -, rfl, -⟩ := h
  constructor <;> rfl

theorem Loaded.refl (s : StateDB) : Loaded s s := ⟨_, _, rfl, rfl⟩

theorem Loaded.trans {r : StateDB} (h : Loaded s t) (h' : Loaded t r) : Loaded s r := by
  obtain ⟨_, _, rfl, hw⟩ := h
  obtain ⟨objects, err, rfl, hw'⟩ := h'
  exact ⟨objects, err, rfl, hw'.trans hw⟩

section
variable (s : StateDB)

theorem loaded_setError (err : Option DBError) : Loaded s (s.setError err) :=
  ⟨_, _, rfl, rfl⟩

variable (addr : Address)

open World

/-- Replacing a live object replaces the account it stands for. -/
theorem world_setStateObject (obj : StateObject) :
    (s.setStateObject addr obj).world = s.world.setAccount addr (some (s.viewOf addr obj)) := by
  have haccount : (s.setStateObject addr obj).world.account =
      update s.world.account addr (some (s.viewOf addr obj)) := by
    funext a
    by_cases ha : a = addr
    · subst ha
      simp only [world, peek, setStateObject, update_self, Finmap.lookup_insert]
      rfl
    · rw [update_of_ne ha]
      simp only [world, peek, setStateObject, lookup_insert_ite, if_neg ha]
      rfl
  unfold setAccount
  rw [← haccount]
  rfl

theorem world_account : s.world.account addr = (s.peek addr).map (s.viewOf addr) := rfl

theorem getStateObject_fst : (s.getStateObject addr).1 = s.peek addr := by
  unfold getStateObject peek baseObject
  cases s.stateObjects.lookup addr with
  | some obj => rfl
  | none =>
    cases s.destructed addr with
    | true => rfl
    | false => rcases s.reader.account addr with _ | _ | _ <;> rfl

/-- A lookup that finds an object leaves it in the live set. -/
theorem lookup_getStateObject {addr : Address} (h : s.peek addr = some obj) :
    (s.getStateObject addr).2.stateObjects.lookup addr = some obj := by
  rw [← getStateObject_fst] at h
  unfold getStateObject at h ⊢
  cases hl : s.stateObjects.lookup addr with
  | some obj' => simpa [hl] using h
  | none =>
    simp only [hl] at h ⊢
    split at h
    · cases h
    rename_i hd
    rw [if_neg hd]
    rcases hr : s.reader.account addr with _ | _ | acct
    · simp [hr] at h
    · simp [hr] at h
    · simpa [hr, setStateObject] using h

theorem loaded_getStateObject : Loaded s (s.getStateObject addr).2 := by
  unfold getStateObject
  cases hl : s.stateObjects.lookup addr with
  | some obj => exact Loaded.refl s
  | none =>
    cases hd : s.destructed addr with
    | true => exact Loaded.refl s
    | false =>
      rcases hr : s.reader.account addr with _ | _ | acct
      · simpa using loaded_setError s _
      · exact Loaded.refl s
      · refine ⟨_, _, rfl, ?_⟩
        -- the loaded object stands for the account the reader has
        have hpeek : s.peek addr = some (newObject (some acct)) := by
          simp [peek, baseObject, hl, hd, hr]
        simp only [Bool.false_eq_true, if_false]
        rw [world_setStateObject]
        exact setAccount_of_account_eq _ _ _ (by rw [world_account, hpeek]; rfl)

/-- Replacing an object by one that stands for the same account is a mere load. -/
theorem loaded_setStateObject {addr : Address} {obj' : StateObject} (h : s.peek addr = some obj)
    (hv : s.viewOf addr obj' = s.viewOf addr obj) : Loaded s (s.setStateObject addr obj') := by
  refine ⟨_, _, rfl, ?_⟩
  rw [world_setStateObject]
  exact setAccount_of_account_eq _ _ _ (by rw [world_account, h, map_some, hv])

theorem peek_of_lookup {addr : Address} (h : s.stateObjects.lookup addr = some obj) :
    s.peek addr = some obj := by
  simp [peek, h]

/-- A lookup changes no later lookup. -/
theorem peek_getStateObject (b : Address) : (s.getStateObject addr).2.peek b = s.peek b := by
  unfold getStateObject
  cases hl : s.stateObjects.lookup addr with
  | some obj => rfl
  | none =>
    cases hd : s.destructed addr with
    | true => rfl
    | false =>
      rcases hr : s.reader.account addr with cause | _ | acct
      · rfl
      · rfl
      · have hbase : (s.setStateObject addr (newObject (some acct))).baseObject b =
            s.baseObject b := rfl
        simp only [Bool.false_eq_true, if_false, peek, hbase]
        by_cases hb : b = addr
        · subst hb
          simp [setStateObject, hl, baseObject, hd, hr]
        · simp [setStateObject, hb]

section
variable (addr : Address)

theorem peek_setStateObject (obj : StateObject) :
    (s.setStateObject addr obj).peek addr = some obj := by
  simp [peek, setStateObject]

/-- Case analysis of a lookup: what it returns and that it changed nothing visible. -/
theorem getStateObject_cases :
    (∃ t, s.getStateObject addr = (none, t) ∧ s.peek addr = none ∧ Loaded s t) ∨
      ∃ obj t, s.getStateObject addr = (some obj, t) ∧ s.peek addr = some obj ∧
        t.stateObjects.lookup addr = some obj ∧ Loaded s t := by
  have hfst := s.getStateObject_fst addr
  have hloaded := s.loaded_getStateObject addr
  cases hpeek : s.peek addr with
  | none =>
    exact .inl ⟨_, Prod.ext (hfst.trans hpeek) rfl, rfl, hloaded⟩
  | some obj =>
    exact .inr
      ⟨obj, _, Prod.ext (hfst.trans hpeek) rfl, rfl, s.lookup_getStateObject hpeek, hloaded⟩

/-! #### The getters read the world -/

theorem readObject_fst {α : Type} (dflt : α) (f : StateObject → α) (g : AccountView → α)
    (h : ∀ obj, f obj = g (s.viewOf addr obj)) :
    (s.readObject addr dflt f).1 = (s.world.account addr).elim dflt g := by
  unfold readObject
  rw [world_account]
  rcases s.getStateObject_cases addr with ⟨t, heq, hpeek, -⟩ | ⟨obj, t, heq, hpeek, -⟩
  · simp [heq, hpeek]
  · simp [heq, hpeek, h]

theorem loaded_readObject {α : Type} (dflt : α) (f : StateObject → α) :
    Loaded s (s.readObject addr dflt f).2 := by
  unfold readObject
  rcases s.getStateObject_cases addr with ⟨t, heq, -, hload⟩ | ⟨obj, t, heq, -, -, hload⟩ <;>
    simpa [heq] using hload

theorem exist_fst : (s.exist addr).1 = s.world.exist addr := by
  simp [exist, World.exist, world_account, getStateObject_fst]

theorem empty_fst : (s.empty addr).1 = s.world.empty addr :=
  s.readObject_fst addr _ _ _ fun _ => rfl

theorem getBalance_fst : (s.getBalance addr).1 = s.world.balance addr :=
  s.readObject_fst addr _ _ _ fun _ => rfl

theorem getNonce_fst : (s.getNonce addr).1 = s.world.nonce addr :=
  s.readObject_fst addr _ _ _ fun _ => rfl

theorem hasSelfDestructed_fst : (s.hasSelfDestructed addr).1 = s.world.hasSelfDestructed addr :=
  s.readObject_fst addr _ _ _ fun _ => rfl

theorem isNewContract_fst : (s.isNewContract addr).1 = s.world.isNewContract addr :=
  s.readObject_fst addr _ _ _ fun _ => rfl

variable (key : Hash)

/-- The slot getters: the values the world has, and nothing visible changed. -/
theorem getStateAndCommittedState_spec :
    (s.getStateAndCommittedState addr key).1 = s.world.state addr key ∧
      (s.getStateAndCommittedState addr key).2.1 = s.world.committedState addr key ∧
      Loaded s (s.getStateAndCommittedState addr key).2.2 := by
  unfold getStateAndCommittedState state committedState
  rw [world_account]
  rcases s.getStateObject_cases addr with
    ⟨t, heq, hpeek, hload⟩ | ⟨obj, t, heq, hpeek, hlive, hload⟩
  · simp [heq, hpeek, hload]
  obtain ⟨hr, hd⟩ : t.reader = s.reader ∧ t.destructed addr = s.destructed addr := by
    obtain ⟨_, _, rfl, -⟩ := hload
    exact ⟨rfl, rfl⟩
  simp only [heq, hpeek, getState_eq, hr, hd]
  refine ⟨rfl, rfl, (hload.trans ?_).trans (loaded_setError _ _)⟩
  refine t.loaded_setStateObject (t.peek_of_lookup hlive) ?_
  simp [viewOf, hr, hd]

theorem getState_fst : (s.getState addr key).1 = s.world.state addr key :=
  (s.getStateAndCommittedState_spec addr key).1

theorem getCommittedState_eq :
    s.getCommittedState addr key = (s.getStateAndCommittedState addr key).2 := by
  unfold getCommittedState getStateAndCommittedState
  rcases s.getStateObject_cases addr with ⟨t, heq, -⟩ | ⟨obj, t, heq, -⟩
  · simp [heq]
  · simp [heq, getState_eq, ← (obj.getCommittedState_cases _ _ _ key).1]

theorem getCommittedState_fst :
    (s.getCommittedState addr key).1 = s.world.committedState addr key := by
  rw [getCommittedState_eq]
  exact (s.getStateAndCommittedState_spec addr key).2.1

/-- Loading code changes nothing the world shows. -/
theorem loaded_getCode : Loaded s (s.getCode addr).2 := by
  unfold getCode
  rcases s.getStateObject_cases addr with ⟨t, heq, -, hload⟩ | ⟨obj, t, heq, -, hlive, hload⟩
  · simpa [heq] using hload
  · simp only [heq]
    refine (hload.trans ?_).trans (loaded_setError _ _)
    exact t.loaded_setStateObject (t.peek_of_lookup hlive) (obj.view_getCode _ _ _)

theorem loaded_getCodeSize : Loaded s (s.getCodeSize addr).2 := by
  unfold getCodeSize
  rcases s.getStateObject_cases addr with ⟨t, heq, -, hload⟩ | ⟨obj, t, heq, -, -, hload⟩
  · simpa [heq] using hload
  · simpa [heq] using hload.trans (loaded_setError _ _)

/-! #### Undoing an entry -/

theorem world_revertObject (f : StateObject → StateObject) (g : AccountView → AccountView)
    (h : ∀ obj, s.viewOf addr (f obj) = g (s.viewOf addr obj)) :
    (s.revertObject addr f).map world = s.world.modify addr g := by
  unfold revertObject World.modify
  rw [world_account]
  rcases s.getStateObject_cases addr with ⟨t, heq, hpeek, -⟩ | ⟨obj, t, heq, hpeek, -, hload⟩
  · simp [heq, hpeek]
  · have hview : t.viewOf addr = s.viewOf addr := by
      obtain ⟨_, _, rfl, -⟩ := hload
      rfl
    simp [heq, hpeek, world_setStateObject, hload.world, hview, h]

theorem world_erase : { s with stateObjects := s.stateObjects.erase addr }.world =
      s.world.setAccount addr (s.world.base addr) := by
  have haccount : { s with stateObjects := s.stateObjects.erase addr }.world.account =
      update s.world.account addr (s.world.base addr) := by
    funext a
    by_cases ha : a = addr
    · subst ha
      simp only [world, peek, Finmap.lookup_erase, update_self]
      rfl
    · rw [update_of_ne ha]
      simp only [world, peek, lookup_erase_ite, if_neg ha]
      rfl
  unfold setAccount
  rw [← haccount]
  rfl

theorem world_setTransient (value : Hash) :
    { s with transientStorage := s.transientStorage.set addr key value }.world =
      s.world.setTransient addr key value := by
  have hget : (s.transientStorage.set addr key value).get =
      fun a k => if a = addr ∧ k = key then value else s.transientStorage.get a k := by
    funext a k
    exact TransientStorage.get_set _ _ _ _ _ _
  change { s.world with transient := (s.transientStorage.set addr key value).get } = _
  rw [hget]
  rfl

end

/-- Undoing a journal entry on the `StateDB` is undoing it in the world. -/
theorem world_revertEntry (e : JournalEntry) : (s.revertEntry e).map world = s.world.undo e := by
  cases e with
  | createObjectChange a | createZombieChange a => simp [revertEntry, undo, world_erase]
  | createContractChange a | balanceChange a prev | nonceChange a prev =>
    exact s.world_revertObject a _ _ fun _ => rfl
  | codeChange a prev => exact s.world_revertObject a _ _ fun _ => rfl
  | storageChange a key prev orig =>
    exact s.world_revertObject a _ _ fun obj => obj.view_setState _ _ _ _ _ _
  | selfDestructChange a =>
    simp only [revertEntry, undo, world_account]
    rcases s.getStateObject_cases a with ⟨t, heq, hpeek, hload⟩ | ⟨obj, t, heq, hpeek, -, hload⟩
    · simp only [heq, map_some, hload.world, Option.some.injEq]
      exact (setAccount_of_account_eq _ _ _ (by rw [world_account, hpeek]; rfl)).symm
    have hview : t.viewOf a = s.viewOf a := by
      obtain ⟨_, _, rfl, -⟩ := hload
      rfl
    simp only [heq, hpeek, map_some, world_setStateObject, hload.world, hview]
    rfl
  | addLogChange h =>
    have hlogs : s.world.logs = s.logs.get := rfl
    simp only [revertEntry, undo, hlogs]
    -- a single log is removed with its key, which reads as the empty list
    by_cases hone : (s.logs.get h).length = 1
    · obtain ⟨l, hl⟩ := List.length_eq_one_iff.mp hone
      have hget : get (s.logs.erase h) = update s.logs.get h [] := by
        funext j
        by_cases hj : j = h
        · simp only [get_erase, hj, update_self]
          rfl
        · simp [get_erase, hj]
      rw [hl, List.dropLast_singleton, ← hget]
      rfl
    · by_cases hnil : s.logs.get h = []
      · simp [hnil]
      have hget : get (s.logs.insert h (s.logs.get h).dropLast) =
          update s.logs.get h (s.logs.get h).dropLast := by
        funext j
        by_cases hj : j = h <;> simp [get_insert, hj]
      rw [if_neg hone, if_neg (mt List.length_eq_zero_iff.mp hnil), if_neg hnil, ← hget]
      rfl
  | accessListAddSlotChange a slot =>
    simp only [revertEntry, map_map]
    rfl
  | transientStorageChange a key prev => exact congrArg some (s.world_setTransient a key prev)
  | refundChange prev | touchChange a | accessListAddAccountChange a | wasmActivation h => rfl
  | cacheWasm h v t d | evictWasm h v t d => rfl

end

end StateDB

end GethArb
