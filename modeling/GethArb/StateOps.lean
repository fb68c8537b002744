/-
  **The public operations of a `StateDB`** as a transition system: `Op` lists
  them, `step` runs one, and `Reachable` is what a program can get to with them.

  `Logged` says once what the operations of a transaction do to the state, in
  steps so small that each writes at most one object and one journal entry.
  Invariants are proved for those steps; `tx_of_step` carries them over to
  the operations.
-/
import GethArb.StateCommit
import GethArb.World

namespace GethArb

open StateObject

/-- The public operations.  `readAccount` stands for the getters that only look an
    object up: `Exist`, `Empty`, `GetBalance`, `GetNonce`, `GetStorageRoot`,
    `GetCodeHash` and `HasSelfDestructed`. -/
inductive Op where
  | readAccount (addr : Address)
  | getCode (addr : Address)
  | getCodeSize (addr : Address)
  | getState (addr : Address) (key : Hash)
  | getCommittedState (addr : Address) (key : Hash)
  | getLogs (hash : Hash) (blockNumber : U64) (blockHash : Hash) (blockTime : U64)
  | addBalance (addr : Address) (amount : U256)
  | subBalance (addr : Address) (amount : U256)
  | setBalance (addr : Address) (amount : U256)
  | setNonce (addr : Address) (nonce : U64)
  | setCode (addr : Address) (code : Bytes)
  | setState (addr : Address) (key value : Hash)
  | setStorage (ord : RangeOrder Hash) (addr : Address) (storage : Storage)
  | setTransientState (addr : Address) (key value : Hash)
  | createAccount (addr : Address)
  | createContract (addr : Address)
  | selfDestruct (addr : Address)
  | selfDestruct6780 (addr : Address)
  | addLog (log : Log)
  | addRefund (gas : U64)
  | subRefund (gas : U64)
  | addAddressToAccessList (addr : Address)
  | addSlotToAccessList (addr : Address) (slot : Hash)
  | activateWasm (ord : RangeOrder Hash) (moduleHash : Hash) (asmMap : ActivatedWasm)
  | recordCacheWasm (moduleHash : Hash) (version : BitVec 16) (tag : BitVec 32) (debug : Bool)
  | recordEvictWasm (moduleHash : Hash) (version : BitVec 16) (tag : BitVec 32) (debug : Bool)
  | createZombieIfDeleted (addr : Address)
  | expectBalanceBurn (amount : Int)
  | expectBalanceMint (amount : Int)
  | snapshot
  | revertToSnapshot (revid : Nat)
  | setTxContext (thash : Hash) (ti : U64)
  | prepare (isEIP2929 isEIP4762 isShanghai : Bool) (sender coinbase : Address)
      (dst : Option Address) (precompiles : List Address) (list : List StateDB.AccessTuple)
  | filterTx (on : Bool)
  | finalise (ord : MapOrders) (deleteEmptyObjects : Bool)
  | intermediateRoot (ord : MapOrders) (deleteEmptyObjects : Bool)
  | stateDiff (ord : MapOrders) (deleteEmptyObjects : Bool)
  | commit (ord : MapOrders) (deleteEmptyObjects noStorageWiping : Bool) (block : U64)
      (flush : StateDB.FlushOutcome)

namespace StateDB

variable [Crypto]

/-- Run one operation, dropping its result; `none` is a panic. -/
def step : Op → StateDB → Option StateDB
  | .readAccount addr, s => some (s.exist addr).2
  | .getCode addr, s => some (s.getCode addr).2
  | .getCodeSize addr, s => some (s.getCodeSize addr).2
  | .getState addr key, s => some (s.getState addr key).2
  | .getCommittedState addr key, s => some (s.getCommittedState addr key).2
  | .getLogs hash blockNumber blockHash blockTime, s =>
    some (s.getLogs hash blockNumber blockHash blockTime).2
  | .addBalance addr amount, s => some (s.addBalance addr amount).2
  | .subBalance addr amount, s => some (s.subBalance addr amount).2
  | .setBalance addr amount, s => some (s.setBalance addr amount)
  | .setNonce addr nonce, s => some (s.setNonce addr nonce)
  | .setCode addr code, s => some (s.setCode addr code)
  | .setState addr key value, s => some (s.setState addr key value).2
  | .setStorage ord addr storage, s => some (s.setStorage ord addr storage)
  | .setTransientState addr key value, s => some (s.setTransientState addr key value)
  | .createAccount addr, s => some (s.createAccount addr)
  | .createContract addr, s => s.createContract addr
  | .selfDestruct addr, s => some (s.selfDestruct addr).2
  | .selfDestruct6780 addr, s => some (s.selfDestruct6780 addr).2.2
  | .addLog log, s => some (s.addLog log)
  | .addRefund gas, s => some (s.addRefund gas)
  | .subRefund gas, s => s.subRefund gas
  | .addAddressToAccessList addr, s => some (s.addAddressToAccessList addr)
  | .addSlotToAccessList addr slot, s => s.addSlotToAccessList addr slot
  | .activateWasm ord moduleHash asmMap, s => some (s.activateWasm ord moduleHash asmMap).2
  | .recordCacheWasm moduleHash version tag debug, s =>
    some (s.recordWasm (.cacheWasm moduleHash version tag debug))
  | .recordEvictWasm moduleHash version tag debug, s =>
    some (s.recordWasm (.evictWasm moduleHash version tag debug))
  | .createZombieIfDeleted addr, s => some (s.createZombieIfDeleted addr)
  | .expectBalanceBurn amount, s => s.expectBalanceBurn amount
  | .expectBalanceMint amount, s => s.expectBalanceMint amount
  | .snapshot, s => some s.snapshot.2
  | .revertToSnapshot revid, s => s.revertToSnapshot revid
  | .setTxContext thash ti, s => some (s.setTxContext thash ti)
  | .prepare isEIP2929 isEIP4762 isShanghai sender coinbase dst precompiles list, s =>
    s.prepare isEIP2929 isEIP4762 isShanghai sender coinbase dst precompiles list
  | .filterTx on, s => some { s with arbTxFilter := on }
  | .finalise ord deleteEmptyObjects, s => some (s.finalise ord deleteEmptyObjects)
  | .intermediateRoot ord deleteEmptyObjects, s =>
    (s.intermediateRoot ord deleteEmptyObjects).map Prod.snd
  | .stateDiff ord deleteEmptyObjects, s => (s.stateDiff ord deleteEmptyObjects).map Prod.snd
  | .commit ord deleteEmptyObjects noStorageWiping block flush, s =>
    (s.commitAndFlush ord deleteEmptyObjects noStorageWiping block flush).map Prod.snd

/-- The states a program can reach with the public operations. -/
inductive Reachable : StateDB → Prop where
  | new (root : Hash) (db : Database) (reader : Reader) : Reachable (new root db reader)
  | step {s t : StateDB} (op : Op) : Reachable s → step op s = some t → Reachable t

variable {s t : StateDB}

/-- The rule for invariants of reachable states. -/
theorem Reachable.invariant {P : StateDB → Prop}
    (hnew : ∀ root db reader, P (StateDB.new root db reader))
    (hstep : ∀ s t op, P s → StateDB.step op s = some t → P t) (h : Reachable s) : P s := by
  induction h with
  | new root db reader => exact hnew root db reader
  | step op _ hst ih => exact hstep _ _ op ih hst

/-- A sequence of operations that runs through, each allowed by `P` where it is made. -/
inductive Run (P : StateDB → Op → Prop) : StateDB → List Op → StateDB → Prop where
  | nil (s : StateDB) : Run P s [] s
  | cons {s t r : StateDB} {op : Op} {ops : List Op} (hop : P s op) (hstep : step op s = some t)
      (hrest : Run P t ops r) : Run P s (op :: ops) r

/-- The rule for invariants of runs. -/
theorem Run.invariant {P : StateDB → Op → Prop} {I : StateDB → Prop}
    (hI : ∀ s t op, I s → P s op → step op s = some t → I t) {ops : List Op}
    (h : Run P s ops t) (hs : I s) : I t := by
  induction h with
  | nil => exact hs
  | cons hop hstep _ ih => exact ih (hI _ _ _ hs hop hstep)

/-! ### What the operations of a transaction do -/

/-- The smallest steps of a transaction: fill a cache, or make one change together
    with the entry that takes it back. -/
inductive Logged : StateDB → StateDB → Prop where
  | load (s : StateDB) (addr : Address) (acct : StateAccount)
      (hlive : s.stateObjects.lookup addr = none) (hdes : s.destructed addr = false)
      (hread : s.reader.account addr = .ok (some acct)) :
      Logged s (s.setStateObject addr (newObject (some acct)))
  | error (s : StateDB) (err : Option DBError) : Logged s (s.setError err)
  | slot (s : StateDB) (addr : Address) (obj : StateObject) (key : Hash)
      (hlive : s.stateObjects.lookup addr = some obj) :
      Logged s (s.setStateObject addr
        (obj.getCommittedState s.reader addr (s.destructed addr) key).2.1)
  | code (s : StateDB) (addr : Address) (obj : StateObject)
      (hlive : s.stateObjects.lookup addr = some obj) :
      Logged s (s.setStateObject addr (obj.getCode s.reader addr).2.1)
  | create (s : StateDB) (addr : Address) (hnone : s.peek addr = none) :
      Logged s (s.createObject addr).2
  | zombie (s : StateDB) (addr : Address) (hnone : s.peek addr = none)
      (hdes : s.destructed addr = true) : Logged s (s.createZombie addr).2
  | touch (s : StateDB) (addr : Address) : Logged s (s.touch addr)
  | balance (s : StateDB) (addr : Address) (obj : StateObject) (amount : U256)
      (hlive : s.stateObjects.lookup addr = some obj) :
      Logged s (s.objectSetBalance addr obj amount)
  | nonce (s : StateDB) (addr : Address) (obj : StateObject) (nonce : U64)
      (hlive : s.stateObjects.lookup addr = some obj) : Logged s (s.objectSetNonce addr obj nonce)
  | storage (s : StateDB) (addr : Address) (obj : StateObject) (key value : Hash)
      (hlive : s.stateObjects.lookup addr = some obj)
      (hcached : (obj.getCommittedState s.reader addr (s.destructed addr) key).2.1 = obj) :
      Logged s ((s.append (.storageChange addr key
          (obj.current s.reader addr (s.destructed addr) key)
          (obj.committed s.reader addr (s.destructed addr) key))).setStateObject addr
        (obj.setState key value (obj.committed s.reader addr (s.destructed addr) key)))
  | destruct (s : StateDB) (addr : Address) (obj : StateObject)
      (hlive : s.stateObjects.lookup addr = some obj) (hfirst : obj.selfDestructed = false) :
      Logged s ((s.append (.selfDestructChange addr)).setStateObject addr obj.markSelfdestructed)
  | contract (s : StateDB) (addr : Address) (obj : StateObject)
      (hlive : s.stateObjects.lookup addr = some obj) (hfirst : obj.newContract = false) :
      Logged s ((s.setStateObject addr { obj with newContract := true }).append
        (.createContractChange addr))
  | transient (s : StateDB) (addr : Address) (key value : Hash) :
      Logged s { s.append (.transientStorageChange addr key (s.getTransientState addr key)) with
        transientStorage := s.transientStorage.set addr key value }
  | log (s : StateDB) (log : Log) : Logged s (s.addLog log)
  | refund (s : StateDB) (gas : U64) :
      Logged s { s.append (.refundChange s.refund) with refund := gas }
  | accessAddress (s : StateDB) (addr : Address) : Logged s (s.addAddressToAccessList addr)
  | accessSlot (s t : StateDB) (addr : Address) (slot : Hash)
      (h : s.addSlotToAccessList addr slot = some t) : Logged s t
  | wasm (s : StateDB) (moduleHash : Hash) (asmMap : ActivatedWasm)
      (h : s.activatedWasms.lookup moduleHash = none) :
      Logged s ({ s with activatedWasms := s.activatedWasms.insert moduleHash asmMap }.append
        (.wasmActivation moduleHash))
  | delta (s : StateDB) (delta : Int) : Logged s { s with unexpectedBalanceDelta := delta }

/-- Any number of such steps. -/
abbrev Tx := Relation.ReflTransGen Logged

theorem Logged.tx (h : Logged s t) : Tx s t := Relation.ReflTransGen.single h

section
variable (s : StateDB) (addr : Address)

open Logged

theorem tx_getStateObject : Tx s (s.getStateObject addr).2 := by
  unfold getStateObject
  cases hl : s.stateObjects.lookup addr with
  | some obj => exact .refl
  | none =>
    cases hd : s.destructed addr with
    | true => exact .refl
    | false =>
      rcases hr : s.reader.account addr with cause | _ | acct
      · exact (error s _).tx
      · exact .refl
      · exact (load s addr acct hl hd hr).tx

/-- A lookup finds no account, or a live object. -/
theorem getStateObject_tx :
    (∃ t, s.getStateObject addr = (none, t) ∧ Tx s t ∧ t.peek addr = none) ∨
      ∃ obj t, s.getStateObject addr = (some obj, t) ∧ Tx s t ∧
        t.stateObjects.lookup addr = some obj := by
  have htx := s.tx_getStateObject addr
  rcases s.getStateObject_cases addr with ⟨t, heq, hpeek, hload⟩ | ⟨obj, t, heq, -, hlive, -⟩
  · rw [heq] at htx
    have haccount := congrArg (fun w => w.account addr) hload.world
    exact .inl ⟨t, heq, htx, by simpa [world_account, hpeek] using haccount⟩
  · rw [heq] at htx
    exact .inr ⟨obj, t, heq, htx, hlive⟩

/-- A lookup that creates a missing account: the object it returns is live. -/
theorem getOrNewStateObject_spec :
    Tx s (s.getOrNewStateObject addr).2 ∧
      (s.getOrNewStateObject addr).2.stateObjects.lookup addr =
        some (s.getOrNewStateObject addr).1 := by
  unfold getOrNewStateObject
  rcases s.getStateObject_tx addr with ⟨t, heq, htx, hnone⟩ | ⟨obj, t, heq, htx, hlive⟩
  · simp only [heq]
    exact ⟨htx.tail (create t addr hnone), by simp [createObject, setStateObject]⟩
  · simp only [heq]
    exact ⟨htx, hlive⟩

theorem tx_getStateAndCommittedState (key : Hash) :
    Tx s (s.getStateAndCommittedState addr key).2.2 := by
  unfold getStateAndCommittedState
  rcases s.getStateObject_tx addr with ⟨t, heq, htx, -⟩ | ⟨obj, t, heq, htx, hlive⟩
  · simpa only [heq] using htx
  · simp only [heq, getState_eq]
    exact (htx.tail (slot t addr obj key hlive)).tail (error _ _)

theorem tx_getCode : Tx s (s.getCode addr).2 := by
  unfold getCode
  rcases s.getStateObject_tx addr with ⟨t, heq, htx, -⟩ | ⟨obj, t, heq, htx, hlive⟩
  · simpa only [heq] using htx
  · simp only [heq]
    exact (htx.tail (code t addr obj hlive)).tail (error _ _)

theorem tx_getCodeSize : Tx s (s.getCodeSize addr).2 := by
  unfold getCodeSize
  rcases s.getStateObject_tx addr with ⟨t, heq, htx, -⟩ | ⟨obj, t, heq, htx, -⟩
  · simpa only [heq] using htx
  · simp only [heq]
    exact htx.tail (error _ _)

variable (obj : StateObject)

theorem tx_objectAddBalance (amount : U256) (hlive : s.stateObjects.lookup addr = some obj) :
    Tx s (s.objectAddBalance addr obj amount) := by
  unfold objectAddBalance
  split
  · split
    · exact (Logged.touch s addr).tx
    · exact .refl
  · exact (balance s addr obj _ hlive).tx

theorem tx_objectSetState (key value : Hash) (hlive : s.stateObjects.lookup addr = some obj) :
    Tx s (s.objectSetState addr obj key value).2 := by
  simp only [objectSetState, getState_eq]
  have hread := (slot s addr obj key hlive).tx.tail
    (error _ (obj.getCommittedState s.reader addr (s.destructed addr) key).2.2)
  split
  · exact hread
  refine hread.trans ?_
  -- after the read the slot is cached, so the write journals the values just read
  set obj' := (obj.getCommittedState s.reader addr (s.destructed addr) key).2.1 with hobj'
  have hview := obj.view_getCommittedState s.reader addr (s.destructed addr) key
  have hcommitted := congrArg (fun v => v.committed key) hview
  have hcurrent := congrArg (fun v => v.current key) hview
  simp only [view] at hcommitted hcurrent
  rw [← hcommitted, ← hcurrent]
  refine (storage ((s.setStateObject addr obj').setError _) addr obj' key value ?_ ?_).tx
  · simp [setStateObject, setError]
  · exact getCommittedState_cached s.reader addr (s.destructed addr) obj key

end

/-! ### Operations as sequences of steps -/

/-- The operations of a transaction, used as the source asks for.  `SetCode`,
    `SetStorage` and the operations that move between transactions are not among
    them, and neither are the snapshots. -/
def InTx (s : StateDB) : Op → Prop
  | .readAccount _ | .getCode _ | .getCodeSize _ | .getState _ _ | .getCommittedState _ _ => True
  | .addBalance _ _ | .subBalance _ _ | .setBalance _ _ | .setNonce _ _ | .setState _ _ _ => True
  | .setTransientState _ _ _ | .selfDestruct _ | .selfDestruct6780 _ => True
  | .createAccount addr => (s.exist addr).1 = false
  | .createContract addr => (s.exist addr).1 = true
  | .addLog _ | .addRefund _ | .subRefund _ => True
  | .addAddressToAccessList _ | .addSlotToAccessList _ _ => True
  | .activateWasm _ _ _ | .createZombieIfDeleted _ => True
  | .expectBalanceBurn _ | .expectBalanceMint _ => True
  | _ => False

section
variable (s : StateDB) (addr : Address)
variable (amount : U256)

theorem tx_addBalance : Tx s (s.addBalance addr amount).2 := by
  obtain ⟨htx, hlive⟩ := s.getOrNewStateObject_spec addr
  exact (htx.tail (Logged.delta _ _)).trans (tx_objectAddBalance _ addr _ amount hlive)

theorem tx_subBalance : Tx s (s.subBalance addr amount).2 := by
  obtain ⟨htx, hlive⟩ := s.getOrNewStateObject_spec addr
  simp only [subBalance]
  split
  · exact htx
  · exact (htx.tail (Logged.delta _ _)).tail (Logged.balance _ addr _ _ hlive)

theorem tx_setBalance : Tx s (s.setBalance addr amount) := by
  obtain ⟨htx, hlive⟩ := s.getOrNewStateObject_spec addr
  exact (htx.tail (Logged.delta _ _)).tail (Logged.balance _ addr _ _ hlive)

theorem tx_setNonce (nonce : U64) : Tx s (s.setNonce addr nonce) := by
  obtain ⟨htx, hlive⟩ := s.getOrNewStateObject_spec addr
  exact htx.tail (Logged.nonce _ addr _ nonce hlive)

theorem tx_setState (key value : Hash) : Tx s (s.setState addr key value).2 := by
  obtain ⟨htx, hlive⟩ := s.getOrNewStateObject_spec addr
  exact htx.trans (tx_objectSetState _ addr _ key value hlive)

theorem tx_setTransientState (key value : Hash) : Tx s (s.setTransientState addr key value) := by
  simp only [setTransientState]
  split
  · exact .refl
  · exact (Logged.transient s addr key value).tx

theorem tx_selfDestruct : Tx s (s.selfDestruct addr).2 := by
  unfold selfDestruct
  rcases s.getStateObject_tx addr with ⟨t, heq, htx, -⟩ | ⟨obj, t, heq, htx, hlive⟩
  · simpa only [heq] using htx
  simp only [heq]
  by_cases hbal : obj.data.balance = 0
  · simp only [hbal, ne_eq, not_true_eq_false, if_false]
    split
    · exact htx
    · rename_i hfirst
      exact htx.tail (Logged.destruct t addr obj hlive (by simpa using hfirst))
  · simp only [hbal, ne_eq, not_false_eq_true, if_true]
    have hzero :=
      (htx.tail (Logged.delta t (t.unexpectedBalanceDelta - obj.data.balance.toNat))).tail
      (Logged.balance _ addr obj 0 hlive)
    split
    · exact hzero
    · rename_i hfirst
      refine hzero.tail (Logged.destruct _ addr (obj.setBalance 0) ?_ (by simpa using hfirst))
      simp [objectSetBalance, setStateObject]

theorem tx_selfDestruct6780 : Tx s (s.selfDestruct6780 addr).2.2 := by
  unfold selfDestruct6780
  rcases s.getStateObject_tx addr with ⟨t, heq, htx, -⟩ | ⟨obj, t, heq, htx, -⟩
  · simpa only [heq] using htx
  · simp only [heq]
    split
    · exact htx.trans (t.tx_selfDestruct addr)
    · exact htx

end

theorem tx_createContract {addr : Address} (h : s.createContract addr = some t) : Tx s t := by
  unfold createContract at h
  rcases s.getStateObject_tx addr with ⟨r, heq, -⟩ | ⟨obj, r, heq, htx, hlive⟩
  · simp [heq] at h
  simp only [heq] at h
  split at h
  · cases h
    exact htx
  · rename_i hfirst
    cases h
    exact htx.tail (Logged.contract r addr obj hlive (by simpa using hfirst))

theorem tx_createZombieIfDeleted (s : StateDB) (addr : Address) :
    Tx s (s.createZombieIfDeleted addr) := by
  unfold createZombieIfDeleted
  rcases s.getStateObject_tx addr with ⟨t, heq, htx, hnone⟩ | ⟨obj, t, heq, htx, -⟩
  · simp only [heq]
    split
    · rename_i hdes
      exact htx.tail (Logged.zombie t addr hnone hdes)
    · exact htx
  · simpa only [heq] using htx

theorem tx_activateWasm (ord : RangeOrder Hash) (s : StateDB) (moduleHash : Hash)
    (asmMap : ActivatedWasm) : Tx s (s.activateWasm ord moduleHash asmMap).2 := by
  simp only [activateWasm]
  split
  · exact .refl
  · split
    · exact .refl
    · rename_i hmem
      exact (Logged.wasm s moduleHash asmMap (Finmap.lookup_eq_none.mpr hmem)).tx

/-- **An operation of a transaction is a sequence of logged steps.** -/
theorem tx_of_step {op : Op} (hop : s.InTx op) (h : step op s = some t) : Tx s t := by
  cases op with
  | readAccount addr => cases h; exact s.tx_getStateObject addr
  | getCode addr => cases h; exact s.tx_getCode addr
  | getCodeSize addr => cases h; exact s.tx_getCodeSize addr
  | getState addr key => cases h; exact s.tx_getStateAndCommittedState addr key
  | getCommittedState addr key =>
    cases h
    rw [getCommittedState_eq]
    exact s.tx_getStateAndCommittedState addr key
  | addBalance addr amount => cases h; exact s.tx_addBalance addr amount
  | subBalance addr amount => cases h; exact s.tx_subBalance addr amount
  | setBalance addr amount => cases h; exact s.tx_setBalance addr amount
  | setNonce addr nonce => cases h; exact s.tx_setNonce addr nonce
  | setState addr key value => cases h; exact s.tx_setState addr key value
  | setTransientState addr key value => cases h; exact s.tx_setTransientState addr key value
  | selfDestruct addr => cases h; exact s.tx_selfDestruct addr
  | selfDestruct6780 addr => cases h; exact s.tx_selfDestruct6780 addr
  | createAccount addr =>
    cases h
    have hnone : s.peek addr = none := by
      simpa [InTx, exist, getStateObject_fst] using hop
    exact (Logged.create s addr hnone).tx
  | createContract addr => exact tx_createContract h
  | addLog log => cases h; exact (Logged.log s log).tx
  | addRefund gas => cases h; exact (Logged.refund s _).tx
  | subRefund gas =>
    simp only [step, subRefund] at h
    split at h
    · cases h
    · cases h
      exact (Logged.refund s _).tx
  | addAddressToAccessList addr => cases h; exact (Logged.accessAddress s addr).tx
  | addSlotToAccessList addr slot => exact (Logged.accessSlot s t addr slot h).tx
  | activateWasm ord moduleHash asmMap => cases h; exact tx_activateWasm ord s moduleHash asmMap
  | createZombieIfDeleted addr => cases h; exact s.tx_createZombieIfDeleted addr
  | expectBalanceBurn amount | expectBalanceMint amount =>
    simp only [step, expectBalanceBurn, expectBalanceMint] at h
    split at h
    · cases h
    · cases h
      exact (Logged.delta s _).tx
  | _ => exact hop.elim

end StateDB

end GethArb
