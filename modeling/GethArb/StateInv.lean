/-
  **Invariants of every reachable `StateDB`**: its journal counts at least its
  own entries in `dirties`, its revisions are sorted by id, and no slot set of
  its access list is empty.

  None of this depends on how the operations are used: `CreateAccount` may
  overwrite an account, `SetStorage` may be called at any time, blocks may be
  committed and reverts may be nested in any way.
-/
import GethArb.StateOps

namespace GethArb.StateDB

open Option Journal List AccessList StateDB JournalEntry

/-! ### What the block operations leave alone -/

/-- The parts of a `StateDB` that only the operations of a transaction change. -/
structure SameTx (s t : StateDB) : Prop where
  journal : t.journal = s.journal
  accessList : t.accessList = s.accessList
  transientStorage : t.transientStorage = s.transientStorage
  logs : t.logs = s.logs
  logSize : t.logSize = s.logSize
  refund : t.refund = s.refund
  delta : t.unexpectedBalanceDelta = s.unexpectedBalanceDelta
  activatedWasms : t.activatedWasms = s.activatedWasms
  thash : t.thash = s.thash
  txIndex : t.txIndex = s.txIndex

theorem SameTx.refl (s : StateDB) : SameTx s s := by
  constructor <;> rfl

theorem SameTx.trans {s t r : StateDB} (h : SameTx s t) (h' : SameTx t r) : SameTx s r :=
  ⟨h'.journal.trans h.journal, h'.accessList.trans h.accessList,
    h'.transientStorage.trans h.transientStorage, h'.logs.trans h.logs,
    h'.logSize.trans h.logSize, h'.refund.trans h.refund, h'.delta.trans h.delta,
    h'.activatedWasms.trans h.activatedWasms, h'.thash.trans h.thash, h'.txIndex.trans h.txIndex⟩

theorem sameTx_setError (s : StateDB) (err : Option DBError) : SameTx s (s.setError err) := by
  constructor <;> rfl

variable [Crypto]

open SameTx

theorem sameTx_finaliseAccount (ord : MapOrders) (deleteEmptyObjects : Bool) (s : StateDB)
    (dirty : Address × Int) : SameTx s (s.finaliseAccount ord deleteEmptyObjects dirty) := by
  unfold finaliseAccount
  simp only
  split
  · exact refl s
  · split
    · unfold recordDestruct
      split <;> constructor <;> rfl
    · constructor <;> rfl

/-- `Finalise` is a loop over the accounts followed by a reset of the journal. -/
theorem finalise_sameTx (ord : MapOrders) (deleteEmptyObjects : Bool) (s : StateDB) :
    ∃ r, SameTx s r ∧ s.finalise ord deleteEmptyObjects = r.clearJournalAndRefund :=
  ⟨_, foldl_preserves (SameTx s) _
    (fun t dirty ht => ht.trans (t.sameTx_finaliseAccount ord deleteEmptyObjects dirty)) _ s
    (refl s), rfl⟩

variable {ord : MapOrders} {s t r q u : StateDB} {mutated : Address × Mutation}

theorem sameTx_updateObjectRoot (h : s.updateObjectRoot ord mutated = some t) : SameTx s t := by
  unfold updateObjectRoot at h
  simp only at h
  split at h
  · cases h
    exact refl s
  · split at h
    · cases h
    · cases h
      constructor <;> rfl

theorem sameTx_updateStateObject {addr : Address} {obj : StateObject}
    (h : s.updateStateObject addr obj = some t) : SameTx s t := by
  unfold updateStateObject at h
  split at h
  · cases h
  split at h
  · cases h
    exact sameTx_setError s _
  · cases h
    constructor <;> rfl

theorem sameTx_deleteStateObject {addr : Address} (h : s.deleteStateObject addr = some t) :
    SameTx s t := by
  unfold deleteStateObject at h
  split at h
  · cases h
  split at h
  · cases h
    exact sameTx_setError s _
  · cases h
    constructor <;> rfl

theorem sameTx_applyMutation {st st' : StateDB × List Address}
    (h : applyMutation st mutated = some st') : SameTx st.1 st'.1 := by
  obtain ⟨s, deleted⟩ := st
  unfold applyMutation at h
  simp only at h
  split at h
  · cases h
    exact refl s
  split at h
  · cases h
    constructor <;> rfl
  split at h
  · cases h
  · obtain ⟨t, ht, rfl⟩ := map_eq_some_iff.mp h
    have hupdate := sameTx_updateStateObject ht
    exact SameTx.trans (by constructor <;> rfl) hupdate

theorem sameTx_writeMutations (h : s.writeMutations ord = some t) : SameTx s t := by
  obtain ⟨s₁, h₁, h⟩ := bind_eq_some_iff.mp h
  obtain ⟨⟨s₂, deleted⟩, h₂, h₃⟩ := bind_eq_some_iff.mp h
  have hs₁ : SameTx s s₁ := foldlM_preserves (SameTx s) _
    (fun r k r' hr hb => hr.trans (sameTx_updateObjectRoot hb)) _ _ _ (refl s) h₁
  have hs₂ : SameTx s s₂ := foldlM_preserves (fun st => SameTx s st.1) _
    (fun r k r' hr hb => hr.trans (sameTx_applyMutation hb)) _ _ _ hs₁ h₂
  exact foldlM_preserves (SameTx s) _
    (fun r k r' hr hb => hr.trans (sameTx_deleteStateObject hb)) _ _ _ hs₂ h₃

variable {deleteEmptyObjects noStorageWiping : Bool}

/-- `IntermediateRoot` is `Finalise` followed by writes to the tries. -/
theorem intermediateRoot_sameTx {root : Hash}
    (h : s.intermediateRoot ord deleteEmptyObjects = some (root, t)) :
    SameTx (s.finalise ord deleteEmptyObjects) t := by
  unfold intermediateRoot at h
  simp only at h
  split at h
  · cases h
    exact sameTx_setError _ _
  obtain ⟨r, hr, h⟩ := bind_eq_some_iff.mp h
  obtain ⟨tr, -, h⟩ := bind_eq_some_iff.mp h
  cases h
  have hwrite := sameTx_writeMutations hr
  exact SameTx.trans (by constructor <;> rfl) hwrite

theorem sameTx_commitAccount {st st' : StateDB × Except CommitError (GoMap Hash AccountUpdate)}
    (h : commitAccount ord st mutated = some st') : SameTx st.1 st'.1 := by
  obtain ⟨s, result⟩ := st
  unfold commitAccount at h
  simp only at h
  split at h
  · cases h
    exact refl s
  · cases h
    exact refl s
  · split at h
    · cases h
      exact refl s
    · obtain ⟨⟨update, obj⟩, -, rfl⟩ := map_eq_some_iff.mp h
      constructor <;> rfl

omit [Crypto] in
/-- `Commit` gets past its first checks. -/
def Commits (s : StateDB) : Prop := s.arbTxFilter = false ∧ s.dbErr = none

variable {result : Except CommitError StateUpdate}

/-- `commit` either returns before it did anything, or it is `Finalise` followed by
    changes to objects and tries. -/
theorem commit_sameTx {block : U64}
    (h : s.commit ord deleteEmptyObjects noStorageWiping block = some (result, t)) :
    (¬ s.Commits ∧ t = s ∧ ∃ err, result = .error err) ∨
      (s.Commits ∧ SameTx (s.finalise ord deleteEmptyObjects) t) := by
  unfold commit at h
  split at h
  · rename_i hfilter
    cases h
    exact .inl ⟨fun hc => by simp [hc.1] at hfilter, rfl, _, rfl⟩
  rename_i hfilter
  split at h
  · rename_i err herr
    cases h
    exact .inl ⟨fun hc => by simp [hc.2] at herr, rfl, _, rfl⟩
  rename_i herr
  refine .inr ⟨⟨by simpa using hfilter, herr⟩, ?_⟩
  obtain ⟨⟨root, r⟩, hr, h⟩ := bind_eq_some_iff.mp h
  have hr := intermediateRoot_sameTx hr
  simp only at h
  split at h
  · cases h
    exact hr
  split at h
  · cases h
    exact hr
  obtain ⟨tr, -, h⟩ := bind_eq_some_iff.mp h
  obtain ⟨⟨q, res⟩, hq, h⟩ := bind_eq_some_iff.mp h
  have hsame : SameTx r q := foldlM_preserves (fun st => SameTx r st.1) _
    (fun p k p' hp hb => hp.trans (sameTx_commitAccount hb)) _ _ _
    (by constructor <;> rfl) hq
  split at h
  · rename_i heq
    obtain ⟨rfl, rfl⟩ := Prod.mk.inj heq
    cases h
    exact hr.trans hsame
  · rename_i heq
    obtain ⟨rfl, rfl⟩ := Prod.mk.inj heq
    cases h
    exact (hr.trans hsame).trans (by constructor <;> rfl)

/-- The journal is cleared and the access list kept. -/
structure Cleared (s t : StateDB) : Prop where
  journal : t.journal = s.journal.reset
  accessList : t.accessList = s.accessList

theorem cleared_finalise (ord : MapOrders) (deleteEmptyObjects : Bool) (s : StateDB) :
    Cleared s (s.finalise ord deleteEmptyObjects) := by
  obtain ⟨r, hr, heq⟩ := s.finalise_sameTx ord deleteEmptyObjects
  rw [heq]
  exact ⟨congrArg reset hr.journal, hr.accessList⟩

omit [Crypto] in
theorem Cleared.sameTx (h : Cleared s t) (h' : SameTx t r) : Cleared s r :=
  ⟨h'.journal.trans h.journal, h'.accessList.trans h.accessList⟩

/-- What `Commit` does to the journal and the access list. -/
theorem commitAndFlush_frame {block : U64} {flush : FlushOutcome}
    (h : s.commitAndFlush ord deleteEmptyObjects noStorageWiping block flush = some (result, t)) :
    (¬ s.Commits ∧ t.journal = s.journal ∧ t.accessList = s.accessList ∧
        ∃ err, result = .error err) ∨ (s.Commits ∧ Cleared s t) := by
  obtain ⟨⟨res, r⟩, hr, h⟩ := bind_eq_some_iff.mp h
  -- nothing after `commit` touches either of them
  have htr : t.journal = r.journal ∧ t.accessList = r.accessList := by
    cases res with
    | error err =>
      cases h
      exact ⟨rfl, rfl⟩
    | ok ret =>
      cases hw : r.db.wasmStore <;> cases flush <;>
        simp only [hw] at h <;> cases h <;> exact ⟨rfl, rfl⟩
  rcases commit_sameTx hr with ⟨hnot, rfl, err, rfl⟩ | ⟨hcommits, hsame⟩
  · cases h
    exact .inl ⟨hnot, htr.1, htr.2, err, rfl⟩
  · have hclear := (s.cleared_finalise ord deleteEmptyObjects).sameTx hsame
    exact .inr ⟨hcommits, htr.1.trans hclear.journal, htr.2.trans hclear.accessList⟩

/-! ### Changes that are not about logs -/

variable {precompiles : List Address} {list : List AccessTuple} {dst : Option Address}

omit [Crypto] in
theorem slotsNonempty_prepareAccessList {isShanghai : Bool} {sender coinbase : Address}
    {al : AccessList}
    (h : prepareAccessList isShanghai sender coinbase dst precompiles list = some al) :
    al.SlotsNonempty := by
  obtain ⟨al', hlist, h⟩ := bind_eq_some_iff.mp h
  have hal' : al'.SlotsNonempty := by
    refine foldlM_preserves SlotsNonempty _ (fun al el al' hal hb => ?_) _ _ _ ?_ hlist
    · refine foldlM_preserves SlotsNonempty _ (fun al key al' hal hb => ?_) _ _ _
        (hal.addAddress _) hb
      obtain ⟨⟨al'', _, _⟩, hadd, rfl⟩ := map_eq_some_iff.mp hb
      exact hal.addSlot hadd
    · refine foldl_preserves SlotsNonempty _ (fun al addr hal => hal.addAddress addr) _ _ ?_
      cases dst with
      | none => exact slotsNonempty_new.addAddress _
      | some addr => exact (slotsNonempty_new.addAddress _).addAddress _
  cases h
  cases isShanghai with
  | true => exact hal'.addAddress coinbase
  | false => exact hal'

/-- A property that the changes of a message keep, those to the logs apart. -/
structure Keeps (P : StateDB → Prop) : Prop where
  frame {s t : StateDB} (hs : P s) (hjournal : t.journal = s.journal := by rfl)
    (haccess : t.accessList = s.accessList := by rfl) (hthash : t.thash = s.thash := by rfl)
    (htxIndex : t.txIndex = s.txIndex := by rfl) (hlogs : t.logs = s.logs := by rfl)
    (hlogSize : t.logSize = s.logSize := by rfl) : P t
  append {s : StateDB} {e : JournalEntry} (hs : P s) (he : e.isLog = false) : P (s.append e)
  touch {s : StateDB} (hs : P s) (addr : Address) : P (s.touch addr)
  access {s : StateDB} {al : AccessList} (hs : P s)
    (hal : s.accessList.SlotsNonempty → al.SlotsNonempty) : P { s with accessList := al }

namespace Keeps

variable {P : StateDB → Prop} (hP : Keeps P) (hs : P s)
include hP hs

theorem loaded (h : Loaded s t) : P t := by
  obtain ⟨_, _, rfl, -⟩ := h
  exact hP.frame hs

omit [Crypto] in
/-- An entry and the object it is about. -/
theorem change {e : JournalEntry} (he : e.isLog = false) (addr : Address) (obj : StateObject) :
    P ((s.append e).setStateObject addr obj) :=
  hP.frame (hP.append hs he)

variable (addr : Address)

omit [Crypto] in
theorem recordDestruct (obj : StateObject) : P (s.recordDestruct addr obj) := by
  unfold StateDB.recordDestruct
  split
  · exact hs
  · exact hP.frame hs

/-- A step of a transaction adds a log or keeps the property. -/
theorem logged (h : Logged s t) : P t ∨ ∃ log, t = s.addLog log := by
  cases h with
  | log log => exact .inr ⟨log, rfl⟩
  | load | slot | code | error | delta => exact .inl (hP.frame hs)
  | create | zombie | balance | nonce | storage | destruct => exact .inl (hP.change hs rfl _ _)
  | touch addr => exact .inl (hP.touch hs addr)
  | contract addr obj =>
    exact .inl (hP.append (hP.frame hs (t := s.setStateObject addr _)) rfl)
  | transient addr key value =>
    exact .inl (hP.frame (hP.append hs
      (e := .transientStorageChange addr key (s.getTransientState addr key)) rfl))
  | refund gas => exact .inl (hP.frame (hP.append hs (e := .refundChange s.refund) rfl))
  | accessAddress addr =>
    have hbase := hP.access hs fun hne => hne.addAddress addr
    left
    simp only [addAddressToAccessList]
    split
    · exact hP.append hbase rfl
    · exact hbase
  | accessSlot _ addr slot hadd =>
    obtain ⟨⟨al, addrMod, slotMod⟩, hal, rfl⟩ := map_eq_some_iff.mp hadd
    have hbase := hP.access hs fun hne => hne.addSlot hal
    left
    cases addrMod <;> cases slotMod <;> simp only [if_true]
    · exact hbase
    · exact hP.append hbase rfl
    · exact hP.append hbase rfl
    · exact hP.append (hP.append hbase rfl) rfl
  | wasm moduleHash asmMap =>
    exact .inl (hP.append (hP.frame hs
      (t := { s with activatedWasms := s.activatedWasms.insert moduleHash asmMap })) rfl)

omit [Crypto] in
theorem objectSetState (obj : StateObject) (key value : Hash) :
    P (s.objectSetState addr obj key value).2 := by
  simp only [StateDB.objectSetState]
  split
  · exact hP.frame hs
  · refine hP.change ?_ rfl _ _
    exact hP.frame hs

theorem createWithStorage (ord : RangeOrder Hash) (addr : Address) (storage : Storage) :
    P (s.createWithStorage ord addr storage).1 :=
  foldl_preserves (fun st : StateDB × StateObject => P st.1) (setStorageSlot addr)
    (fun st slot hst => hP.objectSetState hst addr st.2 slot.1 slot.2) _ _ (hP.change hs rfl _ _)

theorem setStorage (ord : RangeOrder Hash) (addr : Address) (storage : Storage) :
    P (s.setStorage ord addr storage) := by
  unfold StateDB.setStorage
  rcases s.getStateObject_cases addr with ⟨r, heq, -, hload⟩ | ⟨obj, r, heq, -, -, hload⟩
  · simp only [heq]
    exact hP.createWithStorage (hP.loaded hs hload) ord addr storage
  · simp only [heq]
    have hkept := hP.recordDestruct (hP.loaded hs hload) addr obj
    have hnew := hP.createWithStorage hkept ord addr storage
    exact hP.change (hP.change (hP.change hnew rfl _ _) rfl _ _) rfl _ _

theorem setCode (code : Bytes) : P (s.setCode addr code) := by
  unfold StateDB.setCode getOrNewStateObject
  rcases s.getStateObject_cases addr with ⟨r, heq, -, hload⟩ | ⟨obj, r, heq, -, -, hload⟩
  · simp only [heq]
    exact hP.change (hP.change (hP.loaded hs hload) rfl _ _) rfl _ _
  · simp only [heq]
    exact hP.change (hP.loaded hs hload) rfl _ _

omit [Crypto] in
theorem prepare {isEIP2929 isEIP4762 isShanghai : Bool} {sender coinbase : Address}
    (h : s.prepare isEIP2929 isEIP4762 isShanghai sender coinbase dst precompiles list = some t) :
    P t := by
  unfold StateDB.prepare at h
  split at h
  · cases h
  split at h
  · obtain ⟨al, hal, rfl⟩ := map_eq_some_iff.mp h
    exact hP.frame (hP.access hs fun _ => slotsNonempty_prepareAccessList hal)
  · cases h
    exact hP.frame hs

end Keeps

/-! ### The steps of a transaction -/

/-- What an operation of a transaction does to the journal and the access list. -/
structure Writes (s t : StateDB) : Prop where
  journal : Written s.journal t.journal
  accessList : s.accessList.SlotsNonempty → t.accessList.SlotsNonempty

section
omit [Crypto]

theorem Writes.of_eq (hj : t.journal = s.journal) (hal : t.accessList = s.accessList) :
    Writes s t :=
  ⟨hj ▸ .refl _, fun h => hal ▸ h⟩

theorem Writes.refl (s : StateDB) : Writes s s := .of_eq rfl rfl

variable (h : Writes s t)
include h

theorem Writes.trans (h' : Writes t r) : Writes s r :=
  ⟨h.journal.trans h'.journal, h'.accessList ∘ h.accessList⟩

theorem Writes.append (e : JournalEntry) : Writes s (t.append e) :=
  ⟨h.journal.append e, h.accessList⟩

end

omit [Crypto] in
theorem keeps_writes (s : StateDB) : Keeps (Writes s) where
  frame h hj hal _ _ _ _ := h.trans (.of_eq hj hal)
  append h _ := h.append _
  touch h addr := ⟨h.journal.touchChange addr, h.accessList⟩
  access h hal := ⟨h.journal, hal ∘ h.accessList⟩

theorem Loaded.writes (h : Loaded s t) : Writes s t := (keeps_writes s).loaded (.refl s) h

theorem Logged.writes (h : Logged s t) : Writes s t := by
  rcases (keeps_writes s).logged (.refl s) h with hwrites | ⟨log, rfl⟩
  · exact hwrites
  · exact ⟨(Written.refl s.journal).append (.addLogChange s.thash), id⟩

theorem Tx.writes (h : Tx s t) : Writes s t := by
  induction h with
  | refl => exact .refl s
  | tail _ hlast ih => exact ih.trans hlast.writes

/-! ### The invariant -/

omit [Crypto] in
/-- What holds of every `StateDB` a program can reach. -/
structure WF (s : StateDB) : Prop where
  journal : s.journal.WF
  accessList : s.accessList.SlotsNonempty

omit [Crypto] in
theorem Writes.wf (h : Writes s t) (hs : s.WF) : t.WF :=
  ⟨h.journal.wf hs.journal, h.accessList hs.accessList⟩

/-! ### Undoing -/

/-- What undoing entries leaves alone, next to the objects. -/
structure UndoFrame (s t : StateDB) : Prop where
  block : SameBlock s t
  delta : t.unexpectedBalanceDelta = s.unexpectedBalanceDelta
  accessList : s.accessList.SlotsNonempty → t.accessList.SlotsNonempty

omit [Crypto] in
theorem UndoFrame.refl (s : StateDB) : UndoFrame s s := ⟨SameBlock.refl s, rfl, id⟩

omit [Crypto] in
theorem UndoFrame.trans (h : UndoFrame s t) (h' : UndoFrame t r) : UndoFrame s r :=
  ⟨h.block.trans h'.block, h'.delta.trans h.delta, h'.accessList ∘ h.accessList⟩

/-- What undoing an entry leaves alone, the logs included if it is not about one. -/
structure Undone (e : JournalEntry) (s t : StateDB) : Prop extends UndoFrame s t where
  journal : t.journal = s.journal
  thash : t.thash = s.thash
  txIndex : t.txIndex = s.txIndex
  logs : e.isLog = false → t.logs = s.logs ∧ t.logSize = s.logSize

theorem Loaded.undone (h : Loaded s t) (e : JournalEntry) (objects : GoMap Address StateObject) :
    Undone e s { t with stateObjects := objects } := by
  obtain ⟨_, _, rfl, -⟩ := h
  exact ⟨⟨by constructor <;> rfl, rfl, id⟩, rfl, rfl, rfl, fun _ => ⟨rfl, rfl⟩⟩

theorem revertObject_undone {addr : Address} {f : StateObject → StateObject}
    (h : s.revertObject addr f = some t) (e : JournalEntry) : Undone e s t := by
  unfold revertObject at h
  rcases s.getStateObject_cases addr with ⟨r, heq, -⟩ | ⟨obj, r, heq, -, -, hload⟩
  · simp [heq] at h
  · simp only [heq] at h
    cases h
    exact hload.undone e _

/-- An entry's undo does not touch the journal, and keeps the access list in shape. -/
theorem revertEntry_undone {e : JournalEntry} (h : s.revertEntry e = some t) : Undone e s t := by
  cases e with
  | createContractChange a | balanceChange a _ | nonceChange a _ | storageChange a _ _ _
  | codeChange a _ => exact revertObject_undone h _
  | selfDestructChange a =>
    simp only [revertEntry] at h
    rcases s.getStateObject_cases a with ⟨r, heq, -, hload⟩ | ⟨obj, r, heq, -, -, hload⟩
    · simp only [heq] at h
      cases h
      exact hload.undone _ t.stateObjects
    · simp only [heq] at h
      cases h
      exact hload.undone _ _
  | addLogChange hash =>
    simp only [revertEntry] at h
    split at h
    · cases h
      exact ⟨⟨by constructor <;> rfl, rfl, id⟩, rfl, rfl, rfl, by simp [isLog]⟩
    · split at h
      · cases h
      · cases h
        exact ⟨⟨by constructor <;> rfl, rfl, id⟩, rfl, rfl, rfl, by simp [isLog]⟩
  | accessListAddSlotChange a slot =>
    obtain ⟨al, hdel, rfl⟩ := map_eq_some_iff.mp h
    exact ⟨⟨by constructor <;> rfl, rfl, fun hne => hne.deleteSlot hdel⟩, rfl, rfl, rfl,
      fun _ => ⟨rfl, rfl⟩⟩
  | createObjectChange a | createZombieChange a | refundChange _ | touchChange _
  | accessListAddAccountChange _ | transientStorageChange _ _ _ | wasmActivation _
  | cacheWasm _ _ _ _ | evictWasm _ _ _ _ =>
    cases h
    exact ⟨⟨by constructor <;> rfl, rfl, id⟩, rfl, rfl, rfl, fun _ => ⟨rfl, rfl⟩⟩

variable {es : List JournalEntry}

/-- Undoing a log drops the dirty tracking of each of its entries. -/
theorem undoAll_frame (h : undoAll undoEntry es s = some t) :
    t.journal = es.foldr (fun e j => j.dropDirty e) s.journal ∧ UndoFrame s t := by
  induction es generalizing t with
  | nil =>
    cases h
    exact ⟨rfl, UndoFrame.refl s⟩
  | cons e es ih =>
    obtain ⟨r, hr, h⟩ := bind_eq_some_iff.mp h
    obtain ⟨q, hq, rfl⟩ := map_eq_some_iff.mp h
    obtain ⟨hj, hframe⟩ := ih hr
    have hundone := revertEntry_undone hq
    have hframe'' := hframe.trans hundone.toUndoFrame
    refine ⟨by simp [hundone.journal, hj], ?_, hframe''.delta, hframe''.accessList⟩
    obtain ⟨h₁, h₂, h₃, h₄, h₅, h₆, h₇⟩ := hframe''.block
    exact ⟨h₁, h₂, h₃, h₄, h₅, h₆, h₇⟩

omit [Crypto] in
theorem dropDirty_frame (j : Journal) (e : JournalEntry) :
    (j.dropDirty e).validRevisions = j.validRevisions ∧
      (j.dropDirty e).nextRevisionId = j.nextRevisionId ∧ (j.dropDirty e).entries = j.entries := by
  unfold dropDirty
  split <;> exact ⟨rfl, rfl, rfl⟩

omit [Crypto] in
theorem dropDirties_frame (es : List JournalEntry) (j : Journal) :
    (es.foldr (fun e j => j.dropDirty e) j).validRevisions = j.validRevisions ∧
      (es.foldr (fun e j => j.dropDirty e) j).nextRevisionId = j.nextRevisionId ∧
      (es.foldr (fun e j => j.dropDirty e) j).entries = j.entries := by
  induction es with
  | nil => exact ⟨rfl, rfl, rfl⟩
  | cons e es ih =>
    obtain ⟨h₁, h₂, h₃⟩ := dropDirty_frame (es.foldr (fun e j => j.dropDirty e) j) e
    exact ⟨h₁.trans ih.1, h₂.trans ih.2.1, h₃.trans ih.2.2⟩

variable {revid : Nat}

/-- What `RevertToSnapshot` does, in one statement: it finds the revision, undoes
    the entries above it and cuts entries and revisions. -/
theorem revertToSnapshot_some (h : s.revertToSnapshot revid = some t) :
    ∃ idx r q, s.journal.findRevision revid = some (idx, r) ∧
      r.journalIndex ≤ s.journal.entries.length ∧
      undoAll undoEntry (s.journal.entries.drop r.journalIndex)
        { s with unexpectedBalanceDelta := r.unexpectedBalanceDelta } = some q ∧
      t = { q with journal := { q.journal with
              entries := s.journal.entries.take r.journalIndex
              validRevisions := q.journal.validRevisions.take idx } } := by
  unfold revertToSnapshot at h
  split at h
  · cases h
  rename_i idx r hfind
  obtain ⟨p, hp, rfl⟩ := map_eq_some_iff.mp h
  unfold revert at hp
  split at hp
  · cases hp
  · rename_i hlen
    obtain ⟨q, hq, rfl⟩ := map_eq_some_iff.mp hp
    exact ⟨idx, r, q, hfind, Nat.not_lt.mp hlen, hq, rfl⟩

theorem revert_eq {n : Nat} (hlen : n ≤ s.journal.length)
    (hq : undoAll undoEntry (s.journal.entries.drop n) s = some q) :
    s.revert n =
      some { q with journal := { q.journal with entries := s.journal.entries.take n } } := by
  unfold revert
  rw [if_neg (Nat.not_lt.mpr hlen), hq]
  rfl

/-- A snapshot that is still on the stack can be reverted to, if the entries above it
    can be undone. -/
theorem revertToSnapshot_eq {older newer : List Revision} {r : Revision} (hs : s.WF)
    (hrev : s.journal.validRevisions = older ++ r :: newer)
    (hlen : r.journalIndex ≤ s.journal.entries.length)
    (hq : undoAll undoEntry (s.journal.entries.drop r.journalIndex) { s with unexpectedBalanceDelta
      := r.unexpectedBalanceDelta } = some q) :
    s.revertToSnapshot r.id =
      some { q with journal := { q.journal with
        entries := s.journal.entries.take r.journalIndex
        validRevisions := q.journal.validRevisions.take older.length } } := by
  have hrevert := revert_eq
    (s := { s with unexpectedBalanceDelta := r.unexpectedBalanceDelta }) hlen hq
  unfold revertToSnapshot
  rw [findRevision_eq hs.journal.sorted hrev]
  simp only [hrevert, map_some]

theorem WF.revertToSnapshot (hs : s.WF) (h : s.revertToSnapshot revid = some t) : t.WF := by
  obtain ⟨idx, r, q, -, -, hq, rfl⟩ := revertToSnapshot_some h
  obtain ⟨hj, hal⟩ := undoAll_frame hq
  obtain ⟨hrev, hnext, -⟩ :=
    dropDirties_frame (s.journal.entries.drop r.journalIndex) s.journal
  refine ⟨⟨?_, ?_, ?_⟩, hal.accessList hs.accessList⟩
  · simp only [hj]
    refine Counts.dropDirties ?_
    rw [take_append_drop]
    exact hs.journal.counts
  · simp only [hj, hrev]
    exact hs.journal.sorted.sublist (take_sublist _ _)
  · intro r' hr'
    simp only [hj, hrev, hnext] at hr' ⊢
    exact hs.journal.bounded r' (mem_of_mem_take hr')

/-! ### Runs after a snapshot -/

/-- The revisions of `s` are still on the stack of `t`, and every later one was taken
    after the entries of `s` were written. -/
def KeepsRevisions (s t : StateDB) : Prop :=
  ∃ rs, t.journal.validRevisions = s.journal.validRevisions ++ rs ∧
    ∀ r ∈ rs, s.journal.entries.length ≤ r.journalIndex

section
omit [Crypto]

theorem KeepsRevisions.refl (s : StateDB) : KeepsRevisions s s :=
  ⟨[], (append_nil _).symm, fun _ h => by cases h⟩

theorem KeepsRevisions.of_eq (h : KeepsRevisions s t)
    (hu : u.journal.validRevisions = t.journal.validRevisions) : KeepsRevisions s u := by
  unfold KeepsRevisions
  rw [hu]
  exact h

theorem KeepsRevisions.snapshot (h : KeepsRevisions s t)
    (hlen : s.journal.entries.length ≤ t.journal.entries.length) :
    KeepsRevisions s t.snapshot.2 := by
  obtain ⟨rs, hrs, hidx⟩ := h
  refine ⟨rs ++ [⟨t.journal.nextRevisionId, t.journal.length, t.unexpectedBalanceDelta⟩], ?_, ?_⟩
  · simp [StateDB.snapshot, Journal.snapshot, hrs]
  · intro r hr
    rcases mem_append.mp hr with hr | hr
    · exact hidx r hr
    · rw [mem_singleton.mp hr]
      exact hlen

end

/-- A revert to a snapshot taken after `s`: it undoes entries written since `s` only. -/
theorem KeepsRevisions.revertToSnapshot {id : Nat} (h : KeepsRevisions s t)
    (hs : ∀ r ∈ s.journal.validRevisions, r.id ≤ id) (hid : id < revid)
    (hrev : t.revertToSnapshot revid = some u) :
    KeepsRevisions s u ∧ ∃ n q j delta, s.journal.entries.length ≤ n ∧
      undoAll undoEntry (t.journal.entries.drop n)
        { t with unexpectedBalanceDelta := delta } = some q ∧
      u = { q with journal := j } ∧ j.entries = t.journal.entries.take n ∧
      j.dirties = q.journal.dirties := by
  obtain ⟨idx, r, q, hfind, -, hq, rfl⟩ := revertToSnapshot_some hrev
  obtain ⟨hget, hrid⟩ := findRevision_some hfind
  obtain ⟨rs, hrs, hidx⟩ := h
  -- the revision was taken after `s`: all older ones have smaller ids
  have hlen : s.journal.validRevisions.length ≤ idx := by
    by_contra hlt
    rw [hrs, getElem?_append_left (by omega)] at hget
    have := hs r (mem_of_getElem? hget)
    omega
  have hmem : r ∈ rs := by
    rw [hrs, getElem?_append_right hlen] at hget
    exact mem_of_getElem? hget
  refine ⟨⟨rs.take (idx - s.journal.validRevisions.length), ?_, ?_⟩,
    r.journalIndex, q, _, r.unexpectedBalanceDelta, hidx r hmem, hq, rfl, rfl, rfl⟩
  · have hqr : q.journal.validRevisions = t.journal.validRevisions := by
      rw [(undoAll_frame hq).1]
      exact (dropDirties_frame _ _).1
    simp [hqr, hrs, take_append, take_of_length_le hlen]
  · intro r' hr'
    exact hidx r' (mem_of_mem_take hr')

omit [Crypto] in
theorem snapshot_ids_le (hs : s.WF) :
    ∀ r ∈ s.snapshot.2.journal.validRevisions, r.id ≤ s.snapshot.1 := by
  intro r hr
  rcases mem_append.mp hr with hr | hr
  · exact le_of_lt (hs.journal.bounded r hr)
  · rw [mem_singleton.mp hr]
    exact le_refl _

omit [Crypto] in
theorem WF.snapshot (hs : s.WF) : s.snapshot.2.WF :=
  ⟨hs.journal.snapshot _, hs.accessList⟩

/-- The revert to the snapshot itself undoes all entries written since. -/
theorem KeepsRevisions.revertToOwn (ht : t.WF) (h : KeepsRevisions s.snapshot.2 t)
    (hes : t.journal.entries = s.journal.entries ++ es)
    (hq : undoAll undoEntry es { t with unexpectedBalanceDelta := s.unexpectedBalanceDelta } =
      some q) :
    ∃ j, t.revertToSnapshot s.snapshot.1 = some { q with journal := j } ∧
      j.dirties = q.journal.dirties := by
  obtain ⟨rs, hrs, -⟩ := h
  have hrs : t.journal.validRevisions = s.journal.validRevisions ++
      ⟨s.journal.nextRevisionId, s.journal.length, s.unexpectedBalanceDelta⟩ :: rs := by
    rw [hrs]
    simp [StateDB.snapshot, Journal.snapshot]
  have hu := revertToSnapshot_eq ht hrs (by simp [Journal.length, hes])
    (by simpa only [Journal.length, hes, List.drop_left] using hq)
  exact ⟨_, hu, rfl⟩

/-! ### The remaining operations -/

/-- The operation ends a transaction: it clears the journal. -/
def Clears (s : StateDB) : Op → Prop
  | .finalise _ _ | .intermediateRoot _ _ | .stateDiff _ _ => True
  | .commit _ _ _ _ _ => s.Commits
  | _ => False

/-- All an operation can do to the journal. -/
inductive Effect (s t : StateDB) : Op → Prop where
  | snapshot (h : t = s.snapshot.2) : Effect s t .snapshot
  | revert (revid : Nat) (h : s.revertToSnapshot revid = some t) :
      Effect s t (.revertToSnapshot revid)
  | clear {op : Op} (hop : s.Clears op) (h : Cleared s t) : Effect s t op
  | write {op : Op} (hop : ¬ s.Clears op) (h : Writes s t) : Effect s t op

/-- **Every public operation** writes to the journal, clears it, takes a snapshot or
    reverts to one. -/
theorem effect_of_step {op : Op} (h : step op s = some t) : Effect s t op := by
  by_cases hop : s.InTx op
  · refine .write (fun hclear => ?_) (tx_of_step hop h).writes
    cases op with
    | finalise | intermediateRoot | stateDiff | commit => exact hop
    | _ => exact hclear
  have hs := Writes.refl s
  have hP := keeps_writes s
  cases op with
  | getLogs hash blockNumber blockHash blockTime =>
    cases h
    refine .write id ?_
    unfold getLogs
    split
    · exact hs
    · exact .of_eq rfl rfl
  | setCode addr code => cases h; exact .write id (hP.setCode hs addr code)
  | setStorage ord addr storage => cases h; exact .write id (hP.setStorage hs ord addr storage)
  | createAccount addr => cases h; exact .write id (hP.change hs rfl _ _)
  | createContract addr => exact .write id (tx_createContract h).writes
  | recordCacheWasm moduleHash version tag debug =>
    cases h
    have happend := hs.append (.cacheWasm moduleHash version tag debug)
    exact .write id happend
  | recordEvictWasm moduleHash version tag debug =>
    cases h
    have happend := hs.append (.evictWasm moduleHash version tag debug)
    exact .write id happend
  | snapshot => cases h; exact .snapshot rfl
  | revertToSnapshot revid => exact .revert revid h
  | setTxContext thash ti => cases h; exact .write id (.of_eq rfl rfl)
  | prepare => exact .write id (hP.prepare hs h)
  | filterTx on => cases h; exact .write id (.of_eq rfl rfl)
  | finalise ord del => cases h; exact .clear trivial (s.cleared_finalise ord del)
  | intermediateRoot ord del =>
    obtain ⟨⟨root, r⟩, hr, rfl⟩ := map_eq_some_iff.mp h
    exact .clear trivial ((s.cleared_finalise ord del).sameTx (intermediateRoot_sameTx hr))
  | stateDiff ord del =>
    obtain ⟨⟨diff, r⟩, hr, rfl⟩ := map_eq_some_iff.mp h
    refine .clear trivial ?_
    simp only [stateDiff] at hr
    split at hr
    · cases hr
      exact s.cleared_finalise ord del
    · obtain ⟨d, -, hd⟩ := map_eq_some_iff.mp hr
      cases hd
      exact s.cleared_finalise ord del
  | commit ord del noWiping block flush =>
    obtain ⟨⟨result, r⟩, hr, rfl⟩ := map_eq_some_iff.mp h
    rcases commitAndFlush_frame hr with ⟨hnot, hj, hal, -⟩ | ⟨hcommits, hclear⟩
    · exact .write hnot (.of_eq hj hal)
    · exact .clear hcommits hclear
  | _ => exact absurd trivial hop

theorem WF.step {op : Op} (hs : s.WF) (h : step op s = some t) : t.WF := by
  cases effect_of_step h with
  | snapshot heq =>
    rw [heq]
    exact hs.snapshot
  | revert revid hrev => exact hs.revertToSnapshot hrev
  | clear _ hclear => exact ⟨hclear.journal ▸ WF.reset, hclear.accessList ▸ hs.accessList⟩
  | write _ hwrites => exact hwrites.wf hs

theorem Reachable.wf (h : Reachable s) : s.WF :=
  h.invariant (fun _ _ _ => ⟨wf_new, slotsNonempty_new⟩)
    fun _ _ _ hs hst => hs.step hst

end GethArb.StateDB
