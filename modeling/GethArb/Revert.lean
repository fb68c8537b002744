/-
  **Reverting to a snapshot restores the state.**  The journal is an undo log in
  the sense of `UndoLog.lean`: its states are the views a transaction has of a
  `StateDB` (`TxView`), its entries are undone in the world, and two views are
  equivalent when they show the same world and the same dirty counters outside
  the RIPEMD precompile, whose touch is counted twice on purpose.

  `Logged.undoable` is the step lemma, one case per kind of change.  A nested
  revert cuts the log, which `Undoes.of_undone` covers, so the run lemma
  `inside_of_txRun` holds for every interleaving of changes, snapshots and reverts.
-/
import GethArb.StateInv

namespace GethArb

open Journal List Option World

/-! ### The journal as an undo log -/

/-- What undoing a journal entry reads and changes: the world and the dirty counters. -/
structure TxView where
  world : World
  dirties : Address → Int

namespace TxView

variable [Crypto]

def undo (e : JournalEntry) (v : TxView) : Option TxView :=
  (v.world.undo e).map fun w => ⟨w, fun a => v.dirties a - if e.dirtied = some a then 1 else 0⟩

/-- The same world, and the same dirty counters except at the RIPEMD precompile. -/
def Equiv (v v' : TxView) : Prop :=
  v.world = v'.world ∧ ∀ a, a ≠ ripemd → v.dirties a = v'.dirties a

/-- The journal, seen as an undo log. -/
def log : UndoSystem TxView JournalEntry where
  undo := undo
  equiv := Equiv
  equiv_refl _ := ⟨rfl, fun _ _ => rfl⟩
  equiv_symm h := ⟨h.1.symm, fun a ha => (h.2 a ha).symm⟩
  equiv_trans h h' := ⟨h.1.trans h'.1, fun a ha => (h.2 a ha).trans (h'.2 a ha)⟩
  undo_congr e {s t s'} h hs := by
    obtain ⟨w, hw, rfl⟩ := map_eq_some_iff.mp hs
    refine ⟨⟨w, fun a => t.dirties a - if e.dirtied = some a then 1 else 0⟩, ?_, rfl, ?_⟩
    · simp only [undo, ← h.1, hw, map_some]
    · intro a ha
      simp only [h.2 a ha]

end TxView

variable {e : JournalEntry} {addr : Address}

namespace StateDB

variable [Crypto]

def txView (s : StateDB) : TxView := ⟨s.world, s.journal.dirties.get⟩

open TxView

/-- One pass of the revert loop is one undo of the view. -/
theorem txView_undoEntry (e : JournalEntry) (s : StateDB) :
    (undoEntry e s).map txView = undo e s.txView := by
  have hworld := s.world_revertEntry e
  unfold undoEntry TxView.undo
  cases hr : s.revertEntry e with
  | none =>
    rw [hr] at hworld
    simp [txView, ← hworld]
  | some t =>
    rw [hr] at hworld
    have hj := (revertEntry_undone hr).journal
    simp only [txView, ← hworld, map_some, Option.some.injEq, TxView.mk.injEq]
    refine ⟨rfl, ?_⟩
    funext a
    rw [hj, get_dropDirty_dirties]

theorem txView_undoAll (es : List JournalEntry) (s : StateDB) :
    (undoAll undoEntry es s).map txView = undoAll undo es s.txView :=
  undoAll_map undoEntry undo txView txView_undoEntry es s

/-! ### Every change is taken back by its entries -/

/-- From `t` the entries written since `s` lead back to `s`. -/
def Undoable (s t : StateDB) : Prop :=
  ∃ es, t.journal.entries = s.journal.entries ++ es ∧ log.Undoes es t.txView s.txView

theorem Undoable.refl (s : StateDB) : Undoable s s :=
  ⟨[], (append_nil _).symm, UndoSystem.Undoes.refl _ _⟩

variable {s t u q : StateDB}

theorem Undoable.trans {r : StateDB} (h : Undoable s t) (h' : Undoable t r) : Undoable s r := by
  obtain ⟨es, hes, hu⟩ := h
  obtain ⟨fs, hfs, hu'⟩ := h'
  exact ⟨es ++ fs, by rw [hfs, hes, append_assoc], hu.append hu'⟩

/-- A change of caches needs no undo. -/
theorem Undoable.of_loaded (h : Loaded s t) : Undoable s t := by
  refine ⟨[], by rw [h.journal, append_nil], _, rfl, h.world, fun a _ => ?_⟩
  rw [txView, txView, h.journal]

/-- A change with one entry, which undoes it in the world. -/
theorem Undoable.of_append (hj : t.journal = s.journal.append e)
    (hundo : t.world.undo e = some s.world) : Undoable s t := by
  refine ⟨[e], by rw [hj, (s.journal.append_revisions e).2.2],
    ⟨s.world, fun a => t.journal.dirties.get a - if e.dirtied = some a then 1 else 0⟩, ?_, rfl, ?_⟩
  · change (t.world.undo e).map _ = _
    rw [hundo]
    rfl
  · simp only [hj, get_append_dirties, txView]
    omega

open Undoable

/-- A change of one live object, with the entry that restores its account. -/
theorem Undoable.of_object {obj obj' : StateObject}
    (hlive : s.stateObjects.lookup addr = some obj)
    (hundo : (s.world.setAccount addr (some (s.viewOf addr obj'))).undo e =
      some (s.world.setAccount addr (some (s.viewOf addr obj)))) :
    Undoable s ((s.append e).setStateObject addr obj') := by
  refine of_append rfl ?_
  have hworld : ((s.append e).setStateObject addr obj').world =
      s.world.setAccount addr (some (s.viewOf addr obj')) := world_setStateObject s addr obj'
  rw [hworld, hundo]
  exact congrArg some (setAccount_of_account_eq _ _ _
    (by rw [world_account, s.peek_of_lookup hlive]; rfl))

/-- A new account is removed again by its entry. -/
theorem Undoable.of_create (hnone : s.peek addr = none)
    (ht : t = (s.append e).setStateObject addr (newObject none))
    (hundo : ∀ w : World, w.undo e = some (w.setAccount addr (w.base addr))) : Undoable s t := by
  subst ht
  refine of_append rfl ?_
  have hworld : ((s.append e).setStateObject addr (newObject none)).world =
      s.world.setAccount addr (some (s.viewOf addr (newObject none))) :=
    world_setStateObject s addr _
  -- nothing is at this address, neither live nor in the database
  have hbase : s.world.base addr = none := by
    have : s.baseObject addr = none := by
      simpa using (or_eq_none_iff.mp hnone).2
    simp [world, this]
  have haccount : s.world.account addr = none := by rw [world_account, hnone]; rfl
  rw [hworld, hundo, setAccount_base, hbase, setAccount_setAccount]
  exact congrArg some (setAccount_of_account_eq _ _ _ haccount)

theorem undoable_touch (s : StateDB) (addr : Address) : Undoable s (s.touch addr) := by
  have hentries : (s.touch addr).journal.entries = s.journal.entries ++ [.touchChange addr] := by
    simp only [touch, touchChange]
    split
    · exact (s.journal.append_revisions _).2.2
    · exact (s.journal.append_revisions _).2.2
  refine ⟨[.touchChange addr], hentries, ⟨s.world, _⟩, rfl, rfl, fun a ha => ?_⟩
  -- the second count of a RIPEMD touch is the one that survives
  simp only [txView, touch, touchChange]
  split
  · rename_i hr
    simp only [dirty, get_increment, get_append_dirties, hr, if_neg ha]
    omega
  · simp only [get_append_dirties]
    omega

theorem undoable_addAddressToAccessList (s : StateDB) (addr : Address) :
    Undoable s (s.addAddressToAccessList addr) := by
  unfold addAddressToAccessList
  rcases hadd : s.accessList.addAddress addr with ⟨al, added⟩
  cases added with
  | true =>
    refine of_append (e := .accessListAddAccountChange addr) rfl ?_
    simp only [World.undo, Option.some.injEq]
    have hdel := AccessList.deleteAddress_addAddress hadd
    change { s.world with accessList := al.deleteAddress addr } = s.world
    rw [hdel]
    rfl
  | false =>
    have hal := AccessList.eq_of_addAddress_false hadd
    subst hal
    exact refl s

theorem undoable_addSlotToAccessList {slot : Hash} (hs : s.accessList.SlotsNonempty)
    (h : s.addSlotToAccessList addr slot = some t) : Undoable s t := by
  obtain ⟨⟨al, addrMod, slotMod⟩, hadd, rfl⟩ := map_eq_some_iff.mp h
  have hundo := AccessList.deleteSlot_addSlot hs hadd
  cases slotMod with
  | false =>
    obtain ⟨rfl, rfl⟩ := hundo
    exact refl s
  | true =>
    obtain ⟨al', hdel, hal'⟩ := hundo
    cases addrMod with
    | false =>
      refine of_append (e := .accessListAddSlotChange addr slot) rfl ?_
      simp only [Bool.false_eq_true, if_false] at hal'
      change (al.deleteSlot addr slot).map _ = _
      rw [hdel, hal']
      rfl
    | true =>
      -- two entries: first the address, then the slot
      simp only [if_true] at hal'
      have hfirst : Undoable s ({ s with accessList := al' }.append
          (.accessListAddAccountChange addr)) := by
        refine of_append (e := .accessListAddAccountChange addr) rfl ?_
        change some { s.world with accessList := al'.deleteAddress addr } = _
        rw [hal']
        rfl
      refine hfirst.trans (of_append (e := .accessListAddSlotChange addr slot) rfl ?_)
      change (al.deleteSlot addr slot).map _ = _
      rw [hdel]
      rfl

theorem world_addLog (s : StateDB) (log : Log) :
    (s.addLog log).world =
      { s.world with
        logs := Function.update s.world.logs s.thash (s.world.logs s.thash ++
          [{ log with txHash := s.thash, txIndex := s.txIndex, index := s.logSize }])
        logSize := s.world.logSize + 1 } := by
  have hget : (s.addLog log).logs.get = Function.update s.logs.get s.thash (s.logs.get s.thash ++
      [{ log with txHash := s.thash, txIndex := s.txIndex, index := s.logSize }]) := by
    funext h
    simp only [addLog, append, GoMap.get_insert]
    by_cases hh : h = s.thash
    · simp [hh]
    · simp [hh]
  change { s.world with logs := (s.addLog log).logs.get, logSize := s.logSize + 1 } = _
  rw [hget]
  rfl

/-- **Step lemma: the entries a change writes take it back.** -/
theorem Logged.undoable (h : Logged s t) (hs : s.WF) : Undoable s t := by
  cases h with
  | load addr acct hlive hdes hread =>
    have hpeek : s.peek addr = some (newObject (some acct)) := by
      simp [peek, baseObject, hlive, hdes, hread]
    exact of_loaded (s.loaded_setStateObject hpeek rfl)
  | error err => exact of_loaded (s.loaded_setError err)
  | slot addr obj key hlive =>
    exact of_loaded (s.loaded_setStateObject (s.peek_of_lookup hlive)
      (obj.view_getCommittedState _ _ _ key))
  | code addr obj hlive =>
    refine of_loaded (s.loaded_setStateObject (s.peek_of_lookup hlive) ?_)
    exact obj.view_getCode s.reader addr (s.destructed addr)
  | create addr hnone | zombie addr hnone hdes => exact of_create hnone rfl fun _ => rfl
  | touch addr => exact s.undoable_touch addr
  | balance addr obj amount hlive | nonce addr obj nonce hlive =>
    exact Undoable.of_object hlive (by simp only [World.undo, World.modify]; simp; rfl)
  | storage addr obj key value hlive hcached =>
    refine of_object hlive ?_
    have hview := obj.view_setState s.reader addr (s.destructed addr) key value
    change (s.world.setAccount addr (some ((obj.setState _ _ _).view _ _ _))).undo _ = _
    rw [hview]
    simp only [World.undo, World.modify, World.setAccount_account_self, Option.map_some,
      setAccount_setAccount]
    -- the previous value is either the committed one or still recorded as dirty
    congr 3
    refine AccountView.setCurrent_restore _ key _ _ ?_
    split
    · rename_i heq
      exact heq.symm
    · rfl
  | destruct addr obj hlive hfirst =>
    refine of_object hlive ?_
    simp only [World.undo, World.setAccount_account_self, viewOf, StateObject.view, hfirst,
      World.setAccount_setAccount]
    rfl
  | contract addr obj hlive hfirst =>
    change Undoable s ((s.append _).setStateObject addr _)
    refine of_object hlive ?_
    simp only [World.undo, World.modify, World.setAccount_account_self, viewOf, StateObject.view,
      hfirst, World.setAccount_setAccount]
    rfl
  | transient addr key value =>
    refine of_append (e := .transientStorageChange addr key (s.getTransientState addr key)) rfl ?_
    have hworld : { s.append (.transientStorageChange addr key (s.getTransientState addr key)) with
        transientStorage := s.transientStorage.set addr key value }.world =
        s.world.setTransient addr key value := s.world_setTransient addr key value
    rw [hworld]
    exact congrArg some (s.world.setTransient_restore addr key value)
  | log log =>
    refine of_append (e := .addLogChange s.thash) rfl ?_
    rw [world_addLog]
    simp [World.undo]
  | refund gas => exact of_append (e := .refundChange s.refund) rfl rfl
  | accessAddress addr => exact s.undoable_addAddressToAccessList addr
  | accessSlot _ addr slot hadd => exact undoable_addSlotToAccessList hs.accessList hadd
  | wasm moduleHash asmMap hnone =>
    refine of_append (e := .wasmActivation moduleHash) rfl ?_
    change some { s.world with
      activatedWasms := (s.activatedWasms.insert moduleHash asmMap).erase moduleHash } = _
    rw [GoMap.erase_insert_of_lookup_none _ _ _ hnone]
    rfl
  | delta d => exact ⟨[], (append_nil _).symm, UndoSystem.Undoes.refl _ _⟩

theorem Tx.undoable (h : Tx s t) (hs : s.WF) : Undoable s t ∧
    t.journal.validRevisions = s.journal.validRevisions := by
  induction h with
  | refl => exact ⟨refl s, rfl⟩
  | tail hfirst hlast ih =>
    exact ⟨ih.1.trans (hlast.undoable ((Tx.writes hfirst).wf hs)),
      hlast.writes.journal.validRevisions.trans ih.2⟩

/-! ### Runs inside a snapshot -/

/-- The operations allowed between a snapshot with number `id` and its revert: those
    of a transaction, further snapshots, and reverts to those. -/
def Inner (id : Nat) (s : StateDB) (op : Op) : Prop :=
  s.InTx op ∨ op = .snapshot ∨ ∃ revid, id < revid ∧ op = .revertToSnapshot revid

/-- A sequence of such operations. -/
abbrev TxRun (id : Nat) := Run (Inner id)

/-- The invariant of a run that started at `s`, just after a snapshot was taken:
    the log leads back to `s`, and the revisions of `s` are all still there. -/
structure Inside (s t : StateDB) : Prop where
  wf : t.WF
  undoable : Undoable s t
  revisions : KeepsRevisions s t

theorem Inside.refl (hs : s.WF) : Inside s s :=
  ⟨hs, Undoable.refl s, KeepsRevisions.refl s⟩

theorem Inside.snapshot (h : Inside s t) : Inside s t.snapshot.2 := by
  refine ⟨h.wf.snapshot, h.undoable, h.revisions.snapshot ?_⟩
  obtain ⟨es, hes, -⟩ := h.undoable
  simp [hes]

theorem Inside.tx (h : Inside s t) (htx : Tx t u) : Inside s u := by
  obtain ⟨hundo, hrevs⟩ := Tx.undoable htx h.wf
  exact ⟨(Tx.writes htx).wf h.wf, h.undoable.trans hundo, h.revisions.of_eq hrevs⟩

/-- Undoing the newest part of the log keeps the rest of it undoable. -/
theorem Undoable.undo_suffix {n : Nat} (h : Undoable s t) (hn : s.journal.entries.length ≤ n)
    (hq : undoAll undoEntry (t.journal.entries.drop n) t = some q) :
    ∃ fs, t.journal.entries.take n = s.journal.entries ++ fs ∧ log.Undoes fs q.txView s.txView := by
  obtain ⟨es, hes, hu⟩ := h
  set k := n - s.journal.entries.length with hk
  have htake : t.journal.entries.take n = s.journal.entries ++ es.take k := by
    rw [hes, take_append, take_of_length_le hn]
  have hdrop : t.journal.entries.drop n = es.drop k := by
    rw [hes, drop_append, drop_eq_nil_of_le hn, nil_append]
  have hsplit : log.Undoes (es.take k ++ es.drop k) t.txView s.txView := by
    rw [take_append_drop]
    exact hu
  refine ⟨es.take k, htake, hsplit.of_undone ?_⟩
  have hview := txView_undoAll (es.drop k) t
  rw [← hdrop, hq] at hview
  rw [← hdrop]
  exact hview.symm

/-- A revert to a snapshot taken inside the run stays inside. -/
theorem Inside.revertToSnapshot {id revid : Nat} (h : Inside s t)
    (hs : ∀ r ∈ s.journal.validRevisions, r.id ≤ id) (hid : id < revid)
    (hrev : t.revertToSnapshot revid = some u) : Inside s u := by
  obtain ⟨hrevs, n, q, j, delta, hn, hq, rfl, hj, hd⟩ := h.revisions.revertToSnapshot hs hid hrev
  have hundoable : Undoable s { t with unexpectedBalanceDelta := delta } := h.undoable
  obtain ⟨fs, hfs, hu⟩ := hundoable.undo_suffix hn hq
  refine ⟨h.wf.revertToSnapshot hrev, ⟨fs, hj.trans hfs, ?_⟩, hrevs⟩
  have hview : { q with journal := j }.txView = q.txView := by
    simp only [txView, hd]
    rfl
  rw [hview]
  exact hu

/-- **Run lemma.** -/
theorem inside_of_txRun {id : Nat} {ops : List Op} (hrun : TxRun id t ops u)
    (hs : ∀ r ∈ s.journal.validRevisions, r.id ≤ id) (ht : Inside s t) : Inside s u := by
  refine Run.invariant (fun r r' op hr hop hstep => ?_) hrun ht
  rcases hop with hop | rfl | ⟨revid, hid, rfl⟩
  · exact hr.tx (tx_of_step hop hstep)
  · cases hstep
    exact hr.snapshot
  · exact hr.revertToSnapshot hs hid hstep

/-- Undoing all entries written since the snapshot shows the world at the snapshot. -/
theorem Undoable.world_undone {d : Int} (h : Undoable s t)
    (hq : undoAll undoEntry (t.journal.entries.drop s.journal.length) { t with
      unexpectedBalanceDelta := d } = some q) :
    q.world = s.world ∧ q.unexpectedBalanceDelta = d := by
  obtain ⟨es, hes, v, hv, hequiv⟩ := h
  rw [hes, Journal.length, List.drop_left] at hq
  have hview := txView_undoAll es { t with unexpectedBalanceDelta := d }
  rw [hq] at hview
  have hqv : some q.txView = some v := hview.trans hv
  have hworld : q.world = v.world := congrArg TxView.world (Option.some.inj hqv)
  exact ⟨hworld.trans hequiv.1, (undoAll_frame hq).2.delta⟩

/-! ### The getters after a revert -/

/-- Every getter returns the same in both states. -/
structure SameGetters (s t : StateDB) : Prop where
  exist : ∀ a, (t.exist a).1 = (s.exist a).1
  empty : ∀ a, (t.empty a).1 = (s.empty a).1
  getBalance : ∀ a, (t.getBalance a).1 = (s.getBalance a).1
  getNonce : ∀ a, (t.getNonce a).1 = (s.getNonce a).1
  getState : ∀ a key, (t.getState a key).1 = (s.getState a key).1
  getCommittedState : ∀ a key, (t.getCommittedState a key).1 = (s.getCommittedState a key).1
  getTransientState : ∀ a key, t.getTransientState a key = s.getTransientState a key
  hasSelfDestructed : ∀ a, (t.hasSelfDestructed a).1 = (s.hasSelfDestructed a).1
  isNewContract : ∀ a, (t.isNewContract a).1 = (s.isNewContract a).1
  logs : ∀ txHash, t.logs.get txHash = s.logs.get txHash
  logSize : t.logSize = s.logSize
  getRefund : t.getRefund = s.getRefund
  addressInAccessList : ∀ a, t.addressInAccessList a = s.addressInAccessList a
  slotInAccessList : ∀ a slot, t.slotInAccessList a slot = s.slotInAccessList a slot
  activatedWasms : t.activatedWasms = s.activatedWasms
  getUnexpectedBalanceDelta : t.getUnexpectedBalanceDelta = s.getUnexpectedBalanceDelta

/-- The getters show the world and the balance delta, and nothing else. -/
theorem sameGetters_of_world_eq (hw : t.world = s.world)
    (hdelta : t.unexpectedBalanceDelta = s.unexpectedBalanceDelta) : SameGetters s t where
  exist a := by rw [exist_fst, exist_fst, hw]
  empty a := by rw [empty_fst, empty_fst, hw]
  getBalance a := by rw [getBalance_fst, getBalance_fst, hw]
  getNonce a := by rw [getNonce_fst, getNonce_fst, hw]
  getState a key := by rw [getState_fst, getState_fst, hw]
  getCommittedState a key := by rw [getCommittedState_fst, getCommittedState_fst, hw]
  getTransientState a key := congrArg (fun w : World => w.transient a key) hw
  hasSelfDestructed a := by rw [hasSelfDestructed_fst, hasSelfDestructed_fst, hw]
  isNewContract a := by rw [isNewContract_fst, isNewContract_fst, hw]
  logs h := congrArg (fun w : World => w.logs h) hw
  logSize := congrArg World.logSize hw
  getRefund := congrArg World.refund hw
  addressInAccessList a := congrArg (fun w : World => w.accessList.containsAddress a) hw
  slotInAccessList a slot := congrArg (fun w : World => w.accessList.contains a slot) hw
  activatedWasms := congrArg World.activatedWasms hw
  getUnexpectedBalanceDelta := hdelta

/-- **Reverting to a snapshot makes every getter return what it returned when the
    snapshot was taken**, whatever the transaction did in between, and restores the
    dirty counters except possibly that of the RIPEMD precompile. -/
theorem revertToSnapshot_restores {s t : StateDB} {ops : List Op} (hs : Reachable s)
    (hrun : TxRun s.snapshot.1 s.snapshot.2 ops t) :
    ∃ u, t.revertToSnapshot s.snapshot.1 = some u ∧ SameGetters s u ∧
      ∀ a, a ≠ ripemd → u.journal.dirties.lookup a = s.journal.dirties.lookup a := by
  have hwf := hs.wf
  have hin : Inside s.snapshot.2 t :=
    inside_of_txRun hrun (snapshot_ids_le hwf) (Inside.refl hwf.snapshot)
  obtain ⟨es, hes, v, hv, hequiv⟩ := hin.undoable
  -- the entries written since the snapshot can be undone
  have hview : (undoAll undoEntry es
      { t with unexpectedBalanceDelta := s.unexpectedBalanceDelta }).map txView = some v :=
    (txView_undoAll es _).trans hv
  obtain ⟨q, hq, rfl⟩ := map_eq_some_iff.mp hview
  obtain ⟨j, hu, hd⟩ := hin.revisions.revertToOwn hin.wf hes hq
  refine ⟨_, hu, sameGetters_of_world_eq hequiv.1 (undoAll_frame hq).2.delta, fun a ha => ?_⟩
  refine lookup_eq_of_get_eq ((hin.wf.revertToSnapshot hu).journal.counts.positive a)
    (hwf.journal.counts.positive a) ?_
  rw [hd]
  exact hequiv.2 a ha

omit [Crypto] in
/-- A run with a nested snapshot: the inner revert drops a slot and a
    self-destruct, the outer one also the balance. -/
theorem revertToSnapshot_restores_nested :
    letI := numberCrypto
    ∃ t u, TxRun 0 (new 0 .empty .empty).snapshot.2
        [.addBalance 7 5, .snapshot, .setState 7 1 9, .selfDestruct 7, .revertToSnapshot 1,
          .addRefund 3] t ∧
      t.revertToSnapshot 0 = some u ∧ SameGetters (new 0 .empty .empty) u := by
  let _ : Crypto := numberCrypto
  have hnew : Reachable (new 0 .empty .empty) := .new _ _ _
  have hfunded : Reachable ((new 0 .empty .empty).snapshot.2.addBalance 7 5).2 :=
    (hnew.step .snapshot rfl).step (.addBalance 7 5) rfl
  have hinner : TxRun 1 ((new 0 .empty .empty).snapshot.2.addBalance 7 5).2.snapshot.2
      [.setState 7 1 9, .selfDestruct 7] _ :=
    .cons (.inl trivial) rfl (.cons (.inl trivial) rfl (.nil _))
  obtain ⟨r, hr, -⟩ := revertToSnapshot_restores hfunded hinner
  have hrun : TxRun 0 (new 0 .empty .empty).snapshot.2
      [.addBalance 7 5, .snapshot, .setState 7 1 9, .selfDestruct 7, .revertToSnapshot 1,
        .addRefund 3] (r.addRefund 3) :=
    .cons (.inl trivial) rfl (.cons (.inr (.inl rfl)) rfl (.cons (.inl trivial) rfl
      (.cons (.inl trivial) rfl (.cons (.inr (.inr ⟨1, Nat.one_pos, rfl⟩)) hr
        (.cons (.inl trivial) rfl (.nil _))))))
  obtain ⟨u, hu, hsame, -⟩ := revertToSnapshot_restores hnew hrun
  exact ⟨_, u, hrun, hu, hsame⟩

end StateDB

end GethArb
