/-
  **The states of a block before its commit.**  Everything a `StateDB` holds for an
  account stays tied to the flat state the block started from, in every state the
  operations of a block can reach: transactions with reverts, `Finalise`,
  `StateDiff` and `IntermediateRoot` in any order.

  `TxStep` says once what the operations inside a transaction and the undos of
  journal entries do to the objects; `writeMutations_spec` says what the trie
  writes of `IntermediateRoot` do to one account.
-/
import GethArb.Flat

namespace GethArb

open Finmap StateObject Option GoMap

variable [Crypto]

/-! ### One account -/

/-- What a step inside a transaction does to the object held for an account. -/
inductive ObjectStep (reader : Reader) (a : Address) (d : Bool) :
    Option StateObject → Option StateObject → Prop where
  | same (obj : Option StateObject) : ObjectStep reader a d obj obj
  | load (acct : StateAccount) (hd : d = false) (hread : reader.account a = .ok (some acct)) :
      ObjectStep reader a d none (some (newObject (some acct)))
  | create (h : d = true ∨ ∀ acct, reader.account a ≠ .ok (some acct)) :
      ObjectStep reader a d none (some (newObject none))
  | touch {obj obj' : StateObject} (h : obj.Touched reader a d obj') :
      ObjectStep reader a d (some obj) (some obj')
  | drop (obj : Option StateObject) : ObjectStep reader a d obj none

/-- What is held for the account `a` is tied to the flat state `R`. -/
structure Held.Tracks (R : Flat StateAccount) (a : Address) (held : Held) : Prop where
  object : ∀ obj, held.object = some obj → obj.Tracks R a held.destruct.isSome held.mutation
  destruct : ∀ obj, held.destruct = some obj → obj.origin = R.account (addrHash a)
  deleted : ∀ applied, held.mutation = some ⟨.deletion, applied⟩ → held.destruct.isSome = true
  marked : held.mutation = none → held.destruct = none

section
variable {R : Flat StateAccount} {root : Hash} {db : Database} {reader : Reader} {a : Address}
  {held : Held}

theorem Held.Tracks.objectStep (hR : Serves R root db reader) (h : held.Tracks R a)
    {obj' : Option StateObject}
    (hstep : ObjectStep reader a held.destruct.isSome held.object obj') :
    { held with object := obj' }.Tracks R a := by
  refine ⟨fun obj hobj => ?_, h.destruct, h.deleted, h.marked⟩
  obtain ⟨object, destruct, mutation⟩ := held
  subst hobj
  generalize hobj : some obj = obj' at hstep
  cases hstep with
  | same => exact h.object obj hobj.symm
  | load acct hd hread =>
    cases hobj
    refine tracks_newObject _ ?_
    rw [hR.account a] at hread
    rw [hd]
    exact Except.ok.inj hread
  | create hnone =>
    cases hobj
    refine tracks_newObject _ ?_
    rcases hnone with hd | hnone
    · rw [hd]
      rfl
    unfold Flat.baseAccount
    split
    · rfl
    · cases hacct : R.account (addrHash a) with
      | none => rfl
      | some acct => exact absurd (by rw [hR.account a, hacct]) (hnone acct)
  | touch htouched =>
    cases hobj
    exact htouched.tracks hR (h.object _ rfl)
  | drop => cases hobj

/-- The slots written by the object of an account, if there is one, do not collide. -/
def Held.SlotsInjective (held : Held) : Prop :=
  ∀ obj, held.object = some obj → Set.InjOn slotHash obj.writtenSlots

/-- `Finalise` keeps an account tied to the flat state.  The object of a deleted
    account is recorded with the origin the database has. -/
theorem Held.Tracks.finalise (hR : Serves R root db reader) (ord : RangeOrder Hash)
    (deletes : StateObject → Bool) (h : held.Tracks R a) (hslots : held.SlotsInjective) :
    (held.finalise ord reader a deletes).Tracks R a ∧
      (held.finalise ord reader a deletes).SlotsInjective := by
  unfold Held.finalise
  cases hlive : held.object with
  | none => exact ⟨h, hslots⟩
  | some obj =>
    have hobj := h.object obj hlive
    simp only
    split
    · refine ⟨⟨fun obj' hobj' => by simp at hobj', fun obj' hobj' => ?_, fun _ _ => ?_,
        fun hm => by simp at hm⟩, fun obj' hobj' => by simp at hobj'⟩
      · cases hdes : held.destruct with
        | some first =>
          rw [hdes] at hobj'
          exact h.destruct obj' (hdes.trans hobj')
        | none =>
          rw [hdes] at hobj'
          cases hobj'
          rw [hobj.origin, hdes]
          rfl
      · cases held.destruct <;> rfl
    · obtain ⟨htracks, hsub⟩ := hobj.finalise hR ord (hslots obj hlive)
      refine ⟨⟨fun obj' hobj' => ?_, h.destruct, fun _ hm => by simp at hm,
        fun hm => by simp at hm⟩, fun obj' hobj' => ?_⟩
      · cases hobj'
        exact htracks
      · cases hobj'
        exact (hslots obj hlive).mono hsub

/-- What the trie writes of `IntermediateRoot` make of an account. -/
def Held.written (ord : RangeOrder Hash) (db : Database) (originalRoot : Hash) (addr : Address)
    (held : Held) : Held where
  object :=
    if held.mutation = some ⟨.update, false⟩ then
      held.object.map fun obj => (obj.updateRoot ord db originalRoot addr).1
    else held.object
  destruct := held.destruct
  mutation := held.mutation.map fun m => { m with applied := true }

/-- The trie writes keep an account tied to the flat state, with nothing left to
    write. -/
theorem Held.Tracks.written (hR : Serves R root db reader) (ord : RangeOrder Hash)
    (h : held.Tracks R a) (hslots : held.SlotsInjective) :
    (held.written ord db root a).Tracks R a ∧ (held.written ord db root a).SlotsInjective ∧
      ∀ obj, (held.written ord db root a).object = some obj → obj.uncommittedStorage = ∅ := by
  have hobj : ∀ obj, (held.written ord db root a).object = some obj →
      obj.Tracks R a held.destruct.isSome (held.mutation.map fun m => { m with applied := true }) ∧
        Set.InjOn slotHash obj.writtenSlots ∧ obj.uncommittedStorage = ∅ := by
    intro obj' hobj'
    unfold Held.written at hobj'
    split at hobj'
    · rename_i hm
      obtain ⟨obj, hobj, rfl⟩ := map_eq_some_iff.mp hobj'
      have hinj := hslots obj hobj
      obtain ⟨trie, r, heq, htracks⟩ :=
        (h.object obj hobj).updateRoot hR (hinj.mono fun _ => .inl) ord
      rw [heq]
      exact ⟨htracks _ fun _ => ⟨true, by rw [hm]; rfl⟩, hinj, rfl⟩
    · rename_i hm
      have hold := h.object obj' hobj'
      have hempty : obj'.uncommittedStorage = ∅ := by
        by_contra hne
        exact hm (hold.unapplied hne)
      refine ⟨{ hold with clean := fun hne => ?_, unapplied := fun hne => absurd hempty hne },
        hslots obj' hobj', hempty⟩
      obtain ⟨applied, happlied⟩ := hold.clean hne
      exact ⟨true, by rw [happlied]; rfl⟩
  refine ⟨⟨fun obj' hobj' => (hobj obj' hobj').1, h.destruct, fun applied hm => ?_,
    fun hm => h.marked (map_eq_none_iff.mp hm)⟩, fun obj' hobj' => (hobj obj' hobj').2.1,
    fun obj' hobj' => (hobj obj' hobj').2.2⟩
  obtain ⟨⟨typ, b⟩, hold, heq⟩ := map_eq_some_iff.mp hm
  cases heq
  exact h.deleted b hold

end

namespace StateDB

/-! ### Steps inside a transaction -/

/-- What the operations of a transaction and the undos of its entries do to the
    block: objects are loaded, created, touched or dropped, and nothing else. -/
structure TxStep (s t : StateDB) : Prop where
  block : SameBlock s t
  object : ∀ a, ObjectStep s.reader a (s.destructed a) (s.stateObjects.lookup a)
    (t.stateObjects.lookup a)

variable {s t : StateDB}

theorem TxStep.of_same (h : SameBlock s t := by constructor <;> rfl)
    (hobj : t.stateObjects = s.stateObjects := by rfl) : TxStep s t :=
  ⟨h, fun _ => hobj ▸ .same _⟩

variable {addr : Address}

theorem TxStep.of_insert {obj : StateObject}
    (hstep : ObjectStep s.reader addr (s.destructed addr) (s.stateObjects.lookup addr) (some obj))
    (h : SameBlock s t := by constructor <;> rfl)
    (hobj : t.stateObjects = s.stateObjects.insert addr obj := by rfl) : TxStep s t := by
  refine ⟨h, fun a => ?_⟩
  rw [hobj]
  by_cases ha : a = addr
  · subst ha
    rw [lookup_insert]
    exact hstep
  · rw [lookup_insert_of_ne _ ha]
    exact .same _

theorem TxStep.of_touch {obj obj' : StateObject} (hlive : s.stateObjects.lookup addr = some obj)
    (htouched : obj.Touched s.reader addr (s.destructed addr) obj')
    (h : SameBlock s t := by constructor <;> rfl)
    (hobj : t.stateObjects = s.stateObjects.insert addr obj' := by rfl) : TxStep s t := by
  refine .of_insert ?_ h hobj
  rw [hlive]
  exact .touch htouched

/-- An account that no lookup finds may be created. -/
theorem create_of_peek (h : s.peek addr = none) :
    ObjectStep s.reader addr (s.destructed addr) (s.stateObjects.lookup addr)
      (some (newObject none)) := by
  obtain ⟨hlive, hbase⟩ := or_eq_none_iff.mp h
  rw [hlive]
  refine .create ?_
  unfold baseObject at hbase
  split at hbase
  · rename_i hd
    exact .inl hd
  · refine .inr fun acct hread => ?_
    rw [hread] at hbase
    cases hbase

theorem Logged.txStep (h : Logged s t) : TxStep s t := by
  cases h with
  | load addr acct hlive hdes hread =>
    refine .of_insert ?_
    rw [hlive]
    exact .load acct hdes hread
  | error err => exact .of_same
  | slot addr obj key hlive => exact .of_touch hlive (touched_getCommittedState ..)
  | code addr obj hlive => exact .of_touch hlive (touched_getCode ..)
  | create addr hnone | zombie addr hnone _ =>
    exact .of_insert (create_of_peek hnone)
  | balance addr obj _ hlive | nonce addr obj _ hlive | destruct addr obj hlive _
  | contract addr obj hlive _ =>
    refine .of_touch hlive ?_
    exact ⟨rfl, rfl, rfl, rfl, rfl, fun _ _ hv => .inl hv, fun _ h => h, fun h => h⟩
  | storage addr obj key value hlive _ => exact .of_touch hlive (touched_setState ..)
  | touch addr | transient addr key value | log log | refund gas | wasm moduleHash asmMap _
  | delta d => exact .of_same
  | accessAddress addr =>
    simp only [addAddressToAccessList]
    split <;> exact .of_same
  | accessSlot _ addr slot hadd =>
    obtain ⟨⟨al, addrMod, slotMod⟩, -, rfl⟩ := map_eq_some_iff.mp hadd
    cases addrMod <;> cases slotMod <;> exact .of_same

/-- Any number of steps inside a transaction. -/
abbrev TxSteps := Relation.ReflTransGen TxStep

theorem Tx.txSteps (h : Tx s t) : TxSteps s t :=
  Relation.ReflTransGen.mono (fun _ _ => Logged.txStep) s t h

theorem txSteps_setCode (s : StateDB) (addr : Address) (code : Bytes) :
    TxSteps s (s.setCode addr code) := by
  obtain ⟨htx, hlive⟩ := s.getOrNewStateObject_spec addr
  exact (Tx.txSteps htx).tail (.of_touch hlive (touched_setCode ..))

theorem txSteps_revertObject {f : StateObject → StateObject}
    (hf : ∀ obj : StateObject, obj.Touched s.reader addr (s.destructed addr) (f obj))
    (h : s.revertObject addr f = some t) : TxSteps s t := by
  have htx := s.tx_getStateObject addr
  unfold revertObject at h
  rcases s.getStateObject_cases addr with ⟨r, heq, -⟩ | ⟨obj, r, heq, -, hlive, hload⟩
  · simp [heq] at h
  simp only [heq] at h htx
  cases h
  refine (Tx.txSteps htx).tail (.of_touch hlive ?_)
  rw [hload.sameBlock.reader, destructed, hload.sameBlock.destruct]
  exact hf obj

/-- Undoing an entry loads, touches or drops one object. -/
theorem txSteps_revertEntry {e : JournalEntry} (h : s.revertEntry e = some t) : TxSteps s t := by
  cases e with
  | createObjectChange addr | createZombieChange addr =>
    cases h
    refine .single ⟨by constructor <;> rfl, fun a => ?_⟩
    by_cases ha : a = addr
    · subst ha
      rw [show lookup a (s.stateObjects.erase a) = none from lookup_erase ..]
      exact .drop _
    · rw [show lookup a (s.stateObjects.erase addr) = s.stateObjects.lookup a from
        lookup_erase_ne ha]
      exact .same _
  | createContractChange a | balanceChange a _ | nonceChange a _ =>
    refine txSteps_revertObject (fun obj => ?_) h
    exact ⟨rfl, rfl, rfl, rfl, rfl, fun _ _ hv => .inl hv, fun _ h => h, fun h => h⟩
  | storageChange a key prev origin =>
    exact txSteps_revertObject (fun obj => touched_setState ..) h
  | codeChange a prevCode =>
    exact txSteps_revertObject (fun obj => touched_setCode ..) h
  | selfDestructChange addr =>
    simp only [revertEntry] at h
    rcases s.getStateObject_tx addr with ⟨r, heq, htx, -⟩ | ⟨obj, r, heq, htx, hlive⟩
    · simp only [heq] at h
      cases h
      exact Tx.txSteps htx
    · simp only [heq] at h
      cases h
      refine (Tx.txSteps htx).tail (.of_touch hlive ?_)
      exact ⟨rfl, rfl, rfl, rfl, rfl, fun _ _ hv => .inl hv, fun _ h => h, fun h => h⟩
  | addLogChange hash =>
    simp only [revertEntry] at h
    split at h
    · cases h
      exact .single .of_same
    · split at h <;> cases h
      exact .single .of_same
  | accessListAddSlotChange a slot =>
    obtain ⟨al, -, rfl⟩ := map_eq_some_iff.mp h
    exact .single .of_same
  | refundChange _ | touchChange _ | accessListAddAccountChange _ | transientStorageChange _ _ _
  | wasmActivation _ | cacheWasm _ _ _ _ | evictWasm _ _ _ _ =>
    cases h
    exact .single .of_same

theorem txSteps_undoAll {es : List JournalEntry} (h : undoAll undoEntry es s = some t) :
    TxSteps s t := by
  induction es generalizing t with
  | nil =>
    cases h
    exact .refl
  | cons e es ih =>
    obtain ⟨r, hr, h⟩ := bind_eq_some_iff.mp h
    obtain ⟨q, hq, rfl⟩ := map_eq_some_iff.mp h
    exact ((ih hr).trans (txSteps_revertEntry hq)).tail .of_same

theorem txSteps_revertToSnapshot {revid : Nat} (h : s.revertToSnapshot revid = some t) :
    TxSteps s t := by
  obtain ⟨idx, r, q, -, -, hq, rfl⟩ := revertToSnapshot_some h
  have hdelta : TxStep s { s with unexpectedBalanceDelta := r.unexpectedBalanceDelta } :=
    .of_same
  exact ((Relation.ReflTransGen.single hdelta).trans (txSteps_undoAll hq)).tail .of_same

/-! ### The trie writes of `IntermediateRoot` -/

/-- The storage part of the trie writes changes live objects only. -/
theorem updateObjectRoot_cases {ord : MapOrders} {m : Mutation}
    (h : s.updateObjectRoot ord (addr, m) = some t) :
    (m ≠ ⟨.update, false⟩ ∧ t = s) ∨
      (m = ⟨.update, false⟩ ∧ ∃ obj err, s.stateObjects.lookup addr = some obj ∧
        t = (s.setStateObject addr
          (obj.updateRoot (ord.slot addr) s.db s.originalRoot addr).1).setError err) := by
  obtain ⟨typ, applied⟩ := m
  unfold updateObjectRoot at h
  simp only at h
  split at h
  · rename_i hskip
    cases h
    refine .inl ⟨fun hm => ?_, rfl⟩
    cases hm
    simp at hskip
  · have hm : applied = false ∧ typ = .update := by
      cases typ <;> cases applied <;> simp_all
    obtain ⟨rfl, rfl⟩ := hm
    split at h
    · cases h
    · rename_i obj hlive
      cases h
      exact .inr ⟨rfl, obj, _, hlive, rfl⟩

variable {tr : Trie StateAccount}

/-- The account part, for an open account trie. -/
theorem applyMutation_cases {deleted : List Address} {m : Mutation} {st : StateDB × List Address}
    (htrie : s.trie = some tr) (htr : tr.committed = false)
    (h : applyMutation (s, deleted) (addr, m) = some st) :
    (m.applied = true ∧ st = (s, deleted)) ∨
      (m = ⟨.deletion, false⟩ ∧
        st = ({ s with mutations := s.mutations.insert addr ⟨.deletion, true⟩ },
          deleted ++ [addr])) ∨
      (m = ⟨.update, false⟩ ∧ ∃ obj, s.stateObjects.lookup addr = some obj ∧
        st = ({ s with
          mutations := s.mutations.insert addr ⟨.update, true⟩
          trie := some { tr with content := tr.content.insert (addrHash addr) obj.data } },
          deleted)) := by
  obtain ⟨typ, applied⟩ := m
  unfold applyMutation at h
  cases applied with
  | true =>
    cases h
    exact .inl ⟨rfl, rfl⟩
  | false =>
    cases typ with
    | deletion =>
      cases h
      exact .inr (.inl ⟨rfl, rfl⟩)
    | update =>
      simp only [Bool.false_eq_true, if_false] at h
      split at h
      · cases h
      rename_i obj hlive
      have hupdate : tr.update (addrHash addr) obj.data =
          .ok { tr with content := tr.content.insert (addrHash addr) obj.data } :=
        if_neg (by simpa using htr)
      simp only [updateStateObject, htrie, hupdate] at h
      cases h
      exact .inr (.inr ⟨rfl, obj, hlive, rfl⟩)

/-- Deleting accounts from an open account trie. -/
theorem foldlM_deleteStateObject (addrs : List Address) (htrie : s.trie = some tr)
    (htr : tr.committed = false) :
    ∃ tr', addrs.foldlM deleteStateObject s = some { s with trie := some tr' } ∧
      addrs.foldlM (fun tr a => tr.delete (addrHash a)) tr = .ok tr' := by
  induction addrs generalizing s tr with
  | nil => exact ⟨tr, by rw [← htrie]; rfl, rfl⟩
  | cons addr addrs ih =>
    have hdelete : tr.delete (addrHash addr) =
        .ok { tr with content := tr.content.erase (addrHash addr) } := if_neg (by simpa using htr)
    let erased : Trie StateAccount := { tr with content := tr.content.erase (addrHash addr) }
    obtain ⟨tr', hs, htr'⟩ := @ih { s with trie := some erased } erased rfl htr
    refine ⟨tr', ?_, ?_⟩
    · rw [List.foldlM_cons]
      simp only [deleteStateObject, htrie, hdelete]
      exact hs
    · rw [List.foldlM_cons, hdelete]
      exact htr'

/-- The loop over the storage tries, account by account. -/
theorem held_updateObjectRoots {ord : MapOrders}
    (h : (range ord.account s.mutations).foldlM (updateObjectRoot ord) s = some t) :
    SameBlock s t ∧ ∀ a, t.held a =
      if (s.held a).mutation = some ⟨.update, false⟩ then
        { s.held a with object := (s.held a).object.map fun obj =>
            (obj.updateRoot (ord.slot a) s.db s.originalRoot a).1 }
      else s.held a := by
  obtain ⟨hblock, hout, hin⟩ := foldlM_range (SameBlock s) ord.account s.mutations held
    (updateObjectRoot ord)
    (fun a m before after => after =
      if m = ⟨.update, false⟩ then
        { before with object := before.object.map fun obj =>
            (obj.updateRoot (ord.slot a) s.db s.originalRoot a).1 }
      else before)
    (by
      intro r r' a m _ hr hbody
      rcases updateObjectRoot_cases hbody with ⟨hm, rfl⟩ | ⟨hm, obj, err, hlive, rfl⟩
      · exact ⟨hr, by rw [if_neg hm], fun _ _ => rfl⟩
      · refine ⟨hr.trans (by constructor <;> rfl), ?_, fun b hb => ?_⟩
        · rw [if_pos hm]
          simp [held, setStateObject, setError, hlive, hr.db, hr.originalRoot]
        · simp [held, setStateObject, setError, lookup_insert_of_ne _ hb])
    (SameBlock.refl s) h
  refine ⟨hblock, fun a => ?_⟩
  cases hm : s.mutations.lookup a with
  | none =>
    rw [if_neg (by simp [held, hm])]
    exact hout a hm
  | some m =>
    refine Eq.trans (hin a m hm) ?_
    simp [held, hm]

/-- The loop over the account trie: deletions are scheduled, updates written. -/
theorem applyMutations_spec (hinj : Set.InjOn addrHash {a | a ∈ s.mutations})
    {ord : RangeOrder Address} {deleted : List Address} (htrie : s.trie = some tr)
    (htr : tr.committed = false)
    (h : (range ord s.mutations).foldlM applyMutation (s, []) = some (t, deleted)) :
    ∃ tr' mutations, t = { s with trie := some tr', mutations := mutations } ∧
      tr'.committed = false ∧
      (∀ a, mutations.lookup a = (s.mutations.lookup a).map fun m => { m with applied := true }) ∧
      (∀ a, a ∈ deleted ↔ s.mutations.lookup a = some ⟨.deletion, false⟩) ∧
      (∀ a, s.mutations.lookup a = some ⟨.update, false⟩ → ∃ obj,
        s.stateObjects.lookup a = some obj ∧ tr'.content.lookup (addrHash a) = some obj.data) ∧
      ∀ k, (∀ a, s.mutations.lookup a = some ⟨.update, false⟩ → addrHash a ≠ k) →
        tr'.content.lookup k = tr.content.lookup k := by
  obtain ⟨⟨tr', mutations, rfl, htr', hother⟩, hout, hin⟩ := foldlM_range
    (fun st : StateDB × List Address => ∃ tr' mutations,
      st.1 = { s with trie := some tr', mutations := mutations } ∧ tr'.committed = false ∧
      ∀ k, (∀ a, s.mutations.lookup a = some ⟨.update, false⟩ → addrHash a ≠ k) →
        tr'.content.lookup k = tr.content.lookup k) ord s.mutations
    (fun st a => (st.1.mutations.lookup a, if a ∈ s.mutations then
      st.1.trie.bind fun tr => tr.content.lookup (addrHash a) else none, a ∈ st.2))
    applyMutation
    (fun a m before after =>
      (before.1 = some m → after.1 = some { m with applied := true }) ∧
      (after.2.2 ↔ before.2.2 ∨ m = ⟨.deletion, false⟩) ∧
      (m = ⟨.update, false⟩ → ∃ obj, s.stateObjects.lookup a = some obj ∧
        after.2.1 = some obj.data))
    (by
      rintro ⟨r, ds⟩ st a m hm ⟨trr, mr, rfl, htrr, hother⟩ hbody
      rcases applyMutation_cases rfl htrr hbody with ⟨happlied, rfl⟩ | ⟨rfl, rfl⟩ |
        ⟨rfl, obj, hlive, rfl⟩
      · refine ⟨⟨trr, mr, rfl, htrr, hother⟩, ⟨fun hb => ?_, ?_, fun hu => ?_⟩, fun _ _ => rfl⟩
        · obtain ⟨typ, applied⟩ := m
          simp only at happlied
          rw [happlied] at hb ⊢
          exact hb
        · constructor
          · exact .inl
          · rintro (hd | rfl)
            · exact hd
            · cases happlied
        · rw [hu] at happlied
          cases happlied
      · refine ⟨⟨trr, _, rfl, htrr, hother⟩, ⟨fun _ => ?_, ?_, fun hu => ?_⟩, fun b hb => ?_⟩
        · simp
        · simp
        · cases hu
        · simp [hb]
      · refine ⟨⟨_, _, rfl, htrr, fun k hk => ?_⟩, ⟨fun _ => ?_, ?_, fun _ => ⟨obj, hlive, ?_⟩⟩,
          fun b hb => ?_⟩
        · rw [← hother k hk]
          exact lookup_insert_of_ne _ (Ne.symm (hk a hm))
        · simp
        · simp
        · simp [mem_of_lookup_eq_some hm]
        · by_cases hmem : b ∈ s.mutations
          · have hhash := hinj.ne hmem (mem_of_lookup_eq_some hm) hb
            simp [lookup_insert_of_ne _ hb, lookup_insert_of_ne _ hhash]
          · simp [lookup_insert_of_ne _ hb, hmem])
    ⟨tr, s.mutations, by rw [← htrie], htr, fun _ _ => rfl⟩ h
  refine ⟨tr', mutations, rfl, htr', fun a => ?_, fun a => ?_, fun a ha => ?_, hother⟩
  · cases hm : s.mutations.lookup a with
    | none => exact (Prod.mk.inj (hout a hm)).1.trans hm
    | some m => exact (hin a m hm).1 hm
  · cases hm : s.mutations.lookup a with
    | none =>
      have hnot := (Prod.mk.inj (Prod.mk.inj (hout a hm)).2).2
      simpa using hnot
    | some m => simpa using (hin a m hm).2.1
  · obtain ⟨obj, hlive, hdata⟩ := (hin a _ ha).2.2 rfl
    exact ⟨obj, hlive, (if_pos (mem_of_lookup_eq_some ha)).symm.trans hdata⟩

/-- **The trie writes of `IntermediateRoot`**, account by account and key by key. -/
theorem writeMutations_spec (hinj : Set.InjOn addrHash {a | a ∈ s.mutations}) {ord : MapOrders}
    (htrie : s.trie = some tr) (htr : tr.committed = false) (h : s.writeMutations ord = some t) :
    t.db = s.db ∧ t.reader = s.reader ∧ t.originalRoot = s.originalRoot ∧
      (∀ a, t.held a = (s.held a).written (ord.slot a) s.db s.originalRoot a) ∧
      ∃ tr', t.trie = some tr' ∧ tr'.committed = false ∧
        (∀ a, s.mutations.lookup a = some ⟨.deletion, false⟩ →
          tr'.content.lookup (addrHash a) = none) ∧
        (∀ a, s.mutations.lookup a = some ⟨.update, false⟩ → ∃ obj,
          t.stateObjects.lookup a = some obj ∧ tr'.content.lookup (addrHash a) = some obj.data) ∧
        ∀ k, (∀ a typ, s.mutations.lookup a = some ⟨typ, false⟩ → addrHash a ≠ k) →
          tr'.content.lookup k = tr.content.lookup k := by
  obtain ⟨s₁, h₁, h⟩ := bind_eq_some_iff.mp h
  obtain ⟨⟨s₂, deleted⟩, h₂, h₃⟩ := bind_eq_some_iff.mp h
  obtain ⟨hblock, hheld⟩ := held_updateObjectRoots h₁
  obtain ⟨tr₂, mutations, rfl, htr₂, hmut, hdeleted, hupdated, hother⟩ :=
    applyMutations_spec (hblock.mutations ▸ hinj) (hblock.trie.trans htrie) htr h₂
  obtain ⟨tr₃, hs₃, hdelete⟩ := foldlM_deleteStateObject deleted
    (s := { s₁ with trie := some tr₂, mutations := mutations }) rfl htr₂
  obtain ⟨tr₄, hdelete', htr₄, hgone, hkept⟩ := Trie.foldlM_delete addrHash deleted htr₂
  rw [hdelete] at hdelete'
  cases hdelete'
  have h₃ : deleted.foldlM deleteStateObject
      { s₁ with trie := some tr₂, mutations := mutations } = some t := h₃
  rw [hs₃] at h₃
  cases h₃
  rw [hblock.mutations] at hmut hdeleted hupdated hother
  refine ⟨hblock.db, hblock.reader, hblock.originalRoot, fun a => ?_, tr₃, rfl, htr₄,
    fun a ha => hgone a ((hdeleted a).mpr ha), fun a ha => ?_, fun k hk => ?_⟩
  · have hself := (Held.ext_iff ..).mp (hheld a)
    refine Held.ext ?_ ?_ ?_
    · refine hself.1.trans ?_
      unfold Held.written
      split <;> rfl
    · refine hself.2.1.trans ?_
      split <;> rfl
    · exact hmut a
  · obtain ⟨obj, hlive, hdata⟩ := hupdated a ha
    refine ⟨obj, hlive, ?_⟩
    rw [hkept (addrHash a) fun b hb hba => ?_]
    · exact hdata
    · have hb := (hdeleted b).mp hb
      rw [hinj (mem_of_lookup_eq_some hb) (mem_of_lookup_eq_some ha) hba, ha] at hb
      cases hb
  · rw [hkept k fun b hb => hk b .deletion ((hdeleted b).mp hb)]
    exact hother k fun b hb => hk b .update hb

/-! ### The invariant of a block -/

/-- The account trie holds the flat state `R`, but for the mutated accounts; those
    already applied are deleted or present. -/
structure AccountTrie (R : Flat StateAccount) (mutations : GoMap Address Mutation)
    (tr : Trie StateAccount) : Prop where
  writable : tr.committed = false
  untouched : ∀ k, (∀ a ∈ mutations, addrHash a ≠ k) → tr.content.lookup k = R.account k
  deleted : ∀ a, mutations.lookup a = some ⟨.deletion, true⟩ → tr.content.lookup (addrHash a) = none
  updated : ∀ a, mutations.lookup a = some ⟨.update, true⟩ →
    (tr.content.lookup (addrHash a)).isSome = true

/-- A state of a block over the flat state `R`, before the commit. -/
structure InBlock (R : Flat StateAccount) (root : Hash) (db : Database) (reader : Reader)
    (s : StateDB) : Prop where
  db : s.db = db
  reader : s.reader = reader
  root : s.originalRoot = root
  held : ∀ a, (s.held a).Tracks R a
  trie : ∀ tr, s.trie = some tr → AccountTrie R s.mutations tr
  unopened : s.trie = none → ∀ a m, s.mutations.lookup a = some m → m.applied = false

section
variable {R : Flat StateAccount} {root : Hash} {db : Database} {reader : Reader} {s t : StateDB}

theorem InBlock.new (R : Flat StateAccount) (root : Hash) (db : Database) (reader : Reader) :
    InBlock R root db reader (new root db reader) where
  db := rfl
  reader := rfl
  root := rfl
  held a :=
    { object := fun obj h => by simp [StateDB.held, StateDB.new] at h
      destruct := fun obj h => by simp [StateDB.held, StateDB.new] at h
      deleted := fun applied h => by simp [StateDB.held, StateDB.new] at h
      marked := fun _ => by simp [StateDB.held, StateDB.new] }
  trie tr h := by simp [StateDB.new] at h
  unopened _ a m h := by simp [StateDB.new] at h

theorem InBlock.txStep (hR : Serves R root db reader) (hs : InBlock R root db reader s)
    (h : TxStep s t) : InBlock R root db reader t where
  db := h.block.db.trans hs.db
  reader := h.block.reader.trans hs.reader
  root := h.block.originalRoot.trans hs.root
  held a := by
    have hobj := h.object a
    rw [hs.reader, destructed_eq] at hobj
    have hheld : t.held a = { s.held a with object := t.stateObjects.lookup a } := by
      simp [StateDB.held, h.block.destruct, h.block.mutations]
    rw [hheld]
    exact (hs.held a).objectStep hR hobj
  trie := by
    rw [h.block.trie, h.block.mutations]
    exact hs.trie
  unopened := by
    rw [h.block.trie, h.block.mutations]
    exact hs.unopened

theorem InBlock.txSteps (hR : Serves R root db reader) (hs : InBlock R root db reader s)
    (h : TxSteps s t) : InBlock R root db reader t := by
  induction h with
  | refl => exact hs
  | tail _ hlast ih => exact ih.txStep hR hlast

/-- `Finalise` leaves a mutation alone or marks it anew. -/
theorem mutation_finalise (ord : MapOrders) (del : Bool) (s : StateDB) (a : Address) :
    (s.finalise ord del).mutations.lookup a = s.mutations.lookup a ∨
      a ∈ s.stateObjects ∧
        ∃ typ, (s.finalise ord del).mutations.lookup a = some ⟨typ, false⟩ := by
  have hheld : (s.finalise ord del).mutations.lookup a = _ :=
    congrArg Held.mutation (s.held_finalise ord del a)
  rw [hheld]
  cases s.journal.dirties.lookup a with
  | none => exact .inl rfl
  | some n =>
    simp only [elim_some]
    unfold Held.finalise
    split
    · exact .inl rfl
    · rename_i obj hobj
      have hmem : a ∈ s.stateObjects := mem_of_lookup_eq_some hobj
      split
      · exact .inr ⟨hmem, .deletion, rfl⟩
      · exact .inr ⟨hmem, .update, rfl⟩

/-- `Finalise` makes no objects, and leaves the codes of those it keeps alone. -/
theorem object_finalise {ord : MapOrders} {del : Bool} (s : StateDB) {a : Address}
    {obj : StateObject} (h : (s.finalise ord del).stateObjects.lookup a = some obj) :
    ∃ obj₀, s.stateObjects.lookup a = some obj₀ ∧ obj.code = obj₀.code ∧
      obj.dirtyCode = obj₀.dirtyCode := by
  have hheld := congrArg Held.object (s.held_finalise ord del a)
  rw [show ((s.finalise ord del).held a).object = some obj from h] at hheld
  cases hn : s.journal.dirties.lookup a with
  | none =>
    rw [hn] at hheld
    exact ⟨obj, hheld.symm, rfl, rfl⟩
  | some n =>
    rw [hn] at hheld
    simp only [elim_some, Held.finalise] at hheld
    split at hheld
    · rename_i hnone
      rw [hnone] at hheld
      cases hheld
    rename_i obj₀ hobj₀
    split at hheld
    · cases hheld
    cases hheld
    have hrest := finalise_rest (ord.slot a) s.reader a (s.held a).destruct.isSome obj₀
    have hcode := congrArg StateObject.code hrest
    have hdirty := congrArg StateObject.dirtyCode hrest
    exact ⟨obj₀, hobj₀, hcode, hdirty⟩

variable (hR : Serves R root db reader)
include hR

theorem InBlock.finalise (hs : InBlock R root db reader s) (hkeys : s.KeysInjective)
    (ord : MapOrders) (del : Bool) :
    InBlock R root db reader (s.finalise ord del) ∧ (s.finalise ord del).KeysInjective := by
  have hopened := s.opened_finalise ord del
  have htrie : (s.finalise ord del).trie = s.trie := congrArg (·.2.2.2) hopened
  have hmem : ∀ a ∈ s.mutations, a ∈ (s.finalise ord del).mutations := by
    intro a ha
    rw [← lookup_isSome] at ha ⊢
    rcases s.mutation_finalise ord del a with h | ⟨-, typ, h⟩
    · rw [h]
      exact ha
    · rw [h]
      rfl
  -- a mutation that counts as applied was not touched
  have happlied : ∀ a typ, (s.finalise ord del).mutations.lookup a = some ⟨typ, true⟩ →
      s.mutations.lookup a = some ⟨typ, true⟩ := by
    intro a typ ha
    rcases s.mutation_finalise ord del a with h | ⟨-, typ', h⟩
    · exact h ▸ ha
    · rw [ha] at h
      cases h
  have hheld : ∀ a, ((s.finalise ord del).held a).Tracks R a ∧
      ((s.finalise ord del).held a).SlotsInjective := by
    intro a
    rw [held_finalise]
    cases s.journal.dirties.lookup a with
    | none => exact ⟨hs.held a, hkeys.slot a⟩
    | some n =>
      rw [hs.reader]
      exact (hs.held a).finalise hR (ord.slot a) _ (hkeys.slot a)
  refine ⟨⟨(congrArg (·.1) hopened).trans hs.db, (congrArg (·.2.1) hopened).trans hs.reader,
    (congrArg (·.2.2.1) hopened).trans hs.root, fun a => (hheld a).1, fun tr htr => ?_,
    fun hnone a m hm => ?_⟩, hkeys.addr.mono ?_, fun a => (hheld a).2⟩
  · have htr := hs.trie tr (htrie ▸ htr)
    exact ⟨htr.writable, fun k hk => htr.untouched k fun a ha => hk a (hmem a ha),
      fun a ha => htr.deleted a (happlied a _ ha), fun a ha => htr.updated a (happlied a _ ha)⟩
  · obtain ⟨typ, applied⟩ := m
    cases applied with
    | false => rfl
    | true => exact hs.unopened (htrie ▸ hnone) a _ (happlied a typ hm)
  · rintro a (ha | ha)
    · rcases s.mutation_finalise ord del a with h | ⟨hlive, -⟩
      · exact .inl (lookup_isSome.mp (h ▸ lookup_isSome.mpr ha))
      · exact .inr hlive
    · obtain ⟨obj, hobj⟩ := mem_iff.mp ha
      obtain ⟨obj₀, hobj₀, -⟩ := s.object_finalise hobj
      exact .inr (mem_of_lookup_eq_some hobj₀)

/-- Over a faithful reader `Finalise` meets no error. -/
theorem InBlock.dbErr_finalise (hs : InBlock R root db reader s) (ord : MapOrders) (del : Bool) :
    (s.finalise ord del).dbErr = s.dbErr := by
  have hobject : ∀ (ord : RangeOrder Hash) a d (obj : StateObject),
      (obj.finalise ord reader a d).2 = none := by
    intro ord a d obj
    refine foldl_preserves (fun st : StateObject × Option DBError => st.2 = none)
      (finaliseSlot reader a d) ?_ _ (obj, none) rfl
    rintro ⟨o, err⟩ ⟨key, value⟩ herr
    unfold finaliseSlot
    cases hu : o.uncommittedStorage.lookup key with
    | some origin => simp only [hu, herr]
    | none =>
      have hread : (o.getCommittedState reader a d key).2.2 = none := by
        unfold StateObject.getCommittedState
        rw [hR.storage a key]
        split
        · rfl
        · split
          · rfl
          · split <;> rfl
      simp [hu, herr, hread]
  have hloop := foldl_preserves (fun t : StateDB => t.reader = reader ∧ t.dbErr = s.dbErr)
    (finaliseAccount ord del)
    (by
      rintro t ⟨a, n⟩ ⟨hreader, herr⟩
      refine ⟨(congrArg (·.2.1) (t.opened_finaliseAccount ord del (a, n))).trans hreader, ?_⟩
      unfold finaliseAccount
      simp only
      split
      · exact herr
      split
      · unfold recordDestruct
        split <;> exact herr
      · simp only [setError, hreader, hobject, or_none]
        exact herr)
    (range ord.account s.journal.dirties) s ⟨hs.reader, rfl⟩
  exact hloop.2

/-- The account trie after the trie writes. -/
theorem InBlock.writeMutations (hs : InBlock R root db reader s) (hkeys : s.KeysInjective)
    {ord : MapOrders} (htrie : s.trie = some tr) (h : s.writeMutations ord = some t) :
    InBlock R root db reader t ∧ t.KeysInjective ∧
      ∀ a, t.held a = (s.held a).written (ord.slot a) db root a := by
  have htr := hs.trie tr htrie
  have hinj : Set.InjOn addrHash {a | a ∈ s.mutations} := hkeys.addr.mono fun _ => .inl
  obtain ⟨hdb, hreader, hroot, hheld, tr', htrie', hopen, hdeleted, hupdated, hkept⟩ :=
    writeMutations_spec hinj htrie htr.writable h
  rw [hs.db, hs.root] at hheld
  have hmut : ∀ a, t.mutations.lookup a =
      (s.mutations.lookup a).map fun m => { m with applied := true } := fun a =>
    congrArg Held.mutation (hheld a)
  -- an account that was applied before is not written again
  have hold : ∀ a typ, t.mutations.lookup a = some ⟨typ, true⟩ →
      s.mutations.lookup a = some ⟨typ, false⟩ ∨ s.mutations.lookup a = some ⟨typ, true⟩ ∧
        tr'.content.lookup (addrHash a) = tr.content.lookup (addrHash a) := by
    intro a typ ha
    rw [hmut a] at ha
    obtain ⟨⟨typ, applied⟩, hm, heq⟩ := map_eq_some_iff.mp ha
    cases heq
    cases applied with
    | false => exact .inl hm
    | true =>
      refine .inr ⟨hm, hkept _ fun b typ' hb hba => ?_⟩
      rw [hinj (mem_of_lookup_eq_some hb) (mem_of_lookup_eq_some hm) hba, hm] at hb
      cases hb
  have hwritten := fun a => (hs.held a).written hR (ord.slot a) (hkeys.slot a)
  refine ⟨⟨hdb.trans hs.db, hreader.trans hs.reader, hroot.trans hs.root, fun a => ?_,
    fun q hq => ?_, fun hnone => ?_⟩, ⟨hkeys.addr.mono ?_, fun a => ?_⟩, hheld⟩
  · rw [hheld a]
    exact (hwritten a).1
  · rw [htrie'] at hq
    cases hq
    refine ⟨hopen, fun k hk => ?_, fun a ha => ?_, fun a ha => ?_⟩
    · have hnot : ∀ a m, s.mutations.lookup a = some m → addrHash a ≠ k := fun a m ha =>
        hk a (lookup_isSome.mp (by rw [hmut a, ha]; rfl))
      rw [hkept k fun a typ ha => hnot a _ ha]
      refine htr.untouched k fun a ha => ?_
      obtain ⟨m, hm⟩ := mem_iff.mp ha
      exact hnot a m hm
    · rcases hold a _ ha with hm | ⟨hm, hsame⟩
      · exact hdeleted a hm
      · rw [hsame]
        exact htr.deleted a hm
    · rcases hold a _ ha with hm | ⟨hm, hsame⟩
      · obtain ⟨obj, -, hdata⟩ := hupdated a hm
        rw [hdata]
        rfl
      · rw [hsame]
        exact htr.updated a hm
  · rw [htrie'] at hnone
    cases hnone
  · rintro a (ha | ha)
    · obtain ⟨m, hm⟩ := mem_iff.mp ha
      rw [hmut a] at hm
      obtain ⟨m', hm', -⟩ := map_eq_some_iff.mp hm
      exact .inl (mem_of_lookup_eq_some hm')
    · refine .inr (lookup_isSome.mp ?_)
      have hobject : t.stateObjects.lookup a = _ := congrArg Held.object (hheld a)
      rw [← lookup_isSome, hobject] at ha
      unfold Held.written at ha
      split at ha
      · exact isSome_map.symm.trans ha
      · exact ha
  · have hslots : (t.held a).SlotsInjective := hheld a ▸ (hwritten a).2.1
    exact hslots

/-- **`IntermediateRoot`** is `Finalise` followed by the trie writes. -/
theorem InBlock.intermediateRoot (hs : InBlock R root db reader s) (hkeys : s.KeysInjective)
    {ord : MapOrders} {del : Bool} {hash : Hash} (h : s.intermediateRoot ord del = some (hash, t)) :
    InBlock R root db reader t ∧ t.KeysInjective ∧
      ∀ a, t.held a = ((s.finalise ord del).held a).written (ord.slot a) db root a := by
  obtain ⟨hfin, hkeys⟩ := hs.finalise hR hkeys ord del
  unfold StateDB.intermediateRoot at h
  cases htrie : (s.finalise ord del).trie with
  | some tr =>
    simp only [htrie] at h
    obtain ⟨r, hr, h⟩ := bind_eq_some_iff.mp h
    obtain ⟨tr', -, h⟩ := bind_eq_some_iff.mp h
    cases h
    have hsame : { s.finalise ord del with trie := some tr } = s.finalise ord del := by
      rw [← htrie]
    rw [hsame] at hr
    exact hfin.writeMutations hR hkeys htrie hr
  | none =>
    obtain ⟨content, hopen, hcontent⟩ := hR.openTrie
    rw [← hfin.db, ← hfin.root] at hopen
    simp only [htrie, hopen] at h
    obtain ⟨r, hr, h⟩ := bind_eq_some_iff.mp h
    obtain ⟨tr', -, h⟩ := bind_eq_some_iff.mp h
    cases h
    -- a freshly opened trie holds the flat state, and no mutation was applied yet
    have hopened : InBlock R root db reader
        { s.finalise ord del with trie := some { content := content } } := by
      refine ⟨hfin.db, hfin.reader, hfin.root, hfin.held, fun tr htr => ?_, fun hnone => ?_⟩
      · cases htr
        have hnot : ∀ a typ, (s.finalise ord del).mutations.lookup a ≠ some ⟨typ, true⟩ :=
          fun a typ ha => by cases hfin.unopened htrie a _ ha
        exact ⟨rfl, fun k _ => hcontent k, fun a ha => absurd ha (hnot a _),
          fun a ha => absurd ha (hnot a _)⟩
      · cases hnone
    exact hopened.writeMutations hR ⟨hkeys.addr, hkeys.slot⟩ rfl hr

omit hR

/-- The operations a block is made of, before its commit: any but the debugging aid
    `SetStorage`, with `CreateAccount` used on addresses without an account, and the end of a
    transaction where no two keys written so far collide. -/
def BlockOp (s : StateDB) : Op → Prop
  | .setStorage _ _ _ | .commit _ _ _ _ _ => False
  | .createAccount addr => (s.exist addr).1 = false
  | .finalise _ _ | .intermediateRoot _ _ | .stateDiff _ _ => s.KeysInjective
  | _ => True

theorem InBlock.step (hR : Serves R root db reader) {op : Op} (hs : InBlock R root db reader s)
    (hop : s.BlockOp op) (h : step op s = some t) : InBlock R root db reader t := by
  by_cases hin : s.InTx op
  · exact hs.txSteps hR (Tx.txSteps (tx_of_step hin h))
  cases op with
  | getLogs hash blockNumber blockHash blockTime =>
    cases h
    unfold getLogs
    split
    · exact hs
    · exact hs.txStep hR .of_same
  | setCode addr code =>
    cases h
    exact hs.txSteps hR (s.txSteps_setCode addr code)
  | createContract addr => exact hs.txSteps hR (Tx.txSteps (tx_createContract h))
  | revertToSnapshot revid => exact hs.txSteps hR (txSteps_revertToSnapshot h)
  | recordCacheWasm | recordEvictWasm | snapshot | setTxContext =>
    cases h
    exact hs.txStep hR .of_same
  | filterTx on =>
    cases h
    exact { hs with }
  | prepare isEIP2929 isEIP4762 isShanghai sender coinbase dst precompiles list =>
    simp only [StateDB.step, prepare] at h
    split at h
    · cases h
    split at h
    · obtain ⟨al, -, rfl⟩ := map_eq_some_iff.mp h
      exact hs.txStep hR .of_same
    · cases h
      exact hs.txStep hR .of_same
  | finalise ord del =>
    cases h
    exact (hs.finalise hR hop ord del).1
  | intermediateRoot ord del =>
    obtain ⟨⟨hash, r⟩, hr, rfl⟩ := map_eq_some_iff.mp h
    exact (hs.intermediateRoot hR hop hr).1
  | stateDiff ord del =>
    obtain ⟨⟨diff, r⟩, hr, rfl⟩ := map_eq_some_iff.mp h
    simp only [stateDiff] at hr
    split at hr
    · cases hr
      exact (hs.finalise hR hop ord del).1
    · obtain ⟨d, -, hd⟩ := map_eq_some_iff.mp hr
      cases hd
      exact (hs.finalise hR hop ord del).1
  | setStorage | commit => exact hop.elim
  | createAccount addr => exact absurd hop hin
  | _ => exact absurd trivial hin

/-- **Every state of a block** is tied to the flat state it was opened at. -/
theorem Run.inBlock (hR : Serves R root db reader) {ops : List Op}
    (h : Run BlockOp (new root db reader) ops s) : InBlock R root db reader s :=
  h.invariant (fun _ _ _ hs hop hst => hs.step hR hop hst) (InBlock.new R root db reader)

end

end StateDB

end GethArb
