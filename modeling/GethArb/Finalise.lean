/-
  **What `Finalise` does to one account.**  The loop of `Finalise` visits the dirty
  accounts in some order, and each pass only touches what the state holds for the
  visited account: `held_finalise` describes the whole loop account by account.
-/
import GethArb.StateInv

namespace GethArb

open Finmap StateObject

/-- What a `StateDB` holds for one account: the live object, the object that was
    destructed first, and the pending mutation. -/
@[ext]
structure Held where
  object : Option StateObject
  destruct : Option StateObject
  mutation : Option Mutation

/-- What `Finalise` makes of it for a dirty account. -/
def Held.finalise (ord : RangeOrder Hash) (reader : Reader) (addr : Address)
    (deletes : StateObject → Bool)
    (held : Held) : Held :=
  match held.object with
  | none => held
  | some obj =>
    if deletes obj then ⟨none, held.destruct.or (some obj), some ⟨.deletion, false⟩⟩
    else
      ⟨some (obj.finalise ord reader addr held.destruct.isSome).1, held.destruct,
        some ⟨.update, false⟩⟩

variable (reader : Reader) (ord : MapOrders) (del : Bool)

namespace StateDB

def held (s : StateDB) (addr : Address) : Held :=
  ⟨s.stateObjects.lookup addr, s.stateObjectsDestruct.lookup addr, s.mutations.lookup addr⟩

theorem destructed_eq (s : StateDB) (addr : Address) :
    s.destructed addr = (s.stateObjectsDestruct.lookup addr).isSome := by
  rw [destructed, Bool.eq_iff_iff, decide_eq_true_iff, lookup_isSome]

theorem held_recordDestruct (s : StateDB) (addr a : Address) (obj : StateObject) :
    (s.recordDestruct addr obj).held a =
      if a = addr then { s.held a with destruct := (s.held a).destruct.or (some obj) }
      else s.held a := by
  unfold recordDestruct
  by_cases ha : a = addr
  · subst ha
    rw [destructed_eq]
    cases hdes : s.stateObjectsDestruct.lookup a <;> simp [held, hdes]
  · split
    · rfl
    · simp [held, ha]

variable [Crypto]

/-- One pass of the loop, seen from the visited account. -/
theorem held_finaliseAccount_self (s : StateDB) (addr : Address) (n : Int) :
    (s.finaliseAccount ord del (addr, n)).held addr =
      (s.held addr).finalise (ord.slot addr) s.reader addr (s.finaliseDeletes del addr n) := by
  unfold finaliseAccount Held.finalise
  cases hobj : s.stateObjects.lookup addr with
  | none => simp [held, hobj]
  | some obj =>
    simp only [held, hobj]
    split
    · have hrec := held_recordDestruct
        ({ s with stateObjects := s.stateObjects.erase addr }.markDelete addr) addr addr obj
      refine Eq.trans hrec ?_
      simp [held, markDelete]
    · simp [setStateObject, setError, markUpdate, destructed_eq]

/-- One pass of the loop, seen from another account. -/
theorem held_finaliseAccount_of_ne (s : StateDB) (addr a : Address) (n : Int) (h : a ≠ addr) :
    (s.finaliseAccount ord del (addr, n)).held a = s.held a := by
  unfold finaliseAccount
  cases hobj : s.stateObjects.lookup addr with
  | none => simp only [hobj]
  | some obj =>
    simp only [hobj]
    split
    · have hrec := held_recordDestruct
        ({ s with stateObjects := s.stateObjects.erase addr }.markDelete addr) addr a obj
      refine Eq.trans hrec ?_
      simp [held, markDelete, h]
    · simp [held, setStateObject, setError, markUpdate, h]

omit [Crypto] in
/-- What no operation of a block changes but the trie writes and the commit. -/
def opened (s : StateDB) : Database × Reader × Hash × Option (Trie StateAccount) :=
  (s.db, s.reader, s.originalRoot, s.trie)

theorem opened_finaliseAccount (s : StateDB) (dirty : Address × Int) :
    (s.finaliseAccount ord del dirty).opened = s.opened := by
  unfold finaliseAccount
  simp only
  split
  · rfl
  · split
    · unfold recordDestruct
      split <;> rfl
    · rfl

theorem opened_finalise (s : StateDB) : (s.finalise ord del).opened = s.opened :=
  foldl_constant opened _ (opened_finaliseAccount ord del) _ s

theorem reader_finalise (s : StateDB) : (s.finalise ord del).reader = s.reader :=
  congrArg (·.2.1) (s.opened_finalise ord del)

/-- **`Finalise`, account by account.** -/
theorem held_finalise (s : StateDB) (a : Address) :
    (s.finalise ord del).held a =
      (s.journal.dirties.lookup a).elim (s.held a) fun n =>
        (s.held a).finalise (ord.slot a) s.reader a (s.finaliseDeletes del a n) := by
  have hloop := GoMap.foldl_range (fun t => t.reader = s.reader ∧ t.journal = s.journal)
    ord.account s.journal.dirties held (finaliseAccount ord del)
    (fun a n held => held.finalise (ord.slot a) s.reader a (s.finaliseDeletes del a n))
    (fun t a n _ ht => ?_) (s := s) ⟨rfl, rfl⟩
  · exact hloop.2 a
  · have hdel : t.finaliseDeletes del a n = s.finaliseDeletes del a n := by
      funext obj
      rw [finaliseDeletes, finaliseDeletes, ht.2]
    refine ⟨⟨(congrArg (·.2.1) (t.opened_finaliseAccount ord del (a, n))).trans ht.1,
      (t.sameTx_finaliseAccount ord del (a, n)).journal.trans ht.2⟩, ?_, fun b hb => ?_⟩
    · rw [held_finaliseAccount_self, ht.1, hdel]
    · exact t.held_finaliseAccount_of_ne ord del a b n hb

/-- What a state holds for an account decides which object a lookup finds. -/
theorem peek_eq_of_held {s t : StateDB} {a : Address} (hr : t.reader = s.reader)
    (h : t.held a = s.held a) : t.peek a = s.peek a := by
  obtain ⟨hobj, hdes, -⟩ := (Held.ext_iff ..).mp h
  have hdes : t.stateObjectsDestruct.lookup a = s.stateObjectsDestruct.lookup a := hdes
  have hobj : t.stateObjects.lookup a = s.stateObjects.lookup a := hobj
  rw [peek, peek, baseObject, baseObject, destructed_eq, destructed_eq, hobj, hdes, hr]

section
omit [Crypto]

/-- What a read of a slot leaves in the cache, by what was there. -/
def cachedOrigin (reader : Reader) (addr : Address) (destructed : Bool) (key : Hash)
    (pending origin : Option Hash) : Option Hash :=
  match pending, origin with
  | some _, _ | none, some _ => origin
  | none, none => if destructed then some 0 else (reader.storage addr key).toOption

theorem originStorage_getCommittedState (addr : Address) (destructed : Bool) (obj : StateObject)
    (key : Hash) :
    (obj.getCommittedState reader addr destructed key).2.1.originStorage.lookup key =
      cachedOrigin reader addr destructed key (obj.pendingStorage.lookup key)
        (obj.originStorage.lookup key) := by
  unfold StateObject.getCommittedState cachedOrigin
  cases obj.pendingStorage.lookup key with
  | some value => rfl
  | none =>
    cases ho : obj.originStorage.lookup key with
    | some value => exact ho
    | none =>
      cases destructed with
      | true => exact lookup_insert _
      | false =>
        cases reader.storage addr key with
        | error cause => exact ho
        | ok value => exact lookup_insert _

/-- What an object holds for one slot: the value in the trie if it is out of date
    there, the pending value and the one read from the database. -/
def slotLayers (obj : StateObject) (key : Hash) : Option Hash × Option Hash × Option Hash :=
  (obj.uncommittedStorage.lookup key, obj.pendingStorage.lookup key, obj.originStorage.lookup key)

/-- What `finalise` makes of it for a dirty slot. -/
def finalisedSlot (reader : Reader) (addr : Address) (destructed : Bool) (key value : Hash)
    (layers : Option Hash × Option Hash × Option Hash) :
    Option Hash × Option Hash × Option Hash :=
  match layers with
  | (some origin, _, read) => (if origin = value then none else some origin, some value, read)
  | (none, pending, read) =>
    (some ((pending.or read).getD (if destructed then 0 else
      match reader.storage addr key with
      | .ok value => value
      | .error _ => 0)), some value, cachedOrigin reader addr destructed key pending read)

theorem finaliseSlot_spec (addr : Address) (destructed : Bool) (st : StateObject × Option DBError)
    (key value : Hash) :
    slotLayers (finaliseSlot reader addr destructed st (key, value)).1 key =
        finalisedSlot reader addr destructed key value (slotLayers st.1 key) ∧
      ∀ j, j ≠ key → slotLayers (finaliseSlot reader addr destructed st (key, value)).1 j
        = slotLayers st.1 j := by
  obtain ⟨obj, err⟩ := st
  unfold finaliseSlot
  cases hu : obj.uncommittedStorage.lookup key with
  | some origin =>
    simp only [hu, slotLayers, finalisedSlot]
    refine ⟨?_, fun j hj => ?_⟩
    · split <;> simp [hu]
    · split <;> simp [lookup_insert_of_ne _ hj, lookup_erase_ne hj]
  | none =>
    obtain ⟨hvalue, hread⟩ := obj.getCommittedState_cases reader addr destructed key
    have hcached := originStorage_getCommittedState reader addr destructed obj key
    simp only [hu, slotLayers, lookup_insert, hvalue, hcached]
    refine ⟨rfl, fun j hj => ?_⟩
    rw [lookup_insert_of_ne _ hj, lookup_insert_of_ne _ hj]
    rcases hread with h | ⟨-, -, h⟩
    · rw [h]
    · rw [h, lookup_insert_of_ne _ hj]

/-- What no pass of `finalise` changes. -/
theorem finaliseSlot_rest (addr : Address) (destructed : Bool) (st : StateObject × Option DBError)
    (slot : Hash × Hash) :
    { (finaliseSlot reader addr destructed st slot).1 with
      uncommittedStorage := ∅, pendingStorage := ∅, originStorage := ∅ } =
    { st.1 with uncommittedStorage := ∅, pendingStorage := ∅, originStorage := ∅ } := by
  obtain ⟨obj, err⟩ := st
  obtain ⟨key, value⟩ := slot
  unfold finaliseSlot
  cases hu : obj.uncommittedStorage.lookup key with
  | some origin => simp only [hu]
  | none =>
    rcases (obj.getCommittedState_cases reader addr destructed key).2 with h | ⟨-, -, h⟩ <;>
      simp only [hu, h]

/-- **`finalise`, slot by slot.** -/
theorem slotLayers_finalise (ord : RangeOrder Hash) (reader : Reader) (addr : Address)
    (destructed : Bool) (obj : StateObject) (key : Hash) :
    slotLayers (obj.finalise ord reader addr destructed).1 key =
      (obj.dirtyStorage.lookup key).elim (slotLayers obj key) fun value =>
        finalisedSlot reader addr destructed key value (slotLayers obj key) :=
  (GoMap.foldl_range (fun _ : StateObject × Option DBError => True) ord obj.dirtyStorage
    (fun st => slotLayers st.1) (finaliseSlot reader addr destructed)
    (fun key value => finalisedSlot reader addr destructed key value)
    (fun st key value _ _ => ⟨trivial, finaliseSlot_spec reader addr destructed st key value⟩)
    trivial).2 key

theorem finalise_rest (ord : RangeOrder Hash) (reader : Reader) (addr : Address)
    (destructed : Bool) (obj : StateObject) :
    { (obj.finalise ord reader addr destructed).1 with
      uncommittedStorage := ∅, pendingStorage := ∅, originStorage := ∅ } =
    { obj with
      uncommittedStorage := ∅, pendingStorage := ∅, originStorage := ∅, dirtyStorage := ∅
      newContract := false } := by
  have hloop := foldl_constant (fun st : StateObject × Option DBError =>
      { st.1 with uncommittedStorage := ∅, pendingStorage := ∅, originStorage := ∅ }) _
    (finaliseSlot_rest reader addr destructed) (GoMap.range ord obj.dirtyStorage) (obj, none)
  exact congrArg (fun o : StateObject => { o with dirtyStorage := ∅, newContract := false }) hloop

theorem data_finalise (ord : RangeOrder Hash) (reader : Reader) (addr : Address) (destructed : Bool)
    (obj : StateObject) : (obj.finalise ord reader addr destructed).1.data = obj.data := by
  have hdata := congrArg data (finalise_rest ord reader addr destructed obj)
  exact hdata

/-- The order in which `finalise` visits the dirty slots does not matter. -/
theorem finalise_order (ord ord' : RangeOrder Hash) (reader : Reader) (addr : Address)
    (destructed : Bool) (obj : StateObject) :
    (obj.finalise ord reader addr destructed).1 = (obj.finalise ord' reader addr destructed).1 := by
  have hslots : ∀ key, slotLayers (obj.finalise ord reader addr destructed).1 key =
      slotLayers (obj.finalise ord' reader addr destructed).1 key := by
    intro key
    rw [slotLayers_finalise, slotLayers_finalise]
  have hrest := (finalise_rest ord reader addr destructed obj).trans
    (finalise_rest ord' reader addr destructed obj).symm
  generalize (obj.finalise ord reader addr destructed).1 = o at hslots hrest
  generalize (obj.finalise ord' reader addr destructed).1 = o' at hslots hrest
  obtain ⟨_, _, _, _, origin, _, pending, uncommitted, _, _, _⟩ := o
  obtain ⟨_, _, _, _, origin', _, pending', uncommitted', _, _, _⟩ := o'
  have h₁ : uncommitted = uncommitted' :=
    ext_lookup fun key => (Prod.mk.inj (hslots key)).1
  have h₂ : pending = pending' :=
    ext_lookup fun key => (Prod.mk.inj (Prod.mk.inj (hslots key)).2).1
  have h₃ : origin = origin' :=
    ext_lookup fun key => (Prod.mk.inj (Prod.mk.inj (hslots key)).2).2
  subst h₁ h₂ h₃
  simpa using hrest

end

theorem held_finalise_order (ord' : MapOrders) (del : Bool) (s : StateDB) (a : Address) :
    (s.finalise ord del).held a = (s.finalise ord' del).held a := by
  rw [held_finalise, held_finalise]
  cases s.journal.dirties.lookup a with
  | none => rfl
  | some n =>
    simp only [Held.finalise]
    split
    · rfl
    · rw [finalise_order (ord.slot a) (ord'.slot a)]

end StateDB

end GethArb
