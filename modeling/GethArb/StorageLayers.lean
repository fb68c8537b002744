/-
  **The four storage layers of an object as one map.**  `dirtyStorage`,
  `pendingStorage`, `uncommittedStorage` and `originStorage` implement two maps:
  the current value of every slot and its value as of the last `finalise`
  (`Slots`).  Any sequence of `SetState`, `GetState`, `GetCommittedState`,
  `finalise` and `updateTrie` calls keeps the object and the two maps together.

  Here the trie calls of `updateTrie` may fail on an unreadable node.  A call that
  fails after it has written some slots leaves them in the trie, and keeps
  `uncommittedStorage` as it was; a slot that then returns to the value it had
  before is dropped from `uncommittedStorage` although the trie holds the other one.
  Reads and the report of `commitStorage` do not look at the trie, and stay right.
-/
import GethArb.CommitUpdate

namespace GethArb

open List Trie GoMap Finmap

variable {deterministic : Bool} {missing : Trie Hash → Hash → Bool} (reader : Reader)

namespace StateObject

variable [Crypto]

section
variable {R : Flat StateAccount} {root : Hash} {db : Database} {reader : Reader} {a : Address}
  {d : Bool} {m : Option Mutation} {obj obj' : StateObject} {tr : Trie Hash}

/-- A failed `updateTrie` changes at most the trie. -/
theorem Tracks.updateTrieFaulty_error (hR : Serves R root db reader) (h : obj.Tracks R a d m)
    {ord : RangeOrder Hash} {err : DBError}
    (herr : obj.updateTrieFaulty missing deterministic ord db root a = (obj', .error err)) :
    ∃ tr, obj' = { obj with trie := some tr } ∧ tr.committed = false := by
  unfold StateObject.updateTrieFaulty at herr
  split at herr
  · cases herr
  obtain ⟨tr, hget, hopen, -⟩ := h.getTrie hR
  rw [hget] at herr
  simp only at herr
  have hcommitted := committed_writeAll missing tr (obj.slotWrites deterministic ord)
  rcases hall : writeAll missing tr (obj.slotWrites deterministic ord) with ⟨tr', _ | cause⟩
  · rw [hall] at herr
    cases herr
  · rw [hall] at herr hcommitted
    cases herr
    exact ⟨tr', rfl, hcommitted.trans hopen⟩

/-- An object whose trie has the same contents. -/
theorem Tracks.setTrie (h : obj.Tracks R a d m)
    (hstored : { obj with trie := some tr }.stored R a d = obj.stored R a d)
    (hopen : tr.committed = false) : { obj with trie := some tr }.Tracks R a d m := by
  refine { h with
    uncommitted := hstored ▸ h.uncommitted, written := hstored ▸ h.written
    foreign := hstored ▸ h.foreign, root := fun hnone => ?_, writable := fun q hq => ?_ }
  · cases hnone
  · cases hq
    exact hopen

end

/-! ### Sequences of calls -/

omit [Crypto] in
/-- `SetState`, without the journal entry. -/
def writeState (reader : Reader) (addr : Address) (destructed : Bool) (obj : StateObject)
    (key value : Hash) : StateObject :=
  let (prev, origin, obj, _) := obj.getState reader addr destructed key
  if prev = value then obj else obj.setState key value origin

/-- The calls on an object. -/
inductive LayerOp where
  | setState (key value : Hash)
  | getState (key : Hash)
  | getCommittedState (key : Hash)
  | finalise (ord : RangeOrder Hash)
  | updateTrie (missing : Trie Hash → Hash → Bool) (deterministic : Bool) (ord : RangeOrder Hash)

/-- The database an object works over, its address, and whether that was destructed in
    this block. -/
structure Backing where
  db : Database
  reader : Reader
  originalRoot : Hash
  addr : Address
  destructed : Bool

def layerStep (b : Backing) (obj : StateObject) : LayerOp → StateObject
  | .setState key value => obj.writeState b.reader b.addr b.destructed key value
  | .getState key => (obj.getState b.reader b.addr b.destructed key).2.2.1
  | .getCommittedState key => (obj.getCommittedState b.reader b.addr b.destructed key).2.1
  | .finalise ord => (obj.finalise ord b.reader b.addr b.destructed).1
  | .updateTrie missing deterministic ord =>
    (obj.updateTrieFaulty missing deterministic ord b.db b.originalRoot b.addr).1

def layerRun (b : Backing) (obj : StateObject) (ops : List LayerOp) : StateObject :=
  ops.foldl (layerStep b) obj

/-- The two maps the layers stand for: the current values and those as of the last
    `finalise`. -/
structure Slots where
  current : Hash → Hash
  committed : Hash → Hash

omit [Crypto] in
def Slots.step (slots : Slots) : LayerOp → Slots
  | .setState key value => { slots with current := Function.update slots.current key value }
  | .finalise _ => { slots with committed := slots.current }
  | _ => slots

omit [Crypto] in
/-- Both maps after a sequence of calls on an object whose trie held `base`. -/
def Slots.run (base : Hash → Hash) (ops : List LayerOp) : Slots :=
  ops.foldl Slots.step ⟨base, base⟩

/-- The value of a slot in the storage trie the object was opened at. -/
def original (R : Flat StateAccount) (b : Backing) (key : Hash) : Hash :=
  (R.baseStorage b.addr b.destructed (slotHash key)).getD 0

/-- The call, if it fails, has left the contents of the trie alone. -/
def Atomic (R : Flat StateAccount) (b : Backing) (obj : StateObject) : LayerOp → Prop
  | .updateTrie missing deterministic ord =>
    ∀ err, (obj.updateTrieFaulty missing deterministic ord b.db b.originalRoot b.addr).2 =
      .error err → ((obj.updateTrieFaulty missing deterministic ord b.db b.originalRoot
        b.addr).1.stored R b.addr b.destructed = obj.stored R b.addr b.destructed)
  | _ => True

theorem atomic_updateTrie {R : Flat StateAccount} {b : Backing} {obj : StateObject}
    {ord : RangeOrder Hash}
    (h : (obj.updateTrieFaulty missing deterministic ord b.db b.originalRoot
      b.addr).2.toOption.isSome = true) :
    obj.Atomic R b (.updateTrie missing deterministic ord) := by
  intro err herr
  rw [herr] at h
  cases h

/-- No `updateTrie` of the sequence fails after it has written a slot. -/
def AtomicRun (R : Flat StateAccount) (b : Backing) : StateObject → List LayerOp → Prop
  | _, [] => True
  | obj, op :: ops => obj.Atomic R b op ∧ AtomicRun R b (layerStep b obj op) ops

omit [Crypto] in
/-- The slots that a sequence of calls writes. -/
def written (ops : List LayerOp) : Set Hash := {key | ∃ value, .setState key value ∈ ops}

/-- The object implements the two maps, and has written slots of `K` only. -/
structure Layered (R : Flat StateAccount) (b : Backing) (K : Set Hash) (obj : StateObject)
    (slots : Slots) : Prop where
  within : obj.writtenSlots ⊆ K
  tracks : obj.Tracks R b.addr b.destructed (some ⟨.update, false⟩)
  committed : obj.committed b.reader b.addr b.destructed = slots.committed
  current : obj.current b.reader b.addr b.destructed = slots.current

section
variable {R : Flat StateAccount} {b : Backing} {K : Set Hash} {obj : StateObject} {slots : Slots}

omit [Crypto] in
theorem getState_fst (addr : Address) (destructed : Bool) (obj : StateObject) (key : Hash) :
    (obj.getState reader addr destructed key).1 = obj.current reader addr destructed key := by
  have hread := (obj.getCommittedState_cases reader addr destructed key)
  have hdirty : (obj.getCommittedState reader addr destructed key).2.1.dirtyStorage =
      obj.dirtyStorage := by
    rcases hread.2 with h | ⟨-, -, h⟩ <;> rw [h]
  unfold getState current
  simp only [hdirty]
  cases obj.dirtyStorage.lookup key with
  | some value => rfl
  | none => exact hread.1

omit [Crypto] in
theorem getState_snd (addr : Address) (destructed : Bool) (obj : StateObject) (key : Hash) :
    (obj.getState reader addr destructed key).2.1 =
        (obj.getCommittedState reader addr destructed key).1 ∧
      (obj.getState reader addr destructed key).2.2.1 =
        (obj.getCommittedState reader addr destructed key).2.1 := by
  unfold getState
  simp only
  split
  · exact ⟨rfl, rfl⟩
  · exact ⟨rfl, rfl⟩

theorem Layered.read (hR : Serves R b.originalRoot b.db b.reader) (h : Layered R b K obj slots)
    (key : Hash) :
    Layered R b K (obj.getCommittedState b.reader b.addr b.destructed key).2.1 slots := by
  have hview := obj.view_getCommittedState b.reader b.addr b.destructed key
  have hwithin : (obj.getCommittedState b.reader b.addr b.destructed key).2.1.writtenSlots =
      obj.writtenSlots := by
    rcases (obj.getCommittedState_cases b.reader b.addr b.destructed key).2 with h | ⟨-, -, h⟩
    · rw [h]
    · rw [h]
      rfl
  exact ⟨hwithin ▸ h.within,
    (touched_getCommittedState b.reader b.addr b.destructed obj key).tracks hR h.tracks,
    (congrArg AccountView.committed hview).trans h.committed,
    (congrArg AccountView.current hview).trans h.current⟩

omit [Crypto] in
/-- `setState` drops the dirty entry when the slot returns to its committed value. -/
theorem current_setState (addr : Address) (destructed : Bool) (obj : StateObject)
    (key value : Hash) :
    (obj.setState key value (obj.committed reader addr destructed key)).current reader addr
      destructed = Function.update (obj.current reader addr destructed) key value := by
  funext j
  unfold setState
  by_cases hj : j = key
  · subst hj
    split
    · rename_i hvalue
      simp [current, committed, hvalue]
    · simp [current]
  · split
    · simp [current, committed, hj]
    · simp [current, committed, hj]

variable (hR : Serves R b.originalRoot b.db b.reader)
include hR

theorem Layered.setState (h : Layered R b K obj slots) {key : Hash} (hkey : key ∈ K)
    (value : Hash) :
    Layered R b K (obj.writeState b.reader b.addr b.destructed key value)
      { slots with current := Function.update slots.current key value } := by
  have hread := h.read hR key
  have hprev := getState_fst b.reader b.addr b.destructed obj key
  obtain ⟨horigin, hobj⟩ := getState_snd b.reader b.addr b.destructed obj key
  rw [(obj.getCommittedState_cases b.reader b.addr b.destructed key).1, h.committed] at horigin
  unfold writeState
  simp only [hprev, hobj, horigin]
  split
  · -- the slot has this value already
    rename_i heq
    rw [h.current] at heq
    exact ⟨hread.within, hread.tracks, hread.committed, hread.current.trans
      (Function.update_eq_self_iff.mpr heq.symm).symm⟩
  · refine ⟨?_, (touched_setState b.reader b.addr b.destructed ..).tracks hR hread.tracks, ?_, ?_⟩
    · rintro k (hk | hk)
      · refine hread.within (.inl ?_)
        unfold StateObject.setState at hk
        split at hk <;> exact hk
      · by_cases heq : k = key
        · exact heq ▸ hkey
        refine hread.within (.inr ?_)
        unfold StateObject.setState at hk
        split at hk
        · exact (mem_erase.mp hk).2
        · exact (mem_insert.mp hk).resolve_left heq
    · refine Eq.trans ?_ hread.committed
      unfold StateObject.setState
      split <;> rfl
    · have hcommitted := congrFun hread.committed key
      rw [← hcommitted, current_setState, hread.current]

variable (hinj : Set.InjOn slotHash K)
include hinj

theorem Layered.finalise (h : Layered R b K obj slots) (ord : RangeOrder Hash) :
    Layered R b K (obj.finalise ord b.reader b.addr b.destructed).1
      { slots with committed := slots.current } := by
  have hcommitted : (obj.finalise ord b.reader b.addr b.destructed).1.committed b.reader b.addr
      b.destructed = obj.current b.reader b.addr b.destructed := by
    funext key
    have hlayers := StateDB.slotLayers_finalise ord b.reader b.addr b.destructed obj key
    unfold StateObject.current
    cases hdirty : obj.dirtyStorage.lookup key with
    | none =>
      rw [hdirty] at hlayers
      obtain ⟨-, hrest⟩ := Prod.mk.inj hlayers
      obtain ⟨hpending, hread⟩ := Prod.mk.inj hrest
      simp [StateObject.committed, hpending, hread]
    | some value =>
      rw [hdirty] at hlayers
      have hpending : (obj.finalise ord b.reader b.addr b.destructed).1.pendingStorage.lookup key =
          some value := by
        refine (congrArg (fun layers => layers.2.1) hlayers).trans ?_
        unfold StateDB.finalisedSlot
        split <;> rfl
      simp [StateObject.committed, hpending]
  obtain ⟨htracks, hsub⟩ := h.tracks.finalise hR ord (hinj.mono h.within)
  refine ⟨hsub.trans h.within, htracks, hcommitted.trans h.current, ?_⟩
  refine Eq.trans ?_ (hcommitted.trans h.current)
  funext key
  simp [StateObject.current, StateObject.finalise]

/-- A call that succeeds leaves no slot waiting. -/
theorem Layered.updateTrie_ok {obj' : StateObject} (h : Layered R b K obj slots)
    {ord : RangeOrder Hash} {trie : Option (Trie Hash)}
    (hok : obj.updateTrieFaulty missing deterministic ord b.db b.originalRoot b.addr =
      (obj', .ok trie)) :
    Layered R b K obj' slots ∧ obj'.uncommittedStorage = ∅ ∧ obj'.trie = trie := by
  obtain ⟨rfl, hslots, hforeign, hopen, htrie⟩ :=
    h.tracks.updateTrieFaulty hR (hinj.mono fun _ hk => h.within (.inl hk)) hok
  exact ⟨⟨h.within, h.tracks.flushed hslots hforeign (fun hnone => h.tracks.root (htrie hnone))
    hopen fun _ => ⟨false, rfl⟩, h.committed, h.current⟩, rfl, rfl⟩

/-- With no slot waiting the trie holds the finalised values over the original contents. -/
theorem Layered.stored_eq (h : Layered R b K obj slots) (hempty : obj.uncommittedStorage = ∅) :
    (∀ key ∈ K, obj.stored R b.addr b.destructed (slotHash key) =
        encode (slots.committed key)) ∧
      ∀ k, (∀ key ∈ K, slotHash key ≠ k) →
        obj.stored R b.addr b.destructed k = R.baseStorage b.addr b.destructed k := by
  refine ⟨fun key hkey => ?_, fun k hk => h.tracks.foreign k fun key hkey =>
    hk key (h.within (.inl hkey))⟩
  rw [← h.committed, h.tracks.committed_eq hR key]
  exact h.tracks.stored_eq hR (by rw [hempty]; exact notMem_empty)
    fun k hk => hinj (h.within (.inl hk)) hkey

theorem Layered.updateTrie (h : Layered R b K obj slots) (missing : Trie Hash → Hash → Bool)
    (deterministic : Bool) (ord : RangeOrder Hash)
    (hatomic : obj.Atomic R b (.updateTrie missing deterministic ord)) :
    Layered R b K (layerStep b obj (.updateTrie missing deterministic ord)) slots := by
  rw [layerStep]
  rcases hres : obj.updateTrieFaulty missing deterministic ord b.db b.originalRoot b.addr with
    ⟨obj', err | trie⟩
  · have hstored := hatomic err (congrArg Prod.snd hres)
    obtain ⟨tr, rfl, hopen⟩ := h.tracks.updateTrieFaulty_error hR hres
    rw [hres] at hstored
    exact ⟨h.within, h.tracks.setTrie hstored hopen, h.committed, h.current⟩
  · exact (h.updateTrie_ok hR hinj hres).1

/-- **One call** keeps the object and the two maps together. -/
theorem Layered.step (h : Layered R b K obj slots) (op : LayerOp) (hK : written [op] ⊆ K)
    (hatomic : obj.Atomic R b op) :
    Layered R b K (layerStep b obj op) (slots.step op) := by
  cases op with
  | setState key value => exact h.setState hR (hK ⟨value, mem_cons_self⟩) value
  | getState key =>
    rw [layerStep, (getState_snd b.reader b.addr b.destructed obj key).2]
    exact h.read hR key
  | getCommittedState key => exact h.read hR key
  | finalise ord => exact h.finalise hR hinj ord
  | updateTrie missing deterministic ord =>
    exact h.updateTrie hR hinj missing deterministic ord hatomic

omit [Crypto] hR hinj in
theorem written_cons {op : LayerOp} {ops : List LayerOp} (hK : written (op :: ops) ⊆ K) :
    written [op] ⊆ K ∧ written ops ⊆ K := by
  refine ⟨fun key hkey => hK ?_, fun key hkey => hK ?_⟩ <;> obtain ⟨value, hmem⟩ := hkey
  · exact ⟨value, mem_cons.mpr (.inl (mem_singleton.mp hmem))⟩
  · exact ⟨value, mem_cons_of_mem _ hmem⟩

theorem Layered.run (ops : List LayerOp) (h : Layered R b K obj slots) (hK : written ops ⊆ K)
    (hatomic : AtomicRun R b obj ops) :
    Layered R b K (layerRun b obj ops) (ops.foldl Slots.step slots) := by
  induction ops generalizing obj slots with
  | nil => exact h
  | cons op ops ih =>
    obtain ⟨hop, hops⟩ := written_cons hK
    exact ih (h.step hR hinj op hop hatomic.1) hops hatomic.2

omit hinj hR

/-! ### Calls that fail half way -/

omit [Crypto] in
/-- Reads, writes and `finalise` do not look at the trie. -/
theorem getCommittedState_setTrie (t : Option (Trie Hash)) (reader : Reader) (addr : Address)
    (destructed : Bool) (obj : StateObject) (key : Hash) :
    { obj with trie := t }.getCommittedState reader addr destructed key =
      let (value, obj, err) := obj.getCommittedState reader addr destructed key
      (value, { obj with trie := t }, err) := by
  simp only [getCommittedState]
  cases obj.pendingStorage.lookup key with
  | some value => rfl
  | none =>
    cases obj.originStorage.lookup key with
    | some value => rfl
    | none =>
      cases destructed with
      | true => rfl
      | false => cases reader.storage addr key <;> rfl

omit [Crypto] in
theorem getState_setTrie (t : Option (Trie Hash)) (reader : Reader) (addr : Address)
    (destructed : Bool) (obj : StateObject) (key : Hash) :
    { obj with trie := t }.getState reader addr destructed key =
      let (value, origin, obj, err) := obj.getState reader addr destructed key
      (value, origin, { obj with trie := t }, err) := by
  simp only [getState, getCommittedState_setTrie]
  split <;> simp [*]

omit [Crypto] in
theorem finalise_setTrie (t : Option (Trie Hash)) (ord : RangeOrder Hash) (reader : Reader)
    (addr : Address) (destructed : Bool) (obj : StateObject) :
    ({ obj with trie := t }.finalise ord reader addr destructed).1 =
      { (obj.finalise ord reader addr destructed).1 with trie := t } := by
  let setTrie (st : StateObject × Option DBError) := ({ st.1 with trie := t }, st.2)
  have hslot : ∀ st slot, finaliseSlot reader addr destructed (setTrie st) slot =
      setTrie (finaliseSlot reader addr destructed st slot) := by
    rintro ⟨obj, err⟩ ⟨key, value⟩
    simp only [setTrie, finaliseSlot, getCommittedState_setTrie]
    cases obj.uncommittedStorage.lookup key <;> rfl
  have hfold := @foldl_hom _ _ _ setTrie _ _ (range ord obj.dirtyStorage) (obj, none) hslot
  simp only [setTrie] at hfold
  simp only [finalise, hfold]

/-- A call that succeeds writes all that is not written yet. -/
theorem updateTrieFaulty_cases (missing : Trie Hash → Hash → Bool) (deterministic : Bool)
    (ord : RangeOrder Hash) (b : Backing) (obj : StateObject) :
    ∃ t, layerStep b obj (.updateTrie missing deterministic ord) = { obj with trie := t } ∨
      layerStep b obj (.updateTrie missing deterministic ord) =
        { obj with trie := t, uncommittedStorage := ∅ } := by
  simp only [layerStep, updateTrieFaulty]
  split
  · exact ⟨obj.trie, .inl rfl⟩
  split
  · exact ⟨obj.trie, .inl rfl⟩
  split
  · exact ⟨_, .inl rfl⟩
  · exact ⟨_, .inr rfl⟩

/-- **Any call** keeps all but the trie and the two maps together: with some other trie in place
    of its own the object implements them. -/
theorem Layered.step_any (hR : Serves R b.originalRoot b.db b.reader)
    (hinj : Set.InjOn slotHash K) {t : Option (Trie Hash)}
    (h : Layered R b K { obj with trie := t } slots) (op : LayerOp) (hK : written [op] ⊆ K) :
    ∃ t, Layered R b K { layerStep b obj op with trie := t } (slots.step op) := by
  have hstep := fun hatomic => h.step hR hinj op hK hatomic
  cases op with
  | setState key value =>
    have hwrite : layerStep b { obj with trie := t } (.setState key value) =
        { layerStep b obj (.setState key value) with trie := t } := by
      simp only [layerStep, writeState, getState_setTrie]
      split
      · rfl
      · unfold StateObject.setState
        split <;> rfl
    exact ⟨t, hwrite ▸ hstep trivial⟩
  | getState key => exact ⟨t, by simpa only [layerStep, getState_setTrie] using hstep trivial⟩
  | getCommittedState key =>
    exact ⟨t, by simpa only [layerStep, getCommittedState_setTrie] using hstep trivial⟩
  | finalise ord => exact ⟨t, by simpa only [layerStep, finalise_setTrie] using hstep trivial⟩
  | updateTrie missing deterministic ord =>
    obtain ⟨t', hsame | hall⟩ := updateTrieFaulty_cases missing deterministic ord b obj
    · rw [hsame]
      exact ⟨t, h⟩
    · obtain ⟨t'', hok⟩ := h.tracks.updateTrie hR ord
      rw [hall]
      exact ⟨t'', (h.updateTrie_ok hR hinj hok).1⟩

theorem Layered.run_any (hR : Serves R b.originalRoot b.db b.reader)
    (hinj : Set.InjOn slotHash K) (ops : List LayerOp) {t : Option (Trie Hash)}
    (h : Layered R b K { obj with trie := t } slots) (hK : written ops ⊆ K) :
    ∃ t, Layered R b K { layerRun b obj ops with trie := t } (ops.foldl Slots.step slots) := by
  induction ops generalizing obj slots t with
  | nil => exact ⟨t, h⟩
  | cons op ops ih =>
    obtain ⟨hop, hops⟩ := written_cons hK
    obtain ⟨t', hstep⟩ := h.step_any hR hinj op hop
    exact ih hstep hops

/-- The slots `commitStorage` reports. -/
theorem Layered.changed_eq (hR : Serves R b.originalRoot b.db b.reader)
    (h : Layered R b K obj slots) (key : Hash) (f : Hash → Hash → Option Hash) :
    (obj.changed key).map (fun value => f value (obj.originStorage.get key)) =
      if slots.committed key = original R b key then none
      else some (f (slots.committed key) (original R b key)) := by
  have hsettled : slots.committed key = obj.settled R b.addr b.destructed key := by
    rw [← h.tracks.committed_eq hR key, h.committed]
  rw [hsettled, changed, settled]
  cases hp : obj.pendingStorage.lookup key with
  | none => exact (if_pos rfl).symm
  | some value =>
    have horigin : obj.originStorage.get key = original R b key :=
      h.tracks.get_originStorage (mem_of_lookup_eq_some hp)
    rw [horigin]
    by_cases heq : value = original R b key
    · simp [heq]
    · simp [heq]

end

/-! ### Storage layering -/

theorem layered_newObject {R : Flat StateAccount} {b : Backing}
    (hR : Serves R b.originalRoot b.db b.reader) (acct : Option StateAccount)
    (hacct : R.baseAccount b.addr b.destructed = acct) (K : Set Hash) :
    Layered R b K (newObject acct) ⟨original R b, original R b⟩ := by
  have htracks : (newObject acct).Tracks R b.addr b.destructed (some ⟨.update, false⟩) :=
    tracks_newObject acct hacct
  have hcommitted : (newObject acct).committed b.reader b.addr b.destructed = original R b := by
    funext key
    rw [htracks.committed_eq hR key]
    rfl
  refine ⟨fun key hkey => hkey.elim (absurd · notMem_empty) (absurd · notMem_empty), htracks,
    hcommitted, hcommitted ▸ ?_⟩
  funext key
  simp [current, newObject]

end StateObject

end GethArb
