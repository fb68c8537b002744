/-
  **Flat states and the objects over them.**  A flat state is what a snapshot layer
  holds: accounts by address hash, slots by address hash and slot hash.  `Serves`
  says that a reader and a database serve one faithfully.

  While a block runs over a flat state `R`, every object stays tied to it
  (`StateObject.Tracks`): its origin and the slots it has read are those of `R`,
  or empty once the account was destructed, and its storage trie is one of `R`
  with exactly the pending slots written that are not waiting in
  `uncommittedStorage`.  No use of the operations of a transaction breaks this,
  and neither do reverts and, if the hashes of the written slots differ
  (`KeysInjective`), `Finalise`.
-/
import GethArb.Finalise

namespace GethArb

open Finmap GoMap Nat BitVec

/-- Accounts by address hash and slots by address hash and slot hash. -/
@[ext]
structure Flat (α : Type) where
  account : Hash → Option α
  storage : Hash → Hash → Option Hash

/-- The slots an object has written, before this transaction or in it. -/
def StateObject.writtenSlots (obj : StateObject) : Set Hash :=
  {key | key ∈ obj.pendingStorage ∨ key ∈ obj.dirtyStorage}

section
variable [Crypto]

/-- The accounts that the block has changed or loaded so far do not collide under their hash, and
    neither do the slots that one object has written. -/
structure StateDB.KeysInjective (s : StateDB) : Prop where
  addr : Set.InjOn addrHash {a | a ∈ s.mutations ∨ a ∈ s.stateObjects}
  slot : ∀ a obj, s.stateObjects.lookup a = some obj → Set.InjOn slotHash obj.writtenSlots

omit [Crypto] in
theorem numberCrypto_injective :
    letI := numberCrypto
    Function.Injective addrHash ∧ Function.Injective slotHash := by
  have hnumber : ∀ n x y, n ≤ 32 → x < 256 ^ n → y < 256 ^ n →
      BitVec.ofNat 256 (ofBytesBE (bytesBE n x)) = BitVec.ofNat 256 (ofBytesBE (bytesBE n y)) →
      x = y := by
    intro n x y hn hx hy h
    have hpow : 256 ^ n ≤ 2 ^ 256 := (Nat.pow_le_pow_right (by decide) hn).trans (by decide)
    have h := congrArg BitVec.toNat h
    rw [toNat_ofNat, toNat_ofNat, ofBytesBE_bytesBE, ofBytesBE_bytesBE,
      mod_eq_of_lt hx, mod_eq_of_lt hy, mod_eq_of_lt (hx.trans_le hpow),
      mod_eq_of_lt (hy.trans_le hpow)] at h
    exact h
  refine ⟨fun a b h => ?_, fun a b h => ?_⟩
  · exact eq_of_toNat_eq (hnumber 20 _ _ (by decide) a.isLt b.isLt h)
  · exact eq_of_toNat_eq (hnumber 32 _ _ (by decide) a.isLt b.isLt h)

omit [Crypto] in
theorem numberCrypto_keysInjective (s : StateDB) : @StateDB.KeysInjective numberCrypto s :=
  @StateDB.KeysInjective.mk numberCrypto s numberCrypto_injective.1.injOn fun _ _ _ =>
    numberCrypto_injective.2.injOn

/-- The reader and the tries below `root` serve the flat state `R`: there are no
    errors, an absent account has no slots, and no slot is stored as zero. -/
structure Serves (R : Flat StateAccount) (root : Hash) (db : Database) (reader : Reader) :
    Prop where
  account : ∀ a, reader.account a = .ok (R.account (addrHash a))
  storage : ∀ a key, reader.storage a key = .ok ((R.storage (addrHash a) (slotHash key)).getD 0)
  openTrie : ∃ content, db.openTrie root = .ok content ∧ ∀ h, content.lookup h = R.account h
  openStorageTrie : ∀ a acct, R.account (addrHash a) = some acct →
    ∃ content, db.openStorageTrie root a acct.root = .ok content ∧
      ∀ k, content.lookup k = R.storage (addrHash a) k
  openEmptyTrie : ∀ a, db.openStorageTrie root a emptyRootHash = .ok ∅
  snapshot : ∀ snaps a acct content, db.snapshot = some snaps →
    R.account (addrHash a) = some acct → snaps root (addrHash a) = .ok content →
    db.hashStorageTrie content = acct.root → ∀ k, content.lookup k = R.storage (addrHash a) k
  orphan : ∀ h, R.account h = none → ∀ k, R.storage h k = none
  nonzero : ∀ h k, R.storage h k ≠ some 0

namespace Flat

variable (R : Flat StateAccount) (a : Address) (d : Bool)

/-- The account an object at `a` starts from; `d` tells whether the account was
    destructed in this block. -/
def baseAccount : Option StateAccount := if d then none else R.account (addrHash a)

/-- The slots it starts from, by hash. -/
def baseStorage (h : Hash) : Option Hash := if d then none else R.storage (addrHash a) h

end Flat

theorem Serves.baseStorage_eq_none {R : Flat StateAccount} {root : Hash} {db : Database}
    {reader : Reader} (hR : Serves R root db reader) {a : Address} {d : Bool}
    (h : R.baseAccount a d = none) (k : Hash) : R.baseStorage a d k = none := by
  cases d with
  | true => rfl
  | false => exact hR.orphan (addrHash a) h k

omit [Crypto] in
theorem encode_getD {v : Option Hash} (h : v ≠ some 0) : encode (v.getD 0) = v := by
  cases v with
  | none => rfl
  | some v =>
    refine if_neg fun hv => h ?_
    rw [show v = 0 from hv]

theorem Serves.encode_baseStorage {R : Flat StateAccount} {root : Hash} {db : Database}
    {reader : Reader} (hR : Serves R root db reader) (a : Address) (d : Bool) (k : Hash) :
    encode ((R.baseStorage a d k).getD 0) = R.baseStorage a d k := by
  apply encode_getD
  cases d with
  | true => simp [Flat.baseStorage]
  | false => exact hR.nonzero _ _

/-- An account without storage root has no slots. -/
theorem Serves.storage_of_emptyRoot {R : Flat StateAccount} {root : Hash} {db : Database}
    {reader : Reader} (hR : Serves R root db reader) {a : Address} {acct : StateAccount}
    (hacct : R.account (addrHash a) = some acct) (hroot : acct.root = emptyRootHash) (k : Hash) :
    R.storage (addrHash a) k = none := by
  obtain ⟨content, hopen, hcontent⟩ := hR.openStorageTrie a acct hacct
  rw [hroot, hR.openEmptyTrie a] at hopen
  cases hopen
  rw [← hcontent k]
  rfl

end

/-- A flat state with one account that has one slot, and a database that serves it,
    for concrete runs. -/
def oneSlotAccount : StateAccount :=
  letI := numberCrypto
  ⟨1, 0, 5, emptyCodeHash⟩

def oneSlot : Flat StateAccount where
  account h := if h = 7 then some oneSlotAccount else none
  storage h k := if h = 7 ∧ k = 3 then some 9 else none

def oneSlotDB : Database where
  openTrie _ := .ok (singleton 7 oneSlotAccount)
  openStorageTrie _ _ root := .ok (if root = 5 then singleton 3 9 else ∅)
  hashTrie _ := 0
  hashStorageTrie _ := 5
  snapshot := none
  wasmStore := false

def oneSlotReader : Reader where
  account a := .ok (if a = 7 then some oneSlotAccount else none)
  storage a key := .ok (if a = 7 ∧ key = 3 then 9 else 0)
  code _ _ := .ok []
  codeSize _ _ := .ok 0

theorem serves_oneSlot : @Serves numberCrypto oneSlot 1 oneSlotDB oneSlotReader := by
  let _ : Crypto := numberCrypto
  have haddr : ∀ a, addrHash a = 7 ↔ a = 7 := fun a =>
    numberCrypto_injective.1.eq_iff' (by decide)
  have hslot : ∀ key, slotHash key = 3 ↔ key = 3 := fun key =>
    numberCrypto_injective.2.eq_iff' (by decide)
  constructor
  · intro a
    simp only [oneSlotReader, oneSlot, haddr]
  · intro a key
    simp only [oneSlotReader, oneSlot, haddr, hslot]
    split <;> rfl
  · exact ⟨_, rfl, fun h => lookup_singleton_ite 7 h _⟩
  · intro a acct hacct
    have ha : a = 7 := by
      by_contra ha
      simp only [oneSlot, haddr, if_neg ha] at hacct
      cases hacct
    subst ha
    cases hacct
    refine ⟨singleton 3 9, rfl, fun k => ?_⟩
    rw [lookup_singleton_ite]
    simp only [oneSlot, haddr, true_and]
  · exact fun a => rfl
  · intro snaps a acct content hsnap
    cases hsnap
  · intro h hnone k
    have hh : h ≠ 7 := by
      rintro rfl
      cases hnone
    exact if_neg fun hk => hh hk.1
  · intro h k
    simp only [oneSlot]
    split <;> decide

/-! ### Objects over a flat state -/

namespace StateObject

variable [Crypto]

/-- The storage trie of an object by its contents, opened or not. -/
def stored (R : Flat StateAccount) (a : Address) (d : Bool) (obj : StateObject) (h : Hash) :
    Option Hash :=
  match obj.trie with
  | some tr => tr.content.lookup h
  | none => R.baseStorage a d h

/-- The value of a slot after the transactions so far. -/
def settled (R : Flat StateAccount) (a : Address) (d : Bool) (obj : StateObject) (key : Hash) :
    Hash :=
  (obj.pendingStorage.lookup key).getD ((R.baseStorage a d (slotHash key)).getD 0)

/-- The object at `a` is tied to the flat state `R`.  `d` tells whether the account
    was destructed in this block, `m` is its pending mutation. -/
structure Tracks (R : Flat StateAccount) (a : Address) (d : Bool) (m : Option Mutation)
    (obj : StateObject) : Prop where
  origin : obj.origin = R.baseAccount a d
  originStorage : ∀ key v, obj.originStorage.lookup key = some v →
    v = (R.baseStorage a d (slotHash key)).getD 0
  pending : ∀ key ∈ obj.pendingStorage, key ∈ obj.originStorage
  uncommitted : ∀ key u, obj.uncommittedStorage.lookup key = some u →
    key ∈ obj.pendingStorage ∧ obj.stored R a d (slotHash key) = encode u
  written : ∀ key value, obj.pendingStorage.lookup key = some value →
    key ∉ obj.uncommittedStorage → obj.stored R a d (slotHash key) = encode value
  foreign : ∀ h, (∀ key ∈ obj.pendingStorage, slotHash key ≠ h) →
    obj.stored R a d h = R.baseStorage a d h
  root : obj.trie = none → obj.data.root = (R.baseAccount a d).elim emptyRootHash (·.root)
  writable : ∀ tr, obj.trie = some tr → tr.committed = false
  clean : obj.pendingStorage ≠ ∅ → ∃ applied, m = some ⟨.update, applied⟩
  unapplied : obj.uncommittedStorage ≠ ∅ → m = some ⟨.update, false⟩
  code : obj.dirtyCode = true → keccak256 obj.code = obj.data.codeHash

section
variable {R : Flat StateAccount} {root : Hash} {db : Database} {reader : Reader} {a : Address}
  {d : Bool} {m : Option Mutation} {obj obj' : StateObject}

/-- A fresh object over the account it starts from. -/
theorem tracks_newObject (acct : Option StateAccount) (h : R.baseAccount a d = acct) :
    (newObject acct).Tracks R a d m where
  origin := h.symm
  originStorage key v hv := by simp [newObject] at hv
  pending key hkey := absurd hkey notMem_empty
  uncommitted key u hu := by simp [newObject] at hu
  written key value hvalue := by simp [newObject] at hvalue
  foreign _ _ := rfl
  root _ := by
    rw [h]
    cases acct <;> rfl
  writable _ htr := by simp [newObject] at htr
  clean hne := absurd rfl hne
  unapplied hne := absurd rfl hne
  code hdirty := by simp [newObject] at hdirty

/-- What the operations of a transaction do to a live object: they may cache slots
    of the database, and leave its committed storage and its trie alone. -/
structure Touched (reader : Reader) (a : Address) (d : Bool) (obj obj' : StateObject) : Prop where
  origin : obj'.origin = obj.origin
  trie : obj'.trie = obj.trie
  root : obj'.data.root = obj.data.root
  pending : obj'.pendingStorage = obj.pendingStorage
  uncommitted : obj'.uncommittedStorage = obj.uncommittedStorage
  cached : ∀ key v, obj'.originStorage.lookup key = some v →
    obj.originStorage.lookup key = some v ∨
      v = if d then 0 else (reader.storage a key).toOption.getD 0
  kept : ∀ key ∈ obj.originStorage, key ∈ obj'.originStorage
  code : (obj.dirtyCode = true → keccak256 obj.code = obj.data.codeHash) →
    obj'.dirtyCode = true → keccak256 obj'.code = obj'.data.codeHash

theorem Touched.tracks (hR : Serves R root db reader) (h : Touched reader a d obj obj')
    (hobj : obj.Tracks R a d m) : obj'.Tracks R a d m := by
  have hstored : obj'.stored R a d = obj.stored R a d := by
    funext k
    rw [stored, stored, h.trie]
  refine ⟨h.origin.trans hobj.origin, fun key v hv => ?_, fun key hkey => ?_, ?_, ?_, ?_, ?_, ?_,
    ?_, ?_, h.code hobj.code⟩
  · rcases h.cached key v hv with hold | hnew
    · exact hobj.originStorage key v hold
    · rw [hnew, hR.storage a key]
      cases d <;> rfl
  · exact h.kept key (hobj.pending key (h.pending ▸ hkey))
  · rw [h.uncommitted, h.pending, hstored]
    exact hobj.uncommitted
  · rw [h.uncommitted, h.pending, hstored]
    exact hobj.written
  · rw [h.pending, hstored]
    exact hobj.foreign
  · rw [h.trie, h.root]
    exact hobj.root
  · rw [h.trie]
    exact hobj.writable
  · rw [h.pending]
    exact hobj.clean
  · rw [h.uncommitted]
    exact hobj.unapplied

section
variable (reader : Reader)

section
variable (a : Address)

theorem touched_refl (d : Bool) (obj : StateObject) : Touched reader a d obj obj :=
  ⟨rfl, rfl, rfl, rfl, rfl, fun _ _ hv => .inl hv, fun _ h => h, fun h => h⟩

theorem touched_getCommittedState (d : Bool) (obj : StateObject) (key : Hash) :
    Touched reader a d obj (obj.getCommittedState reader a d key).2.1 := by
  unfold getCommittedState
  have hinsert : ∀ value, (value = if d then 0 else (reader.storage a key).toOption.getD 0) →
      Touched reader a d obj { obj with originStorage := obj.originStorage.insert key value } := by
    intro value hvalue
    refine ⟨rfl, rfl, rfl, rfl, rfl, fun k v hv => ?_, fun k hk => ?_, id⟩
    · by_cases hk : k = key
      · subst hk
        rw [lookup_insert] at hv
        cases hv
        exact .inr hvalue
      · rw [lookup_insert_of_ne _ hk] at hv
        exact .inl hv
    · exact mem_insert.mpr (.inr hk)
  split
  · exact touched_refl reader a d obj
  split
  · exact touched_refl reader a d obj
  split
  · rename_i hd
    exact hinsert 0 (by rw [if_pos hd])
  rename_i hd
  split
  · exact touched_refl reader a d obj
  · rename_i value hread
    exact hinsert value (by rw [if_neg hd, hread]; rfl)

/-- Loading the code leaves a dirty code alone. -/
theorem touched_getCode (d : Bool) (obj : StateObject) :
    Touched reader a d obj (obj.getCode reader a).2.1 := by
  unfold getCode
  split
  · exact touched_refl reader a d obj
  rename_i hcode
  split
  · exact touched_refl reader a d obj
  rename_i hhash
  -- a dirty code that is empty has the empty hash
  have hload : ∀ code, Touched reader a d obj { obj with code := code } := fun code =>
    ⟨rfl, rfl, rfl, rfl, rfl, fun _ _ hv => .inl hv, fun _ h => h, fun h hdirty => by
      refine absurd ?_ hhash
      rw [← h hdirty, not_not.mp hcode]
      rfl⟩
  split <;> exact hload _

theorem touched_setState (d : Bool) (obj : StateObject) (key value origin : Hash) :
    Touched reader a d obj (obj.setState key value origin) := by
  unfold setState
  split <;> exact ⟨rfl, rfl, rfl, rfl, rfl, fun _ _ hv => .inl hv, fun _ h => h, fun h => h⟩

theorem touched_setCode (d : Bool) (obj : StateObject) (code : Bytes) :
    Touched reader a d obj (obj.setCode (keccak256 code) code) :=
  ⟨rfl, rfl, rfl, rfl, rfl, fun _ _ hv => .inl hv, fun _ h => h, fun _ _ => rfl⟩

end

end

/-! #### The end of a transaction -/

theorem Tracks.markUpdate (h : obj.Tracks R a d m) : obj.Tracks R a d (some ⟨.update, false⟩) :=
  { h with clean := fun _ => ⟨false, rfl⟩, unapplied := fun _ => rfl }

/-- The committed value the getters show is the settled one. -/
theorem Tracks.committed_eq (hR : Serves R root db reader) (h : obj.Tracks R a d m) (key : Hash) :
    obj.committed reader a d key = obj.settled R a d key := by
  unfold committed settled
  cases hp : obj.pendingStorage.lookup key with
  | some v => rfl
  | none =>
    cases ho : obj.originStorage.lookup key with
    | some v => exact h.originStorage key v ho
    | none =>
      rw [hR.storage a key]
      cases d <;> rfl

theorem Tracks.get_originStorage (h : obj.Tracks R a d m) {key : Hash}
    (hkey : key ∈ obj.pendingStorage) :
    obj.originStorage.get key = (R.baseStorage a d (slotHash key)).getD 0 := by
  obtain ⟨v, hv⟩ := mem_iff.mp (h.pending key hkey)
  rw [GoMap.get, hv]
  exact h.originStorage key v hv

/-- Reading a slot leaves it cached. -/
theorem Tracks.cached (hR : Serves R root db reader) (h : obj.Tracks R a d m) (key : Hash) :
    key ∈ (obj.getCommittedState reader a d key).2.1.originStorage := by
  unfold getCommittedState
  cases hp : obj.pendingStorage.lookup key with
  | some v => exact h.pending key (mem_of_lookup_eq_some hp)
  | none =>
    cases ho : obj.originStorage.lookup key with
    | some v => exact mem_of_lookup_eq_some ho
    | none =>
      rw [hR.storage a key]
      cases d <;> exact mem_insert.mpr (.inl rfl)

/-- What the trie holds for a slot that is not waiting and has its hash for itself. -/
theorem Tracks.stored_eq (hR : Serves R root db reader) (h : obj.Tracks R a d m) {key : Hash}
    (hkey : key ∉ obj.uncommittedStorage)
    (hself : ∀ k ∈ obj.pendingStorage, slotHash k = slotHash key → k = key) :
    obj.stored R a d (slotHash key) = encode (obj.settled R a d key) := by
  unfold settled
  cases hp : obj.pendingStorage.lookup key with
  | some value => exact h.written key value hp hkey
  | none =>
    have hforeign := h.foreign (slotHash key) fun k hk heq =>
      lookup_eq_none.mp hp (hself k hk heq ▸ hk)
    exact hforeign.trans (hR.encode_baseStorage ..).symm

/-- Settling the value of one slot.  What the trie holds for it is remembered in
    `uncommittedStorage`, or is the value itself. -/
theorem Tracks.settle (h : obj.Tracks R a d (some ⟨.update, false⟩)) {key value : Hash}
    {uncommitted : Storage} (hkey : key ∈ obj.originStorage)
    (hother : ∀ k, k ≠ key → uncommitted.lookup k = obj.uncommittedStorage.lookup k)
    (hself : obj.stored R a d (slotHash key) = encode ((uncommitted.lookup key).getD value)) :
    { obj with
      uncommittedStorage := uncommitted
      pendingStorage := obj.pendingStorage.insert key value }.Tracks R a d
        (some ⟨.update, false⟩) := by
  refine ⟨h.origin, h.originStorage, fun k hk => ?_, fun k u hu => ?_, fun k v hv hk => ?_,
    fun x hx => h.foreign x fun k hk => hx k (mem_insert.mpr (.inr hk)), h.root, h.writable,
    fun _ => ⟨false, rfl⟩, fun _ => rfl, h.code⟩
  · rcases mem_insert.mp hk with rfl | hk
    · exact hkey
    · exact h.pending k hk
  · by_cases hkk : k = key
    · subst hkk
      rw [hu] at hself
      exact ⟨mem_insert.mpr (.inl rfl), hself⟩
    · obtain ⟨hpending, hstored⟩ := h.uncommitted k u (hother k hkk ▸ hu)
      exact ⟨mem_insert.mpr (.inr hpending), hstored⟩
  · have hnone : uncommitted.lookup k = none := lookup_eq_none.mpr hk
    by_cases hkk : k = key
    · subst hkk
      rw [lookup_insert] at hv
      cases hv
      rw [hnone] at hself
      exact hself
    · rw [lookup_insert_of_ne _ hkk] at hv
      exact h.written k v hv (lookup_eq_none.mp (hother k hkk ▸ hnone))

variable (hR : Serves R root db reader)
include hR

/-- One pass of `finalise`, for slots that do not collide. -/
theorem Tracks.finaliseSlot {K : Set Hash} (hK : Set.InjOn slotHash K)
    {st : StateObject × Option DBError} (h : st.1.Tracks R a d (some ⟨.update, false⟩))
    (hpending : ∀ key ∈ st.1.pendingStorage, key ∈ K) {slot : Hash × Hash} (hslot : slot.1 ∈ K) :
    (finaliseSlot reader a d st slot).1.Tracks R a d (some ⟨.update, false⟩) ∧
      ∀ key ∈ (finaliseSlot reader a d st slot).1.pendingStorage, key ∈ K := by
  obtain ⟨obj, err⟩ := st
  obtain ⟨key, value⟩ := slot
  have hinsert : ∀ k ∈ obj.pendingStorage.insert key value, k ∈ K := fun k hk =>
    (mem_insert.mp hk).elim (fun heq => heq ▸ hslot) (hpending k)
  unfold StateObject.finaliseSlot
  cases hu : obj.uncommittedStorage.lookup key with
  | some origin =>
    simp only [hu]
    obtain ⟨hkey, hstored⟩ := h.uncommitted key origin hu
    refine ⟨h.settle (h.pending key hkey) (fun k hk => ?_) ?_, hinsert⟩
    · split
      · exact lookup_erase_ne hk
      · rfl
    · refine hstored.trans ?_
      split
      · rename_i heq
        simp [heq]
      · rw [hu]
        rfl
  | none =>
    simp only [hu]
    have htouched := touched_getCommittedState reader a d obj key
    have hread := htouched.tracks hR h
    refine ⟨hread.settle (h.cached hR key) (fun k hk => ?_) ?_, ?_⟩
    · exact lookup_insert_of_ne _ hk
    · have hsame : (obj.getCommittedState reader a d key).2.1.stored R a d = obj.stored R a d := by
        funext k
        rw [stored, stored, htouched.trie]
      rw [hsame, lookup_insert, (obj.getCommittedState_cases reader a d key).1,
        h.committed_eq hR key]
      exact h.stored_eq hR (lookup_eq_none.mp hu) fun k hk => hK (hpending k hk) hslot
    · rw [htouched.pending]
      exact hinsert

theorem Tracks.finalise (ord : RangeOrder Hash) (h : obj.Tracks R a d m)
    (hinj : Set.InjOn slotHash obj.writtenSlots) :
    (obj.finalise ord reader a d).1.Tracks R a d (some ⟨.update, false⟩) ∧
      (obj.finalise ord reader a d).1.writtenSlots ⊆ obj.writtenSlots := by
  obtain ⟨hloop, hpending⟩ := List.foldlRecOn (motive := fun st : StateObject × Option DBError =>
      st.1.Tracks R a d (some ⟨.update, false⟩) ∧
        ∀ key ∈ st.1.pendingStorage, key ∈ obj.writtenSlots)
    (range ord obj.dirtyStorage) (StateObject.finaliseSlot reader a d) (b := (obj, none))
    ⟨h.markUpdate, fun _ => .inl⟩
    fun st hst slot hslot => hst.1.finaliseSlot hR hinj hst.2
      (.inr (mem_of_lookup_eq_some (mem_range.mp hslot)))
  refine ⟨{ hloop with }, ?_⟩
  rintro key (hkey | hkey)
  · exact hpending key hkey
  · exact absurd hkey notMem_empty

/-! #### Writing the storage trie -/

/-- The storage trie can be opened, and holds what the object stands for. -/
theorem Tracks.getTrie (h : obj.Tracks R a d m) :
    ∃ tr, obj.getTrie db root a = .ok tr ∧ tr.committed = false ∧
      ∀ k, tr.content.lookup k = obj.stored R a d k := by
  unfold StateObject.getTrie stored
  cases htrie : obj.trie with
  | some tr => exact ⟨tr, rfl, h.writable tr htrie, fun _ => rfl⟩
  | none =>
    rw [h.root htrie]
    cases hacct : R.baseAccount a d with
    | none =>
      refine ⟨⟨∅, false⟩, by simp [hR.openEmptyTrie a, Except.map], rfl, fun k => ?_⟩
      rw [hR.baseStorage_eq_none hacct k]
      rfl
    | some acct =>
      cases d with
      | true => cases hacct
      | false =>
        obtain ⟨content, hopen, hcontent⟩ := hR.openStorageTrie a acct hacct
        exact ⟨⟨content, false⟩, by simp [hopen, Except.map], rfl, hcontent⟩

omit hR

section
open List Trie

section
omit [Crypto]

theorem mem_pendingWrites {ord : RangeOrder Hash} {obj : StateObject} {key value : Hash} :
    (key, value) ∈ obj.pendingWrites ord ↔ obj.pendingStorage.lookup key = some value ∧
      ∃ origin, obj.uncommittedStorage.lookup key = some origin ∧ value ≠ origin := by
  unfold pendingWrites
  rw [mem_filterMap]
  constructor
  · rintro ⟨⟨k, origin⟩, hmem, h⟩
    have hk := mem_range.mp hmem
    by_cases hnoop : obj.pendingStorage.get k = origin
    · rw [if_pos hnoop] at h
      cases h
    rw [if_neg hnoop] at h
    obtain ⟨v, hv, heq⟩ := Option.map_eq_some_iff.mp h
    cases heq
    refine ⟨hv, origin, hk, fun heq => hnoop ?_⟩
    rw [GoMap.get, hv, heq]
    rfl
  · rintro ⟨hvalue, origin, horigin, hne⟩
    refine ⟨(key, origin), mem_range.mpr horigin, ?_⟩
    have hget : obj.pendingStorage.get key = value := by simp [GoMap.get, hvalue]
    simp [hget, if_neg hne, hvalue]

theorem slotWrites_perm (deterministic : Bool) (ord : RangeOrder Hash) (obj : StateObject) :
    (obj.slotWrites deterministic ord).Perm (obj.pendingWrites ord) := by
  have hsplit : ((obj.pendingWrites ord).filter (·.2 ≠ 0) ++
      (obj.pendingWrites ord).filter (·.2 = 0)).Perm (obj.pendingWrites ord) := by
    simpa using filter_append_perm (fun slot : Hash × Hash => decide (slot.2 ≠ 0))
      (obj.pendingWrites ord)
  cases deterministic with
  | false => exact hsplit
  | true => exact ((perm_insertionSort _ _).append_left _).trans hsplit

theorem nodup_pendingWrites (ord : RangeOrder Hash) (obj : StateObject) :
    ((obj.pendingWrites ord).map Prod.fst).Nodup := by
  have hsub : ((obj.pendingWrites ord).map Prod.fst).Sublist
      ((range ord obj.uncommittedStorage).map Prod.fst) := by
    unfold pendingWrites
    generalize range ord obj.uncommittedStorage = slots
    induction slots with
    | nil => exact Sublist.refl _
    | cons slot slots ih =>
      rw [filterMap_cons]
      split
      · exact ih.cons _
      · rename_i w hw
        split_ifs at hw
        obtain ⟨v, -, rfl⟩ := Option.map_eq_some_iff.mp hw
        exact ih.cons_cons _
  exact (nodup_range ord _).sublist hsub

end

variable {missing : Trie Hash → Hash → Bool} {tr tr' : Trie Hash} {deterministic : Bool}

theorem writeAll_open (ws : List (Hash × Hash)) (h : tr.committed = false) :
    (writeAll (fun _ _ => false) tr ws).2 = none := by
  induction ws generalizing tr with
  | nil => rfl
  | cons slot ws ih =>
    simp only [writeAll, writeSlot, update, delete, h, Bool.false_eq_true, if_false]
    split_ifs <;> exact ih rfl

/-- One trie call that does not fail. -/
theorem writeSlot_spec {slot : Hash × Hash} (h : writeSlot missing tr slot = .ok tr') :
    tr'.committed = tr.committed ∧ ∀ k, tr'.content.lookup k =
      if k = slotHash slot.1 then encode slot.2 else tr.content.lookup k := by
  simp only [writeSlot, update, delete] at h
  split_ifs at h with hmissing hne hclosed hclosed
  · cases h
    refine ⟨rfl, fun k => ?_⟩
    rw [lookup_insert_ite, encode, if_neg hne]
  · cases h
    refine ⟨rfl, fun k => ?_⟩
    rw [lookup_erase_ite, encode, if_pos (not_not.mp hne)]

theorem committed_writeAll (missing : Trie Hash → Hash → Bool) (tr : Trie Hash)
    (ws : List (Hash × Hash)) : (writeAll missing tr ws).1.committed = tr.committed := by
  induction ws generalizing tr with
  | nil => rfl
  | cons slot ws ih =>
    rw [writeAll]
    cases hw : writeSlot missing tr slot with
    | error cause => rfl
    | ok tr₁ => exact (ih tr₁).trans (writeSlot_spec hw).1

/-- All the trie calls of a list of distinct slots. -/
theorem writeAll_spec {ws : List (Hash × Hash)} (hnd : (ws.map (slotHash ·.1)).Nodup)
    (h : writeAll missing tr ws = (tr', none)) :
    (∀ slot ∈ ws, tr'.content.lookup (slotHash slot.1) = encode slot.2) ∧
      ∀ k, (∀ slot ∈ ws, slotHash slot.1 ≠ k) → tr'.content.lookup k = tr.content.lookup k := by
  induction ws generalizing tr with
  | nil =>
    cases h
    exact ⟨fun _ hslot => absurd hslot not_mem_nil, fun _ _ => rfl⟩
  | cons slot ws ih =>
    obtain ⟨hfresh, hnd⟩ := nodup_cons.mp hnd
    rw [writeAll] at h
    cases hw : writeSlot missing tr slot with
    | error cause =>
      rw [hw] at h
      cases h
    | ok tr₁ =>
      rw [hw] at h
      obtain ⟨hin, hout⟩ := ih hnd h
      obtain ⟨-, hlookup⟩ := writeSlot_spec hw
      refine ⟨fun s hs => ?_, fun k hk => ?_⟩
      · rcases mem_cons.mp hs with rfl | hs
        · rw [hout (slotHash s.1) fun s' hs' heq => hfresh (mem_map.mpr ⟨s', hs', heq⟩),
            hlookup, if_pos rfl]
        · exact hin s hs
      · rw [hout k fun s hs => hk s (mem_cons_of_mem _ hs), hlookup,
          if_neg (Ne.symm (hk slot mem_cons_self))]

/-- An object with another storage trie and root, and nothing left to write. -/
def flushed (obj : StateObject) (trie : Option (Trie Hash)) (r : Hash) : StateObject :=
  { obj with trie := trie, uncommittedStorage := ∅, data := { obj.data with root := r } }

theorem Tracks.flushed (h : obj.Tracks R a d m) {trie : Option (Trie Hash)} {r : Hash}
    {m' : Option Mutation}
    (hstored : ∀ key value, obj.pendingStorage.lookup key = some value →
      (obj.flushed trie r).stored R a d (slotHash key) = encode value)
    (hforeign : ∀ k, (∀ key ∈ obj.pendingStorage, slotHash key ≠ k) →
      (obj.flushed trie r).stored R a d k = R.baseStorage a d k)
    (hroot : trie = none → r = (R.baseAccount a d).elim emptyRootHash (·.root))
    (hopen : ∀ tr, trie = some tr → tr.committed = false)
    (hm' : obj.pendingStorage ≠ ∅ → ∃ applied, m' = some ⟨.update, applied⟩) :
    (obj.flushed trie r).Tracks R a d m' :=
  ⟨h.origin, h.originStorage, h.pending, fun key u hu => by simp [StateObject.flushed] at hu,
    fun key value hvalue _ => hstored key value hvalue, hforeign, hroot, hopen, hm',
    fun hne => absurd rfl hne, h.code⟩

/-- A successful `updateTrie` brings the trie to the settled values. -/
theorem Tracks.updateTrieFaulty (hR : Serves R root db reader)
    (hinj : Set.InjOn slotHash {key | key ∈ obj.pendingStorage}) (h : obj.Tracks R a d m)
    {ord : RangeOrder Hash} {trie : Option (Trie Hash)}
    (hok : obj.updateTrieFaulty missing deterministic ord db root a = (obj', .ok trie)) :
    obj' = obj.flushed trie obj.data.root ∧
      (∀ key value, obj.pendingStorage.lookup key = some value →
        obj'.stored R a d (slotHash key) = encode value) ∧
      (∀ k, (∀ key ∈ obj.pendingStorage, slotHash key ≠ k) →
        obj'.stored R a d k = R.baseStorage a d k) ∧
      (∀ tr, trie = some tr → tr.committed = false) ∧ (trie = none → obj.trie = none) := by
  unfold StateObject.updateTrieFaulty at hok
  by_cases hempty : obj.uncommittedStorage = ∅
  · rw [if_pos hempty] at hok
    cases hok
    have hnone : ∀ key, key ∉ obj.uncommittedStorage := fun key => by
      rw [hempty]
      exact notMem_empty
    refine ⟨?_, fun key value hvalue => h.written key value hvalue (hnone key), h.foreign,
      h.writable, id⟩
    rw [StateObject.flushed, ← hempty]
  · rw [if_neg hempty] at hok
    obtain ⟨tr, hget, hopen, hcontent⟩ := h.getTrie hR
    rw [hget] at hok
    simp only at hok
    rcases hall : writeAll missing tr (obj.slotWrites deterministic ord) with ⟨tr', _ | cause⟩
    · rw [hall] at hok
      cases hok
      have hperm := slotWrites_perm deterministic ord obj
      have hmem : ∀ slot ∈ obj.slotWrites deterministic ord,
          obj.pendingStorage.lookup slot.1 = some slot.2 := fun slot hslot =>
        (mem_pendingWrites.mp (hperm.mem_iff.mp hslot)).1
      have hnd : ((obj.slotWrites deterministic ord).map (slotHash ·.1)).Nodup := by
        rw [← Function.comp_def slotHash, ← List.map_map]
        refine Nodup.map_on (fun x hx y hy => ?_)
          ((hperm.map _).nodup_iff.mpr (nodup_pendingWrites ord obj))
        obtain ⟨slot, hslot, rfl⟩ := mem_map.mp hx
        obtain ⟨slot', hslot', rfl⟩ := mem_map.mp hy
        exact hinj (mem_of_lookup_eq_some (hmem slot hslot))
          (mem_of_lookup_eq_some (hmem slot' hslot'))
      obtain ⟨hin, hout⟩ := writeAll_spec hnd hall
      refine ⟨rfl, fun key value hvalue => ?_, fun k hk => ?_, fun q hq => ?_,
        fun hnone => by cases hnone⟩
      · change tr'.content.lookup (slotHash key) = _
        by_cases hkey : (key, value) ∈ obj.slotWrites deterministic ord
        · exact hin (key, value) hkey
        rw [hout _ fun slot hslot heq => hkey ?_, hcontent]
        · -- a slot that is not written is up to date in the trie
          by_cases huncommitted : key ∈ obj.uncommittedStorage
          · obtain ⟨u, hu⟩ := mem_iff.mp huncommitted
            have heq : value = u := by
              by_contra hne
              exact hkey (hperm.mem_iff.mpr (mem_pendingWrites.mpr ⟨hvalue, u, hu, hne⟩))
            rw [(h.uncommitted key u hu).2, heq]
          · exact h.written key value hvalue huncommitted
        · have hslot' := hmem slot hslot
          have hsame : slot.1 = key :=
            hinj (mem_of_lookup_eq_some hslot') (mem_of_lookup_eq_some hvalue) heq
          rw [hsame, hvalue] at hslot'
          rw [← hsame, Option.some.inj hslot']
          exact hslot
      · change tr'.content.lookup k = _
        rw [hout k fun slot hslot => hk slot.1 (mem_of_lookup_eq_some (hmem slot hslot)), hcontent]
        exact h.foreign k hk
      · cases hq
        have hcommitted := committed_writeAll missing tr (obj.slotWrites deterministic ord)
        rw [hall] at hcommitted
        exact hcommitted.trans hopen
    · rw [hall] at hok
      cases hok

/-- `updateTrie` cannot fail. -/
theorem Tracks.updateTrie (hR : Serves R root db reader) (ord : RangeOrder Hash)
    (h : obj.Tracks R a d m) :
    ∃ trie, obj.updateTrie ord db root a = (obj.flushed trie obj.data.root, .ok trie) := by
  unfold StateObject.updateTrie StateObject.updateTrieFaulty StateObject.flushed
  split
  · rename_i hempty
    exact ⟨obj.trie, by rw [← hempty]⟩
  · obtain ⟨tr, hget, hopen, -⟩ := h.getTrie hR
    have hall := writeAll_open (obj.slotWrites false ord) hopen
    rw [hget]
    rcases hw : writeAll (fun _ _ => false) tr (obj.slotWrites false ord) with ⟨tr', cause⟩
    rw [hw] at hall
    cases hall
    exact ⟨some tr', by simp only [hw]⟩

/-- **`updateRoot`** cannot fail.  It writes the slots that were waiting, and changes
    nothing else but the storage root. -/
theorem Tracks.updateRoot (hR : Serves R root db reader)
    (hinj : Set.InjOn slotHash {key | key ∈ obj.pendingStorage}) (ord : RangeOrder Hash)
    (h : obj.Tracks R a d m) :
    ∃ trie r, obj.updateRoot ord db root a = (obj.flushed trie r, none) ∧
      ∀ m', (obj.pendingStorage ≠ ∅ → ∃ applied, m' = some ⟨.update, applied⟩) →
        (obj.flushed trie r).Tracks R a d m' := by
  obtain ⟨trie, hok⟩ := h.updateTrie hR ord
  obtain ⟨-, hslots, hforeign, hopen, hnone⟩ := h.updateTrieFaulty hR hinj hok
  have hroot : obj.updateRoot ord db root a = (obj.flushed trie
      (trie.elim obj.data.root fun tr => db.hashStorageTrie tr.content), none) := by
    rw [StateObject.updateRoot, hok]
    cases trie <;> rfl
  refine ⟨trie, _, hroot, fun m' hm' => h.flushed hslots hforeign (fun htrie => ?_) hopen hm'⟩
  rw [htrie]
  exact h.root (hnone htrie)

end

end

end StateObject

end GethArb
