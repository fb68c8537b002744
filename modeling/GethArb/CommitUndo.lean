/-
  **A `stateUpdate` records an exact undo.**  The origins in the update of a commit
  cover every account and slot that differs between the state `R` the block was
  opened at and the state in the tries that the commit writes, and hold the value
  of `R`; writing them over the new state gives back `R` (`commit_records_undo`).

  The origins come from two places: the wiped storage of a destructed account, and
  the slots of an object, which believes its slots were empty when its account
  was destructed before.
-/
import GethArb.DiffCommit

namespace GethArb

open Finmap Option GoMap Function Flat StateObject StateUpdate

variable [Crypto]

/-- A flat state with its accounts in the slim encoding. -/
def Flat.slim (F : Flat StateAccount) : Flat SlimAccount where
  account h := (F.account h).map slimAccountRLP
  storage := F.storage

theorem Flat.slim_storage (F : Flat StateAccount) : F.slim.storage = F.storage := rfl

variable {obj : StateObject}

/-- The storage trie of an object after a commit holds what it held before. -/
theorem StateObject.SameStorage.stored {obj' : StateObject} (h : obj.SameStorage obj')
    {R : Flat StateAccount} {root : Hash} {db : Database} {reader : Reader} {a : Address}
    {d : Bool} {m : Option Mutation} (hR : Serves R root db reader) (hobj : obj.Tracks R a d m)
    (k : Hash) :
    ((obj'.getTrie db root a).toOption.bind (·.content.lookup k)) = obj.stored R a d k := by
  obtain ⟨tr, hget, -, hstored⟩ := hobj.getTrie hR
  rw [← hstored k]
  have htrie := h.trie
  unfold StateObject.getTrie at hget ⊢
  cases hopen : obj.trie with
  | none =>
    rw [hopen] at htrie hget
    simp only [map_eq_none_iff.mp htrie, h.root hopen, hget]
    rfl
  | some tr₀ =>
    rw [hopen] at htrie hget
    obtain ⟨tr', htr', hcontent⟩ := map_eq_some_iff.mp htrie
    cases hget
    simp [htr', Except.toOption, hcontent]

namespace StateDB

/-! ### The new state -/

/-- The storage of an account in the tries of `t`: the one of its object, or of its
    record in the account trie if there is no object. -/
def trieStorage (root : Hash) (t : StateDB) (a : Address) (k : Hash) : Option Hash :=
  match t.trie.bind (·.content.lookup (addrHash a)) with
  | none => none
  | some acct =>
    match t.stateObjects.lookup a with
    | some obj => (obj.getTrie t.db root a).toOption.bind (·.content.lookup k)
    | none => (t.db.openStorageTrie root a acct.root).toOption.bind (·.lookup k)

open Classical in
/-- An address with the given hash: that of an object of `t`, if there is one. -/
noncomputable def addressAt (t : StateDB) (h : Hash) : Option Address :=
  if ha : ∃ a ∈ t.stateObjects, addrHash a = h then some ha.choose
  else if ha : ∃ a, addrHash a = h then some ha.choose else none

theorem addressAt_some {t : StateDB} {h : Hash} {a : Address} (ha : t.addressAt h = some a) :
    addrHash a = h ∧ (a ∈ t.stateObjects ∨ ∀ b ∈ t.stateObjects, addrHash b ≠ h) := by
  unfold addressAt at ha
  split_ifs at ha with hobj hany
  · cases ha
    exact ⟨hobj.choose_spec.2, .inl hobj.choose_spec.1⟩
  · cases ha
    exact ⟨hany.choose_spec, .inr fun b hb heq => hobj ⟨b, hb, heq⟩⟩

/-- The flat state in the tries of `t`, which was opened at the root `root` of `R`.  No
    operation reaches a key that is not the hash of an address. -/
noncomputable def newState (R : Flat StateAccount) (root : Hash) (t : StateDB) :
    Flat StateAccount where
  account h := t.trie.bind (·.content.lookup h)
  storage h := (t.addressAt h).elim (R.storage h) (t.trieStorage root)

end StateDB

/-! ### Writing the origins -/

/-- The hash of a slot key, unless keys are hashes already. -/
def slotKeyOf (raw : Bool) (key : Hash) : Hash := if raw then slotHash key else key

/-- The slot hash under which a slot of `storagesOrigin` is filed. -/
def StateUpdate.slotKey (u : StateUpdate) : Hash → Hash := slotKeyOf u.rawStorageKey

/-- Write the origins of an update over a flat state. -/
def Flat.writeOrigins (ord : MapOrders) (u : StateUpdate) (F : Flat SlimAccount) :
    Flat SlimAccount where
  account := (range ord.account u.accountsOrigin).foldl
    (fun account e => update account (addrHash e.1) e.2) F.account
  storage := (range ord.account u.storagesOrigin).foldl
    (fun storage e => update storage (addrHash e.1)
      ((range (ord.slot e.1) e.2).foldl
        (fun slots slot => update slots (u.slotKey slot.1) slot.2)
        (storage (addrHash e.1)))) F.storage

/-- The update `u` records the origins of the change from the flat state `R` to the flat
    state `N`. -/
structure RecordsOrigins (R N : Flat SlimAccount) (u : StateUpdate) : Prop where
  /-- origins are recorded for exactly the accounts of the update -/
  accounts : ∀ h, h ∈ u.accounts ↔ ∃ a ∈ u.accountsOrigin, addrHash a = h
  /-- and for exactly its slots -/
  slots : ∀ h k, k ∈ (u.storages.lookup h).getD ∅ ↔
    ∃ a, ∃ key ∈ (u.storagesOrigin.lookup a).getD ∅, addrHash a = h ∧ u.slotKey key = k
  /-- they hold the values of `R` -/
  account_origin : ∀ a origin, u.accountsOrigin.lookup a = some origin →
    origin = R.account (addrHash a)
  slot_origin : ∀ a key origin, ((u.storagesOrigin.lookup a).getD ∅).lookup key = some origin →
    origin = R.storage (addrHash a) (u.slotKey key)
  /-- what differs is among them -/
  account_covered : ∀ h, N.account h ≠ R.account h → h ∈ u.accounts
  slot_covered : ∀ h k, N.storage h k ≠ R.storage h k → k ∈ (u.storages.lookup h).getD ∅

omit [Crypto] in
/-- Writing the entries of a map over a function, at keys made by `enc`. -/
theorem foldl_update_range {K A B C : Type} [DecidableEq K] [DecidableEq A] (enc : K → A)
    (val : K → B → C → C) {m : GoMap K B} (hinj : Set.InjOn enc {k | k ∈ m}) (ord : RangeOrder K)
    (g : A → C) :
    (∀ x, (∀ k ∈ m, enc k ≠ x) → (range ord m).foldl
        (fun g e => update g (enc e.1) (val e.1 e.2 (g (enc e.1)))) g x = g x) ∧
      ∀ k v, m.lookup k = some v → (range ord m).foldl
        (fun g e => update g (enc e.1) (val e.1 e.2 (g (enc e.1)))) g (enc k) =
          val k v (g (enc k)) := by
  obtain ⟨-, hout, hin⟩ := foldl_range_at (fun _ : A → C => True) ord m (fun k _ => enc k) id
    (fun g e => update g (enc e.1) (val e.1 e.2 (g (enc e.1)))) val (s := g) (entries_inj hinj)
    (fun g k v _ _ => ⟨trivial, update_self .., fun x hx => update_of_ne hx ..⟩) trivial
  exact ⟨fun x hx => hout x fun k v hv => hx k (mem_of_lookup_eq_some hv), hin⟩

variable {u : StateUpdate}

/-- Origins that cover what differs and hold the values of `R` bring `R` back. -/
theorem RecordsOrigins.restores {R N : Flat SlimAccount} (h : RecordsOrigins R N u)
    (haccounts : Set.InjOn addrHash {a | a ∈ u.accountsOrigin})
    (hstorages : Set.InjOn addrHash {a | a ∈ u.storagesOrigin})
    (hslots : ∀ a slots, u.storagesOrigin.lookup a = some slots →
      Set.InjOn u.slotKey {key | key ∈ slots}) (ord : MapOrders) : N.writeOrigins ord u = R := by
  obtain ⟨hout, hin⟩ :=
    foldl_update_range addrHash (fun _ origin _ => origin) haccounts ord.account N.account
  obtain ⟨hsout, hsin⟩ := foldl_update_range addrHash
    (fun a origins slots => (range (ord.slot a) origins).foldl
      (fun slots slot => update slots (u.slotKey slot.1) slot.2) slots)
    hstorages ord.account N.storage
  -- an account with recorded slots is among those whose origins are written
  have howner : ∀ x k, N.storage x k ≠ R.storage x k →
      ∃ a slots, u.storagesOrigin.lookup a = some slots ∧ addrHash a = x ∧
        ∃ key ∈ slots, u.slotKey key = k := by
    intro x k hne
    obtain ⟨a, key, hkey, ha, hk⟩ := (h.slots x k).mp (h.slot_covered x k hne)
    cases hlookup : u.storagesOrigin.lookup a with
    | none =>
      rw [hlookup] at hkey
      exact absurd hkey notMem_empty
    | some slots =>
      rw [hlookup] at hkey
      exact ⟨a, slots, hlookup, ha, key, hkey, hk⟩
  refine Flat.ext (funext fun x => ?_) (funext fun x => funext fun k => ?_)
  · by_cases hx : ∃ a ∈ u.accountsOrigin, addrHash a = x
    · obtain ⟨a, ha, rfl⟩ := hx
      obtain ⟨origin, ho⟩ := mem_iff.mp ha
      exact (hin a origin ho).trans (h.account_origin a origin ho)
    · refine (hout x fun a ha heq => hx ⟨a, ha, heq⟩).trans ?_
      by_contra hne
      exact hx ((h.accounts x).mp (h.account_covered x hne))
  · by_cases hx : ∃ a ∈ u.storagesOrigin, addrHash a = x
    · obtain ⟨a, ha, rfl⟩ := hx
      obtain ⟨slots, hlookup⟩ := mem_iff.mp ha
      refine (congrFun (hsin a slots hlookup) k).trans ?_
      obtain ⟨hkout, hkin⟩ := foldl_update_range u.slotKey (fun _ origin _ => origin)
        (hslots a slots hlookup) (ord.slot a) (N.storage (addrHash a))
      by_cases hk : ∃ key ∈ slots, u.slotKey key = k
      · obtain ⟨key, hkey, rfl⟩ := hk
        obtain ⟨origin, ho⟩ := mem_iff.mp hkey
        refine (hkin key origin ho).trans (h.slot_origin a key origin ?_)
        rw [hlookup]
        exact ho
      · refine (hkout k fun key hkey heq => hk ⟨key, hkey, heq⟩).trans ?_
        by_contra hne
        obtain ⟨b, slots', hb, hab, hkey⟩ := howner _ _ hne
        cases hstorages (mem_of_lookup_eq_some hb) ha hab
        rw [hlookup] at hb
        cases hb
        exact hk hkey
    · refine (congrFun (hsout x fun a ha heq => hx ⟨a, ha, heq⟩) k).trans ?_
      by_contra hne
      obtain ⟨a, slots, ha, heq, -⟩ := howner _ _ hne
      exact hx ⟨a, mem_of_lookup_eq_some ha, heq⟩

/-! ### The update of a commit -/

/-- The slots of a report, by hash. -/
theorem StateObject.Reports.mem_storages {a : Address} {op : AccountUpdate}
    (h : obj.Reports a op) (k : Hash) :
    (k ∈ op.storages ↔ ∃ key ∈ op.storagesOriginByKey, slotHash key = k) ∧
      (k ∈ op.storagesOriginByHash ↔ ∃ key ∈ op.storagesOriginByKey, slotHash key = k) := by
  have hkey : ∀ key, key ∈ op.storagesOriginByKey ↔ (obj.changed key).isSome = true := by
    intro key
    rw [← lookup_isSome, h.byKey key, isSome_map]
  have hone : ∀ m : GoMap Hash (Option Hash), (∀ key ∈ obj.pendingStorage,
        (m.lookup (slotHash key)).isSome = (obj.changed key).isSome) →
      ((∀ key ∈ obj.pendingStorage, slotHash key ≠ k) → m.lookup k = none) →
      (k ∈ m ↔ ∃ key ∈ op.storagesOriginByKey, slotHash key = k) := by
    intro m hin hout
    constructor
    · intro hk
      by_contra hnot
      refine lookup_eq_none.mp (hout fun key hp heq => hnot ⟨key, (hkey key).mpr ?_, heq⟩) hk
      rw [← hin key hp, heq]
      exact lookup_isSome.mpr hk
    · rintro ⟨key, hmem, rfl⟩
      have hchanged := (hkey key).mp hmem
      obtain ⟨value, hvalue⟩ := isSome_iff_exists.mp hchanged
      have hp := mem_of_lookup_eq_some (filter_eq_some_iff.mp hvalue).1
      exact lookup_isSome.mp ((hin key hp).trans hchanged)
  refine ⟨hone _ (fun key hp => ?_) fun hk => (h.foreign k hk).1,
    hone _ (fun key hp => ?_) fun hk => (h.foreign k hk).2⟩
  · rw [h.storages key hp, isSome_map]
  · rw [h.byHash key hp, isSome_map]

variable {delete : Option AccountDelete} {tr : Trie StateAccount}

namespace StateDB

section
variable {R : Flat StateAccount} {root : Hash} {db : Database} {reader : Reader} {s t r : StateDB}
  {held : Held} {a : Address} {raw : Bool} {entry : UpdateEntry}

/-- The origin of an account is its record in `R`. -/
theorem Committed.origin (hheld : held.Tracks R a) (h : Committed R raw a held entry) :
    (entry.origin.isSome = entry.account.isSome) ∧
      ∀ origin, entry.origin = some origin → origin =
        (R.account (addrHash a)).map slimAccountRLP := by
  obtain ⟨delete, update, rfl, hdel, hupd⟩ := h
  refine ⟨?_, fun origin horigin => ?_⟩
  · cases delete <;> cases update <;> rfl
  · rcases hdel with ⟨hnot, rfl⟩ | ⟨-, op, hop, rfl⟩
    · rcases hupd with ⟨-, rfl⟩ | ⟨-, obj, op, hobj, hreports, rfl⟩
      · cases horigin
      cases horigin
      refine Eq.trans hreports.origin ?_
      rw [(hheld.object obj hobj).origin]
      -- the object starts from the account of `R` or, once destructed, from nothing
      rcases hnot with hnot | hnot
      · rw [hnot]
        rfl
      · unfold baseAccount
        rw [hnot]
        split <;> rfl
    · cases horigin
      exact hop.origin.symm

variable {value k : Hash}

/-- A slot the object reports has the origin the object started from. -/
theorem changed_origin (hR : Serves R root db reader) (hheld : held.Tracks R a)
    (hobj : held.object = some obj) {key : Hash} (hchanged : obj.changed key = some value) :
    encode (obj.originStorage.get key) = R.baseStorage a held.destruct.isSome (slotHash key) := by
  obtain ⟨hpending, -⟩ := filter_eq_some_iff.mp hchanged
  rw [(hheld.object obj hobj).get_originStorage (mem_of_lookup_eq_some hpending)]
  exact hR.encode_baseStorage ..

/-- The slots of a deletion are those of `R`, with their values, and none with raw
    keys. -/
theorem DeletePart.slots (h : DeletePart R raw a held delete) :
    (∀ k, ((delete.elim ∅ (·.storagesOrigin)).lookup k).isSome =
        ((delete.elim ∅ (·.storages)).lookup k).isSome) ∧
      (∀ k origin, (delete.elim ∅ (·.storagesOrigin)).lookup k = some origin →
        origin = R.storage (addrHash a) k) ∧
      (raw = true → ∀ k, (delete.elim ∅ (·.storagesOrigin)).lookup k = none) := by
  rcases h with ⟨-, rfl⟩ | ⟨-, op, hop, rfl⟩
  · exact ⟨fun k => by simp, fun k origin h => by simp at h, fun _ k => by simp⟩
  refine ⟨fun k => ?_, fun k origin h => ?_, fun hraw k => ?_⟩
  · simp only [elim_some, hop.storages, hop.storagesOrigin]
    cases R.storage (addrHash a) k <;> rfl
  · rw [elim_some, hop.storagesOrigin] at h
    cases hk : R.storage (addrHash a) k with
    | none =>
      rw [hk] at h
      cases h
    | some value =>
      rw [hk] at h
      cases h
      rfl
  · rw [elim_some, hop.storagesOrigin, hop.raw hraw k]
    rfl

/-- A slot that no deletion wipes is in `R` what the object started from. -/
theorem DeletePart.base_eq (hR : Serves R root db reader) (h : DeletePart R raw a held delete)
    (hk : (delete.elim ∅ (·.storagesOrigin)).lookup k = none) :
    R.baseStorage a held.destruct.isSome k = R.storage (addrHash a) k := by
  rcases h with ⟨hnot | hnot, rfl⟩ | ⟨hsome, op, hop, rfl⟩
  · rw [hnot]
    rfl
  · rw [hR.orphan _ hnot k]
    unfold baseStorage
    split
    · rfl
    · exact hR.orphan _ hnot k
  · rw [elim_some, hop.storagesOrigin] at hk
    rw [hsome, map_eq_none_iff.mp hk]
    rfl

variable (hR : Serves R root db reader)
include hR

/-- The update part, for the keys under which origins are recorded. -/
theorem UpdatePart.slots (hheld : held.Tracks R a) (hslots : held.SlotsInjective)
    {update : Option AccountUpdate} (h : UpdatePart a held update) (raw : Bool) :
    (∀ k, k ∈ update.elim ∅ (·.storages) ↔
        ∃ key ∈ update.elim ∅ (·.storagesOrigin raw), slotKeyOf raw key = k) ∧
      Set.InjOn (slotKeyOf raw) {key | key ∈ update.elim ∅ (·.storagesOrigin raw)} ∧
      ∀ key origin, (update.elim ∅ (·.storagesOrigin raw)).lookup key = some origin →
        origin = R.baseStorage a held.destruct.isSome (slotKeyOf raw key) := by
  rcases h with ⟨-, rfl⟩ | ⟨-, obj, op, hobj, hreports, rfl⟩
  · exact ⟨fun k => by simp [notMem_empty], fun _ h => absurd h notMem_empty,
      fun key origin h => by simp at h⟩
  have hmem := hreports.mem_storages
  have horigin : ∀ key origin, op.storagesOriginByKey.lookup key = some origin →
      key ∈ obj.pendingStorage ∧ origin = R.baseStorage a held.destruct.isSome (slotHash key) := by
    intro key origin h
    rw [hreports.byKey] at h
    obtain ⟨value, hvalue, rfl⟩ := map_eq_some_iff.mp h
    exact ⟨mem_of_lookup_eq_some (filter_eq_some_iff.mp hvalue).1,
      changed_origin hR hheld hobj hvalue⟩
  cases raw with
  | true =>
    refine ⟨fun k => (hmem k).1, (hslots obj hobj).mono fun key hkey => ?_,
      fun key origin h => (horigin key origin h).2⟩
    obtain ⟨origin, ho⟩ := mem_iff.mp hkey
    exact .inl (horigin key origin ho).1
  | false =>
    refine ⟨fun k => ?_, fun _ _ _ _ heq => heq, fun k origin h => ?_⟩
    · refine ((hmem k).1.trans (hmem k).2.symm).trans ⟨fun hk => ⟨k, hk, rfl⟩, ?_⟩
      rintro ⟨_, hk, rfl⟩
      exact hk
    · have h : op.storagesOriginByHash.lookup k = some origin := h
      obtain ⟨key, hkey, rfl⟩ := (hmem k).2.mp (mem_of_lookup_eq_some h)
      obtain ⟨origin', ho⟩ := mem_iff.mp hkey
      obtain ⟨hpending, heq⟩ := horigin key origin' ho
      rw [hreports.byHash key hpending, ← hreports.byKey key, ho] at h
      cases h
      exact heq

/-- Origins are recorded for exactly the slots of an entry, and are those of `R`. -/
theorem Committed.slots (hheld : held.Tracks R a) (hslots : held.SlotsInjective)
    (h : Committed R raw a held entry) :
    (∀ k, k ∈ entry.storages ↔ ∃ key ∈ entry.storagesOrigin, slotKeyOf raw key = k) ∧
      Set.InjOn (slotKeyOf raw) {key | key ∈ entry.storagesOrigin} ∧
      ∀ key origin, entry.storagesOrigin.lookup key = some origin →
        origin = R.storage (addrHash a) (slotKeyOf raw key) := by
  obtain ⟨delete, update, rfl, hdel, hupd⟩ := h
  obtain ⟨hdmem, hdorigin, hdraw⟩ := hdel.slots
  obtain ⟨humem, huinj, huorigin⟩ := hupd.slots hR hheld hslots raw
  -- with raw keys the deletion has no slots; without, a key is its own hash
  have hdkey : ∀ k, k ∈ delete.elim ∅ (·.storages) ↔
      ∃ key ∈ delete.elim ∅ (·.storagesOrigin), slotKeyOf raw key = k := by
    intro k
    rw [← lookup_isSome, ← hdmem]
    cases raw with
    | true => simp [← lookup_isSome, hdraw rfl]
    | false => simp [slotKeyOf, lookup_isSome]
  have hkey : ∀ key, (delete.elim ∅ (·.storagesOrigin)).lookup key = none →
      (delete.elim ∅ (·.storagesOrigin)).lookup (slotKeyOf raw key) = none := by
    intro key hnone
    cases raw with
    | true => exact hdraw rfl _
    | false => exact hnone
  simp only [UpdateEntry.merge]
  refine ⟨fun k => ?_, ?_, fun key origin ho => ?_⟩
  · rw [mem_union, humem k, hdkey k]
    simp only [mem_union, or_and_right, exists_or]
    exact or_comm
  · cases raw with
    | false => exact fun _ _ _ _ heq => heq
    | true =>
      refine huinj.mono fun key hmem => (mem_union.mp hmem).resolve_left ?_
      exact lookup_eq_none.mp (hdraw rfl key)
  · rw [lookup_union] at ho
    cases hd : (delete.elim ∅ (·.storagesOrigin)).lookup key with
    | some o =>
      rw [hd] at ho
      cases ho
      cases raw with
      | true =>
        rw [hdraw rfl key] at hd
        cases hd
      | false => exact hdorigin key _ hd
    | none =>
      rw [hd] at ho
      rw [huorigin key origin ho]
      exact hdel.base_eq hR (hkey key hd)

/-- A slot of `R` of a destructed account is among the wiped ones. -/
theorem Committed.wiped (h : Committed R raw a held entry) (hdes : held.destruct.isSome = true)
    (hk : R.storage (addrHash a) k = some value) : k ∈ entry.storages := by
  obtain ⟨delete, update, rfl, hdel, -⟩ := h
  rcases hdel with ⟨hnot | hnot, -⟩ | ⟨-, op, hop, rfl⟩
  · rw [hnot] at hdes
    cases hdes
  · rw [hR.orphan _ hnot k] at hk
    cases hk
  · refine mem_union.mpr (.inr (lookup_isSome.mp ?_))
    rw [elim_some, hop.storages k, hk]
    rfl

/-- A slot whose trie value is not the one the object started from is reported. -/
theorem Committed.stored (hheld : held.Tracks R a) (h : Committed R raw a held entry)
    (hobj : held.object = some obj) (hempty : obj.uncommittedStorage = ∅)
    (hk : obj.stored R a held.destruct.isSome k ≠ R.baseStorage a held.destruct.isSome k) :
    k ∈ entry.storages := by
  have htracks := hheld.object obj hobj
  -- the slot has a pending value that differs from the one in the database
  obtain ⟨key, hkey, rfl⟩ : ∃ key ∈ obj.pendingStorage, slotHash key = k := by
    by_contra hnot
    exact hk (htracks.foreign k fun key hkey heq => hnot ⟨key, hkey, heq⟩)
  obtain ⟨value, hvalue⟩ := mem_iff.mp hkey
  rw [htracks.written key value hvalue (by rw [hempty]; exact notMem_empty)] at hk
  have hne : value ≠ obj.originStorage.get key := by
    rintro rfl
    refine hk ?_
    rw [htracks.get_originStorage hkey]
    exact hR.encode_baseStorage ..
  have hchanged : obj.changed key = some value := by
    simp [changed, hvalue, hne]
  -- a pending slot means that the account is updated
  obtain ⟨applied, hm⟩ := htracks.clean fun hp => by simp [hp] at hvalue
  obtain ⟨delete, update, rfl, -, hupd⟩ := h
  rcases hupd with ⟨hnot, -⟩ | ⟨-, obj', op, hobj', hreports, rfl⟩
  · exact absurd hm (hnot applied)
  rw [hobj] at hobj'
  cases hobj'
  refine mem_union.mpr (.inl (lookup_isSome.mp ?_))
  rw [elim_some, hreports.storages key hkey, hchanged]
  rfl

omit hR

/-- An account that differs in the account trie is reported. -/
theorem covered_account (hblock : InBlock R root db reader r) (htrie : r.trie = some tr)
    (happlied : ∀ a m, r.mutations.lookup a = some m → m.applied = true)
    (hentries : ∀ a ∈ r.mutations, Committed R raw a (r.held a) (u.entry a)) {h : Hash}
    (hne : tr.content.lookup h ≠ R.account h) : h ∈ u.accounts := by
  have htr := hblock.trie tr htrie
  -- a key that no mutated account has is untouched
  obtain ⟨a, hmem, rfl⟩ : ∃ a ∈ r.mutations, addrHash a = h := by
    by_contra hnot
    exact hne (htr.untouched h fun a ha heq => hnot ⟨a, ha, heq⟩)
  obtain ⟨⟨typ, applied⟩, hm⟩ := mem_iff.mp hmem
  cases happlied a _ hm
  obtain ⟨delete, update, hentry, hdel, hupd⟩ := hentries a hmem
  have haccount : u.accounts.lookup (addrHash a) =
      update.elim (delete.map fun _ => none) fun op => some (some op.data) :=
    congrArg UpdateEntry.account hentry
  rw [← lookup_isSome, haccount]
  cases typ with
  | update =>
    rcases hupd with ⟨hnot, -⟩ | ⟨-, obj, op, -, -, rfl⟩
    · exact absurd hm (hnot true)
    · rfl
  | deletion =>
    rw [htr.deleted a hm] at hne
    have hdes := (hblock.held a).deleted true hm
    rcases hdel with ⟨hnot | hnot, -⟩ | ⟨-, op, -, rfl⟩
    · rw [hnot] at hdes
      cases hdes
    · exact absurd hnot.symm hne
    · cases update <;> rfl

/-- A slot that differs in the tries is reported.  The storage is looked up for the address `a`:
    one with an object, or one whose hash no object has. -/
theorem covered_slot (hR : Serves R root db reader) (hblock : InBlock R root db reader r)
    (hkeys : r.KeysInjective) (htrie : r.trie = some tr) (ht : t.trie = some tr.commit)
    (hdb : t.db = db) (happlied : ∀ a m, r.mutations.lookup a = some m → m.applied = true)
    (hempty : ∀ a obj, (r.held a).object = some obj → obj.uncommittedStorage = ∅)
    (hobjects : ∀ a, Option.Rel SameStorage (r.stateObjects.lookup a) (t.stateObjects.lookup a))
    (hentries : ∀ a ∈ r.mutations, Committed R raw a (r.held a) (u.entry a))
    (hown : a ∈ r.stateObjects ∨ ∀ b ∈ r.stateObjects, addrHash b ≠ addrHash a)
    (hne : t.trieStorage root a k ≠ R.storage (addrHash a) k) : k ∈ (u.entry a).storages := by
  have htr := hblock.trie tr htrie
  have hheld := hblock.held a
  have hobject := hobjects a
  have hcontent : t.trie.bind (·.content.lookup (addrHash a)) = tr.content.lookup (addrHash a) := by
    rw [ht]
    rfl
  unfold trieStorage at hne
  rw [hcontent] at hne
  by_cases hb : ∃ b ∈ r.mutations, addrHash b = addrHash a
  · obtain ⟨b, hb, heq⟩ := hb
    obtain ⟨⟨typ, applied⟩, hm⟩ := mem_iff.mp hb
    cases happlied b _ hm
    have hentry := hentries b hb
    cases typ with
    | deletion =>
      -- the account is gone, and its slots in `R` were wiped
      rw [← heq, htr.deleted b hm] at hne
      obtain ⟨value, hvalue⟩ := ne_none_iff_exists'.mp (Ne.symm hne)
      have hwiped := hentry.wiped hR ((hblock.held b).deleted true hm) hvalue
      rw [entry, heq] at hwiped
      exact hwiped
    | update =>
      obtain ⟨_, _, -, -, ⟨hnot, -⟩ | ⟨-, obj, -, hobj, -⟩⟩ := hentries b hb
      · exact absurd hm (hnot true)
      have hobj : r.stateObjects.lookup b = some obj := hobj
      obtain rfl : b = a := by
        rcases hown with ha | hnone
        · exact hkeys.addr (.inl hb) (.inr ha) heq
        · exact absurd heq (hnone b (mem_of_lookup_eq_some hobj))
      obtain ⟨acct, hacct⟩ := isSome_iff_exists.mp (htr.updated b hm)
      cases hobj' : t.stateObjects.lookup b with
      | none =>
        rw [hobj, hobj'] at hobject
        cases hobject
      | some obj' =>
        rw [hobj, hobj'] at hobject
        cases hobject with | some hsame =>
        simp only [hacct, hobj', hdb, hsame.stored hR (hheld.object obj hobj)] at hne
        by_cases hbase : R.baseStorage b (r.held b).destruct.isSome k = R.storage (addrHash b) k
        · rw [← hbase] at hne
          exact hentry.stored hR hheld hobj (hempty b obj hobj) hne
        -- then the account was destructed, and `R` has a value for the slot
        cases hdes : (r.held b).destruct.isSome with
        | false =>
          rw [hdes] at hbase
          exact absurd rfl hbase
        | true =>
          rw [hdes] at hbase
          obtain ⟨value, hvalue⟩ := ne_none_iff_exists'.mp (Ne.symm hbase)
          exact hentry.wiped hR hdes hvalue
  · -- the account is as in `R`, and no slot of it was written
    rw [htr.untouched (addrHash a) fun b hb' heq => hb ⟨b, hb', heq⟩] at hne
    cases hacct : R.account (addrHash a) with
    | none =>
      rw [hacct] at hne
      exact absurd (hR.orphan _ hacct k).symm hne
    | some acct =>
      rw [hacct] at hne
      cases hobj : r.stateObjects.lookup a <;> cases hobj' : t.stateObjects.lookup a <;>
        rw [hobj, hobj'] at hobject <;> cases hobject
      · obtain ⟨content, hopen, hcontent⟩ := hR.openStorageTrie a acct hacct
        simp only [hobj', hdb, hopen] at hne
        exact absurd (hcontent k) hne
      · rename_i obj obj' hsame
        simp only [hobj', hdb, hsame.stored hR (hheld.object obj hobj)] at hne
        have hnone : (r.held a).mutation = none := lookup_eq_none.mpr fun ha => hb ⟨a, ha, rfl⟩
        have htracks := hheld.object obj hobj
        rw [hheld.marked hnone] at hne htracks
        refine absurd (htracks.foreign k fun key hkey => ?_) hne
        obtain ⟨applied, hm⟩ := htracks.clean fun hp => absurd (hp ▸ hkey) notMem_empty
        rw [hnone] at hm
        cases hm

/-- **A commit records an exact undo.**  In every state a block can reach, the update
    of a commit that does not fail holds the origins of exactly its accounts and
    slots, as they are in `R`, and these cover everything that differs in the new
    state; written over the new state they give back `R`. -/
theorem commit_records_undo (hR : Serves R root db reader) {ops : List Op}
    (hrun : Run BlockOp (StateDB.new root db reader) ops s) (hkeys : s.KeysInjective)
    {ord : MapOrders} {del raw : Bool} {block : U64} {u : StateUpdate}
    (hcommit : s.commit ord del raw block = some (.ok u, t)) :
    u.rawStorageKey = raw ∧ RecordsOrigins R.slim (t.newState R root).slim u ∧
      ∀ ord', (t.newState R root).slim.writeOrigins ord' u = R.slim := by
  have hs := hrun.inBlock hR
  obtain ⟨-, r, hash, tr, hr, hblock, hrkeys, hraw, hentries, horigins, htrie, ht, hdb, hobjects,
    hforeign⟩ := hs.commit hR hkeys hcommit
  -- after the trie writes every mutation is applied and no slot is waiting
  have hwritten := (hs.intermediateRoot hR hkeys hr).2.2
  have happlied : ∀ a m, r.mutations.lookup a = some m → m.applied = true := by
    intro a m hm
    have hheld : r.mutations.lookup a = _ := congrArg Held.mutation (hwritten a)
    rw [hm] at hheld
    obtain ⟨m', -, rfl⟩ := map_eq_some_iff.mp hheld.symm
    rfl
  have hempty : ∀ a obj, (r.held a).object = some obj → obj.uncommittedStorage = ∅ := by
    intro a obj hobj
    obtain ⟨hfin, hfkeys⟩ := hs.finalise hR hkeys ord del
    rw [hwritten a] at hobj
    exact ((hfin.held a).written hR (ord.slot a) (hfkeys.slot a)).2.2 obj hobj
  have hkey : u.slotKey = slotKeyOf raw := by rw [slotKey, hraw]
  have hlive : ∀ a, a ∈ t.stateObjects ↔ a ∈ r.stateObjects := fun a => by
    have hobject := hobjects a
    rw [← lookup_isSome, ← lookup_isSome]
    generalize r.stateObjects.lookup a = x, t.stateObjects.lookup a = y at hobject ⊢
    cases hobject <;> rfl
  -- the entries of the update belong to mutated accounts
  have howned : ∀ h, h ∈ u.accounts ∨ (∃ k, k ∈ (u.storages.lookup h).getD ∅) →
      ∃ a ∈ r.mutations, addrHash a = h := by
    intro h hmem
    by_contra hnot
    obtain ⟨h₁, h₂⟩ := hforeign h fun a ha heq => hnot ⟨a, ha, heq⟩
    rw [h₂] at hmem
    exact hmem.elim (lookup_eq_none.mp h₁) fun ⟨k, hk⟩ => notMem_empty hk
  have hmutated : ∀ {a}, a ∈ u.accountsOrigin ∨ a ∈ u.storagesOrigin → a ∈ r.mutations := by
    intro a hmem
    by_contra hnot
    obtain ⟨h₁, h₂⟩ := Prod.mk.inj (horigins a hnot)
    exact hmem.elim (lookup_eq_none.mp h₁) (lookup_eq_none.mp (Prod.mk.inj h₂).1)
  have hslots := fun a ha => (hentries a ha).slots hR (hblock.held a) (hrkeys.slot a)
  have horigin := fun a ha => (hentries a ha).origin (hblock.held a)
  have hslotted : ∀ {a key}, key ∈ (u.storagesOrigin.lookup a).getD ∅ → a ∈ r.mutations := by
    intro a key hmem
    refine hmutated (.inr ?_)
    by_contra hnot
    rw [lookup_eq_none.mpr hnot] at hmem
    exact notMem_empty hmem
  have hrecords : RecordsOrigins R.slim (t.newState R root).slim u := by
    refine ⟨fun h => ⟨fun hmem => ?_, ?_⟩, fun h k => ⟨fun hmem => ?_, ?_⟩, fun a origin ho => ?_,
      fun a key origin ho => ?_, fun h hne => ?_, fun h k hne => ?_⟩
    · obtain ⟨a, ha, rfl⟩ := howned h (.inl hmem)
      exact ⟨a, lookup_isSome.mp ((horigin a ha).1.trans (lookup_isSome.mpr hmem)), rfl⟩
    · rintro ⟨a, hmem, rfl⟩
      have ha := hmutated (.inl hmem)
      exact lookup_isSome.mp ((horigin a ha).1.symm.trans (lookup_isSome.mpr hmem))
    · obtain ⟨a, ha, rfl⟩ := howned h (.inr ⟨k, hmem⟩)
      obtain ⟨key, hmem, hk⟩ := ((hslots a ha).1 k).mp hmem
      exact ⟨a, key, hmem, rfl, hkey ▸ hk⟩
    · rintro ⟨a, key, hmem, rfl, rfl⟩
      rw [hkey]
      exact ((hslots a (hslotted hmem)).1 _).mpr ⟨key, hmem, rfl⟩
    · exact (horigin a (hmutated (.inl (mem_of_lookup_eq_some ho)))).2 origin ho
    · rw [hkey]
      exact (hslots a (hslotted (mem_of_lookup_eq_some ho))).2.2 key origin ho
    · refine covered_account hblock htrie happlied hentries (h := h) fun heq => hne ?_
      have hnew : (t.newState R root).account h = R.account h := by
        unfold newState
        rw [ht]
        exact heq
      exact congrArg (Option.map slimAccountRLP) hnew
    · rw [slim_storage, slim_storage, newState] at hne
      cases hat : t.addressAt h with
      | none => exact absurd (by simp [hat]) hne
      | some a =>
        obtain ⟨rfl, hown⟩ := addressAt_some hat
        simp only [hat, elim_some, hlive] at hne hown
        exact covered_slot hR hblock hrkeys htrie ht hdb happlied hempty hobjects hentries hown hne
  have hinj : Set.InjOn addrHash {a | a ∈ r.mutations} := hrkeys.addr.mono fun _ => .inl
  refine ⟨hraw, hrecords, hrecords.restores (hinj.mono fun a ha => hmutated (.inl ha))
    (hinj.mono fun a ha => hmutated (.inr ha)) fun a slots hlookup => ?_⟩
  have hslot := (hslots a (hmutated (.inr (mem_of_lookup_eq_some hlookup)))).2.1
  simp only [entry, hlookup, getD_some] at hslot
  exact hkey ▸ hslot

omit [Crypto] in
/-- The undo of a block that destructs an account and brings it back. -/
theorem commit_records_undo_resurrected :
    letI := numberCrypto
    ∃ t u, resurrected.commit .ascending true false 0 = some (.ok u, t) ∧
      u.rawStorageKey = false ∧ RecordsOrigins oneSlot.slim (t.newState oneSlot 1).slim u ∧
      ∀ ord', (t.newState oneSlot 1).slim.writeOrigins ord' u = oneSlot.slim := by
  let _ : Crypto := numberCrypto
  obtain ⟨u, t, hcommit⟩ := resurrected_commit
  exact ⟨t, u, hcommit, commit_records_undo serves_oneSlot resurrected_run
    (numberCrypto_keysInjective _) hcommit⟩

end

end StateDB

end GethArb
