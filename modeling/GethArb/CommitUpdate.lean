/-
  **What `commit` reports**: the deletions of `handleDestruction`, the account
  updates of the objects, and the `stateUpdate` merged from both, account by
  account.

  `commit_spec` puts it together for a state of a block over a flat state `R`:
  what the update says about an account is the deletion of the account of `R`, if
  it was destructed, merged with the slots its object reports, if it is updated.
-/
import GethArb.Block

namespace GethArb

open Finmap GoMap Option StateUpdate

variable [Crypto]

/-! ### The slots an object reports -/

variable {ord : RangeOrder Hash} {op : AccountUpdate}

namespace StateObject

omit [Crypto] in
/-- The value a slot is reported with: one that is pending and differs from the
    value read from the database. -/
def changed (obj : StateObject) (key : Hash) : Option Hash :=
  (obj.pendingStorage.lookup key).filter fun value => value ≠ obj.originStorage.get key

/-- `op` is what `commit` reports for the object. -/
structure Reports (addr : Address) (obj : StateObject) (op : AccountUpdate) : Prop where
  address : op.address = addr
  data : op.data = slimAccountRLP obj.data
  origin : op.origin = obj.origin.map slimAccountRLP
  code : op.code = if obj.dirtyCode then some ⟨obj.data.codeHash, obj.code⟩ else none
  storages : ∀ key ∈ obj.pendingStorage,
    op.storages.lookup (slotHash key) = (obj.changed key).map encode
  byKey : ∀ key, op.storagesOriginByKey.lookup key =
    (obj.changed key).map fun _ => encode (obj.originStorage.get key)
  byHash : ∀ key ∈ obj.pendingStorage, op.storagesOriginByHash.lookup (slotHash key) =
    (obj.changed key).map fun _ => encode (obj.originStorage.get key)
  foreign : ∀ h, (∀ key ∈ obj.pendingStorage, slotHash key ≠ h) →
    op.storages.lookup h = none ∧ op.storagesOriginByHash.lookup h = none

theorem reports_commitStorage {obj : StateObject}
    (hinj : Set.InjOn slotHash {key | key ∈ obj.pendingStorage}) (ord : RangeOrder Hash)
    (addr : Address) :
    obj.Reports addr
      ({ obj with dirtyCode := false }.commitStorage ord (obj.accountUpdate addr)).2 := by
  obtain ⟨⟨haddr, hdata, horigin, hcode, hforeign⟩, hpoint⟩ := foldl_range
    (fun st : StateObject × AccountUpdate => st.2.address = addr ∧
      st.2.data = slimAccountRLP obj.data ∧ st.2.origin = obj.origin.map slimAccountRLP ∧
      st.2.code = (if obj.dirtyCode then some ⟨obj.data.codeHash, obj.code⟩ else none) ∧
      ∀ h, (∀ key ∈ obj.pendingStorage, slotHash key ≠ h) →
        st.2.storages.lookup h = none ∧ st.2.storagesOriginByHash.lookup h = none)
    ord obj.pendingStorage
    (fun st key => (st.1.originStorage.get key, st.2.storagesOriginByKey.lookup key,
      if key ∈ obj.pendingStorage then (st.2.storages.lookup (slotHash key),
        st.2.storagesOriginByHash.lookup (slotHash key)) else (none, none)))
    commitSlot
    (fun _ value before =>
      if value = before.1 then before
      else (value, some (encode before.1), some (encode value), some (encode before.1)))
    (s := ({ obj with dirtyCode := false }, obj.accountUpdate addr))
    (by
      rintro ⟨o, op⟩ key value hvalue ⟨haddr, hdata, horigin, hcode, hforeign⟩
      have hkey := mem_of_lookup_eq_some hvalue
      unfold commitSlot
      by_cases hv : value = o.originStorage.get key
      · simp only [hv, if_true]
        exact ⟨⟨haddr, hdata, horigin, hcode, hforeign⟩, trivial, fun _ _ => trivial⟩
      simp only [hv, if_false]
      refine ⟨⟨haddr, hdata, horigin, hcode, fun h hh => ?_⟩, ?_, fun j hj => ?_⟩
      · have hne := Ne.symm (hh key hkey)
        rw [lookup_insert_of_ne _ hne, lookup_insert_of_ne _ hne]
        exact hforeign h hh
      · simp [get_insert, hkey]
      · by_cases hmem : j ∈ obj.pendingStorage
        · simp [get_insert, hj, lookup_insert_of_ne _ (hinj.ne hmem hkey hj)]
        · simp [get_insert, hj, hmem])
    ⟨rfl, rfl, rfl, rfl, fun h _ => by simp [accountUpdate]⟩
  let res := { obj with dirtyCode := false }.commitStorage ord (obj.accountUpdate addr)
  have hall : ∀ key, (res.2.storagesOriginByKey.lookup key,
      if key ∈ obj.pendingStorage then (res.2.storages.lookup (slotHash key),
        res.2.storagesOriginByHash.lookup (slotHash key)) else (none, none)) =
      ((obj.changed key).map fun _ => encode (obj.originStorage.get key),
        (obj.changed key).map encode,
        (obj.changed key).map fun _ => encode (obj.originStorage.get key)) := by
    intro key
    refine (congrArg Prod.snd (hpoint key)).trans ?_
    unfold changed
    cases hp : obj.pendingStorage.lookup key with
    | none => simp [accountUpdate]
    | some value =>
      by_cases hv : value = obj.originStorage.get key
      · simp [hv, accountUpdate]
      · simp [hv]
  have hhash : ∀ key ∈ obj.pendingStorage, _ := fun key hkey =>
    (if_pos hkey).symm.trans (Prod.mk.inj (hall key)).2
  refine ⟨haddr, hdata, horigin, hcode, fun key hkey => ?_, fun key => ?_, fun key hkey => ?_,
    hforeign⟩
  · exact (Prod.mk.inj (hhash key hkey)).1
  · exact (Prod.mk.inj (hall key)).1
  · exact (Prod.mk.inj (hhash key hkey)).2

theorem commit_reports {db : Database} {addr : Address} {obj obj' : StateObject}
    (hinj : Set.InjOn slotHash {key | key ∈ obj.pendingStorage})
    (h : obj.commit ord db addr = some (op, obj')) : obj.Reports addr op := by
  have hreports := reports_commitStorage hinj ord addr
  unfold commit at h
  simp only at h
  split at h
  · cases h
    exact hreports
  · obtain ⟨tr, -, heq⟩ := map_eq_some_iff.mp h
    cases heq
    exact hreports

omit [Crypto] in
/-- Two objects with the same storage trie, by its contents or by its root. -/
structure SameStorage (obj obj' : StateObject) : Prop where
  trie : obj'.trie.map Trie.content = obj.trie.map Trie.content
  root : obj.trie = none → obj'.data.root = obj.data.root

/-- `commit` does not change the contents of the storage trie. -/
theorem commit_sameStorage {db : Database} {addr : Address} {obj obj' : StateObject}
    (h : obj.commit ord db addr = some (op, obj')) : SameStorage obj obj' := by
  have hloop := foldl_constant (fun st : StateObject × AccountUpdate => (st.1.trie, st.1.data))
    commitSlot
    (by
      rintro ⟨o, op⟩ slot
      unfold commitSlot
      simp only
      split <;> rfl)
    (range ord obj.pendingStorage)
    ({ obj with dirtyCode := false }, obj.accountUpdate addr)
  obtain ⟨htrie, hdata⟩ := Prod.mk.inj hloop
  unfold commit commitStorage at h
  simp only at h
  split at h
  · cases h
    exact ⟨congrArg (Option.map Trie.content) htrie, fun _ => congrArg StateAccount.root hdata⟩
  obtain ⟨tr, htr, heq⟩ := map_eq_some_iff.mp h
  cases heq
  have htr : obj.trie = some tr := htrie.symm.trans htr
  refine ⟨?_, fun hnone => ?_⟩
  · rw [htr]
    rfl
  · rw [htr] at hnone
    cases hnone

end StateObject

/-! ### The merged update -/

/-- What a `stateUpdate` says about one account. -/
@[ext]
structure UpdateEntry where
  account : Option (Option SlimAccount)
  origin : Option (Option SlimAccount)
  storages : GoMap Hash (Option Hash)
  storagesOrigin : GoMap Hash (Option Hash)
  code : Option ContractCode

def StateUpdate.entry (u : StateUpdate) (addr : Address) : UpdateEntry where
  account := u.accounts.lookup (addrHash addr)
  origin := u.accountsOrigin.lookup addr
  storages := (u.storages.lookup (addrHash addr)).getD ∅
  storagesOrigin := (u.storagesOrigin.lookup addr).getD ∅
  code := u.codes.lookup addr

/-- The part that is filed under the address: the origins and the code. -/
abbrev Origins :=
  Option (Option SlimAccount) × Option (GoMap Hash (Option Hash)) × Option ContractCode

omit [Crypto] in
def StateUpdate.origins (u : StateUpdate) (addr : Address) : Origins :=
  (u.accountsOrigin.lookup addr, u.storagesOrigin.lookup addr, u.codes.lookup addr)

omit [Crypto] in
/-- The origins of the slots of an account update, by raw key or by hash. -/
def AccountUpdate.storagesOrigin (op : AccountUpdate) (rawStorageKey : Bool) :
    GoMap Hash (Option Hash) :=
  if rawStorageKey then op.storagesOriginByKey else op.storagesOriginByHash

omit [Crypto] in
/-- The deletion and the update of an account, merged: the update's values win, the
    deletion's origins do. -/
def UpdateEntry.merge (rawStorageKey : Bool) (delete : Option AccountDelete)
    (update : Option AccountUpdate) : UpdateEntry where
  account := update.elim (delete.map fun _ => none) fun op => some (some op.data)
  origin := delete.elim (update.map (·.origin)) fun op => some (some op.origin)
  storages := update.elim ∅ (·.storages) ∪ delete.elim ∅ (·.storages)
  storagesOrigin :=
    delete.elim ∅ (·.storagesOrigin) ∪ update.elim ∅ (·.storagesOrigin rawStorageKey)
  code := update.bind (·.code)

variable {a : Address}

section
omit [Crypto]

/-- What a deletion makes of the origins of its account. -/
def AccountDelete.origins (op : AccountDelete) (before : Origins) : Origins :=
  (some (some op.origin), if op.storagesOrigin = ∅ then before.2.1 else some op.storagesOrigin,
    before.2.2)

/-- What an update makes of them. -/
def AccountUpdate.origins (rawStorageKey : Bool) (op : AccountUpdate) (before : Origins) :
    Origins :=
  (before.1.or (some op.origin), if op.storagesOrigin rawStorageKey = ∅ then before.2.1
    else some (before.2.1.getD ∅ ∪ op.storagesOrigin rawStorageKey), op.code.or before.2.2)

theorem origins_addDelete (u : StateUpdate) (k : Hash) (op : AccountDelete) (a : Address) :
    (u.addDelete (k, op)).origins a =
      if a = op.address then op.origins (u.origins a) else u.origins a := by
  by_cases ha : a = op.address
  · subst ha
    simp only [origins, AccountDelete.origins, addDelete, if_true, lookup_insert]
    split <;> simp
  · simp only [origins, addDelete, if_neg ha, lookup_insert_of_ne _ ha]
    split <;> simp [ha]

theorem origins_addUpdate (u : StateUpdate) (k : Hash) (op : AccountUpdate) (a : Address) :
    (u.addUpdate (k, op)).origins a =
      if a = op.address then op.origins u.rawStorageKey (u.origins a) else u.origins a := by
  have hset : (if u.rawStorageKey then op.storagesOriginByKey else op.storagesOriginByHash) =
    op.storagesOrigin u.rawStorageKey := rfl
  simp only [origins, AccountUpdate.origins, addUpdate, hset]
  generalize op.storagesOrigin u.rawStorageKey = slots
  by_cases ha : a = op.address
  · subst ha
    rw [if_pos rfl]
    refine Prod.ext ?_ (Prod.ext ?_ ?_)
    · by_cases hmem : op.address ∈ u.accountsOrigin
      · obtain ⟨origin, horigin⟩ := mem_iff.mp hmem
        simp only [if_pos hmem, horigin, some_or]
      · simp only [if_neg hmem, lookup_insert, lookup_eq_none.mpr hmem, none_or]
    · by_cases hempty : slots = ∅ <;> simp [hempty]
    · cases op.code <;> simp
  · rw [if_neg ha]
    refine Prod.ext ?_ (Prod.ext ?_ ?_)
    · split <;> simp [ha]
    · by_cases hempty : slots = ∅ <;> simp [hempty, ha]
    · cases op.code <;> simp [ha]

variable (ord : RangeOrder Hash) (rawStorageKey : Bool) (originRoot root : Hash) (block : U64)
  (deletes : GoMap Hash AccountDelete) (updates : GoMap Hash AccountUpdate)
  (wasms : GoMap Hash ActivatedWasm)

/-- What `newStateUpdate` files under a hash. -/
theorem hashed_newStateUpdate (k : Hash) :
    let u := newStateUpdate ord rawStorageKey originRoot root block deletes updates wasms
    u.accounts.lookup k = (updates.lookup k).elim ((deletes.lookup k).map fun _ => none)
        (fun op => some (some op.data)) ∧
      (u.storages.lookup k).getD ∅ =
        (updates.lookup k).elim ∅ (·.storages) ∪ (deletes.lookup k).elim ∅ (·.storages) := by
  have hdel := (foldl_range (fun _ : StateUpdate => True) ord deletes
    (fun u k => (u.accounts.lookup k, (u.storages.lookup k).getD ∅)) addDelete
    (fun _ op before => (some none, if op.storages = ∅ then before.2 else op.storages))
    (s := ⟨originRoot, root, block, ∅, ∅, ∅, ∅, rawStorageKey, ∅, wasms⟩)
    (by
      intro u j op _ _
      refine ⟨trivial, ?_, fun i hi => ?_⟩
      · simp only [addDelete]
        split <;> simp
      · simp only [addDelete]
        split <;> simp [lookup_insert_of_ne _ hi]) trivial).2 k
  have hupd := (foldl_range (fun _ : StateUpdate => True) ord updates
    (fun u k => (u.accounts.lookup k, (u.storages.lookup k).getD ∅)) addUpdate
    (fun _ op before => (some (some op.data), op.storages ∪ before.2))
    (s := (range ord deletes).foldl addDelete
      ⟨originRoot, root, block, ∅, ∅, ∅, ∅, rawStorageKey, ∅, wasms⟩)
    (by
      intro u j op _ _
      refine ⟨trivial, ?_, fun i hi => ?_⟩
      · simp only [addUpdate]
        split
        · rename_i hempty
          simp [hempty]
        · simp
      · simp only [addUpdate]
        split <;> simp [lookup_insert_of_ne _ hi]) trivial).2 k
  rw [hdel] at hupd
  obtain ⟨haccounts, hstorages⟩ := Prod.mk.inj hupd
  have hempty : ∀ m : GoMap Hash (Option Hash), (if m = ∅ then ∅ else m) = m := fun m => by
    split_ifs with h <;> simp [h]
  refine ⟨haccounts.trans ?_, hstorages.trans ?_⟩ <;>
    cases deletes.lookup k <;> cases updates.lookup k <;> simp [hempty]

end

/-- A loop over a map that files what belongs to the accounts `M` under the hash of their
    address. -/
theorem origins_foldl {V : Type} (body : StateUpdate → Hash × V → StateUpdate)
    {owner : V → Address} {f : V → Origins → Origins} {raw : Bool} {M : Set Address}
    (hinj : Set.InjOn addrHash M) {m : GoMap Hash V}
    (hown : ∀ k v, m.lookup k = some v → owner v ∈ M ∧ addrHash (owner v) = k)
    (hbody : ∀ u k v, u.rawStorageKey = raw → (body u (k, v)).rawStorageKey = raw ∧
      ∀ a, (body u (k, v)).origins a = if a = owner v then f v (u.origins a) else u.origins a)
    (ord : RangeOrder Hash) {u : StateUpdate} (hu : u.rawStorageKey = raw) :
    ((range ord m).foldl body u).rawStorageKey = raw ∧
      (∀ a ∈ M, ((range ord m).foldl body u).origins a =
        (m.lookup (addrHash a)).elim (u.origins a) (f · (u.origins a))) ∧
      ∀ a ∉ M, ((range ord m).foldl body u).origins a = u.origins a := by
  obtain ⟨hraw, hout, hin⟩ := foldl_range_at (fun u : StateUpdate => u.rawStorageKey = raw) ord m
    (fun _ => owner) origins body (fun _ => f) (s := u)
    (fun k v k' v' hv hv' heq => by rw [← (hown k v hv).2, heq, (hown k' v' hv').2])
    (fun u k v _ hu => ⟨(hbody u k v hu).1, by rw [(hbody u k v hu).2, if_pos rfl],
      fun a ha => by rw [(hbody u k v hu).2, if_neg ha]⟩) hu
  refine ⟨hraw, fun a ha => ?_, fun a ha => hout a fun k v hv heq => ha (heq ▸ (hown k v hv).1)⟩
  cases hm : m.lookup (addrHash a) with
  | some v =>
    obtain rfl := hinj (hown _ v hm).1 ha (hown _ v hm).2
    exact hin _ v hm
  | none =>
    refine hout a fun k v hv heq => ?_
    rw [← heq, (hown k v hv).2, hv] at hm
    cases hm

/-- **`newStateUpdate`, account by account**, for deletions and updates of the accounts `M`
    that are filed under the hash of their address. -/
theorem entry_newStateUpdate (ord : RangeOrder Hash) (rawStorageKey : Bool)
    (originRoot root : Hash) (block : U64) {deletes : GoMap Hash AccountDelete}
    {updates : GoMap Hash AccountUpdate} (wasms : GoMap Hash ActivatedWasm) {M : Set Address}
    (hinj : Set.InjOn addrHash M)
    (hdeletes : ∀ k op, deletes.lookup k = some op → op.address ∈ M ∧ addrHash op.address = k)
    (hupdates : ∀ k op, updates.lookup k = some op → op.address ∈ M ∧ addrHash op.address = k) :
    let u := newStateUpdate ord rawStorageKey originRoot root block deletes updates wasms
    u.rawStorageKey = rawStorageKey ∧ (∀ a ∈ M, u.entry a =
      .merge rawStorageKey (deletes.lookup (addrHash a)) (updates.lookup (addrHash a))) ∧
      ∀ a ∉ M, u.origins a = (none, none, none) := by
  obtain ⟨hraw, hdel, hdout⟩ := origins_foldl addDelete hinj hdeletes
    (fun u k op hu => ⟨hu, origins_addDelete u k op⟩) ord
    (u := ⟨originRoot, root, block, ∅, ∅, ∅, ∅, rawStorageKey, ∅, wasms⟩) rfl
  obtain ⟨hraw, hupd, huout⟩ := origins_foldl addUpdate hinj hupdates
    (fun u k op hu => ⟨hu, hu ▸ origins_addUpdate u k op⟩) ord hraw
  refine ⟨hraw, fun a ha => ?_, fun a ha => ((huout a ha).trans (hdout a ha)).trans
    (by simp [origins])⟩
  have horigins := hupd a ha
  rw [hdel a ha] at horigins
  obtain ⟨h₁, h₂⟩ := Prod.mk.inj horigins
  obtain ⟨h₂, h₃⟩ := Prod.mk.inj h₂
  obtain ⟨haccount, hstorages⟩ := hashed_newStateUpdate ord rawStorageKey originRoot root block
    deletes updates wasms (addrHash a)
  refine UpdateEntry.ext haccount (h₁.trans ?_) hstorages ((congrArg (getD · ∅) h₂).trans ?_)
    (h₃.trans ?_) <;> cases deletes.lookup (addrHash a) <;> cases updates.lookup (addrHash a) <;>
    simp [UpdateEntry.merge, origins, AccountDelete.origins, AccountUpdate.origins] <;>
    split_ifs <;> simp [*]

/-! ### Deletions -/

namespace StateDB

omit [Crypto] in
theorem wipedSlots_spec (ord : RangeOrder Hash) (content : GoMap Hash Hash) (k : Hash) :
    (wipedSlots ord content).1.lookup k = (content.lookup k).map (fun _ => none) ∧
      (wipedSlots ord content).2.lookup k = (content.lookup k).map some := by
  have hloop := (foldl_range
    (fun _ : GoMap Hash (Option Hash) × GoMap Hash (Option Hash) => True) ord content
    (fun st k => (st.1.lookup k, st.2.lookup k))
    (fun st e => (st.1.insert e.1 none, st.2.insert e.1 (some e.2)))
    (fun _ slot _ => (some none, some (some slot))) (s := (∅, ∅))
    (by
      intro st key slot _ _
      refine ⟨trivial, by simp, fun j hj => ?_⟩
      simp [lookup_insert_of_ne _ hj]) trivial).2 k
  obtain ⟨h₁, h₂⟩ := Prod.mk.inj hloop
  refine ⟨h₁.trans ?_, h₂.trans ?_⟩ <;> cases content.lookup k <;> simp

/-- `op` deletes the account `a` of the flat state `R` with all its slots.  With raw
    storage keys there are none. -/
structure DeleteOf (R : Flat StateAccount) (rawStorageKey : Bool) (a : Address)
    (op : AccountDelete) : Prop where
  address : op.address = a
  origin : (R.account (addrHash a)).map slimAccountRLP = some op.origin
  storages : ∀ k, op.storages.lookup k = (R.storage (addrHash a) k).map fun _ => none
  storagesOrigin : ∀ k, op.storagesOrigin.lookup k = (R.storage (addrHash a) k).map some
  raw : rawStorageKey = true → ∀ k, R.storage (addrHash a) k = none

/-- The deletion reported for an account, if it was destructed and `R` has it. -/
def DeletePart (R : Flat StateAccount) (raw : Bool) (a : Address) (held : Held)
    (delete : Option AccountDelete) : Prop :=
  ((held.destruct = none ∨ R.account (addrHash a) = none) ∧ delete = none) ∨
    (held.destruct.isSome = true ∧ ∃ op, DeleteOf R raw a op ∧ delete = some op)

/-- The update reported for an account, if it was updated. -/
def UpdatePart (a : Address) (held : Held) (update : Option AccountUpdate) : Prop :=
  ((∀ applied, held.mutation ≠ some ⟨.update, applied⟩) ∧ update = none) ∨
    ((∃ applied, held.mutation = some ⟨.update, applied⟩) ∧
      ∃ obj op, held.object = some obj ∧ obj.Reports a op ∧ update = some op)

section
variable {R : Flat StateAccount} {root : Hash} {db : Database} {reader : Reader} {s t : StateDB}

/-- Both ways to list the slots of an account list those of the flat state. -/
theorem InBlock.deleteStorage (hR : Serves R root db reader) (hs : InBlock R root db reader s)
    {acct : StateAccount} (hacct : R.account (addrHash a) = some acct) {content : GoMap Hash Hash}
    (h : s.deleteStorage a (addrHash a) acct.root = .ok content) (k : Hash) :
    content.lookup k = R.storage (addrHash a) k := by
  have hslow : s.slowDeleteStorage a acct.root = .ok content →
      content.lookup k = R.storage (addrHash a) k := by
    intro hslow
    obtain ⟨content', hopen, hcontent⟩ := hR.openStorageTrie a acct hacct
    unfold slowDeleteStorage at hslow
    rw [hs.db, hs.root, hopen] at hslow
    cases hslow
    exact hcontent k
  unfold StateDB.deleteStorage at h
  split at h
  · exact hslow h
  rename_i snaps hsnaps
  split at h
  · rename_i content' hfast
    cases h
    unfold fastDeleteStorage at hfast
    rw [hs.db, hs.root] at hfast
    rw [hs.db] at hsnaps
    cases hread : snaps root (addrHash a) with
    | error cause =>
      rw [hread] at hfast
      cases hfast
    | ok found =>
      rw [hread] at hfast
      change (if db.hashStorageTrie found = acct.root then Except.ok found
        else .error "snapshot is not matched") = .ok content at hfast
      split at hfast
      · rename_i hhash
        cases hfast
        exact hR.snapshot snaps a acct content hsnaps hacct hread hhash k
      · cases hfast
  · exact hslow h

variable {ord : MapOrders}

/-- One pass of `handleDestruction`. -/
theorem InBlock.handleDestruct (hR : Serves R root db reader) (hs : InBlock R root db reader s)
    {raw : Bool} {deletes deletes' : GoMap Hash AccountDelete} {obj : StateObject}
    (hobj : s.stateObjectsDestruct.lookup a = some obj)
    (h : handleDestruct ord raw s deletes (a, obj) = .ok deletes') :
    (R.account (addrHash a) = none ∧ deletes' = deletes) ∨
      ∃ op, DeleteOf R raw a op ∧ deletes' = deletes.insert (addrHash a) op := by
  have horigin : obj.origin = R.account (addrHash a) := (hs.held a).destruct obj hobj
  unfold StateDB.handleDestruct at h
  cases hacct : R.account (addrHash a) with
  | none =>
    simp only [horigin, hacct] at h
    cases h
    exact .inl ⟨rfl, rfl⟩
  | some acct =>
    simp only [horigin, hacct] at h
    split at h
    · rename_i hempty
      cases h
      have hnone := hR.storage_of_emptyRoot hacct hempty
      refine .inr ⟨_, ⟨rfl, by rw [hacct]; rfl, fun k => ?_, fun k => ?_, fun _ => hnone⟩, rfl⟩ <;>
        simp [hnone k]
    · split at h
      · cases h
      rename_i hraw
      split at h
      · cases h
      rename_i content hdelete
      cases h
      have hcontent := hs.deleteStorage hR hacct hdelete
      refine .inr ⟨_, ⟨rfl, by rw [hacct]; rfl, fun k => ?_, fun k => ?_,
        fun h => absurd h hraw⟩, rfl⟩
      · rw [← hcontent k]
        exact (wipedSlots_spec (ord.slot a) content k).1
      · rw [← hcontent k]
        exact (wipedSlots_spec (ord.slot a) content k).2

theorem InBlock.mutated_of_destruct (hs : InBlock R root db reader s) (a : Address)
    (obj : StateObject) (hobj : s.stateObjectsDestruct.lookup a = some obj) : a ∈ s.mutations := by
  by_contra hnot
  have hnone : s.stateObjectsDestruct.lookup a = none :=
    (hs.held a).marked (lookup_eq_none.mpr hnot)
  rw [hobj] at hnone
  cases hnone

/-- **`handleDestruction`** deletes the destructed accounts the flat state has. -/
theorem InBlock.handleDestruction (hR : Serves R root db reader) (hs : InBlock R root db reader s)
    (hinj : Set.InjOn addrHash {a | a ∈ s.mutations}) {raw : Bool}
    {deletes : GoMap Hash AccountDelete} (h : s.handleDestruction ord raw = .ok deletes) :
    (∀ k op, deletes.lookup k = some op → op.address ∈ s.mutations ∧ addrHash op.address = k) ∧
      ∀ a ∈ s.mutations, DeletePart R raw a (s.held a) (deletes.lookup (addrHash a)) := by
  have hmutated := hs.mutated_of_destruct
  unfold StateDB.handleDestruction at h
  have hsome := congrArg Except.toOption h
  rw [foldlM_toOption] at hsome
  obtain ⟨hown, hout, hin⟩ := foldlM_range_at
    (fun deletes : GoMap Hash AccountDelete =>
      ∀ k op, deletes.lookup k = some op → op.address ∈ s.mutations ∧ addrHash op.address = k)
    ord.account s.stateObjectsDestruct (fun a _ => addrHash a) (fun deletes k => deletes.lookup k)
    (fun deletes e => (StateDB.handleDestruct ord raw s deletes e).toOption)
    (fun a _ before after => (R.account (addrHash a) = none ∧ after = before) ∨
      ∃ op, DeleteOf R raw a op ∧ after = some op)
    (fun a obj b obj' ha hb => hinj (hmutated a obj ha) (hmutated b obj' hb))
    (by
      intro deletes deletes' a obj hobj hown hbody
      cases hpass : StateDB.handleDestruct ord raw s deletes (a, obj) with
      | error err =>
        rw [hpass] at hbody
        cases hbody
      | ok found =>
        rw [hpass] at hbody
        cases hbody
        rcases hs.handleDestruct hR hobj hpass with ⟨hacct, rfl⟩ | ⟨op, hop, rfl⟩
        · exact ⟨hown, .inl ⟨hacct, rfl⟩, fun _ _ => rfl⟩
        refine ⟨forall_insert hown ?_, .inr ⟨op, hop, lookup_insert _⟩,
          fun k hk => lookup_insert_of_ne _ hk⟩
        rw [hop.address]
        exact ⟨hmutated a obj hobj, rfl⟩)
    (fun k op hk => by simp at hk) hsome
  refine ⟨hown, fun a ha => ?_⟩
  cases hd : s.stateObjectsDestruct.lookup a with
  | none =>
    refine .inl ⟨.inl hd, (hout _ fun b obj hb heq => ?_).trans (by simp)⟩
    rw [hinj (hmutated b obj hb) ha heq, hd] at hb
    cases hb
  | some obj =>
    rcases hin a obj hd with ⟨hacct, hnone⟩ | ⟨op, hop, hsome⟩
    · exact .inl ⟨.inr hacct, hnone.trans (by simp)⟩
    · exact .inr ⟨by simp [StateDB.held, hd], op, hop, hsome⟩

/-! ### Updates -/

/-- An error ends the loop of `commit` over the mutated accounts. -/
theorem foldlM_commitAccount_error (ord : MapOrders) (xs : List (Address × Mutation))
    (s : StateDB) (err : CommitError) :
    xs.foldlM (commitAccount ord) (s, .error err) = some (s, .error err) := by
  induction xs with
  | nil => rfl
  | cons x xs ih => exact ih

/-- One pass of the loop, as a step that stops at the first error. -/
def commitUpdate (ord : MapOrders) (st : StateDB × GoMap Hash AccountUpdate)
    (mutated : Address × Mutation) : Option (StateDB × GoMap Hash AccountUpdate) :=
  (commitAccount ord (st.1, .ok st.2) mutated).bind fun r => r.2.toOption.map (Prod.mk r.1)

theorem foldlM_commitAccount_ok {xs : List (Address × Mutation)} {q : StateDB}
    {updates updates' : GoMap Hash AccountUpdate}
    (h : xs.foldlM (commitAccount ord) (s, .ok updates) = some (q, .ok updates')) :
    xs.foldlM (commitUpdate ord) (s, updates) = some (q, updates') := by
  induction xs generalizing s updates with
  | nil =>
    cases h
    rfl
  | cons x xs ih =>
    rw [List.foldlM_cons] at h ⊢
    obtain ⟨⟨r, result⟩, hr, h⟩ := bind_eq_some_iff.mp h
    cases result with
    | error err =>
      rw [foldlM_commitAccount_error] at h
      cases h
    | ok found =>
      have hpass : commitUpdate ord (s, updates) x = some (r, found) := by
        simp [commitUpdate, hr, Except.toOption]
      rw [hpass]
      exact ih h

theorem commitUpdate_cases {st st' : StateDB × GoMap Hash AccountUpdate} {m : Mutation}
    (h : commitUpdate ord st (a, m) = some st') :
    (m.typ = .deletion ∧ st' = st) ∨
      (m.typ = .update ∧ ∃ obj obj' op, st.1.stateObjects.lookup a = some obj ∧
        obj.commit (ord.slot a) st.1.db a = some (op, obj') ∧
        st' = (st.1.setStateObject a obj', st.2.insert (addrHash a) op)) := by
  obtain ⟨typ, applied⟩ := m
  obtain ⟨⟨r, result⟩, hr, h⟩ := bind_eq_some_iff.mp h
  cases typ with
  | deletion =>
    cases h
    exact .inl ⟨rfl, rfl⟩
  | update =>
    simp only [commitAccount] at hr
    split at hr
    · cases hr
      cases h
    rename_i obj hlive
    obtain ⟨⟨op, obj'⟩, hcommit, heq⟩ := map_eq_some_iff.mp hr
    cases heq
    cases h
    exact .inr ⟨rfl, obj, obj', op, hlive, hcommit, rfl⟩

/-- The loop of `commit` over the mutated accounts reports every updated object. -/
theorem commitAccounts_spec (hkeys : s.KeysInjective) {q : StateDB}
    {updates : GoMap Hash AccountUpdate}
    (h : (range ord.account s.mutations).foldlM (commitAccount ord) (s, .ok ∅) =
      some (q, .ok updates)) :
    q.opened = s.opened ∧
      (∀ k op, updates.lookup k = some op → op.address ∈ s.mutations ∧ addrHash op.address = k) ∧
      (∀ a, Option.Rel StateObject.SameStorage (s.stateObjects.lookup a)
        (q.stateObjects.lookup a)) ∧
      ∀ a ∈ s.mutations, UpdatePart a (s.held a) (updates.lookup (addrHash a)) := by
  obtain ⟨⟨hopened, hown⟩, hout, hin⟩ := foldlM_range
    (fun st : StateDB × GoMap Hash AccountUpdate => st.1.opened = s.opened ∧
      ∀ k ∈ st.2, ∃ a ∈ s.mutations, addrHash a = k) ord.account s.mutations
    (fun st a => (st.1.stateObjects.lookup a,
      if a ∈ s.mutations then st.2.lookup (addrHash a) else none)) (commitUpdate ord)
    (fun a m before after => (m.typ = .deletion ∧ after = before) ∨
      (m.typ = .update ∧ ∃ obj obj' op, before.1 = some obj ∧ after.1 = some obj' ∧
        obj.SameStorage obj' ∧ (Set.InjOn slotHash {key | key ∈ obj.pendingStorage} →
          obj.Reports a op) ∧ after.2 = some op))
    (by
      rintro st st' a m hm ⟨hopened, hown⟩ hbody
      have ha := mem_of_lookup_eq_some hm
      rcases commitUpdate_cases hbody with ⟨hm, rfl⟩ | ⟨hm, obj, obj', op, hlive, hcommit, rfl⟩
      · exact ⟨⟨hopened, hown⟩, .inl ⟨hm, rfl⟩, fun _ _ => rfl⟩
      refine ⟨⟨hopened, fun k hk => ?_⟩,
        .inr ⟨hm, obj, obj', op, hlive, lookup_insert _, StateObject.commit_sameStorage hcommit,
          fun hinj => StateObject.commit_reports hinj hcommit,
          (if_pos ha).trans (lookup_insert _)⟩, fun b hb => ?_⟩
      · rcases mem_insert.mp hk with rfl | hk
        · exact ⟨a, ha, rfl⟩
        · exact hown k hk
      · by_cases hmem : b ∈ s.mutations
        · have hhash := hkeys.addr.ne (.inl hmem) (.inl ha) hb
          simp [setStateObject, lookup_insert_of_ne _ hb, lookup_insert_of_ne _ hhash]
        · simp [setStateObject, lookup_insert_of_ne _ hb, hmem])
    ⟨rfl, fun k hk => absurd hk notMem_empty⟩ (foldlM_commitAccount_ok h)
  have hcases : ∀ a,
      ((∀ applied, s.mutations.lookup a ≠ some ⟨.update, applied⟩) ∧
        q.stateObjects.lookup a = s.stateObjects.lookup a ∧
        (a ∈ s.mutations → updates.lookup (addrHash a) = none)) ∨
      ((∃ applied, s.mutations.lookup a = some ⟨.update, applied⟩) ∧
        ∃ obj obj' op, s.stateObjects.lookup a = some obj ∧ q.stateObjects.lookup a = some obj' ∧
          obj.SameStorage obj' ∧ obj.Reports a op ∧ updates.lookup (addrHash a) = some op) := by
    intro a
    cases hm : s.mutations.lookup a with
    | none =>
      obtain ⟨hobject, -⟩ := Prod.mk.inj (hout a hm)
      exact .inl ⟨by simp, hobject, fun ha => absurd ha (lookup_eq_none.mp hm)⟩
    | some m =>
      obtain ⟨typ, applied⟩ := m
      have ha := mem_of_lookup_eq_some hm
      rcases hin a _ hm with ⟨rfl, hsame⟩ |
        ⟨rfl, obj, obj', op, hlive, hlive', hsame, hreports, hop⟩
      · obtain ⟨hobject, hnone⟩ := Prod.mk.inj hsame
        exact .inl ⟨by simp, hobject, fun _ => by simpa [ha] using hnone⟩
      · exact .inr ⟨⟨applied, rfl⟩, obj, obj', op, hlive, hlive', hsame,
          hreports ((hkeys.slot a obj hlive).mono fun _ => .inl), by simpa [ha] using hop⟩
  refine ⟨hopened, fun k op hk => ?_, fun a => ?_, fun a ha => ?_⟩
  · obtain ⟨a, ha, rfl⟩ := hown k (mem_of_lookup_eq_some hk)
    rcases hcases a with ⟨-, -, hnone⟩ | ⟨-, _, _, op', -, -, -, hreports, hop'⟩
    · rw [hnone ha] at hk
      cases hk
    · rw [hop'] at hk
      cases hk
      rw [hreports.address]
      exact ⟨ha, rfl⟩
  · rcases hcases a with ⟨-, hobject, -⟩ | ⟨-, obj, obj', -, hlive, hlive', hstorage, -⟩
    · rw [hobject]
      cases s.stateObjects.lookup a with
      | none => exact .none
      | some obj => exact .some ⟨rfl, fun _ => rfl⟩
    · rw [hlive, hlive']
      exact .some hstorage
  · rcases hcases a with ⟨hm, -, hnone⟩ | ⟨hm, obj, -, op, hlive, -, -, hreports, hsome⟩
    · exact .inl ⟨hm, hnone ha⟩
    · exact .inr ⟨hm, obj, op, hlive, hreports, hsome⟩

/-! ### Commit -/

/-- What a `stateUpdate` says about the account `a`, for a state that holds `held` for
    it: the deletion of the account of the flat state, if it was destructed, merged
    with the report of its object, if it was updated. -/
def Committed (R : Flat StateAccount) (raw : Bool) (a : Address) (held : Held)
    (entry : UpdateEntry) : Prop :=
  ∃ delete update, entry = .merge raw delete update ∧ DeletePart R raw a held delete ∧
    UpdatePart a held update

/-- **What `commit` reports**, account by account, when it does not fail.  `r` is the
    state after the trie writes. -/
theorem InBlock.commit (hR : Serves R root db reader) (hs : InBlock R root db reader s)
    (hkeys : s.KeysInjective) {del raw : Bool} {block : U64} {u : StateUpdate}
    (h : s.commit ord del raw block = some (.ok u, t)) :
    s.dbErr = none ∧ ∃ r hash tr, s.intermediateRoot ord del = some (hash, r) ∧
      InBlock R root db reader r ∧ r.KeysInjective ∧ u.rawStorageKey = raw ∧
      (∀ a ∈ r.mutations, Committed R raw a (r.held a) (u.entry a)) ∧
      (∀ a ∉ r.mutations, u.origins a = (none, none, none)) ∧
      r.trie = some tr ∧ t.trie = some tr.commit ∧ t.db = db ∧
      (∀ a, Option.Rel StateObject.SameStorage (r.stateObjects.lookup a)
        (t.stateObjects.lookup a)) ∧
      ∀ k, (∀ a ∈ r.mutations, addrHash a ≠ k) →
        u.accounts.lookup k = none ∧ (u.storages.lookup k).getD ∅ = ∅ := by
  unfold StateDB.commit at h
  split at h
  · cases h
  split at h
  · cases h
  rename_i herr
  obtain ⟨⟨hash, r⟩, hr, h⟩ := bind_eq_some_iff.mp h
  obtain ⟨hblock, hkeys, -⟩ := hs.intermediateRoot hR hkeys hr
  simp only at h
  split at h
  · cases h
  split at h
  · cases h
  rename_i deletes hdeletes
  obtain ⟨tr, htr, h⟩ := bind_eq_some_iff.mp h
  obtain ⟨⟨q, result⟩, hq, h⟩ := bind_eq_some_iff.mp h
  split at h
  · cases h
  rename_i updates heq
  obtain ⟨rfl, rfl⟩ := Prod.mk.inj heq
  cases h
  have hinj : Set.InjOn addrHash {a | a ∈ r.mutations} := hkeys.addr.mono fun _ => .inl
  obtain ⟨hdelown, hdel⟩ := hblock.handleDestruction hR hinj hdeletes
  obtain ⟨hopened, hupdown, hobjects, hupd⟩ :=
    commitAccounts_spec (s := { r with trie := some tr.commit }) ⟨hkeys.addr, hkeys.slot⟩ hq
  obtain ⟨hraw, hentries, horigins⟩ := entry_newStateUpdate ord.hash raw q.originalRoot
    (r.db.hashTrie tr.content) block q.activatedWasms hinj hdelown hupdown
  refine ⟨herr, r, hash, tr, hr, hblock, hkeys, hraw, fun a ha => ?_,
    horigins, htr, congrArg (·.2.2.2) hopened, (congrArg (·.1) hopened).trans hblock.db, hobjects,
    fun k hk => ?_⟩
  · exact ⟨_, _, hentries a ha, hdel a ha, hupd a ha⟩
  · have hdelete : deletes.lookup k = none := eq_none_iff_forall_ne_some.mpr fun op hl =>
      hk _ (hdelown k op hl).1 (hdelown k op hl).2
    have hupdate : updates.lookup k = none := eq_none_iff_forall_ne_some.mpr fun op hl =>
      hk _ (hupdown k op hl).1 (hupdown k op hl).2
    have hhashed := hashed_newStateUpdate ord.hash raw q.originalRoot (r.db.hashTrie tr.content)
      block deletes updates q.activatedWasms k
    rw [hdelete, hupdate] at hhashed
    exact hhashed

end

section
omit [Crypto]

/-- The state after the one account of `oneSlot` is destructed and comes back with
    another slot and with code. -/
def resurrected : StateDB :=
  letI := numberCrypto
  let s := ((new 1 oneSlotDB oneSlotReader).selfDestruct 7).2.finalise .ascending true
  ((s.addBalance 7 1).2.setState 7 4 5).2.setCode 7 [1]

theorem resurrected_run :
    letI := numberCrypto
    Run BlockOp (new 1 oneSlotDB oneSlotReader)
      [.selfDestruct 7, .finalise .ascending true, .addBalance 7 1, .setState 7 4 5,
        .setCode 7 [1]] resurrected := by
  let _ : Crypto := numberCrypto
  exact .cons trivial rfl (.cons (numberCrypto_keysInjective _) rfl (.cons trivial rfl
    (.cons trivial rfl (.cons trivial rfl (.nil _)))))

theorem resurrected_commit :
    letI := numberCrypto
    ∃ u t, resurrected.commit .ascending true false 0 = some (.ok u, t) := by
  let _ : Crypto := numberCrypto
  have hok : (resurrected.commit .ascending true false 0).map (fun p => p.1.toOption.isSome) =
      some true := by decide +kernel
  obtain ⟨⟨result, t⟩, hcommit, hsome⟩ := map_eq_some_iff.mp hok
  cases result with
  | error err => cases hsome
  | ok u => exact ⟨u, t, hcommit⟩

end

end StateDB

end GethArb
