/-
  **`StateDiff` and `commit` describe the same block.**  The two derive the changes
  of a block from different maps: `StateDiff` lists destructed accounts and
  expects the receiver to wipe their storage, `commit` wipes slot by slot and
  merges deletions with updates.  Applied to the flat state the block started
  from, both give the same flat state, and they report the same new codes
  (`stateDiff_agrees_with_commit`).
-/
import GethArb.CommitUpdate

namespace GethArb

open GoMap Finmap Option Flat StateDB Held

variable [Crypto]

/-! ### Applying the two to a flat state -/

/-- An account without its storage root. -/
structure AccountCore where
  nonce : U64
  balance : U256
  codeHash : Hash
deriving DecidableEq, Repr

omit [Crypto] in
def StateAccount.core (acct : StateAccount) : AccountCore :=
  ⟨acct.nonce, acct.balance, acct.codeHash⟩

def SlimAccount.core (slim : SlimAccount) : AccountCore := (fullAccount slim).core

@[simp] theorem core_slimAccountRLP (acct : StateAccount) :
    (slimAccountRLP acct).core = acct.core := by
  rw [SlimAccount.core, fullAccount_slimAccountRLP]

omit [Crypto] in
/-- What is reported for a slot: nothing, its deletion, or its new value. -/
def reported (storages : GoMap Hash (GoMap Hash (Option Hash))) (h k : Hash) :
    Option (Option Hash) :=
  ((storages.lookup h).getD ∅).lookup k

namespace Flat

omit [Crypto] in
/-- The flat state without the storage roots. -/
def core (R : Flat StateAccount) : Flat AccountCore where
  account h := (R.account h).map StateAccount.core
  storage := R.storage

/-- Wipe the destructed accounts with all their storage, then write the accounts,
    then the slots, where `nil` deletes. -/
def applyDiff (F : Flat AccountCore) (d : StateDiff) : Flat AccountCore where
  account h :=
    match d.accounts.lookup h with
    | some acct => some acct.core
    | none => if h ∈ d.destructs then none else F.account h
  storage h k :=
    match reported d.storages h k with
    | some value => value
    | none => if h ∈ d.destructs then none else F.storage h k

/-- Write the accounts and the slots, where `nil` deletes. -/
def applyUpdate (F : Flat AccountCore) (u : StateUpdate) : Flat AccountCore where
  account h :=
    match u.accounts.lookup h with
    | some acct => acct.map SlimAccount.core
    | none => F.account h
  storage h k :=
    match reported u.storages h k with
    | some value => value
    | none => F.storage h k

end Flat

/-! ### What `StateDiff` reports -/

variable {s : StateDB} {ord : MapOrders} {obj : StateObject}

namespace StateDB

/-- The loop over the destructed accounts. -/
theorem mem_diffDestructs {M : Set Address} (hinj : Set.InjOn addrHash M)
    (ord : RangeOrder Address) {destruct : GoMap Address StateObject}
    (hM : ∀ a obj, destruct.lookup a = some obj → a ∈ M) :
    (∀ a ∈ M, addrHash a ∈ (range ord destruct).foldl diffDestruct ∅ ↔
        ∃ obj, destruct.lookup a = some obj ∧ obj.origin.isSome = true) ∧
      ∀ k, (∀ a ∈ M, addrHash a ≠ k) → k ∉ (range ord destruct).foldl diffDestruct ∅ := by
  obtain ⟨-, hout, hin⟩ := foldl_range_at (fun _ : Finset Hash => True) ord destruct
    (fun a _ => addrHash a) (fun destructs k => k ∈ destructs) diffDestruct
    (fun _ obj before => before ∨ obj.origin.isSome = true) (s := ∅)
    (fun a obj b obj' ha hb => hinj (hM a obj ha) (hM b obj' hb))
    (by
      intro destructs a obj _ _
      unfold diffDestruct
      cases horigin : obj.origin with
      | none => exact ⟨trivial, by simp, fun _ _ => rfl⟩
      | some prev => exact ⟨trivial, by simp, fun k hk => by simp [hk]⟩) trivial
  refine ⟨fun a ha => ?_, fun k hk => ?_⟩
  · cases hd : destruct.lookup a with
    | some obj => simp [hin a obj hd]
    | none =>
      rw [hout (addrHash a) fun b obj hb heq => ?_]
      · simp
      · rw [hinj (hM b obj hb) ha heq, hd] at hb
        cases hb
  · rw [hout k fun a obj ha => hk a (hM a obj ha)]
    exact Finset.notMem_empty k

/-- The loop over the pending slots of an account. -/
theorem diffSlots_spec (hinj : Set.InjOn slotHash {key | key ∈ obj.pendingStorage})
    (ord : RangeOrder Hash) (addr : Address)
    (storages : GoMap Hash (GoMap Hash (Option Hash))) :
    ∃ storages', (range ord obj.pendingStorage).foldl (diffSlot addr obj) storages =
        storages' ∧
      (∀ key ∈ obj.pendingStorage, reported storages' (addrHash addr) (slotHash key) =
        ((obj.changed key).map encode).or (reported storages (addrHash addr) (slotHash key))) ∧
      (∀ k, (∀ key ∈ obj.pendingStorage, slotHash key ≠ k) →
        reported storages' (addrHash addr) k = reported storages (addrHash addr) k) ∧
      ∀ h, h ≠ addrHash addr → storages'.lookup h = storages.lookup h := by
  obtain ⟨hother, hout, hin⟩ := foldl_range_at
    (fun st : GoMap Hash (GoMap Hash (Option Hash)) =>
      ∀ h, h ≠ addrHash addr → st.lookup h = storages.lookup h) ord obj.pendingStorage
    (fun key _ => slotHash key) (fun st k => reported st (addrHash addr) k) (diffSlot addr obj)
    (fun key value before => if value = obj.originStorage.get key then before
      else some (encode value)) (s := storages) (entries_inj hinj)
    (by
      intro st key value _ hother
      unfold diffSlot
      by_cases hv : value = obj.originStorage.get key
      · simp only [hv, if_true]
        exact ⟨hother, trivial, fun _ _ => trivial⟩
      simp only [hv, if_false]
      have hself : ∀ k, reported (st.insert (addrHash addr)
          (((st.lookup (addrHash addr)).getD ∅).insert (slotHash key) (encode value)))
            (addrHash addr) k =
          if k = slotHash key then some (encode value) else reported st (addrHash addr) k := by
        intro k
        simp only [reported, lookup_insert]
        exact lookup_insert_ite _ _ _ _
      refine ⟨fun h hh => ?_, ?_, fun k hk => ?_⟩
      · rw [lookup_insert_of_ne _ hh]
        exact hother h hh
      · rw [hself, if_pos rfl]
      · rw [hself, if_neg hk])
    fun _ _ => rfl
  refine ⟨_, rfl, fun key hkey => ?_, fun k hk => hout k fun key value hvalue =>
    hk key (mem_of_lookup_eq_some hvalue), hother⟩
  obtain ⟨value, hvalue⟩ := mem_iff.mp hkey
  rw [hin key value hvalue, StateObject.changed, hvalue]
  by_cases hv : value = obj.originStorage.get key
  · simp [hv, Option.filter]
  · simp [hv, Option.filter]

/-- `diff` reports the account `a` by the object, if it is updated. -/
def Diffed (a : Address) (held : Held) (diff : StateDiff) : Prop :=
  ((∀ applied, held.mutation ≠ some ⟨.update, applied⟩) ∧
      diff.accounts.lookup (addrHash a) = none ∧ ∀ k,
        reported diff.storages (addrHash a) k = none) ∨
    ((∃ applied, held.mutation = some ⟨.update, applied⟩) ∧
      ∃ obj, held.object = some obj ∧
        diff.accounts.lookup (addrHash a) = some (slimAccountRLP obj.data) ∧
        (∀ key ∈ obj.pendingStorage, reported diff.storages (addrHash a) (slotHash key) =
          (obj.changed key).map encode) ∧
        ∀ k, (∀ key ∈ obj.pendingStorage, slotHash key ≠ k) →
          reported diff.storages (addrHash a) k = none)

omit [Crypto] in
/-- The account `a` is updated in this block, and its object brings new code. -/
def NewCode (s : StateDB) (a : Address) (code : ContractCode) : Prop :=
  (∃ applied, (s.held a).mutation = some ⟨.update, applied⟩) ∧
    ∃ obj, (s.held a).object = some obj ∧ obj.dirtyCode = true ∧
      code = ⟨obj.data.codeHash, obj.code⟩

theorem diffAccount_cases {diff diff' : StateDiff} {a : Address} {m : Mutation}
    (h : s.diffAccount ord diff (a, m) = some diff') :
    (m.typ = .deletion ∧ diff' = diff) ∨
      (m.typ = .update ∧ ∃ obj, s.stateObjects.lookup a = some obj ∧
        diff' = { diff with
          accounts := diff.accounts.insert (addrHash a) (slimAccountRLP obj.data)
          codes := if obj.dirtyCode then diff.codes.insert obj.data.codeHash obj.code
            else diff.codes
          storages := (range (ord.slot a) obj.pendingStorage).foldl (diffSlot a obj)
            diff.storages }) := by
  obtain ⟨typ, applied⟩ := m
  cases typ with
  | deletion =>
    cases h
    exact .inl ⟨rfl, rfl⟩
  | update =>
    simp only [diffAccount] at h
    split at h
    · cases h
    · rename_i obj hlive
      cases h
      exact .inr ⟨rfl, obj, hlive, rfl⟩

/-- The loop of `StateDiff` over the mutated accounts. -/
theorem diffAccounts_spec (hkeys : s.KeysInjective) {destructs : Finset Hash} {diff : StateDiff}
    (h : (range ord.account s.mutations).foldlM (diffAccount ord s) ⟨destructs, ∅, ∅, ∅⟩ =
      some diff) :
    diff.destructs = destructs ∧ (∀ a ∈ s.mutations, Diffed a (s.held a) diff) ∧
      (∀ k, (∀ a ∈ s.mutations, addrHash a ≠ k) →
        diff.accounts.lookup k = none ∧ ∀ j, reported diff.storages k j = none) ∧
      ∀ hash blob, diff.codes.lookup hash = some blob → ∃ a, s.NewCode a ⟨hash, blob⟩ := by
  obtain ⟨⟨hdestructs, hcodes⟩, hout, hin⟩ := foldlM_range_at
    (fun diff : StateDiff => diff.destructs = destructs ∧
      ∀ hash blob, diff.codes.lookup hash = some blob → ∃ a, s.NewCode a ⟨hash, blob⟩)
    ord.account s.mutations (fun a _ => addrHash a)
    (fun diff k => (diff.accounts.lookup k, reported diff.storages k)) (diffAccount ord s)
    (fun a m before after => (m.typ = .deletion ∧ after = before) ∨
      (m.typ = .update ∧ ∃ obj, s.stateObjects.lookup a = some obj ∧
        after.1 = some (slimAccountRLP obj.data) ∧
        (∀ key ∈ obj.pendingStorage, after.2 (slotHash key) =
          ((obj.changed key).map encode).or (before.2 (slotHash key))) ∧
        ∀ k, (∀ key ∈ obj.pendingStorage, slotHash key ≠ k) → after.2 k = before.2 k))
    (entries_inj (hkeys.addr.mono fun _ => .inl))
    (by
      rintro diff diff' a m hm ⟨hdestructs, hcodes⟩ hbody
      rcases diffAccount_cases hbody with ⟨htyp, rfl⟩ | ⟨htyp, obj, hlive, rfl⟩
      · exact ⟨⟨hdestructs, hcodes⟩, .inl ⟨htyp, rfl⟩, fun _ _ => rfl⟩
      obtain ⟨storages, hstorages, hslots, hrest, hothers⟩ := diffSlots_spec
        ((hkeys.slot a obj hlive).mono fun _ => .inl) (ord.slot a) a diff.storages
      rw [hstorages]
      refine ⟨⟨hdestructs, fun hash blob hcode => ?_⟩,
        .inr ⟨htyp, obj, hlive, lookup_insert _, hslots, hrest⟩, fun k hk => ?_⟩
      · split at hcode
        · rename_i hdirty
          by_cases hhash : hash = obj.data.codeHash
          · subst hhash
            rw [lookup_insert] at hcode
            cases hcode
            refine ⟨a, ⟨m.applied, ?_⟩, obj, hlive, hdirty, rfl⟩
            rw [← htyp]
            exact hm
          · rw [lookup_insert_of_ne _ hhash] at hcode
            exact hcodes hash blob hcode
        · exact hcodes hash blob hcode
      · refine Prod.ext (lookup_insert_of_ne _ hk) (funext fun k => ?_)
        simp only [reported, hothers _ hk])
    ⟨rfl, fun hash blob hcode => by simp at hcode⟩ h
  refine ⟨hdestructs, fun a ha => ?_, fun k hk => ?_, hcodes⟩
  · obtain ⟨⟨typ, applied⟩, hm⟩ := mem_iff.mp ha
    rcases hin a _ hm with ⟨rfl, hsame⟩ | ⟨rfl, obj, hlive, haccount, hslots, hrest⟩
    · obtain ⟨haccount, hslots⟩ := Prod.mk.inj hsame
      exact .inl ⟨fun applied => by simp [held, hm], haccount.trans (by simp),
        fun k => (congrFun hslots k).trans (by simp [reported])⟩
    · refine .inr ⟨⟨applied, hm⟩, obj, hlive, haccount, fun key hkey => ?_, fun k hk => ?_⟩
      · exact (hslots key hkey).trans (by simp [reported])
      · exact (hrest k hk).trans (by simp [reported])
  · obtain ⟨haccount, hslots⟩ :=
      Prod.mk.inj (hout k fun a m hm => hk a (mem_of_lookup_eq_some hm))
    exact ⟨haccount.trans (by simp), fun j => (congrFun hslots j).trans (by simp [reported])⟩

/-- Every new code is filed under its hash. -/
theorem diffAccounts_codes {diff₀ diff : StateDiff}
    (h : (range ord.account s.mutations).foldlM (diffAccount ord s) diff₀ = some diff)
    {a : Address} {code : ContractCode} (hcode : s.NewCode a code) : code.hash ∈ diff.codes := by
  obtain ⟨⟨applied, hm⟩, obj, hlive, hdirty, rfl⟩ := hcode
  have hall := foldlM_establishes
    (fun (e : Address × Mutation) (diff : StateDiff) => e.2.typ = .update → ∀ obj,
      s.stateObjects.lookup e.1 = some obj → obj.dirtyCode = true →
      obj.data.codeHash ∈ diff.codes) (diffAccount ord s)
    (by
      rintro diff diff' ⟨b, m⟩ hbody htyp obj hlive hdirty
      rcases diffAccount_cases hbody with ⟨hdel, -⟩ | ⟨-, obj', hlive', rfl⟩
      · rw [htyp] at hdel
        cases hdel
      · rw [hlive] at hlive'
        cases hlive'
        simp only [hdirty]
        exact mem_insert.mpr (.inl rfl))
    (by
      rintro diff diff' e ⟨b, m⟩ hQ hbody htyp obj hlive hdirty
      have hold := hQ htyp obj hlive hdirty
      rcases diffAccount_cases hbody with ⟨-, rfl⟩ | ⟨-, obj', -, rfl⟩
      · exact hold
      · split
        · exact mem_insert.mpr (.inr hold)
        · exact hold)
    _ _ _ h (a, ⟨.update, applied⟩) (mem_range.mpr hm)
  exact hall rfl obj hlive hdirty

/-- The loop ends, if every updated account has its object. -/
theorem diffAccounts_some (ord : MapOrders) (diff₀ : StateDiff)
    (h : ∀ a applied, s.mutations.lookup a = some ⟨.update, applied⟩ →
      (s.stateObjects.lookup a).isSome = true) :
    ∃ diff, (range ord.account s.mutations).foldlM (diffAccount ord s) diff₀ = some diff := by
  obtain ⟨diff, hdiff, -⟩ := foldlM_pure_of (fun _ : StateDiff => True) (diffAccount ord s)
    (range ord.account s.mutations) diff₀
    (by
      rintro diff ⟨a, typ, applied⟩ hmem -
      cases typ with
      | deletion => exact ⟨diff, rfl, trivial⟩
      | update =>
        obtain ⟨obj, hobj⟩ := isSome_iff_exists.mp (h a applied (mem_range.mp hmem))
        exact ⟨_, by simp only [diffAccount, hobj]; rfl, trivial⟩) trivial
  exact ⟨diff, hdiff⟩

/-! ### The comparison -/

section
variable {R : Flat StateAccount} {root : Hash} {db : Database} {reader : Reader} {s t : StateDB}
  {held : Held} {a : Address}

/-- The trie writes leave alone what is reported of an object. -/
theorem written_object (hR : Serves R root db reader) (hheld : held.Tracks R a)
    (hslots : held.SlotsInjective) (ord : RangeOrder Hash) (h : held.object = some obj) :
    ∃ obj', (held.written ord db root a).object = some obj' ∧
      obj'.pendingStorage = obj.pendingStorage ∧ obj'.changed = obj.changed ∧
      obj'.data.core = obj.data.core ∧ obj'.data.codeHash = obj.data.codeHash ∧
      obj'.dirtyCode = obj.dirtyCode ∧ obj'.code = obj.code := by
  unfold written
  by_cases hm : held.mutation = some ⟨.update, false⟩
  · obtain ⟨trie, r, heq, -⟩ :=
      (hheld.object obj h).updateRoot hR ((hslots obj h).mono fun _ => .inl) ord
    refine ⟨obj.flushed trie r, ?_, rfl, rfl, rfl, rfl, rfl, rfl⟩
    simp [if_pos hm, h, heq]
  · exact ⟨obj, by simp only [if_neg hm, h], rfl, rfl, rfl, rfl, rfl, rfl⟩

theorem written_update (ord : RangeOrder Hash) (db : Database) (root : Hash) (a : Address)
    (held : Held) :
    (∃ applied, (held.written ord db root a).mutation = some ⟨.update, applied⟩) ↔
      ∃ applied, held.mutation = some ⟨.update, applied⟩ := by
  unfold written
  constructor
  · rintro ⟨applied, h⟩
    obtain ⟨⟨typ, b⟩, hm, heq⟩ := map_eq_some_iff.mp h
    cases heq
    exact ⟨b, hm⟩
  · rintro ⟨applied, h⟩
    exact ⟨true, by rw [h]; rfl⟩

variable {ord : RangeOrder Hash}

/-- The update part of what `commit` reports is what `StateDiff` reports. -/
theorem agree_update (hR : Serves R root db reader) (hheld : held.Tracks R a)
    (hslots : held.SlotsInjective) {d : StateDiff} {update : Option AccountUpdate}
    (hdiff : Diffed a held d) (hupd : UpdatePart a (held.written ord db root a) update) :
    (d.accounts.lookup (addrHash a)).map SlimAccount.core = update.map (·.data.core) ∧
      ∀ k, (update.elim ∅ (·.storages)).lookup k = reported d.storages (addrHash a) k := by
  have hiff := written_update ord db root a held
  rcases hdiff with ⟨hno, haccount, hnone⟩ | ⟨hyes, obj, hobj, haccount, hdiff, hforeign⟩
  · rcases hupd with ⟨-, rfl⟩ | ⟨hupdate, -⟩
    · exact ⟨by rw [haccount]; rfl, fun k => by simp [hnone k]⟩
    · obtain ⟨applied, hm⟩ := hiff.mp hupdate
      exact absurd hm (hno applied)
  rcases hupd with ⟨hnot, -⟩ | ⟨-, obj₁, op, hobj₁, hreports, rfl⟩
  · obtain ⟨applied, hm⟩ := hiff.mpr hyes
    exact absurd hm (hnot applied)
  obtain ⟨obj', hobj', hpending, hchanged, hcore, -⟩ := written_object hR hheld hslots ord hobj
  rw [hobj₁] at hobj'
  cases hobj'
  refine ⟨?_, fun k => ?_⟩
  · rw [haccount, map_some, map_some, hreports.data, core_slimAccountRLP,
      core_slimAccountRLP, hcore]
  · by_cases hk : ∃ key ∈ obj.pendingStorage, slotHash key = k
    · obtain ⟨key, hkey, rfl⟩ := hk
      exact (hreports.storages key (hpending ▸ hkey)).trans (by rw [hchanged, hdiff key hkey])
    · have hk : ∀ key ∈ obj.pendingStorage, slotHash key ≠ k := fun key hkey heq =>
        hk ⟨key, hkey, heq⟩
      exact (hreports.foreign k (hpending ▸ hk)).1.trans (hforeign k hk).symm

/-- What both reports say about one account, side by side. -/
theorem agree_at (hR : Serves R root db reader) (hheld : held.Tracks R a)
    (hslots : held.SlotsInjective) {raw : Bool} {d : StateDiff} {u : StateUpdate}
    (hdestruct : addrHash a ∈ d.destructs ↔ ∃ obj, held.destruct = some obj ∧
      obj.origin.isSome = true)
    (hdiff : Diffed a held d)
    (hcommit : Committed R raw a (held.written ord db root a) (u.entry a)) :
    (R.core.applyDiff d).account (addrHash a) = (R.core.applyUpdate u).account (addrHash a) ∧
      (R.core.applyDiff d).storage (addrHash a) = (R.core.applyUpdate u).storage (addrHash a) := by
  obtain ⟨delete, update, hentry, hdel, hupd⟩ := hcommit
  obtain ⟨hcore, hslots⟩ := agree_update hR hheld hslots hdiff hupd
  have haccount : u.accounts.lookup (addrHash a) =
      update.elim (delete.map fun _ => none) fun op => some (some op.data) :=
    congrArg UpdateEntry.account hentry
  have hstorages : ∀ k, reported u.storages (addrHash a) k =
      (reported d.storages (addrHash a) k).or ((delete.elim ∅ (·.storages)).lookup k) := by
    intro k
    have hk : reported u.storages (addrHash a) k = _ :=
      congrArg (fun e : UpdateEntry => e.storages.lookup k) hentry
    rw [hk, ← hslots k]
    exact lookup_union _ _ _
  -- the deletion part is there for the destructed accounts `StateDiff` lists
  have hdel : (addrHash a ∉ d.destructs ∧ delete = none) ∨
      (addrHash a ∈ d.destructs ∧ ∃ op, DeleteOf R raw a op ∧ delete = some op) := by
    rcases hdel with ⟨hnot, hnone⟩ | ⟨hsome, op, hop, hdelete⟩
    · refine .inl ⟨fun hmem => ?_, hnone⟩
      obtain ⟨obj, hobj, horigin⟩ := hdestruct.mp hmem
      rcases hnot with hnot | hnot
      · have hnot : held.destruct = none := hnot
        rw [hobj] at hnot
        cases hnot
      · rw [hheld.destruct obj hobj, hnot] at horigin
        cases horigin
    · refine .inr ⟨hdestruct.mpr ?_, op, hop, hdelete⟩
      obtain ⟨obj, hobj⟩ := isSome_iff_exists.mp hsome
      refine ⟨obj, hobj, ?_⟩
      rw [hheld.destruct obj hobj]
      have horigin := hop.origin
      cases hacct : R.account (addrHash a) with
      | none =>
        rw [hacct] at horigin
        cases horigin
      | some acct => rfl
  refine ⟨?_, funext fun k => ?_⟩
  · simp only [applyDiff, applyUpdate, haccount]
    cases hd : d.accounts.lookup (addrHash a) with
    | some acct =>
      cases update with
      | none =>
        rw [hd] at hcore
        cases hcore
      | some op =>
        rw [hd] at hcore
        exact hcore
    | none =>
      cases update with
      | some op =>
        rw [hd] at hcore
        cases hcore
      | none =>
        rcases hdel with ⟨hnot, rfl⟩ | ⟨hmem, op, -, rfl⟩
        · simp [hnot]
        · simp [hmem]
  · simp only [applyDiff, applyUpdate, hstorages k]
    cases reported d.storages (addrHash a) k with
    | some value => rfl
    | none =>
      rcases hdel with ⟨hnot, rfl⟩ | ⟨hmem, op, hop, rfl⟩
      · simp [hnot]
      -- every slot the account had is wiped
      simp only [hmem, elim_some, hop.storages k]
      cases hk : R.storage (addrHash a) k with
      | none => exact hk.symm
      | some value => rfl

/-- The new codes of two accounts do not collide under the code hash. -/
def CodesInjective (s : StateDB) : Prop :=
  ∀ a b obj obj', s.stateObjects.lookup a = some obj → s.stateObjects.lookup b = some obj' →
    obj.dirtyCode = true → obj'.dirtyCode = true →
    keccak256 obj.code = keccak256 obj'.code → obj.code = obj'.code

/-- The new codes of the update are those of the updated objects. -/
theorem code_iff_newCode (hR : Serves R root db reader) (hs : InBlock R root db reader s)
    (hkeys : s.KeysInjective) {raw : Bool} {u : StateUpdate}
    (hcommit : Committed R raw a ((s.held a).written ord db root a) (u.entry a))
    (code : ContractCode) : u.codes.lookup a = some code ↔ s.NewCode a code := by
  obtain ⟨delete, update, hentry, -, hupd⟩ := hcommit
  have hcode : u.codes.lookup a = update.bind (·.code) := congrArg UpdateEntry.code hentry
  have hiff := written_update ord db root a (s.held a)
  rw [hcode]
  rcases hupd with ⟨hnot, rfl⟩ | ⟨hupdate, obj₁, op, hobj₁, hreports, rfl⟩
  · constructor
    · intro h
      cases h
    · rintro ⟨hupdate, -⟩
      obtain ⟨applied, hm⟩ := hiff.mpr hupdate
      exact absurd hm (hnot applied)
  · -- the object of the commit is the one `Finalise` left, up to the trie writes
    have hobj : ∃ obj, (s.held a).object = some obj := by
      cases hobj : (s.held a).object with
      | some obj => exact ⟨obj, rfl⟩
      | none =>
        unfold written at hobj₁
        simp [hobj] at hobj₁
    obtain ⟨obj, hobj⟩ := hobj
    obtain ⟨obj', hobj', -, -, -, hhash, hdirty, hblob⟩ :=
      written_object hR (hs.held a) (hkeys.slot a) ord hobj
    rw [hobj₁] at hobj'
    cases hobj'
    rw [bind_some, hreports.code, hdirty, hhash, hblob]
    constructor
    · intro h
      split at h
      · rename_i hd
        cases h
        exact ⟨hiff.mp hupdate, obj, hobj, hd, rfl⟩
      · cases h
    · rintro ⟨-, obj', hobj', hd, rfl⟩
      rw [hobj] at hobj'
      cases hobj'
      rw [if_pos hd]

/-- **`StateDiff` and `commit` agree.**  In every state a block can reach, if `commit`
    succeeds then so does `StateDiff`; applied to the flat state the block started
    from, the diff and the update give the same flat state up to storage roots, and
    they report the same new codes. -/
theorem stateDiff_agrees_with_commit (hR : Serves R root db reader) {ops : List Op}
    (hrun : Run BlockOp (StateDB.new root db reader) ops s) (hkeys : s.KeysInjective)
    (hcodes : s.CodesInjective) (ord ord' : MapOrders) {del raw : Bool} {block : U64}
    {u : StateUpdate} (hcommit : s.commit ord del raw block = some (.ok u, t)) :
    ∃ d s', s.stateDiff ord' del = some (.ok d, s') ∧
      R.core.applyDiff d = R.core.applyUpdate u ∧
      ∀ hash blob, d.codes.lookup hash = some blob ↔ ∃ a, u.codes.lookup a = some ⟨hash, blob⟩ := by
  have hs := hrun.inBlock hR
  obtain ⟨hfin, hfkeys⟩ := hs.finalise hR hkeys ord' del
  obtain ⟨herr, r, hash, tr, hr, -, -, -, hentries, horigins, -, -, -, -, hforeign⟩ :=
    hs.commit hR hkeys hcommit
  -- the commit writes the tries of what `StateDiff` finalised
  have hheld : ∀ a, r.held a =
      ((s.finalise ord' del).held a).written (ord.slot a) db root a := fun a => by
    rw [← held_finalise_order ord ord' del s a]
    exact (hs.intermediateRoot hR hkeys hr).2.2 a
  have hmem : ∀ a, a ∈ r.mutations ↔ a ∈ (s.finalise ord' del).mutations := by
    intro a
    have hmut : r.mutations.lookup a = _ := congrArg Held.mutation (hheld a)
    rw [← lookup_isSome, ← lookup_isSome, hmut]
    exact Bool.eq_iff_iff.mp isSome_map
  have hcommitted : ∀ a ∈ (s.finalise ord' del).mutations, Committed R raw a
      (((s.finalise ord' del).held a).written (ord.slot a) db root a) (u.entry a) := fun a ha =>
    hheld a ▸ hentries a ((hmem a).mpr ha)
  -- so every updated account has an object, and `StateDiff` ends
  have hobjects : ∀ a applied, (s.finalise ord' del).mutations.lookup a = some ⟨.update, applied⟩ →
      ((s.finalise ord' del).stateObjects.lookup a).isSome = true := by
    intro a applied hm
    obtain ⟨_, _, -, -, hupd⟩ := hcommitted a (mem_of_lookup_eq_some hm)
    rcases hupd with ⟨hnot, -⟩ | ⟨-, obj, -, hobj, -⟩
    · obtain ⟨applied', hm'⟩ :=
        (written_update (ord.slot a) db root a ((s.finalise ord' del).held a)).mpr ⟨applied, hm⟩
      exact absurd hm' (hnot applied')
    · cases hlive : (s.finalise ord' del).stateObjects.lookup a with
      | some _ => rfl
      | none =>
        unfold written at hobj
        simp [held, hlive] at hobj
  obtain ⟨d, hd⟩ := diffAccounts_some ord'
    ⟨(range ord'.account (s.finalise ord' del).stateObjectsDestruct).foldl diffDestruct ∅,
      ∅, ∅, ∅⟩ hobjects
  obtain ⟨hdestructs, hdiffed, hdforeign, hsound⟩ := diffAccounts_spec hfkeys hd
  obtain ⟨hdestruct, hown⟩ := mem_diffDestructs (hfkeys.addr.mono fun _ => .inl) ord'.account
    hfin.mutated_of_destruct
  rw [← hdestructs] at hdestruct hown
  refine ⟨d, s.finalise ord' del, ?_, ?_, fun hash blob => ?_⟩
  · unfold stateDiff
    simp [hs.dbErr_finalise hR ord' del, herr, hd]
  · -- account by account; no other key is touched
    have hat : ∀ h, (R.core.applyDiff d).account h = (R.core.applyUpdate u).account h ∧
        (R.core.applyDiff d).storage h = (R.core.applyUpdate u).storage h := by
      intro h
      by_cases hh : ∃ a ∈ (s.finalise ord' del).mutations, addrHash a = h
      · obtain ⟨a, ha, rfl⟩ := hh
        exact agree_at hR (hfin.held a) (hfkeys.slot a) (hdestruct a ha) (hdiffed a ha)
          (hcommitted a ha)
      have hh : ∀ a ∈ (s.finalise ord' del).mutations, addrHash a ≠ h := fun a ha heq =>
        hh ⟨a, ha, heq⟩
      have hnone : ∀ k, reported u.storages h k = none := fun k => by
        simp [reported, hforeign h fun a ha => hh a ((hmem a).mp ha)]
      simp [applyDiff, applyUpdate, hdforeign h hh, hnone,
        hforeign h fun a ha => hh a ((hmem a).mp ha), hown h hh]
    exact Flat.ext (funext fun h => (hat h).1) (funext fun h => (hat h).2)
  · have hiff : ∀ a code, u.codes.lookup a = some code ↔ (s.finalise ord' del).NewCode a code := by
      intro a code
      by_cases ha : a ∈ (s.finalise ord' del).mutations
      · exact code_iff_newCode hR hfin hfkeys (hcommitted a ha) code
      · have hnone : u.codes.lookup a = none :=
          congrArg (·.2.2) (horigins a fun hr => ha ((hmem a).mp hr))
        rw [hnone]
        refine ⟨fun h => (by cases h), fun h => ?_⟩
        obtain ⟨⟨_, hm⟩, -⟩ := h
        exact absurd (mem_of_lookup_eq_some hm) ha
    constructor
    · intro hcode
      obtain ⟨a, ha⟩ := hsound hash blob hcode
      exact ⟨a, (hiff a _).mpr ha⟩
    · rintro ⟨a, hcode⟩
      have ha := (hiff a _).mp hcode
      obtain ⟨blob', hblob'⟩ := mem_iff.mp (diffAccounts_codes hd ha)
      obtain ⟨b, hb⟩ := hsound hash blob' hblob'
      -- a code filed under the same hash is the same code
      obtain ⟨-, obj, hobj, hdirty, heq⟩ := ha
      obtain ⟨-, obj', hobj', hdirty', heq'⟩ := hb
      cases heq
      obtain ⟨hsame, rfl⟩ := ContractCode.mk.inj heq'
      obtain ⟨obj₀, hobj₀, hblob, hd₀⟩ := s.object_finalise hobj
      obtain ⟨obj₀', hobj₀', hblob'', hd₀'⟩ := s.object_finalise hobj'
      have hk := ((hfin.held a).object obj hobj).code hdirty
      have hk' := ((hfin.held b).object obj' hobj').code hdirty'
      have hblobs : obj.code = obj'.code := by
        rw [hblob, hblob'']
        refine hcodes a b obj₀ obj₀' hobj₀ hobj₀' (hd₀ ▸ hdirty) (hd₀' ▸ hdirty') ?_
        rw [← hblob, ← hblob'', hk, hk', hsame]
      rw [hblobs]
      exact hblob'

omit [Crypto] in
/-- An account that is destructed and comes back with other slots and with code. -/
theorem stateDiff_agrees_with_commit_resurrected :
    letI := numberCrypto
    ∃ t u d s', resurrected.commit .ascending true false 0 = some (.ok u, t) ∧
      resurrected.stateDiff .ascending true = some (.ok d, s') ∧
      oneSlot.core.applyDiff d = oneSlot.core.applyUpdate u ∧
      ∀ hash blob, d.codes.lookup hash = some blob ↔ ∃ a, u.codes.lookup a = some ⟨hash, blob⟩ := by
  let _ : Crypto := numberCrypto
  have hcodes : resurrected.CodesInjective := by
    intro a b obj obj' ha hb _ _ _
    have hseven : ∀ {c o}, resurrected.stateObjects.lookup c = some o → c = 7 := fun {c o} hc => by
      have hmem := mem_keys.mpr (mem_of_lookup_eq_some hc)
      exact Finset.mem_singleton.mp hmem
    rw [hseven ha] at ha
    rw [hseven hb, ha] at hb
    cases hb
    rfl
  obtain ⟨u, t, hcommit⟩ := resurrected_commit
  obtain ⟨d, s', hdiff, hflat, hcode⟩ := stateDiff_agrees_with_commit serves_oneSlot
    resurrected_run (numberCrypto_keysInjective _) hcodes .ascending .ascending hcommit
  exact ⟨t, u, d, s', hcommit, hdiff, hflat, hcode⟩

end

end StateDB

end GethArb
