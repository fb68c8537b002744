/-
  **The unexpected balance delta is exact.**  The `StateDB` keeps a running balance
  delta next to the accounts.  `drift` is what it says beyond the sum of all
  balances: no balance operation moves it, an expected burn or mint moves it by
  its amount, and a revert puts it back.

  `Ledger` is the abstract account of a run: what was burned, minted and removed,
  with the marks that snapshots leave.  `unexpectedBalanceDelta_eq` says that the
  delta is the change of the sum of balances corrected by the ledger.
-/
import GethArb.Revert
import GethArb.Finalise
import GethArb.VMState

namespace GethArb

open Finset World Option List

/-! ### The sum of all balances -/

namespace World

/-- The sum of all balances. -/
noncomputable def total (w : World) : Int := ∑ a : Address, ((w.balance a).toNat : Int)

theorem total_setAccount (w : World) (addr : Address) (acct : Option AccountView) :
    (w.setAccount addr acct).total =
      w.total - (w.balance addr).toNat + (acct.elim 0 (·.balance) : U256).toNat := by
  have hupdate : ∀ a, (((w.setAccount addr acct).balance a).toNat : Int) =
      Function.update (fun a => ((w.balance a).toNat : Int)) addr
        ((acct.elim 0 (·.balance) : U256).toNat : Int) a := by
    intro a
    by_cases ha : a = addr
    · subst ha
      simp [balance]
    · simp [balance, setAccount_account_of_ne w acct ha, ha]
  unfold total
  simp only [hupdate]
  rw [sum_update_of_mem (mem_univ addr), ← add_sum_erase _ _ (mem_univ addr),
    sdiff_singleton_eq_erase]
  ring

end World

namespace StateDB

variable [Crypto]

/-- What the balance delta says beyond the sum of all balances. -/
noncomputable def drift (s : StateDB) : Int := s.unexpectedBalanceDelta - s.world.total

variable {s t : StateDB}

theorem drift_of_world (hw : t.world = s.world)
    (hd : t.unexpectedBalanceDelta = s.unexpectedBalanceDelta) : t.drift = s.drift := by
  rw [drift, drift, hw, hd]

theorem Loaded.drift (h : Loaded s t) : t.drift = s.drift :=
  drift_of_world h.world h.delta

/-- Replacing a live object moves the drift by the change of its balance. -/
theorem drift_setStateObject (s : StateDB) (addr : Address) (obj : StateObject) :
    (s.setStateObject addr obj).drift =
      s.drift + (s.world.balance addr).toNat - obj.data.balance.toNat := by
  have htotal : (s.setStateObject addr obj).world.total =
      s.world.total - (s.world.balance addr).toNat + obj.data.balance.toNat := by
    rw [world_setStateObject, total_setAccount]
    rfl
  rw [drift, htotal, drift]
  change s.unexpectedBalanceDelta - _ = _
  ring

theorem drift_append (s : StateDB) (e : JournalEntry) : (s.append e).drift = s.drift := rfl

theorem drift_addDelta (s : StateDB) (d : Int) :
    { s with unexpectedBalanceDelta := s.unexpectedBalanceDelta + d }.drift = s.drift + d := by
  change s.unexpectedBalanceDelta + d - s.world.total = s.unexpectedBalanceDelta - s.world.total + d
  ring

variable {addr : Address} {obj : StateObject}

theorem balance_of_lookup (h : s.stateObjects.lookup addr = some obj) :
    s.world.balance addr = obj.data.balance := by
  rw [balance, world_account, s.peek_of_lookup h]
  rfl

theorem balance_of_peek_none (h : s.peek addr = none) : s.world.balance addr = 0 := by
  rw [balance, world_account, h]
  rfl

/-- Every balance operation: the delta and the balance of a live object are set. -/
theorem drift_rebalance (s : StateDB) (d : Int) (amount : U256)
    (hlive : s.stateObjects.lookup addr = some obj) :
    ({ s with unexpectedBalanceDelta := d }.objectSetBalance addr obj amount).drift =
      s.drift + (d - s.unexpectedBalanceDelta) + (obj.data.balance.toNat - amount.toNat) := by
  set r := { s with unexpectedBalanceDelta := d }.append (.balanceChange addr obj.data.balance)
  have hbalance : r.world.balance addr = obj.data.balance := balance_of_lookup hlive
  have hdrift : r.drift = s.drift + (d - s.unexpectedBalanceDelta) := by
    change d - s.world.total = s.unexpectedBalanceDelta - s.world.total + _
    ring
  have hset := r.drift_setStateObject addr (obj.setBalance amount)
  rw [hbalance, hdrift] at hset
  rw [objectSetBalance, hset]
  change _ - (amount.toNat : Int) = _
  ring

/-- A new account has no balance. -/
theorem drift_create (e : JournalEntry) (hnone : s.peek addr = none) :
    ((s.append e).setStateObject addr (newObject none)).drift = s.drift := by
  have hbalance : (s.append e).world.balance addr = 0 := balance_of_peek_none hnone
  rw [drift_setStateObject, hbalance, drift_append]
  simp [newObject, newEmptyStateAccount]

/-- A lookup that creates a missing account leaves all balances alone. -/
theorem drift_getOrNewStateObject (s : StateDB) (addr : Address) :
    (s.getOrNewStateObject addr).2.drift = s.drift ∧
      (s.getOrNewStateObject addr).1.data.balance = s.world.balance addr ∧
      (s.getOrNewStateObject addr).2.stateObjects.lookup addr =
        some (s.getOrNewStateObject addr).1 := by
  have hlive := (s.getOrNewStateObject_spec addr).2
  unfold getOrNewStateObject at hlive ⊢
  rcases s.getStateObject_cases addr with
    ⟨t, heq, hpeek, hload⟩ | ⟨obj, t, heq, hpeek, htlive, hload⟩
  · simp only [heq] at hlive ⊢
    have hnone : t.peek addr = none := by
      have := s.peek_getStateObject addr addr
      rw [heq] at this
      exact this.trans hpeek
    refine ⟨(drift_create (.createObjectChange addr) hnone).trans hload.drift, ?_, hlive⟩
    rw [balance_of_peek_none hpeek]
    rfl
  · simp only [heq] at hlive ⊢
    refine ⟨hload.drift, ?_, hlive⟩
    rw [← hload.world, balance_of_lookup htlive]

/-! ### Balance operations keep the drift -/

theorem drift_addBalance {amount : U256}
    (h : (s.world.balance addr).toNat + amount.toNat < 2 ^ 256) :
    (s.addBalance addr amount).2.drift = s.drift := by
  obtain ⟨hdrift, hbalance, hlive⟩ := s.drift_getOrNewStateObject addr
  rw [← hbalance] at h
  simp only [addBalance, objectAddBalance]
  by_cases hzero : amount = 0
  · have hdelta := drift_addDelta (s.getOrNewStateObject addr).2 amount.toNat
    subst hzero
    rw [if_pos rfl]
    split
    · exact (hdelta.trans (by simp)).trans hdrift
    · exact (hdelta.trans (by simp)).trans hdrift
  · rw [if_neg hzero]
    have hsum : ((s.getOrNewStateObject addr).1.data.balance + amount).toNat =
        (s.getOrNewStateObject addr).1.data.balance.toNat + amount.toNat := by
      rw [BitVec.toNat_add, Nat.mod_eq_of_lt h]
    refine (drift_rebalance _ _ _ hlive).trans ?_
    rw [hsum, hdrift]
    push_cast
    ring

theorem drift_subBalance {amount : U256} (h : amount.toNat ≤ (s.world.balance addr).toNat) :
    (s.subBalance addr amount).2.drift = s.drift := by
  obtain ⟨hdrift, hbalance, hlive⟩ := s.drift_getOrNewStateObject addr
  rw [← hbalance] at h
  simp only [subBalance]
  split
  · exact hdrift
  have hsub : ((s.getOrNewStateObject addr).1.data.balance - amount).toNat =
      (s.getOrNewStateObject addr).1.data.balance.toNat - amount.toNat :=
    BitVec.toNat_sub_of_le h
  refine (drift_rebalance _ _ _ hlive).trans ?_
  rw [hsub, hdrift]
  push_cast [h]
  ring

theorem drift_setBalance (s : StateDB) (addr : Address) (amount : U256) :
    (s.setBalance addr amount).drift = s.drift := by
  obtain ⟨hdrift, -, hlive⟩ := s.drift_getOrNewStateObject addr
  simp only [setBalance]
  refine (drift_rebalance _ _ _ hlive).trans ?_
  rw [hdrift]
  ring

/-- Marking an object as self-destructed leaves its balance alone. -/
theorem drift_markSelfdestructed (s : StateDB) (hlive : s.stateObjects.lookup addr = some obj) :
    ((s.append (.selfDestructChange addr)).setStateObject addr obj.markSelfdestructed).drift =
      s.drift := by
  have hbalance : (s.append (.selfDestructChange addr)).world.balance addr = obj.data.balance :=
    balance_of_lookup hlive
  rw [drift_setStateObject, hbalance, drift_append]
  simp [StateObject.markSelfdestructed]

theorem drift_selfDestruct (s : StateDB) (addr : Address) :
    (s.selfDestruct addr).2.drift = s.drift := by
  unfold selfDestruct
  rcases s.getStateObject_cases addr with ⟨t, heq, -, hload⟩ | ⟨obj, t, heq, -, hlive, hload⟩
  · simp only [heq]
    exact hload.drift
  simp only [heq]
  by_cases hbal : obj.data.balance = 0
  · simp only [hbal, ne_eq, not_true_eq_false, if_false]
    split
    · exact hload.drift
    · exact (t.drift_markSelfdestructed hlive).trans hload.drift
  simp only [hbal, ne_eq, not_false_eq_true, if_true]
  -- the balance goes from the account and from the delta
  have hclear : ({ t with unexpectedBalanceDelta :=
      t.unexpectedBalanceDelta - obj.data.balance.toNat }.objectSetBalance addr obj 0).drift =
      s.drift := by
    rw [drift_rebalance _ _ _ hlive, hload.drift]
    simp
  split
  · exact hclear
  · refine (drift_markSelfdestructed _ ?_).trans hclear
    simp [objectSetBalance, setStateObject]

theorem drift_selfDestruct6780 (s : StateDB) (addr : Address) :
    (s.selfDestruct6780 addr).2.2.drift = s.drift := by
  unfold selfDestruct6780
  rcases s.getStateObject_cases addr with ⟨t, heq, -, hload⟩ | ⟨obj, t, heq, -, -, hload⟩
  · simp only [heq]
    exact hload.drift
  · simp only [heq]
    split
    · exact (t.drift_selfDestruct addr).trans hload.drift
    · exact hload.drift

theorem drift_createZombieIfDeleted (s : StateDB) (addr : Address) :
    (s.createZombieIfDeleted addr).drift = s.drift := by
  unfold createZombieIfDeleted
  have hpeek := s.peek_getStateObject addr addr
  rcases s.getStateObject_cases addr with ⟨t, heq, hnone, hload⟩ | ⟨obj, t, heq, -, -, hload⟩
  · simp only [heq] at hpeek ⊢
    split
    · exact (drift_create _ (hpeek.trans hnone)).trans hload.drift
    · exact hload.drift
  · simp only [heq]
    exact hload.drift

/-! ### The ledger of a run -/

end StateDB

/-- What a snapshot keeps of the ledger. -/
structure Mark where
  id : Nat
  burned : Int
  minted : Int

/-- The abstract account of a run.  `removed` is what self-destructed accounts still
    held when they were removed; the marks are those of the open snapshots, newest
    first. -/
structure Ledger where
  burned : Int
  minted : Int
  removed : Int
  marks : List Mark

def Ledger.empty : Ledger := ⟨0, 0, 0, []⟩

/-- Burns and mints made since the snapshot do not count any more. -/
def Ledger.revert (l : Ledger) (revid : Nat) : Ledger :=
  match l.marks.dropWhile fun m => m.id ≠ revid with
  | [] => l
  | m :: older => { l with burned := m.burned, minted := m.minted, marks := older }

variable {l : Ledger} (ord : MapOrders) (del : Bool)

namespace StateDB

variable [Crypto]

/-- The sum of all balances. -/
noncomputable def totalBalance (s : StateDB) : Int :=
  ∑ a : Address, ((s.getBalance a).1.toNat : Int)

/-- The balances that self-destructed accounts of `s` still held and that are gone in `t`. -/
noncomputable def removedBalance (s t : StateDB) : Int :=
  ∑ a : Address, if (s.hasSelfDestructed a).1 ∧
    ¬ (t.exist a).1 then ((s.getBalance a).1.toNat : Int)
    else 0

/-- How the operation from `s` to `t` is entered in the ledger. -/
noncomputable def enter (s t : StateDB) (op : Op) (l : Ledger) : Ledger :=
  match op with
  | .expectBalanceBurn amount => { l with burned := l.burned + amount }
  | .expectBalanceMint amount => { l with minted := l.minted + amount }
  | .snapshot => { l with marks := ⟨s.snapshot.1, l.burned, l.minted⟩ :: l.marks }
  | .revertToSnapshot revid => l.revert revid
  | .finalise _ _ => { l with removed := l.removed + removedBalance s t, marks := [] }
  | _ => l

/-- The `StateDB` interface of the EVM on a state with its ledger. -/
def ledgerVM : VMStateDB (StateDB × Ledger) where
  getBalance x addr := ((x.1.getBalance addr).1, (x.1.getBalance addr).2, x.2)
  getCode x addr := ((x.1.getCode addr).1, (x.1.getCode addr).2, x.2)
  addBalance x addr amount := ((x.1.addBalance addr amount).1, (x.1.addBalance addr amount).2, x.2)
  subBalance x addr amount := ((x.1.subBalance addr amount).1, (x.1.subBalance addr amount).2, x.2)
  selfDestruct x addr := ((x.1.selfDestruct addr).1, (x.1.selfDestruct addr).2, x.2)
  selfDestruct6780 x addr :=
    ((x.1.selfDestruct6780 addr).1, (x.1.selfDestruct6780 addr).2.1,
      (x.1.selfDestruct6780 addr).2.2, x.2)
  expectBalanceBurn x amount :=
    (x.1.expectBalanceBurn amount).map fun s => (s, { x.2 with burned := x.2.burned + amount })

/-- The ledger only watches. -/
theorem forgets_ledger : ledgerVM.Forgets vm Prod.fst := by
  constructor <;> intros <;> try rfl
  simp [ledgerVM, vm, Function.comp_def]

/-! ### What the handlers do -/

/-- A step of a transaction that moves the drift by what it enters as burned or minted. -/
structure Entered (s : StateDB) (l : Ledger) (t : StateDB) (l' : Ledger) : Prop where
  tx : Tx s t
  drift : t.drift - s.drift = (l'.burned - l.burned) - (l'.minted - l.minted)
  removed : l'.removed = l.removed
  marks : l'.marks = l.marks

variable {s t : StateDB}

theorem Entered.quiet (l : Ledger) (htx : Tx s t) (h : t.drift = s.drift) :
    Entered s l t l := ⟨htx, by rw [h]; ring, rfl, rfl⟩

theorem Entered.trans {r : StateDB} {l' l'' : Ledger} (h : Entered s l t l')
    (h' : Entered t l' r l'') : Entered s l r l'' :=
  ⟨Relation.ReflTransGen.trans h.tx h'.tx, by linarith [h.drift, h'.drift],
    h'.removed.trans h.removed, h'.marks.trans h.marks⟩

theorem entered_expectBalanceBurn {amount : Int} (l : Ledger)
    (h : s.expectBalanceBurn amount = some t) :
    Entered s l t { l with burned := l.burned + amount } := by
  have htx := @tx_of_step _ s t (.expectBalanceBurn amount) trivial h
  unfold expectBalanceBurn at h
  split at h
  · cases h
  · cases h
    refine ⟨htx, ?_, rfl, rfl⟩
    rw [drift_addDelta]
    ring

theorem entered_expectBalanceMint {amount : Int} (l : Ledger)
    (h : s.expectBalanceMint amount = some t) :
    Entered s l t { l with minted := l.minted + amount } := by
  have htx := @tx_of_step _ s t (.expectBalanceMint amount) trivial h
  unfold expectBalanceMint at h
  split at h
  · cases h
  cases h
  refine ⟨htx, ?_, rfl, rfl⟩
  have hdelta := s.drift_addDelta (-amount)
  simp only [← sub_eq_add_neg] at hdelta
  rw [hdelta]
  ring

theorem entered_ledgerVM_burn {x y : StateDB × Ledger} {amount : Int}
    (h : ledgerVM.expectBalanceBurn x amount = some y) : Entered x.1 x.2 y.1 y.2 := by
  obtain ⟨t, ht, rfl⟩ := map_eq_some_iff.mp h
  exact entered_expectBalanceBurn x.2 ht

theorem tx_getBalance (s : StateDB) (addr : Address) : Tx s (s.getBalance addr).2 := by
  unfold getBalance readObject
  rcases s.getStateObject_tx addr with ⟨t, heq, htx, -⟩ | ⟨obj, t, heq, htx, -⟩
  · simpa only [heq] using htx
  · simpa only [heq] using htx

theorem entered_opSelfdestruct {l' : Ledger} {readOnly : Bool} {contract beneficiary : Address}
    {e : HandlerEnd}
    (h : opSelfdestruct ledgerVM readOnly contract beneficiary (s, l) = some (e, t, l'))
    (hwrap : readOnly = false → (s.world.balance beneficiary).toNat + (s.world.balance
      contract).toNat < 2 ^ 256) : Entered s l t l' := by
  cases readOnly with
  | true =>
    cases h
    exact Entered.quiet l .refl rfl
  | false =>
    have hload := s.loaded_readObject contract 0 (·.data.balance)
    set r := (s.getBalance contract).2 with hr
    set balance := (s.getBalance contract).1 with hbalance
    have hb : balance = s.world.balance contract := s.getBalance_fst contract
    have hadd : (r.world.balance beneficiary).toNat + balance.toNat < 2 ^ 256 := by
      rw [hb, show r.world = s.world from hload.world]
      exact hwrap rfl
    have hmoved : Entered s l ((r.addBalance beneficiary balance).2.selfDestruct contract).2 l :=
      ((Entered.quiet l (s.tx_getBalance contract) hload.drift).trans
        (.quiet l (r.tx_addBalance beneficiary balance) (drift_addBalance hadd))).trans
        (.quiet l (tx_selfDestruct _ contract) (drift_selfDestruct _ contract))
    obtain ⟨x, hx, hend⟩ := map_eq_some_iff.mp h
    obtain ⟨rfl, rfl⟩ := Prod.mk.inj hend
    unfold expectBurn at hx
    split at hx
    · exact hmoved.trans (entered_ledgerVM_burn hx)
    · cases hx
      exact hmoved

theorem balance_objectSetBalance (s : StateDB) (addr a : Address) (obj : StateObject)
    (amount : U256) : (s.objectSetBalance addr obj amount).world.balance a =
      if a = addr then amount else s.world.balance a := by
  rw [objectSetBalance, world_setStateObject]
  split
  · rename_i ha
    rw [ha, balance, setAccount_account_self]
    rfl
  · rename_i ha
    rw [balance, setAccount_account_of_ne _ _ ha]
    rfl

theorem balance_getOrNewStateObject (s : StateDB) (addr a : Address) :
    (s.getOrNewStateObject addr).2.world.balance a = s.world.balance a := by
  unfold getOrNewStateObject
  rcases s.getStateObject_cases addr with ⟨t, heq, hpeek, hload⟩ | ⟨obj, t, heq, -, -, hload⟩
  · simp only [heq, createObject, world_setStateObject]
    by_cases ha : a = addr
    · rw [ha, balance, setAccount_account_self, balance_of_peek_none hpeek]
      rfl
    · rw [balance, setAccount_account_of_ne _ _ ha, ← hload.world]
      rfl
  · simp only [heq, hload.world]

/-- The balances after an amount was taken from an account. -/
theorem balance_subBalance (s : StateDB) (addr a : Address) (amount : U256) :
    (s.subBalance addr amount).2.world.balance a =
      if a = addr then s.world.balance addr - amount else s.world.balance a := by
  obtain ⟨-, hbalance, -⟩ := s.drift_getOrNewStateObject addr
  simp only [subBalance]
  by_cases hzero : amount = 0
  · simp only [hzero, if_true, balance_getOrNewStateObject]
    split
    · rename_i ha
      simp [ha]
    · rfl
  · rw [if_neg hzero, balance_objectSetBalance, hbalance]
    split
    · rfl
    · exact s.balance_getOrNewStateObject addr a

theorem entered_opSelfdestruct6780 {l' : Ledger} {readOnly : Bool} {arbosVersion : U64}
    {contract beneficiary : Address} {e : HandlerEnd}
    (h : opSelfdestruct6780 ledgerVM readOnly arbosVersion contract beneficiary (s, l) = some (e, t,
      l')) (hwrap : readOnly = false → isStylusComponentPrefix (s.getCode contract).1 arbosVersion =
      false → beneficiary ≠ contract → (s.world.balance beneficiary).toNat + (s.world.balance
      contract).toNat < 2 ^ 256) : Entered s l t l' := by
  cases readOnly with
  | true =>
    cases h
    exact Entered.quiet l .refl rfl
  | false =>
    have hcode : Entered s l (s.getCode contract).2 l :=
      .quiet l (s.tx_getCode contract) (s.loaded_getCode contract).drift
    unfold opSelfdestruct6780 at h
    simp only [Bool.false_eq_true, if_false] at h
    split at h
    · cases h
      exact hcode
    rename_i hstylus
    set q := (s.getCode contract).2 with hq
    have hqworld : q.world = s.world := (s.loaded_getCode contract).world
    have hload := q.loaded_readObject contract 0 (·.data.balance)
    set r := (q.getBalance contract).2 with hr
    have hrworld : r.world = s.world := hload.world.trans hqworld
    have hb : (q.getBalance contract).1 = s.world.balance contract := by
      rw [getBalance_fst, hqworld]
    set balance := (q.getBalance contract).1 with hbalance
    have hsub : balance.toNat ≤ (r.world.balance contract).toNat := by rw [hb, hrworld]
    -- the amount fits: it was taken from the same account, or from another one
    have hadd : ((r.subBalance contract balance).2.world.balance beneficiary).toNat +
        balance.toNat < 2 ^ 256 := by
      rw [balance_subBalance, hrworld, hb]
      split
      · exact (by simpa using (s.world.balance contract).isLt)
      · rename_i hne
        exact hwrap rfl (Bool.eq_false_iff.mpr hstylus) hne
    have hmoved : Entered s l (((r.subBalance contract balance).2.addBalance beneficiary
        balance).2.selfDestruct6780 contract).2.2 l :=
      (((hcode.trans (.quiet l (q.tx_getBalance contract) hload.drift)).trans
        (.quiet l (r.tx_subBalance contract balance) (drift_subBalance hsub))).trans
        (.quiet l (tx_addBalance _ beneficiary balance) (drift_addBalance hadd))).trans
        (.quiet l (tx_selfDestruct6780 _ contract) (drift_selfDestruct6780 _ contract))
    obtain ⟨x, hx, hend⟩ := map_eq_some_iff.mp h
    obtain ⟨rfl, rfl⟩ := Prod.mk.inj hend
    unfold expectBurn6780 at hx
    split at hx
    · have hleft : ∀ y : StateDB, Entered y l (y.getBalance contract).2 l := fun y =>
        .quiet l (y.tx_getBalance contract) (y.loaded_readObject contract 0 (·.data.balance)).drift
      simp only at hx
      split at hx
      · exact (hmoved.trans (hleft _)).trans (entered_ledgerVM_burn hx)
      · cases hx
        exact hmoved.trans (hleft _)
    · cases hx
      exact hmoved

/-! ### Finalise -/

theorem totalBalance_eq (s : StateDB) : s.totalBalance = s.world.total := by
  simp [totalBalance, total, getBalance_fst]

/-- `Finalise` takes from an account what it still held if it was self-destructed and
    removed, and nothing otherwise. -/
theorem balance_finalise (s : StateDB) (a : Address) :
    ((s.world.balance a).toNat : Int) = ((s.finalise ord del).world.balance a).toNat +
      if s.world.hasSelfDestructed a ∧ ¬ (s.finalise ord del).world.exist a then
        ((s.world.balance a).toNat : Int) else 0 := by
  have hreader := s.reader_finalise ord del
  have hheld := s.held_finalise ord del a
  -- an account that is left alone
  have hsame : (s.finalise ord del).held a = s.held a →
      ((s.world.balance a).toNat : Int) = ((s.finalise ord del).world.balance a).toNat +
        if s.world.hasSelfDestructed a ∧ ¬ (s.finalise ord del).world.exist a then
          ((s.world.balance a).toNat : Int) else 0 := by
    intro heq
    have hpeek := peek_eq_of_held hreader heq
    simp only [World.balance, World.exist, world_account, hpeek]
    cases s.peek a <;> simp [viewOf, StateObject.view]
  cases hdirty : s.journal.dirties.lookup a with
  | none =>
    rw [hdirty] at hheld
    exact hsame hheld
  | some n =>
    rw [hdirty, Option.elim_some] at hheld
    cases hobj : s.stateObjects.lookup a with
    | none =>
      refine hsame (hheld.trans ?_)
      simp [Held.finalise, held, hobj]
    | some obj =>
      have hbalance := balance_of_lookup hobj
      have hsd : s.world.hasSelfDestructed a = obj.selfDestructed := by
        rw [World.hasSelfDestructed, world_account, s.peek_of_lookup hobj]
        rfl
      simp only [Held.finalise, held, hobj] at hheld
      by_cases hdel : s.finaliseDeletes del a n obj = true
      · rw [if_pos hdel] at hheld
        obtain ⟨hnone, hdes, -⟩ := (Held.ext_iff ..).mp hheld
        have hnone : (s.finalise ord del).stateObjects.lookup a = none := hnone
        have hdes : (s.finalise ord del).stateObjectsDestruct.lookup a =
          (s.stateObjectsDestruct.lookup a).or (some obj) := hdes
        have hpeek : (s.finalise ord del).peek a = none := by
          rw [peek, baseObject, destructed_eq, hnone, hdes]
          simp
        have hexist : (s.finalise ord del).world.exist a = false := by
          rw [World.exist, world_account, hpeek]
          rfl
        rw [balance_of_peek_none hpeek, hexist, hsd]
        by_cases hself : obj.selfDestructed = true
        · simp [hself]
        -- deleted because it is empty
        have hempty : obj.empty = true := by
          simp only [finaliseDeletes, hself, Bool.false_or, Bool.and_eq_true] at hdel
          exact hdel.1.2
        have hzero : obj.data.balance = 0 := by
          simp only [StateObject.empty, Bool.and_eq_true, decide_eq_true_eq] at hempty
          exact hempty.1.2
        simp [hbalance, hzero]
      · rw [if_neg hdel] at hheld
        obtain ⟨hlive, -, -⟩ := (Held.ext_iff ..).mp hheld
        have hbalance' := balance_of_lookup hlive
        have hexist : (s.finalise ord del).world.exist a = true := by
          rw [World.exist, world_account, peek_of_lookup _ hlive]
          rfl
        rw [hbalance', hexist, hbalance, data_finalise]
        simp

theorem drift_finalise (s : StateDB) :
    (s.finalise ord del).drift = s.drift + removedBalance s (s.finalise ord del) := by
  have htotal : s.world.total =
      (s.finalise ord del).world.total + removedBalance s (s.finalise ord del) := by
    simp only [total, removedBalance, getBalance_fst, hasSelfDestructed_fst, exist_fst]
    rw [← sum_add_distrib]
    exact sum_congr rfl fun a _ => s.balance_finalise ord del a
  have hdelta : (s.finalise ord del).unexpectedBalanceDelta = s.unexpectedBalanceDelta := by
    obtain ⟨r, hr, heq⟩ := s.finalise_sameTx ord del
    rw [heq]
    exact hr.delta
  rw [drift, drift, hdelta, htotal]
  ring

/-! ### Runs -/

end StateDB

/-- What a sequence since the last commit is made of: operations of the `StateDB`, and
    the two handlers. -/
inductive BalanceEvent where
  | op (op : Op)
  | opSelfdestruct (readOnly : Bool) (contract beneficiary : Address)
  | opSelfdestruct6780 (readOnly : Bool) (arbosVersion : U64) (contract beneficiary : Address)

namespace StateDB

variable [Crypto]

/-- Run an event on a state with its ledger. -/
noncomputable def runEvent (x : StateDB × Ledger) : BalanceEvent → Option (StateDB × Ledger)
  | .op op => (step op x.1).map fun t => (t, enter x.1 t op x.2)
  | .opSelfdestruct readOnly contract beneficiary =>
    (opSelfdestruct ledgerVM readOnly contract beneficiary x).map Prod.snd
  | .opSelfdestruct6780 readOnly arbosVersion contract beneficiary =>
    (opSelfdestruct6780 ledgerVM readOnly arbosVersion contract beneficiary x).map Prod.snd

/-- Run an event without the ledger. -/
def execEvent (s : StateDB) : BalanceEvent → Option StateDB
  | .op op => step op s
  | .opSelfdestruct readOnly contract beneficiary =>
    (opSelfdestruct vm readOnly contract beneficiary s).map Prod.snd
  | .opSelfdestruct6780 readOnly arbosVersion contract beneficiary =>
    (opSelfdestruct6780 vm readOnly arbosVersion contract beneficiary s).map Prod.snd

/-- The ledger only watches: the state takes the same way with and without it. -/
theorem runEvent_fst (x : StateDB × Ledger) (ev : BalanceEvent) :
    (runEvent x ev).map Prod.fst = execEvent x.1 ev := by
  cases ev with
  | op op =>
    simp only [runEvent, Option.map_map]
    exact map_id'
  | opSelfdestruct readOnly contract beneficiary =>
    simp only [runEvent, execEvent,
      opSelfdestruct_forget forgets_ledger readOnly contract beneficiary x, Option.map_map]
    rfl
  | opSelfdestruct6780 readOnly arbosVersion contract beneficiary =>
    simp only [runEvent, execEvent,
      opSelfdestruct6780_forget forgets_ledger readOnly arbosVersion contract beneficiary x,
      Option.map_map]
    rfl

/-- The events of the sequence, with no balance addition or subtraction that wraps. -/
def NoWrap (s : StateDB) : BalanceEvent → Prop
  | .op (.addBalance addr amount) => (s.getBalance addr).1.toNat + amount.toNat < 2 ^ 256
  | .op (.subBalance addr amount) => amount.toNat ≤ (s.getBalance addr).1.toNat
  | .op (.createAccount addr) => (s.exist addr).1 = false
  | .op (.setBalance _ _) | .op (.selfDestruct _) | .op (.selfDestruct6780 _) => True
  | .op (.createZombieIfDeleted _) => True
  | .op (.expectBalanceBurn _) | .op (.expectBalanceMint _) => True
  | .op .snapshot | .op (.revertToSnapshot _) | .op (.finalise _ _) => True
  | .op _ => False
  | .opSelfdestruct readOnly contract beneficiary => readOnly = false →
    (s.getBalance beneficiary).1.toNat + (s.getBalance contract).1.toNat < 2 ^ 256
  | .opSelfdestruct6780 readOnly arbosVersion contract beneficiary => readOnly = false →
    isStylusComponentPrefix (s.getCode contract).1 arbosVersion = false → beneficiary ≠ contract →
    (s.getBalance beneficiary).1.toNat + (s.getBalance contract).1.toNat < 2 ^ 256

inductive LedgerRun : StateDB × Ledger → List BalanceEvent → StateDB × Ledger → Prop where
  | nil (x : StateDB × Ledger) : LedgerRun x [] x
  | cons {x y z : StateDB × Ledger} {ev : BalanceEvent} {evs : List BalanceEvent}
      (hev : x.1.NoWrap ev) (hstep : runEvent x ev = some y) (hrest : LedgerRun y evs z) :
      LedgerRun x (ev :: evs) z

/-- A revision and the mark that was entered with it: the snapshot `p` they stem from can
    be reverted to, and the ledger was right there. -/
def Marked (base removed : Int) (s : StateDB) (r : Revision) (m : Mark) : Prop :=
  m.id = r.id ∧ ∃ p : StateDB, p.WF ∧ Inside p.snapshot.2 s ∧
    r = ⟨p.journal.nextRevisionId, p.journal.length, p.unexpectedBalanceDelta⟩ ∧
    p.drift + base = m.burned - m.minted + removed

/-- The invariant of a run that started with the sum of balances `base`. -/
structure Ledgered (base : Int) (x : StateDB × Ledger) : Prop where
  wf : x.1.WF
  drift : x.1.drift + base = x.2.burned - x.2.minted + x.2.removed
  marks : Forall₂ (Marked base x.2.removed x.1) x.1.journal.validRevisions.reverse x.2.marks

variable {base : Int} {s t : StateDB}

theorem Ledgered.entered {l' : Ledger} (h : Ledgered base (s, l)) (ht : Entered s l t l') :
    Ledgered base (t, l') := by
  have hwrites := Tx.writes ht.tx
  refine ⟨hwrites.wf h.wf, ?_, ?_⟩
  · have := h.drift
    have := ht.drift
    simp only [ht.removed] at *
    linarith
  · simp only [hwrites.journal.validRevisions, ht.marks, ht.removed]
    refine h.marks.imp fun r m => ?_
    rintro ⟨hid, p, hp, hin, hr, hdrift⟩
    exact ⟨hid, p, hp, hin.tx ht.tx, hr, hdrift⟩

theorem Ledgered.snapshot (h : Ledgered base (s, l)) :
    Ledgered base (s.snapshot.2, enter s s.snapshot.2 .snapshot l) := by
  refine ⟨h.wf.snapshot, h.drift, ?_⟩
  have hrevs : s.snapshot.2.journal.validRevisions.reverse =
      ⟨s.journal.nextRevisionId, s.journal.length, s.unexpectedBalanceDelta⟩ ::
        s.journal.validRevisions.reverse := by
    simp [StateDB.snapshot, Journal.snapshot]
  rw [hrevs]
  refine .cons ⟨rfl, s, h.wf, Inside.refl h.wf.snapshot, rfl, h.drift⟩ (h.marks.imp fun r m => ?_)
  rintro ⟨hid, p, hp, hin, hr, hdrift⟩
  exact ⟨hid, p, hp, hin.snapshot, hr, hdrift⟩

omit [Crypto] in
/-- Looking a mark up finds the one of the revision. -/
theorem forall₂_dropWhile {R : Revision → Mark → Prop} (hR : ∀ r m, R r m → m.id = r.id)
    {newer older : List Revision} {r : Revision} {marks : List Mark}
    (hne : ∀ r' ∈ newer, r'.id ≠ r.id) (h : Forall₂ R (newer ++ r :: older) marks) :
    ∃ m ms, marks.dropWhile (fun m => m.id ≠ r.id) = m :: ms ∧ R r m ∧ Forall₂ R older ms := by
  induction newer generalizing marks with
  | nil =>
    cases h with
    | @cons _ m _ ms hrm hrest =>
      refine ⟨m, ms, ?_, hrm, hrest⟩
      simp [hR r m hrm]
  | cons r' newer ih =>
    cases h with
    | @cons _ m _ ms hrm hrest =>
      obtain ⟨m', ms', hdrop, hm', hms'⟩ :=
        ih (fun r'' hr'' => hne r'' (mem_cons_of_mem _ hr'')) hrest
      refine ⟨m', ms', ?_, hm', hms'⟩
      rw [dropWhile_cons_of_pos, hdrop]
      simp [hR r' m hrm, hne r' mem_cons_self]

theorem Ledgered.revertToSnapshot {revid : Nat} (h : Ledgered base (s, l))
    (hrev : s.revertToSnapshot revid = some t) : Ledgered base (t, l.revert revid) := by
  obtain ⟨idx, r, q, hfind, -, hq, ht⟩ := revertToSnapshot_some hrev
  obtain ⟨hget, hrid⟩ := Journal.findRevision_some hfind
  obtain ⟨hidx, hgetElem⟩ := List.getElem?_eq_some_iff.mp hget
  have hsplit : s.journal.validRevisions =
      s.journal.validRevisions.take idx ++ r :: s.journal.validRevisions.drop (idx + 1) := by
    rw [← hgetElem, getElem_cons_drop, take_append_drop]
  have hsorted := h.wf.journal.sorted
  rw [hsplit, pairwise_append] at hsorted
  obtain ⟨-, hnewer, holder⟩ := hsorted
  have hmarks := h.marks
  rw [hsplit, reverse_append, reverse_cons, append_assoc] at hmarks
  have hne : ∀ r' ∈ (s.journal.validRevisions.drop (idx + 1)).reverse, r'.id ≠ r.id := by
    intro r' hr'
    have := (pairwise_cons.mp hnewer).1 r' (mem_reverse.mp hr')
    omega
  obtain ⟨m, ms, hdrop, hm, hms⟩ := forall₂_dropWhile (fun _ _ hrm => hrm.1) hne hmarks
  have hl : l.revert revid = { l with burned := m.burned, minted := m.minted, marks := ms } := by
    unfold Ledger.revert
    rw [← hrid, hdrop]
  obtain ⟨-, p, -, hin, hr, hdrift⟩ := hm
  -- the world and the delta are those of the snapshot
  rw [hr] at hq
  obtain ⟨hworld, hdelta⟩ := Undoable.world_undone (s := p.snapshot.2) hin.undoable hq
  have htdrift : t.drift = p.drift := by
    rw [ht]
    exact drift_of_world hworld hdelta
  have hrevs : t.journal.validRevisions = s.journal.validRevisions.take idx := by
    rw [ht]
    rw [(undoAll_frame hq).1]
    exact congrArg (take idx) (dropDirties_frame _ _).1
  rw [hl]
  refine ⟨h.wf.revertToSnapshot hrev, ?_, ?_⟩
  · rw [htdrift]
    exact hdrift
  · simp only [hrevs]
    have holderIds : ∀ r' ∈ (s.journal.validRevisions.take idx).reverse, r'.id < revid :=
      fun r' hr' => hrid ▸ holder r' (mem_reverse.mp hr') r mem_cons_self
    refine ((forall₂_and_left _ _).mpr ⟨holderIds, hms⟩).imp fun r' m' => ?_
    rintro ⟨hlt, hid', p', hp', hin', rfl, hdrift'⟩
    exact ⟨hid', p', hp', hin'.revertToSnapshot (snapshot_ids_le hp') hlt hrev, rfl, hdrift'⟩

theorem Ledgered.finalise (h : Ledgered base (s, l)) :
    Ledgered base (s.finalise ord del, enter s (s.finalise ord del) (.finalise ord del) l) := by
  have hclear := s.cleared_finalise ord del
  refine ⟨⟨hclear.journal ▸ Journal.WF.reset, hclear.accessList ▸ h.wf.accessList⟩, ?_, ?_⟩
  · have := h.drift
    simp only [enter, drift_finalise] at *
    linarith
  · exact .nil

/-- **Step lemma.** -/
theorem Ledgered.step {x y : StateDB × Ledger} {ev : BalanceEvent} (h : Ledgered base x)
    (hev : x.1.NoWrap ev) (hstep : runEvent x ev = some y) : Ledgered base y := by
  obtain ⟨s, l⟩ := x
  cases ev with
  | opSelfdestruct readOnly contract beneficiary =>
    obtain ⟨⟨e, t', l''⟩, hrun, heq⟩ := map_eq_some_iff.mp hstep
    cases heq
    simp only [NoWrap, getBalance_fst] at hev
    exact h.entered (entered_opSelfdestruct hrun hev)
  | opSelfdestruct6780 readOnly arbosVersion contract beneficiary =>
    obtain ⟨⟨e, t', l''⟩, hrun, heq⟩ := map_eq_some_iff.mp hstep
    cases heq
    simp only [NoWrap, getBalance_fst] at hev
    exact h.entered (entered_opSelfdestruct6780 hrun hev)
  | op op =>
    obtain ⟨t', hop, heq⟩ := map_eq_some_iff.mp hstep
    cases heq
    cases op with
    | addBalance addr amount =>
      cases hop
      simp only [NoWrap, getBalance_fst] at hev
      exact h.entered (.quiet l (s.tx_addBalance addr amount) (drift_addBalance hev))
    | subBalance addr amount =>
      cases hop
      simp only [NoWrap, getBalance_fst] at hev
      exact h.entered (.quiet l (s.tx_subBalance addr amount) (drift_subBalance hev))
    | setBalance addr amount =>
      cases hop
      exact h.entered (.quiet l (s.tx_setBalance addr amount) (s.drift_setBalance addr amount))
    | selfDestruct addr =>
      cases hop
      exact h.entered (.quiet l (s.tx_selfDestruct addr) (s.drift_selfDestruct addr))
    | selfDestruct6780 addr =>
      cases hop
      exact h.entered (.quiet l (s.tx_selfDestruct6780 addr) (s.drift_selfDestruct6780 addr))
    | createAccount addr =>
      have hnone : s.peek addr = none := by
        simpa [NoWrap, exist, getStateObject_fst] using hev
      cases hop
      exact h.entered (.quiet l (Logged.create s addr hnone).tx (drift_create _ hnone))
    | createZombieIfDeleted addr =>
      cases hop
      exact h.entered
        (.quiet l (s.tx_createZombieIfDeleted addr) (s.drift_createZombieIfDeleted addr))
    | expectBalanceBurn amount => exact h.entered (entered_expectBalanceBurn l hop)
    | expectBalanceMint amount => exact h.entered (entered_expectBalanceMint l hop)
    | snapshot => cases hop; exact h.snapshot
    | revertToSnapshot revid => exact h.revertToSnapshot hop
    | finalise ord del => cases hop; exact h.finalise ord del
    | _ => exact hev.elim

/-- **Run lemma.** -/
theorem Ledgered.run {x y : StateDB × Ledger} {evs : List BalanceEvent} (hrun : LedgerRun x evs y)
    (h : Ledgered base x) : Ledgered base y := by
  induction hrun with
  | nil => exact h
  | cons hev hstep _ ih => exact ih (h.step hev hstep)

/-- A state without changes since the last commit: a new one, or one just committed. -/
inductive JustCommitted : StateDB → Prop where
  | new (root : Hash) (db : Database) (reader : Reader) : JustCommitted (new root db reader)
  | commit {s t : StateDB} {ord : MapOrders} {deleteEmptyObjects noStorageWiping : Bool}
      {block : U64} {flush : FlushOutcome} {ret : StateUpdate} (hs : Reachable s)
      (h : s.commitAndFlush ord deleteEmptyObjects noStorageWiping block flush =
        some (.ok ret, t)) : JustCommitted t

theorem JustCommitted.reachable (h : JustCommitted s) : Reachable s := by
  cases h with
  | new root db reader => exact .new root db reader
  | @commit s _ ord del wipe block flush ret hs h =>
    refine hs.step (.commit ord del wipe block flush) ?_
    rw [step, h]
    rfl

/-- Then the delta is zero and no snapshot is open. -/
theorem JustCommitted.fresh (h : JustCommitted s) :
    s.unexpectedBalanceDelta = 0 ∧ s.journal.validRevisions = [] := by
  cases h with
  | new root db reader => exact ⟨rfl, rfl⟩
  | @commit s _ ord del wipe block flush ret hs h =>
    refine ⟨?_, ?_⟩
    · obtain ⟨⟨res, r⟩, -, h⟩ := bind_eq_some_iff.mp h
      cases res with
      | error err => cases h
      | ok ret =>
        cases flush with
        | done reader =>
          cases h
          rfl
        | codeError | wasmError | trieError => cases h
    · rcases commitAndFlush_frame h with ⟨-, -, -, err, herr⟩ | ⟨-, hclear⟩
      · cases herr
      · rw [hclear.journal]
        rfl

/-- **The unexpected balance delta is the change of the sum of all balances since the
    last commit, corrected by what was expected to be burned or minted and by what
    removed accounts still held.** -/
theorem unexpectedBalanceDelta_eq {s t : StateDB} {l : Ledger} {evs : List BalanceEvent}
    (hs : JustCommitted s) (hrun : LedgerRun (s, .empty) evs (t, l)) :
    t.getUnexpectedBalanceDelta =
      t.totalBalance - s.totalBalance + l.burned - l.minted + l.removed := by
  obtain ⟨hdelta, hrevs⟩ := hs.fresh
  have hstart : Ledgered s.world.total (s, .empty) := by
    refine ⟨hs.reachable.wf, ?_, ?_⟩
    · simp [drift, hdelta, Ledger.empty]
    · simp only [hrevs]
      exact .nil
  have hend := (hstart.run hrun).drift
  rw [totalBalance_eq, totalBalance_eq]
  simp only [drift] at hend
  change t.unexpectedBalanceDelta = _
  linarith

omit [Crypto] in
/-- An account is funded and destructs itself in favour of itself, which burns its
    balance; then the transaction is finalised. -/
theorem unexpectedBalanceDelta_selfdestruct :
    letI := numberCrypto
    ∃ t l, LedgerRun (new 0 .empty .empty, .empty)
        [.op (.addBalance 7 5), .opSelfdestruct false 7 7, .op (.finalise .ascending true)] (t, l) ∧
      l.burned = 5 ∧ t.getUnexpectedBalanceDelta =
        t.totalBalance - (new 0 .empty .empty).totalBalance + l.burned - l.minted + l.removed := by
  let _ : Crypto := numberCrypto
  have hrun : LedgerRun (new 0 .empty .empty, .empty)
      [.op (.addBalance 7 5), .opSelfdestruct false 7 7, .op (.finalise .ascending true)] _ :=
    .cons (by simp only [NoWrap]; decide) rfl (.cons (fun _ => by decide) rfl
      (.cons trivial rfl (.nil _)))
  exact ⟨_, _, hrun, rfl, unexpectedBalanceDelta_eq (.new _ _ _) hrun⟩

end StateDB

end GethArb
