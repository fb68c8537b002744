/-
  **The contract a message deploys** (`TopLevelDeployed` of the result of `execute`).

  A message with a recipient deploys nothing.  One without reports the address computed from
  its sender and the sender's nonce, if `create` comes to the opening of the contract.  What
  decides that is there before the message is applied (`Evm.Opens`): nothing that happens up to
  the creation changes a nonce or makes an account one in use.  Otherwise the result has no
  address, or the zero address (`deployed_of_applyMessage`).

  The processing hook and what runs inside the EVM are parameters; `Evm.OnStateDB` says what
  they may do.
-/
import GethArb.StateProcessor

namespace GethArb

open Multigas Traced

section
variable [Crypto]

/-! ### Accounts in use -/

namespace StateDB

/-- The account as the getters read it. -/
def accountOf (s : StateDB) (addr : Address) : Option StateAccount := (s.peek addr).map (·.data)

/-- The nonce of an account, and whether it is in use: nothing can be created there. -/
def standing : Option StateAccount → U64 × Bool
  | none => (0, false)
  | some acct => (acct.nonce, acct.nonce ≠ 0 ||
      (acct.codeHash ≠ 0 && acct.codeHash ≠ emptyCodeHash) ||
      (acct.root ≠ 0 && acct.root ≠ emptyRootHash))

variable (s : StateDB) (addr a : Address)

theorem readObject_accountOf {α : Type} (dflt : α) (f : StateAccount → α) :
    (s.readObject addr dflt fun obj => f obj.data).1 = (s.accountOf addr).elim dflt f := by
  unfold readObject accountOf
  rcases s.getStateObject_cases addr with ⟨t, heq, hpeek, -⟩ | ⟨obj, t, heq, hpeek, -⟩
  · simp [heq, hpeek]
  · simp [heq, hpeek]

theorem accountOf_setStateObject (obj : StateObject) :
    (s.setStateObject addr obj).accountOf a = if a = addr then some obj.data
      else s.accountOf a := by
  unfold accountOf peek setStateObject
  rw [GoMap.lookup_insert_ite]
  split
  · rfl
  · rfl

theorem standing_getOrNewStateObject :
    standing ((s.getOrNewStateObject addr).2.accountOf a) = standing (s.accountOf a) := by
  have hpeek : (s.getStateObject addr).2.accountOf a = s.accountOf a := by
    rw [accountOf, peek_getStateObject, accountOf]
  unfold getOrNewStateObject
  rcases s.getStateObject_cases addr with ⟨t, heq, hnone, -⟩ | ⟨obj, t, heq, -⟩
  · rw [heq] at hpeek ⊢
    simp only [createObject, accountOf_setStateObject]
    split
    · rename_i ha
      rw [ha, accountOf, hnone]
      simp [standing, newObject, newEmptyStateAccount]
    · exact congrArg standing hpeek
  · rw [heq] at hpeek ⊢
    exact congrArg standing hpeek

/-- The account at an address that was just looked up. -/
theorem accountOf_getOrNewStateObject :
    (s.getOrNewStateObject addr).2.accountOf addr =
      some (s.getOrNewStateObject addr).1.data := by
  rw [accountOf, peek_of_lookup _ (s.getOrNewStateObject_spec addr).2]
  rfl

theorem standing_subBalance (amount : U256) :
    standing ((s.subBalance addr amount).2.accountOf a) = standing (s.accountOf a) := by
  rw [← standing_getOrNewStateObject s addr a]
  simp only [subBalance]
  split
  · rfl
  simp only [objectSetBalance, accountOf_setStateObject]
  split
  · rename_i ha
    rw [ha, accountOf_getOrNewStateObject]
    rfl
  · rfl

/-- Only the account itself gets another standing. -/
theorem standing_setNonce (nonce : U64) (ha : a ≠ addr) :
    standing ((s.setNonce addr nonce).accountOf a) = standing (s.accountOf a) := by
  rw [← standing_getOrNewStateObject s addr a]
  simp only [setNonce, objectSetNonce, accountOf_setStateObject, if_neg ha]
  rfl

theorem standing_setNonce_self {nonce : U64} (hnonce : nonce ≠ 0) :
    (standing ((s.setNonce addr nonce).accountOf addr)).2 = true := by
  have hnonce : ¬nonce = 0#64 := hnonce
  simp [setNonce, objectSetNonce, accountOf_setStateObject, standing, StateObject.setNonce, hnonce]

omit [Crypto] in
theorem prepare_some {s s' : StateDB} {isEIP2929 isEIP4762 isShanghai : Bool}
    {sender coinbase : Address} {dst : Option Address} {precompiles : List Address}
    {list : List AccessTuple}
    (h : s.prepare isEIP2929 isEIP4762 isShanghai sender coinbase dst precompiles list = some s') :
    ∃ al, s' = { s with accessList := al, transientStorage := ∅ } := by
  unfold prepare at h
  split at h
  · cases h
  split at h
  · obtain ⟨al, -, rfl⟩ := Option.map_eq_some_iff.mp h
    exact ⟨al, rfl⟩
  · cases h
    exact ⟨s.accessList, rfl⟩

end StateDB

namespace Core

open Tx StateDB

/-- Nonces are the same, and the same accounts are in use. -/
def SameStanding (w v : World StateDB) : Prop :=
  ∀ a, standing (v.state.accountOf a) = standing (w.state.accountOf a)

instance : Std.Refl SameStanding := ⟨fun _ _ => rfl⟩

instance : IsTrans (World StateDB) SameStanding :=
  ⟨fun _ _ _ h h' a => (h' a).trans (h a)⟩

/-- Only operations of a message, and no gas is added to that of the block. -/
def Keeps (w v : World StateDB) : Prop := Moves w.state v.state ∧ v.usedGas = w.usedGas

instance : Std.Refl Keeps := ⟨fun w => ⟨.refl w.state, rfl⟩⟩

instance : IsTrans (World StateDB) Keeps :=
  ⟨fun _ _ _ h h' => ⟨h.1.trans h'.1, h'.2.trans h.2⟩⟩

/-- The start hook ends the transaction. -/
def Evm.Ends (evm : Evm StateDB) (t : Option Hooks) (w : World StateDB) : Prop :=
  ∃ used err ret v, (evm.hook.startTxHook t w).1 = (.ok (true, used, err, ret), v)

/-- The hook knows the transaction as one that is to fail. -/
def Evm.Reverts (evm : Evm StateDB) : Prop :=
  ∃ gas used t w used' gas' err v,
    (evm.hook.revertedTxHook gas used t w).1 = (.ok (used', gas', some err), v)

/-- The EVM works on a `StateDB`, and at the top level.  The hook may change balances before the
    creation, but no account that is in use; whether a transaction is to fail it knows from the
    message. -/
class Evm.OnStateDB (evm : Evm StateDB) : Prop where
  db : ∃ ord stateless, evm.db = methods ord stateless
  createAddress : evm.createAddress = Core.createAddress
  depth : evm.depth = 0
  startTxHook : ∀ t w, Keeps w (evm.hook.startTxHook t w).1.2
  startTxHook_ok : ∀ {t w used err ret v},
    (evm.hook.startTxHook t w).1 = (.ok (false, used, err, ret), v) → SameStanding w v
  gasChargingHook : ∀ gas intrinsic t w, Keeps w (evm.hook.gasChargingHook gas intrinsic t w).1.2 ∧
    SameStanding w (evm.hook.gasChargingHook gas intrinsic t w).1.2
  revertedTxHook : ∀ gas used t w, Keeps w (evm.hook.revertedTxHook gas used t w).1.2
  revertedTxHook_ok : ∀ {gas used t w used' gas' v},
    (evm.hook.revertedTxHook gas used t w).1 = (.ok (used', gas', none), v) →
      ¬evm.Reverts ∧ SameStanding w v ∧
        ∀ a, evm.db.getBalance a v.state = evm.db.getBalance a w.state
  endTxHook : ∀ gas used ok t w, Keeps w (evm.hook.endTxHook gas used ok t w).1.2
  call : ∀ caller to_ data gas value t w, Keeps w (evm.call caller to_ data gas value t w).1.2
  initContract : ∀ snapshot caller addr code gas value used t w,
    Keeps w (evm.initContract snapshot caller addr code gas value used t w).1.2
  fillReceiptInfo : ∀ s r, ∃ gas, evm.hook.fillReceiptInfo s r = { r with gasUsedForL1 := gas }

/-- The address `create` answers with, or zero. -/
def Evm.createdAt (evm : Evm StateDB) (caller address : Address) (s : StateDB) : Address :=
  if evm.db.getNonce caller s + 1 < evm.db.getNonce caller s ∨ evm.collides address s ∨
    address = caller then 0 else address

/-- Where the message creates its contract. -/
def Evm.contractOf (evm : Evm StateDB) (msg : Message) (s : StateDB) : Address :=
  evm.createAddress msg.from_ (evm.db.getNonce msg.from_ s)

/-- **The creation comes to the opening of the contract**: the hooks let it pass, the nonce can
    be raised, and the address is free, not the sender's own and not zero. -/
structure Evm.Opens (evm : Evm StateDB) (msg : Message) (t : Option Hooks) (w : World StateDB) :
    Prop where
  goes : ¬evm.Ends t w
  accepted : ¬evm.Reverts
  nonce : ¬evm.db.getNonce msg.from_ w.state + 1 < evm.db.getNonce msg.from_ w.state
  free : evm.collides (evm.contractOf msg w.state) w.state = false
  notSender : evm.contractOf msg w.state ≠ msg.from_
  nonzero : evm.contractOf msg w.state ≠ 0

variable {evm : Evm StateDB} [honDB : evm.OnStateDB] {msg : Message} {t : Option Hooks}
variable {w v : World StateDB}

theorem getNonce_eq (a : Address) (s : StateDB) :
    evm.db.getNonce a s = (standing (s.accountOf a)).1 := by
  obtain ⟨ord, stateless, hdb⟩ := honDB.db
  rw [hdb]
  refine (s.readObject_accountOf a 0 (·.nonce)).trans ?_
  cases s.accountOf a <;> rfl

theorem collides_eq (a : Address) (s : StateDB) :
    evm.collides a s = (standing (s.accountOf a)).2 := by
  obtain ⟨ord, stateless, hdb⟩ := honDB.db
  have hhash : (s.getCodeHash a).1 = _ := s.readObject_accountOf a 0 (·.codeHash)
  have hroot : (s.getStorageRoot a).1 = _ := s.readObject_accountOf a 0 (·.root)
  have hnonce : (s.getNonce a).1 = _ := s.readObject_accountOf a 0 (·.nonce)
  simp only [Evm.collides, hdb, methods, hhash, hroot, hnonce]
  cases s.accountOf a with
  | none => rfl
  | some acct => rfl

/-! ### Admission -/

theorem standing_of_admission {s s' : StateDB} (h : evm.db.Admission s s') (a : Address) :
    standing (s'.accountOf a) = standing (s.accountOf a) := by
  obtain ⟨ord, stateless, hdb⟩ := honDB.db
  rw [hdb] at h
  cases h with
  | subBalance addr amount => exact standing_subBalance s addr a amount
  | addTxOrigin | addTxDestination => rfl
  | prepare h =>
    obtain ⟨al, rfl⟩ := prepare_some h
    rfl

instance admits_sameStanding : evm.Admits (within _ _ _ SameStanding) where
  gasChargingHook gas intrinsic := ⟨fun t w => (honDB.gasChargingHook gas intrinsic t w).2⟩
  stay _ _ := rfl
  gp _ _ _ := rfl
  admission _ _ hs := standing_of_admission hs

omit [Crypto] honDB in
theorem require_ok {σ : Type} {c : Bool} {err : ApplyError} {u : Unit} {w v : World σ}
    (h : (require c err t w).1 = (.ok u, v)) : c = true ∧ v = w := by
  unfold require at h
  split at h
  · rename_i hc
    cases h
    exact ⟨hc, rfl⟩
  · cases h

omit [Crypto] honDB in
theorem readState_ok {σ α : Type} {f : σ → α} {a : α} {w v : World σ}
    (h : (readState f t w).1 = (.ok a, v)) : f w.state = a ∧ w = v := by
  cases h
  exact ⟨rfl, rfl⟩

omit [Crypto] honDB in
theorem tryState_ok {σ α : Type} {f : σ → Option (α × σ)} {w v : World σ} {a : α}
    (hrun : (tryState f t w).1 = (.ok a, v)) :
    ∃ s, f w.state = some (a, s) ∧ v = { w with state := s } := by
  obtain ⟨found, w₁, hread, hrun⟩ := bind_inv hrun
  obtain ⟨rfl, rfl⟩ := readState_ok hread
  obtain ⟨_, w₂, hupdate, hrun⟩ := bind_inv hrun
  rcases hf : f w.state with _ | ⟨b, s⟩
  · rw [hf] at hrun
    cases hrun
  rw [hf] at hrun
  cases hrun
  refine ⟨s, rfl, ?_⟩
  cases hupdate
  simp only [hf]
  rfl

omit [Crypto] honDB in
/-- The nonce was checked, and nothing changed. -/
theorem checkNonce_ok {u : Unit} (h : (evm.checkNonce msg t w).1 = (.ok u, v)) :
    v = w ∧ (msg.skipNonceChecks = false → evm.db.getNonce msg.from_ w.state = msg.nonce) := by
  unfold Evm.checkNonce at h
  split at h
  · rename_i hskip
    cases h
    exact ⟨rfl, fun hno => absurd (hskip.symm.trans hno) (by decide)⟩
  obtain ⟨nonce, w₁, hread, h⟩ := bind_inv h
  obtain ⟨rfl, rfl⟩ := readState_ok hread
  obtain ⟨_, w₂, hhigh, h⟩ := bind_inv h
  obtain ⟨hhigh, rfl⟩ := require_ok hhigh
  obtain ⟨_, w₃, hlow, h⟩ := bind_inv h
  obtain ⟨hlow, rfl⟩ := require_ok hlow
  obtain ⟨-, rfl⟩ := require_ok h
  simp only [Bool.not_eq_true', decide_eq_false_iff_not, BitVec.not_lt] at hhigh hlow
  exact ⟨rfl, fun _ => BitVec.le_antisymm hlow hhigh⟩

/-- The message is the same up to what is paid for the gas. -/
def SameCall (msg msg' : Message) : Prop :=
  msg'.to_ = msg.to_ ∧ msg'.from_ = msg.from_ ∧ msg'.nonce = msg.nonce ∧
    msg'.skipNonceChecks = msg.skipNonceChecks

omit [Crypto] honDB in
theorem dropTip_returns (msg : Message) : Returns (SameCall msg) (evm.dropTip msg) := by
  apply returns_bind
  intro collectTips
  apply returns_ite
  · exact returns_pure ⟨rfl, rfl, rfl, rfl⟩
  · apply returns_bind
    intro baseFee
    apply returns_pure
    split
    · exact ⟨rfl, rfl, rfl, rfl⟩
    · exact ⟨rfl, rfl, rfl, rfl⟩

omit [Crypto] honDB in
theorem checkTransfer_ok {u : Unit} (h : (evm.checkTransfer msg t w).1 = (.ok u, v)) :
    v = w ∧ BitVec.ofInt 256 msg.value ≤ evm.db.getBalance msg.from_ w.state := by
  obtain ⟨_, w₁, hfits, hrest⟩ := bind_inv h
  obtain ⟨-, hw₁⟩ := require_ok hfits
  obtain ⟨balance, w₂, hread, hrest⟩ := bind_inv hrest
  obtain ⟨hbalance, hw₂⟩ := readState_ok hread
  obtain ⟨_, w₃, hvalue, hsize⟩ := bind_inv hrest
  obtain ⟨hvalue, hw₃⟩ := require_ok hvalue
  obtain ⟨-, hv⟩ := require_ok hsize
  rw [hv, hw₃, ← hw₂, hw₁]
  rw [← hbalance, hw₁] at hvalue
  refine ⟨rfl, ?_⟩
  by_cases hzero : msg.value = 0
  · simp [hzero, BitVec.le_def]
  · simpa [hzero] using hvalue

theorem getBalance_prepare {rules : Rules} {sender coinbase : Address} {dst : Option Address}
    {precompiles : List Address} {list : Tx.AccessList} {s s' : StateDB}
    (h : evm.db.prepare rules sender coinbase dst precompiles list s = some s') (a : Address) :
    evm.db.getBalance a s' = evm.db.getBalance a s := by
  obtain ⟨ord, stateless, hdb⟩ := honDB.db
  rw [hdb] at h ⊢
  obtain ⟨al, rfl⟩ := prepare_some h
  simp only [methods, getBalance_fst]
  rfl

/-- The sender can pay the value when the state is prepared. -/
theorem chargeMessage_ok {adm : Evm.Admitted}
    (h : (evm.chargeMessage msg t w).1 = (.ok adm, v)) :
    adm.msg = msg ∧ BitVec.ofInt 256 msg.value ≤ evm.db.getBalance msg.from_ v.state := by
  obtain ⟨iMultiGas, w₁, -, h⟩ := bind_inv h
  obtain ⟨_, w₂, -, h⟩ := bind_inv h
  obtain ⟨floor, w₃, -, h⟩ := bind_inv h
  obtain ⟨_, w₄, -, h⟩ := bind_inv h
  obtain ⟨⟨tipReceipient, multiGas, gasRemaining⟩, w₅, -, h⟩ := bind_inv h
  obtain ⟨_, w₆, -, h⟩ := bind_inv h
  obtain ⟨_, w₇, htransfer, h⟩ := bind_inv h
  obtain ⟨_, w₈, hprepare, h⟩ := bind_inv h
  cases h
  obtain ⟨rfl, hbalance⟩ := checkTransfer_ok htransfer
  obtain ⟨s, hs, rfl⟩ := tryState_ok hprepare
  obtain ⟨s', hs, hpair⟩ := Option.map_eq_some_iff.mp hs
  cases hpair
  refine ⟨rfl, ?_⟩
  rw [getBalance_prepare hs]
  exact hbalance

/-- At the top level call nonces and accounts in use are those from before, and the sender can
    pay the value. -/
theorem admitMessage_ok {adm : Evm.Admitted} (h : (evm.admitMessage msg t w).1 = (.ok adm, v)) :
    SameCall msg adm.msg ∧ SameStanding w v ∧
      BitVec.ofInt 256 adm.msg.value ≤ evm.db.getBalance adm.msg.from_ v.state ∧
      (msg.skipNonceChecks = false → evm.db.getNonce msg.from_ w.state = msg.nonce) := by
  have hsame : SameStanding w v := by
    have hobeys : Obeys (within _ _ _ SameStanding) (evm.admitMessage msg) := inferInstance
    have hsame := hobeys.holds t w
    rw [h] at hsame
    exact hsame
  obtain ⟨msg₁, w₁, hdrop, h⟩ := bind_inv h
  obtain ⟨_, w₂, hpre, hcharge⟩ := bind_inv h
  obtain ⟨_, w₁', hcheck, -⟩ := bind_inv hpre
  have hcall := dropTip_returns msg t w msg₁ w₁ hdrop
  obtain ⟨hmsg, hbalance⟩ := chargeMessage_ok hcharge
  obtain ⟨-, hnonce⟩ := checkNonce_ok hcheck
  have hdropped : SameStanding w w₁ := by
    have hobeys : Obeys (within _ _ _ SameStanding) (evm.dropTip msg) := inferInstance
    have hsame := hobeys.holds t w
    rw [hdrop] at hsame
    exact hsame
  rw [hmsg]
  refine ⟨hcall, hsame, hbalance, ?_⟩
  obtain ⟨-, hfrom, hn, hskip⟩ := hcall
  intro hno
  have hkept : evm.db.getNonce msg.from_ w₁.state = evm.db.getNonce msg.from_ w.state := by
    rw [getNonce_eq, getNonce_eq, hdropped]
  rw [← hkept, ← hfrom, ← hn]
  exact hnonce (hskip.trans hno)

/-! ### Creation -/

variable {caller address : Address} {code : Bytes} {gas : U64} {value : U256}
variable {created : Evm.Created} (hrules : evm.rules.isEIP4762 = false)
include hrules

/-- Without EIP-4762 the only thing in the way is an account in use. -/
theorem deployAt_ok {used : MultiGas}
    (h : (evm.deployAt caller code gas value address used t w).1 = (.ok created, v)) :
    created.2.1 = if (standing (w.state.accountOf address)).2 then 0 else address := by
  obtain ⟨_, w₁, hlist, h⟩ := bind_inv h
  have hstate : w₁.state.accountOf address = w.state.accountOf address := by
    obtain ⟨ord, stateless, hdb⟩ := honDB.db
    cases hlist
    simp only [hdb, methods, addAddressToAccessList]
    split
    · split
      · rfl
      · rfl
    · rfl
  obtain ⟨collision, w₂, hread, h⟩ := bind_inv h
  obtain ⟨rfl, rfl⟩ := readState_ok hread
  rw [collides_eq, hstate] at h
  split at h
  · rename_i hin
    rw [if_pos hin]
    cases h
    rfl
  · rename_i hin
    rw [if_neg hin]
    obtain ⟨snapshot, w₂, -, h⟩ := bind_inv h
    rw [hrules] at h
    obtain ⟨⟨consumed, wanted⟩, w₃, hfree, h⟩ := bind_inv h
    cases hfree
    obtain ⟨_, w₄, -, h⟩ := bind_inv h
    obtain ⟨⟨ret, left, used', err⟩, w₅, -, h⟩ := bind_inv h
    cases h
    rfl

/-- The nonce of the caller is raised before, so the caller is in use. -/
theorem createAt_ok {nonce : U64} (hnonce : ¬nonce + 1 < nonce)
    (h : (evm.createAt caller code gas value address nonce t w).1 = (.ok created, v)) :
    created.2.1 =
      if (standing (w.state.accountOf address)).2 ∨ address = caller then 0 else address := by
  obtain ⟨_, w₁, hset, h⟩ := bind_inv h
  have hw₁ : w₁.state = w.state.setNonce caller (nonce + 1) := by
    obtain ⟨ord, stateless, hdb⟩ := honDB.db
    cases hset
    simp only [hdb, methods]
  rw [hrules] at h
  obtain ⟨_, w₂, hfree, h⟩ := bind_inv h
  cases hfree
  have hgas : ¬gas < 0 := by simp
  beta_reduce at h
  rw [if_neg hgas] at h
  obtain ⟨_, w₃, htrace, h⟩ := bind_inv h
  cases htrace
  rw [deployAt_ok hrules h, hw₁]
  by_cases hself : address = caller
  · have hzero : nonce + 1 ≠ 0 := by bv_omega
    rw [hself, standing_setNonce_self _ _ hzero]
    simp
  · rw [standing_setNonce _ _ _ _ hself]
    simp [hself]

theorem createBody_ok (hbalance : value ≤ evm.db.getBalance caller w.state)
    (h : (evm.createBody caller code gas value address t w).1 = (.ok created, v)) :
    created.2.1 = evm.createdAt caller address w.state := by
  obtain ⟨ord, stateless, hdb⟩ := honDB.db
  unfold Evm.createBody at h
  rw [honDB.depth, if_neg (by decide)] at h
  obtain ⟨_, w₁, htouch, h⟩ := bind_inv h
  have hw₁ : w₁ = w := by
    cases htouch
    simp only [hdb, methods]
  rw [hw₁] at h
  obtain ⟨balance, w₂, hread, h⟩ := bind_inv h
  obtain ⟨rfl, rfl⟩ := readState_ok hread
  rw [if_neg (BitVec.not_lt.mpr hbalance)] at h
  obtain ⟨nonce, w₃, hread, h⟩ := bind_inv h
  obtain ⟨rfl, rfl⟩ := readState_ok hread
  split at h
  · rename_i hmax
    cases h
    exact (if_pos (.inl hmax)).symm
  · rename_i hmax
    rw [createAt_ok hrules hmax h, Evm.createdAt, collides_eq, if_congr (or_iff_right hmax) rfl rfl]

theorem create_ok (hbalance : value ≤ evm.db.getBalance caller w.state)
    (h : (evm.create caller code gas value t w).1 = (.ok created, v)) :
    created.2.1 = evm.createdAt caller
      (evm.createAddress caller (evm.db.getNonce caller w.state)) w.state := by
  obtain ⟨nonce, w₁, hread, h⟩ := bind_inv h
  obtain ⟨rfl, rfl⟩ := readState_ok hread
  obtain ⟨_, w₂, hbegin, h⟩ := bind_inv h
  cases hbegin
  obtain ⟨⟨ret, addr, left, used, err⟩, w₃, hbody, h⟩ := bind_inv h
  obtain ⟨_, w₄, -, h⟩ := bind_inv h
  cases h
  exact createBody_ok hrules hbalance hbody

/-! ### The whole message -/

omit hrules honDB in
theorem topLevelCall_returns (msg : Message) (to_ : Address) (gas : U64) (used : MultiGas) :
    Returns (fun top : Evm.TopLevel => top.deployed = none)
      (evm.topLevelCall msg to_ gas used) := by
  iterate 5
    apply returns_bind
    intro _
  exact returns_pure rfl

omit [Crypto] hrules honDB in
theorem settle_returns (msg : Message) (floor : U64) (tipReceipient : Address)
    (top : Evm.TopLevel) :
    Returns (fun result : ExecutionResult => result.topLevelDeployed = top.deployed)
      (evm.settle msg floor tipReceipient top) := by
  iterate 11
    apply returns_bind
    intro _
  exact returns_pure rfl

omit hrules in
theorem SameStanding.getNonce (h : SameStanding w v) (a : Address) :
    evm.db.getNonce a v.state = evm.db.getNonce a w.state := by
  rw [getNonce_eq, getNonce_eq, h]

omit hrules in
theorem SameStanding.createdAt (h : SameStanding w v) (caller address : Address) :
    evm.createdAt caller address v.state = evm.createdAt caller address w.state := by
  unfold Evm.createdAt
  rw [h.getNonce, collides_eq, collides_eq, h]

/-- What a creation reports, from the state before the hook is asked. -/
theorem topLevel_ok {used : MultiGas} {top : Evm.TopLevel} (hto : msg.to_ = none)
    (hbalance : BitVec.ofInt 256 msg.value ≤ evm.db.getBalance msg.from_ w.state)
    (h : (evm.topLevel msg gas used t w).1 = (.ok top, v)) :
    (evm.Reverts ∧ top.deployed = none) ∨ (¬evm.Reverts ∧
      top.deployed = some (evm.createdAt msg.from_ (evm.contractOf msg w.state) w.state)) := by
  obtain ⟨⟨used', gas', vmerr⟩, w₁, hhook, h⟩ := bind_inv h
  rcases vmerr with _ | err
  · obtain ⟨hreverts, hsame, hbalances⟩ := honDB.revertedTxHook_ok hhook
    simp only [hto] at h
    obtain ⟨created, w₂, hcreate, h⟩ := bind_inv h
    cases h
    have hcreated := create_ok hrules (by rw [hbalances]; exact hbalance) hcreate
    rw [hsame.getNonce, hsame.createdAt] at hcreated
    exact .inr ⟨hreverts, congrArg some hcreated⟩
  · cases h
    exact .inl ⟨⟨_, _, _, _, _, _, _, _, hhook⟩, rfl⟩

/-- What is reported as deployed. -/
structure Deploys (evm : Evm StateDB) (msg : Message) (t : Option Hooks) (w : World StateDB)
    (addr : Address) : Prop where
  call : msg.to_ ≠ none → addr = 0
  opens : msg.to_ = none → evm.Opens msg t w → addr = evm.contractOf msg w.state ∧
    (msg.skipNonceChecks = false → evm.db.getNonce msg.from_ w.state = msg.nonce)
  closed : msg.to_ = none → ¬evm.Opens msg t w → addr = 0

variable {result : ExecutionResult}

omit hrules in
theorem executeMessage_ok (hgoes : ¬evm.Ends t w) {w₁ : World StateDB} (hstart : SameStanding w w₁)
    (hrules : msg.to_ = none → evm.rules.isEIP4762 = false)
    (h : (evm.executeMessage msg t w₁).1 = (.ok result, v)) :
    Deploys evm msg t w (result.topLevelDeployed.getD 0) := by
  obtain ⟨adm, w₂, hadmit, h⟩ := bind_inv h
  obtain ⟨top, w₃, htop, hsettle⟩ := bind_inv h
  obtain ⟨⟨hto, hfrom, hn, hskip⟩, hsame, hbalance, hnonce⟩ := admitMessage_ok hadmit
  rw [settle_returns _ _ _ top t w₃ result v hsettle]
  have hall : SameStanding w w₂ := IsTrans.trans _ _ _ hstart hsame
  have hcontract : evm.contractOf adm.msg w₂.state = evm.contractOf msg w.state := by
    rw [Evm.contractOf, hall.getNonce, hfrom, Evm.contractOf]
  constructor
  · intro hcall
    obtain ⟨to_, hsome⟩ := Option.ne_none_iff_exists'.mp hcall
    obtain ⟨⟨used', gas', vmerr⟩, w₄, -, htop⟩ := bind_inv htop
    rcases vmerr with _ | err
    · simp only [hto, hsome] at htop
      rw [topLevelCall_returns adm.msg to_ _ _ t w₄ top w₃ htop]
      rfl
    · cases htop
      rfl
  · intro hcreate hopens
    rcases topLevel_ok (hrules hcreate) (hto.trans hcreate) hbalance htop with
      ⟨hreverts, -⟩ | ⟨-, hdeployed⟩
    · exact absurd hreverts hopens.accepted
    rw [hdeployed, hcontract, hall.createdAt, hfrom]
    refine ⟨if_neg ?_, fun hno => ?_⟩
    · rw [hopens.free]
      simpa [hopens.notSender] using hopens.nonce
    · rw [← hstart.getNonce]
      exact hnonce hno
  · intro hcreate hclosed
    rcases topLevel_ok (hrules hcreate) (hto.trans hcreate) hbalance htop with
      ⟨-, hdeployed⟩ | ⟨haccepted, hdeployed⟩
    · rw [hdeployed]
      rfl
    rw [hdeployed, hcontract, hall.createdAt, hfrom]
    change ite _ _ _ = 0
    rw [ite_eq_left_iff, not_or, not_or]
    rintro ⟨hmax, hfree, hself⟩
    by_contra hzero
    exact hclosed ⟨hgoes, haccepted, hmax, Bool.eq_false_iff.mpr hfree, hself, hzero⟩

omit hrules in
/-- **What a message deploys** is known before it is applied, up to EIP-4762. -/
theorem deployed_of_applyMessage (hrules : msg.to_ = none → evm.rules.isEIP4762 = false)
    (h : (evm.applyMessage msg t w).1 = (.ok result, v)) :
    Deploys evm msg t w (result.topLevelDeployed.getD 0) := by
  obtain ⟨⟨endTxNow, used, err, returnData⟩, w₁, hstart, h⟩ := bind_inv h
  cases endTxNow with
  | true =>
    cases h
    have hends : evm.Ends t w := ⟨_, _, _, _, hstart⟩
    exact ⟨fun _ => rfl, fun _ hopens => absurd hends hopens.goes, fun _ _ => rfl⟩
  | false =>
    refine executeMessage_ok ?_ (honDB.startTxHook_ok hstart) hrules h
    rintro ⟨used', err', ret', v', hends⟩
    rw [hstart] at hends
    cases hends

end Core

end

end GethArb
