/-
  **The EVM's view of the state**: the part of the `StateDB` interface of
  `core/vm/interface.go` that the `SELFDESTRUCT` handlers call, and the handlers
  (`core/vm/instructions.go`).  The handlers are generic in the state, as the
  source's are, so that they can run on a `StateDB` or on an instrumented one.
-/
import GethArb.StateDB

namespace GethArb

/-! ### Stylus code -/

def arbosVersionStylus : U64 := 30

def arbosVersionStylusContractLimit : U64 := 60

def stylusDiscriminant : Bytes := [0xEF, 0xF0, 0x00]

def stylusFragmentsDiscriminant : Bytes := [0xEF, 0xF0, 0x01]

def stylusRootDiscriminant : Bytes := [0xEF, 0xF0, 0x02]

/-- The shape of the three prefix tests: the discriminant, and at least one byte more. -/
def hasStylusPrefix (discriminant b : Bytes) : Bool :=
  decide (discriminant.length < b.length) && discriminant.isPrefixOf b

def isStylusClassicProgramPrefix : Bytes → Bool := hasStylusPrefix stylusDiscriminant

def isStylusFragmentPrefix : Bytes → Bool := hasStylusPrefix stylusFragmentsDiscriminant

def isStylusRootProgramPrefix : Bytes → Bool := hasStylusPrefix stylusRootDiscriminant

def isStylusDeployableProgramPrefix (b : Bytes) (arbosVersion : U64) : Bool :=
  if arbosVersion < arbosVersionStylus then false
  else if arbosVersion < arbosVersionStylusContractLimit then isStylusClassicProgramPrefix b
  else isStylusClassicProgramPrefix b || isStylusRootProgramPrefix b

def isStylusComponentPrefix (b : Bytes) (arbosVersion : U64) : Bool :=
  if arbosVersion < arbosVersionStylusContractLimit then
    isStylusDeployableProgramPrefix b arbosVersion
  else isStylusDeployableProgramPrefix b arbosVersion || isStylusFragmentPrefix b

/-! ### The handlers of SELFDESTRUCT -/

universe u

/-- The methods of the EVM's `StateDB` interface that the handlers call. -/
structure VMStateDB (σ : Type u) where
  getBalance : σ → Address → U256 × σ
  getCode : σ → Address → Bytes × σ
  addBalance : σ → Address → U256 → U256 × σ
  subBalance : σ → Address → U256 → U256 × σ
  selfDestruct : σ → Address → U256 × σ
  selfDestruct6780 : σ → Address → U256 × Bool × σ
  expectBalanceBurn : σ → Int → Option σ

/-- How a handler ends. -/
inductive HandlerEnd where
  | errWriteProtection
  | errExecutionReverted
  | errStopToken
deriving DecidableEq, Repr

variable {σ : Type u}

/-- The call of `ExpectBalanceBurn` in `opSelfdestruct`: selfdestruct(this) burns the
    balance. -/
def expectBurn (db : VMStateDB σ) (contract beneficiary : Address) (balance : U256) (s : σ) :
    Option σ :=
  if beneficiary = contract then db.expectBalanceBurn s balance.toNat else some s

/-- `opSelfdestruct`, with the beneficiary popped; `none` is a panic. -/
def opSelfdestruct (db : VMStateDB σ) (readOnly : Bool) (contract beneficiary : Address) (s : σ) :
    Option (HandlerEnd × σ) :=
  if readOnly then some (.errWriteProtection, s)
  else
    let (balance, s) := db.getBalance s contract
    let (_, s) := db.addBalance s beneficiary balance
    let (_, s) := db.selfDestruct s contract
    (expectBurn db contract beneficiary balance s).map (Prod.mk .errStopToken)

/-- The same call in `opSelfdestruct6780`, which only destructs a new contract: the
    balance is burned if it is gone. -/
def expectBurn6780 (db : VMStateDB σ) (contract beneficiary : Address) (balance : U256) (s : σ) :
    Option σ :=
  if beneficiary = contract then
    let (left, s) := db.getBalance s contract
    if left = 0 then db.expectBalanceBurn s balance.toNat else some s
  else some s

/-- `opSelfdestruct6780`, with the beneficiary popped. -/
def opSelfdestruct6780 (db : VMStateDB σ) (readOnly : Bool) (arbosVersion : U64)
    (contract beneficiary : Address) (s : σ) : Option (HandlerEnd × σ) :=
  if readOnly then some (.errWriteProtection, s)
  else
    let (code, s) := db.getCode s contract
    if isStylusComponentPrefix code arbosVersion then some (.errExecutionReverted, s)
    else
      let (balance, s) := db.getBalance s contract
      let (_, s) := db.subBalance s contract balance
      let (_, s) := db.addBalance s beneficiary balance
      let (_, _, s) := db.selfDestruct6780 s contract
      (expectBurn6780 db contract beneficiary balance s).map (Prod.mk .errStopToken)

/-- `f` forgets part of a state without the interface noticing. -/
structure VMStateDB.Forgets {τ : Type u} (db : VMStateDB σ) (db' : VMStateDB τ) (f : σ → τ) :
    Prop where
  getBalance : ∀ s a, db'.getBalance (f s) a = (db.getBalance s a).map id f
  getCode : ∀ s a, db'.getCode (f s) a = (db.getCode s a).map id f
  addBalance : ∀ s a x, db'.addBalance (f s) a x = (db.addBalance s a x).map id f
  subBalance : ∀ s a x, db'.subBalance (f s) a x = (db.subBalance s a x).map id f
  selfDestruct : ∀ s a, db'.selfDestruct (f s) a = (db.selfDestruct s a).map id f
  selfDestruct6780 : ∀ s a,
    db'.selfDestruct6780 (f s) a = (db.selfDestruct6780 s a).map id (Prod.map id f)
  expectBalanceBurn : ∀ s x, db'.expectBalanceBurn (f s) x = (db.expectBalanceBurn s x).map f

section
variable {τ : Type u} {db : VMStateDB σ} {db' : VMStateDB τ} {f : σ → τ}

theorem opSelfdestruct_forget (h : db.Forgets db' f) (readOnly : Bool)
    (contract beneficiary : Address) (s : σ) :
    opSelfdestruct db' readOnly contract beneficiary (f s) =
      (opSelfdestruct db readOnly contract beneficiary s).map (Prod.map id f) := by
  have hburn : ∀ balance r, expectBurn db' contract beneficiary balance (f r) =
      (expectBurn db contract beneficiary balance r).map f := by
    intro balance r
    unfold expectBurn
    split
    · exact h.expectBalanceBurn r _
    · rfl
  unfold opSelfdestruct
  cases readOnly with
  | true => rfl
  | false =>
    simp only [Bool.false_eq_true, if_false, h.getBalance, h.addBalance, h.selfDestruct,
      Prod.map_snd, hburn, Option.map_map]
    rfl

theorem opSelfdestruct6780_forget (h : db.Forgets db' f) (readOnly : Bool) (arbosVersion : U64)
    (contract beneficiary : Address) (s : σ) :
    opSelfdestruct6780 db' readOnly arbosVersion contract beneficiary (f s) =
      (opSelfdestruct6780 db readOnly arbosVersion contract beneficiary s).map (Prod.map id f) := by
  have hburn : ∀ balance r, expectBurn6780 db' contract beneficiary balance (f r) =
      (expectBurn6780 db contract beneficiary balance r).map f := by
    intro balance r
    unfold expectBurn6780
    rw [h.getBalance]
    split
    · simp only [Prod.map_fst, id_eq]
      split
      · exact h.expectBalanceBurn _ _
      · rfl
    · rfl
  unfold opSelfdestruct6780
  cases readOnly with
  | true => rfl
  | false =>
    simp only [Bool.false_eq_true, if_false, h.getBalance, h.getCode, h.addBalance, h.subBalance,
      h.selfDestruct6780, Prod.map_fst, Prod.map_snd, id_eq, hburn]
    split
    · rfl
    · simp only [Option.map_map]
      rfl

end

/-- The interface as the `StateDB` implements it. -/
def StateDB.vm [Crypto] : VMStateDB StateDB where
  getBalance := StateDB.getBalance
  getCode := StateDB.getCode
  addBalance := StateDB.addBalance
  subBalance := StateDB.subBalance
  selfDestruct := StateDB.selfDestruct
  selfDestruct6780 := StateDB.selfDestruct6780
  expectBalanceBurn := StateDB.expectBalanceBurn

end GethArb
