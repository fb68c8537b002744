/-
  **Precompiles below a `STATICCALL`** (`core/vm/evm.go`: `Call`, `CallCode`, `DelegateCall`,
  `StaticCall`, `create`; `core/vm/interpreter.go`: `Run`).

  `Run` sets a field of the EVM at a `STATICCALL` and puts it back when the frame ends.  A
  precompile is not shown that field: each call fills in a `ReadOnly` of its own.

  The code of a frame is given by the calls it makes, which may depend on how earlier ones
  ended; a call says whether the caller can pay.  An account without code runs as `stop true`.
-/
import GethArb.Types

namespace GethArb.VM

inductive CallKind where
  | call
  | callCode
  | delegateCall
  | staticCall
deriving DecidableEq

/-- `AdvancedPrecompileCall`, without the EVM. -/
structure AdvancedPrecompileCall where
  precompileAddress : Address
  actingAsAddress : Address
  caller : Address
  value : U256
  readOnly : Bool

structure Contract where
  caller : Address
  address : Address
  value : U256

/-- What the code of a frame does. -/
inductive Code where
  | stop (ok : Bool)
  | call (kind : CallKind) (addr : Address) (value : U256) (canTransfer : Bool) (body : Code)
      (next : Bool → Code)
  | create (addr : Address) (value : U256) (allowed : Bool) (body : Code) (next : Bool → Code)

structure EVM where
  depth : Nat
  readOnly : Bool

/-- A precompile that was run: by which call, in which frames, and what it was given. -/
structure Invocation where
  kind : CallKind
  frames : List CallKind
  evm : EVM
  info : AdvancedPrecompileCall

structure Outcome where
  ok : Bool
  evm : EVM
  calls : List Invocation

namespace CallKind

/-- The scope of the called code. -/
def contract (c : Contract) (addr : Address) (value : U256) : CallKind → Contract
  | call => ⟨c.address, addr, value⟩
  | callCode => ⟨c.address, c.address, value⟩
  | delegateCall => ⟨c.caller, c.address, c.value⟩
  | staticCall => ⟨c.address, addr, 0⟩

/-- What a precompile is given. -/
def info (c : Contract) (addr : Address) (value : U256) : CallKind → AdvancedPrecompileCall
  | call => ⟨addr, addr, c.address, value, false⟩
  | callCode => ⟨addr, c.address, c.address, value, false⟩
  | delegateCall => ⟨addr, c.address, c.caller, c.value, false⟩
  | staticCall => ⟨addr, addr, c.address, 0, true⟩

/-- `ErrInsufficientBalance`. -/
def unpaid (value : U256) (canTransfer : Bool) : CallKind → Bool
  | call => value ≠ 0 && !canTransfer
  | callCode => !canTransfer
  | delegateCall | staticCall => false

end CallKind

def callCreateDepth : Nat := 1024

/-- `Run`, with the deferred functions at its end. -/
def run (readOnly : Bool) (body : EVM → Outcome) (evm : EVM) : Outcome :=
  let sets := readOnly && !evm.readOnly
  let out := body ⟨evm.depth + 1, if sets then true else evm.readOnly⟩
  { out with evm := ⟨out.evm.depth - 1, if sets then false else out.evm.readOnly⟩ }

section
variable (precompile : Address → Option (AdvancedPrecompileCall → Bool))

def exec : Code → Contract → List CallKind → EVM → Outcome
  | .stop ok, _, _, evm => ⟨ok, evm, []⟩
  | .call kind addr value canTransfer body next, c, frames, evm =>
    -- `opCall` ends the frame with `ErrWriteProtection`
    if kind = .call ∧ evm.readOnly ∧ value ≠ 0 then ⟨false, evm, []⟩
    else
      let out : Outcome :=
        if callCreateDepth < evm.depth ∨ kind.unpaid value canTransfer then ⟨false, evm, []⟩
        else match precompile addr with
          | some p =>
            ⟨p (kind.info c addr value), evm, [⟨kind, frames, evm, kind.info c addr value⟩]⟩
          | none =>
            run (kind = .staticCall) (exec body (kind.contract c addr value) (kind :: frames)) evm
      let rest := exec (next out.ok) c frames out.evm
      { rest with calls := out.calls ++ rest.calls }
  | .create addr value allowed body next, c, frames, evm =>
    if evm.readOnly then ⟨false, evm, []⟩
    else
      let out : Outcome :=
        if callCreateDepth < evm.depth ∨ ¬allowed then ⟨false, evm, []⟩
        else run false (exec body ⟨c.address, addr, value⟩ frames) evm
      let rest := exec (next out.ok) c frames out.evm
      { rest with calls := out.calls ++ rest.calls }

/-- The EVM is left as it was, and each precompile ran with its field set just below a
    `STATICCALL`. -/
structure Tracks (evm : EVM) (out : Outcome) : Prop where
  evm : out.evm = evm
  field : ∀ i ∈ out.calls, i.evm.readOnly = true ↔ .staticCall ∈ i.frames
  info : ∀ i ∈ out.calls, i.info.readOnly = true ↔ i.kind = .staticCall

variable {precompile} {evm : EVM}

theorem Tracks.quiet (ok : Bool) : Tracks evm ⟨ok, evm, []⟩ := ⟨rfl, nofun, nofun⟩

theorem Tracks.then {out rest : Outcome} (h : Tracks evm out)
    (h' : out.evm = evm → Tracks out.evm rest) :
    Tracks evm { rest with calls := out.calls ++ rest.calls } := by
  have hrest := h' h.evm
  refine ⟨hrest.evm.trans h.evm, fun i hi => ?_, fun i hi => ?_⟩
  · exact (List.mem_append.mp hi).elim (h.field i) (hrest.field i)
  · exact (List.mem_append.mp hi).elim (h.info i) (hrest.info i)

/-- The deferred functions undo what `Run` has set. -/
theorem Tracks.run {readOnly : Bool} {body : EVM → Outcome}
    (h : ∀ evm', evm'.readOnly = (evm.readOnly || readOnly) → Tracks evm' (body evm')) :
    Tracks evm (run readOnly body evm) := by
  rcases evm with ⟨depth, field⟩
  have hbody := h ⟨depth + 1, if readOnly && !field then true else field⟩ (by
    cases readOnly <;> cases field <;> rfl)
  refine ⟨?_, hbody.field, hbody.info⟩
  rw [VM.run, hbody.evm]
  cases readOnly <;> cases field <;> rfl

/-- By induction on the code, with the field of the EVM as invariant. -/
theorem tracks_exec (code : Code) (c : Contract) {frames : List CallKind}
    (h : evm.readOnly = true ↔ .staticCall ∈ frames) :
    Tracks evm (exec precompile code c frames evm) := by
  induction code generalizing c frames evm with
  | stop ok => exact .quiet ok
  | call kind addr value canTransfer body next ihbody ihnext =>
    rw [exec]
    split
    · exact .quiet false
    refine Tracks.then ?_ fun heq => ihnext _ c (by rwa [heq])
    split
    · exact .quiet false
    split
    · exact ⟨rfl, by simpa using h, by cases kind <;> simp [CallKind.info]⟩
    · refine .run fun evm' h' => ihbody _ ?_
      rw [h', Bool.or_eq_true, h, decide_eq_true_eq, List.mem_cons, or_comm, eq_comm]
  | create addr value allowed body next ihbody ihnext =>
    rw [exec]
    split
    · exact .quiet false
    refine Tracks.then ?_ fun heq => ihnext _ c (by rwa [heq])
    split
    · exact .quiet false
    · exact .run fun evm' h' => ihbody _ (by rwa [h', Bool.or_false])

/-- **Only a `STATICCALL` tells a precompile that it must not write.**  In every run from the
    outside, the EVM is read-only exactly below a `STATICCALL`; a precompile is told so if and
    only if `StaticCall` itself has called it. -/
theorem readOnly_info_iff (code : Code) (c : Contract) {i : Invocation}
    (hi : i ∈ (exec precompile code c [] ⟨0, false⟩).calls) :
    (i.evm.readOnly = true ↔ .staticCall ∈ i.frames) ∧
      (i.info.readOnly = true ↔ i.kind = .staticCall) := by
  have h : Tracks ⟨0, false⟩ (exec precompile code c [] ⟨0, false⟩) := tracks_exec code c (by simp)
  exact ⟨h.field i hi, h.info i hi⟩

end

/-- A `STATICCALL` of a contract that calls the precompile at `0x64` without value. -/
def staticThen (kind : CallKind) : Outcome :=
  exec (fun addr => if addr = 0x64 then some fun _ => true else none)
    (.call .staticCall 1 0 true (.call kind 0x64 0 true (.stop true) .stop) .stop) ⟨0, 0, 0⟩ []
    ⟨0, false⟩

theorem readOnly_info_static : ∃ i ∈ (staticThen .staticCall).calls,
    (i.evm.readOnly = true ↔ .staticCall ∈ i.frames) ∧
      (i.info.readOnly = true ↔ i.kind = .staticCall) := by
  have hi : _ ∈ (staticThen .staticCall).calls := List.mem_singleton_self _
  exact ⟨_, hi, readOnly_info_iff _ _ hi⟩

/-- A precompile in a read-only frame is told that it may write. -/
theorem readOnly_info_lost : ([.call, .callCode, .delegateCall].all fun kind =>
    (staticThen kind).calls.any fun i => i.evm.readOnly && !i.info.readOnly) = true := rfl

end GethArb.VM
