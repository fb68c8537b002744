/-
  **Computations with observers.**  A computation works on a world `W`, may fail with an
  error `E`, and tells a tracer `T` about events `Ev` on the way.  What it tells is kept in a
  list apart from the result and the world, so that a tracer can look and not touch.

  A `Property` is one that holds of a program if it holds of its parts: there is one rule for
  each way to build a computation, and `Obeys` finds them by instance search.  `within` is
  one: the world only changes as a relation allows.
-/
import Mathlib

namespace GethArb

/-- The outcome and the world after it, and the events in order. -/
def Traced (T Ev W E α : Type) : Type := T → W → (Except E α × W) × List Ev

namespace Traced

variable {T Ev W E α β : Type}

protected def pure (a : α) : Traced T Ev W E α := fun _ w => ((.ok a, w), [])

/-- An error ends the computation; the world stays as it was left. -/
protected def bind (m : Traced T Ev W E α) (f : α → Traced T Ev W E β) : Traced T Ev W E β :=
  fun t w =>
    match m t w with
    | ((.error e, w), events) => ((.error e, w), events)
    | ((.ok a, w), events) => ((f a t w).1, events ++ (f a t w).2)

instance : Monad (Traced T Ev W E) where
  pure := Traced.pure
  bind := Traced.bind

def throw (e : E) : Traced T Ev W E α := fun _ w => ((.error e, w), [])

def read (f : W → α) : Traced T Ev W E α := fun _ w => ((.ok (f w), w), [])

def modify (f : W → W) : Traced T Ev W E Unit := fun _ w => ((.ok (), f w), [])

def ofExcept : Except E α → Traced T Ev W E α
  | .error e => throw e
  | .ok a => pure a

/-- Show events to the tracer. -/
def observe (events : T → W → List Ev) : Traced T Ev W E Unit :=
  fun t w => ((.ok (), w), events t w)

theorem bind_fst (m : Traced T Ev W E α) (f : α → Traced T Ev W E β) (t : T) (w : W) :
    ((m >>= f) t w).1 =
      match (m t w).1 with
      | (.error e, w) => (.error e, w)
      | (.ok a, w) => (f a t w).1 := by
  change (Traced.bind m f t w).1 = _
  unfold Traced.bind
  rcases m t w with ⟨⟨e | a, w'⟩, events⟩
  · rfl
  · rfl

variable {m m' : Traced T Ev W E α} {f : α → Traced T Ev W E β}
variable {t : T}

/-- A sequence that ends well: both parts do. -/
theorem bind_inv {w w' : W} {b : β} (h : ((m >>= f) t w).1 = (.ok b, w')) :
    ∃ a v, (m t w).1 = (.ok a, v) ∧ (f a t v).1 = (.ok b, w') := by
  rw [bind_fst] at h
  rcases hm : (m t w).1 with ⟨e | a, v⟩
  · rw [hm] at h
    cases h
  · rw [hm] at h
    exact ⟨a, v, rfl, h⟩

variable {events : List Ev}

theorem bind_of_ok {w v : W} {a : α} (h : m t w = ((.ok a, v), events)) :
    (m >>= f) t w = ((f a t v).1, events ++ (f a t v).2) := by
  change Traced.bind m f t w = _
  simp only [Traced.bind, h]

theorem bind_of_error {w v : W} {e : E} (h : m t w = ((.error e, v), events)) :
    (m >>= f) t w = ((.error e, v), events) := by
  change Traced.bind m f t w = _
  simp only [Traced.bind, h]

theorem read_bind (g : W → α) (t : T) (w : W) : (read g >>= f) t w = f (g w) t w := rfl

/-- A sequence that ends well, with its events. -/
theorem bind_ok_inv {w w' : W} {b : β} (h : (m >>= f) t w = ((.ok b, w'), events)) :
    ∃ a v first rest, m t w = ((.ok a, v), first) ∧ f a t v = ((.ok b, w'), rest) ∧
      events = first ++ rest := by
  rcases hm : m t w with ⟨⟨e | a, v⟩, first⟩
  · rw [bind_of_error hm] at h
    cases h
  · rw [bind_of_ok hm] at h
    obtain ⟨hf, hevents⟩ := Prod.mk.inj h
    exact ⟨a, v, first, (f a t v).2, rfl, Prod.ext hf rfl, hevents.symm⟩

/-- A program that went on after a check. -/
theorem guard_ok_inv {c : Prop} [Decidable c] {e : E} {k : Unit → Traced T Ev W E β} {w w' : W}
    {b : β} (h : ((if c then throw e else pure ()) >>= k) t w = ((.ok b, w'), events)) :
    ¬c ∧ k () t w = ((.ok b, w'), events) := by
  split at h
  · cases h
  · exact ⟨‹_›, h⟩

/-! ### Results -/

/-- Every result has the property. -/
def Returns (Q : α → Prop) (m : Traced T Ev W E α) : Prop :=
  ∀ t w a v, (m t w).1 = (.ok a, v) → Q a

theorem returns_pure {Q : α → Prop} {a : α} (h : Q a) : Returns Q (pure a : Traced T Ev W E α) := by
  intro t w b v hb
  cases hb
  exact h

theorem returns_bind {Q : β → Prop} (h : ∀ a, Returns Q (f a)) : Returns Q (m >>= f) := by
  intro t w b v hb
  obtain ⟨a, u, -, hb⟩ := bind_inv hb
  exact h a t u b v hb

theorem returns_ite {Q : α → Prop} {c : Prop} [Decidable c] (h : Returns Q m) (h' : Returns Q m') :
    Returns Q (if c then m else m') := by
  split
  · exact h
  · exact h'

/-! ### Properties of programs -/

variable (T Ev W E) in
/-- A property of computations that composing them keeps.  A step may take the world from `w`
    to `w'` if `may w w'`. -/
structure Property where
  holds : ∀ {α : Type}, Traced T Ev W E α → Prop
  may : W → W → Prop
  may_trans : ∀ {w v u}, may w v → may v u → may w u
  of_pure : ∀ {α : Type} (a : α), holds (pure a)
  of_throw : ∀ {α : Type} (e : E), holds (throw e : Traced T Ev W E α)
  of_read : ∀ {α : Type} (f : W → α), holds (read f)
  of_modify : ∀ {f : W → W}, (∀ w, may w (f w)) → holds (modify f)
  of_observe : ∀ events : T → W → List Ev, holds (observe events)
  of_bind : ∀ {α β : Type} {m : Traced T Ev W E α} {f : α → Traced T Ev W E β},
    holds m → (∀ a, holds (f a)) → holds (m >>= f)

/-- The computation has the property; a class, so that the rules are found by search. -/
class Obeys (P : Property T Ev W E) (m : Traced T Ev W E α) : Prop where
  holds : P.holds m

section
variable (P : Property T Ev W E)

instance obeys_pure (a : α) : Obeys P (pure a) := ⟨P.of_pure a⟩

instance obeys_throw (e : E) : Obeys P (throw e : Traced T Ev W E α) := ⟨P.of_throw e⟩

instance obeys_read (f : W → α) : Obeys P (read f) := ⟨P.of_read f⟩

instance obeys_observe (events : T → W → List Ev) : Obeys P (observe events) :=
  ⟨P.of_observe events⟩

theorem obeys_modify {f : W → W} (h : ∀ w, P.may w (f w)) : Obeys P (modify f) := ⟨P.of_modify h⟩

instance obeys_ofExcept (x : Except E α) : Obeys P (ofExcept x) := by
  cases x with
  | error e => exact obeys_throw P e
  | ok a => exact obeys_pure P a

variable {P}

theorem Obeys.bind (hm : Obeys P m) (hf : ∀ a, Obeys P (f a)) : Obeys P (m >>= f) :=
  ⟨P.of_bind hm.holds fun a => (hf a).holds⟩

instance obeys_bind {m : Traced T Ev W E α} {f : α → Traced T Ev W E β} [hm : Obeys P m]
    [hf : ∀ a, Obeys P (f a)] : Obeys P (m >>= f) := hm.bind hf

instance obeys_ite {c : Prop} [Decidable c] {m m' : Traced T Ev W E α} [hm : Obeys P m]
    [hm' : Obeys P m'] : Obeys P (if c then m else m') := by
  split
  · exact hm
  · exact hm'

instance obeys_forM {l : List β} {f : β → Traced T Ev W E Unit} [hf : ∀ b, Obeys P (f b)] :
    Obeys P (l.forM f) := by
  induction l with
  | nil => exact obeys_pure P ()
  | cons b l ih => exact obeys_bind

end

/-! ### Allowed changes -/

variable (T Ev E) in
/-- The world before and the world after are in a relation that is reflexive and transitive. -/
def within (R : W → W → Prop) [Std.Refl R] [IsTrans W R] : Property T Ev W E where
  holds m := ∀ t w, R w (m t w).1.2
  may := R
  may_trans h h' := IsTrans.trans _ _ _ h h'
  of_pure _ _ _ := refl _
  of_throw _ _ _ := refl _
  of_read _ _ _ := refl _
  of_modify h _ w := h w
  of_observe _ _ _ := refl _
  of_bind := by
    intro α β m f hm hf t w
    have hfirst := hm t w
    rw [bind_fst]
    rcases hend : (m t w).1 with ⟨e | a, w'⟩
    · rw [hend] at hfirst
      exact hfirst
    · rw [hend] at hfirst
      exact IsTrans.trans _ _ _ hfirst (hf a t w')

end Traced

end GethArb
