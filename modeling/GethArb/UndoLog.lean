/-
  **Undo logs**, over an arbitrary state `S` and an arbitrary type `E` of log
  entries.  An entry knows how to take back one change (`undo e`), possibly
  failing.  A log is undone newest entry first.

  Two states may be equivalent without being equal: caches fill up while a
  program runs, and undoing a change does not empty them again.  `UndoSystem`
  therefore comes with an equivalence that `undo` respects, and
  `Undoes es s s₀` says that undoing `es` from `s` leads to a state equivalent
  to `s₀`.

  `Undoes.append` composes the undo of consecutive changes, `Undoes.of_undone`
  covers a partial undo in between.  Together they carry `Undoes` over every run
  that interleaves logged changes and partial undos, which is what makes nested
  snapshots correct.
-/
import Mathlib

namespace GethArb

universe u v

/-- Entries with their undo, and an equivalence of states that undoing respects. -/
structure UndoSystem (S : Type u) (E : Type v) where
  undo : E → S → Option S
  equiv : S → S → Prop
  equiv_refl : ∀ s, equiv s s
  equiv_symm : ∀ {s t}, equiv s t → equiv t s
  equiv_trans : ∀ {s t r}, equiv s t → equiv t r → equiv s r
  undo_congr : ∀ e {s t s'}, equiv s t → undo e s = some s' → ∃ t', undo e t = some t' ∧ equiv s' t'

/-- Undo a log, oldest entry first in the list and newest entry undone first. -/
def undoAll {S : Type u} {E : Type v} (undo : E → S → Option S) : List E → S → Option S
  | [], s => some s
  | e :: es, s => (undoAll undo es s).bind (undo e)

section
variable {S : Type u} {E : Type v} (undo : E → S → Option S)

@[simp] theorem undoAll_nil (s : S) : undoAll undo [] s = some s := rfl

theorem undoAll_append (es fs : List E) (s : S) :
    undoAll undo (es ++ fs) s = (undoAll undo fs s).bind (undoAll undo es) := by
  induction es with
  | nil => cases h : undoAll undo fs s <;> simp [h]
  | cons e es ih =>
    rw [List.cons_append, undoAll, ih, Option.bind_assoc]
    rfl

/-- An abstraction `f` that commutes with undoing one entry commutes with undoing a log. -/
theorem undoAll_map {T : Type*} (undo' : E → T → Option T) (f : S → T)
    (h : ∀ e s, (undo e s).map f = undo' e (f s)) (es : List E) (s : S) :
    (undoAll undo es s).map f = undoAll undo' es (f s) := by
  induction es with
  | nil => rfl
  | cons e es ih =>
    rw [undoAll, undoAll, ← ih]
    cases undoAll undo es s with
    | none => rfl
    | some t => exact h e t

end

namespace UndoSystem

variable {S : Type u} {E : Type v} (L : UndoSystem S E)

theorem undoAll_congr (es : List E) {s t s' : S} (h : L.equiv s t)
    (hs : undoAll L.undo es s = some s') :
    ∃ t', undoAll L.undo es t = some t' ∧ L.equiv s' t' := by
  induction es generalizing s' with
  | nil =>
    obtain rfl : s = s' := by simpa using hs
    exact ⟨t, rfl, h⟩
  | cons e es ih =>
    obtain ⟨r, hr, hs'⟩ := Option.bind_eq_some_iff.mp hs
    obtain ⟨r', hr', hrr'⟩ := ih hr
    obtain ⟨t', ht', hst'⟩ := L.undo_congr e hrr' hs'
    exact ⟨t', by rw [undoAll, hr', Option.bind_some, ht'], hst'⟩

/-- Undoing `es` leads from `s` to a state equivalent to `s₀`. -/
def Undoes (es : List E) (s s₀ : S) : Prop := ∃ t, undoAll L.undo es s = some t ∧ L.equiv t s₀

theorem Undoes.refl (s : S) : L.Undoes [] s s := ⟨s, rfl, L.equiv_refl s⟩

variable {L}

/-- Changes logged one after the other are undone one after the other. -/
theorem Undoes.append {es fs : List E} {s₀ s₁ s₂ : S} (h₁ : L.Undoes es s₁ s₀)
    (h₂ : L.Undoes fs s₂ s₁) : L.Undoes (es ++ fs) s₂ s₀ := by
  obtain ⟨t₁, ht₁, he₁⟩ := h₁
  obtain ⟨t₂, ht₂, he₂⟩ := h₂
  obtain ⟨t, ht, he⟩ := L.undoAll_congr es (L.equiv_symm he₂) ht₁
  exact ⟨t, by rw [undoAll_append, ht₂, Option.bind_some, ht], L.equiv_trans (L.equiv_symm he) he₁⟩

/-- After the newest entries were undone, the older ones still lead back to `s₀`. -/
theorem Undoes.of_undone {es fs : List E} {s s' s₀ : S} (h : L.Undoes (es ++ fs) s s₀)
    (hu : undoAll L.undo fs s = some s') : L.Undoes es s' s₀ := by
  obtain ⟨t, ht, he⟩ := h
  rw [undoAll_append, hu] at ht
  exact ⟨t, ht, he⟩

end UndoSystem

end GethArb
