/-
  **Priority queues**, by what they hold: a multiset of values with priorities, of which one
  with the greatest priority is taken out.  Which one of several, the specification leaves
  open, so what is proved over it holds for a binary heap as well as for a list.
-/
import Mathlib

namespace GethArb

structure PriorityQueue (V : Type) where
  Queue : Type
  empty : Queue
  push : Queue → V → Int → Queue
  pop : Queue → Option ((V × Int) × Queue)
  /-- What the queue holds. -/
  items : Queue → Multiset (V × Int)
  items_empty : items empty = 0
  items_push : ∀ q v p, items (push q v p) = (v, p) ::ₘ items q
  items_of_pop_none : ∀ {q}, pop q = none → items q = 0
  items_of_pop_some : ∀ {q x q'}, pop q = some (x, q') → items q = x ::ₘ items q'
  le_of_pop_some : ∀ {q x q'}, pop q = some (x, q') → ∀ y ∈ items q, y.2 ≤ x.2

namespace PriorityQueue

/-- A queue as a list. -/
def list (V : Type) [DecidableEq V] : PriorityQueue V where
  Queue := List (V × Int)
  empty := []
  push q v p := (v, p) :: q
  pop q := (@List.argmax _ _ Int.instLinearOrder.toPreorder _ Prod.snd q).map
    fun x => (x, q.erase x)
  items q := q
  items_empty := rfl
  items_push _ _ _ := rfl
  items_of_pop_none h := by
    rw [List.argmax_eq_none.mp (Option.map_eq_none_iff.mp h)]
    rfl
  items_of_pop_some h := by
    obtain ⟨x, hx, heq⟩ := Option.map_eq_some_iff.mp h
    cases heq
    exact Multiset.coe_eq_coe.mpr (List.perm_cons_erase (List.argmax_mem hx))
  le_of_pop_some h y hy := by
    obtain ⟨x, hx, heq⟩ := Option.map_eq_some_iff.mp h
    cases heq
    exact List.le_of_mem_argmax (Multiset.mem_coe.mp hy) hx

end PriorityQueue

end GethArb
