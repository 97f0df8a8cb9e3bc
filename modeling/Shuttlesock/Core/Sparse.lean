/-
A queue in a sparse array with two indices, the oldest element's and the newest one's, that only grow; what is taken is cleared.
Library: nothing here is about shuttlesock.

Results:
- `Holds.put`, `Holds.take`: an element is added behind the newest one, and the oldest one is taken out.
- `Holds.oldest_some`, `Holds.oldest_none`: what stands at the oldest index is the first element, or nothing when there is none.
-/
import Mathlib.Tactic

namespace Shuttlesock.Sparse

variable {α : Type*}

/-- from `oldest` to `newest` the array holds the list, and nothing else -/
structure Holds (buffer : ℕ → Option α) (oldest newest : ℕ) (l : List α) : Prop where
  length : newest + 1 = oldest + l.length
  elements : ∀ i, buffer (oldest + i) = l[i]?
  cleared : ∀ i, i < oldest → buffer i = none

section Holds

variable {buffer : ℕ → Option α} {oldest newest : ℕ} {l : List α} {x : α}

theorem holds_nil (n : ℕ) : Holds (fun _ => (none : Option α)) (n + 1) n [] :=
  ⟨rfl, fun _ => rfl, fun _ _ => rfl⟩

theorem Holds.oldest_none (h : Holds buffer oldest newest []) : buffer oldest = none := h.elements 0

theorem Holds.oldest_some (h : Holds buffer oldest newest (x :: l)) : buffer oldest = some x := h.elements 0

theorem Holds.put (h : Holds buffer oldest newest l) (x : α) :
    Holds (Function.update buffer (newest + 1) (some x)) oldest (newest + 1) (l ++ [x]) := by
  have hlen := h.length
  refine ⟨by rw [List.length_append, List.length_singleton]; omega, fun i => ?_, fun i hi => ?_⟩
  · rcases lt_trichotomy i l.length with hlt | rfl | hgt
    · rw [Function.update_of_ne (by omega), h.elements, List.getElem?_append_left hlt]
    · rw [hlen, Function.update_self, List.getElem?_append_right le_rfl, Nat.sub_self]
      rfl
    · rw [Function.update_of_ne (by omega), h.elements, List.getElem?_eq_none hgt.le, List.getElem?_eq_none]
      rw [List.length_append, List.length_singleton]
      omega
  · rw [Function.update_of_ne (by omega)]
    exact h.cleared i hi

theorem Holds.take (h : Holds buffer oldest newest (x :: l)) :
    Holds (Function.update buffer oldest none) (oldest + 1) newest l := by
  have hlen := h.length
  rw [List.length_cons] at hlen
  refine ⟨by omega, fun i => ?_, fun i hi => ?_⟩
  · rw [Function.update_of_ne (by omega), Nat.add_assoc, h.elements, Nat.add_comm 1 i, List.getElem?_cons_succ]
  · rcases eq_or_ne i oldest with rfl | hne
    · exact Function.update_self ..
    · rw [Function.update_of_ne hne]
      exact h.cleared i (by omega)

end Holds

end Shuttlesock.Sparse
