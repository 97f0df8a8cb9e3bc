/-
Local states of processes. Library: nothing here is about shuttlesock.

A family `c : P → σ` of local states in which one process moves from `c p` to `x` is `Function.update c p x`.
- `sum_update`: what the move does to a quantity summed over all processes;
- `forall_update`, `exists_update`, `exists_update_self`: a property of all processes, of some process, after the move;
- `apart_update`: a relation between any two different processes after the move.
-/
import Mathlib.Tactic

namespace Shuttlesock.Procs

variable {P σ : Type*} [DecidableEq P]

theorem sum_update {M : Type*} [AddCommMonoid M] [Fintype P] (f : σ → M) (c : P → σ) (p : P) (x : σ) :
    ∑ q, f (Function.update c p x q) + f (c p) = ∑ q, f (c q) + f x := by
  have h1 := Finset.add_sum_erase Finset.univ (fun q => f (Function.update c p x q)) (Finset.mem_univ p)
  have h2 := Finset.add_sum_erase Finset.univ (fun q => f (c q)) (Finset.mem_univ p)
  have h3 : ∑ q ∈ Finset.univ.erase p, f (Function.update c p x q) = ∑ q ∈ Finset.univ.erase p, f (c q) := by
    refine Finset.sum_congr rfl fun q hq => ?_
    rw [Function.update_of_ne (Finset.ne_of_mem_erase hq)]
  simp only [Function.update_self] at h1
  rw [← h1, ← h2, h3]
  abel

theorem forall_update {Q : P → σ → Prop} {c : P → σ} {p : P} {x : σ} (hx : Q p x) (h : ∀ q, q ≠ p → Q q (c q)) :
    ∀ q, Q q (Function.update c p x q) :=
  Function.forall_update_iff _ _ |>.2 ⟨hx, h⟩

theorem exists_update_of_ne {Q : σ → Prop} {c : P → σ} {p q : P} {x : σ} (hqp : q ≠ p) (hq : Q (c q)) :
    ∃ q, Q (Function.update c p x q) :=
  ⟨q, by rwa [Function.update_of_ne hqp]⟩

theorem exists_update {Q : σ → Prop} {c : P → σ} {p : P} {x : σ} (h : ∃ q, Q (c q)) (hp : Q (c p) → Q x) :
    ∃ q, Q (Function.update c p x q) := by
  obtain ⟨q, hq⟩ := h
  by_cases hqp : q = p
  · subst hqp
    exact ⟨q, by rw [Function.update_self]; exact hp hq⟩
  · exact exists_update_of_ne hqp hq

theorem exists_update_self {Q : σ → Prop} {c : P → σ} {p : P} {x : σ} (hx : Q x) : ∃ q, Q (Function.update c p x q) :=
  ⟨p, by rwa [Function.update_self]⟩

theorem apart_update {R : σ → σ → Prop} {c : P → σ} {p : P} {x : σ} (h : ∀ q r, q ≠ r → R (c q) (c r))
    (hl : ∀ q, q ≠ p → R x (c q)) (hr : ∀ q, q ≠ p → R (c q) x) :
    ∀ q r, q ≠ r → R (Function.update c p x q) (Function.update c p x r) := by
  intro q r hqr
  by_cases hq : q = p
  · subst hq
    rw [Function.update_self, Function.update_of_ne (Ne.symm hqr)]
    exact hl r (Ne.symm hqr)
  · rw [Function.update_of_ne hq]
    by_cases hr' : r = p
    · subst hr'
      rw [Function.update_self]
      exact hr q hqr
    · rw [Function.update_of_ne hr']
      exact h q r hqr

end Shuttlesock.Procs
