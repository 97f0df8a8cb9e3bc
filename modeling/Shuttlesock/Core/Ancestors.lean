/-
Trees given by a parent function, and the chains of ancestors in them. Library: nothing here is about shuttlesock.

- `chain b`: the ancestors of b from the top down to b itself, built by going up from b.
- `Anc a b`: a is an ancestor of b, or b.

Results:
- `chain_child`, `chain_top`: the two rules of a chain.
- `anc_iff_initial`: the chain of an ancestor is the part up to it.
- `anc_of_index`: what stands at a position of the chain is the ancestor at that depth.
-/
import Mathlib.Tactic

namespace Shuttlesock.Ancestors

structure Tree (B : Type*) where
  parent : B → Option B
  depth : B → ℕ
  depth_lt : ∀ b p, parent b = some p → depth p < depth b

variable {B : Type*} (t : Tree B)

/-- go up at most n times, with what was passed behind -/
def Tree.chainFrom : ℕ → B → List B → List B
  | 0, b, below => b :: below
  | n + 1, b, below =>
    match t.parent b with
    | none => b :: below
    | some p => Tree.chainFrom n p (b :: below)

def Tree.chain (b : B) : List B := t.chainFrom (t.depth b) b []

def Tree.Anc (a b : B) : Prop := Relation.ReflTransGen (fun x y => t.parent y = some x) a b

variable {t} {a b p : B}

/-- to go up as often as the depth is enough -/
theorem chainFrom_eq {n : ℕ} (hn : t.depth b ≤ n) (below : List B) : t.chainFrom n b below = t.chain b ++ below := by
  induction n using Nat.strong_induction_on generalizing b below with
  | h n ih =>
    cases hp : t.parent b with
    | none =>
      unfold Tree.chain
      cases n <;> cases t.depth b <;> simp only [Tree.chainFrom, hp, List.cons_append, List.nil_append]
    | some p =>
      have hlt := t.depth_lt b p hp
      obtain ⟨m, hm⟩ : ∃ m, t.depth b = m + 1 := ⟨t.depth b - 1, by omega⟩
      obtain ⟨k, rfl⟩ : ∃ k, n = k + 1 := ⟨n - 1, by omega⟩
      unfold Tree.chain
      simp only [hm, Tree.chainFrom, hp]
      rw [ih k (Nat.lt_succ_self k) (by omega) (b :: below), ih m (by omega) (by omega) [b], List.append_assoc]
      rfl

theorem chain_top (hp : t.parent b = none) : t.chain b = [b] := by
  unfold Tree.chain
  cases t.depth b <;> simp only [Tree.chainFrom, hp]

theorem chain_child (hp : t.parent b = some p) : t.chain b = t.chain p ++ [b] := by
  have hlt := t.depth_lt b p hp
  obtain ⟨m, hm⟩ : ∃ m, t.depth b = m + 1 := ⟨t.depth b - 1, by omega⟩
  have hup : t.chain b = t.chainFrom m p [b] := by
    rw [Tree.chain, hm]
    simp only [Tree.chainFrom, hp]
  rw [hup, chainFrom_eq (by omega)]

theorem chain_getLast (b : B) : (t.chain b).getLast? = some b := by
  cases hp : t.parent b with
  | none => rw [chain_top hp]; rfl
  | some p => rw [chain_child hp, List.getLast?_concat]

theorem chain_ne_nil (b : B) : t.chain b ≠ [] := by
  intro h
  have := chain_getLast (t := t) b
  rw [h] at this
  cases this

theorem chain_injective (h : t.chain a = t.chain b) : a = b := by
  have := chain_getLast (t := t) a
  rw [h, chain_getLast] at this
  exact (Option.some.inj this).symm

/-- a start of the chain ends with an ancestor whose chain it is -/
theorem anc_of_initial {xs : List B} (h : xs ++ [a] <+: t.chain b) : t.Anc a b ∧ t.chain a = xs ++ [a] := by
  induction hd : t.depth b using Nat.strong_induction_on generalizing b with
  | h d ih =>
    cases hp : t.parent b with
    | none =>
      rw [chain_top hp] at h
      obtain ⟨rest, hrest⟩ := h
      cases xs with
      | nil =>
        cases hrest
        exact ⟨.refl, chain_top hp⟩
      | cons x xs => simp at hrest
    | some p =>
      rw [chain_child hp] at h
      rcases List.prefix_concat_iff.1 h with heq | hpre
      · obtain ⟨hxs, hab⟩ := List.append_inj' heq rfl
        cases hab
        exact ⟨.refl, by rw [chain_child hp, hxs]⟩
      · obtain ⟨hanc, hchain⟩ := ih (t.depth p) (by rw [← hd]; exact t.depth_lt b p hp) hpre rfl
        exact ⟨hanc.tail hp, hchain⟩

theorem anc_iff_initial : t.Anc a b ↔ t.chain a <+: t.chain b := by
  constructor
  · intro h
    induction h with
    | refl => exact List.prefix_rfl
    | tail _ hp ih =>
      rw [chain_child hp]
      exact ih.trans (List.prefix_append _ _)
  · intro h
    obtain ⟨xs, hxs⟩ : ∃ xs, t.chain a = xs ++ [a] := by
      refine ⟨(t.chain a).dropLast, ?_⟩
      exact (List.dropLast_append_getLast? a (chain_getLast a)).symm
    rw [hxs] at h
    exact (anc_of_initial h).1

/-- what stands in the chain -/
theorem anc_of_index {k : ℕ} (h : (t.chain b)[k]? = some a) : t.Anc a b ∧ t.chain a = (t.chain b).take (k + 1) := by
  have htake : (t.chain b).take (k + 1) = (t.chain b).take k ++ [a] := by rw [List.take_add_one, h]; rfl
  have hpre := List.take_prefix (k + 1) (t.chain b)
  rw [htake] at hpre ⊢
  exact anc_of_initial hpre

end Shuttlesock.Ancestors
