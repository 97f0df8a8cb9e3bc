/-
The first element with a property in a list of lists, as a search through nested scopes finds it: one list after the other, each
from its front. Library: nothing here is about shuttlesock.

A place is the number of a list and the index in it. `IsFirst q ls r`: r is the place of the first element with q, or none when
there is no such element.

Results:
- `isFirst_none`, `isFirst_some`: the answers told list by list.
- `isFirst_first`, `IsFirst.unique`: the search, and that it has one answer.
- `IsFirst.and_iff`: when the first element with one property is the first one with another property as well.
-/
import Mathlib.Tactic

namespace Shuttlesock.First

variable {α : Type*}

def first (p : α → Bool) : List (List α) → Option (ℕ × ℕ)
  | [] => none
  | l :: ls =>
    match l.findIdx? p with
    | some i => some (0, i)
    | none => (first p ls).map fun pos => (pos.1 + 1, pos.2)

def At (ls : List (List α)) (pos : ℕ × ℕ) (a : α) : Prop := ∃ l, ls[pos.1]? = some l ∧ l[pos.2]? = some a

def Before (pos pos' : ℕ × ℕ) : Prop := pos.1 < pos'.1 ∨ pos.1 = pos'.1 ∧ pos.2 < pos'.2

def IsFirst (q : α → Prop) (ls : List (List α)) : Option (ℕ × ℕ) → Prop
  | none => ∀ pos a, At ls pos a → ¬ q a
  | some pos => ∃ a, At ls pos a ∧ q a ∧ ∀ pos' a', Before pos' pos → At ls pos' a' → ¬ q a'

variable {ls : List (List α)} {l : List α} {pos pos' : ℕ × ℕ} {a a' : α} {p : α → Bool} {q m : α → Prop} {r r' : Option (ℕ × ℕ)}

theorem At.unique (h : At ls pos a) (h' : At ls pos a') : a = a' := by
  obtain ⟨l, hl, ha⟩ := h
  obtain ⟨l', hl', ha'⟩ := h'
  obtain rfl : l = l' := Option.some.inj (hl.symm.trans hl')
  exact Option.some.inj (ha.symm.trans ha')

theorem at_zero (i : ℕ) : At (l :: ls) (0, i) a ↔ l[i]? = some a := by
  simp [At]

theorem at_succ (n i : ℕ) : At (l :: ls) (n + 1, i) a ↔ At ls (n, i) a := by
  simp [At]

theorem before_trichotomy (pos pos' : ℕ × ℕ) : Before pos pos' ∨ pos = pos' ∨ Before pos' pos := by
  unfold Before
  rw [Prod.ext_iff]
  omega

/-- the elements of the first list, and those behind it -/
theorem at_cons (h : At (l :: ls) pos a) :
    (∃ i, pos = (0, i) ∧ l[i]? = some a) ∨ ∃ n i, pos = (n + 1, i) ∧ At ls (n, i) a := by
  obtain ⟨n, i⟩ := pos
  cases n with
  | zero => exact .inl ⟨i, rfl, (at_zero i).1 h⟩
  | succ n => exact .inr ⟨n, i, rfl, (at_succ n i).1 h⟩

theorem isFirst_none : IsFirst q ls none ↔ ∀ l ∈ ls, ∀ a ∈ l, ¬ q a := by
  constructor
  · intro h l hl a ha
    obtain ⟨n, hn⟩ := List.getElem?_of_mem hl
    obtain ⟨i, hi⟩ := List.getElem?_of_mem ha
    exact h (n, i) a ⟨l, hn, hi⟩
  · rintro h pos a ⟨l, hl, ha⟩
    exact h l (List.mem_of_getElem? hl) a (List.mem_of_getElem? ha)

/-- nothing in the lists before, and nothing before it in its own -/
theorem isFirst_some {n i : ℕ} (hl : ls[n]? = some l) (ha : l[i]? = some a) : IsFirst q ls (some (n, i)) ↔
    q a ∧ (∀ k l', k < n → ls[k]? = some l' → ∀ b ∈ l', ¬ q b) ∧ ∀ j b, j < i → l[j]? = some b → ¬ q b := by
  constructor
  · rintro ⟨b, hat, hq, hbefore⟩
    obtain rfl : a = b := At.unique ⟨l, hl, ha⟩ hat
    refine ⟨hq, fun k l' hk hl' b hb => ?_, fun j b hj hb => ?_⟩
    · obtain ⟨j, hj⟩ := List.getElem?_of_mem hb
      exact hbefore (k, j) b (.inl hk) ⟨l', hl', hj⟩
    · exact hbefore (n, j) b (.inr ⟨rfl, hj⟩) ⟨l, hl, hb⟩
  · rintro ⟨hq, hlists, hown⟩
    refine ⟨a, ⟨l, hl, ha⟩, hq, ?_⟩
    rintro ⟨k, j⟩ b hlt ⟨l', hl', hb⟩
    rcases hlt with hlt | ⟨hk, hlt⟩
    · exact hlists k l' hlt hl' b (List.mem_of_getElem? hb)
    · dsimp only at hk hlt
      subst hk
      obtain rfl : l = l' := Option.some.inj (hl.symm.trans hl')
      exact hown j b hlt hb

/-- **The search** -/
theorem isFirst_first (p : α → Bool) (ls : List (List α)) : IsFirst (fun a => p a = true) ls (first p ls) := by
  induction ls with
  | nil =>
    rintro pos a ⟨l, hl, -⟩
    simp at hl
  | cons l ls ih =>
    unfold first
    cases hfind : l.findIdx? p with
    | some i =>
      obtain ⟨hi, hp, hbefore⟩ := List.findIdx?_eq_some_iff_getElem.1 hfind
      refine ⟨l[i], (at_zero i).2 (List.getElem?_eq_getElem hi), hp, fun pos a hpos hat hpa => ?_⟩
      rcases hpos with hpos | ⟨hpos, hlt⟩
      · exact absurd hpos (Nat.not_lt_zero _)
      · obtain ⟨n, j⟩ := pos
        dsimp only at hpos hlt
        rw [hpos, at_zero] at hat
        obtain ⟨hj, rfl⟩ := List.getElem?_eq_some_iff.1 hat
        exact hbefore j hlt hpa
    | none =>
      have hnone : ∀ (i : ℕ) (b : α), l[i]? = some b → ¬ p b = true := by
        intro i b hb
        simpa using List.findIdx?_eq_none_iff.1 hfind b (List.mem_of_getElem? hb)
      cases hrest : first p ls with
      | none =>
        rw [hrest] at ih
        intro pos a hat
        rcases at_cons hat with ⟨i, -, ha⟩ | ⟨n, i, -, hat⟩
        · exact hnone i a ha
        · exact ih (n, i) a hat
      | some pos =>
        rw [hrest] at ih
        obtain ⟨a, hat, hpa, hbefore⟩ := ih
        refine ⟨a, (at_succ _ _).2 hat, hpa, fun pos' a' hpos hat' => ?_⟩
        rcases at_cons hat' with ⟨i, -, ha⟩ | ⟨n, i, rfl, hat'⟩
        · exact hnone i a' ha
        · refine hbefore (n, i) a' ?_ hat'
          unfold Before at hpos ⊢
          dsimp only at hpos ⊢
          omega

theorem IsFirst.unique (h : IsFirst q ls r) (h' : IsFirst q ls r') : r = r' := by
  match r, r' with
  | none, none => rfl
  | none, some pos' =>
    obtain ⟨a, hat, hq, -⟩ := h'
    exact absurd hq (h pos' a hat)
  | some pos, none =>
    obtain ⟨a, hat, hq, -⟩ := h
    exact absurd hq (h' pos a hat)
  | some pos, some pos' =>
    obtain ⟨a, hat, hq, hbefore⟩ := h
    obtain ⟨a', hat', hq', hbefore'⟩ := h'
    rcases before_trichotomy pos pos' with hlt | rfl | hlt
    · exact absurd hq (hbefore' pos a hlt hat)
    · rfl
    · exact absurd hq' (hbefore pos' a' hlt hat')

/-- **The first element with q is the first one with q and m**, exactly when no other element with q comes before those. -/
theorem IsFirst.and_iff (h : IsFirst q ls r) : IsFirst (fun a => q a ∧ m a) ls r ↔
    ∀ pos a, At ls pos a → q a → ¬ m a → ∃ pos' a', Before pos' pos ∧ At ls pos' a' ∧ q a' ∧ m a' := by
  cases r with
  | none =>
    constructor
    · exact fun _ pos a hat hq => absurd hq (h pos a hat)
    · exact fun _ pos a hat hqm => h pos a hat hqm.1
  | some pos =>
    obtain ⟨a, hat, hq, hbefore⟩ := h
    constructor
    · rintro ⟨b, hatb, hb, -⟩ pos' a' hat' hq' hm'
      obtain rfl : a = b := hat.unique hatb
      rcases before_trichotomy pos pos' with hlt | rfl | hlt
      · exact ⟨pos, a, hlt, hat, hb⟩
      · rw [hat.unique hat'] at hb
        exact absurd hb.2 hm'
      · exact absurd hq' (hbefore pos' a' hlt hat')
    · intro hall
      have hm : m a := by
        by_contra hm
        obtain ⟨pos', a', hlt, hat', hq', -⟩ := hall pos a hat hq hm
        exact hbefore pos' a' hlt hat' hq'
      exact ⟨a, hat, ⟨hq, hm⟩, fun pos' a' hlt hat' hqm => hbefore pos' a' hlt hat' hqm.1⟩

end Shuttlesock.First
