/-
Removing the elements with a property from a list while an index goes over it: after a removal the next element has moved to the
place that the index leaves. Library: nothing here is about shuttlesock.

Model: `sweep` is the loop, with fuel; `spared` is what it leaves, without indices. In a run of elements with the property every
second one stays, so `Stays p before x` looks at the run right in front of x.

Results:
- `sweep_spared`: the loop leaves what is spared.
- `mem_spared`: the elements that are left are those that stay.
- `spared_filter`: the elements without the property are all left.
- `spared_clean`: all of them are without it exactly when no two neighbours have it.
- `spared_chain`: a relation of neighbours in what is left, told of the list.
-/
import Mathlib.Tactic

namespace Shuttlesock.Sweep

variable {α : Type*}

/-- `for i, x in ipairs(l) do if p(x) then table.remove(l, i) end end`, from the i-th on -/
def sweep (p : α → Bool) : ℕ → ℕ → List α → List α
  | 0, _, l => l
  | n + 1, i, l =>
    match l[i]? with
    | none => l
    | some x => sweep p n (i + 1) (if p x then l.eraseIdx i else l)

def spared (p : α → Bool) : List α → List α
  | [] => []
  | [x] => if p x then [] else [x]
  | x :: y :: l => if p x then y :: spared p l else x :: spared p (y :: l)

/-- how many elements with the property stand at the end of a list -/
def behind (p : α → Bool) (l : List α) : ℕ := (l.reverse.takeWhile p).length

/-- an element behind these is not removed -/
def Stays (p : α → Bool) (before : List α) (x : α) : Prop := p x = true → Odd (behind p before)

variable {p q : α → Bool} {x y : α} {l pre : List α}

theorem spared_pos (hx : p x = true) (y : α) (l : List α) : spared p (x :: y :: l) = y :: spared p l := by
  simp [spared, hx]

theorem spared_neg (hx : p x = false) (l : List α) : spared p (x :: l) = x :: spared p l := by
  cases l with
  | nil => simp [spared, hx]
  | cons y l => simp [spared, hx]

theorem spared_single (hx : p x = true) : spared p [x] = [] := by
  simp [spared, hx]

/-- **The loop leaves what is spared** -/
theorem sweep_spared (p : α → Bool) (n : ℕ) (pre l : List α) (hn : l.length ≤ n) :
    sweep p n pre.length (pre ++ l) = pre ++ spared p l := by
  induction n generalizing pre l with
  | zero =>
    obtain rfl : l = [] := List.length_eq_zero_iff.1 (Nat.le_zero.1 hn)
    rfl
  | succ n ih =>
    cases l with
    | nil => simp [sweep, spared]
    | cons x l =>
      simp only [List.length_cons, Nat.add_le_add_iff_right] at hn
      unfold sweep
      rw [List.getElem?_append_right le_rfl, Nat.sub_self]
      dsimp only [List.getElem?_cons_zero]
      cases hx : p x with
      | false =>
        have hnext : pre ++ x :: l = (pre ++ [x]) ++ l := by simp
        have hlen : pre.length + 1 = (pre ++ [x]).length := by simp
        rw [if_neg (by simp), hnext, hlen, ih (pre ++ [x]) l hn, spared_neg hx]
        simp
      | true =>
        have herase : (pre ++ x :: l).eraseIdx pre.length = pre ++ l := by
          rw [List.eraseIdx_append_of_length_le le_rfl, Nat.sub_self, List.eraseIdx_cons_zero]
        rw [if_pos rfl, herase]
        cases l with
        | nil =>
          rw [spared_single hx]
          cases n with
          | zero => rfl
          | succ n => simp [sweep]
        | cons y l =>
          -- y is at the place of x now, and the index behind it
          have hnext : pre ++ y :: l = (pre ++ [y]) ++ l := by simp
          have hlen : pre.length + 1 = (pre ++ [y]).length := by simp
          simp only [List.length_cons] at hn
          rw [hnext, hlen, ih (pre ++ [y]) l (by omega), spared_pos hx]
          simp

/-! ## What is left -/

theorem behind_pos (hx : p x = true) (l : List α) : behind p (l ++ [x]) = behind p l + 1 := by
  simp [behind, hx]

theorem behind_neg (hx : p x = false) (l : List α) : behind p (l ++ [x]) = 0 := by
  simp [behind, hx]

/-- the elements that stay, of the ones behind `pre` -/
def kept (S : List α → α → Prop) [∀ l x, Decidable (S l x)] (pre : List α) : List α → List α
  | [] => []
  | x :: l => if S pre x then x :: kept S (pre ++ [x]) l else kept S (pre ++ [x]) l

theorem kept_pos {S : List α → α → Prop} [∀ l x, Decidable (S l x)] (h : S pre x) (l : List α) :
    kept S pre (x :: l) = x :: kept S (pre ++ [x]) l := if_pos h

theorem kept_neg {S : List α → α → Prop} [∀ l x, Decidable (S l x)] (h : ¬ S pre x) (l : List α) :
    kept S pre (x :: l) = kept S (pre ++ [x]) l := if_neg h

instance (p : α → Bool) (l : List α) (x : α) : Decidable (Stays p l x) := inferInstanceAs (Decidable (_ → _))

theorem stays_neg (hx : p x = false) (l : List α) : Stays p l x := by
  intro h
  rw [hx] at h
  cases h

/-- behind an even run the list is swept as from its front; behind an odd one its first element stays -/
theorem kept_spared (p : α → Bool) (l : List α) :
    (∀ pre, Even (behind p pre) → kept (Stays p) pre l = spared p l) ∧
      ∀ pre, Odd (behind p pre) → kept (Stays p) pre l = l.head?.toList ++ spared p l.tail := by
  induction l with
  | nil => exact ⟨fun _ _ => rfl, fun _ _ => rfl⟩
  | cons x l ih =>
    obtain ⟨heven, hodd⟩ := ih
    constructor
    · intro pre hpre
      cases hx : p x with
      | false =>
        have hzero : Even (behind p (pre ++ [x])) := by
          rw [behind_neg hx]
          exact Even.zero
        rw [kept_pos (stays_neg hx pre), heven _ hzero, spared_neg hx]
      | true =>
        have hout : ¬ Stays p pre x := fun h => Nat.not_odd_iff_even.2 hpre (h hx)
        have hnext : Odd (behind p (pre ++ [x])) := by
          rw [behind_pos hx]
          exact hpre.add_one
        rw [kept_neg hout, hodd _ hnext]
        cases l with
        | nil => rw [spared_single hx]; rfl
        | cons y l => rw [spared_pos hx]; rfl
    · intro pre hpre
      have hnext : Even (behind p (pre ++ [x])) := by
        cases hx : p x with
        | false => rw [behind_neg hx]; exact Even.zero
        | true => rw [behind_pos hx]; exact hpre.add_one
      rw [kept_pos fun _ => hpre, heven _ hnext]
      rfl

theorem kept_eq_spared (p : α → Bool) (l : List α) : kept (Stays p) [] l = spared p l := (kept_spared p l).1 [] Even.zero

theorem mem_kept {S : List α → α → Prop} [∀ l x, Decidable (S l x)] :
    x ∈ kept S pre l ↔ ∃ before after, l = before ++ x :: after ∧ S (pre ++ before) x := by
  induction l generalizing pre with
  | nil => simp [kept]
  | cons y l ih =>
    have hsplit : (∃ before after, y :: l = before ++ x :: after ∧ S (pre ++ before) x) ↔
        (x = y ∧ S pre y) ∨ ∃ before after, l = before ++ x :: after ∧ S (pre ++ [y] ++ before) x := by
      constructor
      · rintro ⟨before, after, heq, hs⟩
        cases before with
        | nil =>
          obtain ⟨rfl, rfl⟩ := List.cons.inj heq
          exact .inl ⟨rfl, by simpa using hs⟩
        | cons z before =>
          obtain ⟨rfl, rfl⟩ := List.cons.inj heq
          exact .inr ⟨before, after, rfl, by simpa using hs⟩
      · rintro (⟨rfl, hs⟩ | ⟨before, after, rfl, hs⟩)
        · exact ⟨[], l, rfl, by simpa using hs⟩
        · exact ⟨y :: before, after, rfl, by simpa using hs⟩
    rw [hsplit, ← ih]
    by_cases hy : S pre y
    · rw [kept_pos hy, List.mem_cons]
      simp [hy]
    · rw [kept_neg hy]
      simp [hy]

/-- **The elements that are left** -/
theorem mem_spared : x ∈ spared p l ↔ ∃ before after, l = before ++ x :: after ∧ Stays p before x := by
  rw [← kept_eq_spared, mem_kept]
  rfl

/-- the elements without the property -/
theorem spared_filter (h : ∀ x, q x = true → p x = false) (l : List α) : (spared p l).filter q = l.filter q := by
  have hout : ∀ {x}, p x = true → q x = false := by
    intro x hx
    cases hq : q x with
    | false => rfl
    | true => rw [h x hq] at hx; cases hx
  induction l using spared.induct p with
  | case1 => rfl
  | case2 x hx => rw [spared_single hx, List.filter_cons_of_neg (by simp [hout hx])]
  | case3 x hx => rw [spared_neg (by simpa using hx)]; rfl
  | case4 x y l hx ih =>
    rw [spared_pos hx, List.filter_cons_of_neg (l := y :: l) (by simp [hout hx])]
    simp only [List.filter_cons, ih]
  | case5 x y l hx ih =>
    rw [spared_neg (by simpa using hx), List.filter_cons, ih, ← List.filter_cons]

theorem chain_neg (hx : p x = false) (l : List α) :
    (x :: l).IsChain (fun x y => ¬ (p x = true ∧ p y = true)) ↔ l.IsChain fun x y => ¬ (p x = true ∧ p y = true) := by
  rw [List.isChain_cons]
  simp [hx]

/-- **All that is left is without the property** exactly when no two neighbours have it. -/
theorem spared_clean (l : List α) : (∀ x ∈ spared p l, p x = false) ↔ l.IsChain fun x y => ¬ (p x = true ∧ p y = true) := by
  induction l using spared.induct p with
  | case1 => simp [spared]
  | case2 x hx => simp [spared_single hx]
  | case3 x hx => simp [spared, hx]
  | case4 x y l hx ih =>
    rw [spared_pos hx, List.isChain_cons_cons, List.forall_mem_cons, ih]
    cases hy : p y with
    | false =>
      rw [chain_neg hy]
      simp
    | true => simp [hx]
  | case5 x y l hx ih =>
    have hx : p x = false := by simpa using hx
    rw [spared_neg hx, List.forall_mem_cons, ih, chain_neg hx]
    simp [hx]

/-! ## Neighbours -/

/-- the first element that stays -/
theorem head_kept {S : List α → α → Prop} [∀ l x, Decidable (S l x)] : (kept S pre l).head? = some x ↔
    ∃ gone after, l = gone ++ x :: after ∧ S (pre ++ gone) x ∧ ∀ a u b, gone = a ++ u :: b → ¬ S (pre ++ a) u := by
  induction l generalizing pre with
  | nil => simp [kept]
  | cons y l ih =>
    by_cases hy : S pre y
    · rw [kept_pos hy, List.head?_cons, Option.some.injEq]
      constructor
      · rintro rfl
        exact ⟨[], l, rfl, by simpa using hy, by simp⟩
      · rintro ⟨gone, after, heq, -, hgone⟩
        cases gone with
        | nil => exact (List.cons.inj heq).1
        | cons z gone =>
          obtain ⟨rfl, rfl⟩ := List.cons.inj heq
          exact absurd hy (by simpa using hgone [] y gone rfl)
    · rw [kept_neg hy, ih]
      constructor
      · rintro ⟨gone, after, rfl, hs, hgone⟩
        refine ⟨y :: gone, after, rfl, by simpa using hs, fun a u b heq => ?_⟩
        cases a with
        | nil =>
          obtain ⟨rfl, rfl⟩ := List.cons.inj heq
          simpa using hy
        | cons z a =>
          obtain ⟨rfl, rfl⟩ := List.cons.inj heq
          simpa using hgone a u b rfl
      · rintro ⟨gone, after, heq, hs, hgone⟩
        cases gone with
        | nil =>
          obtain ⟨rfl, rfl⟩ := List.cons.inj heq
          exact absurd (by simpa using hs) hy
        | cons z gone =>
          obtain ⟨rfl, rfl⟩ := List.cons.inj heq
          exact ⟨gone, after, rfl, by simpa using hs, fun a u b h => by simpa using hgone (y :: a) u b (by rw [h]; rfl)⟩

/-- in `l`, x and y stay and nothing between them does -/
def Neighbours (S : List α → α → Prop) (l : List α) (x y : α) : Prop :=
  ∃ before gone after, l = before ++ x :: (gone ++ y :: after) ∧ S before x ∧ S (before ++ x :: gone) y ∧
    ∀ a u b, gone = a ++ u :: b → ¬ S (before ++ x :: a) u

theorem chain_kept {S : List α → α → Prop} [∀ l x, Decidable (S l x)] {R : α → α → Prop} (pre l : List α) :
    (kept S pre l).IsChain R ↔ ∀ x y, Neighbours (fun before => S (pre ++ before)) l x y → R x y := by
  induction l generalizing pre with
  | nil => simp [kept, Neighbours]
  | cons z l ih =>
    have hsplit : ∀ x y, Neighbours (fun before => S (pre ++ before)) (z :: l) x y ↔
        (x = z ∧ S pre z ∧ (kept S (pre ++ [z]) l).head? = some y) ∨
          Neighbours (fun before => S (pre ++ [z] ++ before)) l x y := by
      intro x y
      rw [head_kept]
      constructor
      · rintro ⟨before, gone, after, heq, hx, hy, hgone⟩
        cases before with
        | nil =>
          obtain ⟨rfl, rfl⟩ := List.cons.inj heq
          exact .inl ⟨rfl, by simpa using hx, gone, after, rfl, by simpa using hy,
            fun a u b h => by simpa using hgone a u b h⟩
        | cons w before =>
          obtain ⟨rfl, rfl⟩ := List.cons.inj heq
          exact .inr ⟨before, gone, after, rfl, by simpa using hx, by simpa using hy,
            fun a u b h => by simpa using hgone a u b h⟩
      · rintro (⟨rfl, hx, gone, after, rfl, hy, hgone⟩ | ⟨before, gone, after, rfl, hx, hy, hgone⟩)
        · exact ⟨[], gone, after, rfl, by simpa using hx, by simpa using hy, fun a u b h => by simpa using hgone a u b h⟩
        · exact ⟨z :: before, gone, after, rfl, by simpa using hx, by simpa using hy,
            fun a u b h => by simpa using hgone a u b h⟩
    simp only [hsplit, or_imp, forall_and]
    rw [← ih]
    by_cases hz : S pre z
    · have hhead : (∀ x y, x = z ∧ S pre z ∧ (kept S (pre ++ [z]) l).head? = some y → R x y) ↔
          ∀ y ∈ (kept S (pre ++ [z]) l).head?, R z y :=
        ⟨fun h y hy => h z y ⟨rfl, hz, hy⟩, fun h x y ⟨hx, _, hy⟩ => hx ▸ h y hy⟩
      rw [kept_pos hz, List.isChain_cons, hhead]
    · rw [kept_neg hz]
      simp [hz]

/-- **Neighbours in what is left** -/
theorem spared_chain {R : α → α → Prop} (l : List α) :
    (spared p l).IsChain R ↔ ∀ x y, Neighbours (Stays p) l x y → R x y := by
  rw [← kept_eq_spared, chain_kept]
  rfl

end Shuttlesock.Sweep
