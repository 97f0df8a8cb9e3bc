/-
Glob patterns over lists. Library: nothing here is about shuttlesock.

A pattern is a list of parts. A `deep` part stands for any number of elements, zero included; every other part stands
for exactly one element, which it must accept (`acc`).
- `Aligns deep acc xs ps`: the elements `xs` can be aligned with the parts `ps`.
- `flat ps`: the parts that stand for one element; `size ps` is their number.
Rules:
- `Aligns.append`, `Aligns.split`: an alignment with `ps ++ qs` is one with each;
- `aligns_flat`: without deep parts the alignment is part by part;
- `Aligns.size_le`, `Aligns.tight`: `size ps` elements are needed, and with no more than these the deep parts stand for
  nothing;
- `aligns_universal`: if the single parts accept everything and there is a deep one, the number of elements decides.
-/
import Mathlib.Tactic

namespace Shuttlesock.Glob

variable {α β : Type*} {deep : β → Prop} {acc : α → β → Prop}

/-- deep parts any number of elements, every other part exactly one that it accepts -/
inductive Aligns (deep : β → Prop) (acc : α → β → Prop) : List α → List β → Prop where
  | nil : Aligns deep acc [] []
  | part {x : α} {xs : List α} {p : β} {ps : List β} :
      ¬ deep p → acc x p → Aligns deep acc xs ps → Aligns deep acc (x :: xs) (p :: ps)
  | skip {xs : List α} {d : β} {ps : List β} : deep d → Aligns deep acc xs ps → Aligns deep acc xs (d :: ps)
  | more {x : α} {xs : List α} {d : β} {ps : List β} :
      deep d → Aligns deep acc xs (d :: ps) → Aligns deep acc (x :: xs) (d :: ps)

theorem Aligns.append {xs ys : List α} {ps qs : List β} (h : Aligns deep acc xs ps) (h' : Aligns deep acc ys qs) :
    Aligns deep acc (xs ++ ys) (ps ++ qs) := by
  induction h with
  | nil => exact h'
  | part hd hx _ ih => exact .part hd hx ih
  | skip hd _ ih => exact .skip hd ih
  | more hd _ ih => exact .more hd ih

theorem Aligns.split {zs : List α} {ps qs : List β} (h : Aligns deep acc zs (ps ++ qs)) :
    ∃ xs ys, zs = xs ++ ys ∧ Aligns deep acc xs ps ∧ Aligns deep acc ys qs := by
  generalize hr : ps ++ qs = rs at h
  induction h generalizing ps with
  | nil =>
    obtain ⟨rfl, rfl⟩ := List.append_eq_nil_iff.1 hr
    exact ⟨[], [], rfl, .nil, .nil⟩
  | @part x xs p rs hd hx h ih =>
    cases ps with
    | nil => subst hr; exact ⟨[], x :: xs, rfl, .nil, .part hd hx h⟩
    | cons p' ps =>
      obtain ⟨rfl, hr'⟩ := List.cons.inj hr
      obtain ⟨as, bs, rfl, ha, hb⟩ := ih hr'
      exact ⟨x :: as, bs, rfl, .part hd hx ha, hb⟩
  | @skip xs d rs hd h ih =>
    cases ps with
    | nil => subst hr; exact ⟨[], xs, rfl, .nil, .skip hd h⟩
    | cons p' ps =>
      obtain ⟨rfl, hr'⟩ := List.cons.inj hr
      obtain ⟨as, bs, rfl, ha, hb⟩ := ih hr'
      exact ⟨as, bs, rfl, .skip hd ha, hb⟩
  | @more x xs d rs hd h ih =>
    cases ps with
    | nil => subst hr; exact ⟨[], x :: xs, rfl, .nil, .more hd h⟩
    | cons p' ps =>
      obtain ⟨as, bs, rfl, ha, hb⟩ := ih hr
      obtain ⟨rfl, hr⟩ := List.cons.inj hr
      exact ⟨x :: as, bs, rfl, .more hd ha, hb⟩

theorem aligns_deep {d : β} (hd : deep d) (xs : List α) : Aligns deep acc xs [d] := by
  induction xs with
  | nil => exact .skip hd .nil
  | cons x xs ih => exact .more hd ih

theorem aligns_cons_part {xs : List α} {p : β} {ps : List β} (hp : ¬ deep p) :
    Aligns deep acc xs (p :: ps) ↔ ∃ x ys, xs = x :: ys ∧ acc x p ∧ Aligns deep acc ys ps := by
  constructor
  · intro h
    cases h with
    | part _ hx h => exact ⟨_, _, rfl, hx, h⟩
    | skip hd _ => exact absurd hd hp
    | more hd _ => exact absurd hd hp
  · rintro ⟨x, ys, rfl, hx, h⟩
    exact .part hp hx h

/-- without deep parts the alignment is part by part -/
theorem aligns_flat {xs : List α} {ps : List β} (hp : ∀ p ∈ ps, ¬ deep p) :
    Aligns deep acc xs ps ↔ List.Forall₂ acc xs ps := by
  induction ps generalizing xs with
  | nil =>
    rw [List.forall₂_nil_right_iff]
    constructor
    · intro h; cases h; rfl
    · rintro rfl; exact .nil
  | cons p ps ih =>
    have ih' := fun ys => @ih ys fun q hq => hp q (List.mem_cons_of_mem p hq)
    rw [aligns_cons_part (hp p List.mem_cons_self), List.forall₂_cons_right_iff]
    constructor
    · rintro ⟨x, ys, rfl, hx, h⟩
      exact ⟨x, ys, hx, (ih' ys).1 h, rfl⟩
    · rintro ⟨x, ys, hx, h, rfl⟩
      exact ⟨x, ys, rfl, hx, (ih' ys).2 h⟩

theorem forall₂_append_right {R : α → β → Prop} {zs : List α} {ps qs : List β} :
    List.Forall₂ R zs (ps ++ qs) ↔ ∃ xs ys, zs = xs ++ ys ∧ List.Forall₂ R xs ps ∧ List.Forall₂ R ys qs := by
  constructor
  · intro h
    exact ⟨zs.take ps.length, zs.drop ps.length, (List.take_append_drop _ _).symm, List.forall₂_take_append _ _ _ h,
      List.forall₂_drop_append _ _ _ h⟩
  · rintro ⟨xs, ys, rfl, hx, hy⟩
    exact List.rel_append hx hy

/-! ## The single parts -/

section Flat

variable [DecidablePred deep]

variable (deep) in
/-- the parts that stand for one element -/
def flat (ps : List β) : List β := ps.filter fun p => ¬ deep p

variable (deep) in
def size (ps : List β) : ℕ := (flat deep ps).length

@[simp] theorem flat_nil : flat deep [] = [] := rfl

theorem flat_cons_deep {d : β} (ps : List β) (hd : deep d) : flat deep (d :: ps) = flat deep ps := by
  simp [flat, hd]

theorem flat_cons_part {p : β} (ps : List β) (hp : ¬ deep p) : flat deep (p :: ps) = p :: flat deep ps := by
  simp [flat, hp]

@[simp] theorem flat_append (ps qs : List β) : flat deep (ps ++ qs) = flat deep ps ++ flat deep qs := by
  simp [flat]

theorem flat_eq_self {ps : List β} (h : ∀ p ∈ ps, ¬ deep p) : flat deep ps = ps := by
  simpa [flat] using h

theorem flat_eq_nil {ps : List β} (h : ∀ p ∈ ps, deep p) : flat deep ps = [] := by
  simpa [flat] using h

theorem mem_flat {ps : List β} {p : β} : p ∈ flat deep ps ↔ p ∈ ps ∧ ¬ deep p := by
  simp [flat]

@[simp] theorem size_append (ps qs : List β) : size deep (ps ++ qs) = size deep ps + size deep qs := by
  simp [size]

theorem size_deep {d : β} (hd : deep d) : size deep [d] = 0 := by simp [size, flat_cons_deep, hd]

theorem size_part {p : β} (hp : ¬ deep p) : size deep [p] = 1 := by simp [size, flat_cons_part, hp]

theorem size_eq_zero {ps : List β} : size deep ps = 0 ↔ ∀ p ∈ ps, deep p := by
  simp [size, flat]

theorem Aligns.size_le {xs : List α} {ps : List β} (h : Aligns deep acc xs ps) : size deep ps ≤ xs.length := by
  induction h with
  | nil => exact le_rfl
  | part hd _ _ ih => simpa [size, flat_cons_part, hd] using ih
  | skip hd _ ih => simpa [size, flat_cons_deep, hd] using ih
  | more hd _ ih => exact ih.trans (by simp)

/-- with the least number of elements the deep parts stand for nothing -/
theorem Aligns.tight {xs : List α} {ps : List β} (h : Aligns deep acc xs ps) (hl : xs.length = size deep ps) :
    List.Forall₂ acc xs (flat deep ps) := by
  induction h with
  | nil => exact .nil
  | part hd hx _ ih =>
    rw [flat_cons_part _ hd]
    refine .cons hx (ih ?_)
    simpa [size, flat_cons_part, hd] using hl
  | skip hd _ ih =>
    rw [flat_cons_deep _ hd]
    exact ih (by rwa [size, flat_cons_deep _ hd] at hl)
  | more hd h ih =>
    have := h.size_le
    rw [List.length_cons] at hl
    omega

theorem aligns_of_flat {xs : List α} {ps : List β} (h : List.Forall₂ acc xs (flat deep ps)) :
    Aligns deep acc xs ps := by
  induction ps generalizing xs with
  | nil => cases h; exact .nil
  | cons p ps ih =>
    by_cases hd : deep p
    · rw [flat_cons_deep _ hd] at h
      exact .skip hd (ih h)
    · rw [flat_cons_part _ hd] at h
      obtain ⟨x, ys, hx, h', rfl⟩ := List.forall₂_cons_right_iff.1 h
      exact .part hd hx (ih h')

/-- single parts that accept everything: with a deep part, the number of elements decides -/
theorem aligns_universal {xs : List α} {ps : List β} (hdeep : ∃ d ∈ ps, deep d)
    (huniv : ∀ p ∈ ps, ¬ deep p → ∀ x ∈ xs, acc x p) : Aligns deep acc xs ps ↔ size deep ps ≤ xs.length := by
  refine ⟨Aligns.size_le, fun hl => ?_⟩
  obtain ⟨d, hd, hdd⟩ := hdeep
  obtain ⟨as, bs, rfl⟩ := List.append_of_mem hd
  -- the elements that are not needed go to d
  have hflat : ∀ (ys : List α) (qs : List β), ys ⊆ xs → qs ⊆ as ++ d :: bs → ys.length = size deep qs →
      Aligns deep acc ys qs := by
    intro ys qs hys hqs hlen
    refine aligns_of_flat (List.forall₂_iff_get.2 ⟨hlen, fun i h1 h2 => ?_⟩)
    obtain ⟨hm, hn⟩ := mem_flat.1 (List.get_mem (flat deep qs) ⟨i, h2⟩)
    exact huniv _ (hqs hm) hn _ (hys (List.get_mem ys ⟨i, h1⟩))
  have hsize : size deep (as ++ d :: bs) = size deep as + size deep bs := by
    rw [← List.singleton_append, size_append, size_append, size_deep hdd]
    omega
  have h1 := hflat (xs.take (size deep as)) as (List.take_subset _ _) (List.subset_append_left _ _)
    (by rw [List.length_take]; omega)
  have h2 := hflat (xs.drop (xs.length - size deep bs)) bs (List.drop_subset _ _)
    (fun q hq => List.mem_append_right _ (List.mem_cons_of_mem _ hq)) (by rw [List.length_drop]; omega)
  have hsplit : xs = xs.take (size deep as) ++ ((xs.drop (size deep as)).take
      (xs.length - size deep bs - size deep as) ++ xs.drop (xs.length - size deep bs)) := by
    have hdrop : xs.drop (xs.length - size deep bs) =
        (xs.drop (size deep as)).drop (xs.length - size deep bs - size deep as) := by
      rw [List.drop_drop]
      congr 1
      omega
    rw [hdrop, List.take_append_drop, List.take_append_drop]
  rw [hsplit]
  refine h1.append ?_
  rw [← List.singleton_append]
  exact (aligns_deep hdd _).append h2

end Flat

end Shuttlesock.Glob
