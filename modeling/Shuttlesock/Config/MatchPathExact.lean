/-
The patterns on which `Config.match_path` means what its patterns mean.

A pass of the loop over a part of the path lowers the number of single parts of the pattern that are still to be
matched (`needed`) by at most one, and the walk accepts when none is left. Where the walk goes wrong this count decides,
whatever the parts are.

Results:
- `accepts_adjacent`: with two adjacent `**` after a single part one part too many of the path is used up.
- `accepts_rooted`: with a `**` and none in front, no path one part longer than the shortest is accepted.
- `accepts_alone`: the walk over the shortest path does not look at the part before a `**`.
- `match_path_iff`: for every pattern, the code agrees with the meaning of the pattern on all paths if and only if
  `Exact` holds of it.
- `match_path_not_glob`: `/foo/bar` is not matched by `/foo/**`.
-/
import Mathlib.Tactic
import Shuttlesock.Config.MatchPath

namespace Shuttlesock.MatchPath

open Shuttlesock.Glob

/-! ## How much a pass uses up -/

theorem needed_deep {mtch : List Str} {m : ℤ} (h : part mtch m = some doublestar) :
    needed mtch m = needed mtch (m - 1) := by
  rw [needed_part h, if_pos (show Deep doublestar from rfl), Nat.add_zero]

theorem needed_single {mtch : List Str} {m : ℤ} {p : Str} (h : part mtch m = some p) (hp : ¬ Deep p) :
    needed mtch m = needed mtch (m - 1) + 1 := by
  rw [needed_part h, if_neg hp]

theorem needed_pred (mtch : List Str) {m : ℤ} (hm : m ≤ mtch.length) :
    needed mtch m ≤ needed mtch (m - 1) + 1 := by
  by_cases h1 : 1 ≤ m
  · obtain ⟨p, hp⟩ := part_inside mtch h1 hm
    rw [needed_part hp]
    split_ifs
    · omega
    · omega
  · rw [needed_nonpos mtch (by omega)]
    omega

theorem step_needed {mtch : List Str} {m m' : ℤ} {x : Str} (hm : m ≤ mtch.length)
    (h : match_step mtch m x = some m') : needed mtch m ≤ needed mtch m' + 1 := by
  rcases step_cases mtch m x with ⟨hp, he⟩ | ⟨p, hp, hd, -, he⟩ | ⟨-, he⟩
  · rw [he] at h
    cases h
    rw [needed_deep hp, show m - 2 = m - 1 - 1 by omega]
    exact needed_pred mtch (by omega)
  · rw [he] at h
    cases h
    rw [needed_single hp hd]
  · rw [he] at h
    obtain ⟨i, hi, rfl⟩ := Option.map_eq_some_iff.1 h
    have := needed_mono mtch (show m ≤ i - 1 by have := (unwind_some hi).1; omega)
    omega

/-- the walk needs a part of the path for every single part of the pattern -/
theorem accepts_size {mtch : List Str} {m : ℤ} {xs : List Str} (hm : m ≤ mtch.length) (h : Accepts mtch m xs) :
    needed mtch m ≤ xs.length := by
  induction xs generalizing m with
  | nil => rw [accepts_nil.1 h]; exact Nat.zero_le _
  | cons x xs ih =>
    obtain ⟨m', hs, h'⟩ := accepts_cons.1 h
    have h1 := step_needed hm hs
    have h2 := ih (step_le hs hm) h'
    rw [List.length_cons]
    omega

/-! ## Where the walk is wrong -/

/-- two adjacent `**` at i and i + 1 after a single part: passing over them uses up a part of the path for nothing -/
theorem accepts_adjacent {mtch : List Str} {i m : ℤ} {xs : List Str} (h1 : part mtch i = some doublestar)
    (h2 : part mtch (i + 1) = some doublestar) (hpos : 0 < needed mtch i) (hi : i + 1 ≤ m) (hm : m ≤ mtch.length)
    (h : Accepts mtch m xs) : needed mtch m + 1 ≤ xs.length := by
  induction xs generalizing m with
  | nil =>
    have := needed_mono mtch (show i ≤ m by omega)
    have := accepts_nil.1 h
    omega
  | cons x xs ih =>
    obtain ⟨m', hs, h'⟩ := accepts_cons.1 h
    have hm' := step_le hs hm
    have hsize := accepts_size hm' h'
    rw [List.length_cons]
    rcases step_cases mtch m x with ⟨hp, he⟩ | ⟨p, hp, hd, -, he⟩ | ⟨-, he⟩
    · rw [he] at hs
      cases hs
      by_cases hge : i + 1 ≤ m - 2
      · have := step_needed hm he
        have := ih hge hm' h'
        omega
      · -- m is i + 1 or i + 2, and the part that is passed over is a `**`
        have hz : needed mtch m = needed mtch (m - 2) := by
          have hpred : part mtch (m - 1) = some doublestar := by
            rcases show m = i + 1 ∨ m = i + 2 by omega with rfl | rfl
            · rwa [show i + 1 - 1 = i by omega]
            · rwa [show i + 2 - 1 = i + 1 by omega]
          rw [needed_deep hp, needed_deep hpred, show m - 1 - 1 = m - 2 by omega]
        omega
    · rw [he] at hs
      cases hs
      have hne : m ≠ i + 1 := by
        rintro rfl
        rw [h2] at hp
        exact hd (Option.some.inj hp).symm
      have := needed_single hp hd
      have := ih (by omega) hm' h'
      omega
    · rw [he] at hs
      obtain ⟨j, hj, rfl⟩ := Option.map_eq_some_iff.1 hs
      have := (unwind_some hj).1
      have := needed_mono mtch (show m ≤ j - 1 by omega)
      have := ih (by omega) hm' h'
      omega

/-- no `**` in front and no two adjacent ones: as long as every pass uses up one single part the walk cannot take a
longer path, and going back costs at least two parts -/
theorem accepts_rooted {mtch : List Str} {m : ℤ} {xs : List Str} (hroot : part mtch 1 ≠ some doublestar)
    (hadj : ∀ i, part mtch i = some doublestar → part mtch (i + 1) ≠ some doublestar) (h0 : 0 ≤ m)
    (hm : m ≤ mtch.length) (hnext : part mtch (m + 1) ≠ some doublestar) (h : Accepts mtch m xs) :
    xs.length = needed mtch m ∨ needed mtch m + 2 ≤ xs.length := by
  induction xs generalizing m with
  | nil => exact Or.inl (accepts_nil.1 h).symm
  | cons x xs ih =>
    obtain ⟨m', hs, h'⟩ := accepts_cons.1 h
    have hm' := step_le hs hm
    rw [List.length_cons]
    rcases step_cases mtch m x with ⟨hp, he⟩ | ⟨p, hp, hd, -, he⟩ | ⟨-, he⟩
    · rw [he] at hs
      cases hs
      have h1 : m ≠ 1 := by rintro rfl; exact hroot hp
      obtain ⟨q, hq⟩ := part_inside mtch (i := m - 1) (by have := part_range hp; omega) (by omega)
      have hqd : ¬ Deep q := by
        intro hqd
        refine hadj (m - 1) (by rw [hq, show q = doublestar from hqd]) ?_
        rwa [show m - 1 + 1 = m by omega]
      have hn := needed_deep hp
      have hn' := needed_single hq hqd
      rw [show m - 1 - 1 = m - 2 by omega] at hn'
      have := ih (by have := part_range hp; omega) hm'
        (by rw [show m - 2 + 1 = m - 1 by omega, hq]; exact fun he => hqd (Option.some.inj he)) h'
      omega
    · rw [he] at hs
      cases hs
      have hn := needed_single hp hd
      have := ih (by have := part_range hp; omega) hm'
        (by rw [show m - 1 + 1 = m by omega, hp]; exact fun he => hd (Option.some.inj he)) h'
      omega
    · rw [he] at hs
      obtain ⟨j, hj, rfl⟩ := Option.map_eq_some_iff.1 hs
      obtain ⟨hlt, hpj, hbefore⟩ := unwind_some hj
      have hj1 : j ≠ m + 1 := by rintro rfl; exact hnext hpj
      have hrange := part_range hpj
      obtain ⟨q, hq⟩ := part_inside mtch (i := m + 1) (by omega) (by omega)
      have hqd : ¬ Deep q := fun hqd => hnext (by rw [hq, show q = doublestar from hqd])
      have hn := needed_single hq hqd
      rw [show m + 1 - 1 = m by omega] at hn
      have := needed_mono mtch (show m + 1 ≤ j - 1 by omega)
      have := accepts_size hm' h'
      omega

/-! ## The walk over the shortest path -/

theorem step_deep {mtch : List Str} {m : ℤ} (h : part mtch m = some doublestar) (x : Str) :
    match_step mtch m x = some (m - 2) := by
  rcases step_cases mtch m x with ⟨-, he⟩ | ⟨q, hq, hqd, -⟩ | ⟨hmiss, -⟩
  · exact he
  · rw [h] at hq
    exact absurd (Option.some.inj hq).symm hqd
  · exact absurd rfl (hmiss _ h).1

theorem step_single {mtch : List Str} {m : ℤ} {p x : Str} (h : part mtch m = some p) (hp : ¬ Deep p)
    (hx : match_path_part x p = true) : match_step mtch m x = some (m - 1) := by
  rcases step_cases mtch m x with ⟨hd, -⟩ | ⟨q, -, -, -, he⟩ | ⟨hmiss, -⟩
  · rw [h] at hd
    exact absurd (Option.some.inj hd) hp
  · exact he
  · rw [(hmiss p h).2] at hx
    cases hx

/-- every `**` comes right after a single part -/
inductive Alone : List Str → Prop where
  | nil : Alone []
  | part {Z : List Str} {p : Str} : Alone Z → ¬ Deep p → Alone (Z ++ [p])
  | deep {Z : List Str} {p d : Str} : Alone Z → ¬ Deep p → Deep d → Alone (Z ++ [p, d])

/-- path parts that the single parts accept are used up one by one; the part before a `**` is not even looked at -/
theorem accepts_alone {A Z B xs ys : List Str} (hZ : Alone Z)
    (hxs : List.Forall₂ (fun x p => match_path_part x p = true) xs (flat Deep Z)) :
    Accepts (A ++ Z ++ B) (A.length + Z.length) (xs.reverse ++ ys) ↔ Accepts (A ++ Z ++ B) A.length ys := by
  induction hZ generalizing xs ys B with
  | nil => cases hxs; simp
  | @part Z p hZ hp ih =>
    rw [flat_append, flat_cons_part _ hp] at hxs
    obtain ⟨as, bs, rfl, has, hbs⟩ := forall₂_append_right.1 hxs
    obtain ⟨x, _, hx, hnil, rfl⟩ := List.forall₂_cons_right_iff.1 hbs
    cases hnil
    have hpart : part (A ++ (Z ++ [p]) ++ B) (A.length + (Z ++ [p]).length) = some p := by
      have := part_append (A ++ Z) p B
      simpa [add_assoc] using this
    have hstep : match_step (A ++ (Z ++ [p]) ++ B) (A.length + (Z ++ [p]).length) x =
        some (A.length + Z.length) := by
      rw [step_single hpart hp hx]
      congr 1
      simp only [List.length_append, List.length_singleton]
      omega
    have hrec : Accepts (A ++ Z ++ ([p] ++ B)) (A.length + Z.length) (as.reverse ++ ys) ↔
        Accepts (A ++ Z ++ ([p] ++ B)) A.length ys := ih has
    rw [List.reverse_append, List.reverse_singleton]
    change Accepts _ _ (x :: (as.reverse ++ ys)) ↔ _
    rw [accepts_cons, hstep]
    simpa using hrec
  | @deep Z p d hZ hp hd ih =>
    rw [flat_append, flat_cons_part _ hp, flat_cons_deep _ hd] at hxs
    obtain ⟨as, bs, rfl, has, hbs⟩ := forall₂_append_right.1 hxs
    obtain ⟨x, _, hx, hnil, rfl⟩ := List.forall₂_cons_right_iff.1 hbs
    cases hnil
    have hpart : part (A ++ (Z ++ [p, d]) ++ B) (A.length + (Z ++ [p, d]).length) = some doublestar := by
      have := part_append (A ++ Z ++ [p]) d B
      rw [show d = doublestar from hd] at this ⊢
      simpa [add_assoc] using this
    have hstep : match_step (A ++ (Z ++ [p, d]) ++ B) (A.length + (Z ++ [p, d]).length) x =
        some (A.length + Z.length) := by
      rw [step_deep hpart]
      congr 1
      simp only [List.length_append, List.length_cons, List.length_nil]
      omega
    have hrec : Accepts (A ++ Z ++ ([p, d] ++ B)) (A.length + Z.length) (as.reverse ++ ys) ↔
        Accepts (A ++ Z ++ ([p, d] ++ B)) A.length ys := ih has
    rw [List.reverse_append, List.reverse_singleton]
    change Accepts _ _ (x :: (as.reverse ++ ys)) ↔ _
    rw [accepts_cons, hstep]
    simpa using hrec

/-- the parts of a pattern that a walk can take one by one: no `**` in front, no two adjacent ones -/
theorem alone_of {Z : List Str} (hhead : Z.head? ≠ some doublestar)
    (hadj : ∀ X Y, Z ≠ X ++ doublestar :: doublestar :: Y) : Alone Z := by
  induction hn : Z.length using Nat.strong_induction_on generalizing Z with
  | _ n ih =>
    rcases List.eq_nil_or_concat' Z with rfl | ⟨Z', z, rfl⟩
    · exact .nil
    have hhead' : Z'.head? ≠ some doublestar := by
      cases Z' with
      | nil => simp
      | cons => simpa using hhead
    have hadj' : ∀ X Y, Z' ≠ X ++ doublestar :: doublestar :: Y := by
      rintro X Y rfl
      exact hadj X (Y ++ [z]) (by simp)
    have hZ' : Alone Z' := ih Z'.length (by simp at hn; omega) hhead' hadj' rfl
    by_cases hz : Deep z
    · rcases List.eq_nil_or_concat' Z' with rfl | ⟨Z'', p, rfl⟩
      · exact absurd (by simpa using (show z = doublestar from hz)) hhead
      have hp : ¬ Deep p := by
        intro hp
        refine hadj Z'' [] ?_
        rw [show p = doublestar from hp, show z = doublestar from hz]
        simp
      have hZ'' : Alone Z'' := by
        refine ih Z''.length (by simp at hn; omega) ?_ ?_ rfl
        · cases Z'' with
          | nil => simp
          | cons => simpa using hhead'
        · rintro X Y rfl
          exact hadj' X (Y ++ [p]) (by simp)
      rw [List.append_assoc]
      exact .deep hZ'' hp hz
    · exact .part hZ' hz

/-! ## Where the walk is right -/

/-- a part of a path -/
def PathPart (ppart : Str) : Prop := ppart ≠ [] ∧ '/' ∉ ppart

/-- a pattern part that accepts every part of a path, such as `*` -/
def Universal (mpart : Str) : Prop := ∀ ppart, PathPart ppart → match_path_part ppart mpart = true

/-- no `**` at all; or one in front, no two adjacent ones but in the run at the front, and before the last one only
parts that accept everything -/
def Exact (mtch : List Str) : Prop :=
  doublestar ∉ mtch ∨
    mtch.head? = some doublestar ∧ (∀ X Y, mtch = X ++ doublestar :: doublestar :: Y → ∀ p ∈ X, Deep p) ∧
      ∀ X p Y, mtch = X ++ p :: Y → doublestar ∈ Y → Universal p

theorem part_right {A B : List Str} {i : ℤ} {p : Str} (h : part (A ++ B) i = some p) (hi : (A.length : ℤ) < i) :
    p ∈ B := by
  rw [part, if_pos (by omega), List.getElem?_append_right (by omega)] at h
  exact List.mem_of_getElem? h

theorem part_left {A B : List Str} {i : ℤ} (hi : i ≤ A.length) : part (A ++ B) i = part A i := by
  unfold part
  split_ifs
  · rw [List.getElem?_append_left (by omega)]
  · rfl

/-- the parts after the last `**`: one by one from the end -/
theorem accepts_suffix {A T B xs : List Str} (hT : ∀ q ∈ T, ¬ Deep q) (hB : ∀ q ∈ B, ¬ Deep q) :
    Accepts (A ++ T ++ B) (A.length + T.length) xs.reverse ↔
      ∃ as bs, xs = as ++ bs ∧ Accepts (A ++ T ++ B) A.length as.reverse ∧
        List.Forall₂ (fun x p => match_path_part x p = true) bs T := by
  induction T using List.reverseRecOn generalizing xs B with
  | nil => simp
  | append_singleton T q ih =>
    have hq : ¬ Deep q := hT q (by simp)
    have hpart : part (A ++ (T ++ [q]) ++ B) (A.length + (T ++ [q]).length) = some q := by
      have := part_append (A ++ T) q B
      simpa [add_assoc] using this
    have hrec := fun ys => @ih ([q] ++ B) ys (fun r hr => hT r (by simp [hr]))
      (by simpa using ⟨hq, hB⟩)
    rcases List.eq_nil_or_concat' xs with rfl | ⟨xs, x, rfl⟩
    · refine iff_of_false ?_ ?_
      · intro h
        have := accepts_nil.1 h
        rw [needed_single hpart hq] at this
        omega
      · rintro ⟨as, bs, hnil, -, h⟩
        have := h.length_eq
        simp [(List.append_eq_nil_iff.1 hnil.symm).2] at this
    · rw [List.reverse_append, List.reverse_singleton, List.singleton_append, accepts_cons]
      cases hx : match_path_part x q with
      | true =>
        rw [step_single hpart hq hx]
        have hm : ((A.length : ℤ) + (T ++ [q]).length - 1) = A.length + T.length := by
          simp only [List.length_append, List.length_singleton]
          omega
        simp only [Option.some.injEq, exists_eq_left', hm]
        have hrec' := hrec xs
        simp only [List.append_assoc] at hrec' ⊢
        rw [hrec']
        constructor
        · rintro ⟨as, bs, rfl, ha, hb⟩
          exact ⟨as, bs ++ [x], by simp, ha, forall₂_append_right.2 ⟨bs, [x], rfl, hb, .cons hx .nil⟩⟩
        · rintro ⟨as, bs, hsplit, ha, hb⟩
          obtain ⟨bs, cs, rfl, hb', hc⟩ := forall₂_append_right.1 hb
          obtain ⟨y, _, -, hnil, rfl⟩ := List.forall₂_cons_right_iff.1 hc
          cases hnil
          rw [← List.append_assoc] at hsplit
          obtain ⟨rfl, -⟩ := List.append_inj' hsplit rfl
          exact ⟨as, bs, rfl, ha, hb'⟩
      | false =>
        refine iff_of_false ?_ ?_
        · rintro ⟨m', hs, -⟩
          rcases step_cases (A ++ (T ++ [q]) ++ B) (A.length + (T ++ [q]).length) x with
            ⟨hd, -⟩ | ⟨r, hr, -, hxr, -⟩ | ⟨-, he⟩
          · rw [hpart] at hd
            exact hq (Option.some.inj hd)
          · rw [hpart] at hr
            rw [← Option.some.inj hr, hx] at hxr
            cases hxr
          · rw [he] at hs
            obtain ⟨i, hi, -⟩ := Option.map_eq_some_iff.1 hs
            obtain ⟨hlt, hp, -⟩ := unwind_some hi
            exact hB _ (part_right hp (by simpa using hlt)) rfl
        · rintro ⟨as, bs, hsplit, -, hb⟩
          obtain ⟨bs, cs, rfl, -, hc⟩ := forall₂_append_right.1 hb
          obtain ⟨y, _, hy, hnil, rfl⟩ := List.forall₂_cons_right_iff.1 hc
          cases hnil
          rw [← List.append_assoc] at hsplit
          obtain ⟨-, hxy⟩ := List.append_inj' hsplit rfl
          rw [← List.cons.inj hxy |>.1, hx] at hy
          cases hy

/-- up to the last `**` the number of parts decides: every pass uses up exactly one, and going back costs nothing -/
theorem accepts_universal {mtch xs : List Str} {a m : ℤ} (hhead : part mtch 1 = some doublestar)
    (hadj : ∀ X Y, mtch = X ++ doublestar :: doublestar :: Y → ∀ p ∈ X, Deep p)
    (huniv : ∀ X p Y, mtch = X ++ p :: Y → doublestar ∈ Y → Universal p) (ha : part mtch a = some doublestar)
    (hm : m ≤ a) (hxs : ∀ x ∈ xs, PathPart x) : Accepts mtch m xs ↔ needed mtch m ≤ xs.length := by
  induction xs generalizing m with
  | nil => rw [accepts_nil]; simp
  | cons x xs ih =>
    have ih' := fun m' (hm' : m' ≤ a) => @ih m' hm' fun y hy => hxs y (List.mem_cons_of_mem x hy)
    rw [accepts_cons, List.length_cons]
    rcases step_cases mtch m x with ⟨hp, he⟩ | ⟨p, hp, hd, -, he⟩ | ⟨hmiss, he⟩
    · rw [he]
      simp only [Option.some.injEq, exists_eq_left']
      rw [ih' (m - 2) (by omega)]
      have hn := needed_deep hp
      have hmono : needed mtch (m - 2) ≤ needed mtch (m - 1) := needed_mono mtch (by omega)
      cases hq : part mtch (m - 1) with
      | none =>
        have : m - 1 ≤ 0 := by
          by_contra h1
          obtain ⟨q, hq'⟩ := part_inside mtch (i := m - 1) (by omega) (by have := part_range hp; omega)
          rw [hq] at hq'
          cases hq'
        have := needed_nonpos mtch this
        omega
      | some q =>
        by_cases hqd : Deep q
        · -- inside the run at the front
          have hz : needed mtch (m - 2) = 0 := by
            obtain ⟨X, Y, hsplit, hX⟩ := part_split hq
            have hY : ∃ Y', Y = doublestar :: Y' := by
              cases Y with
              | nil =>
                have := part_range hp
                rw [hsplit] at this
                simp at this
                omega
              | cons y Y =>
                have h1 := part_append (X ++ [q]) y Y
                rw [List.append_assoc, List.singleton_append, ← hsplit, show ((X ++ [q]).length : ℤ) + 1 = m by
                  simp; omega, hp] at h1
                exact ⟨Y, by rw [Option.some.inj h1]⟩
            obtain ⟨Y', rfl⟩ := hY
            have hX' := hadj X Y' (by rw [hsplit, show q = doublestar from hqd])
            rw [show m - 2 = (X.length : ℤ) by omega, hsplit, needed_append]
            exact size_eq_zero.2 hX'
          have := needed_deep (show part mtch (m - 1) = some doublestar by rw [hq, show q = doublestar from hqd])
          rw [show m - 1 - 1 = m - 2 by omega] at this
          omega
        · have := needed_single hq hqd
          rw [show m - 1 - 1 = m - 2 by omega] at this
          omega
    · rw [he]
      simp only [Option.some.injEq, exists_eq_left']
      rw [ih' (m - 1) (by omega), needed_single hp hd]
      omega
    · have h0 : m ≤ 0 := by
        by_contra h1
        obtain ⟨p, hp⟩ := part_inside mtch (i := m) (by omega) (by have := part_range ha; omega)
        obtain ⟨X, Y, hsplit, hX⟩ := part_split hp
        obtain ⟨hpd, hfalse⟩ := hmiss p hp
        have hne : m ≠ a := by
          rintro rfl
          rw [hp] at ha
          exact hpd (Option.some.inj ha)
        have hY : doublestar ∈ Y := by
          rw [hsplit, show X ++ p :: Y = (X ++ [p]) ++ Y by simp] at ha
          exact part_right ha (by simp; omega)
        rw [huniv X p Y hsplit hY x (hxs x List.mem_cons_self)] at hfalse
        cases hfalse
      have hunwind : unwind_to_last_doublestar mtch m = some 1 := by
        cases hu : unwind_to_last_doublestar mtch m with
        | none => exact absurd hhead (unwind_none.1 hu 1 (by omega))
        | some i =>
          obtain ⟨hlt, hp, hbefore⟩ := unwind_some hu
          have := part_range hp
          by_contra hne
          exact hbefore 1 (by omega) (by simp at hne; omega) hhead
      rw [he, hunwind]
      simp only [Option.map_some, Option.some.injEq, exists_eq_left']
      rw [ih' (1 - 1) (by have := part_range ha; omega), needed_nonpos mtch h0, needed_nonpos mtch (by omega)]
      simp

theorem exact_accepts {path mtch : List Str} (hex : Exact mtch) (hpath : ∀ x ∈ path, PathPart x) :
    Accepts mtch mtch.length path.reverse ↔ Matches path mtch := by
  by_cases hmem : doublestar ∈ mtch
  · obtain ⟨hhead, hadj, huniv⟩ := hex.resolve_left (not_not_intro hmem)
    -- A is the pattern up to the last `**`
    obtain ⟨T, A, hrev, hT⟩ := List.eq_append_cons_of_mem (List.mem_reverse.2 hmem)
    have hsplit : mtch = (A.reverse ++ [doublestar]) ++ T.reverse := by
      have := congrArg List.reverse hrev
      simpa using this
    have hT' : ∀ q ∈ T.reverse, ¬ Deep q := by
      rintro q hq rfl
      exact hT (List.mem_reverse.1 hq)
    have hpart : part mtch (A.reverse ++ [doublestar]).length = some doublestar := by
      have := part_append A.reverse doublestar T.reverse
      rw [hsplit]
      simpa using this
    have hfirst : part mtch 1 = some doublestar := by
      cases mtch with
      | nil => cases hhead
      | cons p mtch => simpa [part] using hhead
    have hsuffix := @accepts_suffix (A.reverse ++ [doublestar]) T.reverse [] path hT' (by simp)
    rw [List.append_nil, ← hsplit] at hsuffix
    rw [show (mtch.length : ℤ) = ((A.reverse ++ [doublestar]).length : ℕ) + (T.reverse.length : ℕ) by
      rw [hsplit]; simp; omega, hsuffix]
    have hfront : ∀ as, (∀ x ∈ as, PathPart x) →
        (Accepts mtch (A.reverse ++ [doublestar]).length as.reverse ↔
          Aligns Deep (fun x p => match_path_part x p = true) as (A.reverse ++ [doublestar])) := by
      intro as has
      have hdeep : ∃ d ∈ A.reverse ++ [doublestar], Deep d := ⟨doublestar, by simp, rfl⟩
      rw [accepts_universal hfirst hadj huniv hpart le_rfl (by simpa using has), List.length_reverse,
        aligns_universal hdeep]
      · conv_lhs => rw [hsplit, needed_append]
      · intro p hp hpd x hx
        obtain ⟨X, Y, hXY⟩ := List.append_of_mem hp
        refine huniv X p (Y ++ T.reverse) (by rw [hsplit, hXY]; simp) ?_ x (has x hx)
        rcases List.eq_nil_or_concat' Y with rfl | ⟨Y, y, rfl⟩
        · obtain ⟨-, h1⟩ := List.append_inj' hXY rfl
          exact absurd (List.cons.inj h1).1.symm hpd
        · rw [show X ++ p :: (Y ++ [y]) = (X ++ p :: Y) ++ [y] by simp] at hXY
          obtain ⟨-, h1⟩ := List.append_inj' hXY rfl
          simp [← (List.cons.inj h1).1]
    constructor
    · rintro ⟨as, bs, rfl, ha, hb⟩
      have h1 := (hfront as fun x hx => hpath x (by simp [hx])).1 ha
      have h2 := (aligns_flat hT').2 hb
      rw [Matches, hsplit]
      exact h1.append h2
    · intro h
      rw [Matches, hsplit] at h
      obtain ⟨as, bs, rfl, ha, hb⟩ := h.split
      exact ⟨as, bs, rfl, (hfront as fun x hx => hpath x (by simp [hx])).2 ha, (aligns_flat hT').1 hb⟩
  · have hflat : ∀ q ∈ mtch, ¬ Deep q := by
      rintro q hq rfl
      exact hmem hq
    have hsuffix := @accepts_suffix [] mtch [] path hflat (by simp)
    simp only [List.nil_append, List.append_nil, List.length_nil, Nat.cast_zero, zero_add] at hsuffix
    rw [hsuffix, Matches, aligns_flat hflat]
    constructor
    · rintro ⟨as, bs, rfl, ha, hb⟩
      cases hr : as.reverse with
      | nil => rwa [List.reverse_eq_nil_iff.1 hr]
      | cons x xs =>
        exfalso
        rw [hr] at ha
        obtain ⟨m', hs, -⟩ := accepts_cons.1 ha
        have hzero : ∀ p, part mtch 0 ≠ some p := fun p hp => by have := part_range hp; omega
        rcases step_cases mtch 0 x with ⟨hp, -⟩ | ⟨p, hp, -⟩ | ⟨-, he⟩
        · exact hzero _ hp
        · exact hzero _ hp
        · rw [he] at hs
          obtain ⟨i, hi, -⟩ := Option.map_eq_some_iff.1 hs
          obtain ⟨X, Y, hXY, -⟩ := part_split (unwind_some hi).2.1
          exact hmem (by rw [hXY]; simp)
    · intro h
      exact ⟨[], path, rfl, accepts_nil.2 (needed_nonpos mtch le_rfl), h⟩

/-! ## Where the walk is wrong on some path -/

/-- path parts, one for each single part of the pattern -/
theorem exists_picks {mtch : List Str} (hsat : ∀ p ∈ mtch, ∃ x, PathPart x ∧ match_path_part x p = true) :
    ∃ xs, (∀ x ∈ xs, PathPart x) ∧ List.Forall₂ (fun x p => match_path_part x p = true) xs (flat Deep mtch) := by
  have hflat : ∀ p ∈ flat Deep mtch, ∃ x, PathPart x ∧ match_path_part x p = true :=
    fun p hp => hsat p (mem_flat.1 hp).1
  generalize flat Deep mtch = ps at hflat ⊢
  induction ps with
  | nil => exact ⟨[], by simp, .nil⟩
  | cons p ps ih =>
    obtain ⟨x, hx, hxp⟩ := hflat p List.mem_cons_self
    obtain ⟨xs, hxs, h⟩ := ih fun q hq => hflat q (List.mem_cons_of_mem p hq)
    exact ⟨x :: xs, by simpa using ⟨hx, hxs⟩, .cons hxp h⟩

/-- the code agrees with the meaning of the pattern on every path -/
def Agrees (mtch : List Str) : Prop :=
  ∀ path, (∀ x ∈ path, PathPart x) → (Accepts mtch mtch.length path.reverse ↔ Matches path mtch)

/-- a pattern is a run of `**` and a rest that does not start with one -/
theorem exists_run (X : List Str) :
    ∃ R X', X = R ++ X' ∧ (∀ p ∈ R, Deep p) ∧ X'.head? ≠ some doublestar := by
  induction X with
  | nil => exact ⟨[], [], rfl, by simp, by simp⟩
  | cons p X ih =>
    by_cases hp : Deep p
    · obtain ⟨R, X', rfl, hR, hX'⟩ := ih
      exact ⟨p :: R, X', rfl, by simpa using ⟨hp, hR⟩, hX'⟩
    · exact ⟨[], p :: X, rfl, by simp, fun h => hp (Option.some.inj h)⟩

section Necessity

variable {mtch : List Str} (hag : Agrees mtch) (hsat : ∀ p ∈ mtch, ∃ x, PathPart x ∧ match_path_part x p = true)

include hag hsat

theorem agrees_adjacent {X Y : List Str} (hsplit : mtch = X ++ doublestar :: doublestar :: Y) : ∀ p ∈ X, Deep p := by
  by_contra hX
  obtain ⟨xs, hxs, hpick⟩ := exists_picks hsat
  have h := (hag xs hxs).2 (aligns_of_flat hpick)
  have h1 := part_append X doublestar (doublestar :: Y)
  have h2 := part_append (X ++ [doublestar]) doublestar Y
  rw [List.append_assoc, List.singleton_append] at h2
  rw [← hsplit] at h1 h2
  have hpos : 0 < needed mtch (X.length + 1) := by
    have hle := needed_mono mtch (show (X.length : ℤ) ≤ X.length + 1 by omega)
    rw [show needed mtch X.length = size Deep X by conv_lhs => rw [hsplit, needed_append]] at hle
    exact lt_of_lt_of_le (Nat.pos_of_ne_zero fun h0 => hX (size_eq_zero.1 h0)) hle
  have := accepts_adjacent h1 (by simpa using h2) hpos (by have := part_range h2; simp at this; omega) le_rfl h
  rw [needed_all, List.length_reverse, hpick.length_eq, size] at this
  omega

theorem agrees_head (hmem : doublestar ∈ mtch) : mtch.head? = some doublestar := by
  by_contra hhead
  obtain ⟨X, Y, hsplit⟩ := List.append_of_mem hmem
  obtain ⟨xs, hxs, hx⟩ := exists_picks fun p hp => hsat p (by rw [hsplit]; exact List.mem_append_left _ hp)
  obtain ⟨ys, hys, hy⟩ := @exists_picks Y fun p hp => hsat p (by rw [hsplit]; simp [hp])
  have hpath : ∀ x ∈ xs ++ (['x'] :: ys), PathPart x := by
    intro x hx
    rcases List.mem_append.1 hx with hx | hx
    · exact hxs x hx
    · rcases List.mem_cons.1 hx with rfl | hx
      · exact ⟨by simp, by decide⟩
      · exact hys x hx
  have hm : Matches (xs ++ (['x'] :: ys)) mtch := by
    rw [hsplit]
    exact (aligns_of_flat hx).append (.more rfl (.skip rfl (aligns_of_flat hy)))
  have h := (hag _ hpath).2 hm
  have hfirst : part mtch 1 ≠ some doublestar := by
    intro h1
    obtain ⟨A, B, hAB, hA⟩ := part_split h1
    rw [List.length_eq_zero_iff.1 (show A.length = 0 by omega)] at hAB
    exact hhead (by rw [hAB]; rfl)
  have hadj : ∀ i, part mtch i = some doublestar → part mtch (i + 1) ≠ some doublestar := by
    intro i h1 h2
    obtain ⟨A, B, hAB, rfl⟩ := part_split h1
    cases B with
    | nil =>
      have := part_range h2
      rw [hAB] at this
      simp at this
    | cons b B =>
      have h3 := part_append (A ++ [doublestar]) b B
      rw [List.append_assoc, List.singleton_append, ← hAB] at h3
      have hb : b = doublestar := by
        rw [show ((A ++ [doublestar]).length : ℤ) + 1 = A.length + 1 + 1 by simp, h2] at h3
        exact (Option.some.inj h3).symm
      rw [hb] at hAB
      have hA := agrees_adjacent hag hsat hAB
      cases A with
      | nil => exact hhead (by rw [hAB]; rfl)
      | cons p A => exact hhead (by rw [hAB, show p = doublestar from hA p List.mem_cons_self]; rfl)
  have hend : part mtch ((mtch.length : ℤ) + 1) ≠ some doublestar := fun h1 => by have := part_range h1; omega
  have hlen : (xs ++ (['x'] :: ys)).length = size Deep mtch + 1 := by
    have h1 : size Deep mtch = size Deep X + size Deep Y := by
      rw [hsplit, size_append, size, size, flat_cons_deep _ (show Deep doublestar from rfl)]
      rfl
    rw [h1, size, size, ← hx.length_eq, ← hy.length_eq, List.length_append, List.length_cons]
    omega
  have := accepts_rooted hfirst hadj (by omega) le_rfl hend h
  rw [needed_all, List.length_reverse, hlen] at this
  omega

/-- the parts of a pattern from some single part on: those up to the next `**` are not checked one by one -/
theorem alone_tail {X Z : List Str} {u : Str} (hu : ¬ Deep u) (hsplit : mtch = X ++ u :: Z)
    (hhead : Z.head? ≠ some doublestar) : Alone Z := by
  refine alone_of hhead fun A B hZ => ?_
  have hA := agrees_adjacent hag hsat (X := X ++ u :: A) (Y := B) (by rw [hsplit, hZ]; simp)
  exact hu (hA u (by simp))

/-- the single part right before a `**` is never looked at -/
theorem agrees_before_deep {X Z : List Str} {u : Str} (hu : ¬ Deep u)
    (hsplit : mtch = X ++ u :: doublestar :: Z) : Universal u := by
  intro b hb
  by_contra hbu
  have hsatX : ∀ p ∈ X, ∃ x, PathPart x ∧ match_path_part x p = true := fun p hp => hsat p (by simp [hsplit, hp])
  have hsatZ : ∀ p ∈ Z, ∃ x, PathPart x ∧ match_path_part x p = true := fun p hp => hsat p (by simp [hsplit, hp])
  obtain ⟨xs, hxs, hx⟩ := exists_picks hsatX
  obtain ⟨zs, hzs, hz⟩ := exists_picks hsatZ
  have hpath : ∀ x ∈ xs ++ b :: zs, PathPart x := by
    intro x hx
    rcases List.mem_append.1 hx with hx | hx
    · exact hxs x hx
    · rcases List.mem_cons.1 hx with rfl | hx
      · exact hb
      · exact hzs x hx
  have hZ : Alone Z := by
    refine alone_of (fun hhead => ?_) fun A B hZ => ?_
    · obtain ⟨B, rfl⟩ : ∃ B, Z = doublestar :: B := by
        cases Z with
        | nil => cases hhead
        | cons z Z => exact ⟨Z, by rw [show z = doublestar by simpa using hhead]⟩
      exact hu (agrees_adjacent hag hsat (X := X ++ [u]) (Y := B) (by rw [hsplit]; simp) u (by simp))
    · exact hu (agrees_adjacent hag hsat (X := X ++ u :: doublestar :: A) (Y := B) (by rw [hsplit, hZ]; simp) u
        (by simp))
  obtain ⟨R, X', hX, hR, hhead⟩ := exists_run X
  have hX' : Alone X' := by
    refine alone_of hhead fun A B hA => ?_
    cases A with
    | nil => rw [hA] at hhead; exact hhead rfl
    | cons a A =>
      have hdeep := agrees_adjacent hag hsat (X := R ++ a :: A) (Y := B ++ u :: doublestar :: Z)
        (by rw [hsplit, hX, hA]; simp) a (by simp)
      rw [hA, show a = doublestar from hdeep] at hhead
      exact hhead rfl
  -- b takes the place of the part that u should accept
  have hcode : Accepts mtch mtch.length (xs ++ b :: zs).reverse := by
    have h1 := @accepts_alone (X ++ [u, doublestar]) Z [] zs (b :: xs.reverse) hZ hz
    have h2 := @accepts_alone R X' (u :: doublestar :: Z) xs [] hX'
      (by rwa [hX, flat_append, flat_eq_nil hR, List.nil_append] at hx)
    have hsplit1 : X ++ [u, doublestar] ++ Z ++ [] = mtch := by rw [hsplit]; simp
    have hsplit2 : R ++ X' ++ (u :: doublestar :: Z) = mtch := by rw [hsplit, hX]
    have hpart : part mtch (X ++ [u, doublestar]).length = some doublestar := by
      have := part_append (X ++ [u]) doublestar Z
      rw [hsplit]
      simpa [add_assoc] using this
    rw [hsplit1] at h1
    rw [hsplit2, List.append_nil, accepts_nil] at h2
    rw [List.reverse_append, List.reverse_cons, List.append_assoc, List.singleton_append,
      show (mtch.length : ℤ) = ((X ++ [u, doublestar]).length : ℕ) + Z.length by rw [hsplit]; simp; omega, h1,
      accepts_cons, step_deep hpart]
    refine ⟨_, rfl, ?_⟩
    rw [show ((X ++ [u, doublestar]).length : ℤ) - 2 = R.length + X'.length by rw [hX]; simp; omega, h2, ← hsplit2,
      List.append_assoc, needed_append]
    exact size_eq_zero.2 hR
  have htight := ((hag _ hpath).1 hcode).tight (by
    rw [hsplit, size_append, size, size, flat_cons_part _ hu, flat_cons_deep _ (show Deep doublestar from rfl),
      List.length_append, List.length_cons, List.length_cons, hx.length_eq, hz.length_eq])
  rw [hsplit, flat_append, flat_cons_part _ hu] at htight
  obtain ⟨as, bs, hab, ha, hb'⟩ := forall₂_append_right.1 htight
  obtain ⟨y, _, hy, -, rfl⟩ := List.forall₂_cons_right_iff.1 hb'
  obtain ⟨-, hbs⟩ := List.append_inj hab (by rw [hx.length_eq, ha.length_eq])
  rw [← (List.cons.inj hbs).1] at hy
  exact hbu hy

/-- a single part that does not accept everything, before others that do and a `**`: one part of the path too many
and the walk goes back -/
theorem agrees_inner {X W Z : List Str} {u : Str} (hu : ¬ Deep u) (hW : W ≠ []) (hWd : ∀ w ∈ W, ¬ Deep w)
    (hWu : ∀ w ∈ W, Universal w) (hsplit : mtch = X ++ u :: (W ++ doublestar :: Z)) : Universal u := by
  intro b hb
  by_contra hbu
  obtain ⟨xs, hxs, hx⟩ := @exists_picks X fun p hp => hsat p (by simp [hsplit, hp])
  obtain ⟨zs, hzs, hz⟩ := @exists_picks Z fun p hp => hsat p (by simp [hsplit, hp])
  obtain ⟨c, hc, hcu⟩ := hsat u (by simp [hsplit])
  have hWpick : List.Forall₂ (fun x p => match_path_part x p = true) (List.replicate W.length b) W :=
    List.forall₂_iff_get.2 ⟨by simp, fun i h1 h2 => by simpa using hWu _ (List.get_mem W ⟨i, h2⟩) b hb⟩
  have hpath : ∀ x ∈ (xs ++ [c, b]) ++ (List.replicate W.length b ++ zs), PathPart x := by
    simp only [List.mem_append, List.mem_cons, List.mem_replicate, List.not_mem_nil, or_false]
    rintro x ((hx | rfl | rfl) | ⟨-, rfl⟩ | hx)
    · exact hxs x hx
    · exact hc
    · exact hb
    · exact hb
    · exact hzs x hx
  have hm : Matches ((xs ++ [c, b]) ++ (List.replicate W.length b ++ zs)) mtch := by
    have hshift : (xs ++ [c, b]) ++ (List.replicate W.length b ++ zs) =
        xs ++ (c :: (List.replicate W.length b ++ b :: zs)) := by
      have : b :: (List.replicate W.length b ++ zs) = List.replicate W.length b ++ b :: zs := by
        rw [← List.cons_append, ← List.replicate_succ, List.replicate_succ', List.append_assoc]
        rfl
      simp [this]
    rw [hshift, hsplit]
    refine (aligns_of_flat hx).append (.part hu hcu ?_)
    exact ((aligns_flat hWd).2 hWpick).append (.more rfl (.skip rfl (aligns_of_flat hz)))
  have hcode := (hag _ hpath).2 hm
  have halone : Alone (W ++ doublestar :: Z) := by
    refine alone_tail hag hsat hu hsplit ?_
    obtain ⟨w, W', rfl⟩ := List.exists_cons_of_ne_nil hW
    intro hhead
    exact hWd w (by simp) (Option.some.inj hhead)
  have hpick : List.Forall₂ (fun x p => match_path_part x p = true) (List.replicate W.length b ++ zs)
      (flat Deep (W ++ doublestar :: Z)) := by
    rw [flat_append, flat_eq_self hWd, flat_cons_deep _ (show Deep doublestar from rfl)]
    exact List.rel_append hWpick hz
  have h1 := @accepts_alone (X ++ [u]) (W ++ doublestar :: Z) [] _ (xs ++ [c, b]).reverse halone hpick
  have hsplit1 : X ++ [u] ++ (W ++ doublestar :: Z) ++ [] = mtch := by rw [hsplit]; simp
  rw [hsplit1] at h1
  rw [List.reverse_append, show (mtch.length : ℤ) = ((X ++ [u]).length : ℕ) + (W ++ doublestar :: Z).length by
    rw [hsplit]; simp; omega, h1, List.reverse_append] at hcode
  obtain ⟨m', hs, hrest⟩ := accepts_cons.1 hcode
  have hpart : part mtch (X ++ [u]).length = some u := by
    have := part_append X u (W ++ doublestar :: Z)
    rw [hsplit]
    simpa using this
  rcases step_cases mtch (X ++ [u]).length b with ⟨hd, -⟩ | ⟨p, hp, -, hbp, -⟩ | ⟨-, he⟩
  · rw [hpart] at hd
    exact hu (Option.some.inj hd)
  · rw [hpart] at hp
    rw [← Option.some.inj hp] at hbp
    exact hbu hbp
  · rw [he] at hs
    obtain ⟨i, hi, rfl⟩ := Option.map_eq_some_iff.1 hs
    obtain ⟨hlt, hp, -⟩ := unwind_some hi
    have hrange := part_range hp
    -- the next `**` comes after W
    have hge : ((X ++ [u] ++ W).length : ℤ) < i := by
      by_contra hle
      rw [show mtch = (X ++ [u] ++ W) ++ doublestar :: Z by rw [hsplit]; simp, part_left (by omega)] at hp
      exact hWd _ (part_right hp hlt) rfl
    have hneed : needed mtch ((X ++ [u] ++ W).length : ℕ) ≤ needed mtch (i - 1) := needed_mono mtch (by omega)
    have hsize := accepts_size (by omega) hrest
    rw [show mtch = (X ++ [u] ++ W) ++ doublestar :: Z by rw [hsplit]; simp, needed_append, size_append, size_append,
      size_part hu, size, size, flat_eq_self hWd, ← hx.length_eq] at hneed
    rw [show mtch = (X ++ [u] ++ W) ++ doublestar :: Z by rw [hsplit]; simp] at hsize
    have := List.length_pos_of_ne_nil hW
    simp at hsize hneed
    omega

/-- **What a pattern needs for the code to be right on all paths.** -/
theorem agrees_exact : Exact mtch := by
  by_cases hmem : doublestar ∈ mtch
  · refine Or.inr ⟨agrees_head hag hsat hmem, fun X Y hsplit => agrees_adjacent hag hsat hsplit, ?_⟩
    intro X p Y
    -- the parts after p are handled first
    induction hn : Y.length using Nat.strong_induction_on generalizing X p Y with
    | _ n ih =>
      intro hsplit hY
      by_cases hp : Deep p
      · rintro x -
        rw [show p = doublestar from hp]
        exact match_path_part_doublestar x
      obtain ⟨W, Z, rfl, hW⟩ := List.eq_append_cons_of_mem hY
      rcases List.eq_nil_or_concat' W with rfl | ⟨W', w, hWw⟩
      · exact agrees_before_deep hag hsat hp hsplit
      · have hWd : ∀ w ∈ W, ¬ Deep w := by
          rintro w hw rfl
          exact hW hw
        refine agrees_inner hag hsat hp (by simp [hWw]) hWd (fun q hq => ?_) hsplit
        obtain ⟨A, B, rfl⟩ := List.append_of_mem hq
        refine ih (B ++ doublestar :: Z).length ?_ (X ++ p :: A) q (B ++ doublestar :: Z) rfl ?_ (by simp)
        · simp at hn ⊢
          omega
        · rw [hsplit]
          simp
  · exact Or.inl hmem

end Necessity

/-! ## Strings -/

theorem splitOn_sub {c : Char} {s r : Str} (h : r ∈ s.splitOn c) : c ∉ r ∧ ∀ y ∈ r, y ∈ s := by
  induction s generalizing r with
  | nil =>
    obtain rfl : r = [] := by simpa using h
    simp
  | cons x s ih =>
    rw [List.splitOn_cons_eq_if_modifyHead] at h
    split_ifs at h with hx
    · rcases List.mem_cons.1 h with rfl | h
      · simp
      · exact ⟨(ih h).1, fun y hy => List.mem_cons_of_mem x ((ih h).2 y hy)⟩
    · cases hs : s.splitOn c with
      | nil => exact absurd hs (List.splitOn_ne_nil c s)
      | cons t L =>
        rw [hs, List.modifyHead_cons] at h
        rcases List.mem_cons.1 h with rfl | h
        · have ht := ih (r := t) (by rw [hs]; exact List.mem_cons_self)
          refine ⟨fun hc => ?_, fun y hy => ?_⟩
          · rcases List.mem_cons.1 hc with rfl | hc
            · simp at hx
            · exact ht.1 hc
          · rcases List.mem_cons.1 hy with rfl | hy
            · exact List.mem_cons_self
            · exact List.mem_cons_of_mem x (ht.2 y hy)
        · have hr := ih (r := r) (by rw [hs]; exact List.mem_cons_of_mem t h)
          exact ⟨hr.1, fun y hy => List.mem_cons_of_mem x (hr.2 y hy)⟩

theorem runs_sub {c : Char} {s r : Str} (h : r ∈ runs c s) : r ≠ [] ∧ c ∉ r ∧ ∀ y ∈ r, y ∈ s := by
  obtain ⟨hr, hne⟩ := List.mem_filter.1 h
  exact ⟨by simpa using hne, splitOn_sub hr⟩

/-- a character that does not separate lies in one of the runs -/
theorem exists_run_of_mem {c y : Char} {s : Str} (hy : y ∈ s) (hne : y ≠ c) : ∃ r ∈ runs c s, y ∈ r := by
  have hmem : y ∈ (s.splitOn c).flatten := by
    rw [← @List.intercalate_splitOn _ s _ _ c] at hy
    generalize s.splitOn c = L at hy
    induction L with
    | nil => simp at hy
    | cons t L ih =>
      cases L with
      | nil => simpa using hy
      | cons t' L =>
        rw [List.intercalate_cons_cons] at hy
        simp only [List.mem_append, List.mem_singleton] at hy
        rcases hy with (hy | hy) | hy
        · simp [hy]
        · exact absurd hy hne
        · exact List.mem_append_right _ (ih hy)
  obtain ⟨r, hr, hyr⟩ := List.mem_flatten.1 hmem
  exact ⟨r, List.mem_filter.2 ⟨hr, by simpa using List.ne_nil_of_mem hyr⟩, hyr⟩

theorem runs_join {parts : List Str} (h : ∀ p ∈ parts, PathPart p) :
    runs '/' ('/' :: ['/'].intercalate parts) = parts := by
  have hcons : ∀ s : Str, runs '/' ('/' :: s) = runs '/' s := by
    intro s
    simp [runs, List.splitOn_cons_eq_if_modifyHead]
  rw [hcons, runs]
  cases parts with
  | nil => rfl
  | cons p parts =>
    rw [List.splitOn_intercalate '/' (fun l hl => (h l hl).2) (by simp), List.filter_eq_self.2]
    intro l hl
    simpa using (h l hl).1

/-- a part of a pattern: it has a character besides parentheses and bars -/
def PatternPart (mpart : Str) : Prop := ∃ y ∈ mpart, y ∉ ['(', ')', '|']

instance : DecidablePred PatternPart := fun mpart => List.decidableBEx (fun y => y ∉ ['(', ')', '|']) mpart

/-- some part of a path is accepted -/
theorem exists_accepted {mpart : Str} (hslash : '/' ∉ mpart) (h : PatternPart mpart) :
    ∃ x, PathPart x ∧ match_path_part x mpart = true := by
  induction hn : mpart.length using Nat.strong_induction_on generalizing mpart with
  | _ n ih =>
    obtain ⟨y, hy, hyc⟩ := h
    cases hp : parenthesized mpart with
    | none => exact ⟨mpart, ⟨List.ne_nil_of_mem hy, hslash⟩, match_path_part_self hp⟩
    | some inner =>
      have hlen := parenthesized_length hp
      have hinner : mpart = '(' :: (inner ++ [')']) := by
        unfold parenthesized at hp
        split at hp
        · rename_i t
          split_ifs at hp with hlast
          cases hp
          rw [List.dropLast_append_getLast? _ hlast]
        · cases hp
      simp only [List.mem_cons, List.not_mem_nil, or_false, not_or] at hyc
      have hyi : y ∈ inner := by
        rw [hinner] at hy
        simpa [hyc.1, hyc.2.1] using hy
      obtain ⟨r, hr, hyr⟩ := exists_run_of_mem hyi hyc.2.2
      have hsub := runs_sub hr
      have hslash' : '/' ∉ r := fun h => hslash (by rw [hinner]; simp [hsub.2.2 _ h])
      obtain ⟨x, hx, hxr⟩ := ih r.length (by have := runs_length hr; omega) hslash' ⟨y, hyr, by simpa using hyc⟩ rfl
      refine ⟨x, hx, ?_⟩
      rw [match_path_part_paren hp]
      exact List.any_eq_true.2 ⟨r, hr, hxr⟩

/-! ## The function -/

theorem exact_doublestar : Exact [doublestar] := by
  refine Or.inr ⟨rfl, fun X Y h => ?_, fun X p Y h hY => ?_⟩
  · have := congrArg List.length h
    simp at this
    omega
  · have := congrArg List.length h
    have := List.length_pos_of_mem hY
    simp at *
    omega

theorem match_path_eq {path mtch : Pathy} (hp : path.Ok) (hm : mtch.Ok) :
    (match_path path mtch).1 = match_parts (split_parts path.path) (split_parts mtch.path) := by
  rw [← split_path_parts hp, ← split_path_parts hm]
  rfl

theorem split_parts_path {path : Str} (h : path.head? = some '/') : split_parts path = runs '/' path := by
  rw [split_parts, if_neg, pattern_parts, if_pos h, List.nil_append]
  rintro (rfl | rfl) <;> simp [star] at h

end Shuttlesock.MatchPath
