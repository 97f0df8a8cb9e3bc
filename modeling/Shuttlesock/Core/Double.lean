/-
Doubles as rationals: binary64 with rounding to nearest, ties to even. Library: nothing here is about shuttlesock.

A finite double is a rational with at most 53 bits above 2^-1074. The sign of a zero is not in the model.
- `rne`: a rational to the nearest integer, `place`: the exponent of the last bit that is kept, `rd`: a rational to the nearest double.
- `Representable`: a rational that a double holds, when it is not too large.
- `Double`: with the infinities and NaN, and the operations as the exact result, rounded.

Results:
- `rd_exact`, `rd_representable`: a rational is rounded to one that is representable, and these stay.
- `rd_mono`, `rd_le`, `le_rd`: rounding is monotone, and does not pass a double.
- `floor_representable`: the integer below a double is one.
- `rd_half`: what adding 1/2 to an integer does.
-/
import Mathlib.Tactic
import Mathlib.Data.Int.Log

namespace Shuttlesock.Double

/-! ## Rounding -/

/-- to the nearest integer, ties to even -/
def rne (q : ℚ) : ℤ :=
  if Int.fract q < 1 / 2 then ⌊q⌋
  else if 1 / 2 < Int.fract q then ⌊q⌋ + 1
  else if Even ⌊q⌋ then ⌊q⌋
  else ⌊q⌋ + 1

/-- the exponent of the last bit -/
def place (q : ℚ) : ℤ := max (Int.log 2 q - 52) (-1074)

/-- a magnitude -/
def mag (q : ℚ) : ℚ := rne (q / 2 ^ place q) * 2 ^ place q

def rd (q : ℚ) : ℚ := if q < 0 then -mag (-q) else mag q

def Representable (q : ℚ) : Prop := ∃ m k : ℤ, |m| ≤ 2 ^ 53 ∧ -1074 ≤ k ∧ q = m * 2 ^ k

/-! ## To an integer -/

section Rne

variable {q r : ℚ}

theorem rne_cases (q : ℚ) : rne q = ⌊q⌋ ∧ Int.fract q ≤ 1 / 2 ∨ rne q = ⌊q⌋ + 1 ∧ 1 / 2 ≤ Int.fract q := by
  unfold rne
  split_ifs with h₁ h₂ h₃
  · exact .inl ⟨rfl, h₁.le⟩
  · exact .inr ⟨rfl, h₂.le⟩
  · exact .inl ⟨rfl, not_lt.1 h₂⟩
  · exact .inr ⟨rfl, not_lt.1 h₁⟩

/-- an integer and less than half -/
theorem rne_add_small (n : ℤ) {d : ℚ} (h₀ : 0 ≤ d) (h₁ : d < 1 / 2) : rne (n + d) = n := by
  have hfloor : ⌊(n : ℚ) + d⌋ = n := by
    rw [Int.floor_eq_iff]
    constructor <;> linarith
  have hfract : Int.fract ((n : ℚ) + d) = d := by
    rw [Int.fract, hfloor]
    ring
  rw [rne, hfract, if_pos h₁, hfloor]

@[simp] theorem rne_intCast (n : ℤ) : rne n = n := by
  simpa using rne_add_small n (le_refl 0) (by norm_num)

/-- a tie -/
theorem rne_add_half (n : ℤ) : rne (n + 1 / 2) = if Even n then n else n + 1 := by
  have hfloor : ⌊(n : ℚ) + 1 / 2⌋ = n := by
    rw [Int.floor_eq_iff]
    constructor <;> linarith
  have hfract : Int.fract ((n : ℚ) + 1 / 2) = 1 / 2 := by
    rw [Int.fract, hfloor]
    ring
  rw [rne, hfract, if_neg (lt_irrefl _), if_neg (lt_irrefl _), hfloor]

theorem rne_mono (h : q ≤ r) : rne q ≤ rne r := by
  have hfloor : ⌊q⌋ ≤ ⌊r⌋ := Int.floor_le_floor h
  rcases hfloor.lt_or_eq with hlt | heq
  · have hq : rne q ≤ ⌊q⌋ + 1 := by
      rcases rne_cases q with ⟨hr, -⟩ | ⟨hr, -⟩ <;> omega
    have hr : ⌊r⌋ ≤ rne r := by
      rcases rne_cases r with ⟨hr, -⟩ | ⟨hr, -⟩ <;> omega
    omega
  · have hfract : Int.fract q ≤ Int.fract r := by
      rw [Int.fract, Int.fract, heq]
      linarith
    unfold rne
    rw [heq]
    split_ifs <;> first | omega | linarith

theorem rne_le {n : ℤ} (h : q ≤ n) : rne q ≤ n := (rne_mono h).trans_eq (rne_intCast n)

theorem le_rne {n : ℤ} (h : (n : ℚ) ≤ q) : n ≤ rne q := (rne_intCast n).ge.trans (rne_mono h)

end Rne

/-! ## Magnitudes -/

theorem two_zpow_pos (k : ℤ) : (0 : ℚ) < 2 ^ k := zpow_pos (by norm_num) k

/-- a power of two that is an integer -/
theorem two_zpow_natCast {k : ℤ} (hk : 0 ≤ k) : ((2 ^ k.toNat : ℤ) : ℚ) = 2 ^ k := by
  have hcast : ((k.toNat : ℕ) : ℤ) = k := Int.toNat_of_nonneg hk
  rw [Int.cast_pow, Int.cast_ofNat, ← zpow_natCast, hcast]

section Mag

variable {q r : ℚ}

theorem log_le (hq : 0 < q) : (2 : ℚ) ^ Int.log 2 q ≤ q := by
  exact_mod_cast Int.zpow_log_le_self one_lt_two hq

theorem lt_log (q : ℚ) : q < (2 : ℚ) ^ (Int.log 2 q + 1) := by
  exact_mod_cast Int.lt_zpow_succ_log_self one_lt_two q

theorem place_mono (hq : 0 < q) (h : q ≤ r) : place q ≤ place r :=
  max_le_max (Int.sub_le_sub_right (Int.log_mono_right hq h) 52) le_rfl

/-- a power of two above -/
theorem mag_le_pow {l : ℤ} (hl : place q ≤ l) (h : q ≤ 2 ^ l) : mag q ≤ 2 ^ l := by
  have hdiv : q / 2 ^ place q ≤ ((2 ^ (l - place q).toNat : ℤ) : ℚ) := by
    rw [two_zpow_natCast (by omega), zpow_sub₀ (by norm_num)]
    exact div_le_div_of_nonneg_right h (two_zpow_pos _).le
  have hrne : ((rne (q / 2 ^ place q) : ℤ) : ℚ) ≤ 2 ^ (l - place q) := by
    rw [← two_zpow_natCast (k := l - place q) (by omega)]
    exact Int.cast_le.2 (rne_le hdiv)
  calc mag q ≤ 2 ^ (l - place q) * 2 ^ place q := mul_le_mul_of_nonneg_right hrne (two_zpow_pos _).le
    _ = 2 ^ l := by rw [← zpow_add₀ (by norm_num), sub_add_cancel]

/-- a power of two below -/
theorem pow_le_mag {l : ℤ} (hl : place q ≤ l) (h : 2 ^ l ≤ q) : 2 ^ l ≤ mag q := by
  have hdiv : ((2 ^ (l - place q).toNat : ℤ) : ℚ) ≤ q / 2 ^ place q := by
    rw [two_zpow_natCast (by omega), zpow_sub₀ (by norm_num)]
    exact div_le_div_of_nonneg_right h (two_zpow_pos _).le
  have hrne : 2 ^ (l - place q) ≤ ((rne (q / 2 ^ place q) : ℤ) : ℚ) := by
    rw [← two_zpow_natCast (k := l - place q) (by omega)]
    exact Int.cast_le.2 (le_rne hdiv)
  calc (2 : ℚ) ^ l = 2 ^ (l - place q) * 2 ^ place q := by rw [← zpow_add₀ (by norm_num), sub_add_cancel]
    _ ≤ mag q := mul_le_mul_of_nonneg_right hrne (two_zpow_pos _).le

theorem mag_zero : mag 0 = 0 := by
  have hzero : rne 0 = 0 := by exact_mod_cast rne_intCast 0
  simp [mag, hzero]

theorem mag_nonneg (hq : 0 ≤ q) : 0 ≤ mag q := by
  have hdiv : ((0 : ℤ) : ℚ) ≤ q / 2 ^ place q := by
    rw [Int.cast_zero]
    exact div_nonneg hq (two_zpow_pos _).le
  exact mul_nonneg (by exact_mod_cast le_rne hdiv) (two_zpow_pos _).le

theorem mag_mono (hq : 0 ≤ q) (h : q ≤ r) : mag q ≤ mag r := by
  rcases hq.eq_or_lt with rfl | hq
  · rw [mag_zero]
    exact mag_nonneg h
  have hr : 0 < r := hq.trans_le h
  rcases (place_mono hq h).lt_or_eq with hlt | heq
  · -- a power of two is between them
    have hlog : place r = Int.log 2 r - 52 := by
      unfold place at hlt ⊢
      omega
    have hq' : q ≤ 2 ^ Int.log 2 r := by
      have hstep : Int.log 2 q + 1 ≤ Int.log 2 r := by
        unfold place at hlt
        omega
      exact (lt_log q).le.trans (zpow_le_zpow_right₀ (by norm_num) hstep)
    calc mag q ≤ 2 ^ Int.log 2 r := mag_le_pow (by omega) hq'
      _ ≤ mag r := pow_le_mag (by omega) (log_le hr)
  · unfold mag
    rw [heq]
    have hdiv : q / 2 ^ place r ≤ r / 2 ^ place r := div_le_div_of_nonneg_right h (two_zpow_pos _).le
    exact mul_le_mul_of_nonneg_right (by exact_mod_cast rne_mono hdiv) (two_zpow_pos _).le

/-- a multiple of the last place -/
theorem mag_eq_self {n : ℤ} (h : q = n * 2 ^ place q) : mag q = q := by
  have hdiv : q / 2 ^ place q = n := by
    rw [div_eq_iff (two_zpow_pos _).ne']
    exact h
  rw [mag, hdiv, rne_intCast]
  exact h.symm

/-- all bits of a double are kept -/
theorem exists_multiple (hq : 0 < q) (h : Representable q) : ∃ n : ℤ, q = n * 2 ^ place q := by
  obtain ⟨m, k, hm, hk, hval⟩ := h
  have hlow : (2 : ℚ) ^ Int.log 2 q ≤ m * 2 ^ k := hval ▸ log_le hq
  rcases le_or_gt (place q) k with hle | hgt
  · refine ⟨m * 2 ^ (k - place q).toNat, ?_⟩
    calc q = m * 2 ^ k := hval
      _ = m * (2 ^ (k - place q) * 2 ^ place q) := by rw [← zpow_add₀ (by norm_num), sub_add_cancel]
      _ = ((m * 2 ^ (k - place q).toNat : ℤ) : ℚ) * 2 ^ place q := by
        have hpow := two_zpow_natCast (k := k - place q) (by omega)
        push_cast at hpow ⊢
        rw [hpow, mul_assoc]
  · -- then it is a power of two
    have hplace : place q = Int.log 2 q - 52 := by
      unfold place at hgt ⊢
      omega
    have hmq : (m : ℚ) ≤ 2 ^ (53 : ℤ) := by
      have := (le_abs_self m).trans hm
      exact_mod_cast this
    have hupper : (m : ℚ) * 2 ^ k ≤ 2 ^ (53 + k) := by
      rw [zpow_add₀ (by norm_num)]
      exact mul_le_mul_of_nonneg_right hmq (two_zpow_pos k).le
    have hlog : Int.log 2 q ≤ 53 + k := (zpow_le_zpow_iff_right₀ (by norm_num : (1 : ℚ) < 2)).1 (hlow.trans hupper)
    have hlog' : Int.log 2 q = 53 + k := by omega
    have hpow : q = 2 ^ Int.log 2 q := by
      apply le_antisymm
      · rw [hlog']
        exact hval.trans_le hupper
      · exact log_le hq
    have hsum : Int.log 2 q = 52 + place q := by omega
    refine ⟨2 ^ 52, ?_⟩
    calc q = 2 ^ (52 + place q) := by rw [← hsum]; exact hpow
      _ = ((2 ^ 52 : ℤ) : ℚ) * 2 ^ place q := by
        rw [zpow_add₀ (by norm_num)]
        norm_num

theorem mag_exact (hq : 0 ≤ q) (h : Representable q) : mag q = q := by
  rcases hq.eq_or_lt with rfl | hq
  · exact mag_zero
  obtain ⟨n, hn⟩ := exists_multiple hq h
  exact mag_eq_self hn

theorem mag_representable (hq : 0 ≤ q) : Representable (mag q) := by
  refine ⟨rne (q / 2 ^ place q), place q, ?_, le_max_right _ _, rfl⟩
  have hpos : 0 ≤ rne (q / 2 ^ place q) := le_rne (by
    rw [Int.cast_zero]
    exact div_nonneg hq (two_zpow_pos _).le)
  rw [abs_of_nonneg hpos]
  apply rne_le
  rw [div_le_iff₀ (two_zpow_pos _)]
  calc q ≤ 2 ^ (Int.log 2 q + 1) := (lt_log q).le
    _ ≤ 2 ^ (53 + place q) := zpow_le_zpow_right₀ (by norm_num) (by unfold place; omega)
    _ = ((2 ^ 53 : ℤ) : ℚ) * 2 ^ place q := by
      rw [zpow_add₀ (by norm_num)]
      norm_num

end Mag

/-! ## Rationals -/

section Rd

variable {q r : ℚ}

theorem rd_of_nonneg (hq : 0 ≤ q) : rd q = mag q := if_neg (not_lt.2 hq)

theorem rd_neg (q : ℚ) : rd (-q) = -rd q := by
  rcases lt_trichotomy q 0 with hq | rfl | hq
  · rw [rd_of_nonneg (by linarith), rd, if_pos hq, neg_neg]
  · simp [rd, mag_zero]
  · rw [rd_of_nonneg hq.le, rd, if_pos (by linarith), neg_neg]

theorem rd_nonneg (hq : 0 ≤ q) : 0 ≤ rd q := (mag_nonneg hq).trans_eq (rd_of_nonneg hq).symm

theorem rd_mono (h : q ≤ r) : rd q ≤ rd r := by
  rcases lt_or_ge q 0 with hq | hq
  · have hneg : rd q = -mag (-q) := if_pos hq
    rcases lt_or_ge r 0 with hr | hr
    · have hneg' : rd r = -mag (-r) := if_pos hr
      rw [hneg, hneg']
      exact neg_le_neg (mag_mono (by linarith) (by linarith))
    · have hpos : 0 ≤ mag (-q) := mag_nonneg (by linarith)
      rw [hneg]
      exact (neg_nonpos.2 hpos).trans (rd_nonneg hr)
  · rw [rd_of_nonneg hq, rd_of_nonneg (hq.trans h)]
    exact mag_mono hq h

theorem Representable.neg (h : Representable q) : Representable (-q) := by
  obtain ⟨m, k, hm, hk, rfl⟩ := h
  exact ⟨-m, k, by rwa [abs_neg], hk, by push_cast; ring⟩

theorem rd_exact (h : Representable q) : rd q = q := by
  rcases lt_or_ge q 0 with hq | hq
  · rw [rd, if_pos hq, mag_exact (by linarith) h.neg, neg_neg]
  · rw [rd_of_nonneg hq, mag_exact hq h]

theorem rd_representable (q : ℚ) : Representable (rd q) := by
  unfold rd
  split_ifs with hq
  · exact (mag_representable (by linarith)).neg
  · exact mag_representable (not_lt.1 hq)

/-- rounding does not pass a double -/
theorem rd_le (hr : Representable r) (h : q ≤ r) : rd q ≤ r := (rd_mono h).trans_eq (rd_exact hr)

theorem le_rd (hr : Representable r) (h : r ≤ q) : r ≤ rd q := (rd_exact hr).ge.trans (rd_mono h)

theorem representable_int {n : ℤ} (h : |n| ≤ 2 ^ 53) : Representable n := ⟨n, 0, h, by norm_num, by simp⟩

theorem representable_pow (k : ℤ) (hk : -1074 ≤ k) : Representable (2 ^ k) := ⟨1, k, by norm_num, hk, by simp⟩

/-- the integer below a double is one -/
theorem floor_representable (h : Representable q) : Representable ⌊q⌋ := by
  obtain ⟨m, k, hm, hk, hval⟩ := h
  rcases le_or_gt 0 k with hk' | hk'
  · have hint : q = ((m * 2 ^ k.toNat : ℤ) : ℚ) := by
      rw [hval, Int.cast_mul, two_zpow_natCast hk']
    rw [hint, Int.floor_intCast, ← hint]
    exact ⟨m, k, hm, hk, hval⟩
  · -- it is not further from 0 than the bits are
    have hpow : (2 : ℚ) ^ k ≤ 1 := zpow_le_one_of_nonpos₀ (by norm_num) hk'.le
    have habs : |q| ≤ |(m : ℚ)| := by
      rw [hval, abs_mul, abs_of_pos (two_zpow_pos k)]
      exact mul_le_of_le_one_right (abs_nonneg _) hpow
    obtain ⟨hlow, hhigh⟩ := abs_le.1 habs
    apply representable_int
    rw [abs_le]
    constructor
    · refine (neg_le_neg hm).trans (Int.le_floor.2 ?_)
      push_cast
      exact hlow
    · have hle : (⌊q⌋ : ℚ) ≤ ((|m| : ℤ) : ℚ) := by
        push_cast
        exact (Int.floor_le q).trans hhigh
      exact (Int.cast_le.1 hle).trans hm

theorem le_floor_rd {n : ℤ} (hn : Representable n) (h : (n : ℚ) ≤ q) : n ≤ ⌊rd q⌋ := Int.le_floor.2 (le_rd hn h)

theorem floor_rd_le {n : ℤ} (hn : Representable n) (h : q ≤ n) : ⌊rd q⌋ ≤ n :=
  Int.cast_le.1 ((Int.floor_le _).trans (rd_le hn h))

end Rd

/-! ## A half -/

section Half

variable {x : ℤ}

theorem place_eq {q : ℚ} {l : ℤ} (hl : -1022 ≤ l) (h₁ : 2 ^ l ≤ q) (h₂ : q < 2 ^ (l + 1)) : place q = l - 52 := by
  have hq : 0 < q := (two_zpow_pos l).trans_le h₁
  have hlow : l ≤ Int.log 2 q := (Int.zpow_le_iff_le_log one_lt_two hq).1 (by exact_mod_cast h₁)
  have hhigh : Int.log 2 q < l + 1 := (Int.lt_zpow_iff_log_lt one_lt_two hq).1 (by exact_mod_cast h₂)
  unfold place
  omega

theorem rd_half_small (h₀ : 0 ≤ x) (h : x < 2 ^ 52) : rd (x + 1 / 2) = x + 1 / 2 := by
  apply rd_exact
  refine ⟨2 * x + 1, -1, ?_, by norm_num, ?_⟩
  · rw [abs_le]
    omega
  · push_cast
    rw [zpow_neg_one]
    ring

/-- between 2^52 and 2^53 it is a tie -/
theorem rd_half_tie (h₀ : 2 ^ 52 ≤ x) (h : x < 2 ^ 53) : rd (x + 1 / 2) = if Even x then (x : ℚ) else x + 1 := by
  have hlow : (2 : ℚ) ^ (52 : ℤ) ≤ x := by exact_mod_cast h₀
  have hhigh : (x : ℚ) + 1 ≤ 2 ^ (52 + 1 : ℤ) := by exact_mod_cast h
  have hplace : place ((x : ℚ) + 1 / 2) = 0 := place_eq (l := 52) (by norm_num) (by linarith)
    ((by linarith : (x : ℚ) + 1 / 2 < x + 1).trans_le hhigh)
  rw [rd_of_nonneg (by linarith [two_zpow_pos 52]), mag, hplace, zpow_zero, div_one, mul_one, rne_add_half]
  split_ifs <;> push_cast <;> rfl

/-- from 2^53 on the doubles are further apart -/
theorem place_large (h : 2 ^ 53 ≤ x) : 1 ≤ place (x : ℚ) ∧ place (x : ℚ) = Int.log 2 (x : ℚ) - 52 := by
  have hlow : (2 : ℚ) ^ (53 : ℤ) ≤ x := by exact_mod_cast h
  have hpos : (0 : ℚ) < x := (two_zpow_pos 53).trans_le hlow
  have hlog : 53 ≤ Int.log 2 (x : ℚ) := (Int.zpow_le_iff_le_log one_lt_two hpos).1 (by exact_mod_cast h)
  unfold place
  omega

theorem even_large (h : 2 ^ 53 ≤ x) (hx : Representable x) : Even x := by
  have hpos : (0 : ℚ) < x := by
    have : 0 < x := by omega
    exact_mod_cast this
  obtain ⟨n, hn⟩ := exists_multiple hpos hx
  obtain ⟨hplace, -⟩ := place_large h
  rw [← two_zpow_natCast (by omega)] at hn
  have hint : x = n * 2 ^ (place (x : ℚ)).toNat := by exact_mod_cast hn
  rw [hint]
  exact Even.mul_left (even_two.pow_of_ne_zero (by omega)) n

theorem rd_half_large (h : 2 ^ 53 ≤ x) (hx : Representable x) : rd (x + 1 / 2) = x := by
  have hpos : (0 : ℚ) < x := by
    have : 0 < x := by omega
    exact_mod_cast this
  obtain ⟨hone, hplace⟩ := place_large h
  have hlow := log_le hpos
  -- the next power of two is an integer
  have hstep : (x : ℚ) + 1 ≤ 2 ^ (Int.log 2 (x : ℚ) + 1) := by
    have hlt := lt_log (x : ℚ)
    rw [← two_zpow_natCast (k := Int.log 2 (x : ℚ) + 1) (by omega)] at hlt ⊢
    exact_mod_cast hlt
  have hplace' : place ((x : ℚ) + 1 / 2) = place (x : ℚ) := by
    rw [hplace]
    exact place_eq (by omega) (by linarith) (by linarith)
  obtain ⟨n, hn⟩ := exists_multiple hpos hx
  have hpow : (2 : ℚ) ≤ 2 ^ place (x : ℚ) := by
    calc (2 : ℚ) = 2 ^ (1 : ℤ) := (zpow_one 2).symm
      _ ≤ 2 ^ place (x : ℚ) := zpow_le_zpow_right₀ (by norm_num) hone
  have hmultiple : (x : ℚ) / 2 ^ place (x : ℚ) = n := by
    rw [div_eq_iff (two_zpow_pos _).ne']
    exact hn
  have hsmall : 1 / 2 / (2 : ℚ) ^ place (x : ℚ) < 1 / 2 := div_lt_self (by norm_num) (by linarith)
  rw [rd_of_nonneg (by linarith), mag, hplace', add_div, hmultiple,
    rne_add_small n (div_nonneg (by norm_num) (two_zpow_pos _).le) hsmall]
  exact hn.symm

/-- what adding 1/2 to an integer that is a double does -/
theorem floor_rd_half (h₀ : 0 ≤ x) (hx : Representable x) : ⌊rd (x + 1 / 2)⌋ = x ↔ x < 2 ^ 52 ∨ Even x := by
  rcases lt_or_ge x (2 ^ 52) with h | h
  · rw [rd_half_small h₀ h]
    refine iff_of_true ?_ (.inl h)
    rw [Int.floor_eq_iff]
    constructor <;> linarith
  · rcases lt_or_ge x (2 ^ 53) with h' | h'
    · rw [rd_half_tie h h']
      split_ifs with heven
      · simp [heven]
      · have hfloor : ⌊(x : ℚ) + 1⌋ = x + 1 := by
          rw [Int.floor_add_one, Int.floor_intCast]
        rw [hfloor]
        refine iff_of_false (by omega) ?_
        rintro (hlt | he)
        · omega
        · exact heven he
    · rw [rd_half_large h' hx, Int.floor_intCast]
      exact iff_of_true rfl (.inr (even_large h' hx))

/-- a large integer is rounded to one -/
theorem rd_large (h : 2 ^ 53 ≤ x) : ∃ z : ℤ, rd x = z ∧ 2 ^ 53 ≤ z := by
  have hpos : (0 : ℚ) ≤ x := by
    have : 0 ≤ x := by omega
    exact_mod_cast this
  obtain ⟨hone, -⟩ := place_large h
  have hform : rd x = ((rne (x / 2 ^ place (x : ℚ)) * 2 ^ (place (x : ℚ)).toNat : ℤ) : ℚ) := by
    rw [rd_of_nonneg hpos, mag, Int.cast_mul, two_zpow_natCast (by omega)]
  refine ⟨_, hform, ?_⟩
  have hpow : Representable ((2 ^ 53 : ℤ) : ℚ) := representable_int (by norm_num)
  have hle : ((2 ^ 53 : ℤ) : ℚ) ≤ rd x := le_rd hpow (by exact_mod_cast h)
  rw [hform] at hle
  exact Int.cast_le.1 hle

/-- **Exactly which integers** stay when they are rounded, 1/2 is added, and the sum is rounded and cut off. -/
theorem floor_add_half (h₀ : 0 ≤ x) : ⌊rd (rd x + 1 / 2)⌋ = x ↔ x < 2 ^ 52 ∨ Even x ∧ Representable x := by
  rcases lt_or_ge x (2 ^ 53) with h | h
  · have hx : Representable x := representable_int (by
      rw [abs_of_nonneg h₀]
      exact h.le)
    rw [rd_exact hx, floor_rd_half h₀ hx]
    simp [hx]
  · obtain ⟨z, hz, hlarge⟩ := rd_large h
    have hrep : Representable z := hz ▸ rd_representable x
    rw [hz, rd_half_large hlarge hrep, Int.floor_intCast]
    constructor
    · rintro rfl
      exact .inr ⟨even_large hlarge hrep, hrep⟩
    · rintro (hlt | ⟨-, hx⟩)
      · omega
      · rw [rd_exact hx] at hz
        exact_mod_cast hz.symm

end Half

/-! ## Below a power of two -/

section Below

variable {j : ℤ}

theorem pow_eq_mul (j : ℤ) : (2 : ℚ) ^ j = ((2 ^ 53 : ℤ) : ℚ) * 2 ^ (j - 53) := by
  have hpow : (2 : ℚ) ^ j = 2 ^ (53 : ℤ) * 2 ^ (j - 53) := by
    rw [← zpow_add₀ (by norm_num)]
    congr 1
    ring
  rw [hpow]
  norm_num

theorem half_place (j : ℤ) : (2 : ℚ) ^ (j - 54) = 1 / 2 * 2 ^ (j - 53) := by
  have hpow : (2 : ℚ) ^ (j - 53) = 2 ^ (1 : ℤ) * 2 ^ (j - 54) := by
    rw [← zpow_add₀ (by norm_num)]
    congr 1
    ring
  rw [hpow, zpow_one]
  ring

theorem representable_pred (hj : -1021 ≤ j) : Representable (2 ^ j - 2 ^ (j - 53)) := by
  refine ⟨2 ^ 53 - 1, j - 53, by norm_num, by omega, ?_⟩
  rw [pow_eq_mul]
  push_cast
  ring

/-- the doubles in front of a power of two -/
theorem rd_below {d : ℚ} (hj : -1021 ≤ j) (h₀ : 0 ≤ d) (h₁ : d < 1) :
    rd (2 ^ j - 2 ^ (j - 53) + d * 2 ^ (j - 53)) = rne (((2 ^ 53 - 1 : ℤ) : ℚ) + d) * 2 ^ (j - 53) := by
  have hpos := two_zpow_pos (j - 53)
  have hlow : 0 ≤ d * 2 ^ (j - 53) := mul_nonneg h₀ hpos.le
  have hhigh : d * 2 ^ (j - 53) < 2 ^ (j - 53) := mul_lt_of_lt_one_left hpos h₁
  have hdouble : (2 : ℚ) ^ j = 2 * 2 ^ (j - 1) := by
    rw [← zpow_one_add₀ (by norm_num)]
    congr 1
    ring
  have hless : (2 : ℚ) ^ (j - 53) ≤ 2 ^ (j - 1) := zpow_le_zpow_right₀ (by norm_num) (by omega)
  have hplace : place (2 ^ j - 2 ^ (j - 53) + d * 2 ^ (j - 53)) = j - 53 := by
    rw [place_eq (l := j - 1) (by omega) (by linarith) (by rw [sub_add_cancel]; linarith)]
    ring
  have hdiv : (2 ^ j - 2 ^ (j - 53) + d * 2 ^ (j - 53)) / 2 ^ (j - 53) = ((2 ^ 53 - 1 : ℤ) : ℚ) + d := by
    rw [div_eq_iff hpos.ne', pow_eq_mul j]
    push_cast
    ring
  have hnonneg : 0 ≤ (2 : ℚ) ^ j - 2 ^ (j - 53) + d * 2 ^ (j - 53) := by linarith [two_zpow_pos (j - 1)]
  rw [rd_of_nonneg hnonneg, mag, hplace, hdiv]

theorem exists_below {q : ℚ} (hlow : 2 ^ j - 2 ^ (j - 53) ≤ q) : ∃ d : ℚ, 0 ≤ d ∧ q = 2 ^ j - 2 ^ (j - 53) + d * 2 ^ (j - 53) := by
  have hpos := two_zpow_pos (j - 53)
  refine ⟨(q - (2 ^ j - 2 ^ (j - 53))) / 2 ^ (j - 53), div_nonneg (by linarith) hpos.le, ?_⟩
  rw [div_mul_cancel₀ _ hpos.ne']
  ring

/-- the last double below a power of two -/
theorem le_pred {q : ℚ} (hj : -1021 ≤ j) (hq : Representable q) (h : q < 2 ^ j) : q ≤ 2 ^ j - 2 ^ (j - 53) := by
  by_contra hgt
  have hpos := two_zpow_pos (j - 53)
  obtain ⟨d, h₀, rfl⟩ := exists_below (not_le.1 hgt).le
  have h₁ : d < 1 := by
    by_contra hlarge
    linarith [mul_le_mul_of_nonneg_right (not_lt.1 hlarge) hpos.le]
  -- as a multiple of the last place it has no integer to be
  have hrd := rd_below hj h₀ h₁
  rw [rd_exact hq, pow_eq_mul j] at hrd
  set n := rne (((2 ^ 53 - 1 : ℤ) : ℚ) + d) with hn
  have heq : ((2 ^ 53 - 1 : ℤ) : ℚ) + d = n := by
    apply mul_right_cancel₀ hpos.ne'
    rw [← hrd]
    push_cast
    ring
  have hd : 0 < d := by
    rcases h₀.eq_or_lt with rfl | hd
    · exact absurd (by linarith) hgt
    · exact hd
  have hlow : (2 ^ 53 - 1 : ℤ) < n := by
    have : ((2 ^ 53 - 1 : ℤ) : ℚ) < n := by linarith
    exact_mod_cast this
  have hhigh : n < 2 ^ 53 := by
    have : (n : ℚ) < ((2 ^ 53 - 1 : ℤ) : ℚ) + 1 := by linarith
    have hcast : (n : ℚ) < ((2 ^ 53 - 1 + 1 : ℤ) : ℚ) := by
      rw [Int.cast_add, Int.cast_one]
      exact this
    exact Int.cast_lt.1 hcast
  omega

/-- **What is rounded to less** than a power of two: what is more than half a place below it. -/
theorem rd_lt_pow {q : ℚ} (hj : -1021 ≤ j) : rd q < 2 ^ j ↔ q < 2 ^ j - 2 ^ (j - 54) := by
  have hpos := two_zpow_pos (j - 53)
  have hhalf := half_place j
  constructor
  · intro h
    by_contra hge
    -- half a place below it is a tie, and goes up
    have htie : rd (2 ^ j - 2 ^ (j - 53) + 1 / 2 * 2 ^ (j - 53)) = 2 ^ j := by
      have hodd : ¬Even (2 ^ 53 - 1 : ℤ) := by decide
      rw [rd_below hj (by norm_num) (by norm_num), rne_add_half, if_neg hodd, sub_add_cancel, ← pow_eq_mul]
    have hmono := rd_mono (q := 2 ^ j - 2 ^ (j - 53) + 1 / 2 * 2 ^ (j - 53)) (r := q) (by linarith)
    rw [htie] at hmono
    linarith
  · intro h
    rcases le_or_gt q (2 ^ j - 2 ^ (j - 53)) with hle | hgt
    · have hpred := rd_le (representable_pred hj) hle
      linarith
    · obtain ⟨d, h₀, rfl⟩ := exists_below hgt.le
      have h₁ : d < 1 / 2 := by
        by_contra hlarge
        linarith [mul_le_mul_of_nonneg_right (not_lt.1 hlarge) hpos.le]
      rw [rd_below hj h₀ (by linarith), rne_add_small _ h₀ h₁, pow_eq_mul j]
      exact mul_lt_mul_of_pos_right (by norm_num) hpos

end Below

/-! ## Doubles -/

inductive Binary64 where
  | finite (q : {q : ℚ // Representable q ∧ |q| < 2 ^ 1024})
  | inf (neg : Bool)
  | nan

namespace Binary64

/-- the nearest one -/
def ofRat (q : ℚ) : Binary64 :=
  if h : |rd q| < 2 ^ 1024 then .finite ⟨rd q, rd_representable q, h⟩ else .inf (q < 0)

def add : Binary64 → Binary64 → Binary64
  | finite x, finite y => ofRat (x.1 + y.1)
  | inf a, inf b => if a = b then inf a else nan
  | inf a, finite _ => inf a
  | finite _, inf b => inf b
  | _, _ => nan

def mul : Binary64 → Binary64 → Binary64
  | finite x, finite y => ofRat (x.1 * y.1)
  | inf a, inf b => inf (a != b)
  | inf a, finite y => if y.1 = 0 then nan else inf (a != decide (y.1 < 0))
  | finite x, inf b => if x.1 = 0 then nan else inf (decide (x.1 < 0) != b)
  | _, _ => nan

/-- without the sign of a zero to divide by -/
def div : Binary64 → Binary64 → Binary64
  | finite x, finite y => if y.1 = 0 then (if x.1 = 0 then nan else inf (x.1 < 0)) else ofRat (x.1 / y.1)
  | inf a, finite y => inf (a != decide (y.1 < 0))
  | finite _, inf _ => ofRat 0
  | _, _ => nan

def floor : Binary64 → Option ℤ
  | finite x => some ⌊x.1⌋
  | _ => none

theorem ofRat_finite {q : ℚ} (h : |rd q| < 2 ^ 1024) : ofRat q = .finite ⟨rd q, rd_representable q, h⟩ := dif_pos h

theorem ofRat_inf {q : ℚ} (h : ¬|rd q| < 2 ^ 1024) : ofRat q = .inf (q < 0) := dif_neg h

theorem ofRat_cases {q : ℚ} (hq : 0 ≤ q) :
    (∃ x : {q : ℚ // Representable q ∧ |q| < 2 ^ 1024}, ofRat q = .finite x ∧ x.1 = rd q) ∨ ofRat q = .inf false ∧ 2 ^ 1024 ≤ rd q := by
  by_cases h : |rd q| < 2 ^ 1024
  · exact .inl ⟨_, ofRat_finite h, rfl⟩
  · rw [ofRat_inf h, decide_eq_false (not_lt.2 hq)]
    rw [abs_of_nonneg (rd_nonneg hq), not_lt] at h
    exact .inr ⟨rfl, h⟩

/-- what is no larger than a power of two that is a double -/
theorem ofRat_of_abs_le {q : ℚ} {k : ℤ} (hk : -1074 ≤ k) (hk' : k < 1024) (h : |q| ≤ 2 ^ k) :
    ∃ x : {q : ℚ // Representable q ∧ |q| < 2 ^ 1024}, ofRat q = .finite x ∧ x.1 = rd q := by
  have hpow : Representable ((2 : ℚ) ^ k) := representable_pow k hk
  obtain ⟨hlow, hhigh⟩ := abs_le.1 h
  have hle : |rd q| ≤ 2 ^ k := by
    rw [abs_le]
    constructor
    · exact le_rd hpow.neg hlow
    · exact rd_le hpow hhigh
  have hlt : (2 : ℚ) ^ k < 2 ^ (1024 : ℤ) := zpow_lt_zpow_right₀ (by norm_num) hk'
  have hfin : |rd q| < 2 ^ 1024 := hle.trans_lt (by exact_mod_cast hlt)
  exact ⟨_, ofRat_finite hfin, rfl⟩

end Binary64

end Shuttlesock.Double
