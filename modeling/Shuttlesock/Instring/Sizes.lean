/-
`Instring.tosize` of `instring.lua` with the numbers of Lua: integers that wrap, and doubles.

Model: the conversions of `Instrings`, with the numerals and the arithmetic of Lua. What C makes of a double that is no `size_t` is a
parameter.

Adding 0.5 turns the product into a double, so that its last bits may be lost; a product of integers wraps before.

Results:
- `round_integer`, `round_float_cases`: what is left of a number and a factor, and `round_float`: when a double leaves something.
- `tosize_integer`, `tosize_exact_iff`: an integer with a unit, and exactly when its size is right.
- `tosize_point`: a number with a point is accepted if and only if its size is below 2^63.
-/
import Mathlib.Tactic
import Shuttlesock.Core.LuaNumeral
import Shuttlesock.Core.LuaPattern
import Shuttlesock.Instring.Value

namespace Shuttlesock.Sizes

open Shuttlesock.Double Shuttlesock.LuaNumber Shuttlesock.LuaNumeral Shuttlesock.Instrings

abbrev Str := List Char

/-! ## The numbers of Lua -/

/-- `math.tointeger(math.floor(num * m + 0.5))`; without a unit there is no product -/
def round (num : Number binary64) (m : ℕ) : Option ℤ :=
  ((if m = 1 then num else num.mul (.integer m)).add (.float (binary64.ofRat (1 / 2)))).floor

/-- from a `lua_Integer` through a double to a `size_t` -/
def toSize (ub : ℤ → ℕ) (i : ℤ) : ℕ :=
  match (Binary64.ofRat i).floor with
  | some j => if 0 ≤ j ∧ j < 2 ^ 64 then j.toNat else ub i
  | none => ub i

def lua (ub : ℤ → ℕ) : Numbers (Number binary64) where
  tonumber := LuaNumeral.tonumber binary64
  floor := Number.floor
  round := round
  toSize := toSize ub
  strmatch s pattern := (LuaPattern.str_match s pattern).isSome

/-! ## Rounding -/

theorem representable_half : Representable (1 / 2) := ⟨1, -1, by norm_num, by norm_num, by norm_num⟩

/-- an integer of 64 bits as a double -/
theorem ofRat_inRange {i : ℤ} (h : InRange i) :
    ∃ x : {q : ℚ // Representable q ∧ |q| < 2 ^ 1024}, Binary64.ofRat i = .finite x ∧ x.1 = rd i := by
  apply Binary64.ofRat_of_abs_le (k := 63) (by norm_num) (by norm_num)
  have hlow : (-2 ^ 63 : ℚ) ≤ i := by exact_mod_cast h.1
  have hhigh : (i : ℚ) < 2 ^ 63 := by exact_mod_cast h.2
  have hpow : (2 : ℚ) ^ (63 : ℤ) = 2 ^ 63 := by norm_cast
  rw [hpow, abs_le]
  exact ⟨hlow, hhigh.le⟩

theorem ofRat_half : ∃ x : {q : ℚ // Representable q ∧ |q| < 2 ^ 1024}, Binary64.ofRat (1 / 2) = .finite x ∧ x.1 = 1 / 2 := by
  obtain ⟨x, hx, hval⟩ := Binary64.ofRat_of_abs_le (q := 1 / 2) (k := 0) (by norm_num) (by norm_num) (by norm_num)
  exact ⟨x, hx, hval.trans (rd_exact representable_half)⟩

theorem add_half {i : ℤ} (h : InRange i) :
    ((Number.integer i : Number binary64).add (.float (binary64.ofRat (1 / 2)))).floor = integer_of ⌊rd (rd i + 1 / 2)⌋ := by
  obtain ⟨x, hx, hxval⟩ := ofRat_inRange h
  obtain ⟨y, hy, hyval⟩ := ofRat_half
  have hadd : binary64.add (binary64.ofRat i) (binary64.ofRat (1 / 2)) = binary64.ofRat (rd i + 1 / 2) := by
    show Binary64.add (Binary64.ofRat i) (Binary64.ofRat (1 / 2)) = Binary64.ofRat (rd i + 1 / 2)
    rw [hx, hy, ← hxval, ← hyval]
    rfl
  exact (congrArg binary64.floor hadd).trans (floor_ofRat _)

/-- an integer, with the product that wraps -/
theorem round_integer {i : ℤ} (h : InRange i) (m : ℕ) :
    round (.integer i) m = integer_of ⌊rd (rd (wrap (i * m)) + 1 / 2)⌋ := by
  have hmul : (if m = 1 then (Number.integer i : Number binary64) else (Number.integer i).mul (.integer m)) =
      .integer (wrap (i * m)) := by
    split_ifs with hm
    · subst hm
      rw [Nat.cast_one, mul_one, wrap_eq h]
    · rfl
  rw [round, hmul, add_half (wrap_inRange _)]

/-! ## Floats -/

section Float

variable {q : ℚ} {a : ℕ}

theorem representable_scale (h : Representable q) (a : ℕ) : Representable (q * 2 ^ a) := by
  obtain ⟨m, k, hm, hk, rfl⟩ := h
  refine ⟨m, k + a, hm, by omega, ?_⟩
  rw [zpow_add₀ (by norm_num), zpow_natCast, mul_assoc]

theorem not_lt_of_large {x : ℚ} (h : 2 ^ 1024 ≤ x) : ¬x < 2 ^ 63 := by
  have hpow : (2 : ℚ) ^ 63 ≤ 2 ^ 1024 := pow_le_pow_right₀ (by norm_num) (by norm_num)
  exact not_lt.2 (hpow.trans h)

/-- the double of a power of two -/
theorem ofRat_pow (ha : a ≤ 30) :
    ∃ y : {q : ℚ // Representable q ∧ |q| < 2 ^ 1024}, Binary64.ofRat ((2 ^ a : ℕ) : ℤ) = .finite y ∧ y.1 = 2 ^ a := by
  have hrep : Representable (((2 ^ a : ℕ) : ℤ) : ℚ) := by
    have h := representable_pow a (by omega)
    rw [zpow_natCast] at h
    exact_mod_cast h
  have hle : |(((2 ^ a : ℕ) : ℤ) : ℚ)| ≤ 2 ^ (30 : ℤ) := by
    have hpow : (2 : ℚ) ^ a ≤ 2 ^ 30 := pow_le_pow_right₀ (by norm_num) ha
    push_cast
    rw [abs_of_nonneg (by positivity)]
    exact_mod_cast hpow
  obtain ⟨y, hy, hval⟩ := Binary64.ofRat_of_abs_le (k := 30) (by norm_num) (by norm_num) hle
  refine ⟨y, hy, ?_⟩
  rw [hval, rd_exact hrep]
  norm_cast

/-- a double and a power of two -/
theorem mul_pow (ha : a ≤ 30) (x : {q : ℚ // Representable q ∧ |q| < 2 ^ 1024}) :
    (if 2 ^ a = 1 then (Number.float (Binary64.finite x) : Number binary64)
      else (Number.float (Binary64.finite x)).mul (.integer (2 ^ a : ℕ))) =
      .float (Binary64.ofRat (x.1 * 2 ^ a)) := by
  split_ifs with hone
  · have ha0 : a = 0 := by simpa using hone
    subst ha0
    rw [pow_zero, mul_one, Binary64.ofRat_finite (by rw [rd_exact x.2.1]; exact x.2.2)]
    refine congrArg (fun y => (Number.float (Binary64.finite y) : Number binary64)) (Subtype.ext ?_)
    exact (rd_exact x.2.1).symm
  · obtain ⟨y, hy, hval⟩ := ofRat_pow ha
    have hmul : Binary64.mul (.finite x) (Binary64.ofRat ((2 ^ a : ℕ) : ℤ)) = Binary64.ofRat (x.1 * 2 ^ a) := by
      rw [hy, ← hval]
      rfl
    exact congrArg Number.float hmul

theorem integer_of_eq_some {i j : ℤ} : integer_of i = some j ↔ InRange i ∧ i = j := by
  unfold integer_of
  split_ifs with h <;> simp [h]

theorem integer_of_isSome {i : ℤ} : (integer_of i).isSome ↔ InRange i := by
  unfold integer_of
  split_ifs with h <;> simp [h]

/-- whether a double is still in range with 0.5 -/
theorem half_isSome (hq : 0 ≤ q) (hrep : Representable q) :
    (binary64.floor (binary64.add (binary64.ofRat q) (binary64.ofRat (1 / 2)))).isSome ↔ q < 2 ^ 63 := by
  obtain ⟨y, hy, hyval⟩ := ofRat_half
  rcases Binary64.ofRat_cases hq with ⟨x, hx, hxval⟩ | ⟨hx, hlarge⟩
  · have hadd : binary64.add (binary64.ofRat q) (binary64.ofRat (1 / 2)) = binary64.ofRat (q + 1 / 2) := by
      show Binary64.add (Binary64.ofRat q) (Binary64.ofRat (1 / 2)) = Binary64.ofRat (q + 1 / 2)
      rw [rd_exact hrep] at hxval
      rw [hx, hy, ← hxval, ← hyval]
      rfl
    have hnonneg : 0 ≤ ⌊rd (q + 1 / 2)⌋ := Int.floor_nonneg.2 (rd_nonneg (by linarith))
    have hpow : (2 : ℚ) ^ (63 : ℤ) = 2 ^ 63 := by norm_cast
    have hlt : ⌊rd (q + 1 / 2)⌋ < 2 ^ 63 ↔ rd (q + 1 / 2) < 2 ^ (63 : ℤ) := by
      rw [Int.floor_lt, hpow]
      norm_num
    rw [hadd, floor_ofRat, integer_of_isSome, InRange, and_iff_right (by omega), hlt, rd_lt_pow (by norm_num)]
    have hplace : (2 : ℚ) ^ (63 - 54 : ℤ) = 2 ^ 9 := by norm_cast
    have hplace' : (2 : ℚ) ^ (63 - 53 : ℤ) = 2 ^ 10 := by norm_cast
    constructor
    · intro h
      linarith [two_zpow_pos (63 - 54)]
    · intro h
      have hpred := le_pred (j := 63) (by norm_num) hrep (by rwa [hpow])
      rw [hplace'] at hpred
      rw [hplace]
      linarith
  · rw [rd_exact hrep] at hlarge
    have hadd : binary64.add (binary64.ofRat q) (binary64.ofRat (1 / 2)) = Binary64.inf false := by
      show Binary64.add (Binary64.ofRat q) (Binary64.ofRat (1 / 2)) = Binary64.inf false
      rw [hx, hy]
      rfl
    rw [hadd]
    exact iff_of_false (by simp [binary64, Binary64.floor]) (not_lt_of_large hlarge)

/-- a product of doubles that does not become infinite, and the others -/
theorem round_float_cases (hq : 0 ≤ q) (ha : a ≤ 30) :
    round (.float (binary64.ofRat q)) (2 ^ a) =
        binary64.floor (binary64.add (binary64.ofRat (rd q * 2 ^ a)) (binary64.ofRat (1 / 2))) ∨
      round (.float (binary64.ofRat q)) (2 ^ a) = none ∧ 2 ^ 1024 ≤ rd q * 2 ^ a := by
  have hpos : (0 : ℚ) < 2 ^ a := by positivity
  rcases Binary64.ofRat_cases hq with ⟨x, hx, hxval⟩ | ⟨hx, hlarge⟩
  · left
    show round (.float (Binary64.ofRat q)) (2 ^ a) = _
    rw [round, hx, mul_pow ha x, hxval]
    rfl
  · right
    obtain ⟨y, hy, hyval⟩ := ofRat_half
    have hmul : (if 2 ^ a = 1 then (Number.float (Binary64.inf false) : Number binary64)
        else (Number.float (Binary64.inf false)).mul (.integer (2 ^ a : ℕ))) = .float (Binary64.inf false) := by
      split_ifs
      · rfl
      · obtain ⟨z, hz, hzval⟩ := ofRat_pow ha
        have hinf : Binary64.mul (.inf false) (Binary64.ofRat ((2 ^ a : ℕ) : ℤ)) = .inf false := by
          rw [hz]
          simp [Binary64.mul, hzval, hpos.ne', not_lt.2 hpos.le]
        exact congrArg Number.float hinf
    refine ⟨?_, hlarge.trans (le_mul_of_one_le_right (rd_nonneg hq) (one_le_pow₀ (by norm_num)))⟩
    show round (.float (Binary64.ofRat q)) (2 ^ a) = none
    rw [round, hx, hmul]
    show (Binary64.add (.inf false) (Binary64.ofRat (1 / 2))).floor.bind integer_of = none
    rw [hy]
    rfl

theorem round_float (hq : 0 ≤ q) (ha : a ≤ 30) :
    (round (.float (binary64.ofRat q)) (2 ^ a)).isSome ↔ q * 2 ^ a < 2 ^ 63 - 2 ^ 9 := by
  have hpos : (0 : ℚ) < 2 ^ a := by positivity
  -- in front of the product
  have hiff : rd q * 2 ^ a < 2 ^ 63 ↔ q * 2 ^ a < 2 ^ 63 - 2 ^ 9 := by
    have hpow : (2 : ℚ) ^ 63 = 2 ^ (63 - a : ℤ) * 2 ^ a := by
      rw [← zpow_natCast 2 a, ← zpow_add₀ (by norm_num), sub_add_cancel]
      norm_cast
    have hplace : (2 : ℚ) ^ 9 = 2 ^ (63 - a - 54 : ℤ) * 2 ^ a := by
      rw [← zpow_natCast 2 a, ← zpow_add₀ (by norm_num), show (63 - a - 54 + a : ℤ) = 9 by ring]
      norm_cast
    rw [hplace, hpow, ← sub_mul, mul_lt_mul_iff_left₀ hpos, mul_lt_mul_iff_left₀ hpos]
    exact rd_lt_pow (by omega)
  rw [← hiff]
  rcases round_float_cases hq ha with hround | ⟨hround, hlarge⟩
  · rw [hround]
    exact half_isSome (mul_nonneg (rd_nonneg hq) hpos.le) (representable_scale (rd_representable q) a)
  · rw [hround]
    exact iff_of_false (by simp) (not_lt_of_large hlarge)

/-- what is left is not negative -/
theorem round_float_nonneg (hq : 0 ≤ q) (ha : a ≤ 30) {j : ℤ} (h : round (.float (binary64.ofRat q)) (2 ^ a) = some j) : 0 ≤ j := by
  have hprod : 0 ≤ rd q * 2 ^ a := mul_nonneg (rd_nonneg hq) (by positivity)
  rcases round_float_cases hq ha with hround | ⟨hround, -⟩
  · rw [hround] at h
    obtain ⟨y, hy, hyval⟩ := ofRat_half
    rcases Binary64.ofRat_cases hprod with ⟨x, hx, hxval⟩ | ⟨hx, -⟩
    · have hadd : binary64.add (binary64.ofRat (rd q * 2 ^ a)) (binary64.ofRat (1 / 2)) = binary64.ofRat (x.1 + y.1) := by
        show Binary64.add (Binary64.ofRat (rd q * 2 ^ a)) (Binary64.ofRat (1 / 2)) = Binary64.ofRat (x.1 + y.1)
        rw [hx, hy]
        rfl
      rw [hadd, floor_ofRat, integer_of_eq_some] at h
      rw [← h.2]
      refine Int.floor_nonneg.2 (rd_nonneg ?_)
      rw [hxval, hyval]
      linarith [rd_nonneg hprod]
    · have hadd : binary64.add (binary64.ofRat (rd q * 2 ^ a)) (binary64.ofRat (1 / 2)) = Binary64.inf false := by
        show Binary64.add (Binary64.ofRat (rd q * 2 ^ a)) (Binary64.ofRat (1 / 2)) = Binary64.inf false
        rw [hx, hy]
        rfl
      rw [hadd] at h
      cases h
  · rw [hround] at h
    cases h

/-- what is left is a double, and in range -/
theorem round_some {num : Number binary64} {m : ℕ} {j : ℤ} (h : round num m = some j) : Representable j ∧ InRange j := by
  have hfloat : ∃ z : Binary64, round num m = z.floor.bind integer_of := by
    unfold round
    split_ifs
    · cases num <;> exact ⟨_, rfl⟩
    · cases num <;> exact ⟨_, rfl⟩
  obtain ⟨z, hz⟩ := hfloat
  rw [hz, Option.bind_eq_some_iff] at h
  obtain ⟨i, hi, h⟩ := h
  obtain ⟨hrange, rfl⟩ := integer_of_eq_some.1 h
  cases z with
  | finite x =>
    obtain rfl : ⌊x.1⌋ = i := Option.some.inj hi
    exact ⟨floor_representable x.2.1, hrange⟩
  | inf a => cases hi
  | nan => cases hi

/-- C keeps it -/
theorem toSize_nonneg {ub : ℤ → ℕ} {j : ℤ} (hrep : Representable j) (hrange : InRange j) (h : 0 ≤ j) : toSize ub j = j.toNat := by
  obtain ⟨x, hx, hxval⟩ := ofRat_inRange hrange
  have hfloor : (Binary64.ofRat j).floor = some j := by
    rw [hx]
    show some ⌊x.1⌋ = some j
    rw [hxval, rd_exact hrep, Int.floor_intCast]
  have hlt : j < 2 ^ 64 := by
    obtain ⟨-, hhigh⟩ := hrange
    omega
  unfold toSize
  rw [hfloor]
  exact if_pos ⟨h, hlt⟩

end Float

/-! ## Texts -/

section Texts

variable {ub : ℤ → ℕ} {ds f rest : Str} {m : ℕ}

/-- the factors are powers of two -/
theorem unit_pow (h : unit rest = some m) : ∃ a ≤ 30, m = 2 ^ a := by
  unfold unit at h
  split_ifs at h
  · exact ⟨0, by norm_num, by simpa using h.symm⟩
  · exact ⟨10, by norm_num, by simpa using h.symm⟩
  · exact ⟨20, by norm_num, by simpa using h.symm⟩
  · exact ⟨30, by norm_num, by simpa using h.symm⟩

theorem unit_dvd (h : unit rest = some m) : m = 1 ∨ 1024 ∣ m := by
  unfold unit at h
  split_ifs at h <;> simp only [Option.some.injEq] at h <;> subst h
  · exact .inl rfl
  · exact .inr (by norm_num)
  · exact .inr (by norm_num)
  · exact .inr (by norm_num)

/-- the units that have a factor -/
def unit_texts : List Str :=
  ["".toList, "k".toList, "K".toList, "kb".toList, "kB".toList, "Kb".toList, "KB".toList,
    "m".toList, "M".toList, "mb".toList, "mB".toList, "Mb".toList, "MB".toList,
    "g".toList, "G".toList, "gb".toList, "gB".toList, "Gb".toList, "GB".toList]

theorem unit_mem (h : unit rest = some m) : rest ∈ unit_texts := by
  unfold unit at h
  split_ifs at h with h₁ h₂ h₃ h₄
  · rw [h₁]
    exact List.mem_cons_self
  · exact (by decide +kernel : ["k".toList, "K".toList, "kb".toList, "kB".toList, "Kb".toList, "KB".toList] ⊆ unit_texts) h₂
  · exact (by decide +kernel : ["m".toList, "M".toList, "mb".toList, "mB".toList, "Mb".toList, "MB".toList] ⊆ unit_texts) h₃
  · exact (by decide +kernel : ["g".toList, "G".toList, "gb".toList, "gB".toList, "Gb".toList, "GB".toList] ⊆ unit_texts) h₄

theorem unit_alphanum (h : unit rest = some m) : rest.all Char.isAlphanum = true := by
  have hall : ∀ rest ∈ unit_texts, rest.all Char.isAlphanum = true := by decide +kernel
  exact hall rest (unit_mem h)

/-- a run of digits and points, and what follows it -/
theorem tosize_run {run : Str} (hne : run ≠ []) (hrun : ∀ c ∈ run, isrun c = true) (hrest : ∀ c ∈ rest.head?, isrun c = false) :
    tosize (lua ub) (run ++ rest) = (LuaNumeral.tonumber binary64 run).bind fun x => (unit rest).bind (round x) := by
  have htake : (run ++ rest).takeWhile (fun c => c.isDigit || c == '.') = run := LuaMatch.takeWhile_run hrun hrest
  have hdrop : (run ++ rest).dropWhile (fun c => c.isDigit || c == '.') = rest := LuaMatch.dropWhile_run hrun hrest
  simp only [tosize, htake, hdrop]
  by_cases hall : rest.all Char.isAlphanum = true
  · rw [if_pos ⟨hne, hall⟩]
    rfl
  · rw [if_neg fun h => hall h.2]
    cases hunit : unit rest with
    | none => cases LuaNumeral.tonumber binary64 run <;> rfl
    | some m => exact absurd (unit_alphanum hunit) hall

/-- an integer -/
theorem tosize_integer (hne : ds ≠ []) (hd : ∀ c ∈ ds, c.isDigit = true) (hrest : ∀ c ∈ rest.head?, isrun c = false) :
    tosize (lua ub) (ds ++ rest) = (unit rest).bind (round (LuaNumber.tonumber binary64 ds)) := by
  rw [tosize_run hne (digits_run hd) hrest, tonumber_digits binary64 hne hd, Option.bind_some]

/-- **Exactly when the size of an integer is right.** -/
theorem tosize_exact_iff (hne : ds ≠ []) (hd : ∀ c ∈ ds, c.isDigit = true) (hrest : ∀ c ∈ rest.head?, isrun c = false)
    (hunit : unit rest = some m) : tosize (lua ub) (ds ++ rest) = some ((decimal ds * m : ℕ) : ℤ) ↔
      decimal ds * m < 2 ^ 63 ∧ (decimal ds * m < 2 ^ 52 ∨ Even (decimal ds * m) ∧ Representable (decimal ds * m : ℕ)) := by
  obtain ⟨a, ha, rfl⟩ := unit_pow hunit
  have hle : decimal ds ≤ decimal ds * 2 ^ a := Nat.le_mul_of_pos_right _ (Nat.two_pow_pos a)
  rw [tosize_integer hne hd hrest, hunit, Option.bind_some]
  rcases lt_or_ge (decimal ds) (2 ^ 63) with hsmall | hlarge
  · have hrange : InRange (decimal ds : ℤ) := ⟨by omega, by omega⟩
    have hprod : (decimal ds : ℤ) * (2 ^ a : ℕ) = (decimal ds * 2 ^ a : ℕ) := by push_cast; rfl
    rw [tonumber_small binary64 hsmall, round_integer hrange, integer_of_eq_some, hprod]
    generalize decimal ds * 2 ^ a = x at hle
    rcases lt_or_ge x (2 ^ 63) with hx | hx
    · have hx' : InRange (x : ℤ) := ⟨by omega, by omega⟩
      have hhalf := floor_add_half (x := x) (Int.natCast_nonneg x)
      rw [Int.even_coe_nat, Int.cast_natCast] at hhalf
      rw [wrap_eq hx', Int.cast_natCast, and_iff_right hx]
      constructor
      · rintro ⟨-, heq⟩
        exact (hhalf.1 heq).imp_left fun h => by omega
      · intro h
        have heq := hhalf.2 (h.imp_left fun h => by omega)
        exact ⟨heq ▸ hx', heq⟩
    · refine iff_of_false ?_ (by omega)
      rintro ⟨hr, heq⟩
      rw [heq] at hr
      exact absurd hr.2 (by omega)
  · refine iff_of_false ?_ (by omega)
    intro heq
    have hsome : (round (.float (binary64.ofRat (decimal ds))) (2 ^ a)).isSome := by
      rw [← tonumber_large binary64 hlarge, heq]
      rfl
    rw [round_float (by positivity) ha] at hsome
    have hge : (2 : ℚ) ^ 63 ≤ decimal ds * 2 ^ a := by exact_mod_cast hlarge.trans hle
    linarith

/-- a number with a point -/
theorem tosize_point (hd : ∀ c ∈ ds, c.isDigit = true) (hf : ∀ c ∈ f, c.isDigit = true) (hne : ds ++ f ≠ [])
    (hrest : ∀ c ∈ rest.head?, isrun c = false) :
    tosize (lua ub) (ds ++ '.' :: f ++ rest) =
      (unit rest).bind (round (.float (binary64.ofRat (decimal (ds ++ f) / 10 ^ f.length)))) := by
  have hrun : ∀ c ∈ ds ++ '.' :: f, isrun c = true := by
    intro c hc
    rcases List.mem_append.1 hc with hc | hc
    · exact digits_run hd c hc
    · rcases List.mem_cons.1 hc with rfl | hc
      · rfl
      · exact digits_run hf c hc
  have hnum : LuaNumeral.tonumber binary64 (ds ++ '.' :: f) = some (.float (binary64.ofRat (decimal (ds ++ f) / 10 ^ f.length))) := by
    rw [LuaNumeral.tonumber, parse_point hd hf hne, Option.map_some, number_float binary64 (fun h => by cases h.1), value_point]
  rw [tosize_run (by simp) hrun hrest, hnum, Option.bind_some]

/-- **Exactly which numbers with a point** are accepted. -/
theorem tosize_point_iff (hd : ∀ c ∈ ds, c.isDigit = true) (hf : ∀ c ∈ f, c.isDigit = true) (hne : ds ++ f ≠ [])
    (hrest : ∀ c ∈ rest.head?, isrun c = false) (hunit : unit rest = some m) :
    (tosize (lua ub) (ds ++ '.' :: f ++ rest)).isSome ↔ (decimal (ds ++ f) / 10 ^ f.length : ℚ) * m < 2 ^ 63 - 2 ^ 9 := by
  obtain ⟨a, ha, rfl⟩ := unit_pow hunit
  rw [tosize_point hd hf hne hrest, hunit, Option.bind_some, round_float (by positivity) ha, Nat.cast_pow, Nat.cast_ofNat]

/-- two points -/
theorem tosize_points {t : Str} (hd : ∀ c ∈ ds, c.isDigit = true) (hf : ∀ c ∈ f, c.isDigit = true) (ht : ∀ c ∈ t, isrun c = true)
    (hrest : ∀ c ∈ rest.head?, isrun c = false) : tosize (lua ub) (ds ++ '.' :: (f ++ '.' :: t) ++ rest) = none := by
  have hrun : ∀ c ∈ ds ++ '.' :: (f ++ '.' :: t), isrun c = true := by
    intro c hc
    simp only [List.mem_append, List.mem_cons] at hc
    rcases hc with hc | rfl | hc | rfl | hc
    · exact digits_run hd c hc
    · rfl
    · exact digits_run hf c hc
    · rfl
    · exact ht c hc
  rw [tosize_run (by simp) hrun hrest, LuaNumeral.tonumber, parse_points hd hf ht]
  rfl

end Texts

end Shuttlesock.Sizes
