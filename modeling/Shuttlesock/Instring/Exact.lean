/-
Numbers as settings: `shuso_instring_integer_value` and `shuso_instring_size_value` of `instring.c`, with `Instring.tointeger` and
`Instring.tosize` of `instring.lua`.

Model: the value functions of `Instrings` with the numbers of `Sizes`. An instring is asked with any variables and any references; what is
kept of its values is about its text.
- `Exact`: what the two calls return for a text.
- `Whole`: the numerals that Lua reads as integers.
- `Good`: the texts for which nothing is lost.

The `lua_Integer` is narrowed to an `int`, a number that is read as a double is rounded before its floor is taken, and the product of
a size and its unit wraps.

Results:
- `answer_convert`, `exists_answer`: a query returns the conversion of the text.
- `integer_exact`: the floor of a numeral and the `int` that is returned.
- `product_lost`: an integer that does not fit with its unit is still a size.
- `settings_exact_iff`: exactly for which texts the values are exact.
- `not_settings_exact`: "4294967297" is 1.
-/
import Mathlib.Tactic
import Shuttlesock.Core.Double
import Shuttlesock.Core.LuaNumeral
import Shuttlesock.Core.Refs
import Shuttlesock.Instring.Sizes
import Shuttlesock.Instring.Value

namespace Shuttlesock.ExactSettings

open Shuttlesock.Double Shuttlesock.LuaNumber Shuttlesock.LuaNumeral Shuttlesock.Instrings Shuttlesock.Sizes

abbrev Str := List Char

/-! ## The property -/

/-- an instring that is asked for kind k, with the text s -/
structure Asked (ub : ℤ → ℕ) (k : Kind) (s : Str) (eval : ℕ → Option Str) (reg : Refs.Table Str)
    (x : Instring (Number binary64)) : Prop where
  text : (shuso_instring_interpolate eval reg x).2.iov.flatten = s
  cached : ((shuso_instring_interpolate eval reg x).2.cached k).Sound ((lua ub).convert k s)

/-- the size that is written: a number of digits and points, and the factor of its unit -/
def Sized (s : Str) (num : Numeral) (m : ℕ) : Prop :=
  ∃ run rest, s = run ++ rest ∧ (∀ c ∈ run, isrun c = true) ∧ (∀ c ∈ rest.head?, isrun c = false) ∧
    parse run = some num ∧ unit rest = some m

/-- **The property** of a text: an integer is the floor of the number that is written, a size is the one that `tosize` computes, and
a size is only returned when the one that is written is one of 64 bits. -/
structure Exact (ub : ℤ → ℕ) (s : Str) : Prop where
  integer : ∀ eval reg x reg' x' i, Asked ub .integer s eval reg x →
    shuso_instring_integer_value (lua ub) eval reg x = some (reg', x', .yes (some (.integer i))) →
    ∃ num, parse s = some num ∧ i = ⌊num.value⌋
  size : ∀ eval reg x reg' x' n, Asked ub .size s eval reg x →
    shuso_instring_size_value (lua ub) eval reg x = some (reg', x', .yes (some (.size n))) → tosize (lua ub) s = some (n : ℤ)
  fits : ∀ eval reg x reg' x' n, Asked ub .size s eval reg x →
    shuso_instring_size_value (lua ub) eval reg x = some (reg', x', .yes (some (.size n))) →
    ∀ num m, Sized s num m → ⌊num.value * m + 1 / 2⌋ < 2 ^ 64

/-- an `int` -/
def Int32 (i : ℤ) : Prop := -2 ^ 31 ≤ i ∧ i < 2 ^ 31

instance (i : ℤ) : Decidable (Int32 i) := inferInstanceAs (Decidable (_ ∧ _))

/-- a numeral that is read as an integer -/
def Whole (num : Numeral) : Prop := num.Plain ∧ (num.hex = true ∨ InRange num.integer)

instance (num : Numeral) : Decidable (Whole num) := inferInstanceAs (Decidable (_ ∧ _))

/-- **The condition.** Other numerals are read as the nearest double. -/
structure Good (s : Str) : Prop where
  whole : ∀ num, parse s = some num → Whole num → Int32 num.integer
  float : ∀ num, parse s = some num → ¬Whole num → ¬InRange ⌊rd num.value⌋ ∨ ⌊rd num.value⌋ = ⌊num.value⌋ ∧ Int32 ⌊num.value⌋
  product : ∀ ds rest m, s = ds ++ rest → ds ≠ [] → (∀ c ∈ ds, c.isDigit = true) → (∀ c ∈ rest.head?, isrun c = false) →
    unit rest = some m → decimal ds < 2 ^ 63 → decimal ds * m < 2 ^ 63

/-! ## Queries -/

section Queries

variable {P : Numbers (Number binary64)} {ub : ℤ → ℕ} {k : Kind} {s : Str} {eval : ℕ → Option Str} {reg reg' : Refs.Table Str}
  {x x' : Instring (Number binary64)} {v : Val (Number binary64)}

/-- what is returned is the conversion of the text -/
theorem answer_convert (h : Asked ub k s eval reg x) (hv : value (lua ub) k eval reg x = some (reg', x', .yes (some v))) :
    (lua ub).convert k s = some v := by
  obtain ⟨htext, hcached⟩ := h
  cases hmark : ((shuso_instring_interpolate eval reg x).2.cached k).mark with
  | valid =>
    simp only [value, hmark, Option.some.injEq, Prod.mk.injEq, Ret.yes.injEq] at hv
    rw [← hcached.val hmark]
    exact hv.2.2
  | invalid =>
    simp [value, hmark] at hv
  | unknown =>
    simp only [value, hmark, luaS_push_iovec_as_string, htext] at hv
    split_ifs at hv
    · cases hconv : (lua ub).convert k s with
      | none => simp [hconv] at hv
      | some w =>
        simp only [hconv, Option.bind_some, Option.some.injEq, Prod.mk.injEq, Ret.yes.injEq] at hv
        rw [hv.2.2]
    · cases hv

/-- an instring of one variable for each character -/
def spelled (s : Str) : Instring (Number binary64) :=
  ⟨List.replicate s.length .var, List.replicate s.length [], fun _ => ⟨.unknown, none⟩, none⟩

def spell (s : Str) (j : ℕ) : Option Str := s[j]?.map fun c => [c]

theorem spelled_iov (s : Str) (reg : Refs.Table Str) :
    (shuso_instring_interpolate (spell s) reg (spelled s)).2.iov = s.map fun c => [c] := by
  have hcount : varcount (spelled s).tokens = s.length := by
    show (List.replicate s.length Token.var).countP Token.isVariable = s.length
    rw [List.countP_replicate]
    rfl
  have hlength : (spelled s).iov.length = s.length := List.length_replicate
  rw [interpolate_iov, hcount]
  apply List.ext_getElem?
  intro p
  rcases lt_or_ge p s.length with hp | hp
  · rw [interpolateFrom_get _ _ _ _ _ _ (hlength ▸ hp), if_pos (by omega)]
    simp [spell, hp]
  · rw [List.getElem?_eq_none (by rw [interpolateFrom_length, hlength]; exact hp), List.getElem?_eq_none (by simpa using hp)]

theorem interpolate_unknown (h : (x.cached k).mark = .unknown) :
    ((shuso_instring_interpolate eval reg x).2.cached k).mark = .unknown := by
  unfold shuso_instring_interpolate
  split_ifs
  · exact h
  · dsimp only
    split_ifs
    · rfl
    · exact h

/-- any text may be asked for -/
theorem exists_answer (h : (lua ub).convert k s = some v) :
    ∃ eval reg x reg' x', Asked ub k s eval reg x ∧ value (lua ub) k eval reg x = some (reg', x', .yes (some v)) := by
  let reg : Refs.Table Str := ⟨0, fun _ => none, []⟩
  have hiov := spelled_iov s reg
  have hflat : (s.map fun c => [c]).flatten = s := by rw [← List.flatMap_def, List.flatMap_singleton']
  have hmark : ((shuso_instring_interpolate (spell s) reg (spelled s)).2.cached k).mark = .unknown := interpolate_unknown rfl
  have hpush : luaS_push_iovec_as_string (s.map fun c => [c]) = some s := by
    rw [luaS_push_iovec_as_string, if_pos, hflat]
    rw [List.all_eq_true]
    intro t ht
    obtain ⟨c, -, rfl⟩ := List.mem_map.1 ht
    rfl
  have hvalue : value (lua ub) k (spell s) reg (spelled s) =
      some ((shuso_instring_interpolate (spell s) reg (spelled s)).1,
        (shuso_instring_interpolate (spell s) reg (spelled s)).2.store k ⟨.valid, some v⟩, .yes (some v)) := by
    simp only [value, hmark, hiov, hpush, h, Option.bind_some]
  exact ⟨spell s, reg, spelled s, _, _, ⟨by rw [hiov, hflat], Memo.sound_of_unknown hmark _⟩, hvalue⟩

end Queries

/-! ## Integers -/

section Integers

variable {ub : ℤ → ℕ} {s : Str} {num : Numeral}

theorem bmod_eq_self {i : ℤ} : i.bmod (2 ^ 32) = i ↔ Int32 i := by
  rw [Int.bmod_def]
  unfold Int32
  split_ifs <;> omega

/-- an integer next to the floor -/
theorem bmod_near {i n : ℤ} (h : Int32 n → i = n ∨ i = n + 1) : i.bmod (2 ^ 32) = n ↔ i = n ∧ Int32 n := by
  have hrange : i.bmod (2 ^ 32) = n → Int32 n := by
    rw [Int.bmod_def]
    unfold Int32
    split_ifs <;> omega
  constructor
  · intro heq
    have hn := hrange heq
    rcases h hn with rfl | rfl
    · exact ⟨rfl, hn⟩
    · rw [Int.bmod_def] at heq
      split_ifs at heq <;> omega
  · rintro ⟨rfl, hn⟩
    exact bmod_eq_self.2 hn

/-- rounding does not go further than the next integer -/
theorem floor_rd_near {q : ℚ} (h : Int32 ⌊q⌋) : ⌊rd q⌋ = ⌊q⌋ ∨ ⌊rd q⌋ = ⌊q⌋ + 1 := by
  obtain ⟨hlow, hhigh⟩ := h
  have hle : ⌊q⌋ ≤ ⌊rd q⌋ := le_floor_rd (representable_int (by rw [abs_le]; omega)) (Int.floor_le q)
  have hnext : q ≤ ((⌊q⌋ + 1 : ℤ) : ℚ) := by
    push_cast
    exact (Int.lt_floor_add_one q).le
  have hge : ⌊rd q⌋ ≤ ⌊q⌋ + 1 := floor_rd_le (representable_int (by rw [abs_le]; omega)) hnext
  omega

theorem floor_whole (h : Whole num) : (num.number binary64).floor = some (wrap num.integer) := by
  obtain ⟨hplain, hwhole⟩ := h
  cases hhex : num.hex with
  | true =>
    rw [number_hex binary64 hplain hhex]
    rfl
  | false =>
    have hrange : InRange num.integer := hwhole.resolve_left (by simp [hhex])
    rw [number_decimal binary64 hplain hhex hrange, wrap_eq hrange]
    rfl

theorem floor_float (h : ¬Whole num) : (num.number binary64).floor = integer_of ⌊rd num.value⌋ := by
  have hnum : num.number binary64 = .float (binary64.ofRat num.value) := by
    apply number_float
    intro hplain
    obtain ⟨hhex, hrange⟩ := not_or.1 fun hor => h ⟨hplain, hor⟩
    exact ⟨by simpa using hhex, hrange⟩
  rw [hnum]
  exact floor_ofRat num.value

/-- the floor of a numeral, and the `int` that is returned -/
theorem integer_exact (num : Numeral) : (∀ j, (num.number binary64).floor = some j → j.bmod (2 ^ 32) = ⌊num.value⌋) ↔
    (Whole num → Int32 num.integer) ∧ (¬Whole num → ¬InRange ⌊rd num.value⌋ ∨ ⌊rd num.value⌋ = ⌊num.value⌋ ∧ Int32 ⌊num.value⌋) := by
  by_cases h : Whole num
  · have hbmod : (wrap num.integer).bmod (2 ^ 32) = num.integer.bmod (2 ^ 32) := Int.bmod_bmod_of_dvd (by norm_num)
    have hfloor : ⌊num.value⌋ = num.integer := by rw [value_plain h.1, Int.floor_intCast]
    simp only [floor_whole h, Option.some.injEq, forall_eq', hbmod, hfloor, bmod_eq_self, h, not_true_eq_false, true_implies,
      false_implies, and_true]
  · simp only [floor_float h, integer_of_eq_some, h, not_false_eq_true, true_implies, false_implies, true_and]
    rw [← bmod_near fun hn => floor_rd_near hn]
    constructor
    · intro hj
      exact or_iff_not_imp_left.2 fun hrange => hj _ ⟨not_not.1 hrange, rfl⟩
    · rintro hor j ⟨hrange, rfl⟩
      exact hor.resolve_left (not_not.2 hrange)

theorem convert_integer {i : ℤ} : (lua ub).convert .integer s = some (.integer i) ↔
    ∃ num j, parse s = some num ∧ (num.number binary64).floor = some j ∧ j.bmod (2 ^ 32) = i := by
  show (((LuaNumeral.tonumber binary64 s).bind Number.floor).map fun j => Val.integer (j.bmod (2 ^ 32))) = some (.integer i) ↔ _
  rw [LuaNumeral.tonumber]
  cases parse s with
  | none => simp
  | some num => simp

end Integers

/-! ## Sizes -/

section Sizes

variable {ub : ℤ → ℕ} {s : Str} {num : Numeral} {m : ℕ} {j : ℤ}

theorem tosize_sized (h : Sized s num m) : tosize (lua ub) s = round (num.number binary64) m := by
  obtain ⟨run, rest, rfl, hrun, hrest, hparse, hunit⟩ := h
  have hne : run ≠ [] := by
    rintro rfl
    cases hparse
  rw [tosize_run hne hrun hrest, LuaNumeral.tonumber, hparse, hunit]
  rfl

theorem sized_of_tosize (h : tosize (lua ub) s = some j) : ∃ num m, Sized s num m := by
  have hsplit : s.takeWhile isrun ++ s.dropWhile isrun = s := List.takeWhile_append_dropWhile
  have hrun : ∀ c ∈ s.takeWhile isrun, isrun c = true := fun c hc => List.mem_takeWhile_imp hc
  have hrest : ∀ c ∈ (s.dropWhile isrun).head?, isrun c = false := by
    intro c hc
    have hnot := List.head?_dropWhile_not isrun s
    rw [hc] at hnot
    simpa using hnot
  have hne : s.takeWhile isrun ≠ [] := by
    intro hnil
    have hnil' : s.takeWhile (fun c => c.isDigit || c == '.') = [] := hnil
    simp [tosize, hnil'] at h
  rw [← hsplit, tosize_run hne hrun hrest, LuaNumeral.tonumber] at h
  simp only [Option.bind_eq_some_iff, Option.map_eq_some_iff] at h
  obtain ⟨-, ⟨num, hparse, -⟩, m, hunit, -⟩ := h
  exact ⟨num, m, _, _, hsplit.symm, hrun, hrest, hparse, hunit⟩

/-- digits that are an integer, and the numbers that are read as a double -/
theorem sized_cases (h : Sized s num m) :
    (∃ ds rest, s = ds ++ rest ∧ ds ≠ [] ∧ (∀ c ∈ ds, c.isDigit = true) ∧ (∀ c ∈ rest.head?, isrun c = false) ∧ unit rest = some m ∧
        decimal ds < 2 ^ 63 ∧ num.number binary64 = .integer (decimal ds) ∧ num.value = decimal ds) ∨
      0 ≤ num.value ∧ num.number binary64 = .float (binary64.ofRat num.value) := by
  obtain ⟨run, rest, rfl, hrun, hrest, hparse, hunit⟩ := h
  rcases parse_run_some hrun hparse with ⟨hne, hd, rfl⟩ | ⟨w, f, -, hw, hf, -, rfl⟩
  · have hnum := number_digits binary64 run
    have hvalue := value_digits run
    rcases lt_or_ge (decimal run) (2 ^ 63) with hlt | hge
    · left
      rw [tonumber_small binary64 hlt] at hnum
      exact ⟨run, rest, rfl, hne, hd, hrest, hunit, hlt, hnum, hvalue⟩
    · right
      rw [tonumber_large binary64 hge, ← hvalue] at hnum
      refine ⟨?_, hnum⟩
      rw [hvalue]
      positivity
  · right
    refine ⟨?_, number_float binary64 fun h => by cases h.1⟩
    rw [value_point]
    positivity

/-- a product that does not wrap -/
theorem round_small {d : ℕ} (h : d * m < 2 ^ 63) (hd : d < 2 ^ 63) (hj : round (.integer (d : ℤ)) m = some j) : 0 ≤ j := by
  have hrange : InRange (d : ℤ) := ⟨by omega, by omega⟩
  have hprod : InRange ((d : ℤ) * m) := by
    have hcast : (d : ℤ) * m = (d * m : ℕ) := by push_cast; rfl
    rw [hcast]
    exact ⟨by omega, by omega⟩
  rw [round_integer hrange, wrap_eq hprod, integer_of_eq_some] at hj
  rw [← hj.2]
  have hnonneg : (0 : ℚ) ≤ rd ((d * m : ℤ) : ℚ) := rd_nonneg (by positivity)
  exact Int.floor_nonneg.2 (rd_nonneg (by linarith))

/-- a multiple of 1024 is far enough from 2^63 -/
theorem half_inRange {w : ℤ} (hlow : -2 ^ 63 ≤ w) (hhigh : w ≤ 2 ^ 63 - 2 ^ 10) : InRange ⌊rd (rd w + 1 / 2)⌋ := by
  have hpow : (2 : ℚ) ^ (63 : ℤ) = 2 ^ 63 := by norm_cast
  have hten : (2 : ℚ) ^ (63 - 53 : ℤ) = 2 ^ 10 := by norm_cast
  have hnine : (2 : ℚ) ^ (63 - 54 : ℤ) = 2 ^ 9 := by norm_cast
  constructor
  · have hrep : Representable ((-2 ^ 63 : ℤ) : ℚ) := by
      have hneg := (representable_pow 63 (by norm_num)).neg
      rw [hpow] at hneg
      exact_mod_cast hneg
    have hrd : ((-2 ^ 63 : ℤ) : ℚ) ≤ rd w := le_rd hrep (by exact_mod_cast hlow)
    exact le_floor_rd hrep (hrd.trans (le_add_of_nonneg_right (by norm_num)))
  · have hpred : rd w ≤ 2 ^ (63 : ℤ) - 2 ^ (63 - 53 : ℤ) := by
      apply rd_le (representable_pred (by norm_num))
      rw [hpow, hten]
      exact_mod_cast hhigh
    have habove : rd (rd w + 1 / 2) < 2 ^ (63 : ℤ) := by
      rw [rd_lt_pow (by norm_num), hnine]
      rw [hten] at hpred
      linarith
    rw [Int.floor_lt]
    rw [hpow] at habove
    exact_mod_cast habove

theorem half_neg {w : ℤ} (h : w ≤ -1024) : ⌊rd (rd w + 1 / 2)⌋ < 0 := by
  have hrd : rd w ≤ ((-1024 : ℤ) : ℚ) := rd_le (representable_int (by norm_num)) (by exact_mod_cast h)
  have hle : ⌊rd (rd w + 1 / 2)⌋ ≤ -1 := by
    apply floor_rd_le (representable_int (by norm_num))
    push_cast at hrd ⊢
    linarith
  omega

/-- what is left of a product that is too large -/
theorem wrap_product {x : ℕ} (hdvd : 1024 ∣ x) (h : 2 ^ 63 ≤ x) : (1024 : ℤ) ∣ wrap x ∧ (0 ≤ wrap x → 2 ^ 64 ≤ x) := by
  unfold wrap
  rw [Int.bmod_def]
  split_ifs <;> omega

/-- **An integer that does not fit with its unit** is a size all the same: a negative one, or the one of less than 64 bits. -/
theorem product_lost {d : ℕ} {rest : Str} (hunit : unit rest = some m) (hd : d < 2 ^ 63) (h : 2 ^ 63 ≤ d * m) :
    ∃ j, round (.integer (d : ℤ)) m = some j ∧ (j < 0 ∨ 2 ^ 64 ≤ d * m) := by
  have hunit' : 1024 ∣ m := by
    refine (unit_dvd hunit).resolve_left ?_
    rintro rfl
    omega
  have hrange : InRange (d : ℤ) := ⟨by omega, by omega⟩
  have hcast : (d : ℤ) * m = (d * m : ℕ) := by push_cast; rfl
  obtain ⟨hdvd, hlarge⟩ := wrap_product (hunit'.mul_left d) h
  obtain ⟨hlow, hhigh⟩ := wrap_inRange (d * m : ℕ)
  rw [round_integer hrange, hcast]
  refine ⟨_, integer_of_eq_some.2 ⟨half_inRange hlow (by omega), rfl⟩, ?_⟩
  rcases lt_or_ge (wrap (d * m : ℕ)) 0 with hneg | hnonneg
  · exact .inl (half_neg (by omega))
  · exact .inr (hlarge hnonneg)

theorem convert_size {n : ℕ} : (lua ub).convert .size s = some (.size n) ↔ ∃ j, tosize (lua ub) s = some j ∧ toSize ub j = n := by
  show ((tosize (lua ub) s).map fun j => Val.size (toSize ub j)) = some (.size n) ↔ _
  cases tosize (lua ub) s with
  | none => simp
  | some j => simp

end Sizes

/-! ## Texts -/

section Texts

variable {ub : ℤ → ℕ} {s : Str}

theorem good_of_exact (h : Exact ub s) : Good s := by
  have hint : ∀ num, parse s = some num → ∀ j, (num.number binary64).floor = some j → j.bmod (2 ^ 32) = ⌊num.value⌋ := by
    intro num hparse j hj
    have hconvert : (lua ub).convert .integer s = some (.integer (j.bmod (2 ^ 32))) := convert_integer.2 ⟨num, j, hparse, hj, rfl⟩
    obtain ⟨eval, reg, x, reg', x', hasked, hv⟩ := exists_answer hconvert
    obtain ⟨num', hparse', hi⟩ := h.integer eval reg x reg' x' _ hasked hv
    rw [hparse, Option.some.injEq] at hparse'
    rw [hi, hparse']
  refine ⟨fun num hparse => ((integer_exact num).1 (hint num hparse)).1,
    fun num hparse => ((integer_exact num).1 (hint num hparse)).2, ?_⟩
  intro ds rest m hs hne hd hrest hunit hlt
  by_contra hlarge
  obtain ⟨j, hj, hlost⟩ := product_lost hunit hlt (not_lt.1 hlarge)
  have hsized : Sized s ⟨false, false, ds, none, none⟩ m := ⟨ds, rest, hs, digits_run hd, hrest, parse_digits hne hd, hunit⟩
  have htosize : tosize (lua ub) s = some j := by rw [tosize_sized hsized, number_digits, tonumber_small binary64 hlt, hj]
  obtain ⟨eval, reg, x, reg', x', hasked, hv⟩ := exists_answer (convert_size.2 ⟨j, htosize, rfl⟩)
  have hsize := h.size eval reg x reg' x' _ hasked hv
  have hfits := h.fits eval reg x reg' x' _ hasked hv _ m hsized
  rw [htosize, Option.some.injEq] at hsize
  have hfloor : ⌊((decimal ds * m : ℕ) : ℚ) + 1 / 2⌋ = (decimal ds * m : ℕ) := by
    rw [Int.floor_eq_iff]
    push_cast
    constructor <;> linarith
  rw [value_digits, ← Nat.cast_mul, hfloor] at hfits
  omega

/-- the size of a text that is in order -/
theorem tosize_good {num : Numeral} {m : ℕ} {j : ℤ} (h : Good s) (hsized : Sized s num m) (hj : tosize (lua ub) s = some j) :
    0 ≤ j ∧ ⌊num.value * m + 1 / 2⌋ < 2 ^ 64 := by
  rw [tosize_sized hsized] at hj
  rcases sized_cases hsized with ⟨ds, rest, hs, hne, hd, hrest, hunit, hlt, hnum, hvalue⟩ | ⟨hnonneg, hnum⟩
  · have hprod := h.product ds rest m hs hne hd hrest hunit hlt
    rw [hnum] at hj
    refine ⟨round_small hprod hlt hj, ?_⟩
    rw [hvalue, ← Nat.cast_mul, Int.floor_lt]
    have hcast : ((decimal ds * m : ℕ) : ℚ) < 2 ^ 63 := by exact_mod_cast hprod
    push_cast at hcast ⊢
    linarith
  · -- a product of doubles is only kept below 2^63
    obtain ⟨-, rest, -, -, -, -, hunit⟩ := hsized
    obtain ⟨a, ha, rfl⟩ := unit_pow hunit
    rw [hnum] at hj
    refine ⟨round_float_nonneg hnonneg ha hj, ?_⟩
    have hlt := (round_float hnonneg ha).1 (by rw [hj]; rfl)
    rw [Int.floor_lt]
    push_cast
    linarith

theorem exact_of_good (h : Good s) : Exact ub s := by
  have hsize : ∀ eval reg x reg' x' n, Asked ub .size s eval reg x →
      shuso_instring_size_value (lua ub) eval reg x = some (reg', x', .yes (some (.size n))) →
      ∃ j, tosize (lua ub) s = some j ∧ toSize ub j = n :=
    fun eval reg x reg' x' n hasked hv => convert_size.1 (answer_convert hasked hv)
  refine ⟨?_, ?_, ?_⟩
  · intro eval reg x reg' x' i hasked hv
    obtain ⟨num, j, hparse, hj, rfl⟩ := convert_integer.1 (answer_convert hasked hv)
    have hexact := (integer_exact num).2 ⟨h.whole num hparse, h.float num hparse⟩
    exact ⟨num, hparse, hexact j hj⟩
  · intro eval reg x reg' x' n hasked hv
    obtain ⟨j, hj, rfl⟩ := hsize eval reg x reg' x' n hasked hv
    obtain ⟨num, m, hsized⟩ := sized_of_tosize hj
    have hround : round (num.number binary64) m = some j := (tosize_sized hsized).symm.trans hj
    obtain ⟨hrep, hrange⟩ := round_some hround
    obtain ⟨hnonneg, -⟩ := tosize_good h hsized hj
    rw [hj, toSize_nonneg hrep hrange hnonneg, Int.toNat_of_nonneg hnonneg]
  · intro eval reg x reg' x' n hasked hv num m hsized
    obtain ⟨j, hj, -⟩ := hsize eval reg x reg' x' n hasked hv
    exact (tosize_good h hsized hj).2

/-- **Exactly for which texts** the values are exact. -/
theorem settings_exact_iff (ub : ℤ → ℕ) (s : Str) : Exact ub s ↔ Good s := ⟨good_of_exact, exact_of_good⟩

/-- "4294967297" is 1 -/
theorem not_settings_exact : ¬∀ ub s, Exact ub s := by
  intro h
  have hparse : parse "4294967297".toList = some ⟨false, false, "4294967297".toList, none, none⟩ :=
    parse_digits (by decide) (List.all_eq_true.1 (by decide))
  have hinteger : (⟨false, false, "4294967297".toList, none, none⟩ : Numeral).integer = 4294967297 := by decide
  have hrange : InRange 4294967297 := by decide
  have hwhole : Whole ⟨false, false, "4294967297".toList, none, none⟩ := ⟨⟨rfl, rfl⟩, .inr (hinteger ▸ hrange)⟩
  have hfloor := floor_whole hwhole
  rw [hinteger, wrap_eq hrange] at hfloor
  have hconvert : (lua fun _ => 0).convert .integer "4294967297".toList = some (.integer 1) :=
    convert_integer.2 ⟨_, _, hparse, hfloor, by decide⟩
  obtain ⟨eval, reg, x, reg', x', hasked, hv⟩ := exists_answer hconvert
  obtain ⟨num, hnum, hone⟩ := (h (fun _ => 0) _).integer eval reg x reg' x' _ hasked hv
  rw [hparse, Option.some.injEq] at hnum
  rw [← hnum, value_plain hwhole.1, hinteger, Int.floor_intCast] at hone
  exact absurd hone (by decide)

end Texts

end Shuttlesock.ExactSettings
