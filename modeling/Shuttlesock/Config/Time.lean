/-
Time strings: `Config.str_time_to_seconds` of `config.lua`, which `shuso_setting_time_sec` of `config.c` calls without protection.

Model: a call raises a text, or returns false (none) or a number. The arithmetic of the floats is a parameter, and as a rational the
value is the one without rounding.
- `TimeUnit`: the units, with their long forms and what they stand for.
- `Text`: a text is an integer with a unit.

The pattern for days ends with a `%`; a unit that no branch knows leaves the number as it is; and a product of integers wraps.

Results:
- `time_known`, `time_day`, `time_unknown`: what a call does with a number and a unit.
- `time_converted_iff`: exactly which texts are converted as they should be.
- `days_raise`, `unknown_unscaled`: every unit that starts with "day" raises, every other one that is not known is ignored.
- `time_not_converted`: "2days".
-/
import Mathlib.Tactic
import Shuttlesock.Core.LuaNumber
import Shuttlesock.Config.Quantity

namespace Shuttlesock.TimeString

open Shuttlesock.LuaMatch Shuttlesock.LuaNumber Shuttlesock.Quantity

abbrev Str := List Char

/-! ## The model -/

/-- `unit == name or .. or unit:match(pattern)` -/
def is_unit (unit : Str) (names : List String) (pattern : String) : Except String Bool :=
  if ∃ name ∈ names, unit = name.toList then .ok true else (str_match unit pattern.toList).map Option.isSome

def str_time_to_seconds (A : Floats) (str : Str) : Except String (Option (Number A)) := do
  match ← str_match str "^%s*(%d+)%s?(%w*)%s*$".toList with
  | some [num, unit] =>
    -- digits are always a number
    let value := tonumber A num
    if ← is_unit unit ["us", "usec"] "^microseconds?$" then
      return some (value.div (.float (A.ofRat 1000000)))
    else if ← is_unit unit ["ms", "msec"] "^milliseconds?$" then
      return some (value.div (.float (A.ofRat 1000)))
    else if ← is_unit unit ["", "s", "sec"] "^seconds?$" then
      return some value
    else if ← is_unit unit ["m", "min"] "^minutes?$" then
      return some (value.mul (.integer 60))
    else if ← is_unit unit ["h"] "^hours?$" then
      return some ((value.mul (.integer 60)).mul (.integer 60))
    else if ← is_unit unit ["d"] "^days?%" then
      return some (((value.mul (.integer 60)).mul (.integer 60)).mul (.integer 24))
    else
      return some value
  | _ => return none

/-! ## Units -/

inductive TimeUnit where
  | us | ms | s | m | h | d
deriving DecidableEq, Repr

namespace TimeUnit

instance : Fintype TimeUnit := ⟨{us, ms, s, m, h, d}, fun u => by cases u <;> decide⟩

def short : TimeUnit → List String
  | us => ["us", "usec"]
  | ms => ["ms", "msec"]
  | s => ["", "s", "sec"]
  | m => ["m", "min"]
  | h => ["h"]
  | d => ["d"]

def long : TimeUnit → String
  | us => "microsecond"
  | ms => "millisecond"
  | s => "second"
  | m => "minute"
  | h => "hour"
  | d => "day"

/-- the forms of a unit, with the plural of the long one -/
def names (u : TimeUnit) : List Str := u.short.map String.toList ++ [u.long.toList, u.long.toList ++ ['s']]

def seconds : TimeUnit → ℚ
  | us => 1 / 1000000
  | ms => 1 / 1000
  | s => 1
  | m => 60
  | h => 60 * 60
  | d => 60 * 60 * 24

/-- what an integer is multiplied with -/
def factor : TimeUnit → ℕ
  | m => 60
  | h => 60 * 60
  | d => 60 * 60 * 24
  | _ => 1

/-- the branch of a unit -/
def scale {A : Floats} (value : Number A) : TimeUnit → Number A
  | us => value.div (.float (A.ofRat 1000000))
  | ms => value.div (.float (A.ofRat 1000))
  | s => value
  | m => value.mul (.integer 60)
  | h => (value.mul (.integer 60)).mul (.integer 60)
  | d => ((value.mul (.integer 60)).mul (.integer 60)).mul (.integer 24)

end TimeUnit

/-- the text is an integer with a unit -/
def Text (str : Str) (n : ℕ) (u : TimeUnit) : Prop := ∃ num unit, Written str num unit ∧ decimal num = n ∧ unit ∈ u.names

/-- **The property** of a text: the call does not raise, it returns a number if and only if the text is an integer with a unit, and as
a rational this is the integer times the unit. -/
structure Converted (str : Str) : Prop where
  total : ∀ (A : Floats) (text : String), str_time_to_seconds A str ≠ .error text
  number : ∀ A : Floats, (∃ value, str_time_to_seconds A str = .ok (some value)) ↔ ∃ n u, Text str n u
  value : ∀ n u, Text str n u → ∃ value, str_time_to_seconds exact str = .ok (some value) ∧ value.toRat = n * u.seconds

/-! ## The branches -/

section Branches

variable {A : Floats} {str num unit : Str}

theorem is_unit_eq (u : TimeUnit) (q : Str) (hq : items q.length q = some (plural_items u.long.toList)) :
    is_unit unit u.short (String.ofList ('^' :: q)) = .ok (decide (unit ∈ u.names)) := by
  have hmap : (∃ name ∈ u.short, unit = name.toList) ↔ unit ∈ u.short.map String.toList := by
    rw [List.mem_map]
    exact exists_congr fun name => and_congr_right fun _ => eq_comm
  unfold is_unit
  by_cases hshort : unit ∈ u.short.map String.toList
  · have hmem : unit ∈ u.names := List.mem_append_left _ hshort
    rw [if_pos (hmap.2 hshort), decide_eq_true hmem]
  · rw [if_neg (hmap.not.2 hshort), String.toList_ofList, match_plural _ _ hq]
    simp [TimeUnit.names, hshort]

/-- the pattern for days, behind the "day" -/
theorem ways_days (u : Str) : (ways ("day".toList.map (fun c => .one (only c)) ++ [.opt (only 's'), .malformed "malformed pattern (ends with '%')"])
    none u).head? = if "day".toList <+: u then some (.error "malformed pattern (ends with '%')") else none := by
  rw [ways_word]
  split_ifs with h
  · obtain ⟨t, rfl⟩ := h
    rw [List.drop_left]
    cases t with
    | nil => rfl
    | cons c t =>
      by_cases hc : c = 's'
      · subst hc
        rfl
      · simp [ways, after, only, hc]
  · rfl

theorem is_unit_day : is_unit unit ["d"] "^days?%" =
    if unit = "d".toList then .ok true
    else if "day".toList <+: unit then .error "malformed pattern (ends with '%')" else .ok false := by
  have hmatch : str_match unit "^days?%".toList = first (matches_at ("day".toList.map (fun c => .one (only c)) ++
      [.opt (only 's'), .malformed "malformed pattern (ends with '%')"]) unit) := match_anchored _ rfl
  unfold is_unit
  simp only [List.mem_singleton, exists_eq_left, hmatch]
  congr 1
  have hways := ways_days unit
  split_ifs at hways ⊢
  · rw [matches_error hways]
    rfl
  · rw [matches_none (List.head?_eq_none_iff.1 hways)]
    rfl

/-- what a call does with a number and a unit -/
theorem time_eq (h : Written str num unit) : str_time_to_seconds A str =
    if unit ∈ TimeUnit.us.names then .ok (some (TimeUnit.us.scale (tonumber A num)))
    else if unit ∈ TimeUnit.ms.names then .ok (some (TimeUnit.ms.scale (tonumber A num)))
    else if unit ∈ TimeUnit.s.names then .ok (some (TimeUnit.s.scale (tonumber A num)))
    else if unit ∈ TimeUnit.m.names then .ok (some (TimeUnit.m.scale (tonumber A num)))
    else if unit ∈ TimeUnit.h.names then .ok (some (TimeUnit.h.scale (tonumber A num)))
    else if unit = "d".toList then .ok (some (TimeUnit.d.scale (tonumber A num)))
    else if "day".toList <+: unit then .error "malformed pattern (ends with '%')"
    else .ok (some (tonumber A num)) := by
  have hmatch : str_match str "^%s*(%d+)%s?(%w*)%s*$".toList = .ok (some [num, unit]) := match_written h
  have hus : is_unit unit ["us", "usec"] "^microseconds?$" = _ := is_unit_eq .us "microseconds?$".toList rfl
  have hms : is_unit unit ["ms", "msec"] "^milliseconds?$" = _ := is_unit_eq .ms "milliseconds?$".toList rfl
  have hs : is_unit unit ["", "s", "sec"] "^seconds?$" = _ := is_unit_eq .s "seconds?$".toList rfl
  have hm : is_unit unit ["m", "min"] "^minutes?$" = _ := is_unit_eq .m "minutes?$".toList rfl
  have hh : is_unit unit ["h"] "^hours?$" = _ := is_unit_eq .h "hours?$".toList rfl
  simp only [str_time_to_seconds, hmatch, hus, hms, hs, hm, hh, is_unit_day, bind, Except.bind, pure, Except.pure, decide_eq_true_eq]
  split_ifs <;> rfl

theorem time_unwritten (h : ∀ num unit, ¬Written str num unit) : str_time_to_seconds A str = .ok none := by
  have hmatch : str_match str "^%s*(%d+)%s?(%w*)%s*$".toList = .ok none := match_unwritten h
  simp only [str_time_to_seconds, hmatch, bind, Except.bind, pure, Except.pure]

/-- no unit has the name of another -/
theorem names_disjoint : ∀ u v : TimeUnit, ∀ unit ∈ u.names, unit ∈ v.names → u = v := by
  decide +kernel

theorem day_names (h : unit ∈ TimeUnit.d.names) : unit = "d".toList ∨ "day".toList <+: unit := by
  have hall : ∀ unit ∈ TimeUnit.d.names, unit = "d".toList ∨ "day".toList <+: unit := by decide +kernel
  exact hall unit h

theorem not_day {u : TimeUnit} (hu : unit ∈ u.names) (hne : u ≠ .d) : ¬"day".toList <+: unit ∧ unit ≠ "d".toList := by
  have hall : ∀ u ≠ TimeUnit.d, ∀ unit ∈ u.names, ¬"day".toList <+: unit ∧ unit ≠ "d".toList := by decide +kernel
  exact hall u hne unit hu

/-- the branch of a unit, for days without "day" and "days" -/
theorem time_known (h : Written str num unit) {u : TimeUnit} (hu : unit ∈ u.names) (hday : ¬"day".toList <+: unit) :
    str_time_to_seconds A str = .ok (some (u.scale (tonumber A num))) := by
  have hne : ∀ v, v ≠ u → unit ∉ v.names := fun v hv hmem => hv (names_disjoint v u unit hmem hu)
  rw [time_eq h]
  cases u with
  | us => rw [if_pos hu]
  | ms => rw [if_neg (hne .us (by decide)), if_pos hu]
  | s => rw [if_neg (hne .us (by decide)), if_neg (hne .ms (by decide)), if_pos hu]
  | m => rw [if_neg (hne .us (by decide)), if_neg (hne .ms (by decide)), if_neg (hne .s (by decide)), if_pos hu]
  | h =>
    rw [if_neg (hne .us (by decide)), if_neg (hne .ms (by decide)), if_neg (hne .s (by decide)), if_neg (hne .m (by decide)), if_pos hu]
  | d =>
    rw [if_neg (hne .us (by decide)), if_neg (hne .ms (by decide)), if_neg (hne .s (by decide)), if_neg (hne .m (by decide)),
      if_neg (hne .h (by decide)), if_pos ((day_names hu).resolve_right hday)]

/-- the units that no branch knows -/
theorem time_other (h : Written str num unit) (hnames : ∀ u ≠ TimeUnit.d, unit ∉ u.names) (hd : unit ≠ "d".toList) :
    str_time_to_seconds A str =
      if "day".toList <+: unit then .error "malformed pattern (ends with '%')" else .ok (some (tonumber A num)) := by
  rw [time_eq h, if_neg (hnames .us (by decide)), if_neg (hnames .ms (by decide)), if_neg (hnames .s (by decide)),
    if_neg (hnames .m (by decide)), if_neg (hnames .h (by decide)), if_neg hd]

/-- **Every unit that starts with "day"** raises, also the documented ones. -/
theorem days_raise (h : Written str num unit) (hday : "day".toList <+: unit) :
    str_time_to_seconds A str = .error "malformed pattern (ends with '%')" := by
  have hd : unit ≠ "d".toList := by
    rintro rfl
    revert hday
    decide
  rw [time_other h (fun u hu hmem => (not_day hmem hu).1 hday) hd, if_pos hday]

/-- **Every other unit that is not known** is ignored. -/
theorem unknown_unscaled (h : Written str num unit) (hnames : ∀ u : TimeUnit, unit ∉ u.names) (hday : ¬"day".toList <+: unit) :
    str_time_to_seconds A str = .ok (some (tonumber A num)) := by
  have hd : unit ≠ "d".toList := by
    rintro rfl
    exact hnames .d (by decide)
  rw [time_other h (fun u _ => hnames u) hd, if_neg hday]

end Branches

/-! ## The values -/

/-- a product of integers that fits, or that is one of floats -/
def Fits (n : ℕ) (u : TimeUnit) : Prop := 2 ^ 63 ≤ n ∨ n * u.factor < 2 ^ 63

theorem toRat_integer (i : ℤ) : (Number.integer i : Number exact).toRat = i := rfl

/-- integers are multiplied as one, and the product wraps -/
theorem scale_integer (i : ℤ) {u : TimeUnit} (hu : u ≠ .us ∧ u ≠ .ms) :
    u.scale (Number.integer i : Number exact) = .integer (wrap (i * u.factor)) ∨ u = .s := by
  cases u with
  | us => exact absurd rfl hu.1
  | ms => exact absurd rfl hu.2
  | s => exact .inr rfl
  | m => exact .inl rfl
  | h =>
    refine .inl ?_
    simp only [TimeUnit.scale, Number.mul, wrap_wrap_mul, mul_assoc]
    rfl
  | d =>
    refine .inl ?_
    simp only [TimeUnit.scale, Number.mul, wrap_wrap_mul, mul_assoc]
    rfl

theorem seconds_factor {u : TimeUnit} (hu : u ≠ .us ∧ u ≠ .ms) : u.seconds = u.factor := by
  cases u with
  | us => exact absurd rfl hu.1
  | ms => exact absurd rfl hu.2
  | s | m | h | d => norm_num [TimeUnit.seconds, TimeUnit.factor]

/-- us and ms are divisions -/
theorem toRat_scale_div (value : Number exact) {u : TimeUnit} (hu : ¬(u ≠ .us ∧ u ≠ .ms)) :
    (u.scale value).toRat = value.toRat * u.seconds := by
  cases u with
  | us => rw [TimeUnit.scale, toRat_div]; simp [TimeUnit.seconds, Number.toRat, exact, div_eq_mul_inv]
  | ms => rw [TimeUnit.scale, toRat_div]; simp [TimeUnit.seconds, Number.toRat, exact, div_eq_mul_inv]
  | s | m | h | d => exact absurd (by simp) hu

theorem toRat_scale_float (x : ℚ) (u : TimeUnit) : (u.scale (.float x : Number exact)).toRat = x * u.seconds := by
  cases u with
  | us | ms => exact toRat_scale_div (.float x) (by simp)
  | s => exact (mul_one x).symm
  | m => rfl
  | h => exact mul_assoc x 60 60
  | d =>
    show x * 60 * 60 * 24 = x * (60 * 60 * 24)
    ring

theorem toRat_scale {num : Str} (u : TimeUnit) (h : Fits (decimal num) u) :
    (u.scale (tonumber exact num)).toRat = decimal num * u.seconds := by
  by_cases hdiv : u ≠ .us ∧ u ≠ .ms
  · by_cases hn : decimal num < 2 ^ 63
    · have hfits : decimal num * u.factor < 2 ^ 63 := h.resolve_left (by omega)
      have hrange : InRange ((decimal num : ℤ) * u.factor) := ⟨by omega, by exact_mod_cast hfits⟩
      rw [tonumber_small exact hn]
      rcases scale_integer (decimal num) hdiv with hscale | rfl
      · rw [hscale, toRat_integer, wrap_eq hrange, seconds_factor hdiv, Int.cast_mul, Int.cast_natCast, Int.cast_natCast]
      · exact (Int.cast_natCast _).trans (mul_one _).symm
    · rw [tonumber_large exact (not_lt.1 hn)]
      exact toRat_scale_float _ u
  · rw [toRat_scale_div _ hdiv, toRat_tonumber]

theorem toRat_wrapped {num : Str} (u : TimeUnit) (h : ¬Fits (decimal num) u) :
    (u.scale (tonumber exact num)).toRat ≠ decimal num * u.seconds := by
  obtain ⟨hn, hlarge⟩ : decimal num < 2 ^ 63 ∧ 2 ^ 63 ≤ decimal num * u.factor := by
    simpa only [Fits, not_or, not_le, not_lt] using h
  have hfactor : u.factor ≠ 1 := by
    intro hone
    rw [hone] at hlarge
    omega
  have hdiv : u ≠ .us ∧ u ≠ .ms := by
    constructor
    · rintro rfl
      exact hfactor rfl
    · rintro rfl
      exact hfactor rfl
  have hrange : ¬InRange ((decimal num : ℤ) * u.factor) := fun hr => absurd hr.2 (not_lt.2 (by exact_mod_cast hlarge))
  rw [tonumber_small exact hn]
  rcases scale_integer (decimal num) hdiv with hscale | rfl
  · rw [hscale, toRat_integer, seconds_factor hdiv]
    intro heq
    exact wrap_ne hrange (by exact_mod_cast heq)
  · exact absurd rfl hfactor

theorem written_unique {s num unit num' unit' : Str} (h : Written s num unit) (h' : Written s num' unit') :
    num = num' ∧ unit = unit' := by
  have heq := (read_eq_some.2 h).symm.trans (read_eq_some.2 h')
  simpa using heq

end Shuttlesock.TimeString
