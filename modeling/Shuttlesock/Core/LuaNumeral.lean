/-
Numerals of Lua (`tonumber` of a string). Library: nothing here is about shuttlesock.

A numeral is a sign, decimal or hexadecimal digits with a point, and an exponent, with white space around it. Without point and exponent
it is an integer: a hexadecimal one wraps, and a decimal one that is out of range is read as a float. A float is the double that is
nearest to the number.
- `Numeral`: its parts, `Numeral.value`: the number that is written.
- `parse`: the parts of a text.
- `binary64`: the arithmetic of doubles.

Results:
- `parse_digits`, `parse_point`, `parse_points`, `parse_run_some`: the numerals of digits and points.
- `floor_ofRat`: the integer below the double of a rational.
- `tonumber_digits`: digits are read as in `LuaNumber.tonumber`.
-/
import Mathlib.Tactic
import Shuttlesock.Core.Double
import Shuttlesock.Core.LuaMatch
import Shuttlesock.Core.LuaNumber

namespace Shuttlesock.LuaNumeral

open Shuttlesock.Double Shuttlesock.LuaNumber
open Shuttlesock.LuaMatch

abbrev Str := List Char

/-! ## The arithmetic of doubles -/

def binary64 : Floats where
  F := Binary64
  ofRat := Binary64.ofRat
  add := Binary64.add
  mul := Binary64.mul
  div := Binary64.div
  floor x := x.floor.bind integer_of

/-- one that is too large is no integer either -/
theorem floor_ofRat (q : ℚ) : binary64.floor (binary64.ofRat q) = integer_of ⌊rd q⌋ := by
  show (Binary64.ofRat q).floor.bind integer_of = _
  by_cases h : |rd q| < 2 ^ 1024
  · rw [Binary64.ofRat_finite h]
    rfl
  · rw [Binary64.ofRat_inf h]
    have hrange : ¬InRange ⌊rd q⌋ := by
      rintro ⟨hlow, hhigh⟩
      apply h
      have hlow' : (-2 ^ 63 : ℚ) ≤ rd q := by exact_mod_cast Int.le_floor.1 hlow
      have hhigh' : rd q < 2 ^ 63 := by exact_mod_cast Int.floor_lt.1 hhigh
      have hpow : (2 : ℚ) ^ 63 < 2 ^ 1024 := pow_lt_pow_right₀ (by norm_num) (by norm_num)
      rw [abs_lt]
      exact ⟨(neg_lt_neg hpow).trans_le hlow', hhigh'.trans hpow⟩
    exact (if_neg hrange).symm

/-! ## Numerals -/

structure Numeral where
  neg : Bool
  hex : Bool
  whole : Str
  /-- the digits behind the point -/
  frac : Option Str
  exp : Option ℤ
deriving DecidableEq, Repr

def isxdigit (c : Char) : Bool := c.isDigit || ('a' ≤ c && c ≤ 'f') || ('A' ≤ c && c ≤ 'F')

/-- `luaO_hexavalue` -/
def hexavalue (c : Char) : ℕ := if c.isDigit then c.toNat - '0'.toNat else c.toLower.toNat - 'a'.toNat + 10

def hexadecimal (num : Str) : ℕ := num.foldl (fun n c => 16 * n + hexavalue c) 0

namespace Numeral

def digits (num : Numeral) (ds : Str) : ℕ := if num.hex then hexadecimal ds else decimal ds

/-- without point and exponent -/
def Plain (num : Numeral) : Prop := num.frac = none ∧ num.exp = none

instance (num : Numeral) : Decidable num.Plain := inferInstanceAs (Decidable (_ ∧ _))

/-- the integer of the digits, with the sign -/
def integer (num : Numeral) : ℤ :=
  if num.neg then -(num.digits (num.whole ++ num.frac.getD [])) else num.digits (num.whole ++ num.frac.getD [])

/-- the number that is written -/
def value (num : Numeral) : ℚ :=
  num.integer / (if num.hex then 16 else 10) ^ (num.frac.getD []).length * (if num.hex then 2 else 10) ^ num.exp.getD 0

/-- `l_str2int`, and `l_str2d` when it does not accept the numeral -/
def number (A : Floats) (num : Numeral) : Number A :=
  if num.Plain ∧ num.hex then .integer (wrap num.integer)
  else if num.Plain ∧ InRange num.integer then .integer num.integer
  else .float (A.ofRat num.value)

end Numeral

/-- `isneg`, which skips a sign -/
def sign : Str → Bool × Str
  | '-' :: t => (true, t)
  | '+' :: t => (false, t)
  | s => (false, s)

def hex_start : Str → Bool × Str
  | '0' :: 'x' :: t => (true, t)
  | '0' :: 'X' :: t => (true, t)
  | s => (false, s)

def point (p : Char → Bool) : Str → Option Str × Str
  | '.' :: t => (some (t.takeWhile p), t.dropWhile p)
  | s => (none, s)

/-- an exponent needs a digit -/
def exponent (hex : Bool) : Str → Option ℤ × Str
  | [] => (none, [])
  | c :: t =>
    let ds := (sign t).2.takeWhile Char.isDigit
    if c.toLower = (if hex then 'p' else 'e') ∧ ds ≠ [] then
      (some (if (sign t).1 then -(decimal ds : ℤ) else decimal ds), (sign t).2.dropWhile Char.isDigit)
    else (none, c :: t)

def parse (s : Str) : Option Numeral :=
  let (neg, s) := sign (s.dropWhile isspace)
  let (hex, s) := hex_start s
  let digit := if hex then isxdigit else Char.isDigit
  let whole := s.takeWhile digit
  let (frac, s) := point digit (s.dropWhile digit)
  let (exp, s) := exponent hex s
  if whole ++ frac.getD [] ≠ [] ∧ s.all isspace then some ⟨neg, hex, whole, frac, exp⟩ else none

/-- `tonumber` of a string -/
def tonumber (A : Floats) (s : Str) : Option (Number A) := (parse s).map (Numeral.number A)

/-! ## Digits and points -/

section Run

/-- a digit or a point -/
def isrun (c : Char) : Bool := c.isDigit || c == '.'

variable {s w f : Str} {c : Char}

theorem run_cases (h : isrun c = true) : c.isDigit = true ∨ c = '.' := by
  simpa [isrun] using h

theorem run_not_space (h : isrun c = true) : isspace c = false := by
  rcases run_cases h with h | rfl
  · exact alphanum_not_space (digit_alphanum h)
  · rfl

theorem run_ne (h : isrun c = true) {d : Char} (hd : isrun d = false) : c ≠ d := by
  rintro rfl
  simp [h] at hd

theorem sign_run (hs : ∀ c ∈ s, isrun c = true) : sign s = (false, s) := by
  unfold sign
  split
  · exact absurd rfl (run_ne (hs _ List.mem_cons_self) (by decide))
  · exact absurd rfl (run_ne (hs _ List.mem_cons_self) (by decide))
  · rfl

theorem hex_start_run (hs : ∀ c ∈ s, isrun c = true) : hex_start s = (false, s) := by
  unfold hex_start
  split
  · exact absurd rfl (run_ne (hs _ (List.mem_cons_of_mem _ List.mem_cons_self)) (by decide))
  · exact absurd rfl (run_ne (hs _ (List.mem_cons_of_mem _ List.mem_cons_self)) (by decide))
  · rfl

theorem digit_toLower (h : c.isDigit = true) : c.toLower = c := by
  unfold Char.toLower
  rw [dif_neg]
  intro hup
  simp only [Char.isDigit, Bool.and_eq_true, decide_eq_true_eq] at h
  exact absurd (UInt32.le_trans hup.1 h.2) (by decide)

theorem exponent_run (hs : ∀ c ∈ s, isrun c = true) : exponent false s = (none, s) := by
  cases s with
  | nil => rfl
  | cons c t =>
    have hc : c.toLower ≠ 'e' := by
      intro he
      rcases run_cases (hs c List.mem_cons_self) with h | rfl
      · rw [digit_toLower h] at he
        subst he
        exact absurd h (by decide)
      · exact absurd he (by decide)
    simp [exponent, hc]

theorem parse_run (hs : ∀ c ∈ s, isrun c = true) : parse s =
    if s.takeWhile Char.isDigit ++ (point Char.isDigit (s.dropWhile Char.isDigit)).1.getD [] ≠ [] ∧
      (point Char.isDigit (s.dropWhile Char.isDigit)).2 = []
    then some ⟨false, false, s.takeWhile Char.isDigit, (point Char.isDigit (s.dropWhile Char.isDigit)).1, none⟩ else none := by
  have hstrip : s.dropWhile isspace = s := by
    cases s with
    | nil => rfl
    | cons c t => simp [run_not_space (hs c List.mem_cons_self)]
  have hdrop : ∀ c ∈ s.dropWhile Char.isDigit, isrun c = true := fun c hc => hs c ((List.dropWhile_sublist _).subset hc)
  have hrest : ∀ c ∈ (point Char.isDigit (s.dropWhile Char.isDigit)).2, isrun c = true := by
    unfold point
    split
    · rename_i t ht
      intro c hc
      exact hdrop c (ht ▸ List.mem_cons_of_mem _ ((List.dropWhile_sublist _).subset hc))
    · exact hdrop
  have hspaces : (point Char.isDigit (s.dropWhile Char.isDigit)).2.all isspace = true ↔
      (point Char.isDigit (s.dropWhile Char.isDigit)).2 = [] := by
    generalize (point Char.isDigit (s.dropWhile Char.isDigit)).2 = r at hrest
    cases r with
    | nil => simp
    | cons c t => simp [run_not_space (hrest c List.mem_cons_self)]
  unfold parse
  simp only [hstrip, sign_run hs, hex_start_run hs, exponent_run hrest, hspaces, Bool.false_eq_true, if_false]

theorem digits_run (hw : ∀ c ∈ w, c.isDigit = true) : ∀ c ∈ w, isrun c = true := fun c hc => by simp [isrun, hw c hc]

/-- digits -/
theorem parse_digits (hne : w ≠ []) (hw : ∀ c ∈ w, c.isDigit = true) : parse w = some ⟨false, false, w, none, none⟩ := by
  have htake : w.takeWhile Char.isDigit = w := by simpa using takeWhile_run (t := []) hw (by simp)
  have hdrop : w.dropWhile Char.isDigit = [] := by simpa using dropWhile_run (t := []) hw (by simp)
  rw [parse_run (digits_run hw), htake, hdrop]
  simp [point, hne]

/-- digits with a point -/
theorem parse_point (hw : ∀ c ∈ w, c.isDigit = true) (hf : ∀ c ∈ f, c.isDigit = true) (hne : w ++ f ≠ []) :
    parse (w ++ '.' :: f) = some ⟨false, false, w, some f, none⟩ := by
  have hrun : ∀ c ∈ w ++ '.' :: f, isrun c = true := by
    intro c hc
    rcases List.mem_append.1 hc with hc | hc
    · exact digits_run hw c hc
    · rcases List.mem_cons.1 hc with rfl | hc
      · rfl
      · exact digits_run hf c hc
  have htake : (w ++ '.' :: f).takeWhile Char.isDigit = w := takeWhile_run hw (by simp)
  have hdrop : (w ++ '.' :: f).dropWhile Char.isDigit = '.' :: f := dropWhile_run hw (by simp)
  have htake' : f.takeWhile Char.isDigit = f := by simpa using takeWhile_run (t := []) hf (by simp)
  have hdrop' : f.dropWhile Char.isDigit = [] := by simpa using dropWhile_run (t := []) hf (by simp)
  rw [parse_run hrun, htake, hdrop]
  simp only [point, htake', hdrop', Option.getD_some]
  rw [if_pos ⟨hne, trivial⟩]

/-- two points -/
theorem parse_points {t : Str} (hw : ∀ c ∈ w, c.isDigit = true) (hf : ∀ c ∈ f, c.isDigit = true) (ht : ∀ c ∈ t, isrun c = true) :
    parse (w ++ '.' :: (f ++ '.' :: t)) = none := by
  have hrun : ∀ c ∈ w ++ '.' :: (f ++ '.' :: t), isrun c = true := by
    intro c hc
    simp only [List.mem_append, List.mem_cons] at hc
    rcases hc with hc | rfl | hc | rfl | hc
    · exact digits_run hw c hc
    · rfl
    · exact digits_run hf c hc
    · rfl
    · exact ht c hc
  have hdrop : (w ++ '.' :: (f ++ '.' :: t)).dropWhile Char.isDigit = '.' :: (f ++ '.' :: t) := dropWhile_run hw (by simp)
  have hdrop' : (f ++ '.' :: t).dropWhile Char.isDigit = '.' :: t := dropWhile_run hf (by simp)
  rw [parse_run hrun, hdrop]
  simp only [point, hdrop']
  exact if_neg fun h => List.cons_ne_nil _ _ h.2

/-- the numerals of digits and points -/
theorem parse_run_some {num : Numeral} (hs : ∀ c ∈ s, isrun c = true) (h : parse s = some num) :
    (s ≠ [] ∧ (∀ c ∈ s, c.isDigit = true) ∧ num = ⟨false, false, s, none, none⟩) ∨
      ∃ w f, s = w ++ '.' :: f ∧ (∀ c ∈ w, c.isDigit = true) ∧ (∀ c ∈ f, c.isDigit = true) ∧ w ++ f ≠ [] ∧
        num = ⟨false, false, w, some f, none⟩ := by
  have hsplit : s.takeWhile Char.isDigit ++ s.dropWhile Char.isDigit = s := List.takeWhile_append_dropWhile
  have hw : ∀ c ∈ s.takeWhile Char.isDigit, c.isDigit = true := fun c hc => List.mem_takeWhile_imp hc
  rw [parse_run hs] at h
  cases hd : s.dropWhile Char.isDigit with
  | nil =>
    left
    rw [hd, List.append_nil] at hsplit
    rw [hd, hsplit] at h
    rw [hsplit] at hw
    split_ifs at h with hok
    refine ⟨by simpa [point] using hok.1, hw, ?_⟩
    exact (Option.some.inj h).symm
  | cons c t =>
    right
    have hc : c.isDigit = false := by
      have := List.head?_dropWhile_not Char.isDigit s
      rw [hd] at this
      simpa using this
    have hrun : isrun c = true := hs c ((List.dropWhile_sublist _).subset (hd ▸ List.mem_cons_self))
    obtain rfl : c = '.' := (run_cases hrun).resolve_left (by simp [hc])
    rw [hd] at h hsplit
    simp only [point, Option.getD_some] at h
    split_ifs at h with hok
    have hf : ∀ c ∈ t, c.isDigit = true := List.dropWhile_eq_nil_iff.1 hok.2
    have htake : t.takeWhile Char.isDigit = t := by
      have := List.takeWhile_append_dropWhile (p := Char.isDigit) (l := t)
      rwa [hok.2, List.append_nil] at this
    rw [htake] at hok h
    exact ⟨_, t, hsplit.symm, hw, hf, hok.1, (Option.some.inj h).symm⟩

theorem number_hex (A : Floats) {num : Numeral} (h : num.Plain) (hhex : num.hex = true) : num.number A = .integer (wrap num.integer) :=
  if_pos ⟨h, hhex⟩

theorem number_decimal (A : Floats) {num : Numeral} (h : num.Plain) (hhex : num.hex = false) (hrange : InRange num.integer) :
    num.number A = .integer num.integer := by
  rw [Numeral.number, if_neg (by simp [hhex]), if_pos ⟨h, hrange⟩]

/-- with a point or an exponent, or out of range -/
theorem number_float (A : Floats) {num : Numeral} (h : num.Plain → num.hex = false ∧ ¬InRange num.integer) :
    num.number A = .float (A.ofRat num.value) := by
  rw [Numeral.number, if_neg fun hh => by simp [(h hh.1).1] at hh, if_neg fun hh => (h hh.1).2 hh.2]

theorem value_plain {num : Numeral} (h : num.Plain) : num.value = num.integer := by
  simp [Numeral.value, h.1, h.2]

theorem integer_digits (w : Str) : (⟨false, false, w, none, none⟩ : Numeral).integer = decimal w := by
  simp [Numeral.integer, Numeral.digits]

theorem value_digits (w : Str) : (⟨false, false, w, none, none⟩ : Numeral).value = decimal w := by
  rw [value_plain ⟨rfl, rfl⟩, integer_digits, Int.cast_natCast]

theorem value_point (w f : Str) : (⟨false, false, w, some f, none⟩ : Numeral).value = decimal (w ++ f) / 10 ^ f.length := by
  simp [Numeral.value, Numeral.integer, Numeral.digits]

theorem number_digits (A : Floats) (w : Str) : (⟨false, false, w, none, none⟩ : Numeral).number A = LuaNumber.tonumber A w := by
  have hint := integer_digits w
  rcases lt_or_ge (decimal w) (2 ^ 63) with h | h
  · have hrange : InRange (decimal w : ℤ) := ⟨by omega, by omega⟩
    rw [number_decimal A ⟨rfl, rfl⟩ rfl (hint ▸ hrange), hint, tonumber_small A h]
  · have hrange : ¬InRange (decimal w : ℤ) := fun hr => absurd hr.2 (by omega)
    rw [number_float A fun _ => ⟨rfl, hint ▸ hrange⟩, value_digits, tonumber_large A h]

theorem tonumber_digits (A : Floats) (hne : w ≠ []) (hw : ∀ c ∈ w, c.isDigit = true) :
    tonumber A w = some (LuaNumber.tonumber A w) := by
  rw [tonumber, parse_digits hne hw, Option.map_some, number_digits]

end Run

end Shuttlesock.LuaNumeral
