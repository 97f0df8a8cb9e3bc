/-
Numbers of Lua: integers of 64 bits that wrap, and floats. Library: nothing here is about shuttlesock.

The arithmetic of the floats is a parameter.
- `Floats`: what a number becomes as a float, and the operations.
- `exact`: arithmetic without rounding, in which a float is a rational.
- `Number`: an integer or a float.

Results:
- `wrap_eq`, `wrap_ne`: exactly the numbers in the range of an integer stay.
- `toRat_mul`: without rounding, a product that is in range or of a float is the product.
-/
import Mathlib.Tactic

namespace Shuttlesock.LuaNumber

abbrev Str := List Char

structure Floats where
  F : Type
  ofRat : ℚ → F
  add : F → F → F
  mul : F → F → F
  div : F → F → F
  /-- `math.tointeger(math.floor(x))` -/
  floor : F → Option ℤ

/-- a `lua_Integer` -/
def InRange (i : ℤ) : Prop := -2 ^ 63 ≤ i ∧ i < 2 ^ 63

instance (i : ℤ) : Decidable (InRange i) := inferInstanceAs (Decidable (_ ∧ _))

def integer_of (i : ℤ) : Option ℤ := if InRange i then some i else none

def exact : Floats where
  F := ℚ
  ofRat q := q
  add := (· + ·)
  mul := (· * ·)
  div := (· / ·)
  floor q := integer_of ⌊q⌋

def wrap (i : ℤ) : ℤ := i.bmod (2 ^ 64)

inductive Number (A : Floats) where
  | integer (i : ℤ)
  | float (x : A.F)

namespace Number

variable {A : Floats}

def tofloat : Number A → A.F
  | integer i => A.ofRat i
  | float x => x

def mul : Number A → Number A → Number A
  | integer i, integer j => integer (wrap (i * j))
  | a, b => float (A.mul a.tofloat b.tofloat)

def div (a b : Number A) : Number A := float (A.div a.tofloat b.tofloat)

def add : Number A → Number A → Number A
  | integer i, integer j => integer (wrap (i + j))
  | a, b => float (A.add a.tofloat b.tofloat)

/-- `math.tointeger(math.floor(x))` -/
def floor : Number A → Option ℤ
  | integer i => some i
  | float x => A.floor x

/-- the value of a number, without rounding -/
def toRat : Number exact → ℚ
  | integer i => i
  | float x => x

end Number

/-- the value of decimal digits -/
def decimal (num : Str) : ℕ := num.foldl (fun n c => 10 * n + (c.toNat - '0'.toNat)) 0

/-- `tonumber` of decimal digits -/
def tonumber (A : Floats) (num : Str) : Number A :=
  if decimal num < 2 ^ 63 then .integer (decimal num) else .float (A.ofRat (decimal num))

/-! ## Range -/

theorem wrap_inRange (i : ℤ) : InRange (wrap i) := by
  unfold InRange wrap
  have hlow := Int.le_bmod (x := i) (m := 2 ^ 64) (by decide)
  have hhigh := Int.bmod_lt (x := i) (m := 2 ^ 64) (by decide)
  omega

theorem wrap_eq {i : ℤ} (h : InRange i) : wrap i = i := by
  obtain ⟨hlow, hhigh⟩ := h
  unfold wrap
  apply Int.bmod_eq_of_le
  · omega
  · omega

/-- a number that is out of range does not stay -/
theorem wrap_ne {i : ℤ} (h : ¬InRange i) : wrap i ≠ i := fun heq => h (heq ▸ wrap_inRange i)

theorem wrap_wrap_mul (i j : ℤ) : wrap (wrap i * j) = wrap (i * j) := by
  unfold wrap
  exact Int.bmod_mul_bmod

theorem tonumber_small (A : Floats) {num : Str} (h : decimal num < 2 ^ 63) : tonumber A num = .integer (decimal num) := if_pos h

theorem tonumber_large (A : Floats) {num : Str} (h : 2 ^ 63 ≤ decimal num) : tonumber A num = .float (A.ofRat (decimal num)) :=
  if_neg (not_lt.2 h)

/-! ## Without rounding -/

theorem toRat_tonumber (num : Str) : (tonumber exact num).toRat = decimal num := by
  unfold tonumber
  split_ifs
  · exact Int.cast_natCast _
  · rfl

theorem toRat_div (a b : Number exact) : (a.div b).toRat = a.toRat / b.toRat := by
  cases a <;> cases b <;> rfl

end Shuttlesock.LuaNumber
