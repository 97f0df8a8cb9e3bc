/-
Instrings: the strings of the configuration with variables in them (`instring.c`, the conversions of `instring.lua`, and
`shuso_setting_string_matches`).

Model: an instring is its tokens, one iovec per token, the cached value of each kind with its mark, and the reference to
the cached string in the registry of a Lua state. The variables are numbered in the order of their tokens.
- eval j is what the eval function of the j-th variable answers: a value, or none for "no change to current value".
- a query returns none when an assertion fails, else whether there is a value, and what it stores for the caller (none
  inside: memory that was never written).
- `Numbers`: what the conversions use of Lua's numbers and patterns and of C's doubles.
- not in the model: the buffer head, running out of memory, and strings that are freed under a pointer the caller kept.

Results:
- `interpolateFrom_get`, `interpolateFrom_length`, `interpolateFrom_snd`: what the loop of `shuso_instring_interpolate`
  leaves in the iovecs, and when it resets the cache.
- `eq_pieces`: with the variables first, the iovecs that hold each variable at its number are the pieces of the text.
-/
import Mathlib.Tactic
import Shuttlesock.Core.Memo
import Shuttlesock.Core.Refs

namespace Shuttlesock.Instrings

open Shuttlesock

abbrev Str := List Char

/-! ## Conversions -/

inductive Kind where
  | boolean | integer | number | size | string
deriving DecidableEq, Repr

inductive Val (Num : Type*) where
  | boolean (b : Bool)
  | integer (i : ℤ)
  | number (x : Num)
  | size (n : ℕ)
  | string (s : Str)
deriving DecidableEq, Repr

structure Numbers (Num : Type*) where
  tonumber : Str → Option Num
  /-- `math.tointeger(math.floor(x))` -/
  floor : Num → Option ℤ
  /-- `math.tointeger(math.floor(x * m + 0.5))` -/
  round : Num → ℕ → Option ℤ
  /-- from a `lua_Integer` through a double to a `size_t` -/
  toSize : ℤ → ℕ
  /-- whether `string.match` finds the pattern -/
  strmatch : Str → Str → Bool

variable {Num : Type*}

def toboolean (s : Str) : Option Bool :=
  if s = "yes".toList ∨ s = "1".toList ∨ s = "true".toList ∨ s = "on".toList then some true
  else if s = "no".toList ∨ s = "0".toList ∨ s = "false".toList ∨ s = "off".toList then some false
  else none

def tointeger (P : Numbers Num) (s : Str) : Option ℤ := (P.tonumber s).bind P.floor

/-- the factor of a unit of `tosize`; the branch for other units is never left through "b" or "B" -/
def unit (s : Str) : Option ℕ :=
  if s = [] then some 1
  else if s ∈ ["k".toList, "K".toList, "kb".toList, "kB".toList, "Kb".toList, "KB".toList] then some 1024
  else if s ∈ ["m".toList, "M".toList, "mb".toList, "mB".toList, "Mb".toList, "MB".toList] then some 1048576
  else if s ∈ ["g".toList, "G".toList, "gb".toList, "gB".toList, "Gb".toList, "GB".toList] then some 1073741824
  else none

def tosize (P : Numbers Num) (s : Str) : Option ℤ :=
  let num := s.takeWhile fun c => c.isDigit || c == '.'
  let rest := s.dropWhile fun c => c.isDigit || c == '.'
  if num ≠ [] ∧ rest.all Char.isAlphanum then (P.tonumber num).bind fun x => (unit rest).bind (P.round x) else none

/-- the Lua conversion of a kind, and then the C one: an `int` keeps 32 bits -/
def Numbers.convert (P : Numbers Num) : Kind → Str → Option (Val Num)
  | .boolean, s => (toboolean s).map .boolean
  | .integer, s => (tointeger P s).map fun i => .integer (i.bmod (2 ^ 32))
  | .number, s => (P.tonumber s).map .number
  | .size, s => (tosize P s).map fun i => .size (P.toSize i)
  | .string, s => some (.string s)

/-! ## Instrings -/

/-- `shuso_instring_token_t` -/
inductive Token where
  | literal (s : Str)
  | var
deriving DecidableEq, Repr

def Token.isVariable : Token → Bool
  | .literal _ => false
  | .var => true

/-- `shuso_instring_t`; `string_lua_ref` is none for `LUA_NOREF` -/
structure Instring (Num : Type*) where
  tokens : List Token
  iov : List Str
  cached : Kind → Memo.Cell (Val Num)
  string_lua_ref : Option ℕ

/-- `variables.count` -/
def varcount (tokens : List Token) : ℕ := tokens.countP Token.isVariable

/-- the iovec of a token that was not evaluated -/
def Token.iov : Token → Str
  | .literal s => s
  | .var => []

/-- the loop of `shuso_instring_interpolate`: the iovec it stores to has the number of the variable -/
def interpolateFrom (eval : ℕ → Option Str) : ℕ → ℕ → List Str → Bool → List Str × Bool
  | _, 0, iov, reset => (iov, reset)
  | i, n + 1, iov, reset =>
    match eval i with
    | some val => interpolateFrom eval (i + 1) n (iov.set i val) true
    | none => interpolateFrom eval (i + 1) n iov reset

/-- give back the reference, take back all the marks -/
def reset (reg : Refs.Table Str) (x : Instring Num) : Refs.Table Str × Instring Num :=
  (match x.string_lua_ref with
    | some r => reg.unref r
    | none => reg,
    { x with cached := fun k => (x.cached k).forget, string_lua_ref := none })

def shuso_instring_interpolate (eval : ℕ → Option Str) (reg : Refs.Table Str) (x : Instring Num) :
    Refs.Table Str × Instring Num :=
  if varcount x.tokens = 0 then (reg, x)
  else
    let (iov, changed) := interpolateFrom eval 0 (varcount x.tokens) x.iov false
    if changed then reset reg { x with iov := iov } else (reg, { x with iov := iov })

/-- none: an iovec is too long for the assertion -/
def luaS_push_iovec_as_string (iov : List Str) : Option Str :=
  if iov.all fun s => s.length < 1000 then some iov.flatten else none

/-- what a query returns: no value, or a value and what is stored for the caller -/
inductive Ret (Num : Type*) where
  | no
  | yes (v : Option (Val Num))

def Instring.store (x : Instring Num) (k : Kind) (m : Memo.Cell (Val Num)) : Instring Num :=
  { x with cached := Function.update x.cached k m }

/-- the value functions but for the one of strings -/
def value (P : Numbers Num) (k : Kind) (eval : ℕ → Option Str) (reg : Refs.Table Str) (x : Instring Num) :
    Option (Refs.Table Str × Instring Num × Ret Num) :=
  let i := shuso_instring_interpolate eval reg x
  match (i.2.cached k).mark with
  | .valid => some (i.1, i.2, .yes (i.2.cached k).val)
  | .invalid => some (i.1, i.2, .no)
  | .unknown =>
    (luaS_push_iovec_as_string i.2.iov).bind fun s =>
      match P.convert k s with
      | none => some (i.1, i.2.store k (i.2.cached k).miss, .no)
      | some v => some (i.1, i.2.store k ⟨.valid, some v⟩, .yes (some v))

def shuso_instring_boolean_value (P : Numbers Num) := value P .boolean
def shuso_instring_integer_value (P : Numbers Num) := value P .integer
def shuso_instring_number_value (P : Numbers Num) := value P .number
def shuso_instring_size_value (P : Numbers Num) := value P .size

/-- null: the caller passes no place for the string, and then the cached string is not set -/
def shuso_instring_string_value (P : Numbers Num) (null : Bool) (eval : ℕ → Option Str) (reg : Refs.Table Str)
    (x : Instring Num) : Option (Refs.Table Str × Instring Num × Ret Num) :=
  let i := shuso_instring_interpolate eval reg x
  match (i.2.cached .string).mark with
  | .valid => some (i.1, i.2, .yes (i.2.cached .string).val)
  | .invalid => some (i.1, i.2, .no)
  | .unknown =>
    (luaS_push_iovec_as_string i.2.iov).bind fun s =>
      match P.convert .string s with
      | none => some (i.1, i.2.store .string (i.2.cached .string).miss, .no)
      | some v =>
        let val := if null then (i.2.cached .string).val else some v
        match i.2.string_lua_ref with
        | some _ => none  -- assert(string_lua_ref == LUA_NOREF)
        | none =>
          let y := i.2.store .string ⟨.valid, val⟩
          some ((i.1.ref s).1, { y with string_lua_ref := some (i.1.ref s).2 }, .yes val)

/-- the end of `shuso_setting_value` -/
def shuso_setting_value (P : Numbers Num) (k : Kind) (null : Bool) :
    (ℕ → Option Str) → Refs.Table Str → Instring Num → Option (Refs.Table Str × Instring Num × Ret Num) :=
  match k with
  | .boolean => shuso_instring_boolean_value P
  | .integer => shuso_instring_integer_value P
  | .number => shuso_instring_number_value P
  | .size => shuso_instring_size_value P
  | .string => shuso_instring_string_value P null

/-- `shuso_setting_string_matches` on its instring -/
def shuso_setting_string_matches (P : Numbers Num) (pattern : Str) (eval : ℕ → Option Str) (reg : Refs.Table Str)
    (x : Instring Num) : Option (Refs.Table Str × Instring Num × Bool) :=
  (shuso_instring_string_value P true eval reg x).bind fun r =>
    match r.2.2 with
    | .no => some (r.1, r.2.1, false)
    | .yes _ =>
      -- the two assertions: there is a reference, and it is one to a string
      (r.2.1.string_lua_ref.bind r.1.slot).bind fun s => some (r.1, r.2.1, P.strmatch s pattern)

/-- `luaS_instring_lua_to_c`; none for the assertion on literals -/
def luaS_instring_lua_to_c (P : Numbers Num) (tokens : List Token) (reg : Refs.Table Str) :
    Option (Refs.Table Str × Instring Num) :=
  let x : Instring Num := ⟨tokens, tokens.map Token.iov, fun _ => ⟨.unknown, none⟩, none⟩
  if varcount tokens = 0 then
    match tokens with
    | [.literal s] =>
      let y := x.store .string ⟨.valid, some (.string s)⟩
      let y := { y with string_lua_ref := some (reg.ref s).2 }
      (shuso_instring_boolean_value P (fun _ => none) (reg.ref s).1 y).bind fun r =>
        (shuso_instring_integer_value P (fun _ => none) r.1 r.2.1).bind fun r =>
          (shuso_instring_number_value P (fun _ => none) r.1 r.2.1).bind fun r =>
            (shuso_instring_size_value P (fun _ => none) r.1 r.2.1).map fun r => (r.1, r.2.1)
    | _ => none
  else some (reg, x)

/-- the marks, the values and the reference are copied with the struct -/
def shuso_instring_copy_for_worker (old : Instring Num) : Instring Num :=
  if varcount old.tokens = 0 then old else { old with iov := old.tokens.map Token.iov }

/-! ## The text -/

/-- what each token stands for, from the j-th variable on -/
def pieces (cur : ℕ → Str) : ℕ → List Token → List Str
  | _, [] => []
  | j, .literal s :: ts => s :: pieces cur j ts
  | j, .var :: ts => cur j :: pieces cur (j + 1) ts

/-- the concatenated text -/
def text (cur : ℕ → Str) (tokens : List Token) : Str := (pieces cur 0 tokens).flatten

/-- no variable comes after a literal -/
def varsFirst : List Token → Bool
  | [] => true
  | .literal _ :: ts => ts.all fun t => !t.isVariable
  | .var :: ts => varsFirst ts

/-- the iovecs of the literals are in place -/
structure Literals (tokens : List Token) (iov : List Str) : Prop where
  length : iov.length = tokens.length
  literal : ∀ (p : ℕ) (s : Str), tokens[p]? = some (Token.literal s) → iov[p]? = some s

@[simp] theorem varcount_literal (s : Str) (ts : List Token) : varcount (.literal s :: ts) = varcount ts :=
  List.countP_cons_of_neg (by simp [Token.isVariable])

@[simp] theorem varcount_var (ts : List Token) : varcount (.var :: ts) = varcount ts + 1 :=
  List.countP_cons_of_pos rfl

theorem varcount_eq_zero {ts : List Token} (h : (ts.all fun t => !t.isVariable) = true) : varcount ts = 0 := by
  rw [varcount, List.countP_eq_zero]
  intro t ht hv
  have := List.all_eq_true.1 h t ht
  simp [hv] at this

theorem literals_map (tokens : List Token) : Literals tokens (tokens.map Token.iov) := by
  refine ⟨List.length_map _, ?_⟩
  intro p s hp
  simp [List.getElem?_map, hp, Token.iov]

theorem Literals.tail {t : Token} {ts : List Token} {s : Str} {iov : List Str} (h : Literals (t :: ts) (s :: iov)) :
    Literals ts iov :=
  ⟨by simpa using h.length, fun p s hp => by simpa using h.literal (p + 1) s (by simpa using hp)⟩

/-- with the variables first, each at its own number -/
theorem eq_pieces {cur : ℕ → Str} {tokens : List Token} {iov : List Str} {j : ℕ}
    (hfirst : varcount tokens = 0 ∨ varsFirst tokens) (hlit : Literals tokens iov)
    (hvar : ∀ p < varcount tokens, iov[p]? = some (cur (j + p))) : iov = pieces cur j tokens := by
  induction tokens generalizing iov j with
  | nil => exact List.length_eq_zero_iff.1 hlit.length
  | cons t ts ih =>
    cases iov with
    | nil => exact absurd hlit.length (by simp)
    | cons s iov =>
      cases t with
      | literal l =>
        have hs : s = l := by simpa using hlit.literal 0 l rfl
        have hzero : varcount ts = 0 := by
          rcases hfirst with h | h
          · rwa [varcount_literal] at h
          · exact varcount_eq_zero h
        rw [pieces, hs, ← ih (.inl hzero) hlit.tail]
        intro p hp
        rw [hzero] at hp
        exact absurd hp (Nat.not_lt_zero p)
      | var =>
        have hs : s = cur j := by simpa using hvar 0 (by rw [varcount_var]; exact Nat.succ_pos _)
        have hrest : varcount ts = 0 ∨ varsFirst ts := by
          rcases hfirst with h | h
          · rw [varcount_var] at h
            exact absurd h (Nat.succ_ne_zero _)
          · exact .inr h
        rw [pieces, hs, ← ih hrest hlit.tail]
        intro p hp
        have h := hvar (p + 1) (by rw [varcount_var]; exact Nat.succ_lt_succ hp)
        rw [List.getElem?_cons_succ] at h
        rw [h, Nat.add_right_comm, Nat.add_assoc]

/-- with the variables first, a token at the number of a variable is one -/
theorem var_of_lt {tokens : List Token} {p : ℕ} (hfirst : varsFirst tokens) (hp : p < varcount tokens) :
    tokens[p]? = some .var := by
  induction tokens generalizing p with
  | nil => exact absurd hp (Nat.not_lt_zero p)
  | cons t ts ih =>
    cases t with
    | literal l =>
      rw [varcount_literal, varcount_eq_zero hfirst] at hp
      exact absurd hp (Nat.not_lt_zero p)
    | var =>
      cases p with
      | zero => rfl
      | succ p =>
        rw [varcount_var] at hp
        rw [List.getElem?_cons_succ]
        exact ih hfirst (Nat.lt_of_succ_lt_succ hp)

/-! ## The loop over the variables -/

theorem interpolateFrom_length (eval : ℕ → Option Str) (i n : ℕ) (iov : List Str) (b : Bool) :
    (interpolateFrom eval i n iov b).1.length = iov.length := by
  induction n generalizing i iov b with
  | zero => rfl
  | succ n ih =>
    rw [interpolateFrom]
    cases eval i with
    | none => exact ih _ _ _
    | some v => exact (ih _ _ _).trans List.length_set

/-- an iovec is overwritten when its number is that of a variable with a new value -/
theorem interpolateFrom_get (eval : ℕ → Option Str) (i n : ℕ) (iov : List Str) (b : Bool) (p : ℕ) (hp : p < iov.length) :
    (interpolateFrom eval i n iov b).1[p]? = if i ≤ p ∧ p < i + n then (eval p).or iov[p]? else iov[p]? := by
  induction n generalizing i iov b with
  | zero =>
    rw [if_neg fun h => absurd h.2 (Nat.not_lt.2 h.1)]
    rfl
  | succ n ih =>
    rw [interpolateFrom]
    cases hev : eval i with
    | none =>
      simp only
      rw [ih _ _ _ hp]
      grind
    | some v =>
      simp only
      rw [ih _ _ _ (by rwa [List.length_set]), List.getElem?_set]
      grind

theorem interpolateFrom_snd (eval : ℕ → Option Str) (i n : ℕ) (iov : List Str) (b : Bool) :
    (interpolateFrom eval i n iov b).2 = true ↔ b = true ∨ ∃ j, i ≤ j ∧ j < i + n ∧ (eval j).isSome := by
  induction n generalizing i iov b with
  | zero =>
    refine ⟨.inl, ?_⟩
    rintro (h | ⟨j, h1, h2, -⟩)
    · exact h
    · exact absurd h2 (Nat.not_lt.2 h1)
  | succ n ih =>
    rw [interpolateFrom]
    cases hev : eval i with
    | none =>
      simp only
      rw [ih]
      grind
    | some v =>
      simp only
      rw [ih]
      grind

theorem interpolate_tokens (eval : ℕ → Option Str) (R : Refs.Table Str) (x : Instring Num) :
    (shuso_instring_interpolate eval R x).2.tokens = x.tokens := by
  unfold shuso_instring_interpolate
  split
  · rfl
  · dsimp only
    split <;> rfl

theorem interpolate_iov (eval : ℕ → Option Str) (R : Refs.Table Str) (x : Instring Num) :
    (shuso_instring_interpolate eval R x).2.iov = (interpolateFrom eval 0 (varcount x.tokens) x.iov false).1 := by
  unfold shuso_instring_interpolate
  split
  · rename_i h
    rw [h]
    rfl
  · dsimp only
    split <;> rfl

end Shuttlesock.Instrings
