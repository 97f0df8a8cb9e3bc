/-
The stack of Lua's C API, as a list from the bottom to the top. Library: nothing here is about shuttlesock.

- `settop`, `pop`, `insert`, `remove`, `fromTop`: the functions of the API; positive indices count from 1 at the bottom, `fromTop`
  takes the negative ones.
- `callee`, `arguments`, `below`: the parts of the stack when a function is called.

Results: what each of them does to the values above some others (`settop_append`, `pop_append`, `fromTop_append`,
`below_append`, ..), and the height that is left (`settop_length`).
-/
import Mathlib.Tactic

namespace Shuttlesock.LuaStack

variable {V : Type*}

/-- `lua_settop`; new places are nil -/
def settop (nil : V) (n : ℕ) (s : List V) : List V := s.take n ++ List.replicate (n - s.length) nil

/-- `lua_pop` -/
def pop (n : ℕ) (s : List V) : List V := s.take (s.length - n)

/-- `lua_insert`: the value at the top moves to the index -/
def insert (i : ℕ) (s : List V) : List V :=
  match s.getLast? with
  | none => s
  | some v => s.dropLast.insertIdx (i - 1) v

/-- `lua_remove` -/
def remove (i : ℕ) (s : List V) : List V := s.eraseIdx (i - 1)

/-- the value at the index -k -/
def fromTop (k : ℕ) (s : List V) : Option V := if k ≤ s.length then s[s.length - k]? else none

/-! ## A call -/

/-- what stays below a function and its arguments -/
def below (nargs : ℕ) (s : List V) : List V := s.take (s.length - (nargs + 1))

def callee (nargs : ℕ) (s : List V) : Option V := fromTop (nargs + 1) s

def arguments (nargs : ℕ) (s : List V) : List V := s.drop (s.length - nargs)

/-! ## Values above others -/

variable {s t : List V}

@[simp] theorem settop_length (nil : V) (n : ℕ) (s : List V) : (settop nil n s).length = n := by
  rw [settop, List.length_append, List.length_take, List.length_replicate]
  omega

/-- back to where the height was taken -/
@[simp] theorem settop_append (nil : V) (s t : List V) : settop nil s.length (s ++ t) = s := by
  rw [settop, List.take_left, List.length_append, Nat.sub_eq_zero_of_le (Nat.le_add_right _ _), List.replicate_zero, List.append_nil]

@[simp] theorem settop_self (nil : V) (s : List V) : settop nil s.length s = s := by
  simpa using settop_append nil s []

theorem pop_append (s t : List V) : pop t.length (s ++ t) = s := by
  rw [pop, List.length_append, Nat.add_sub_cancel, List.take_left]

@[simp] theorem pop_one (s : List V) (v : V) : pop 1 (s ++ [v]) = s := pop_append s [v]

theorem remove_append (s t : List V) (v : V) : remove (s.length + 1) (s ++ v :: t) = s ++ t := by
  rw [remove, Nat.add_sub_cancel, List.eraseIdx_append_of_length_le le_rfl, Nat.sub_self]
  rfl

@[simp] theorem remove_one (s : List V) (v : V) : remove 1 (v :: s) = s := rfl

theorem fromTop_append (s t : List V) (v : V) : fromTop (t.length + 1) (s ++ v :: t) = some v := by
  rw [fromTop, if_pos (by simp), List.length_append, List.length_cons, Nat.add_sub_cancel, List.getElem?_append_right le_rfl,
    Nat.sub_self]
  rfl

@[simp] theorem fromTop_one (s : List V) (v : V) : fromTop 1 (s ++ [v]) = some v := fromTop_append s [] v

theorem below_append (s t : List V) (v : V) : below t.length (s ++ v :: t) = s := by
  have h := pop_append s (v :: t)
  rwa [List.length_cons] at h

theorem callee_append (s t : List V) (v : V) : callee t.length (s ++ v :: t) = some v := fromTop_append s t v

theorem arguments_append (s t : List V) (v : V) : arguments t.length (s ++ v :: t) = t := by
  have h : s ++ v :: t = (s ++ [v]) ++ t := by rw [List.append_assoc, List.singleton_append]
  rw [arguments, h, List.length_append, Nat.add_sub_cancel, List.drop_left]

/-! ## A call with one argument -/

theorem below_one (s : List V) (f v : V) : below 1 (s ++ [f, v]) = s := below_append s [v] f

theorem callee_one (s : List V) (f v : V) : callee 1 (s ++ [f, v]) = some f := callee_append s [v] f

theorem arguments_one (s : List V) (f v : V) : arguments 1 (s ++ [f, v]) = [v] := arguments_append s [v] f

end Shuttlesock.LuaStack
