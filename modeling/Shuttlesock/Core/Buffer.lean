/-
Buffers of a fixed size, written in pieces. Library: nothing here is about shuttlesock.

- `store buf i xs`: xs is written at i, none when it does not fit into the buffer.
- `snprintf`: what C writes of a text when it is given a size, with the null byte behind it, and the number that it returns.

Results:
- `store_length`, `store_take`, `store_read`, `store_before`: what a store changes.
- `snprintf_spec`: within the buffer, the text up to the size is written, and the length of the text is returned.
-/
import Mathlib.Tactic

namespace Shuttlesock.Buffer

section Store

variable {α : Type*}

def store (buf : List α) (i : ℕ) (xs : List α) : Option (List α) :=
  if i + xs.length ≤ buf.length then some (buf.take i ++ xs ++ buf.drop (i + xs.length)) else none

variable {buf buf' xs : List α} {i : ℕ}

theorem store_eq_some : store buf i xs = some buf' ↔
    i + xs.length ≤ buf.length ∧ buf' = buf.take i ++ xs ++ buf.drop (i + xs.length) := by
  rw [store, Option.ite_none_right_eq_some, Option.some.injEq, eq_comm (a := buf')]

theorem exists_store (buf xs : List α) (h : i + xs.length ≤ buf.length) : ∃ buf', store buf i xs = some buf' := ⟨_, if_pos h⟩

theorem store_length (h : store buf i xs = some buf') : buf'.length = buf.length := by
  obtain ⟨hle, rfl⟩ := store_eq_some.1 h
  simp only [List.length_append, List.length_take, List.length_drop]
  omega

/-- the buffer up to the end of what is stored -/
theorem store_take (h : store buf i xs = some buf') : buf'.take (i + xs.length) = buf.take i ++ xs := by
  obtain ⟨hle, rfl⟩ := store_eq_some.1 h
  have hlen : (buf.take i ++ xs).length = i + xs.length := by
    rw [List.length_append, List.length_take]
    omega
  exact List.take_left' hlen

/-- what is stored is read back -/
theorem store_read (h : store buf i xs = some buf') : (buf'.drop i).take xs.length = xs := by
  have hle := (store_eq_some.1 h).1
  have hlen : (buf.take i).length = i := by
    rw [List.length_take]
    omega
  have htake : (buf'.drop i).take xs.length = (buf'.take (i + xs.length)).drop i := by
    rw [List.drop_take, Nat.add_sub_cancel_left]
  rw [htake, store_take h, List.drop_left' hlen]

/-- what is in front of it stays -/
theorem store_before {k : ℕ} (h : store buf i xs = some buf') (hk : k ≤ i) : buf'.take k = buf.take k := by
  have hle := (store_eq_some.1 h).1
  have htake : buf'.take k = (buf'.take (i + xs.length)).take k := by
    rw [List.take_take, min_eq_left (by omega)]
  have hlen : k ≤ (buf.take i).length := by
    rw [List.length_take]
    omega
  rw [htake, store_take h, List.take_append_of_le_length hlen, List.take_take, min_eq_left hk]

end Store

/-! ## `snprintf` -/

/-- a difference as a `size_t` -/
def size_t (n : ℤ) : ℕ := (n % 2 ^ 64).toNat

theorem size_t_eq {n : ℕ} (h : n < 2 ^ 64) : size_t n = n := by
  unfold size_t
  omega

/-- what is left in the buffer, and the `int` that is returned: the length of the text, or less than 0 for one that is too long -/
def snprintf (buf : List Char) (cur : ℤ) (size : ℕ) (text : List Char) : Option (List Char × ℤ) :=
  let ret : ℤ := if text.length < 2 ^ 31 then text.length else -1
  if size = 0 then some (buf, ret)
  else if cur < 0 then none
  else (store buf cur.toNat (text.take (size - 1) ++ ['\x00'])).map fun buf => (buf, ret)

theorem snprintf_spec {buf : List Char} {cur size : ℕ} (text : List Char) (hsize : 0 < size) (hfit : cur + size ≤ buf.length) :
    ∃ rest, snprintf buf cur size text = some (buf.take cur ++ text.take (size - 1) ++ '\x00' :: rest,
        if text.length < 2 ^ 31 then (text.length : ℤ) else -1) ∧
      (buf.take cur ++ text.take (size - 1) ++ '\x00' :: rest).length = buf.length := by
  have hlen : (text.take (size - 1) ++ ['\x00']).length = (text.take (size - 1)).length + 1 := List.length_append
  have hle : (text.take (size - 1)).length ≤ size - 1 := List.length_take_le _ _
  obtain ⟨buf', hstore⟩ := exists_store (i := cur) buf (text.take (size - 1) ++ ['\x00']) (by omega)
  obtain ⟨-, hbuf'⟩ := store_eq_some.1 hstore
  rw [← List.append_assoc, List.append_assoc _ ['\x00'], List.singleton_append] at hbuf'
  refine ⟨_, ?_, (congrArg List.length hbuf').symm.trans (store_length hstore)⟩
  unfold snprintf
  rw [if_neg hsize.ne', if_neg (by omega), Int.toNat_natCast, hstore, hbuf']
  rfl

end Shuttlesock.Buffer
