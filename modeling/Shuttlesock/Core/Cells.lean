/-
A memory of blocks, as C sees it. Library: nothing here is about shuttlesock.

A block is a list of bytes. A byte is one that was never written, a character, or one of the eight of a pointer to a block. A store that
does not fit into its block is none.

- `c_string`: what C takes for a string.
- `alloc`: a new block behind the others.
- `text`: the string from a place up to its null byte. `pointer_at`: the pointer whose bytes start at a place.

Results:
- `alloc_get`, `store_get`, `store_length`: what the blocks are afterwards.
- `store_past`: a store that does not fit.
- `text_string`, `pointer_at_cells`: what was written is read.
-/
import Mathlib.Tactic
import Mathlib.Data.List.TakeWhile
import Shuttlesock.Core.Buffer

namespace Shuttlesock.Cells

open Shuttlesock.Buffer

inductive Cell where
  | undefined
  | char (c : Char)
  | pointer (block : ℕ) (byte : ℕ)
deriving DecidableEq, Repr

structure Memory where
  blocks : List (List Cell)
deriving DecidableEq, Repr

/-- the eight bytes of a pointer -/
def pointer (b : ℕ) : List Cell := (List.range 8).map (Cell.pointer b)

/-- a string up to its first null byte -/
def c_string (s : List Char) : List Char := s.takeWhile (· ≠ '\x00')

/-- a string with its null byte -/
def string (s : List Char) : List Cell := (s ++ ['\x00']).map Cell.char

namespace Memory

def alloc (m : Memory) (n : ℕ) : ℕ × Memory := (m.blocks.length, ⟨m.blocks ++ [List.replicate n .undefined]⟩)

def store (m : Memory) (b i : ℕ) (xs : List Cell) : Option Memory :=
  (m.blocks[b]?).bind fun cells => (Buffer.store cells i xs).map fun cells => ⟨m.blocks.set b cells⟩

end Memory

def text : List Cell → Option (List Char)
  | .char c :: cells => if c = '\x00' then some [] else (text cells).map (c :: ·)
  | _ => none

def pointer_at (cells : List Cell) (i : ℕ) : Option ℕ :=
  match cells[i]? with
  | some (.pointer b 0) => if (cells.drop i).take 8 = pointer b then some b else none
  | _ => none

theorem not_mem_c_string (s : List Char) : '\x00' ∉ c_string s := by
  intro h
  simpa using List.mem_takeWhile_imp h

/-- a string without a null byte -/
theorem c_string_eq {s : List Char} (h : '\x00' ∉ s) : c_string s = s := by
  rw [c_string, List.takeWhile_eq_self_iff]
  intro c hc
  exact decide_eq_true fun hz => h (hz ▸ hc)

theorem c_string_length_le (s : List Char) : (c_string s).length ≤ s.length := (List.takeWhile_sublist _).length_le

@[simp] theorem pointer_length (b : ℕ) : (pointer b).length = 8 := by simp [pointer]

@[simp] theorem string_length (s : List Char) : (string s).length = s.length + 1 := by simp [string]

section Store

variable {m m' : Memory} {b i : ℕ} {xs cells : List Cell}

@[simp] theorem alloc_block (m : Memory) (n : ℕ) : (m.alloc n).1 = m.blocks.length := rfl

@[simp] theorem alloc_blocks (m : Memory) (n : ℕ) : (m.alloc n).2.blocks = m.blocks ++ [List.replicate n .undefined] := rfl

/-- the blocks that were there -/
theorem alloc_get (n : ℕ) (h : m.blocks[b]? = some cells) : (m.alloc n).2.blocks[b]? = some cells := by
  obtain ⟨hb, -⟩ := List.getElem?_eq_some_iff.1 h
  rw [alloc_blocks, List.getElem?_append_left hb, h]

/-- the new block -/
theorem alloc_new (m : Memory) (n : ℕ) : (m.alloc n).2.blocks[m.blocks.length]? = some (List.replicate n .undefined) := by simp

theorem exists_store (h : m.blocks[b]? = some cells) (hfit : i + xs.length ≤ cells.length) :
    m.store b i xs = some ⟨m.blocks.set b (cells.take i ++ xs ++ cells.drop (i + xs.length))⟩ := by
  simp [Memory.store, h, Buffer.store, hfit]

theorem store_past (h : m.blocks[b]? = some cells) (hpast : cells.length < i + xs.length) : m.store b i xs = none := by
  simp [Memory.store, h, Buffer.store, hpast]

end Store

/-- a string is read back, whatever follows -/
theorem text_string {s : List Char} (h : '\x00' ∉ s) (rest : List Cell) : text (string s ++ rest) = some s := by
  induction s with
  | nil => rfl
  | cons c s ih =>
    simp only [List.mem_cons, not_or] at h
    calc text (string (c :: s) ++ rest) = text (.char c :: (string s ++ rest)) := rfl
      _ = (text (string s ++ rest)).map (c :: ·) := if_neg (Ne.symm h.1)
      _ = some (c :: s) := by rw [ih h.2, Option.map_some]

theorem pointer_at_cells (b : ℕ) : pointer_at (pointer b) 0 = some b := by
  have h : (pointer b)[0]? = some (.pointer b 0) := by simp [pointer]
  have ht : ((pointer b).drop 0).take 8 = pointer b := by
    rw [List.drop_zero]
    exact List.take_of_length_le (pointer_length b).le
  rw [pointer_at, h]
  exact if_pos ht

end Shuttlesock.Cells
