/-
Patterns of Lua (`string.match`). Library: nothing here is about shuttlesock.

A pattern is compiled to a list of items, and these are matched with backtracking, the longest repetition first. This is the part of the
language with single characters, `.`, `%d`, `%l`, `%u`, `%` before a character that is no letter or digit, sets (no ranges), the
suffixes `*` and `+`, captures that do not overlap, `^` and `$`.
- `run`: the captures, and what is left of the subject.
- `Derives`: the ways to match, without the order in which they are tried.

Results:
- `run_sound`, `run_complete`: a match is one of the ways, and there is a match if there is a way.
- `run_eq_some`, `run_isSome`, `run_eq_none`: the rules by which a pattern is reasoned about.
-/
import Mathlib.Tactic
import Mathlib.Data.List.TakeWhile

namespace Shuttlesock.LuaPattern

abbrev Str := List Char

inductive Item where
  | one (p : Char → Bool)
  | star (p : Char → Bool)
  | plus (p : Char → Bool)
  /-- a capture starts -/
  | opn
  /-- and ends -/
  | cls
  /-- the end of the subject -/
  | eos

/-! ## The syntax -/

/-- the class `%c` -/
def class_of (c : Char) : Option (Char → Bool) :=
  if c = 'd' then some Char.isDigit
  else if c = 'l' then some Char.isLower
  else if c = 'u' then some Char.isUpper
  else if c.isAlphanum then none
  else some fun x => x = c

/-- the members of a set, up to its end -/
def members : Str → Option ((Char → Bool) × Str)
  | [] => none
  | ']' :: rest => some (fun _ => false, rest)
  | '%' :: c :: rest =>
    match class_of c, members rest with
    | some p, some (q, rest) => some (fun x => p x || q x, rest)
    | _, _ => none
  | c :: rest =>
    match members rest with
    | some (q, rest) => some (fun x => x = c || q x, rest)
    | none => none

/-- a single character of the pattern -/
def single : Str → Option ((Char → Bool) × Str)
  | [] => none
  | '.' :: rest => some (fun _ => true, rest)
  | '%' :: c :: rest => (class_of c).map fun p => (p, rest)
  | '[' :: rest => members rest
  | c :: rest => some (fun x => x = c, rest)

/-- n is at least the length of the pattern -/
def items : ℕ → Str → Option (List Item)
  | _, [] => some []
  | 0, _ => none
  | n + 1, c :: rest =>
    if c = '$' ∧ rest = [] then some [.eos]
    else if c = '(' then (items n rest).map (.opn :: ·)
    else if c = ')' then (items n rest).map (.cls :: ·)
    else
      match single (c :: rest) with
      | none => none
      | some (p, '*' :: rest) => (items n rest).map (.star p :: ·)
      | some (p, '+' :: rest) => (items n rest).map (.plus p :: ·)
      | some (p, rest) => (items n rest).map (.one p :: ·)

/-! ## The match -/

/-- the first success from k down to 0 -/
def longest {α : Type*} (f : ℕ → Option α) : ℕ → Option α
  | 0 => f 0
  | k + 1 => (f (k + 1)).or (longest f k)

/-- start is the subject from the start of the open capture on -/
def run : List Item → Option Str → Str → Option (List Str × Str)
  | [], _, s => some ([], s)
  | .opn :: is, _, s => run is (some s) s
  | .cls :: is, start, s =>
    (run is none s).map fun r => ((start.getD s).take ((start.getD s).length - s.length) :: r.1, r.2)
  | .eos :: is, start, s => if s = [] then run is start s else none
  | .one p :: is, start, s =>
    match s with
    | [] => none
    | c :: t => if p c then run is start t else none
  | .star p :: is, start, s => longest (fun k => run is start (s.drop k)) (s.takeWhile p).length
  | .plus p :: is, start, s =>
    match s with
    | [] => none
    | c :: t => if p c then longest (fun k => run is start (t.drop k)) (t.takeWhile p).length else none

/-- the captures, or all that matches without one -/
def captures (s : Str) (r : List Str × Str) : List Str := if r.1 = [] then [s.take (s.length - r.2.length)] else r.1

/-- `string.match`; a pattern that has no items matches nothing -/
def str_match (s pattern : Str) : Option (List Str) :=
  match pattern with
  | '^' :: pattern => (items pattern.length pattern).bind fun is => (run is none s).map (captures s)
  | pattern => (items pattern.length pattern).bind fun is => s.tails.findSome? fun t => (run is none t).map (captures t)

/-! ## The ways to match -/

inductive Derives : List Item → Option Str → Str → List Str → Str → Prop where
  | nil (start : Option Str) (s : Str) : Derives [] start s [] s
  | opn {is : List Item} {s r : Str} {caps : List Str} (start : Option Str) (h : Derives is (some s) s caps r) :
      Derives (.opn :: is) start s caps r
  | cls {is : List Item} {s r : Str} {caps : List Str} (start : Option Str) (h : Derives is none s caps r) :
      Derives (.cls :: is) start s ((start.getD s).take ((start.getD s).length - s.length) :: caps) r
  | eos {is : List Item} {start : Option Str} {r : Str} {caps : List Str} (h : Derives is start [] caps r) :
      Derives (.eos :: is) start [] caps r
  | one {p : Char → Bool} {is : List Item} {start : Option Str} {c : Char} {s r : Str} {caps : List Str} (hc : p c = true)
      (h : Derives is start s caps r) : Derives (.one p :: is) start (c :: s) caps r
  | star {p : Char → Bool} {is : List Item} {start : Option Str} {a s r : Str} {caps : List Str} (ha : ∀ c ∈ a, p c = true)
      (h : Derives is start s caps r) : Derives (.star p :: is) start (a ++ s) caps r
  | plus {p : Char → Bool} {is : List Item} {start : Option Str} {a s r : Str} {caps : List Str} (hne : a ≠ [])
      (ha : ∀ c ∈ a, p c = true) (h : Derives is start s caps r) : Derives (.plus p :: is) start (a ++ s) caps r

section Longest

variable {α : Type*} {f : ℕ → Option α} {n : ℕ}

theorem longest_some {a : α} (h : longest f n = some a) : ∃ k ≤ n, f k = some a := by
  induction n with
  | zero => exact ⟨0, le_rfl, h⟩
  | succ n ih =>
    rw [longest, Option.or_eq_some_iff] at h
    rcases h with h | ⟨-, h⟩
    · exact ⟨n + 1, le_rfl, h⟩
    · obtain ⟨k, hk, hf⟩ := ih h
      exact ⟨k, hk.trans n.le_succ, hf⟩

/-- the longest repetition succeeds -/
theorem longest_eq {a : α} (h : f n = some a) : longest f n = some a := by
  cases n with
  | zero => exact h
  | succ n => rw [longest, h, Option.some_or]

theorem longest_isSome {k : ℕ} (hk : k ≤ n) (h : (f k).isSome = true) : (longest f n).isSome = true := by
  induction n with
  | zero =>
    obtain rfl : k = 0 := Nat.le_zero.1 hk
    exact h
  | succ n ih =>
    rw [longest, Option.isSome_or, Bool.or_eq_true]
    rcases Nat.le_succ_iff.1 hk with hk | rfl
    · exact .inr (ih hk)
    · exact .inl h

end Longest

/-- a part of the longest repetition is one -/
theorem take_repeats {p : Char → Bool} {s : Str} {k : ℕ} (hk : k ≤ (s.takeWhile p).length) : ∀ c ∈ s.take k, p c = true := by
  intro c hc
  have hsub : s.take k <+: s.takeWhile p := List.prefix_of_prefix_length_le (List.take_prefix k s) (List.takeWhile_prefix p) (by
    rw [List.length_take]
    omega)
  exact List.mem_takeWhile_imp (hsub.subset hc)

theorem length_le_takeWhile {p : Char → Bool} {a : Str} (ha : ∀ c ∈ a, p c = true) (s : Str) :
    a.length ≤ ((a ++ s).takeWhile p).length := by
  rw [List.takeWhile_append_of_pos ha, List.length_append]
  omega

theorem run_one (p : Char → Bool) (is : List Item) (start : Option Str) (c : Char) (t : Str) :
    run (.one p :: is) start (c :: t) = if p c then run is start t else none := rfl

theorem run_plus (p : Char → Bool) (is : List Item) (start : Option Str) (c : Char) (t : Str) :
    run (.plus p :: is) start (c :: t) =
      if p c then longest (fun k => run is start (t.drop k)) (t.takeWhile p).length else none := rfl

/-- **A match** is one of the ways. -/
theorem run_sound {is : List Item} {start : Option Str} {s r : Str} {caps : List Str} (h : run is start s = some (caps, r)) :
    Derives is start s caps r := by
  induction is generalizing start s caps with
  | nil =>
    cases h
    exact .nil _ _
  | cons i is ih =>
    cases i with
    | opn => exact .opn start (ih h)
    | cls =>
      obtain ⟨⟨caps', r'⟩, hrun, heq⟩ := Option.map_eq_some_iff.1 h
      cases heq
      exact .cls start (ih hrun)
    | eos =>
      rw [run] at h
      split_ifs at h with hs
      subst hs
      exact .eos (ih h)
    | one p =>
      cases s with
      | nil => cases h
      | cons c t =>
        rw [run_one] at h
        split_ifs at h with hc
        exact .one hc (ih h)
    | star p =>
      obtain ⟨k, hk, hrun⟩ := longest_some h
      rw [← List.take_append_drop k s]
      exact .star (take_repeats hk) (ih hrun)
    | plus p =>
      cases s with
      | nil => cases h
      | cons c t =>
        rw [run_plus] at h
        split_ifs at h with hc
        obtain ⟨k, hk, hrun⟩ := longest_some h
        have hway := Derives.plus (a := c :: t.take k) (by simp) (List.forall_mem_cons.2 ⟨hc, take_repeats hk⟩) (ih hrun)
        rwa [List.cons_append, List.take_append_drop] at hway

/-- **Where there is a way**, there is a match. -/
theorem run_complete {is : List Item} {start : Option Str} {s r : Str} {caps : List Str} (h : Derives is start s caps r) :
    (run is start s).isSome = true := by
  induction h with
  | nil => rfl
  | opn start h ih => exact ih
  | cls start h ih => simpa [run] using ih
  | eos h ih => simpa [run] using ih
  | one hc h ih =>
    rw [run_one, if_pos hc]
    exact ih
  | @star p is start a s r caps ha h ih =>
    refine longest_isSome (length_le_takeWhile ha s) ?_
    rw [List.drop_left]
    exact ih
  | @plus p is start a s r caps hne ha h ih =>
    obtain ⟨c, a, rfl⟩ := List.exists_cons_of_ne_nil hne
    obtain ⟨hc, ha⟩ := List.forall_mem_cons.1 ha
    rw [List.cons_append, run_plus, if_pos hc]
    refine longest_isSome (length_le_takeWhile ha s) ?_
    rw [List.drop_left]
    exact ih

/-! ## Rules -/

section Rules

variable {p : Char → Bool} {is : List Item} {start : Option Str} {s r : Str} {caps : List Str}

theorem run_isSome : (run is start s).isSome = true ↔ ∃ caps r, Derives is start s caps r := by
  constructor
  · intro h
    obtain ⟨⟨caps, r⟩, hrun⟩ := Option.isSome_iff_exists.1 h
    exact ⟨caps, r, run_sound hrun⟩
  · rintro ⟨caps, r, h⟩
    exact run_complete h

theorem run_eq_none : run is start s = none ↔ ∀ caps r, ¬Derives is start s caps r := by
  simp only [← Option.not_isSome_iff_eq_none, run_isSome, not_exists]

/-- a pattern that matches in one way -/
theorem run_eq_some (h : Derives is start s caps r) (huniq : ∀ caps' r', Derives is start s caps' r' → caps' = caps ∧ r' = r) :
    run is start s = some (caps, r) := by
  obtain ⟨⟨caps', r'⟩, hrun⟩ := Option.isSome_iff_exists.1 (run_complete h)
  obtain ⟨rfl, rfl⟩ := huniq caps' r' (run_sound hrun)
  exact hrun

@[simp] theorem derives_nil : Derives [] start s caps r ↔ caps = [] ∧ r = s := by
  constructor
  · intro h
    cases h
    exact ⟨rfl, rfl⟩
  · rintro ⟨rfl, rfl⟩
    exact .nil start r

@[simp] theorem derives_opn : Derives (.opn :: is) start s caps r ↔ Derives is (some s) s caps r := by
  constructor
  · intro h
    cases h
    assumption
  · exact .opn start

@[simp] theorem derives_cls : Derives (.cls :: is) start s caps r ↔
    ∃ caps', caps = (start.getD s).take ((start.getD s).length - s.length) :: caps' ∧ Derives is none s caps' r := by
  constructor
  · intro h
    cases h with
    | cls start h => exact ⟨_, rfl, h⟩
  · rintro ⟨caps', rfl, h⟩
    exact .cls start h

@[simp] theorem derives_eos : Derives (.eos :: is) start s caps r ↔ s = [] ∧ Derives is start [] caps r := by
  constructor
  · intro h
    cases h with
    | eos h => exact ⟨rfl, h⟩
  · rintro ⟨rfl, h⟩
    exact .eos h

@[simp] theorem derives_one : Derives (.one p :: is) start s caps r ↔
    ∃ c t, s = c :: t ∧ p c = true ∧ Derives is start t caps r := by
  constructor
  · intro h
    cases h with
    | one hc h => exact ⟨_, _, rfl, hc, h⟩
  · rintro ⟨c, t, rfl, hc, h⟩
    exact .one hc h

@[simp] theorem derives_star : Derives (.star p :: is) start s caps r ↔
    ∃ a t, s = a ++ t ∧ (∀ c ∈ a, p c = true) ∧ Derives is start t caps r := by
  constructor
  · intro h
    cases h with
    | star ha h => exact ⟨_, _, rfl, ha, h⟩
  · rintro ⟨a, t, rfl, ha, h⟩
    exact .star ha h

@[simp] theorem derives_plus : Derives (.plus p :: is) start s caps r ↔
    ∃ a t, s = a ++ t ∧ a ≠ [] ∧ (∀ c ∈ a, p c = true) ∧ Derives is start t caps r := by
  constructor
  · intro h
    cases h with
    | plus hne ha h => exact ⟨_, _, rfl, hne, ha, h⟩
  · rintro ⟨a, t, rfl, hne, ha, h⟩
    exact .plus hne ha h

/-- a pattern without `^` is searched for -/
theorem match_search {pattern : Str} (is : List Item) (hstart : pattern.head? ≠ some '^') (h : items pattern.length pattern = some is) :
    (str_match s pattern).isSome = true ↔ ∃ a t, s = a ++ t ∧ ∃ caps r, Derives is none t caps r := by
  have hmatch : str_match s pattern = s.tails.findSome? fun t => (run is none t).map (captures t) := by
    unfold str_match
    split
    · exact absurd rfl hstart
    · rw [h]
      rfl
  simp only [hmatch, List.findSome?_isSome_iff, Option.isSome_map, List.mem_tails, run_isSome]
  constructor
  · rintro ⟨t, ⟨a, ha⟩, hway⟩
    exact ⟨a, t, ha.symm, hway⟩
  · rintro ⟨a, t, ha, hway⟩
    exact ⟨t, ⟨a, ha.symm⟩, hway⟩

end Rules

end Shuttlesock.LuaPattern
