/-
Patterns of Lua by the list of their matches, in the order in which they are tried. Library: nothing here is about shuttlesock.

This is the part of the language with single characters, `.`, `%d`, `%s`, `%w`, `%` before a character that is no letter or digit, sets
with a member (no ranges), the suffixes `*`, `+` and `?`, captures that do not overlap, `^` and `$`. A pattern that ends with `%` raises,
but only when the match gets there.
- `ways`: the captures and what is left of the subject, or the error, one for each way.
- `str_match`: the first of them.

Results:
- `mem_star`, `mem_plus`, `mem_opt`, ..: the ways of an item.
- `head_star`, `head_plus`, ..: the first way is the one with the longest repetition, when it leads to a match.
- `matches_ok`, `matches_error`, `matches_none`: from the first way to the result.
- `takeWhile_run`, `dropWhile_run`: a run of one class, in front of another.
-/
import Mathlib.Tactic
import Mathlib.Data.List.TakeWhile

namespace Shuttlesock.LuaMatch

abbrev Str := List Char

inductive Item where
  | one (p : Char → Bool)
  | opt (p : Char → Bool)
  | star (p : Char → Bool)
  | plus (p : Char → Bool)
  /-- a capture starts -/
  | opn
  /-- and ends -/
  | cls
  /-- the end of the subject -/
  | eos
  | malformed (text : String)

/-! ## The syntax -/

/-- `isspace` -/
def isspace (c : Char) : Bool := c == ' ' || c == '\t' || c == '\n' || c == '\x0b' || c == '\x0c' || c == '\r'

/-- a character for itself -/
def only (c : Char) : Char → Bool := fun x => x = c

/-- the class `%c` -/
def class_of (c : Char) : Option (Char → Bool) :=
  if c = 'd' then some Char.isDigit
  else if c = 's' then some isspace
  else if c = 'w' then some Char.isAlphanum
  else if c.isAlphanum then none
  else some (only c)

/-- the members of a set, up to its end -/
def members : Str → Option ((Char → Bool) × Str)
  | [] => none
  | ']' :: rest => some (fun _ => false, rest)
  | '%' :: c :: rest =>
    match class_of c, members rest with
    | some p, some (q, rest) => some (fun x => p x || q x, rest)
    | _, _ => none
  | c :: rest =>
    match members rest with
    | some (q, rest) => some (fun x => only c x || q x, rest)
    | none => none

/-- a single character of the pattern -/
def single : Str → Option ((Char → Bool) × Str)
  | [] => none
  | '.' :: rest => some (fun _ => true, rest)
  | '%' :: c :: rest => (class_of c).map fun p => (p, rest)
  | '[' :: rest => members rest
  | c :: rest => some (only c, rest)

/-- n is at least the length of the pattern -/
def items : ℕ → Str → Option (List Item)
  | _, [] => some []
  | 0, _ => none
  | n + 1, c :: rest =>
    if c = '$' ∧ rest = [] then some [.eos]
    else if c = '(' then (items n rest).map (.opn :: ·)
    else if c = ')' then (items n rest).map (.cls :: ·)
    else if c = '%' ∧ rest = [] then some [.malformed "malformed pattern (ends with '%')"]
    else
      match single (c :: rest) with
      | none => none
      | some (p, '*' :: rest) => (items n rest).map (.star p :: ·)
      | some (p, '+' :: rest) => (items n rest).map (.plus p :: ·)
      | some (p, '?' :: rest) => (items n rest).map (.opt p :: ·)
      | some (p, rest) => (items n rest).map (.one p :: ·)

/-! ## The match -/

/-- what is left behind one character -/
def after (p : Char → Bool) : Str → List Str
  | [] => []
  | c :: t => if p c then [t] else []

/-- what is left behind a repetition, the longest first -/
def drops (p : Char → Bool) : Str → List Str
  | [] => [[]]
  | c :: t => if p c then drops p t ++ [c :: t] else [c :: t]

/-- what a capture from start on has when s is left -/
def captured (start : Option Str) (s : Str) : Str := (start.getD s).take ((start.getD s).length - s.length)

/-- start is the subject from the start of the open capture on -/
def ways : List Item → Option Str → Str → List (Except String (List Str × Str))
  | [], _, s => [.ok ([], s)]
  | .one p :: is, start, s => (after p s).flatMap (ways is start)
  | .opt p :: is, start, s => (after p s ++ [s]).flatMap (ways is start)
  | .star p :: is, start, s => (drops p s).flatMap (ways is start)
  | .plus p :: is, start, s => ((after p s).flatMap (drops p)).flatMap (ways is start)
  | .opn :: is, _, s => ways is (some s) s
  | .cls :: is, start, s => (ways is none s).map (Except.map fun r => (captured start s :: r.1, r.2))
  | .eos :: is, start, s => if s = [] then ways is start s else []
  | .malformed text :: _, _, _ => [.error text]

/-- the captures, or all that matches without one -/
def captures (s : Str) (r : List Str × Str) : List Str := if r.1 = [] then [s.take (s.length - r.2.length)] else r.1

/-- the result of the first way -/
def first {α : Type*} : List (Except String α) → Except String (Option α)
  | [] => .ok none
  | .ok a :: _ => .ok (some a)
  | .error text :: _ => .error text

def matches_at (is : List Item) (s : Str) : List (Except String (List Str)) := (ways is none s).map (Except.map (captures s))

/-- `string.match`; a pattern that has no items matches nothing -/
def str_match (s pattern : Str) : Except String (Option (List Str)) :=
  match pattern with
  | '^' :: pattern => ((items pattern.length pattern).map fun is => first (matches_at is s)).getD (.ok none)
  | pattern => ((items pattern.length pattern).map fun is => first (s.tails.flatMap (matches_at is))).getD (.ok none)

/-! ## The ways of an item -/

section Ways

variable {p : Char → Bool} {is : List Item} {start : Option Str} {s t : Str} {x : Except String (List Str × Str)}

theorem after_nil : after p [] = [] := rfl

theorem after_cons (c : Char) : after p (c :: t) = if p c then [t] else [] := rfl

theorem drops_nil : drops p [] = [[]] := rfl

theorem drops_cons (c : Char) : drops p (c :: t) = if p c then drops p t ++ [c :: t] else [c :: t] := rfl

theorem ways_one : ways (.one p :: is) start s = (after p s).flatMap (ways is start) := rfl

theorem ways_opt : ways (.opt p :: is) start s = (after p s ++ [s]).flatMap (ways is start) := rfl

theorem ways_star : ways (.star p :: is) start s = (drops p s).flatMap (ways is start) := rfl

theorem ways_plus : ways (.plus p :: is) start s = ((after p s).flatMap (drops p)).flatMap (ways is start) := rfl

theorem ways_cls :
    ways (.cls :: is) start s = (ways is none s).map (Except.map fun r => (captured start s :: r.1, r.2)) := rfl

theorem ways_eos : ways (.eos :: is) start s = if s = [] then ways is start s else [] := rfl

theorem mem_after : t ∈ after p s ↔ ∃ c, s = c :: t ∧ p c = true := by
  cases s with
  | nil => simp [after_nil]
  | cons c s =>
    rw [after_cons]
    split_ifs with hc
    · constructor
      · intro h
        exact ⟨c, by rw [List.mem_singleton.1 h], hc⟩
      · rintro ⟨d, hd, -⟩
        exact List.mem_singleton.2 (List.cons.inj hd).2.symm
    · simp [hc]

theorem mem_drops : t ∈ drops p s ↔ ∃ a, s = a ++ t ∧ ∀ c ∈ a, p c = true := by
  induction s with
  | nil => simp [drops_nil]
  | cons c s ih =>
    constructor
    · intro h
      rw [drops_cons] at h
      split_ifs at h with hc
      · rcases List.mem_append.1 h with h | h
        · obtain ⟨a, rfl, ha⟩ := ih.1 h
          exact ⟨c :: a, rfl, List.forall_mem_cons.2 ⟨hc, ha⟩⟩
        · exact ⟨[], (List.mem_singleton.1 h).symm, by simp⟩
      · exact ⟨[], (List.mem_singleton.1 h).symm, by simp⟩
    · rintro ⟨a, ha, hp⟩
      rw [drops_cons]
      cases a with
      | nil =>
        obtain rfl : c :: s = t := ha
        split_ifs <;> simp
      | cons d a =>
        obtain ⟨rfl, rfl⟩ := List.cons.inj ha
        obtain ⟨hc, hp⟩ := List.forall_mem_cons.1 hp
        rw [if_pos hc]
        exact List.mem_append_left _ (ih.2 ⟨a, rfl, hp⟩)

@[simp] theorem mem_one : x ∈ ways (.one p :: is) start s ↔ ∃ c t, s = c :: t ∧ p c = true ∧ x ∈ ways is start t := by
  simp only [ways_one, List.mem_flatMap, mem_after]
  constructor
  · rintro ⟨t, ⟨c, hs, hc⟩, hx⟩
    exact ⟨c, t, hs, hc, hx⟩
  · rintro ⟨c, t, hs, hc, hx⟩
    exact ⟨t, ⟨c, hs, hc⟩, hx⟩

@[simp] theorem mem_opt : x ∈ ways (.opt p :: is) start s ↔
    x ∈ ways (.one p :: is) start s ∨ x ∈ ways is start s := by
  simp only [ways_one, ways_opt, List.flatMap_append, List.flatMap_singleton, List.mem_append]

@[simp] theorem mem_star : x ∈ ways (.star p :: is) start s ↔
    ∃ a t, s = a ++ t ∧ (∀ c ∈ a, p c = true) ∧ x ∈ ways is start t := by
  simp only [ways_star, List.mem_flatMap, mem_drops]
  constructor
  · rintro ⟨t, ⟨a, hs, ha⟩, hx⟩
    exact ⟨a, t, hs, ha, hx⟩
  · rintro ⟨a, t, hs, ha, hx⟩
    exact ⟨t, ⟨a, hs, ha⟩, hx⟩

@[simp] theorem mem_plus : x ∈ ways (.plus p :: is) start s ↔
    ∃ a t, s = a ++ t ∧ a ≠ [] ∧ (∀ c ∈ a, p c = true) ∧ x ∈ ways is start t := by
  simp only [ways_plus, List.mem_flatMap, mem_after, mem_drops]
  constructor
  · rintro ⟨t, ⟨u, ⟨c, rfl, hc⟩, a, rfl, ha⟩, hx⟩
    exact ⟨c :: a, t, rfl, List.cons_ne_nil c a, List.forall_mem_cons.2 ⟨hc, ha⟩, hx⟩
  · rintro ⟨a, t, rfl, hne, ha, hx⟩
    obtain ⟨c, a, rfl⟩ := List.exists_cons_of_ne_nil hne
    obtain ⟨hc, ha⟩ := List.forall_mem_cons.1 ha
    exact ⟨t, ⟨a ++ t, ⟨c, rfl, hc⟩, a, rfl, ha⟩, hx⟩

@[simp] theorem mem_opn : x ∈ ways (.opn :: is) start s ↔ x ∈ ways is (some s) s := Iff.rfl

@[simp] theorem mem_cls : x ∈ ways (.cls :: is) start s ↔
    ∃ y ∈ ways is none s, Except.map (fun r => (captured start s :: r.1, r.2)) y = x := List.mem_map

@[simp] theorem mem_eos : x ∈ ways (.eos :: is) start s ↔ s = [] ∧ x ∈ ways is start s := by
  rw [ways_eos]
  split_ifs with hs <;> simp [hs]

/-! ## The first way -/

theorem head_drops : ∃ l, drops p s = s.dropWhile p :: l := by
  induction s with
  | nil => exact ⟨[], rfl⟩
  | cons c s ih =>
    obtain ⟨l, hl⟩ := ih
    rw [drops_cons, List.dropWhile_cons]
    split_ifs
    · exact ⟨l ++ [c :: s], by rw [hl, List.cons_append]⟩
    · exact ⟨[], rfl⟩

theorem head_star (start : Option Str) (h : (ways is start (s.dropWhile p)).head? = some x) :
    (ways (.star p :: is) start s).head? = some x := by
  obtain ⟨l, hl⟩ := head_drops (p := p) (s := s)
  rw [ways_star, hl, List.flatMap_cons, List.head?_append, h, Option.some_or]

theorem head_plus (start : Option Str) {c : Char} (hc : p c = true) (h : (ways is start (s.dropWhile p)).head? = some x) :
    (ways (.plus p :: is) start (c :: s)).head? = some x := by
  have hplus : ways (.plus p :: is) start (c :: s) = ways (.star p :: is) start s := by
    simp [ways_plus, ways_star, after_cons, hc]
  rw [hplus]
  exact head_star start h

theorem head_opt {c : Char} (hc : p c = true) (h : (ways is start s).head? = some x) :
    (ways (.opt p :: is) start (c :: s)).head? = some x := by
  simp [ways_opt, after_cons, hc, h]

theorem ways_opt_nil : ways (.opt p :: is) start [] = ways is start [] := by
  simp [ways_opt, after_nil]

theorem ways_opt_not {c : Char} (hc : p c = false) : ways (.opt p :: is) start (c :: s) = ways is start (c :: s) := by
  simp [ways_opt, after_cons, hc]

theorem head_cls (start : Option Str) {r : List Str × Str} (h : (ways is none s).head? = some (.ok r)) :
    (ways (.cls :: is) start s).head? = some (.ok (captured start s :: r.1, r.2)) := by
  rw [ways_cls, List.head?_map, h]
  rfl

theorem captured_append (a : Str) : captured (some (a ++ s)) s = a := by
  simp [captured]

/-- the characters of a word -/
theorem ways_word (w : Str) : ways (w.map (fun c => .one (only c)) ++ is) start s =
    if w <+: s then ways is start (s.drop w.length) else [] := by
  induction w generalizing s with
  | nil => simp
  | cons c w ih =>
    cases s with
    | nil => simp [ways_one, after_nil]
    | cons d s =>
      by_cases hd : d = c
      · subst hd
        simp [ways_one, after_cons, only, ih]
      · simp [ways_one, after_cons, only, hd, Ne.symm hd]

end Ways

/-! ## The result -/

section First

variable {α β : Type*} {l : List (Except String α)}

theorem first_head : first l =
    match l.head? with | none => .ok none | some (.ok a) => .ok (some a) | some (.error text) => .error text := by
  match l with
  | [] => rfl
  | .ok _ :: _ => rfl
  | .error _ :: _ => rfl

theorem first_ok {a : α} (h : l.head? = some (.ok a)) : first l = .ok (some a) := by
  rw [first_head, h]

theorem first_error {text : String} (h : l.head? = some (.error text)) : first l = .error text := by
  rw [first_head, h]

end First

theorem matches_ok {is : List Item} {s : Str} {r : List Str × Str} (h : (ways is none s).head? = some (.ok r)) :
    first (matches_at is s) = .ok (some (captures s r)) := by
  apply first_ok
  rw [matches_at, List.head?_map, h]
  rfl

theorem matches_error {is : List Item} {s : Str} {text : String} (h : (ways is none s).head? = some (.error text)) :
    first (matches_at is s) = .error text := by
  apply first_error
  rw [matches_at, List.head?_map, h]
  rfl

theorem matches_none {is : List Item} {s : Str} (h : ways is none s = []) : first (matches_at is s) = .ok none := by
  rw [matches_at, h]
  rfl

/-- a pattern that starts with `^` -/
theorem match_anchored {pattern : Str} {s : Str} (is : List Item) (h : items pattern.length pattern = some is) :
    str_match s ('^' :: pattern) = first (matches_at is s) := by
  simp only [str_match, h, Option.map_some, Option.getD_some]

/-! ## Characters -/

theorem digit_alphanum {c : Char} (h : c.isDigit = true) : c.isAlphanum = true := by
  simp [Char.isAlphanum, h]

/-- a space is no letter and no digit -/
theorem space_not_alphanum {c : Char} (h : isspace c = true) : c.isAlphanum = false := by
  simp only [isspace, Bool.or_eq_true, beq_iff_eq] at h
  rcases h with ((((h | h) | h) | h) | h) | h <;> subst h <;> decide

theorem space_not_digit {c : Char} (h : isspace c = true) : c.isDigit = false := by
  rw [← Bool.not_eq_true]
  intro hd
  exact absurd (digit_alphanum hd) (by simp [space_not_alphanum h])

theorem alphanum_not_space {c : Char} (h : c.isAlphanum = true) : isspace c = false := by
  rw [← Bool.not_eq_true]
  intro hs
  exact absurd h (by simp [space_not_alphanum hs])

/-! ## Runs -/

section Runs

variable {p : Char → Bool} {a t : Str}

/-- a run that ends in front of t -/
theorem takeWhile_run (ha : ∀ c ∈ a, p c = true) (ht : ∀ c ∈ t.head?, p c = false) : (a ++ t).takeWhile p = a := by
  rw [List.takeWhile_append_of_pos ha]
  cases t with
  | nil => simp
  | cons c t => simp [ht c rfl]

theorem dropWhile_run (ha : ∀ c ∈ a, p c = true) (ht : ∀ c ∈ t.head?, p c = false) : (a ++ t).dropWhile p = t := by
  rw [List.dropWhile_append_of_pos ha]
  cases t with
  | nil => simp
  | cons c t => simp [ht c rfl]

theorem head_append {u : Str} (hne : u ≠ []) : (u ++ t).head? = u.head? := by
  cases u with
  | nil => exact absurd rfl hne
  | cons c u => rfl

theorem head_all {q : Char → Prop} (h : ∀ c ∈ t, q c) : ∀ c ∈ t.head?, q c := fun c hc => h c (List.mem_of_mem_head? hc)

end Runs

end Shuttlesock.LuaMatch
