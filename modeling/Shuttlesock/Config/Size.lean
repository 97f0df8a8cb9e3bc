/-
Size strings: `Config.str_size_to_bytes` of `config.lua` and `Instring.tosize` of `instring.lua`, which read the same settings.

Model: a call raises a text, or returns false or nil (none) or a number, with the numbers of Lua.
- `SizeText`: a decimal integer and whatever follows it.
- `units`: the units in all letter cases, with the exponent of 1024 that they stand for.

`str_size_to_bytes` looks only at how a unit starts, its patterns for m and g end with a `%`, and white space is allowed; `tosize` rejects
"b", as no unit is "b" and "B" at once, and its addition of 0.5 makes a double of the size.

Results:
- `tosize_refines`: `tosize` with its patterns is the one of the conversions of instrings.
- `size_eq`: what `str_size_to_bytes` does with a number and a unit.
- `size_agree_iff`: exactly for which texts the two agree as they should.
- `not_size_agree`: "1m".
-/
import Mathlib.Tactic
import Shuttlesock.Config.Quantity
import Shuttlesock.Instring.Sizes

namespace Shuttlesock.SizeString

open Shuttlesock.LuaMatch Shuttlesock.LuaNumber Shuttlesock.LuaNumeral Shuttlesock.Quantity Shuttlesock.Sizes

abbrev Str := List Char

/-! ## The model -/

def is_match (unit : Str) (pattern : String) : Except String Bool := (str_match unit pattern.toList).map Option.isSome

def str_size_to_bytes (A : Floats) (str : Str) : Except String (Option (Number A)) := do
  match ← str_match str "^%s*(%d+)%s?(%w*)%s*$".toList with
  | some [num, unit] =>
    -- digits are always a number
    let value := LuaNumber.tonumber A num
    if ← is_match unit "^[bB]?$" then
      return some value
    else if ← is_match unit "^[Kk][bB]?" then
      return some (value.mul (.integer 1024))
    else if ← is_match unit "^[Mm][Bb]?%" then
      return some (value.mul (.integer 1048576))
    else if ← is_match unit "^[Gg][Bb]?%" then
      return some (value.mul (.integer 1073741824))
    else
      return none
  | _ => return none

/-- `math.tointeger(math.floor(num + 0.5))` -/
def rounded (num : Number binary64) : Option ℤ := (num.add (.float (binary64.ofRat (1 / 2)))).floor

def tosize (str : Str) : Except String (Option ℤ) := do
  match ← str_match str "^([%d%.]+)(%w*)$".toList with
  | some [num, unit] =>
    match LuaNumeral.tonumber binary64 num with
    | none => return none
    | some num =>
      if ← is_match unit "^[kK][bB]?$" then
        return rounded (num.mul (.integer 1024))
      else if ← is_match unit "^[Mm][bB]?$" then
        return rounded (num.mul (.integer 1048576))
      else if ← is_match unit "^[Gg][bB]?$" then
        return rounded (num.mul (.integer 1073741824))
      else if unit.length > 0 ∧ (unit ≠ "b".toList ∨ unit ≠ "B".toList) then
        return none
      else
        return rounded num
  | _ => return none

/-! ## Texts -/

/-- a decimal integer, and what follows it; with a point it would not be an integer -/
structure SizeText where
  num : Str
  unit : Str
  nonempty : num ≠ []
  digits : ∀ c ∈ num, c.isDigit = true
  longest : ∀ c ∈ unit.head?, isrun c = false

namespace SizeText

def text (t : SizeText) : Str := t.num ++ t.unit

def number (t : SizeText) : ℕ := decimal t.num

theorem not_digit (t : SizeText) : ∀ c ∈ t.unit.head?, c.isDigit = false := by
  intro c hc
  have hrun := t.longest c hc
  rw [isrun, Bool.or_eq_false_iff] at hrun
  exact hrun.1

end SizeText

/-- the units, with the exponent of 1024 -/
def units : List (Str × ℕ) :=
  [("".toList, 0), ("b".toList, 0), ("B".toList, 0),
    ("k".toList, 1), ("K".toList, 1), ("kb".toList, 1), ("kB".toList, 1), ("Kb".toList, 1), ("KB".toList, 1),
    ("m".toList, 2), ("M".toList, 2), ("mb".toList, 2), ("mB".toList, 2), ("Mb".toList, 2), ("MB".toList, 2),
    ("g".toList, 3), ("G".toList, 3), ("gb".toList, 3), ("gB".toList, 3), ("Gb".toList, 3), ("GB".toList, 3)]

def kind (unit : Str) : Option ℕ := (units.find? fun p => p.1 = unit).map Prod.snd

/-- the number is this integer -/
def Is (n : ℕ) : Number binary64 → Prop
  | .integer i => i = n
  | .float x => ∃ y, x = Double.Binary64.finite y ∧ y.1 = n

/-- **The property** of a text: the calls do not raise, with a unit they both return the size, and otherwise they reject the text. -/
structure Sized (t : SizeText) : Prop where
  total : ∀ text, str_size_to_bytes binary64 t.text ≠ .error text ∧ tosize t.text ≠ .error text
  size : ∀ k, kind t.unit = some k →
    (∃ value, str_size_to_bytes binary64 t.text = .ok (some value) ∧ Is (t.number * 1024 ^ k) value) ∧
      tosize t.text = .ok (some (t.number * 1024 ^ k : ℕ))
  rejected : kind t.unit = none → str_size_to_bytes binary64 t.text = .ok none ∧ tosize t.text = .ok none

/-! ## Patterns of a unit -/

section Patterns

variable {p q : Char → Bool} {u : Str}

/-- one character and an optional one -/
def two (p q : Char → Bool) : Str → Bool
  | [c] => p c
  | [c, d] => p c && q d
  | _ => false

def starts (p : Char → Bool) : Str → Bool
  | [] => false
  | c :: _ => p c

theorem match_two (p q : Char → Bool) (u : Str) :
    (first (matches_at [.one p, .opt q, .eos] u)).map Option.isSome = .ok (two p q u) := by
  match u with
  | [] => rfl
  | [c] => cases hc : p c <;> simp [matches_at, ways, after, first, two, hc, Except.map]
  | [c, d] => cases hc : p c <;> cases hd : q d <;> simp [matches_at, ways, after, first, two, hc, hd, Except.map]
  | c :: d :: e :: t => cases hc : p c <;> cases hd : q d <;> simp [matches_at, ways, after, first, two, hc, hd, Except.map]

theorem match_opt (p : Char → Bool) (u : Str) :
    (first (matches_at [.opt p, .eos] u)).map Option.isSome = .ok (decide (u = []) || two p (fun _ => false) u) := by
  match u with
  | [] => rfl
  | [c] => cases hc : p c <;> simp [matches_at, ways, after, first, two, hc, Except.map]
  | [c, d] => cases hc : p c <;> simp [matches_at, ways, after, first, two, hc, Except.map]
  | c :: d :: e :: t => cases hc : p c <;> simp [matches_at, ways, after, first, two, hc, Except.map]

/-- without `$` only the start counts -/
theorem match_start (p q : Char → Bool) (u : Str) :
    (first (matches_at [.one p, .opt q] u)).map Option.isSome = .ok (starts p u) := by
  match u with
  | [] => rfl
  | [c] => cases hc : p c <;> simp [matches_at, ways, after, first, starts, hc, Except.map]
  | c :: d :: t => cases hc : p c <;> cases hd : q d <;> simp [matches_at, ways, after, first, starts, hc, hd, Except.map]

theorem match_malformed (p q : Char → Bool) (text : String) (u : Str) :
    (first (matches_at [.one p, .opt q, .malformed text] u)).map Option.isSome =
      if starts p u then .error text else .ok false := by
  match u with
  | [] => rfl
  | [c] => cases hc : p c <;> simp [matches_at, ways, after, first, starts, hc, Except.map]
  | c :: d :: t => cases hc : p c <;> cases hd : q d <;> simp [matches_at, ways, after, first, starts, hc, hd, Except.map]

/-- the set of two characters, as it is read from a pattern -/
def pair (c d : Char) : Char → Bool := fun x => only c x || (only d x || false)

theorem is_match_eq {pattern : String} (q : Str) (is : List Item) (hq : pattern.toList = '^' :: q) (h : items q.length q = some is) :
    is_match u pattern = (first (matches_at is u)).map Option.isSome := by
  rw [is_match, hq, match_anchored is h]

end Patterns

/-! ## The calls -/

section Calls

variable {A : Floats} {str num unit : Str}

/-- what `str_size_to_bytes` does with a number and a unit -/
theorem size_eq (h : Written str num unit) : str_size_to_bytes A str =
    if unit = [] ∨ two (pair 'b' 'B') (fun _ => false) unit then .ok (some (LuaNumber.tonumber A num))
    else if starts (pair 'K' 'k') unit then .ok (some ((LuaNumber.tonumber A num).mul (.integer 1024)))
    else if starts (pair 'M' 'm') unit then .error "malformed pattern (ends with '%')"
    else if starts (pair 'G' 'g') unit then .error "malformed pattern (ends with '%')"
    else .ok none := by
  have hmatch : str_match str "^%s*(%d+)%s?(%w*)%s*$".toList = .ok (some [num, unit]) := match_written h
  have hb : is_match unit "^[bB]?$" = .ok (decide (unit = []) || two (pair 'b' 'B') (fun _ => false) unit) :=
    (is_match_eq "[bB]?$".toList [.opt (pair 'b' 'B'), .eos] rfl rfl).trans (match_opt _ _)
  have hk : is_match unit "^[Kk][bB]?" = .ok (starts (pair 'K' 'k') unit) :=
    (is_match_eq "[Kk][bB]?".toList [.one (pair 'K' 'k'), .opt (pair 'b' 'B')] rfl rfl).trans (match_start _ _ _)
  have hm : is_match unit "^[Mm][Bb]?%" = if starts (pair 'M' 'm') unit then .error "malformed pattern (ends with '%')" else .ok false :=
    (is_match_eq "[Mm][Bb]?%".toList [.one (pair 'M' 'm'), .opt (pair 'B' 'b'), .malformed _] rfl rfl).trans (match_malformed _ _ _ _)
  have hg : is_match unit "^[Gg][Bb]?%" = if starts (pair 'G' 'g') unit then .error "malformed pattern (ends with '%')" else .ok false :=
    (is_match_eq "[Gg][Bb]?%".toList [.one (pair 'G' 'g'), .opt (pair 'B' 'b'), .malformed _] rfl rfl).trans (match_malformed _ _ _ _)
  simp only [str_size_to_bytes, hmatch, hb, hk, hm, hg, bind, Except.bind, pure, Except.pure, Bool.or_eq_true, decide_eq_true_eq]
  split_ifs <;> simp_all

theorem size_unwritten (h : ∀ num unit, ¬Written str num unit) : str_size_to_bytes A str = .ok none := by
  have hmatch : str_match str "^%s*(%d+)%s?(%w*)%s*$".toList = .ok none := match_unwritten h
  simp only [str_size_to_bytes, hmatch, bind, Except.bind, pure, Except.pure]

/-! ### `tosize` -/

/-- the set of digits and the point, as it is read from the pattern -/
def run_set : Char → Bool := fun x => Char.isDigit x || (only '.' x || false)

theorem run_set_eq : run_set = isrun := by
  funext c
  simp only [run_set, isrun, only, Bool.or_false]
  rfl

theorem match_run (str : Str) : str_match str "^([%d%.]+)(%w*)$".toList =
    .ok (if str.takeWhile isrun ≠ [] ∧ (str.dropWhile isrun).all Char.isAlphanum
      then some [str.takeWhile isrun, str.dropWhile isrun] else none) := by
  have hmatch : str_match str "^([%d%.]+)(%w*)$".toList =
      first (matches_at [.opn, .plus run_set, .cls, .opn, .star Char.isAlphanum, .cls, .eos] str) := match_anchored _ rfl
  rw [hmatch, run_set_eq]
  split_ifs with h
  · obtain ⟨hne, hall⟩ := h
    obtain ⟨c, t, rfl⟩ : ∃ c t, str = c :: t := List.exists_cons_of_ne_nil fun hnil => hne (by rw [hnil]; rfl)
    have hc : isrun c = true := by
      by_contra hc
      exact hne (by simp [hc])
    have hdrop : (c :: t).dropWhile isrun = t.dropWhile isrun := by rw [List.dropWhile_cons, if_pos hc]
    have hword : ((c :: t).dropWhile isrun).dropWhile Char.isAlphanum = [] :=
      List.dropWhile_eq_nil_iff.2 (List.all_eq_true.1 hall)
    have htake : ((c :: t).dropWhile isrun).takeWhile Char.isAlphanum = (c :: t).dropWhile isrun := by
      have := List.takeWhile_append_dropWhile (p := Char.isAlphanum) (l := (c :: t).dropWhile isrun)
      rwa [hword, List.append_nil] at this
    have hend : (ways [.eos] none (((c :: t).dropWhile isrun).dropWhile Char.isAlphanum)).head? = some (.ok ([], [])) := by
      rw [hword]
      rfl
    have hcls := head_cls (some ((c :: t).dropWhile isrun)) hend
    rw [captured_run, htake] at hcls
    have hstar : (ways [.opn, .star Char.isAlphanum, .cls, .eos] none ((c :: t).dropWhile isrun)).head? = _ :=
      head_star (some ((c :: t).dropWhile isrun)) hcls
    have hcls' := head_cls (some (c :: t)) hstar
    rw [captured_run] at hcls'
    have hplus := head_plus (some (c :: t)) hc (hdrop ▸ hcls')
    have hways : (ways [.opn, .plus isrun, .cls, .opn, .star Char.isAlphanum, .cls, .eos] none (c :: t)).head? =
        some (.ok ([(c :: t).takeWhile isrun, (c :: t).dropWhile isrun], [])) := by
      rw [hdrop]
      exact hplus
    rw [matches_ok hways]
    rfl
  · apply matches_none
    rw [List.eq_nil_iff_forall_not_mem]
    intro x hx
    simp only [mem_opn, mem_plus, mem_cls, mem_star, mem_eos] at hx
    obtain ⟨a, _, rfl, hne, ha, _, ⟨u, _, rfl, hu, _, ⟨rfl, -⟩, -⟩, -⟩ := hx
    apply h
    rw [List.takeWhile_append_of_pos ha, List.dropWhile_append_of_pos ha, List.append_nil]
    refine ⟨by simp [hne], List.all_eq_true.2 fun c hc => hu c ((List.dropWhile_sublist _).subset hc)⟩

theorem two_eq {a b c d : Char} (u : Str) : two (pair a b) (pair c d) u = true ↔
    u ∈ [[a], [b], [a, c], [a, d], [b, c], [b, d]] := by
  match u with
  | [] => simp [two]
  | [x] => simp [two, pair, only]
  | [x, y] =>
    simp [two, pair, only]
    tauto
  | x :: y :: z :: t => simp [two]

/-- the factors of the branches -/
theorem unit_two (u : Str) : Instrings.unit u =
    if u = [] then some 1
    else if two (pair 'k' 'K') (pair 'b' 'B') u then some 1024
    else if two (pair 'M' 'm') (pair 'b' 'B') u then some 1048576
    else if two (pair 'G' 'g') (pair 'b' 'B') u then some 1073741824
    else none := by
  have hm : u ∈ [['M'], ['m'], ['M', 'b'], ['M', 'B'], ['m', 'b'], ['m', 'B']] ↔
      u ∈ ["m".toList, "M".toList, "mb".toList, "mB".toList, "Mb".toList, "MB".toList] := List.Perm.mem_iff (by decide +kernel)
  have hg : u ∈ [['G'], ['g'], ['G', 'b'], ['G', 'B'], ['g', 'b'], ['g', 'B']] ↔
      u ∈ ["g".toList, "G".toList, "gb".toList, "gB".toList, "Gb".toList, "GB".toList] := List.Perm.mem_iff (by decide +kernel)
  simp only [Instrings.unit, two_eq, hm, hg]
  rfl

theorem round_one (x : Number binary64) : round x 1 = rounded x := by
  rw [Sizes.round, if_pos rfl, rounded]

theorem round_factor (x : Number binary64) {m : ℕ} (hm : m ≠ 1) : round x m = rounded (x.mul (.integer m)) := by
  rw [Sizes.round, if_neg hm, rounded]

/-- no unit is "b" and "B" at once -/
theorem not_b (u : Str) : u ≠ "b".toList ∨ u ≠ "B".toList := by
  by_contra h
  rw [not_or, not_not, not_not] at h
  exact absurd (h.1.symm.trans h.2) (by decide)

/-- **`tosize` with its patterns** is the one of the conversions of instrings. -/
theorem tosize_refines (ub : ℤ → ℕ) (str : Str) : tosize str = .ok (Instrings.tosize (lua ub) str) := by
  have hk : ∀ u, is_match u "^[kK][bB]?$" = .ok (two (pair 'k' 'K') (pair 'b' 'B') u) := fun u =>
    (is_match_eq "[kK][bB]?$".toList [.one (pair 'k' 'K'), .opt (pair 'b' 'B'), .eos] rfl rfl).trans (match_two _ _ _)
  have hm : ∀ u, is_match u "^[Mm][bB]?$" = .ok (two (pair 'M' 'm') (pair 'b' 'B') u) := fun u =>
    (is_match_eq "[Mm][bB]?$".toList [.one (pair 'M' 'm'), .opt (pair 'b' 'B'), .eos] rfl rfl).trans (match_two _ _ _)
  have hg : ∀ u, is_match u "^[Gg][bB]?$" = .ok (two (pair 'G' 'g') (pair 'b' 'B') u) := fun u =>
    (is_match_eq "[Gg][bB]?$".toList [.one (pair 'G' 'g'), .opt (pair 'b' 'B'), .eos] rfl rfl).trans (match_two _ _ _)
  have htosize : Instrings.tosize (lua ub) str =
      if str.takeWhile isrun ≠ [] ∧ (str.dropWhile isrun).all Char.isAlphanum then
        (LuaNumeral.tonumber binary64 (str.takeWhile isrun)).bind fun x => (Instrings.unit (str.dropWhile isrun)).bind (round x)
      else none := rfl
  rw [htosize]
  by_cases h : str.takeWhile isrun ≠ [] ∧ (str.dropWhile isrun).all Char.isAlphanum = true
  · rw [if_pos h, unit_two]
    simp only [tosize, match_run, if_pos h, bind, Except.bind, pure, Except.pure]
    cases LuaNumeral.tonumber binary64 (str.takeWhile isrun) with
    | none => rfl
    | some x =>
      simp only [hk, hm, hg, Option.bind_some]
      generalize str.dropWhile isrun = u
      by_cases hu : u = []
      · subst hu
        exact congrArg Except.ok (round_one x).symm
      · have hlen : u.length > 0 ∧ (u ≠ "b".toList ∨ u ≠ "B".toList) := ⟨List.length_pos_iff.2 hu, not_b u⟩
        rw [if_neg hu, if_pos hlen]
        split_ifs
        · exact congrArg Except.ok (round_factor x (by norm_num)).symm
        · exact congrArg Except.ok (round_factor x (by norm_num)).symm
        · exact congrArg Except.ok (round_factor x (by norm_num)).symm
        · rfl
  · rw [if_neg h]
    simp only [tosize, match_run, if_neg h, bind, Except.bind, pure, Except.pure]

end Calls

/-! ## The units -/

section Units

variable {u : Str} {k : ℕ}

theorem kind_mem (h : kind u = some k) : (u, k) ∈ units := by
  obtain ⟨⟨v, k'⟩, hfind, rfl⟩ := Option.map_eq_some_iff.1 h
  have hv : v = u := by simpa using List.find?_some hfind
  subst hv
  exact List.mem_of_find?_eq_some hfind

theorem kind_ne_none (h : ∃ k, (u, k) ∈ units) : kind u ≠ none := by
  obtain ⟨k, h⟩ := h
  rw [kind, ne_eq, Option.map_eq_none_iff, List.find?_eq_none]
  intro hall
  exact hall (u, k) h (by simp)

/-- which branch of `str_size_to_bytes` a unit takes -/
theorem kind_branch (h : kind u = some k) :
    (k = 0 → u = [] ∨ two (pair 'b' 'B') (fun _ => false) u = true) ∧
      (k ≠ 0 → ¬(u = [] ∨ two (pair 'b' 'B') (fun _ => false) u = true)) ∧ (k = 1 → starts (pair 'K' 'k') u = true) ∧
      (2 ≤ k → starts (pair 'K' 'k') u = false ∧ (starts (pair 'M' 'm') u = true ∨ starts (pair 'G' 'g') u = true)) := by
  have hall : ∀ p ∈ units, (p.2 = 0 → p.1 = [] ∨ two (pair 'b' 'B') (fun _ => false) p.1 = true) ∧
      (p.2 ≠ 0 → ¬(p.1 = [] ∨ two (pair 'b' 'B') (fun _ => false) p.1 = true)) ∧ (p.2 = 1 → starts (pair 'K' 'k') p.1 = true) ∧
      (2 ≤ p.2 → starts (pair 'K' 'k') p.1 = false ∧ (starts (pair 'M' 'm') p.1 = true ∨ starts (pair 'G' 'g') p.1 = true)) := by
    decide +kernel
  exact hall (u, k) (kind_mem h)

/-- a unit is a word -/
theorem kind_word (h : kind u = some k) : (∀ c ∈ u, c.isAlphanum = true) ∧ ∀ c ∈ u.head?, isrun c = false := by
  have hall : ∀ p ∈ units, p.1.all Char.isAlphanum = true ∧ p.1.head?.all (fun c => !isrun c) = true := by decide +kernel
  obtain ⟨hword, hhead⟩ := hall (u, k) (kind_mem h)
  refine ⟨List.all_eq_true.1 hword, fun c hc => ?_⟩
  rw [Option.mem_def.1 hc] at hhead
  exact (Bool.not_eq_true' _).mp hhead

/-- `tosize` knows all of them but "b" -/
theorem kind_unit (h : kind u = some k) : Instrings.unit u = if u = "b".toList ∨ u = "B".toList then none else some (1024 ^ k) := by
  have hall : ∀ p ∈ units, Instrings.unit p.1 = if p.1 = "b".toList ∨ p.1 = "B".toList then none else some (1024 ^ p.2) := by
    decide +kernel
  exact hall (u, k) (kind_mem h)

theorem unit_kind {m : ℕ} (h : Instrings.unit u = some m) : kind u ≠ none := by
  have hall : ∀ v ∈ unit_texts, ∃ p ∈ units, p.1 = v := by decide +kernel
  obtain ⟨⟨v, k⟩, hmem, rfl⟩ := hall u (unit_mem h)
  exact kind_ne_none ⟨k, hmem⟩

end Units

/-! ## Which texts agree -/

/-- a word that `str_size_to_bytes` does not reject -/
def Taken (w : Str) : Prop := (w = [] ∨ w = "b".toList ∨ w = "B".toList) ∨ ∃ c ∈ w.head?, c ∈ "kKmMgG".toList

/-- a size that survives the addition of 0.5 -/
def Exact (x : ℕ) : Prop := x < 2 ^ 63 ∧ (x < 2 ^ 52 ∨ Even x ∧ Double.Representable x)

/-- the condition on a text with a unit, and on another one, which may have white space -/
structure Good (t : SizeText) : Prop where
  unit : ∀ k, kind t.unit = some k → k ≤ 1 ∧ t.unit ≠ "b".toList ∧ t.unit ≠ "B".toList ∧ Exact (t.number * 1024 ^ k)
  word : kind t.unit = none → ∀ w, Written t.text t.num w → ¬Taken w

section Agree

variable {t : SizeText} {w : Str}

theorem taken_iff : Taken w ↔ ((w = [] ∨ two (pair 'b' 'B') (fun _ => false) w = true) ∨ starts (pair 'K' 'k') w = true) ∨
    starts (pair 'M' 'm') w = true ∨ starts (pair 'G' 'g') w = true := by
  match w with
  | [] => simp [Taken]
  | [c] =>
    simp [Taken, two, starts, pair, only]
    tauto
  | c :: d :: u =>
    have htwo : two (pair 'b' 'B') (fun _ => false) (c :: d :: u) = false := by cases u <;> simp [two]
    simp [Taken, htwo, starts, pair, only]
    tauto

/-- the number of a text is its digits -/
theorem number_unique {num' : Str} (h : Written t.text num' w) : num' = t.num := by
  have hread := read_of_written h
  have hstrip : t.text.dropWhile isspace = t.text := by
    obtain ⟨c, ds, hc⟩ := List.exists_cons_of_ne_nil t.nonempty
    have hdigit : c.isDigit = true := t.digits c (hc ▸ List.mem_cons_self)
    simp [SizeText.text, hc, alphanum_not_space (digit_alphanum hdigit)]
  have hnumber : number t.text = t.num := by
    rw [number, hstrip, SizeText.text]
    exact takeWhile_run t.digits t.not_digit
  unfold Quantity.read at hread
  split_ifs at hread
  rw [hnumber] at hread
  simp only [Option.some.injEq, Prod.mk.injEq] at hread
  exact hread.1.symm

/-- a text with a unit -/
theorem written_unit {k : ℕ} (h : kind t.unit = some k) : Written t.text t.num t.unit :=
  ⟨t.nonempty, t.digits, (kind_word h).1, [], [], [], by simp [SizeText.text], by simp, by simp, .inl ⟨rfl, t.not_digit⟩⟩

/-- what `str_size_to_bytes` rejects -/
theorem size_rejected : str_size_to_bytes binary64 t.text = .ok none ↔ ∀ w, Written t.text t.num w → ¬Taken w := by
  by_cases hw : ∃ w, Written t.text t.num w
  · obtain ⟨w, hw⟩ := hw
    have hunique : ∀ v, Written t.text t.num v → v = w := by
      intro v hv
      have heq := (read_of_written hv).symm.trans (read_of_written hw)
      simpa using heq
    rw [size_eq hw]
    constructor
    · intro h v hv htaken
      rw [hunique v hv, taken_iff] at htaken
      split_ifs at h with h₁ h₂ h₃ h₄
      · cases h
      · cases h
      · exact htaken.elim (fun h => h.elim h₁ h₂) fun h => h.elim h₃ h₄
    · intro h
      have hnot := h w hw
      rw [taken_iff] at hnot
      obtain ⟨hbk, hmg⟩ := not_or.1 hnot
      obtain ⟨hb, hk⟩ := not_or.1 hbk
      obtain ⟨hm, hg⟩ := not_or.1 hmg
      rw [if_neg hb, if_neg hk, if_neg hm, if_neg hg]
  · have hnone : ∀ num unit, ¬Written t.text num unit := by
      intro num unit h
      obtain rfl := number_unique h
      exact hw ⟨unit, h⟩
    exact iff_of_true (size_unwritten hnone) fun w h => absurd ⟨w, h⟩ hw

/-- `tosize` rejects all texts without a unit -/
theorem tosize_rejected (h : kind t.unit = none) : tosize t.text = .ok none := by
  have hunit : Instrings.unit t.unit = none := by
    by_contra hsome
    obtain ⟨m, hm⟩ := Option.ne_none_iff_exists'.1 hsome
    exact unit_kind hm h
  rw [tosize_refines fun _ => 0, SizeText.text, tosize_integer t.nonempty t.digits t.longest, hunit]
  rfl

/-- what `tosize` makes of a text with a unit -/
theorem tosize_exact {k : ℕ} (h : kind t.unit = some k) : tosize t.text = .ok (some (t.number * 1024 ^ k : ℕ)) ↔
    t.unit ≠ "b".toList ∧ t.unit ≠ "B".toList ∧ Exact (t.number * 1024 ^ k) := by
  rw [tosize_refines fun _ => 0, Except.ok.injEq, ← and_assoc, ← not_or]
  have hunit := kind_unit h
  by_cases hb : t.unit = "b".toList ∨ t.unit = "B".toList
  · rw [if_pos hb] at hunit
    have hnone : Instrings.tosize (lua fun _ => 0) t.text = none := by
      rw [SizeText.text, tosize_integer t.nonempty t.digits (kind_word h).2, hunit]
      rfl
    rw [hnone]
    exact iff_of_false (by simp) fun hand => hand.1 hb
  · rw [if_neg hb] at hunit
    rw [and_iff_right hb]
    exact tosize_exact_iff t.nonempty t.digits (kind_word h).2 hunit

/-- what `str_size_to_bytes` makes of a text with a unit, when the size is one of 64 bits -/
theorem size_value {k : ℕ} (h : kind t.unit = some k) (hk : k ≤ 1) (hx : t.number * 1024 ^ k < 2 ^ 63) :
    str_size_to_bytes binary64 t.text = .ok (some (.integer (t.number * 1024 ^ k : ℕ))) := by
  obtain ⟨hzero, hpos, hone, -⟩ := kind_branch h
  have hle : t.number ≤ t.number * 1024 ^ k := Nat.le_mul_of_pos_right _ (by positivity)
  have hnum : LuaNumber.tonumber binary64 t.num = .integer t.number := tonumber_small binary64 (hle.trans_lt hx)
  rw [size_eq (written_unit h), hnum]
  interval_cases k
  · rw [if_pos (hzero rfl), pow_zero, mul_one]
  · have hrange : InRange ((t.number : ℤ) * 1024) := ⟨by omega, by omega⟩
    rw [if_neg (hpos (by norm_num)), if_pos (hone rfl), Number.mul, wrap_eq hrange]
    norm_num

/-- **Exactly for which texts** the two agree as they should. -/
theorem size_agree_iff (t : SizeText) : Sized t ↔ Good t := by
  constructor
  · intro h
    refine ⟨fun k hk => ?_, fun hnone => size_rejected.1 (h.rejected hnone).1⟩
    obtain ⟨hb, hB, hexact⟩ := (tosize_exact hk).1 (h.size k hk).2
    refine ⟨?_, hb, hB, hexact⟩
    by_contra hlarge
    obtain ⟨-, hpos, -, hraise⟩ := kind_branch hk
    obtain ⟨hK, hmg⟩ := hraise (by omega)
    have herr : str_size_to_bytes binary64 t.text = .error "malformed pattern (ends with '%')" := by
      rw [size_eq (written_unit hk), if_neg (hpos (by omega)), if_neg (by simp [hK])]
      rcases hmg with hm | hg
      · rw [if_pos hm]
      · rw [if_pos hg, ite_self]
    exact (h.total _).1 herr
  · intro h
    refine ⟨?_, ?_, fun hnone => ⟨size_rejected.2 (h.word hnone), tosize_rejected hnone⟩⟩
    · intro text
      refine ⟨?_, by rw [tosize_refines fun _ => 0]; simp⟩
      cases hk : kind t.unit with
      | none => rw [size_rejected.2 (h.word hk)]; simp
      | some k =>
        obtain ⟨hle, -, -, hexact⟩ := h.unit k hk
        rw [size_value hk hle hexact.1]
        simp
    · intro k hk
      obtain ⟨hle, hb, hB, hexact⟩ := h.unit k hk
      exact ⟨⟨_, size_value hk hle hexact.1, rfl⟩, (tosize_exact hk).2 ⟨hb, hB, hexact⟩⟩

/-- "1m" -/
def one_m : SizeText :=
  ⟨"1".toList, "m".toList, by decide, List.all_eq_true.1 rfl, fun c hc => by
    obtain rfl : 'm' = c := Option.some.inj hc
    rfl⟩

theorem not_size_agree : ¬∀ t, Sized t := by
  intro h
  have hk : kind one_m.unit = some 2 := by decide
  have herr : str_size_to_bytes binary64 one_m.text = .error "malformed pattern (ends with '%')" := by
    rw [size_eq (written_unit hk)]
    rfl
  exact ((h one_m).total _).1 herr

end Agree

end Shuttlesock.SizeString
