/-
A number and a unit: the pattern that `Config.str_time_to_seconds` and `Config.str_size_to_bytes` of `config.lua` start with, and the
patterns of a word that may be in the plural.

- `Written`: a text is made of white space, the longest run of digits, at most one space, the longest run of letters and digits, and
  white space.
- `read`: these two runs.

Results:
- `read_eq_some`: they are the only ones.
- `match_quantity`: what the pattern captures.
- `match_plural`: a word, or the word with an s.
-/
import Mathlib.Tactic
import Shuttlesock.Core.LuaMatch

namespace Shuttlesock.Quantity

open Shuttlesock.LuaMatch

/-- the number and the unit of a text -/
structure Written (s num unit : Str) : Prop where
  nonempty : num ≠ []
  digits : ∀ c ∈ num, c.isDigit = true
  word : ∀ c ∈ unit, c.isAlphanum = true
  text : ∃ before gap behind, s = before ++ (num ++ (gap ++ (unit ++ behind))) ∧ (∀ c ∈ before, isspace c = true) ∧
    (∀ c ∈ behind, isspace c = true) ∧ (gap = [] ∧ (∀ c ∈ unit.head?, c.isDigit = false) ∨ ∃ c, gap = [c] ∧ isspace c = true)

/-- at most one space -/
def gap : Str → Str
  | [] => []
  | c :: t => if isspace c then t else c :: t

def number (s : Str) : Str := (s.dropWhile isspace).takeWhile Char.isDigit

/-- what follows the number and a space -/
def rest (s : Str) : Str := gap ((s.dropWhile isspace).dropWhile Char.isDigit)

def read (s : Str) : Option (Str × Str) :=
  if number s ≠ [] ∧ ((rest s).dropWhile Char.isAlphanum).all isspace then some (number s, (rest s).takeWhile Char.isAlphanum) else none

/-! ## The runs of a text -/

variable {s num unit : Str}

theorem read_of_written (h : Written s num unit) : read s = some (num, unit) := by
  obtain ⟨before, gp, behind, rfl, hbefore, hbehind, hgap⟩ := h.text
  have hnum : ∀ c ∈ (num ++ (gp ++ (unit ++ behind))).head?, isspace c = false := by
    rw [head_append h.nonempty]
    exact head_all fun c hc => alphanum_not_space (digit_alphanum (h.digits c hc))
  have hstart : (before ++ (num ++ (gp ++ (unit ++ behind)))).dropWhile isspace = num ++ (gp ++ (unit ++ behind)) :=
    dropWhile_run hbefore hnum
  have hbehind' : ∀ c ∈ behind.head?, c.isAlphanum = false := head_all fun c hc => space_not_alphanum (hbehind c hc)
  -- no digit follows the number
  have hend : ∀ c ∈ (gp ++ (unit ++ behind)).head?, c.isDigit = false := by
    rcases hgap with ⟨rfl, hunit⟩ | ⟨c, rfl, hc⟩
    · rw [List.nil_append]
      cases unit with
      | nil => exact head_all fun c hc => space_not_digit (hbehind c hc)
      | cons c u => exact hunit
    · rintro d hd
      cases hd
      exact space_not_digit hc
  have hnumber : number (before ++ (num ++ (gp ++ (unit ++ behind)))) = num := by
    rw [number, hstart]
    exact takeWhile_run h.digits hend
  have hrest : rest (before ++ (num ++ (gp ++ (unit ++ behind)))) = unit ++ behind ∨
      unit = [] ∧ ∃ c, behind = c :: rest (before ++ (num ++ (gp ++ (unit ++ behind)))) := by
    rw [rest, hstart, dropWhile_run h.digits hend]
    rcases hgap with ⟨rfl, -⟩ | ⟨c, rfl, hc⟩
    · rw [List.nil_append]
      cases unit with
      | nil =>
        cases behind with
        | nil => exact .inl rfl
        | cons c b => exact .inr ⟨rfl, c, by simp [gap, hbehind c List.mem_cons_self]⟩
      | cons c u => exact .inl (by simp [gap, alphanum_not_space (h.word c List.mem_cons_self)])
    · exact .inl (by simp [gap, hc])
  rcases hrest with hrest | ⟨rfl, c, hc⟩
  · have hall : behind.all isspace = true := List.all_eq_true.2 hbehind
    rw [read, hnumber, hrest, dropWhile_run h.word hbehind', takeWhile_run h.word hbehind', if_pos ⟨h.nonempty, hall⟩]
  · -- the space is the first of those behind
    set r := rest (before ++ (num ++ (gp ++ ([] ++ behind)))) with hr
    have hspaces : ∀ d ∈ r, isspace d = true := fun d hd => hbehind d (hc ▸ List.mem_cons_of_mem c hd)
    have hhead : ∀ d ∈ r.head?, d.isAlphanum = false := head_all fun d hd => space_not_alphanum (hspaces d hd)
    have hdrop : r.dropWhile Char.isAlphanum = r := by simpa using dropWhile_run (a := []) (by simp) hhead
    have htake : r.takeWhile Char.isAlphanum = [] := by simpa using takeWhile_run (a := []) (by simp) hhead
    have hall : r.all isspace = true := List.all_eq_true.2 hspaces
    rw [read, hnumber, ← hr, hdrop, htake, if_pos ⟨h.nonempty, hall⟩]

theorem mem_run {p : Char → Bool} {c : Char} {t : Str} (h : c ∈ t.takeWhile p) : p c = true := List.mem_takeWhile_imp h

theorem written_of_read (h : read s = some (num, unit)) : Written s num unit := by
  unfold read at h
  split_ifs at h with hok
  obtain ⟨hne, hall⟩ := hok
  simp only [Option.some.injEq, Prod.mk.injEq] at h
  obtain ⟨rfl, rfl⟩ := h
  have hs : s = s.takeWhile isspace ++ (number s ++ (s.dropWhile isspace).dropWhile Char.isDigit) := by
    rw [number, List.takeWhile_append_dropWhile, List.takeWhile_append_dropWhile]
  have hr : rest s = (rest s).takeWhile Char.isAlphanum ++ (rest s).dropWhile Char.isAlphanum :=
    List.takeWhile_append_dropWhile.symm
  refine ⟨hne, fun c hc => mem_run hc, fun c hc => mem_run hc, ?_⟩
  cases hd : (s.dropWhile isspace).dropWhile Char.isDigit with
  | nil =>
    have hrest : rest s = [] := by rw [rest, hd]; rfl
    refine ⟨s.takeWhile isspace, [], [], ?_, fun c hc => mem_run hc, by simp, .inl ⟨rfl, by simp [hrest]⟩⟩
    rw [hd] at hs
    simpa [hrest] using hs
  | cons c t =>
    rw [hd] at hs
    by_cases hc : isspace c = true
    · have hrest : rest s = t := by rw [rest, hd, gap, if_pos hc]
      refine ⟨s.takeWhile isspace, [c], (rest s).dropWhile Char.isAlphanum, ?_, fun c hc => mem_run hc, List.all_eq_true.1 hall,
        .inr ⟨c, rfl, hc⟩⟩
      rw [← hr, hrest]
      exact hs
    · have hrest : rest s = c :: t := by rw [rest, hd, gap, if_neg hc]
      refine ⟨s.takeWhile isspace, [], (rest s).dropWhile Char.isAlphanum, ?_, fun c hc => mem_run hc, List.all_eq_true.1 hall,
        .inl ⟨rfl, ?_⟩⟩
      · rw [← hr, hrest]
        exact hs
      · -- the digits end in front of c
        have hdigit : c.isDigit = false := by
          have := List.head?_dropWhile_not Char.isDigit (s.dropWhile isspace)
          rw [hd] at this
          simpa using this
        rw [hrest, List.takeWhile_cons]
        split_ifs
        · rintro d hd
          cases hd
          exact hdigit
        · simp

theorem read_eq_some : read s = some (num, unit) ↔ Written s num unit := ⟨written_of_read, read_of_written⟩

/-! ## The pattern -/

def pattern : Str := "^%s*(%d+)%s?(%w*)%s*$".toList

def quantity_items : List Item :=
  [.star isspace, .opn, .plus Char.isDigit, .cls, .opt isspace, .opn, .star Char.isAlphanum, .cls, .star isspace, .eos]

theorem match_pattern (s : Str) : str_match s pattern = first (matches_at quantity_items s) := match_anchored quantity_items rfl

theorem captured_run (p : Char → Bool) (t : Str) : captured (some t) (t.dropWhile p) = t.takeWhile p := by
  have h := captured_append (s := t.dropWhile p) (t.takeWhile p)
  rwa [List.takeWhile_append_dropWhile] at h

/-- the part of the pattern behind the space -/
theorem head_unit {t : Str} (hall : (t.dropWhile Char.isAlphanum).all isspace = true) :
    (ways [.opn, .star Char.isAlphanum, .cls, .star isspace, .eos] none t).head? = some (.ok ([t.takeWhile Char.isAlphanum], [])) := by
  have hspaces : (t.dropWhile Char.isAlphanum).dropWhile isspace = [] := List.dropWhile_eq_nil_iff.2 (List.all_eq_true.1 hall)
  have hend : (ways [.star isspace, .eos] none (t.dropWhile Char.isAlphanum)).head? = some (.ok ([], [])) := by
    apply head_star none
    rw [hspaces]
    rfl
  have hcls := head_cls (some t) hend
  rw [captured_run] at hcls
  exact head_star (some t) hcls

theorem head_gap {t : Str} {r : Except String (List Str × Str)} {is : List Item} (h : (ways is none (gap t)).head? = some r) :
    (ways (.opt isspace :: is) none t).head? = some r := by
  cases t with
  | nil => rwa [ways_opt_nil]
  | cons c t =>
    by_cases hc : isspace c = true
    · rw [gap, if_pos hc] at h
      exact head_opt hc h
    · rw [gap, if_neg hc] at h
      rwa [ways_opt_not (by simpa using hc)]

theorem head_quantity (h : read s = some (num, unit)) : (ways quantity_items none s).head? = some (.ok ([num, unit], [])) := by
  unfold read at h
  split_ifs at h with hok
  obtain ⟨hne, hall⟩ := hok
  simp only [Option.some.injEq, Prod.mk.injEq] at h
  obtain ⟨rfl, rfl⟩ := h
  have hgap := head_gap (t := (s.dropWhile isspace).dropWhile Char.isDigit) (head_unit hall)
  have hcls := head_cls (some (s.dropWhile isspace)) hgap
  rw [captured_run] at hcls
  apply head_star none
  show (ways (.plus Char.isDigit :: _) (some (s.dropWhile isspace)) (s.dropWhile isspace)).head? = _
  obtain ⟨c, t, hct⟩ : ∃ c t, s.dropWhile isspace = c :: t := List.exists_cons_of_ne_nil fun hnil => hne (by rw [number, hnil]; rfl)
  have hc : c.isDigit = true := by
    by_contra hc
    exact hne (by simp [number, hct, hc])
  have hdrop : (s.dropWhile isspace).dropWhile Char.isDigit = t.dropWhile Char.isDigit := by
    rw [hct, List.dropWhile_cons, if_pos hc]
  have hplus := head_plus (some (s.dropWhile isspace)) hc (hdrop ▸ hcls)
  rw [← hct] at hplus
  rw [rest, hdrop]
  exact hplus

theorem match_written (h : Written s num unit) : str_match s pattern = .ok (some [num, unit]) := by
  rw [match_pattern, matches_ok (head_quantity (read_eq_some.2 h))]
  rfl

/-- runs that are not the longest ones -/
theorem exists_written (gp : Str) {before behind : Str} (hs : s = before ++ (num ++ (gp ++ (unit ++ behind)))) (hne : num ≠ [])
    (hnum : ∀ c ∈ num, c.isDigit = true) (hunit : ∀ c ∈ unit, c.isAlphanum = true) (hbefore : ∀ c ∈ before, isspace c = true)
    (hbehind : ∀ c ∈ behind, isspace c = true) (hgap : gp = [] ∨ ∃ c, gp = [c] ∧ isspace c = true) : ∃ num unit, Written s num unit := by
  rcases hgap with rfl | ⟨c, rfl, hc⟩
  · refine ⟨num ++ unit.takeWhile Char.isDigit, unit.dropWhile Char.isDigit, by simp [hne], ?_, ?_,
      before, [], behind, ?_, hbefore, hbehind, .inl ⟨rfl, ?_⟩⟩
    · intro c hc
      rcases List.mem_append.1 hc with hc | hc
      · exact hnum c hc
      · exact mem_run hc
    · exact fun c hc => hunit c ((List.dropWhile_sublist _).subset hc)
    · rw [hs, List.nil_append, List.nil_append, List.append_assoc num, ← List.append_assoc (unit.takeWhile _),
        List.takeWhile_append_dropWhile]
    · intro c hc
      have := List.head?_dropWhile_not Char.isDigit unit
      rw [hc] at this
      simpa using this
  · exact ⟨num, unit, hne, hnum, hunit, before, [c], behind, hs, hbefore, hbehind, .inr ⟨c, rfl, hc⟩⟩

theorem match_unwritten (h : ∀ num unit, ¬Written s num unit) : str_match s pattern = .ok none := by
  rw [match_pattern]
  apply matches_none
  rw [List.eq_nil_iff_forall_not_mem]
  intro x hx
  simp only [quantity_items, mem_star, mem_opn, mem_plus, mem_cls, mem_opt, mem_one, mem_eos] at hx
  obtain ⟨before, _, rfl, hbefore, num, _, rfl, hne, hnum, y, hy, -⟩ := hx
  rcases hy with ⟨c, _, rfl, hc, unit, _, rfl, hunit, _, ⟨behind, _, rfl, hbehind, rfl, -⟩, -⟩ |
    ⟨unit, _, rfl, hunit, _, ⟨behind, _, rfl, hbehind, rfl, -⟩, -⟩
  · have hbehind' : ∀ c ∈ behind ++ [], isspace c = true := by simpa using hbehind
    obtain ⟨num, unit, hw⟩ := exists_written [c] rfl hne hnum hunit hbefore hbehind' (.inr ⟨c, rfl, hc⟩)
    exact h num unit hw
  · have hbehind' : ∀ c ∈ behind ++ [], isspace c = true := by simpa using hbehind
    obtain ⟨num, unit, hw⟩ := exists_written [] rfl hne hnum hunit hbefore hbehind' (.inl rfl)
    exact h num unit hw

/-! ## Words -/

/-- a word, and an s that may follow -/
def plural_items (w : Str) : List Item := w.map (fun c => .one (only c)) ++ [.opt (only 's'), .eos]

theorem ways_plural (w u : Str) : ways (plural_items w) none u = if u = w ∨ u = w ++ ['s'] then [.ok ([], [])] else [] := by
  rw [plural_items, ways_word]
  by_cases hw : w <+: u
  · obtain ⟨t, rfl⟩ := hw
    rw [if_pos (List.prefix_append w t), List.drop_left]
    cases t with
    | nil => simp [ways, after]
    | cons c t =>
      by_cases hc : c = 's'
      · subst hc
        cases t <;> simp [ways, after, only]
      · simp [ways, after, only, hc]
  · rw [if_neg hw, if_neg]
    rintro (rfl | rfl)
    · exact hw (List.prefix_refl _)
    · exact hw (List.prefix_append _ _)

theorem match_plural {p : Str} (w u : Str) (hp : items p.length p = some (plural_items w)) :
    (str_match u ('^' :: p)).map Option.isSome = .ok (decide (u = w ∨ u = w ++ ['s'])) := by
  rw [match_anchored _ hp]
  by_cases hu : u = w ∨ u = w ++ ['s']
  · rw [matches_ok (r := ([], [])) (by rw [ways_plural, if_pos hu]; rfl), decide_eq_true hu]
    rfl
  · rw [matches_none (by rw [ways_plural, if_neg hu]), decide_eq_false hu]
    rfl

end Shuttlesock.Quantity
