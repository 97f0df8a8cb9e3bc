/-
What a `<<~` heredoc removes: the end of `match_heredoc` of `config.lua`.

Model: the body is read twice, as the patterns do it: `gmatch` finds every newline with the blanks after it, and `gsub` puts
the captured blanks in their place. A captured run of blanks is greedy, and what is removed are the last of them.

Results:
- `squiggly_dedent`: the two patterns do line by line what `dedent` of the parser says.
- `squiggly_iff`: the value of a `<<~` heredoc is its body without the first m bytes of every line, for the smallest number m
  of leading blanks, exactly when the leading blanks of each line repeat with period m.
- `tab_kept`: a line that starts with a tab and a space loses the space.
-/
import Mathlib.Tactic
import Shuttlesock.Config.Heredoc

namespace Shuttlesock.Parser

/-! ## The patterns -/

/-- `string.gmatch(body, "\n([\t ]*)")`: the lengths of what it captures -/
def space_counts : Str → List ℕ
  | [] => []
  | c :: t => if c = '\n' then (indent t).length :: space_counts t else space_counts t

/-- `body:gsub("\n([\t ]*)" .. ("[\t ]"):rep(minspace), "\n%1")`: of the blanks the last are not captured -/
def gsub_spaces (minspace : ℕ) : Str → Str
  | [] => []
  | c :: t =>
    if c = '\n' ∧ minspace ≤ (indent t).length then
      '\n' :: ((indent t).take ((indent t).length - minspace) ++ gsub_spaces minspace (t.drop (indent t).length))
    else c :: gsub_spaces minspace t
termination_by s => s.length

/-- the body of a `<<~` heredoc, with a newline in front while it is read -/
def squiggly (body : Str) : Str := (gsub_spaces ((space_counts ('\n' :: body)).min?.getD 0) ('\n' :: body)).drop 1

/-! ## Lines -/

/-- the smallest number of leading blanks -/
def minspace (body : Str) : ℕ := ((body.splitOn '\n').map fun l => (indent l).length).min?.getD 0

/-- a line without the last m of its leading blanks -/
def cut (m : ℕ) (l : Str) : Str := (indent l).take ((indent l).length - m) ++ l.drop (indent l).length

theorem dedent_cut (body : Str) : dedent body = ['\n'].intercalate ((body.splitOn '\n').map (cut (minspace body))) := rfl

section Lines

variable {l rest body : Str} {ls : List Str} {m : ℕ}

theorem mem_lines (h : l ∈ body.splitOn '\n') : '\n' ∉ l := by
  induction body generalizing l with
  | nil =>
    simp only [List.splitOn_nil, List.mem_singleton] at h
    simp [h]
  | cons c body ih =>
    obtain ⟨first, ls, hls⟩ := List.exists_cons_of_ne_nil (List.splitOn_ne_nil '\n' body)
    rw [List.splitOn_cons_eq_if_modifyHead, hls] at h
    rw [hls] at ih
    split_ifs at h with hc
    · rcases List.mem_cons.1 h with rfl | h
      · simp
      · exact ih h
    · rcases List.mem_cons.1 h with rfl | h
      · simpa [eq_comm] using ⟨by simpa using hc, ih List.mem_cons_self⟩
      · exact ih (List.mem_cons_of_mem _ h)

/-- what a newline in front makes of the lines -/
theorem newline_intercalate (hls : ls ≠ []) : '\n' :: ['\n'].intercalate ls = ls.flatMap ('\n' :: ·) := by
  induction ls with
  | nil => exact absurd rfl hls
  | cons l ls ih =>
    cases ls with
    | nil => simp
    | cons l' ls =>
      rw [List.intercalate_cons_of_ne_nil (List.cons_ne_nil l' ls), List.flatMap_cons, ← ih (List.cons_ne_nil l' ls)]
      simp

/-- nothing, or a newline -/
def Breaks (rest : Str) : Prop := ∀ c ∈ rest.head?, c = '\n'

theorem breaks_lines (ls : List Str) : Breaks (ls.flatMap ('\n' :: ·)) := by
  cases ls with
  | nil => simp [Breaks]
  | cons l ls => simp [Breaks]

theorem indent_append (hrest : Breaks rest) : indent (l ++ rest) = indent l := by
  have hnil : rest.takeWhile (· ∈ ['\t', ' ']) = [] := by
    cases rest with
    | nil => rfl
    | cons c rest =>
      obtain rfl : c = '\n' := hrest c rfl
      simp
  unfold indent
  rw [List.takeWhile_append, hnil, List.append_nil]
  split_ifs with hall
  · exact ((List.takeWhile_prefix _).eq_of_length hall).symm
  · rfl

theorem indent_drop (l : Str) : indent l ++ l.drop (indent l).length = l :=
  List.prefix_iff_eq_append.1 (List.takeWhile_prefix _)

theorem indent_le (l : Str) : (indent l).length ≤ l.length := (List.takeWhile_prefix _).length_le

/-- no line has fewer leading blanks -/
theorem minspace_le (h : l ∈ body.splitOn '\n') : minspace body ≤ (indent l).length := by
  unfold minspace
  have hmem : (indent l).length ∈ (body.splitOn '\n').map fun l => (indent l).length := List.mem_map_of_mem h
  obtain ⟨m, hm⟩ := Option.isSome_iff_exists.1 (List.isSome_min?_of_mem hmem)
  rw [hm]
  exact (List.min?_eq_some_iff.1 hm).2 _ hmem

/-! ## The patterns line by line -/

theorem space_counts_append (hl : '\n' ∉ l) : space_counts (l ++ rest) = space_counts rest := by
  induction l with
  | nil => rfl
  | cons c l ih =>
    have hc : c ≠ '\n' := fun hc => hl (hc ▸ List.mem_cons_self)
    rw [List.cons_append, space_counts, if_neg hc]
    exact ih fun h => hl (List.mem_cons_of_mem _ h)

theorem gsub_spaces_append (hl : '\n' ∉ l) : gsub_spaces m (l ++ rest) = l ++ gsub_spaces m rest := by
  induction l with
  | nil => rfl
  | cons c l ih =>
    have hc : c ≠ '\n' := fun hc => hl (hc ▸ List.mem_cons_self)
    rw [List.cons_append, gsub_spaces, if_neg fun h => hc h.1]
    rw [ih fun h => hl (List.mem_cons_of_mem _ h), List.cons_append]

/-- what `gmatch` finds: the blanks of each line -/
theorem space_counts_lines (hls : ∀ l ∈ ls, '\n' ∉ l) :
    space_counts (ls.flatMap ('\n' :: ·)) = ls.map fun l => (indent l).length := by
  induction ls with
  | nil => rfl
  | cons l ls ih =>
    rw [List.flatMap_cons, List.cons_append, space_counts, if_pos rfl, indent_append (breaks_lines ls)]
    rw [space_counts_append (hls l List.mem_cons_self), ih fun l hl => hls l (List.mem_cons_of_mem _ hl)]
    rfl

/-- what `gsub` leaves of each line, when all of them have enough blanks -/
theorem gsub_spaces_lines (hls : ∀ l ∈ ls, '\n' ∉ l) (hm : ∀ l ∈ ls, m ≤ (indent l).length) :
    gsub_spaces m (ls.flatMap ('\n' :: ·)) = ls.flatMap fun l => '\n' :: cut m l := by
  induction ls with
  | nil => simp [gsub_spaces]
  | cons l ls ih =>
    have hl : '\n' ∉ l.drop (indent l).length := fun h => hls l List.mem_cons_self (List.mem_of_mem_drop h)
    rw [List.flatMap_cons, List.cons_append, gsub_spaces, indent_append (breaks_lines ls)]
    rw [if_pos ⟨rfl, hm l List.mem_cons_self⟩, List.drop_append_of_le_length (indent_le l), gsub_spaces_append hl]
    rw [ih (fun l hl => hls l (List.mem_cons_of_mem _ hl)) fun l hl => hm l (List.mem_cons_of_mem _ hl)]
    simp [cut]

/-- **The patterns and the lines.** The end of `match_heredoc` cuts every line by the smallest number of leading blanks. -/
theorem squiggly_dedent (body : Str) : squiggly body = dedent body := by
  have hlines : '\n' :: body = (body.splitOn '\n').flatMap ('\n' :: ·) := by
    rw [← newline_intercalate (List.splitOn_ne_nil _ _), List.intercalate_splitOn]
  have hne : (body.splitOn '\n').map (cut (minspace body)) ≠ [] := by simp [List.splitOn_ne_nil]
  have hcuts : gsub_spaces (minspace body) ('\n' :: body) = '\n' :: dedent body := by
    rw [dedent_cut, newline_intercalate hne, List.flatMap_map, hlines]
    exact gsub_spaces_lines (fun l hl => mem_lines hl) fun l hl => minspace_le hl
  have hcounts : space_counts ('\n' :: body) = (body.splitOn '\n').map fun l => (indent l).length := by
    rw [hlines]
    exact space_counts_lines fun l hl => mem_lines hl
  unfold squiggly
  rw [hcounts, ← minspace, hcuts, List.drop_one, List.tail_cons]

end Lines

/-! ## What is removed -/

/-- the body without the first bytes of every line, as many as the smallest number of leading blanks -/
def unindented (body : Str) : Str := ['\n'].intercalate ((body.splitOn '\n').map (List.drop (minspace body)))

/-- each of the blanks is the one m places further on -/
def Repeats (m : ℕ) (blanks : Str) : Prop := ∀ i, i + m < blanks.length → blanks[i]? = blanks[i + m]?

theorem repeats_iff (m : ℕ) (blanks : Str) : Repeats m blanks ↔ blanks.take (blanks.length - m) = blanks.drop m := by
  unfold Repeats
  constructor
  · intro h
    refine List.ext_getElem? fun i => ?_
    rw [List.getElem?_take, List.getElem?_drop, Nat.add_comm m i]
    split_ifs with hi
    · exact h i (by omega)
    · exact (List.getElem?_eq_none (by omega)).symm
  · intro h i hi
    have hat := congrArg (·[i]?) h
    simp only [List.getElem?_take, List.getElem?_drop] at hat
    rw [if_pos (by omega), Nat.add_comm m i] at hat
    exact hat

/-- one line: the last of the blanks are removed, and the first of the line should be -/
theorem cut_eq_drop {m : ℕ} {l : Str} (hm : m ≤ (indent l).length) : cut m l = l.drop m ↔ Repeats m (indent l) := by
  have hdrop : l.drop m = (indent l).drop m ++ l.drop (indent l).length := by
    conv_lhs => rw [← indent_drop l, List.drop_append_of_le_length hm]
  rw [repeats_iff, hdrop, cut, List.append_left_inj]

theorem intercalate_inj {ls ls' : List Str} (h : ∀ l ∈ ls, '\n' ∉ l) (h' : ∀ l ∈ ls', '\n' ∉ l) (hne : ls ≠ [])
    (hne' : ls' ≠ []) : ['\n'].intercalate ls = ['\n'].intercalate ls' ↔ ls = ls' := by
  refine ⟨fun heq => ?_, fun heq => by rw [heq]⟩
  rw [← List.splitOn_intercalate '\n' h hne, heq, List.splitOn_intercalate '\n' h' hne']

/-- **Dedent.** Exactly the first bytes of every line are removed when the leading blanks of each line repeat. -/
theorem dedent_iff_repeats (body : Str) :
    dedent body = unindented body ↔ ∀ l ∈ body.splitOn '\n', Repeats (minspace body) (indent l) := by
  have hne : body.splitOn '\n' ≠ [] := List.splitOn_ne_nil _ _
  rw [dedent_cut, unindented, intercalate_inj, List.map_inj_left]
  · exact forall₂_congr fun l hl => cut_eq_drop (minspace_le hl)
  · simp only [List.mem_map, forall_exists_index, and_imp, forall_apply_eq_imp_iff₂]
    intro l hl h
    rcases List.mem_append.1 h with h | h
    · exact mem_lines hl ((List.takeWhile_prefix _).subset (List.mem_of_mem_take h))
    · exact mem_lines hl (List.mem_of_mem_drop h)
  · simp only [List.mem_map, forall_exists_index, and_imp, forall_apply_eq_imp_iff₂]
    exact fun l hl h => mem_lines hl (List.mem_of_mem_drop h)
  · simp [hne]
  · simp [hne]

/-- **The value of a `<<~` heredoc.** Where the body is read up to its label, it replaces the value of the heredoc without the
first bytes of its lines exactly when the leading blanks of each line repeat, at the distance of what is removed. -/
theorem squiggly_iff {s : State} {heredoc : Heredoc} {later : List Heredoc} {len : ℕ} (hs : Ok s)
    (hqueue : s.heredoc = heredoc :: later) (htilde : heredoc.type = .tilde)
    (hline : last_token_type s = some (some .newline))
    (hclose : body_close heredoc.type heredoc.label s.rest = some len) :
    ∃ s' body, match_heredoc s = .token s' ∧ body = heredoc_body (s.rest.take len) ∧
      s'.values = s.values.set heredoc.string_value ⟨.string, squiggly body, none⟩ ∧
      (squiggly body = unindented body ↔ ∀ l ∈ body.splitOn '\n', Repeats (minspace body) (indent l)) := by
  obtain ⟨s', hmatch, hread⟩ := match_heredoc_read hs hqueue hline hclose
  have hvalues := hread.values
  rw [if_pos htilde, ← squiggly_dedent] at hvalues
  refine ⟨s', _, hmatch, rfl, hvalues, ?_⟩
  rw [squiggly_dedent]
  exact dedent_iff_repeats _

/-- a state where a `<<~` heredoc is read -/
def two_lines : State :=
  { after_line " x\n  y\nA\n".toList with
    cur := 1
    heredoc := [⟨.tilde, ['A'], 0⟩] }

theorem squiggly_iff_two_lines : ∃ s' body, match_heredoc two_lines = .token s' ∧
    body = heredoc_body (two_lines.rest.take 8) ∧ s'.values = two_lines.values.set 0 ⟨.string, squiggly body, none⟩ ∧
      (squiggly body = unindented body ↔ ∀ l ∈ body.splitOn '\n', Repeats (minspace body) (indent l)) := by
  have hqueue : two_lines.heredoc = [⟨.tilde, ['A'], 0⟩] := rfl
  exact squiggly_iff ⟨Nat.le_refl 1, .root ..⟩ hqueue rfl rfl rfl

/-- the run on a line that starts with a tab and a space, beside one that starts with a space: the space is removed -/
theorem tab_kept : (∃ root, parse "a <<~A;\n x\n\t y\nA\n".toList = .root root [⟨.string, "x\n\ty".toList, none⟩]) ∧
    unindented " x\n\t y".toList = "x\n y".toList ∧ ¬ ∀ body, squiggly body = unindented body := by
  refine ⟨⟨_, rfl⟩, by decide +kernel, fun hall => ?_⟩
  have heq := hall " x\n\t y".toList
  rw [squiggly_dedent] at heq
  revert heq
  decide +kernel

end Shuttlesock.Parser
