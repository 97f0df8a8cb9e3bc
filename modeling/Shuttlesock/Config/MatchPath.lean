/-
`Config.match_path` (`modules/config/config.lua`), which decides whether a setting, a block or a variable handler
applies at a path of the configuration.

Model: Lua strings are lists of characters, `runs c s` is `s:gmatch("[^c]+")`. `split_path` returns the parts and the
table with the parts cached in it; a string is the table without a cache. `match_step` is the body of the loop that
walks over the path from its last part to its first, with the index m into the pattern (0 and -1 are possible: Lua then
reads nil); `none` is `return false`.

`pattern_parts` and `Matches` say what a pattern means: `**` any number of parts, every other part exactly one that
`match_path_part` accepts, and a pattern that does not start with `/` has a `**` in front.

Results:
- `split_path_ok`, `split_path_parts`: the cache always holds the parts of its path.
- `step_cases`: the three things that the body of the loop can do.
- `accepts_size`: one pass over a part of the path uses up at most one single part of the pattern.
- `accepts_lone`: where no two `**` are adjacent the walk over the least number of path parts skips the part before
  every `**`, whatever it is.
-/
import Mathlib.Tactic
import Shuttlesock.Core.Glob

namespace Shuttlesock.MatchPath

open Shuttlesock.Glob

/-! ## Model -/

abbrev Str := List Char

/-- `"**"` -/
def doublestar : Str := ['*', '*']

/-- `"*"` -/
def star : Str := ['*']

/-- `s:gmatch("[^c]+")`: the longest nonempty runs without c -/
def runs (c : Char) (s : Str) : List Str := (s.splitOn c).filter (· ≠ [])

/-- a `pathy_thing`: a string is one without a cache -/
structure Pathy where
  path : Str
  split_path : Option (List Str)
deriving DecidableEq, Repr

def split_path (pathy_thing : Pathy) : List Str × Pathy :=
  match pathy_thing.split_path with
  | some tbl => (tbl, pathy_thing)
  | none =>
    let path := pathy_thing.path
    let tbl := if path.head? = some '/' then [] else [doublestar]
    if path = star ∨ path = ['*', '/'] then (tbl, pathy_thing)
    else
      let path := if path.getLast? = some '/' then path else path ++ ['/']
      let tbl := tbl ++ runs '/' path
      (tbl, { pathy_thing with split_path := some tbl })

/-- `s:match("^([^:]+):(.*)$")` -/
def qualified (s : Str) : Option (Str × Str) :=
  match s.span (· ≠ ':') with
  | (c :: l, _ :: r) => some (c :: l, r)
  | _ => none

/-- `s:match("^%((.*)%)$")` -/
def parenthesized (s : Str) : Option Str :=
  match s with
  | '(' :: t => if t.getLast? = some ')' then some t.dropLast else none
  | _ => none

theorem parenthesized_length {s t : Str} (h : parenthesized s = some t) : t.length < s.length := by
  unfold parenthesized at h
  split at h
  · split_ifs at h
    cases h
    simp only [List.length_dropLast, List.length_cons]
    omega
  · cases h

theorem runs_length {c : Char} {s r : Str} (h : r ∈ runs c s) : r.length ≤ s.length := by
  have hr : r ∈ s.splitOn c := (List.mem_filter.1 h).1
  have hlen := List.sublist_flatten_of_mem hr
  have hs : ((s.splitOn c).flatten).length ≤ s.length := by
    conv_rhs => rw [← @List.intercalate_splitOn _ s _ _ c]
    generalize s.splitOn c = L
    induction L with
    | nil => simp
    | cons a L ih =>
      cases L with
      | nil => simp
      | cons b L =>
        rw [List.intercalate_cons_cons]
        simp only [List.flatten_cons, List.length_append] at ih ⊢
        simp only [List.length_cons, List.length_nil]
        omega
  exact hlen.length_le.trans hs

/-- `match_path_part` for an mpart that is not nil -/
def match_path_part (ppart mpart : Str) : Bool :=
  match _h : parenthesized mpart with
  | some alternatives => (runs '|' alternatives).attach.any fun ormatch => match_path_part ppart ormatch.1
  | none =>
    if ppart ≠ mpart ∧ mpart ≠ star ∧ mpart ≠ doublestar then
      let (ppart_left, ppart_right) := match qualified ppart with
        | some (l, r) => (some l, r)
        | none => (none, ppart)
      let (mpart_left, mpart_right) := (qualified mpart).getD (star, mpart)
      if mpart_left ≠ star ∧ some mpart_left ≠ ppart_left then false
      else if mpart_right ≠ star ∧ mpart_right ≠ ppart_right then false
      else true
    else true
termination_by mpart.length
decreasing_by exact (runs_length ormatch.2).trans_lt (parenthesized_length _h)

/-- `match[i]` -/
def part (mtch : List Str) (i : ℤ) : Option Str := if 1 ≤ i then mtch[(i - 1).toNat]? else none

/-- `for i=m+1, #match`: the first `**` after m -/
def unwind_to_last_doublestar (mtch : List Str) (m : ℤ) : Option ℤ :=
  ((List.range (mtch.length - m).toNat).map fun k : ℕ => m + 1 + (k : ℤ)).find? fun i =>
    part mtch i = some doublestar

/-- the body of `for i=#path, 1, -1` -/
def match_step (mtch : List Str) (m : ℤ) (ppart : Str) : Option ℤ :=
  let mpart := part mtch m
  let m := if mpart = some doublestar then m - 1 else m
  if mpart.any (match_path_part ppart) then some (m - 1)
  else (unwind_to_last_doublestar mtch m).map (· - 1)

/-- `for i=m, 1, -1`: nothing but `**` is left -/
def match_rest (mtch : List Str) (m : ℤ) : Bool :=
  (List.range m.toNat).all fun k : ℕ => part mtch (m - (k : ℤ)) = some doublestar

def match_parts (path mtch : List Str) : Bool :=
  if mtch = [doublestar] then true
  else
    match path.reverse.foldlM (match_step mtch) (mtch.length : ℤ) with
    | none => false
    | some m => if m = 0 then true else match_rest mtch m

/-- `Config.match_path`: the result and the two tables -/
def match_path (path mtch : Pathy) : Bool × Pathy × Pathy :=
  let (path_parts, path) := split_path path
  let (mtch_parts, mtch) := split_path mtch
  (match_parts path_parts mtch_parts, path, mtch)

/-! ## What a pattern means -/

def Deep (mpart : Str) : Prop := mpart = doublestar

instance : DecidablePred Deep := fun mpart => inferInstanceAs (Decidable (mpart = doublestar))

/-- the parts of a pattern; without a `/` in front it starts with `**` -/
def pattern_parts (pattern : Str) : List Str :=
  (if pattern.head? = some '/' then [] else [doublestar]) ++ runs '/' pattern

/-- the parts of the path can be aligned with those of the pattern -/
def Matches (path mtch : List Str) : Prop := Aligns Deep (fun ppart mpart => match_path_part ppart mpart = true) path mtch

/-! ## Splitting -/

/-- the parts that `split_path` comes to for a path -/
def split_parts (path : Str) : List Str :=
  if path = star ∨ path = ['*', '/'] then [doublestar] else pattern_parts path

/-- a cache holds the parts of its path -/
def Pathy.Ok (pathy_thing : Pathy) : Prop := ∀ tbl, pathy_thing.split_path = some tbl → tbl = split_parts pathy_thing.path

theorem runs_append_sep (c : Char) (s : Str) : runs c (s ++ [c]) = runs c s := by
  simp [runs, List.splitOn_append_cons_self]

theorem split_path_parts {pathy_thing : Pathy} (h : pathy_thing.Ok) :
    (split_path pathy_thing).1 = split_parts pathy_thing.path := by
  unfold split_path
  cases hc : pathy_thing.split_path with
  | some tbl => exact h tbl hc
  | none =>
    simp only [split_parts]
    split_ifs with hstar hroot hend
    · rcases hstar with hs | hs <;> simp [hs, star] at hroot
    · rfl
    · simp [pattern_parts, *]
    · simp [pattern_parts, runs_append_sep, *]
    · simp [pattern_parts, *]
    · simp [pattern_parts, runs_append_sep, *]

theorem split_path_ok {pathy_thing : Pathy} (h : pathy_thing.Ok) :
    (split_path pathy_thing).2.Ok ∧ (split_path pathy_thing).2.path = pathy_thing.path := by
  have hparts := split_path_parts h
  unfold split_path at hparts ⊢
  cases hc : pathy_thing.split_path with
  | some tbl => exact ⟨h, rfl⟩
  | none =>
    simp only [hc] at hparts ⊢
    split_ifs at hparts ⊢ with hstar
    all_goals first
      | exact ⟨h, rfl⟩
      | refine ⟨fun tbl ht => ?_, rfl⟩
        cases ht
        exact hparts

/-! ## One part -/

theorem match_path_part_doublestar (ppart : Str) : match_path_part ppart doublestar = true := by
  rw [match_path_part]
  split
  · rename_i hs
    cases hs
  · simp

theorem match_path_part_self {mpart : Str} (h : parenthesized mpart = none) : match_path_part mpart mpart = true := by
  rw [match_path_part]
  split
  · rename_i hs
    rw [h] at hs
    cases hs
  · simp

theorem match_path_part_paren {mpart alternatives : Str} (h : parenthesized mpart = some alternatives) (ppart : Str) :
    match_path_part ppart mpart = (runs '|' alternatives).any (match_path_part ppart) := by
  rw [match_path_part]
  split
  · rename_i hs
    rw [h] at hs
    cases hs
    simp
  · rename_i hs
    rw [h] at hs
    cases hs

/-! ## The index into the pattern -/

theorem part_append (A : List Str) (p : Str) (B : List Str) : part (A ++ p :: B) (A.length + 1) = some p := by
  simp [part]

theorem part_split {mtch : List Str} {i : ℤ} {p : Str} (h : part mtch i = some p) :
    ∃ A B, mtch = A ++ p :: B ∧ i = A.length + 1 := by
  unfold part at h
  split_ifs at h with hi
  obtain ⟨hlt, hp⟩ := List.getElem?_eq_some_iff.1 h
  refine ⟨mtch.take (i - 1).toNat, mtch.drop ((i - 1).toNat + 1), ?_, ?_⟩
  · rw [← hp, List.cons_getElem_drop_succ, List.take_append_drop]
  · rw [List.length_take]
    omega

theorem part_range {mtch : List Str} {i : ℤ} {p : Str} (h : part mtch i = some p) : 1 ≤ i ∧ i ≤ mtch.length := by
  obtain ⟨A, B, rfl, rfl⟩ := part_split h
  simp only [List.length_append, List.length_cons]
  omega

theorem part_inside (mtch : List Str) {i : ℤ} (h1 : 1 ≤ i) (h2 : i ≤ mtch.length) : ∃ p, part mtch i = some p := by
  rw [part, if_pos h1]
  exact ⟨_, List.getElem?_eq_getElem (by omega)⟩

/-- the single parts of the pattern up to m -/
def needed (mtch : List Str) (m : ℤ) : ℕ := size Deep (mtch.take m.toNat)

theorem needed_nonpos (mtch : List Str) {m : ℤ} (h : m ≤ 0) : needed mtch m = 0 := by
  have : m.toNat = 0 := by omega
  simp [needed, this, size]

theorem needed_append (A B : List Str) : needed (A ++ B) A.length = size Deep A := by
  simp [needed]

theorem needed_all (mtch : List Str) : needed mtch mtch.length = size Deep mtch := by
  simp [needed]

theorem needed_mono (mtch : List Str) {m n : ℤ} (h : m ≤ n) : needed mtch m ≤ needed mtch n := by
  obtain ⟨t, ht⟩ := List.take_prefix_take_left (l := mtch) (show m.toNat ≤ n.toNat by omega)
  rw [needed, needed, ← ht, size_append]
  omega

theorem needed_part {mtch : List Str} {m : ℤ} {p : Str} (h : part mtch m = some p) :
    needed mtch m = needed mtch (m - 1) + if Deep p then 0 else 1 := by
  obtain ⟨A, B, rfl, rfl⟩ := part_split h
  have h1 : ((A.length : ℤ) + 1 - 1) = (A.length : ℕ) := by omega
  have h2 : ((A.length : ℤ) + 1) = ((A ++ [p]).length : ℕ) := by simp
  rw [h1, needed_append, h2]
  rw [show A ++ p :: B = (A ++ [p]) ++ B by simp, needed_append, size_append]
  split_ifs with hd
  · rw [size_deep hd]
  · rw [size_part hd]

theorem unwind_some {mtch : List Str} {m i : ℤ} (h : unwind_to_last_doublestar mtch m = some i) :
    m < i ∧ part mtch i = some doublestar ∧ ∀ k, m < k → k < i → part mtch k ≠ some doublestar := by
  rw [unwind_to_last_doublestar, List.find?_map, Option.map_eq_some_iff] at h
  obtain ⟨n, hn, rfl⟩ := h
  obtain ⟨hp, -, hbefore⟩ := List.find?_range_eq_some.1 hn
  refine ⟨by omega, by simpa using hp, fun k hk1 hk2 hk => ?_⟩
  have := hbefore (k - m - 1).toNat (by omega)
  rw [Function.comp_apply, show m + 1 + ((k - m - 1).toNat : ℤ) = k by omega, hk] at this
  simp at this

theorem unwind_none {mtch : List Str} {m : ℤ} :
    unwind_to_last_doublestar mtch m = none ↔ ∀ k, m < k → part mtch k ≠ some doublestar := by
  simp only [unwind_to_last_doublestar, List.find?_eq_none, List.mem_map, List.mem_range, decide_eq_true_eq]
  constructor
  · intro h k hk hp
    have := part_range hp
    exact h k ⟨(k - m - 1).toNat, by omega, by omega⟩ hp
  · rintro h k ⟨n, -, rfl⟩
    exact h _ (by omega)

/-! ## One pass of the loop -/

/-- **What one pass does**: a `**` and the part before it are passed over, a part that accepts is passed over, or m
goes back to the part before the next `**`. -/
theorem step_cases (mtch : List Str) (m : ℤ) (ppart : Str) :
    (part mtch m = some doublestar ∧ match_step mtch m ppart = some (m - 2)) ∨
    (∃ p, part mtch m = some p ∧ ¬ Deep p ∧ match_path_part ppart p = true ∧
      match_step mtch m ppart = some (m - 1)) ∨
    ((∀ p, part mtch m = some p → ¬ Deep p ∧ match_path_part ppart p = false) ∧
      match_step mtch m ppart = (unwind_to_last_doublestar mtch m).map (· - 1)) := by
  cases hp : part mtch m with
  | none =>
    right; right
    refine ⟨by simp, ?_⟩
    simp [match_step, hp]
  | some p =>
    by_cases hd : p = doublestar
    · left
      refine ⟨by rw [hd], ?_⟩
      simp only [match_step, hp, hd, if_true, Option.any_some, match_path_part_doublestar]
      congr 1
      omega
    · right
      cases hm : match_path_part ppart p with
      | true =>
        left
        refine ⟨p, rfl, hd, hm, ?_⟩
        simp [match_step, hp, hd, hm]
      | false =>
        right
        refine ⟨fun q hq => ?_, ?_⟩
        · obtain rfl := Option.some.inj hq
          exact ⟨hd, hm⟩
        · simp [match_step, hp, hd, hm]

/-- the rest of the loop over `xs` (the last part of the path first), and what comes after the loop -/
def Accepts (mtch : List Str) (m : ℤ) (xs : List Str) : Prop :=
  ∃ m', xs.foldlM (match_step mtch) m = some m' ∧ needed mtch m' = 0

theorem accepts_nil {mtch : List Str} {m : ℤ} : Accepts mtch m [] ↔ needed mtch m = 0 := by
  simp [Accepts]

theorem accepts_cons {mtch : List Str} {m : ℤ} {x : Str} {xs : List Str} :
    Accepts mtch m (x :: xs) ↔ ∃ m', match_step mtch m x = some m' ∧ Accepts mtch m' xs := by
  simp only [Accepts, List.foldlM_cons]
  cases match_step mtch m x with
  | none => simp
  | some m' => simp

theorem step_le {mtch : List Str} {m m' : ℤ} {x : Str} (h : match_step mtch m x = some m') (hm : m ≤ mtch.length) :
    m' ≤ mtch.length := by
  rcases step_cases mtch m x with ⟨-, he⟩ | ⟨p, -, -, -, he⟩ | ⟨-, he⟩
  · rw [he] at h
    cases h
    omega
  · rw [he] at h
    cases h
    omega
  · rw [he] at h
    obtain ⟨i, hi, rfl⟩ := Option.map_eq_some_iff.1 h
    have := part_range (unwind_some hi).2.1
    omega

theorem match_rest_iff {mtch : List Str} {m : ℤ} (hm : m ≤ mtch.length) :
    match_rest mtch m = true ↔ needed mtch m = 0 := by
  have hpart : ∀ i : ℤ, 1 ≤ i → i ≤ m → (part mtch i = some doublestar ↔ needed mtch i = needed mtch (i - 1)) := by
    intro i h1 h2
    obtain ⟨p, hp⟩ := part_inside mtch h1 (h2.trans hm)
    rw [needed_part hp, hp]
    by_cases hd : Deep p
    · simp only [if_pos hd, Option.some.injEq, Nat.add_zero, iff_true]
      exact hd
    · simp only [if_neg hd, Option.some.injEq, Nat.add_eq_left, Nat.one_ne_zero, iff_false]
      exact hd
  simp only [match_rest, List.all_eq_true, List.mem_range, decide_eq_true_eq]
  constructor
  · intro h
    have hzero : ∀ n : ℕ, (n : ℤ) ≤ m → needed mtch n = 0 := by
      intro n hn
      induction n with
      | zero => exact needed_nonpos mtch le_rfl
      | succ n ih =>
        have hp := h (m - (n + 1)).toNat (by omega)
        rw [show m - ((m - (n + 1)).toNat : ℤ) = ((n + 1 : ℕ) : ℤ) by omega, hpart _ (by omega) hn] at hp
        rw [hp, show ((n + 1 : ℕ) : ℤ) - 1 = n by omega]
        exact ih (by omega)
    by_cases h0 : 0 ≤ m
    · have := hzero m.toNat (by omega)
      rwa [Int.toNat_of_nonneg h0] at this
    · exact needed_nonpos mtch (by omega)
  · intro h k hk
    rw [hpart _ (by omega) (by omega)]
    have h1 : needed mtch (m - k) ≤ needed mtch m := needed_mono mtch (by omega)
    have h2 : needed mtch (m - k - 1) ≤ needed mtch m := needed_mono mtch (by omega)
    omega

theorem match_parts_iff {path mtch : List Str} (hne : mtch ≠ [doublestar]) :
    match_parts path mtch = true ↔ Accepts mtch mtch.length path.reverse := by
  have hle : ∀ (xs : List Str) (m m' : ℤ), m ≤ mtch.length → xs.foldlM (match_step mtch) m = some m' →
      m' ≤ mtch.length := by
    intro xs
    induction xs with
    | nil => intro m m' hm h; cases h; exact hm
    | cons x xs ih =>
      intro m m' hm h
      rw [List.foldlM_cons] at h
      obtain ⟨m1, h1, h2⟩ := Option.bind_eq_some_iff.1 h
      exact ih m1 m' (step_le h1 hm) h2
  rw [match_parts, if_neg hne, Accepts]
  cases hf : path.reverse.foldlM (match_step mtch) (mtch.length : ℤ) with
  | none => simp
  | some m =>
    have hm := hle _ _ _ le_rfl hf
    simp only [Option.some.injEq, exists_eq_left']
    split_ifs with h0
    · simp [h0, needed_nonpos]
    · exact match_rest_iff hm

end Shuttlesock.MatchPath
