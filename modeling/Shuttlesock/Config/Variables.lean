/-
Looking up a variable: `config:find_variable` of `config.lua`, in the tables that `register_variable` fills.

The candidates for a name are collected from the tables, and those of another module or for another path are removed from the list
while a loop goes over it. The candidate behind a removed one is not looked at, so it stays.

Model: the tables are lists, in the order in which `pairs` has them; `Frame` is a block above, the innermost first. `known` are the
names of the modules that there are. Two tables of a variable with the same fields are the same variable. A set-variable comes with
the distance of its block; `missing` and `ambiguous` are nil and an error.

Results:
- `left_clean`: when the two loops leave what fits, and nothing else.
- `find_variable_iff`: the exact condition for the variable that is found to be the one of the name, module and path.
- `find_variable_found`: the lookups of `setting_instrings` are this one.
- `wrong_variable`: a variable for a path that does not match.
-/
import Mathlib.Tactic
import Shuttlesock.Core.Sweep
import Shuttlesock.Config.Register
import Shuttlesock.Config.Resolve

namespace Shuttlesock.Variables

open Shuttlesock.Register (Tables Var match_index VarTable)
open Shuttlesock.Settings (Frame Instring lookup find_setvar frames_path path_matches)
open Shuttlesock.Parser (Str)
open Shuttlesock.Sweep

/-! ## find_variable -/

/-- the name in a pattern of `prefix_match` -/
def pattern_name (pattern : Str) : Str := (pattern.drop 1).take (pattern.length - 10)

/-- `name:match(pattern)` -/
def matches_pattern (name pattern : Str) : Bool := (pattern_name pattern).isPrefixOf name

/-- `possible_module_vars` -/
def possible_module_vars (t : Tables) (name : Str) : List Var :=
  ((t.prefix_match.filter fun p => matches_pattern name p.1).flatMap fun p => p.2.map Prod.snd) ++
    ((lookup t.name name).getD []).map Prod.snd

/-- a variable of another module than the requested one -/
def wrong_module (module_name : Option Str) (var : Var) : Bool := module_name.any fun m => var.module_name ≠ m

def wrong_path (frames : List Frame) (var : Var) : Bool := !path_matches (frames_path frames) var.path

inductive Found where
  | set (ins : Instring) (block_distance : ℕ)
  | var (var : Var)
  | missing (err : String)
  | ambiguous (err : String)
deriving DecidableEq

/-- from the loop over the paths on -/
def find_by_path (frames : List Frame) (name : Str) (vars : List Var) : Found :=
  match sweep (wrong_path frames) vars.length 0 vars with
  | [] => .missing s!"no variable ${String.ofList name} matches for the path of the config block"
  | [var] => .var var
  | vars =>
    let module_names := (vars.map fun v => String.ofList v.module_name).mergeSort
    .ambiguous (s!"variable ${String.ofList name} is ambiguous, could be for any of these modules: " ++
      ", ".intercalate module_names)

/-- from the loop over the modules on -/
def find_by_module (frames : List Frame) (name : Str) (module_name : Option Str) (vars : List Var) : Found :=
  match module_name with
  | none => find_by_path frames name vars
  | some m =>
    match sweep (wrong_module module_name) vars.length 0 vars with
    | [] => .missing s!"no variable ${String.ofList name} for module {String.ofList m}"
    | vars => find_by_path frames name vars

def find_variable (t : Tables) (known : Str → Bool) (frames : List Frame) (name : Str) (module_name : Option Str) : Found :=
  match module_name.filter fun m => !known m with
  | some m => .missing s!"no such module {String.ofList m} for variable ${String.ofList name}"
  | none =>
    match find_setvar name frames 0 with
    | some (ins, 0) => .set ins 0
    | some (ins, block_distance) =>
      if possible_module_vars t name = [] then .set ins block_distance
      else find_by_module frames name module_name (possible_module_vars t name)
    | none =>
      if possible_module_vars t name = [] then .missing s!"no such variable ${String.ofList name}"
      else find_by_module frames name module_name (possible_module_vars t name)

/-! ## The property -/

section
variable (t : Tables) (frames : List Frame) (name : Str) (module_name : Option Str)

/-- a registered variable whose name or prefix matches -/
def Registered (var : Var) : Prop :=
  (∃ l id, lookup t.name name = some l ∧ (id, var) ∈ l) ∨
    ∃ pattern l id, (pattern, l) ∈ t.prefix_match ∧ matches_pattern name pattern = true ∧ (id, var) ∈ l

/-- of the requested module, and for the path of the block -/
structure Fits (var : Var) : Prop where
  registered : Registered t name var
  module_name : ∀ m, module_name = some m → var.module_name = m
  path : path_matches (frames_path frames) var.path = true

/-- **The property** -/
structure Finds (r : Found) : Prop where
  own : ∀ ins, find_setvar name frames 0 = some (ins, 0) → r = .set ins 0
  single : (∀ ins, find_setvar name frames 0 ≠ some (ins, 0)) →
    ∀ var, Fits t frames name module_name var → (∀ w, Fits t frames name module_name w → w = var) → r = .var var
  ambiguous : (∀ ins, find_setvar name frames 0 ≠ some (ins, 0)) →
    ((∃ var w, Fits t frames name module_name var ∧ Fits t frames name module_name w ∧ var ≠ w) ↔ ∃ err, r = .ambiguous err)
  above : ∀ ins block_distance, find_setvar name frames 0 = some (ins, block_distance) →
    (∀ var, ¬ Fits t frames name module_name var) → r = .set ins block_distance
  missing : find_setvar name frames 0 = none → (∀ var, ¬ Fits t frames name module_name var) → ∃ err, r = .missing err

/-- what the two loops leave are the variables that fit -/
structure Cleared : Prop where
  modules : ∀ before var after, possible_module_vars t name = before ++ var :: after →
    Stays (wrong_module module_name) before var → wrong_path frames var = false → wrong_module module_name var = false
  paths : ∀ var w, Neighbours (Stays (wrong_module module_name)) (possible_module_vars t name) var w →
    ¬ (wrong_path frames var = true ∧ wrong_path frames w = true)

/-- a candidate that fits -/
def fits (var : Var) : Bool := !wrong_module module_name var && !wrong_path frames var

/-- **The condition**, when the module is known -/
def Clear : Prop :=
  (∃ ins, find_setvar name frames 0 = some (ins, 0)) ∨ possible_module_vars t name = [] ∨
    (∃ var w, Fits t frames name module_name var ∧ Fits t frames name module_name w ∧ var ≠ w) ∨
    Cleared t frames name module_name ∧
      ((possible_module_vars t name).countP (fits frames module_name) = 1 ∨
        find_setvar name frames 0 = none ∧ ∀ var, ¬ Fits t frames name module_name var)

end

section
variable {t : Tables} {known : Str → Bool} {frames : List Frame} {name : Str} {module_name : Option Str} {var : Var}

/-- the patterns that are registered match the names they are prefixes of -/
theorem matches_index (n name : Str) : matches_pattern name (match_index (n, true)) = n.isPrefixOf name := by
  simp [matches_pattern, pattern_name, match_index]

theorem mem_possible : var ∈ possible_module_vars t name ↔ Registered t name var := by
  unfold possible_module_vars Registered
  rw [List.mem_append, or_comm]
  refine or_congr ?_ ?_
  · cases lookup t.name name with
    | none => simp
    | some l => simp
  · simp [and_assoc]

theorem fits_iff : Fits t frames name module_name var ↔
    var ∈ possible_module_vars t name ∧ fits frames module_name var = true := by
  have hmodule : wrong_module module_name var = false ↔ ∀ m, module_name = some m → var.module_name = m := by
    cases module_name with
    | none => simp [wrong_module]
    | some m => simp [wrong_module]
  have hpath : wrong_path frames var = false ↔ path_matches (frames_path frames) var.path = true := by simp [wrong_path]
  unfold fits
  rw [Bool.and_eq_true, Bool.not_eq_true', Bool.not_eq_true', hmodule, hpath, mem_possible]
  exact ⟨fun ⟨h, hm, hp⟩ => ⟨h, hm, hp⟩, fun ⟨h, hm, hp⟩ => ⟨h, hm, hp⟩⟩

/-! ## What the loops leave -/

/-- the list behind both loops -/
def left (frames : List Frame) (module_name : Option Str) (vars : List Var) : List Var :=
  spared (wrong_path frames) (spared (wrong_module module_name) vars)

theorem swept (p : Var → Bool) (vars : List Var) : sweep p vars.length 0 vars = spared p vars :=
  sweep_spared p vars.length [] vars le_rfl

theorem left_filter (vars : List Var) :
    (left frames module_name vars).filter (fits frames module_name) = vars.filter (fits frames module_name) := by
  unfold left
  rw [spared_filter (by simp +contextual [fits]), spared_filter (by simp +contextual [fits])]

/-- **What is left fits**, exactly under the two conditions -/
theorem left_clean (t : Tables) (frames : List Frame) (name : Str) (module_name : Option Str) :
    Cleared t frames name module_name ↔
      ∀ var ∈ left frames module_name (possible_module_vars t name), fits frames module_name var = true := by
  have hpaths := spared_clean (p := wrong_path frames) (spared (wrong_module module_name) (possible_module_vars t name))
  rw [spared_chain] at hpaths
  have hkeep : ∀ var, wrong_path frames var = false → (var ∈ left frames module_name (possible_module_vars t name) ↔
      var ∈ spared (wrong_module module_name) (possible_module_vars t name)) := by
    intro var hvar
    have hfilter := spared_filter (p := wrong_path frames) (q := fun v => !wrong_path frames v) (by simp)
      (spared (wrong_module module_name) (possible_module_vars t name))
    have hmem := congrArg (var ∈ ·) hfilter
    simpa [hvar, left] using hmem
  constructor
  · intro h var hvar
    have hpath : wrong_path frames var = false := hpaths.2 h.paths var hvar
    obtain ⟨before, after, heq, hstays⟩ := mem_spared.1 ((hkeep var hpath).1 hvar)
    have hmodule := h.modules before var after heq hstays hpath
    simp [fits, hpath, hmodule]
  · intro h
    have hfits : ∀ var ∈ left frames module_name (possible_module_vars t name),
        wrong_module module_name var = false ∧ wrong_path frames var = false := by
      simpa [fits] using h
    refine ⟨fun before var after heq hstays hpath => ?_, hpaths.1 fun var hvar => (hfits var hvar).2⟩
    exact (hfits var ((hkeep var hpath).2 (mem_spared.2 ⟨before, after, heq, hstays⟩))).1

theorem spared_none (vars : List Var) : spared (wrong_module none) vars = vars := by
  induction vars with
  | nil => rfl
  | cons v vars ih => rw [spared_neg rfl, ih]

/-- what is found is told by what is left -/
theorem find_by_path_cases (frames : List Frame) (name : Str) (vars : List Var) :
    (spared (wrong_path frames) vars = [] ∧ ∃ err, find_by_path frames name vars = .missing err) ∨
    (∃ v, spared (wrong_path frames) vars = [v] ∧ find_by_path frames name vars = .var v) ∨
    (∃ v w rest, spared (wrong_path frames) vars = v :: w :: rest) ∧ ∃ err, find_by_path frames name vars = .ambiguous err := by
  unfold find_by_path
  rw [swept]
  match spared (wrong_path frames) vars with
  | [] => exact .inl ⟨rfl, _, rfl⟩
  | [v] => exact .inr (.inl ⟨v, rfl, rfl⟩)
  | v :: w :: rest => exact .inr (.inr ⟨⟨v, w, rest, rfl⟩, _, rfl⟩)

theorem find_by_module_cases (frames : List Frame) (name : Str) (module_name : Option Str) (vars : List Var) :
    (left frames module_name vars = [] ∧ ∃ err, find_by_module frames name module_name vars = .missing err) ∨
    (∃ v, left frames module_name vars = [v] ∧ find_by_module frames name module_name vars = .var v) ∨
    (∃ v w rest, left frames module_name vars = v :: w :: rest) ∧
      ∃ err, find_by_module frames name module_name vars = .ambiguous err := by
  unfold find_by_module left
  cases module_name with
  | none =>
    rw [spared_none]
    exact find_by_path_cases frames name vars
  | some m =>
    dsimp only
    rw [swept]
    cases hleft : spared (wrong_module (some m)) vars with
    | nil => exact .inl ⟨rfl, _, rfl⟩
    | cons v rest => exact find_by_path_cases frames name (v :: rest)

/-- a variable that fits is never removed -/
theorem fits_left (h : Fits t frames name module_name var) : var ∈ left frames module_name (possible_module_vars t name) := by
  have hmem := List.mem_filter.2 (fits_iff.1 h)
  rw [← left_filter] at hmem
  exact List.mem_of_mem_filter hmem

theorem left_fits (h : fits frames module_name var = true) (hvar : var ∈ left frames module_name (possible_module_vars t name)) :
    Fits t frames name module_name var := by
  have hmem := List.mem_filter.2 ⟨hvar, h⟩
  rw [left_filter] at hmem
  exact fits_iff.2 (List.mem_filter.1 hmem)

/-! ## Which variable is found -/

/-- the module is known, or none is requested -/
def Known (known : Str → Bool) (module_name : Option Str) : Prop := ∀ m, module_name = some m → known m = true

theorem known_filter (h : Known known module_name) : (module_name.filter fun m => !known m) = none := by
  cases module_name with
  | none => rfl
  | some m => simp [Option.filter, h m rfl]

theorem find_own {ins : Instring} (h : Known known module_name) (hset : find_setvar name frames 0 = some (ins, 0)) :
    find_variable t known frames name module_name = .set ins 0 := by
  unfold find_variable
  simp [known_filter h, hset]

theorem find_above {ins : Instring} {block_distance : ℕ} (h : Known known module_name)
    (hset : find_setvar name frames 0 = some (ins, block_distance)) (hempty : possible_module_vars t name = []) :
    find_variable t known frames name module_name = .set ins block_distance := by
  unfold find_variable
  rw [known_filter h, hset]
  cases block_distance with
  | zero => rfl
  | succ n => simp [hempty]

theorem find_nothing (h : Known known module_name) (hset : find_setvar name frames 0 = none)
    (hempty : possible_module_vars t name = []) : ∃ err, find_variable t known frames name module_name = .missing err := by
  unfold find_variable
  rw [known_filter h, hset]
  simp [hempty]

theorem find_left (h : Known known module_name) (hset : ∀ ins, find_setvar name frames 0 ≠ some (ins, 0))
    (hne : possible_module_vars t name ≠ []) :
    find_variable t known frames name module_name = find_by_module frames name module_name (possible_module_vars t name) := by
  unfold find_variable
  rw [known_filter h]
  match hfind : find_setvar name frames 0 with
  | none => simp [hne]
  | some (ins, 0) => exact absurd hfind (hset ins)
  | some (ins, n + 1) => simp [hne]

/-- without a candidate nothing fits -/
theorem empty_not_fits (hempty : possible_module_vars t name = []) (var : Var) : ¬ Fits t frames name module_name var := by
  intro h
  have hmem := (fits_iff.1 h).1
  rw [hempty] at hmem
  cases hmem

theorem finds_own {ins : Instring} (hset : find_setvar name frames 0 = some (ins, 0)) :
    Finds t frames name module_name (.set ins 0) where
  own ins' h := by
    rw [hset] at h
    cases h
    rfl
  single h := absurd hset (h ins)
  ambiguous h := absurd hset (h ins)
  above ins' n h _ := by
    rw [hset] at h
    cases h
    rfl
  missing h := by
    rw [hset] at h
    cases h

/-- nothing is found rightly when there is nothing -/
theorem finds_missing_iff {err : String} : Finds t frames name module_name (.missing err) ↔
    find_setvar name frames 0 = none ∧ ∀ var, ¬ Fits t frames name module_name var := by
  constructor
  · intro h
    have hset : ∀ ins, find_setvar name frames 0 ≠ some (ins, 0) := fun ins hins => by cases h.own ins hins
    have hnone : ∀ var, ¬ Fits t frames name module_name var := by
      intro var hvar
      by_cases hall : ∀ w, Fits t frames name module_name w → w = var
      · cases h.single hset var hvar hall
      · push Not at hall
        obtain ⟨w, hw, hne⟩ := hall
        obtain ⟨_, herr⟩ := (h.ambiguous hset).1 ⟨w, var, hw, hvar, hne⟩
        cases herr
    refine ⟨?_, hnone⟩
    cases hsetvar : find_setvar name frames 0 with
    | none => rfl
    | some p => cases h.above p.1 p.2 hsetvar hnone
  · rintro ⟨hsetvar, hnone⟩
    have hset {x : Instring × ℕ} : ¬ find_setvar name frames 0 = some x := by simp [hsetvar]
    exact ⟨fun _ h => absurd h hset, fun _ var h _ => absurd h (hnone var),
      fun _ => ⟨fun ⟨var, _, h, _⟩ => absurd h (hnone var), fun ⟨_, h⟩ => (by cases h)⟩,
      fun _ _ h => absurd h hset, fun _ _ => ⟨err, rfl⟩⟩

/-- the set-variable of a block above, when nothing fits -/
theorem finds_above {ins : Instring} {block_distance : ℕ} (hsetvar : find_setvar name frames 0 = some (ins, block_distance))
    (hnone : ∀ var, ¬ Fits t frames name module_name var) : Finds t frames name module_name (.set ins block_distance) where
  own ins' h := by
    rw [hsetvar] at h
    cases h
    rfl
  single _ var h := absurd h (hnone var)
  ambiguous _ := ⟨fun ⟨var, _, h, _⟩ => absurd h (hnone var), fun ⟨_, h⟩ => (by cases h)⟩
  above ins' n h _ := by
    rw [hsetvar] at h
    cases h
    rfl
  missing h := by
    rw [hsetvar] at h
    cases h

/-- a variable is found rightly when it is the only one that fits -/
theorem finds_var_iff (hset : ∀ ins, find_setvar name frames 0 ≠ some (ins, 0)) :
    Finds t frames name module_name (.var var) ↔
      Fits t frames name module_name var ∧ ∀ w, Fits t frames name module_name w → w = var := by
  constructor
  · intro h
    have hone : ∀ v w, Fits t frames name module_name v → Fits t frames name module_name w → w = v := by
      intro v w hv hw
      by_contra hne
      obtain ⟨_, herr⟩ := (h.ambiguous hset).1 ⟨w, v, hw, hv, hne⟩
      cases herr
    have hfits : Fits t frames name module_name var := by
      by_cases hnone : ∀ v, ¬ Fits t frames name module_name v
      · cases hsetvar : find_setvar name frames 0 with
        | none =>
          obtain ⟨_, herr⟩ := h.missing hsetvar hnone
          cases herr
        | some p => cases h.above p.1 p.2 hsetvar hnone
      · push Not at hnone
        obtain ⟨v, hv⟩ := hnone
        cases h.single hset v hv fun w hw => hone v w hv hw
        exact hv
    exact ⟨hfits, fun w hw => hone var w hfits hw⟩
  · rintro ⟨hfits, hall⟩
    exact ⟨fun ins h => absurd h (hset ins), fun _ v hv _ => (by rw [hall v hv]),
      fun _ => ⟨fun ⟨v, w, hv, hw, hne⟩ => absurd ((hall v hv).trans (hall w hw).symm) hne, fun ⟨_, h⟩ => (by cases h)⟩,
      fun _ _ _ h => absurd hfits (h var), fun _ h => absurd hfits (h var)⟩

theorem finds_ambiguous_iff {err : String} (hset : ∀ ins, find_setvar name frames 0 ≠ some (ins, 0)) :
    Finds t frames name module_name (.ambiguous err) ↔
      ∃ v w, Fits t frames name module_name v ∧ Fits t frames name module_name w ∧ v ≠ w := by
  constructor
  · exact fun h => (h.ambiguous hset).2 ⟨err, rfl⟩
  · rintro ⟨v, w, hv, hw, hne⟩
    exact ⟨fun ins h => absurd h (hset ins), fun _ x _ hall => absurd ((hall v hv).trans (hall w hw).symm) hne,
      fun _ => ⟨fun _ => ⟨err, rfl⟩, fun _ => ⟨v, w, hv, hw, hne⟩⟩, fun _ _ _ h => absurd hv (h v), fun _ h => absurd hv (h v)⟩

/-- **The two loops**: of candidates, the variable that is found is the right one under the condition -/
theorem find_by_module_iff (hset : ∀ ins, find_setvar name frames 0 ≠ some (ins, 0)) :
    Finds t frames name module_name (find_by_module frames name module_name (possible_module_vars t name)) ↔
      (∃ var w, Fits t frames name module_name var ∧ Fits t frames name module_name w ∧ var ≠ w) ∨
      Cleared t frames name module_name ∧ ((possible_module_vars t name).countP (fits frames module_name) = 1 ∨
        find_setvar name frames 0 = none ∧ ∀ var, ¬ Fits t frames name module_name var) := by
  have hclean := left_clean t frames name module_name
  rw [List.countP_eq_length_filter, ← left_filter]
  rcases find_by_module_cases frames name module_name (possible_module_vars t name) with
    ⟨hleft, err, hfound⟩ | ⟨v, hleft, hfound⟩ | ⟨⟨v, w, rest, hleft⟩, err, hfound⟩
  all_goals rw [hfound]
  · -- nothing is left: nothing fits
    have hnone : ∀ var, ¬ Fits t frames name module_name var := by
      intro var h
      have hmem := fits_left h
      rw [hleft] at hmem
      cases hmem
    rw [finds_missing_iff]
    constructor
    · exact fun h => .inr ⟨hclean.2 (by simp [hleft]), .inr h⟩
    · rintro (⟨var, w, hvar, -⟩ | ⟨-, hlen | h⟩)
      · exact absurd hvar (hnone var)
      · simp [hleft] at hlen
      · exact h
  · have hmem : v ∈ left frames module_name (possible_module_vars t name) := by
      rw [hleft]
      exact List.mem_singleton_self v
    have hall : ∀ var, Fits t frames name module_name var → var = v := by
      intro var h
      have hvar := fits_left h
      rw [hleft] at hvar
      exact List.mem_singleton.1 hvar
    rw [finds_var_iff hset]
    constructor
    · rintro ⟨hfits, -⟩
      have hf := (fits_iff.1 hfits).2
      exact .inr ⟨hclean.2 (by simp [hleft, hf]), .inl (by simp [hleft, hf])⟩
    · rintro (⟨var, w, hvar, hw, hne⟩ | ⟨hcleared, -⟩)
      · exact absurd ((hall var hvar).trans (hall w hw).symm) hne
      · exact ⟨left_fits (hclean.1 hcleared v hmem) hmem, hall⟩
  · have hmem : v ∈ left frames module_name (possible_module_vars t name) := by
      rw [hleft]
      exact List.mem_cons_self
    rw [finds_ambiguous_iff hset]
    constructor
    · exact .inl
    · rintro (htwo | ⟨hcleared, hlen | ⟨-, hnone⟩⟩)
      · exact htwo
      · -- v and w are two of what fits
        rw [List.filter_eq_self.2 (hclean.1 hcleared), hleft] at hlen
        simp at hlen
      · exact absurd (left_fits (hclean.1 hcleared v hmem) hmem) (hnone v)

/-- **The variable that is found.** It is the one of the property exactly when the module is known and the loops leave what they
should, or the module is unknown and there is nothing to find. -/
theorem find_variable_iff (t : Tables) (known : Str → Bool) (frames : List Frame) (name : Str) (module_name : Option Str) :
    Finds t frames name module_name (find_variable t known frames name module_name) ↔
      Known known module_name ∧ Clear t frames name module_name ∨
      ¬ Known known module_name ∧ find_setvar name frames 0 = none ∧ ∀ var, ¬ Fits t frames name module_name var := by
  by_cases h : Known known module_name
  · rw [and_iff_right h, or_iff_left fun hn => hn.1 h]
    unfold Clear
    by_cases hset : ∃ ins, find_setvar name frames 0 = some (ins, 0)
    · obtain ⟨ins, hins⟩ := hset
      rw [find_own h hins]
      exact iff_of_true (finds_own hins) (.inl ⟨ins, hins⟩)
    · rw [or_iff_right hset]
      push Not at hset
      by_cases hempty : possible_module_vars t name = []
      · refine iff_of_true ?_ (.inl hempty)
        have hnone : ∀ var, ¬ Fits t frames name module_name var := empty_not_fits hempty
        cases hsetvar : find_setvar name frames 0 with
        | none =>
          obtain ⟨err, herr⟩ := find_nothing (t := t) h hsetvar hempty
          rw [herr]
          exact finds_missing_iff.2 ⟨hsetvar, hnone⟩
        | some p =>
          rw [find_above h hsetvar hempty]
          exact finds_above hsetvar hnone
      · rw [or_iff_right hempty, find_left h hset hempty, find_by_module_iff hset]
  · rw [or_iff_right fun hn => h hn.1, and_iff_right h]
    obtain ⟨m, rfl, hm⟩ : ∃ m, module_name = some m ∧ known m = false := by
      unfold Known at h
      push Not at h
      obtain ⟨m, hm, hk⟩ := h
      exact ⟨m, hm, by simpa using hk⟩
    have hfound : ∃ err, find_variable t known frames name (some m) = .missing err := by
      unfold find_variable
      simp [Option.filter, hm]
    obtain ⟨err, herr⟩ := hfound
    rw [herr, finds_missing_iff]

end

/-! ## The lookups of setting_instrings -/

/-- what `setting_instrings` looks at -/
def Found.toFound : Found → Settings.Found
  | .set ins _ => .set ins
  | .var _ => .eval
  | .missing err => .missing err
  | .ambiguous err => .missing err

def module_var (var : Var) : Settings.ModuleVar := ⟨var.module_name, var.path⟩

/-- the tables of a configuration -/
def config_vars (vars : VarTable) (index : Str → Str) : List (Str × List Settings.ModuleVar) :=
  vars.map fun p => (index p.1, p.2.map fun q => module_var q.2)

/-- a configuration with these variables -/
structure Configures (t : Tables) (c : Settings.Config) : Prop where
  prefix_match : c.prefix_match = config_vars t.prefix_match pattern_name
  name : c.name = config_vars t.name id

theorem lookup_map_snd {α β : Type} (l : List (Str × α)) (f : α → β) (key : Str) :
    lookup (l.map fun p => (p.1, f p.2)) key = (lookup l key).map f := by
  unfold lookup
  rw [List.find?_map, Option.map_map, Option.map_map]
  rfl

theorem possible_found {t : Tables} {c : Settings.Config} (h : Configures t c) (name : Str) :
    Settings.possible_module_vars c name = (possible_module_vars t name).map module_var := by
  have hname : lookup c.name name = (lookup t.name name).map fun l => l.map fun q => module_var q.2 := by
    rw [h.name]
    exact lookup_map_snd t.name _ name
  unfold Settings.possible_module_vars possible_module_vars
  rw [h.prefix_match, hname, config_vars, List.map_append, List.filter_map, List.flatMap_map, List.map_flatMap]
  congr 1
  · congr 1
    funext p
    simp
  · cases lookup t.name name with
    | none => rfl
    | some l => simp

theorem unmatched_spared (frames : List Frame) (vars : List Var) :
    Settings.remove_unmatched (frames_path frames) (vars.map module_var) = (spared (wrong_path frames) vars).map module_var := by
  have hpath : ∀ var, path_matches (frames_path frames) (module_var var).path = !wrong_path frames var := by
    simp [wrong_path, module_var]
  induction vars using spared.induct (wrong_path frames) with
  | case1 => rfl
  | case2 x hx => simp [Settings.remove_unmatched, spared, hpath, hx]
  | case3 x hx => simp [Settings.remove_unmatched, spared, hpath, hx]
  | case4 x y l hx ih =>
    rw [spared_pos hx]
    simp only [List.map_cons, ← ih]
    simp [Settings.remove_unmatched, hpath, hx]
  | case5 x y l hx ih =>
    have hx : wrong_path frames x = false := by simpa using hx
    rw [spared_neg hx, List.map_cons (l := spared (wrong_path frames) (y :: l)), ← ih]
    simp [Settings.remove_unmatched, hpath, hx]

/-- **The lookups of `setting_instrings`** are the ones without a module -/
theorem find_variable_found {t : Tables} {c : Settings.Config} (h : Configures t c) (known : Str → Bool) (frames : List Frame)
    (name : Str) : Settings.find_variable c frames name = (find_variable t known frames name none).toFound := by
  have hloop : Settings.find_module_var c name frames =
      (find_by_module frames name none (possible_module_vars t name)).toFound := by
    unfold Settings.find_module_var find_by_module find_by_path
    rw [possible_found h, unmatched_spared, swept]
    match spared (wrong_path frames) (possible_module_vars t name) with
    | [] => rfl
    | [v] => rfl
    | v :: w :: rest =>
      simp [Found.toFound, module_var, Function.comp_def, toString]
  have hempty : Settings.possible_module_vars c name = [] ↔ possible_module_vars t name = [] := by
    rw [possible_found h, List.map_eq_nil_iff]
  unfold Settings.find_variable find_variable
  rw [Option.filter_none]
  match find_setvar name frames 0 with
  | some (ins, 0) => rfl
  | some (ins, n + 1) =>
    by_cases hcand : possible_module_vars t name = []
    · simp [hcand, hempty.2 hcand, Found.toFound]
    · simp [hcand, mt hempty.1 hcand, hloop]
  | none =>
    by_cases hcand : possible_module_vars t name = []
    · simp [hcand, hempty.2 hcand, Found.toFound, toString]
    · simp [hcand, mt hempty.1 hcand, hloop]

/-! ## A variable of another path -/

/-- `$x` of a module, for the blocks with a path -/
def x_of (path : String) : Register.VarDescription := ⟨['x'], path.toList, .nil, 0, none⟩

def server_x (module_name : Str) : Var := ⟨['x'], "server".toList, module_name, [], 0, none⟩

/-- the tables with two of them -/
def server_vars : Tables := ⟨[], [], [(['x'], [("$m:x".toList, server_x ['m']), ("$n:x".toList, server_x ['n'])])], []⟩

def root_frame : Frame := ⟨Settings.block_head "::ROOT".toList, [], []⟩

/-- **The variable of another block**: two modules have `$x` in the blocks of `server`, and the root block finds the second. -/
theorem wrong_variable : ∃ t₁, Register.register_variable ⟨[], [], [], []⟩ ['m'] (x_of "server") [some ['x']] = (.ok (), t₁) ∧
    Register.register_variable t₁ ['n'] (x_of "server") [some ['x']] = (.ok (), server_vars) ∧
    find_variable server_vars (fun _ => true) [root_frame] ['x'] none = .var (server_x ['n']) ∧
    ¬ Finds server_vars [root_frame] ['x'] none (.var (server_x ['n'])) := by
  refine ⟨_, rfl, rfl, rfl, fun h => ?_⟩
  have hpath : path_matches (frames_path [root_frame]) "server".toList = false := by decide
  have hserver : ∀ var, Registered server_vars ['x'] var → var.path = "server".toList := by
    rintro var (⟨l, id, hl, hmem⟩ | ⟨pattern, l, id, hmem, -⟩)
    · cases hl
      simp only [List.mem_cons, Prod.mk.injEq, List.not_mem_nil, or_false] at hmem
      rcases hmem with ⟨-, rfl⟩ | ⟨-, rfl⟩
      · rfl
      · rfl
    · cases hmem
  have hnone : ∀ var, ¬ Fits server_vars [root_frame] ['x'] none var := by
    intro var hvar
    have hmatches := hvar.path
    rw [hserver var hvar.registered, hpath] at hmatches
    cases hmatches
  obtain ⟨err, herr⟩ := h.missing rfl hnone
  cases herr

end Shuttlesock.Variables
