/-
The parents of a Lua module: the text that `module:add` of `modules/lua_bridge/api/module.lua` makes of the declared list, and what
`split_parent_modules_string` reads in it.

Model: the names are joined by `table.concat` without a separator and handed on as a C string. Without a parent there is no text, which
`Module.new` takes for the empty one.

Two names become one.

Results:
- `declared_iff`: the parents of a module are the declared ones for no name and for one name, of the characters of a module's name.
- `not_declared`: two parents.
-/
import Mathlib.Tactic
import Shuttlesock.Core.Cells
import Shuttlesock.Module.Registry

namespace Shuttlesock.Registration

open Shuttlesock.Runs
open Shuttlesock.Cells (c_string c_string_eq)

/-! ## The text -/

/-- `module_table.parent_modules`, with nil for no parents -/
def concat_parent_modules (parent_modules : List Str) : Option Str :=
  if 0 < parent_modules.length then some parent_modules.flatten else none

/-- the string that `Module.new` is called with -/
def parent_modules_string (parent_modules : List Str) : Str := ((concat_parent_modules parent_modules).map c_string).getD []

/-- **The property**: the declared list is read back, so that a module that is added with it has these parents, and recording them makes
it a dependent of each and of nothing else. -/
structure Declared (parent_modules : List Str) : Prop where
  parsed : split_parent_modules_string (parent_modules_string parent_modules) = .ok parent_modules
  added : ∀ o r a m, a.parent_module_names_string = parent_modules_string parent_modules → (new o r a).2 = .ok m →
    m.parent_module_names = parent_modules
  depends : ∀ o r a m, Reach step always Registry.empty r → a.parent_module_names_string = parent_modules_string parent_modules →
    (new o r a).2 = .ok m → ∀ p, a.name ∈ (add_dependencies r a.name m.parent_module_names).dependents p ↔
      a.name ∈ r.dependents p ∨ p ∈ parent_modules

/-- **The condition** -/
def Single (parent_modules : List Str) : Prop := parent_modules = [] ∨ ∃ w, parent_modules = [w] ∧ w ≠ [] ∧ w.all isword

/-! ## Reading words -/

/-- no piece of a split has a separator in it -/
theorem splitOnP_clean {p : Char → Bool} {t w : Str} (h : w ∈ t.splitOnP p) {c : Char} (hc : c ∈ w) : p c = false := by
  induction t generalizing w with
  | nil =>
    simp only [List.splitOnP_nil, List.mem_singleton] at h
    simp [h] at hc
  | cons x t ih =>
    rw [List.splitOnP_cons_eq_if_modifyHead] at h
    obtain ⟨v, vs, hv⟩ := List.exists_cons_of_ne_nil (List.splitOnP_ne_nil p t)
    split_ifs at h with hx
    · rcases List.mem_cons.1 h with rfl | h
      · simp at hc
      · exact ih h hc
    · rw [hv, List.modifyHead_cons] at h
      rcases List.mem_cons.1 h with rfl | h
      · rcases List.mem_cons.1 hc with rfl | hc
        · simpa using hx
        · exact ih (hv ▸ List.mem_cons_self) hc
      · exact ih (hv ▸ List.mem_cons_of_mem v h) hc

theorem mem_runs {p : Char → Bool} {t w : Str} (h : w ∈ runs p t) : w ≠ [] ∧ w.all p := by
  obtain ⟨hw, hne⟩ := List.mem_filter.1 h
  exact ⟨by simpa using hne, List.all_eq_true.2 fun c hc => by simpa using splitOnP_clean hw hc⟩

theorem runs_single {p : Char → Bool} {w : Str} (hne : w ≠ []) (h : w.all p) : runs p w = [w] := by
  have hp : ∀ c ∈ w, (!p c) = false := fun c hc => by simp [List.all_eq_true.1 h c hc]
  simp [runs, List.splitOnP_eq_singleton hp, hne]

/-- what is read are the words of the text -/
theorem split_ok {str : Str} {res : List Str} (h : split_parent_modules_string str = .ok res) : res = runs isword str := by
  unfold split_parent_modules_string at h
  split at h
  · simp at h
  · simpa using parents_loop_ok h

theorem split_word {w : Str} (hne : w ≠ []) (h : w.all isword) : split_parent_modules_string w = .ok [w] := by
  have hf : w.find? (fun c => !(isspace c || isword c)) = none := by
    rw [List.find?_eq_none]
    intro c hc
    simp [List.all_eq_true.1 h c hc]
  unfold split_parent_modules_string
  rw [hf, runs_single hne h]
  exact if_neg List.not_mem_nil

/-! ## The declared list -/

/-- a word is handed on whole -/
theorem c_string_word {w : Str} (h : w.all isword) : c_string w = w := by
  have hz : isword '\x00' = false := by decide
  apply c_string_eq
  intro hc
  have hw := List.all_eq_true.1 h _ hc
  rw [hz] at hw
  cases hw

theorem parent_modules_string_words {parent_modules : List Str} (h : ∀ w ∈ parent_modules, w.all isword) :
    parent_modules_string parent_modules = parent_modules.flatten := by
  have hw : parent_modules.flatten.all isword := by
    rw [List.all_flatten]
    exact List.all_eq_true.2 h
  unfold parent_modules_string concat_parent_modules
  split_ifs with hl
  · simp [c_string_word hw]
  · obtain rfl : parent_modules = [] := by simpa using hl
    rfl

theorem parents_parsed_iff (parent_modules : List Str) :
    split_parent_modules_string (parent_modules_string parent_modules) = .ok parent_modules ↔ Single parent_modules := by
  constructor
  · intro h
    have hr := split_ok h
    have hw : ∀ w ∈ parent_modules, w ≠ [] ∧ w.all isword := fun w hw => mem_runs (hr ▸ hw)
    rw [parent_modules_string_words fun w h => (hw w h).2] at hr
    cases parent_modules with
    | nil => exact .inl rfl
    | cons w ws =>
      -- the text is a single word, so that one name is read
      have hne : (w :: ws).flatten ≠ [] := by simp [(hw w List.mem_cons_self).1]
      have hall : (w :: ws).flatten.all isword := by
        rw [List.all_flatten]
        exact List.all_eq_true.2 fun v hv => (hw v hv).2
      rw [runs_single hne hall] at hr
      obtain ⟨-, rfl⟩ := List.cons.inj hr
      exact .inr ⟨w, rfl, hw w List.mem_cons_self⟩
  · rintro (rfl | ⟨w, rfl, hne, h⟩)
    · rfl
    · rw [parent_modules_string_words (by simpa using h)]
      simpa using split_word hne h

theorem new_parents {o : Pairs} {r : Registry} {a : Args} {m : Mod} (h : (new o r a).2 = .ok m) :
    split_parent_modules_string a.parent_module_names_string = .ok m.parent_module_names := by
  unfold new at h
  split at h
  · simp at h
  · rename_i parents subscribe hc
    dsimp only at h
    split at h
    · simp at h
    · cases h
      unfold check at hc
      split_ifs at hc
      split at hc
      · simp at hc
      · rename_i hp
        split at hc
        · simp at hc
        · cases hc
          exact hp

theorem add_dependencies_iff {r : Registry} (h : Inverse r) (d : Str) (ps : List Str) (p : Str) :
    d ∈ (add_dependencies r d ps).dependents p ↔ d ∈ r.dependents p ∨ p ∈ ps := by
  induction ps generalizing r with
  | nil => simp [add_dependencies]
  | cons q ps ih =>
    have hq : d ∈ (add_dependency r q d).dependents p ↔ d ∈ r.dependents p ∨ p = q := by
      by_cases hd : d ∈ r.dependents q
      · rw [h.add_known hd]
        constructor
        · exact .inl
        · rintro (h | rfl)
          · exact h
          · exact hd
      · rw [h.add_fresh hd]
        by_cases hp : p = q
        · subst hp
          simp
        · simp [hp]
    calc d ∈ (add_dependencies r d (q :: ps)).dependents p
        ↔ d ∈ (add_dependency r q d).dependents p ∨ p ∈ ps := ih (add_dependency_inverse h q d)
      _ ↔ d ∈ r.dependents p ∨ p ∈ q :: ps := by rw [hq, List.mem_cons, or_assoc]

/-- **When the parents are the declared ones.** -/
theorem declared_iff (parent_modules : List Str) : Declared parent_modules ↔ Single parent_modules := by
  constructor
  · intro h
    exact (parents_parsed_iff parent_modules).1 h.parsed
  · intro h
    have hp := (parents_parsed_iff parent_modules).2 h
    have hm : ∀ o r a m, a.parent_module_names_string = parent_modules_string parent_modules → (new o r a).2 = .ok m →
        m.parent_module_names = parent_modules := by
      intro o r a m ha hn
      have hs := new_parents hn
      rw [ha, hp] at hs
      exact (Except.ok.inj hs).symm
    refine ⟨hp, hm, fun o r a m hr ha hn p => ?_⟩
    rw [hm o r a m ha hn]
    exact add_dependencies_iff (reach_inverse hr) a.name parent_modules p

/-- two parents are read as one -/
theorem not_declared : ∃ parent_modules, ¬ Declared parent_modules ∧
    split_parent_modules_string (parent_modules_string parent_modules) = .ok ["foobar".toList] := by
  refine ⟨["foo".toList, "bar".toList], fun h => ?_, by decide +kernel⟩
  have hf : split_parent_modules_string (parent_modules_string ["foo".toList, "bar".toList]) = .ok ["foobar".toList] := by
    decide +kernel
  have hp := h.parsed
  rw [hf] at hp
  simp at hp

end Shuttlesock.Registration
