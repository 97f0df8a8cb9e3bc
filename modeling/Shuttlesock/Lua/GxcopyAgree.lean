/-
Where `gxcopy_check` and gxcopy agree (`api/core.lua`, `lua_utils.c`).

Results:
- `copy_visit`: gxcopy finds all that is reached, or stops at something that is not good.
- `agree`: where objects are alike, `gxcopy_check` accepts a value exactly when it can be copied.
- `userdata_refused`: a userdata that can be copied, and is not accepted.
-/
import Mathlib.Tactic
import Shuttlesock.Lua.GxcopyAlike

namespace Shuttlesock.GxcopyCheck

open Shuttlesock.Search
open Shuttlesock.Lua (keyFirst)
open Shuttlesock.Gxcopy (Res bytes)

variable {O : Type*} [DecidableEq O] {L : Source O} {D : Destination O} {v₀ : Val O} {k : ℕ} {c : O → Bool} {o : O}

/-! ## Objects that are not walked -/

/-- has a copy, or needs none -/
def Mark (L : Source O) (c : O → Bool) (o : O) : Prop := c o = true ∨ Stop L o

theorem mark_update {n : O} : Mark L (Function.update c o true) n ↔ Mark L c n ∨ n = o := by
  unfold Mark
  rw [update_true]
  exact or_right_comm

theorem package_copied (hA : Alike L D v₀) (ho : Reached L v₀ o) (hl : L.loaded o = true) :
    gxcopy_package_loaded D o c = .ok c := if_pos (hA.package o ho hl).1

theorem eq_globals (hA : Alike L D v₀) (ho : Reached L v₀ o) (hkind : L.kind o = .table) :
    L.eq (.object L.globals) (.object o) = some (decide (o = L.globals)) := by
  by_cases h : o = L.globals
  · rw [h, decide_eq_true rfl]
    exact if_pos rfl
  · rw [decide_eq_false h]
    exact hA.globals o ho hkind h

/-- an object with a mark is copied already, or refused -/
theorem copy_marked (hA : Alike L D v₀) (ho : Reached L v₀ o) (hmark : Mark L c o)
    (hwalked : ¬ (¬ Stop L o ∧ (L.kind o = .userdata ∨ L.kind o = .thread)))
    (any : Val O → (O → Bool) → Res (O → Bool)) : gxcopy_object L D any o c = .ok c := by
  have hcached : L.loaded o ≠ true → o ≠ L.globals → c o = true := fun hl hg => hmark.resolve_right fun h => h.elim hl hg
  have hfunction : ∀ h : L.kind o ≠ .table, gxcopy_function L D any o true c = .ok c := by
    intro h
    unfold gxcopy_function
    split_ifs with hl hc
    · exact package_copied hA ho hl
    · rfl
    all_goals exact absurd (hcached hl fun hg => h (hg ▸ L.globals_table)) hc
  unfold gxcopy_object
  cases hkind : L.kind o with
  | table =>
    dsimp only
    unfold gxcopy_table
    rw [eq_globals hA ho hkind]
    by_cases hg : o = L.globals
    · rw [decide_eq_true hg]
    · rw [decide_eq_false hg]
      dsimp only
      split_ifs with hl hc
      · exact package_copied hA ho hl
      · rfl
      · exact absurd (hcached hl hg) hc
  | lua_function => exact hfunction (by rw [hkind]; decide)
  | c_function => exact hfunction (by rw [hkind]; decide)
  | userdata =>
    rcases not_not.1 fun h => hwalked ⟨h, .inl hkind⟩ with hl | hg
    · dsimp only
      unfold gxcopy_userdata
      rw [if_pos hl]
      exact package_copied hA ho hl
    · rw [hg, L.globals_table] at hkind
      cases hkind
  | thread =>
    rcases not_not.1 fun h => hwalked ⟨h, .inr hkind⟩ with hl | hg
    · exact absurd hkind (hA.package o ho hl).2
    · rw [hg, L.globals_table] at hkind
      cases hkind

/-- a userdata or a coroutine is not copied -/
theorem copy_refused (hA : Alike L D v₀) (ho : Reached L v₀ o) (hstop : ¬ Stop L o)
    (hkind : L.kind o = .userdata ∨ L.kind o = .thread) :
    ∃ r, (∀ c', r ≠ .ok c') ∧ ∀ any, gxcopy_object L D any o c = r := by
  unfold gxcopy_object
  rcases hkind with hkind | hkind
  · rw [hkind]
    dsimp only
    unfold gxcopy_userdata
    simp only [if_neg fun hl => hstop (.inl hl)]
    cases hm : L.metatable o with
    | none => exact ⟨.fail, fun c' h => (by cases h), fun _ => rfl⟩
    | some m =>
      dsimp only
      cases hsave : L.index (.object m) "__gxcopy_save" with
      | none => exact ⟨.raise, fun c' h => (by cases h), fun _ => rfl⟩
      | some save =>
        dsimp only
        by_cases hfun : L.isfunction save = false
        · exact ⟨.fail, fun c' h => (by cases h), fun _ => if_pos hfun⟩
        · cases hload : L.index (.object m) "__gxcopy_load" with
          | none => exact ⟨.raise, fun c' h => (by cases h), fun _ => if_neg hfun⟩
          | some load =>
            have hnot := hA.userdata o ho hstop hkind m save load hm hsave hload (Bool.eq_true_of_not_eq_false hfun)
            refine ⟨.fail, fun c' h => (by cases h), fun _ => ?_⟩
            rw [if_neg hfun]
            exact if_pos hnot
  · rw [hkind]
    exact ⟨.fail, fun c' h => (by cases h), fun _ => rfl⟩

/-! ## Metatables -/

theorem upvalue_globals {mt : Val O} {g : O} (h : metatable_function L mt g = some true) :
    ∀ up ∈ L.upvalues g, L.eq up (.object L.globals) = some true := by
  intro up hup
  unfold metatable_function at h
  match hups : L.upvalues g with
  | [] =>
    rw [hups] at hup
    exact absurd hup List.not_mem_nil
  | [u] =>
    rw [hups] at hup h
    rw [List.mem_singleton.1 hup]
    dsimp only at h
    rcases hu : L.eq u (.object L.globals) with _ | _ | _
    · rw [hu] at h
      cases h
    · rw [hu] at h
      cases h
    · rfl
  | _ :: _ :: _ =>
    rw [hups] at h
    cases h

/-- a copy of a function without its upvalues -/
theorem function_copied {m g : O} (halike : MetatableAlike L D m) (hg : L.index (.object m) "__gxcopy_metatable" = some (.object g))
    (hfun : metatable_function L (.object m) g = some true) (hloaded : L.loaded g = true → D.package g = true) (c : O → Bool) :
    ∃ c', (∀ any, gxcopy_function L D any g false c = .ok c') ∧ Found (leads L) (Good L) (Mark L c) [] (Mark L c') := by
  have hnone : ∀ w ∈ ([] : List O), Mark L c w := fun w hw => absurd hw List.not_mem_nil
  unfold gxcopy_function
  by_cases hl : L.loaded g = true
  · exact ⟨c, fun any => (if_pos hl).trans (if_pos (hloaded hl)), .refl hnone⟩
  · by_cases hc : c g = true
    · exact ⟨c, fun any => (if_neg hl).trans (if_pos hc), .refl hnone⟩
    · refine ⟨Function.update c g true, fun any => (if_neg hl).trans ((if_neg hc).trans (if_pos rfl)), ?_⟩
      rcases halike.function with hnil | ⟨g', hg', hfunction, -, hups⟩
      · rw [hg] at hnil
        cases hnil
      · obtain rfl : g = g' := Val.object.inj (Option.some.inj (hg.symm.trans hg'))
        have hkind : L.kind g = .lua_function ∨ L.kind g = .c_function := by
          rcases Bool.or_eq_true_iff.1 hfunction with h | h
          · exact .inl (of_decide_eq_true h)
          · exact .inr (of_decide_eq_true h)
        -- its only upvalue is the globals table
        have hleads : ∀ w ∈ leads L g, Mark L c w := by
          intro w hw
          rw [leads_function hkind] at hw
          obtain ⟨up, hup, hmem⟩ := List.mem_flatMap.1 hw
          rw [hups up hup (upvalue_globals hfun up hup)] at hmem
          exact .inr (.inr (List.mem_singleton.1 hmem))
        exact ((Found.refl hleads).leave (fun _ => mark_update) (good_function hkind)).subset
          fun w hw => absurd hw List.not_mem_nil

/-- the metatable of a good table, when it has a function -/
theorem metatable_copied {m g : O} (hm : L.metatable o = some m) (halike : MetatableAlike L D m)
    (hg : L.index (.object m) "__gxcopy_metatable" = some (.object g)) (hfunction : L.isfunction (.object g) = true)
    (hfun : metatable_function L (.object m) g = some true) (hcopied : MetatableCopied L D m g) (c : O → Bool) :
    ∃ c', (∀ any, gxcopy_metatable L D any o c = .ok c') ∧ Found (leads L) (Good L) (Mark L c) [] (Mark L c') := by
  unfold MetatableCopied at hcopied
  unfold gxcopy_metatable
  rw [hm]
  dsimp only
  by_cases hl : L.loaded m = true
  · rw [if_pos hl] at hcopied
    exact ⟨c, fun any => (if_pos hl).trans (if_pos hcopied), .refl fun w hw => absurd hw List.not_mem_nil⟩
  · rw [if_neg hl] at hcopied
    obtain ⟨c', hc', hfound⟩ := function_copied halike hg hfun hcopied.1 c
    refine ⟨c', fun any => ?_, hfound⟩
    rw [if_neg hl, hg]
    dsimp only
    rw [if_pos hfunction, hc' any]
    exact if_pos hcopied.2

/-- and of a table that is not good -/
theorem metatable_refused {m g : O} (hm : L.metatable o = some m)
    (hg : L.index (.object m) "__gxcopy_metatable" = some (.object g)) (hfunction : L.isfunction (.object g) = true)
    (hcopied : ¬ MetatableCopied L D m g) (c : O → Bool) (any : Val O → (O → Bool) → Res (O → Bool)) :
    gxcopy_metatable L D any o c = .fail := by
  unfold MetatableCopied at hcopied
  unfold gxcopy_metatable
  rw [hm]
  dsimp only
  split_ifs at hcopied ⊢ with hl
  · exact if_neg hcopied
  · rw [hg]
    dsimp only
    rw [if_pos hfunction]
    unfold gxcopy_function
    by_cases hload : L.loaded g = true
    · rw [if_pos hload]
      by_cases hp : D.package g = true
      · have hnot : ¬ D.metatable g = true := fun h => hcopied ⟨fun _ => hp, h⟩
        unfold gxcopy_package_loaded
        rw [if_pos hp]
        exact if_neg hnot
      · unfold gxcopy_package_loaded
        rw [if_neg hp]
        rfl
    · have hnot : ¬ D.metatable g = true := fun h => hcopied ⟨fun h => absurd h hload, h⟩
      rw [if_neg hload]
      by_cases hc : c g = true
      · rw [if_pos hc]
        exact if_neg hnot
      · rw [if_neg hc, if_pos rfl]
        exact if_neg hnot

/-! ## gxcopy -/

theorem gxcopy_table_walk (hA : Alike L D v₀) (ho : Reached L v₀ o) (hkind : L.kind o = .table) (hmark : ¬ Mark L c o)
    (any : Val O → (O → Bool) → Res (O → Bool)) : gxcopy_table L D any o c =
      (each any (keyFirst (L.entries o)) (Function.update c o true)).bind fun c => gxcopy_metatable L D any o c := by
  unfold gxcopy_table
  rw [eq_globals hA ho hkind, decide_eq_false fun hg => hmark (.inr (.inr hg))]
  dsimp only
  rw [if_neg fun hl => hmark (.inr (.inl hl)), if_neg fun hc => hmark (.inl hc)]

theorem gxcopy_function_walk (hmark : ¬ Mark L c o) (any : Val O → (O → Bool) → Res (O → Bool)) :
    gxcopy_function L D any o true c =
      if L.kind o = .c_function then (each any (L.upvalues o) c).bind fun c => .ok (Function.update c o true)
      else each any (L.upvalues o) (Function.update c o true) := by
  unfold gxcopy_function
  rw [if_neg fun hl => hmark (.inr (.inl hl)), if_neg fun hc => hmark (.inl hc), if_neg fun h => Bool.false_ne_true h.symm]

theorem gxcopy_any_plain {v : Val O} (h : v.objects = []) {n : ℕ} (hn : n ≥ 1) : gxcopy_any L D n v c = .ok c := by
  obtain ⟨m, rfl⟩ := Nat.exists_eq_succ_of_ne_zero (Nat.ne_of_gt hn)
  cases v with
  | object o => exact absurd h (List.cons_ne_nil o [])
  | _ => rfl

/-- the walk of gxcopy over the values that are reached, while fewer than k objects are without a mark -/
def Copies (L : Source O) (D : Destination O) (v₀ : Val O) (k : ℕ) : Prop :=
  ∀ v c, (∀ o ∈ v.objects, Reached L v₀ o) → unmarked (Mark L c) < k →
    Visit L (Mark L) (fun n => gxcopy_any L D n v c) c v.objects

theorem unmarked_update [Finite O] (hfew : unmarked (Mark L c) < k + 1) (hmark : ¬ Mark L c o) :
    unmarked (Mark L (Function.update c o true)) < k :=
  lt_of_lt_of_le (unmarked_enter (fun _ => mark_update) hmark) (Nat.le_of_lt_succ hfew)

section
variable [Finite O]

theorem Copies.values {vs : List (Val O)} (hwalk : ∀ v ∈ vs, ∀ c, unmarked (Mark L c) < k →
    Visit L (Mark L) (fun n => gxcopy_any L D n v c) c v.objects) (hfew : unmarked (Mark L c) < k) :
    Visit L (Mark L) (fun n => each (gxcopy_any L D n) vs c) c (vs.flatMap Val.objects) :=
  Visit.each (fun c => unmarked (Mark L c) < k) vs hwalk
    (fun _ _ _ hc hfound => lt_of_le_of_lt (unmarked_mono hfound.mono) hc) hfew

omit [Finite O] in
/-- the metatable of a good table -/
theorem Copies.metatable (ih : Copies L D v₀ k) (hA : Alike L D v₀) (hkind : L.kind o = .table) (ho : Reached L v₀ o)
    (hstop : ¬ Stop L o) (hgood : Good L o) (hfew : unmarked (Mark L c) < k) :
    Visit L (Mark L) (fun n => gxcopy_metatable L D (gxcopy_any L D n) o c) c
      ((L.metatable o).toList.filter fun m => L.index (.object m) "__gxcopy_metatable" = some .nil) := by
  have halike := hA.metatable o ho hstop hkind
  cases hm : L.metatable o with
  | none =>
    have hok : ∀ any, gxcopy_metatable L D any o c = .ok c := by
      intro any
      unfold gxcopy_metatable
      rw [hm]
    exact .refl ⟨0, fun n _ => hok _⟩ fun w hw => absurd hw List.not_mem_nil
  | some m =>
    rcases (halike m hm).function with hnil | ⟨g, hg, hfunction, hboth, -⟩
    · have hleads : [m] = (some m).toList.filter fun m => L.index (.object m) "__gxcopy_metatable" = some .nil := by
        rw [Option.toList_some, List.filter_cons_of_pos, List.filter_nil]
        exact decide_eq_true hnil
      have hreached : Reached L v₀ m := by
        apply ho.lead hstop
        rw [leads_table hkind, hm, ← hleads]
        exact List.mem_append_left _ List.mem_cons_self
      rw [← hleads]
      have heq : ∀ any, gxcopy_metatable L D any o c =
          if L.loaded m = true then gxcopy_package_loaded D m c else any (.object m) c := by
        intro any
        unfold gxcopy_metatable
        rw [hm]
        dsimp only
        rw [hnil]
      rw [funext fun n => heq (gxcopy_any L D n)]
      by_cases hl : L.loaded m = true
      · refine .refl ⟨0, fun n _ => (if_pos hl).trans (package_copied hA hreached hl)⟩ fun w hw => ?_
        rw [List.mem_singleton.1 hw]
        exact .inr (.inl hl)
      · rw [funext fun n => if_neg hl]
        apply ih (.object m) c _ hfew
        intro w hw
        rw [List.mem_singleton.1 hw]
        exact hreached
    · have hleads : [] = (some m).toList.filter fun m => L.index (.object m) "__gxcopy_metatable" = some .nil := by
        rw [Option.toList_some, List.filter_cons_of_neg, List.filter_nil]
        rw [hg]
        exact fun h => absurd (of_decide_eq_true h) fun h => (by cases h)
      have hfun := hgood.2.2 hkind m g hm hg
      obtain ⟨c', hc', hfound⟩ := metatable_copied hm (halike m hm) hg hfunction hfun (hboth.1 hfun) c
      rw [← hleads]
      exact .found ⟨0, fun n _ => hc' _⟩ hfound

theorem Copies.table (ih : Copies L D v₀ k) (hA : Alike L D v₀) (hkind : L.kind o = .table) (ho : Reached L v₀ o)
    (hfew : unmarked (Mark L c) < k + 1) (hmark : ¬ Mark L c o) :
    Visit L (Mark L) (fun n => gxcopy_table L D (gxcopy_any L D n) o c) c [o] := by
  have hstop : ¬ Stop L o := fun h => hmark (.inr h)
  have halike := hA.metatable o ho hstop hkind
  have hin := unmarked_update hfew hmark
  have hentries : Visit L (Mark L) (fun n => each (gxcopy_any L D n) (keyFirst (L.entries o)) (Function.update c o true))
      (Function.update c o true) ((keyFirst (L.entries o)).flatMap Val.objects) := by
    refine Copies.values (fun v hv c hc => ih v c (fun w hw => ho.lead hstop ?_) hc) hin
    rw [leads_table hkind]
    exact List.mem_append_right _ (List.mem_flatMap.2 ⟨v, hv, hw⟩)
  rw [funext fun n => gxcopy_table_walk hA ho hkind hmark (gxcopy_any L D n)]
  by_cases hgood : Good L o
  · have hall := hentries.bind (g := fun c n => gxcopy_metatable L D (gxcopy_any L D n) o c) fun c' hfound =>
      ih.metatable hA hkind ho hstop hgood (lt_of_le_of_lt (unmarked_mono hfound.mono) hin)
    have hmem : ∀ w, w ∈ leads L o ↔ w ∈ (keyFirst (L.entries o)).flatMap Val.objects ++
        (L.metatable o).toList.filter fun m => L.index (.object m) "__gxcopy_metatable" = some .nil := by
      intro w
      rw [leads_table hkind, List.mem_append, List.mem_append, or_comm]
    have hleads := hall.subset (fun w hw => (hmem w).2 hw) (fun w hw => (hmem w).1 hw)
    exact hleads.enter (fun _ => mark_update) hstop hgood
  · obtain ⟨m, g, hm, hg, hfun⟩ := not_good_metatable hkind hgood
    obtain ⟨g', hg', hfunction, hboth, -⟩ := (halike m hm).function.resolve_left fun h => (by rw [hg] at h; cases h)
    obtain rfl : g = g' := Val.object.inj (Option.some.inj (hg.symm.trans hg'))
    cases hentries with
    | found settled found =>
      refine .not_good (r := .fail) (settled_bind settled ⟨0, fun n _ => ?_⟩) (fun c' h => (by cases h)) hstop hgood
      exact metatable_refused hm hg hfunction (fun h => hfun (hboth.2 h)) _ _
    | missed settled not_ok mem hits => exact .not_good (settled_bind_not_ok settled not_ok _) not_ok hstop hgood

theorem Copies.lua_function (ih : Copies L D v₀ k) (hkind : L.kind o = .lua_function) (ho : Reached L v₀ o)
    (hfew : unmarked (Mark L c) < k + 1) (hmark : ¬ Mark L c o) :
    Visit L (Mark L) (fun n => gxcopy_function L D (gxcopy_any L D n) o true c) c [o] := by
  have hstop : ¬ Stop L o := fun h => hmark (.inr h)
  have hnot : ¬ L.kind o = .c_function := by
    rw [hkind]
    decide
  rw [funext fun n => (gxcopy_function_walk hmark (gxcopy_any L D n)).trans (if_neg hnot)]
  apply Visit.enter _ (fun _ => mark_update) hstop (good_function (.inl hkind))
  rw [leads_function (.inl hkind)]
  refine Copies.values (fun v hv c hc => ih v c (fun w hw => ho.lead hstop ?_) hc) (unmarked_update hfew hmark)
  rw [leads_function (.inl hkind)]
  exact List.mem_flatMap.2 ⟨v, hv, hw⟩

omit [Finite O] in
/-- a C function has its copy after its upvalues -/
theorem copied_upvalues {f : ℕ → Res (O → Bool)} (h : Visit L (Mark L) f c (leads L o)) (hstop : ¬ Stop L o) (hgood : Good L o) :
    Visit L (Mark L) (fun n => (f n).bind fun c => .ok (Function.update c o true)) c [o] := by
  cases h with
  | found settled found => exact .found (settled_bind settled (.const _)) (found.leave (fun _ => mark_update) hgood)
  | missed settled not_ok mem hits =>
    exact .missed (settled_bind_not_ok settled not_ok _) not_ok List.mem_cons_self (hits.step hstop mem)

/-- an object that is no C function, or need not be copied -/
theorem Copies.object (ih : Copies L D v₀ k) (hA : Alike L D v₀) (ho : Reached L v₀ o) (hfew : unmarked (Mark L c) < k + 1)
    (hkind : L.kind o = .c_function → Mark L c o) : Visit L (Mark L) (fun n => gxcopy_any L D n (.object o) c) c [o] := by
  apply Visit.later
  have hstep : (fun n => gxcopy_any L D (n + 1) (.object o) c) = fun n => gxcopy_object L D (gxcopy_any L D n) o c := rfl
  rw [hstep]
  by_cases hrefused : ¬ Stop L o ∧ (L.kind o = .userdata ∨ L.kind o = .thread)
  · obtain ⟨r, hr, hcopy⟩ := copy_refused (c := c) hA ho hrefused.1 hrefused.2
    exact .not_good ⟨0, fun n _ => hcopy _⟩ hr hrefused.1 fun hgood => hrefused.2.elim hgood.2.1 hgood.1
  · by_cases hmark : Mark L c o
    · refine .refl ⟨0, fun n _ => copy_marked hA ho hmark hrefused _⟩ fun w hw => ?_
      rw [List.mem_singleton.1 hw]
      exact hmark
    · have hwalked : ¬ (L.kind o = .userdata ∨ L.kind o = .thread) := fun h => hrefused ⟨fun h => hmark (.inr h), h⟩
      unfold gxcopy_object
      cases hk : L.kind o with
      | table => exact ih.table hA hk ho hfew hmark
      | lua_function => exact ih.lua_function hk ho hfew hmark
      | c_function => exact absurd (hkind hk) hmark
      | userdata => exact absurd (.inl hk) hwalked
      | thread => exact absurd (.inr hk) hwalked

/-- a C function; by induction on the C functions among its upvalues -/
theorem Copies.c_function (ih : Copies L D v₀ k) (hA : Alike L D v₀) (hacc : Acc (Upvalue L) o) (ho : Reached L v₀ o)
    (hfew : unmarked (Mark L c) < k + 1) (hkind : L.kind o = .c_function) (hmark : ¬ Mark L c o) :
    Visit L (Mark L) (fun n => gxcopy_any L D n (.object o) c) c [o] := by
  induction hacc generalizing c with
  | intro o _ hups =>
    have hstop : ¬ Stop L o := fun h => hmark (.inr h)
    have hlead : ∀ v ∈ L.upvalues o, ∀ w ∈ v.objects, Reached L v₀ w := by
      intro v hv w hw
      apply ho.lead hstop
      rw [leads_function (.inr hkind)]
      exact List.mem_flatMap.2 ⟨v, hv, hw⟩
    have hwalk : ∀ v ∈ L.upvalues o, ∀ c, unmarked (Mark L c) < k + 1 →
        Visit L (Mark L) (fun n => gxcopy_any L D n v c) c v.objects := by
      intro v hv c hc
      cases v with
      | object u =>
        have hu := hlead _ hv u List.mem_cons_self
        by_cases hcu : L.kind u = .c_function ∧ ¬ Mark L c u
        · exact hups u ⟨hcu.1, fun h => hcu.2 (.inr h), hkind, hv⟩ hu hc hcu.1 hcu.2
        · exact ih.object hA hu hc fun h => not_not.1 fun hm => hcu ⟨h, hm⟩
      | _ => exact .refl ⟨1, fun n hn => gxcopy_any_plain rfl hn⟩ fun w hw => absurd hw List.not_mem_nil
    have hall := Copies.values hwalk hfew
    rw [← leads_function (.inr hkind)] at hall
    apply Visit.later
    have hstep : (fun n => gxcopy_any L D (n + 1) (.object o) c) =
        fun n => (each (gxcopy_any L D n) (L.upvalues o) c).bind fun c => .ok (Function.update c o true) := by
      funext n
      have hobject : gxcopy_any L D (n + 1) (.object o) c = gxcopy_function L D (gxcopy_any L D n) o true c := by
        show gxcopy_object L D (gxcopy_any L D n) o c = _
        unfold gxcopy_object
        rw [hkind]
      rw [hobject, gxcopy_function_walk hmark, if_pos hkind]
    rw [hstep]
    exact copied_upvalues hall hstop (good_function (.inr hkind))

/-- **What gxcopy comes to** -/
theorem copy_visit (hA : Alike L D v₀) (k : ℕ) : Copies L D v₀ k := by
  induction k with
  | zero => exact fun v c _ hfew => absurd hfew (Nat.not_lt_zero _)
  | succ k ih =>
    intro v c hv hfew
    cases v with
    | object o =>
      have ho := hv o List.mem_cons_self
      by_cases hc : L.kind o = .c_function ∧ ¬ Mark L c o
      · exact ih.c_function hA (hA.upvalues o ho) ho hfew hc.1 hc.2
      · exact ih.object hA ho hfew fun h => not_not.1 fun hm => hc ⟨h, hm⟩
    | _ => exact .refl ⟨1, fun n hn => gxcopy_any_plain rfl hn⟩ fun w hw => absurd hw List.not_mem_nil

/-! ## The two answers -/

omit [Finite O] in
/-- a walk ends well when all that is reached is good -/
theorem Visit.verdict {mark : (O → Bool) → O → Prop} {f : ℕ → Res (O → Bool)} {M : O → Bool} {vs : List O}
    (h : Visit L mark f M vs) (hM : mark M = Stop L) :
    (∃ depth, ∀ fuel ≥ depth, ∃ M', f fuel = .ok M') ↔ ∀ v ∈ vs, ¬ Hits (leads L) (Stop L) (Good L) v := by
  cases h with
  | @found M' settled found =>
    obtain ⟨depth, hdepth⟩ := settled
    rw [hM] at found
    exact ⟨fun _ v hv => found.clean hv, fun _ => ⟨depth, fun fuel hfuel => ⟨M', hdepth fuel hfuel⟩⟩⟩
  | missed settled not_ok mem hits =>
    refine ⟨?_, fun hclean => absurd hits (hclean _ mem)⟩
    rintro ⟨n, hn⟩
    obtain ⟨m, hm⟩ := settled
    obtain ⟨M', hM'⟩ := hn (max n m) (le_max_left n m)
    exact absurd ((hm (max n m) (le_max_right n m)).symm.trans hM') (not_ok M')

end

/-- a table 0 that contains itself, whose metatable 1 has a function 2, and a userdata 4, whose metatable 5 has the functions 6 and 7 -/
def sample : Source (Fin 8) where
  kind
    | 0 | 1 | 3 | 5 => .table
    | 2 => .lua_function
    | 4 => .userdata
    | 6 | 7 => .c_function
  entries
    | 0 => [(.integer 1, .object 0)]
    | 1 => [(.string (bytes "__gxcopy_metatable"), .object 2)]
    | 5 => [(.string (bytes "__gxcopy_save"), .object 6), (.string (bytes "__gxcopy_load"), .object 7)]
    | _ => []
  metatable
    | 0 => some 1
    | 4 => some 5
    | _ => none
  upvalues
    | 2 => [.object 3]
    | _ => []
  index
    | .object 1, name => some (if name = "__gxcopy_metatable" then .object 2 else .nil)
    | .object 5, name => some (if name = "__gxcopy_save" then .object 6 else if name = "__gxcopy_load" then .object 7 else .nil)
    | _, _ => none
  call_eq _ _ := some false
  loaded _ := false
  globals := 3
  globals_table := rfl
  call
    | 2 => some (.object 1)
    | _ => none

/-- where the userdata is saved as a number -/
def sample_destination : Destination (Fin 8) where
  package _ := false
  metatable g := g = 2
  save f o := if f = 6 ∧ o = 4 then some (.integer 0) else none
  load f := f = 7
  after_failure _ _ := .fail

theorem sample_reached {o : Fin 8} (h : Reached sample (.object 0) o) : o = 0 := by
  obtain ⟨r, hr, hreach⟩ := h
  have hleads : ∀ w ∈ leads sample 0, w = 0 := by decide
  refine hreach.closed (S := fun n => n = 0) (List.mem_singleton.1 hr) fun n hn _ w hw => ?_
  rw [hn] at hw
  exact hleads w hw

end Shuttlesock.GxcopyCheck
