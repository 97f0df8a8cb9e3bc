/-
What `gxcopy_check` accepts (`api/core.lua`), over objects that it treats as gxcopy does (`lua_utils.c`).

- `leads`: the objects that both walks go on to, and `Good`: the objects that both accept.
- `Alike`: the objects that are reached from a value are ones that both walks treat alike.
- `Visit`: what a walk over some values comes to: all of them are found, or something that is not good is reached from them.

Results:
- `Visit.each`: a walk over values, one after the other.
- `check_visit`: `gxcopy_check` comes to one of the two.
-/
import Mathlib.Tactic
import Shuttlesock.Core.Search
import Shuttlesock.Lua.GxcopyCheck

namespace Shuttlesock.GxcopyCheck

open Shuttlesock.Search
open Shuttlesock.Lua (keyFirst)
open Shuttlesock.Gxcopy (Res)

variable {O : Type*} [DecidableEq O]

/-! ## Objects that are treated alike -/

section
variable (L : Source O) (D : Destination O)

/-- the walks stop at packages and the globals table -/
def Stop (o : O) : Prop := L.loaded o = true ∨ o = L.globals

/-- a metatable is not copied when it has a function `__gxcopy_metatable` -/
def leads (o : O) : List O :=
  match L.kind o with
  | .table =>
    ((L.metatable o).toList.filter fun m => L.index (.object m) "__gxcopy_metatable" = some .nil) ++
      (keyFirst (L.entries o)).flatMap Val.objects
  | .lua_function | .c_function => (L.upvalues o).flatMap Val.objects
  | .userdata | .thread => []

def Good (o : O) : Prop :=
  L.kind o ≠ .thread ∧ L.kind o ≠ .userdata ∧
    (L.kind o = .table → ∀ m g, L.metatable o = some m → L.index (.object m) "__gxcopy_metatable" = some (.object g) →
      metatable_function L (.object m) g = some true)

/-- gxcopy gets a metatable from its function g -/
def MetatableCopied (m g : O) : Prop :=
  if L.loaded m = true then D.package m = true else (L.loaded g = true → D.package g = true) ∧ D.metatable g = true

/-- a metatable that both walks treat alike -/
structure MetatableAlike (m : O) : Prop where
  /-- it is the one that `getmetatable` returns -/
  visible : L.rawget m "__metatable" = .nil
  /-- it has no save and load functions, or both -/
  save_load : L.index (.object m) "__gxcopy_save" = some .nil ∧ L.index (.object m) "gxcopy_load" = some .nil ∨
    ∃ save load, L.index (.object m) "__gxcopy_save" = some save ∧ L.isfunction save = true ∧
      L.index (.object m) "__gxcopy_load" = some load ∧ L.isfunction load = true
  /-- it has no function `__gxcopy_metatable`, or one that both accept, or one that neither does -/
  function : L.index (.object m) "__gxcopy_metatable" = some .nil ∨
    ∃ g, L.index (.object m) "__gxcopy_metatable" = some (.object g) ∧ L.isfunction (.object g) = true ∧
      (metatable_function L (.object m) g = some true ↔ MetatableCopied L D m g) ∧
      ∀ up ∈ L.upvalues g, L.eq up (.object L.globals) = some true → up = .object L.globals

/-- a C function as an upvalue of another -/
def Upvalue (a b : O) : Prop := L.kind a = .c_function ∧ ¬ Stop L a ∧ L.kind b = .c_function ∧ .object a ∈ L.upvalues b

def Reached (v : Val O) (o : O) : Prop := ∃ r ∈ v.objects, Reach (leads L) (Stop L) r o

/-- **The condition** -/
structure Alike (v : Val O) : Prop where
  /-- no other table equals the globals table -/
  globals : ∀ o, Reached L v o → L.kind o = .table → o ≠ L.globals → L.eq (.object L.globals) (.object o) = some false
  /-- packages are loaded in the destination too, and no package is a coroutine -/
  package : ∀ o, Reached L v o → L.loaded o = true → D.package o = true ∧ L.kind o ≠ .thread
  metatable : ∀ o, Reached L v o → ¬ Stop L o → L.kind o = .table → ∀ m, L.metatable o = some m → MetatableAlike L D m
  /-- no userdata has both functions -/
  userdata : ∀ o, Reached L v o → ¬ Stop L o → L.kind o = .userdata → ∀ m save load, L.metatable o = some m →
    L.index (.object m) "__gxcopy_save" = some save → L.index (.object m) "__gxcopy_load" = some load →
    L.isfunction save = true → L.isfunction load = false
  /-- no C function is among its own upvalues, or theirs -/
  upvalues : ∀ o, Reached L v o → Acc (Upvalue L) o

end

/-! ## Walks -/

/-- what a walk over vs comes to -/
inductive Visit (L : Source O) (mark : (O → Bool) → O → Prop) (f : ℕ → Res (O → Bool)) (M : O → Bool) (vs : List O) : Prop where
  | found {M' : O → Bool} (settled : Settled f (.ok M')) (found : Found (leads L) (Good L) (mark M) vs (mark M')) :
      Visit L mark f M vs
  | missed {r : Res (O → Bool)} {v : O} (settled : Settled f r) (not_ok : ∀ M', r ≠ .ok M') (mem : v ∈ vs)
      (hits : Hits (leads L) (Stop L) (Good L) v) : Visit L mark f M vs

variable {L : Source O} {D : Destination O} {mark : (O → Bool) → O → Prop} {f : ℕ → Res (O → Bool)} {M : O → Bool}

omit [DecidableEq O] in
theorem settled_bind {f : ℕ → Res (O → Bool)} {g : (O → Bool) → ℕ → Res (O → Bool)} {M' : O → Bool} {r : Res (O → Bool)}
    (hf : Settled f (.ok M')) (hg : Settled (g M') r) : Settled (fun n => (f n).bind fun s => g s n) r := by
  obtain ⟨n, hn⟩ := hf
  obtain ⟨m, hm⟩ := hg
  refine ⟨max n m, fun fuel hfuel => ?_⟩
  show (f fuel).bind _ = r
  rw [hn fuel (le_trans (le_max_left n m) hfuel)]
  exact hm fuel (le_trans (le_max_right n m) hfuel)

omit [DecidableEq O] in
theorem settled_bind_not_ok {f : ℕ → Res (O → Bool)} {r : Res (O → Bool)} (hf : Settled f r) (hr : ∀ M', r ≠ .ok M')
    (g : (O → Bool) → ℕ → Res (O → Bool)) : Settled (fun n => (f n).bind fun s => g s n) r := by
  obtain ⟨n, hn⟩ := hf
  refine ⟨n, fun fuel hfuel => ?_⟩
  show (f fuel).bind _ = r
  rw [hn fuel hfuel]
  cases r with
  | ok M' => exact absurd rfl (hr M')
  | fail => rfl
  | raise => rfl
  | deep => rfl

theorem Visit.subset {vs ws : List O} (h : Visit L mark f M vs) (h1 : ∀ v ∈ vs, v ∈ ws) (h2 : ∀ w ∈ ws, w ∈ vs) : Visit L mark f M ws := by
  cases h with
  | found settled found => exact .found settled (found.subset h2)
  | missed settled not_ok mem hits => exact .missed settled not_ok (h1 _ mem) hits

/-- with one step more -/
theorem Visit.later {vs : List O} (h : Visit L mark (fun n => f (n + 1)) M vs) : Visit L mark f M vs := by
  cases h with
  | found settled found => exact .found settled.later found
  | missed settled not_ok mem hits => exact .missed settled.later not_ok mem hits

/-- one walk after another -/
theorem Visit.bind {vs ws : List O} {g : (O → Bool) → ℕ → Res (O → Bool)} (h : Visit L mark f M vs)
    (hg : ∀ M', Found (leads L) (Good L) (mark M) vs (mark M') → Visit L mark (g M') M' ws) :
    Visit L mark (fun n => (f n).bind fun s => g s n) M (vs ++ ws) := by
  cases h with
  | found settled found =>
    cases hg _ found with
    | found settled' found' => exact .found (settled_bind settled settled') (found.append found')
    | missed settled' not_ok mem hits =>
      exact .missed (settled_bind settled settled') not_ok (List.mem_append_right _ mem) hits
  | missed settled not_ok mem hits =>
    exact .missed (settled_bind_not_ok settled not_ok g) not_ok (List.mem_append_left _ mem) hits

/-- an object that is marked, and then what it leads to -/
theorem Visit.enter {M₁ : O → Bool} {o : O} (h : Visit L mark f M₁ (leads L o)) (hM : ∀ n, mark M₁ n ↔ mark M n ∨ n = o)
    (hstop : ¬ Stop L o) (hgood : Good L o) : Visit L mark f M [o] := by
  cases h with
  | found settled found => exact .found settled (found.enter hM hgood)
  | missed settled not_ok mem hits => exact .missed settled not_ok List.mem_cons_self (hits.step hstop mem)

/-- an object that is not good -/
theorem Visit.not_good {o : O} {r : Res (O → Bool)} (hf : Settled f r) (hr : ∀ M', r ≠ .ok M') (hstop : ¬ Stop L o)
    (hbad : ¬ Good L o) : Visit L mark f M [o] := .missed hf hr List.mem_cons_self ⟨o, .refl o, hstop, hbad⟩

theorem Visit.refl {vs : List O} (hf : Settled f (.ok M)) (h : ∀ v ∈ vs, mark M v) : Visit L mark f M vs := .found hf (.refl h)

/-- **Value after value**; K is what the walk of one value needs, and keeps -/
theorem Visit.each (K : (O → Bool) → Prop) {walk : ℕ → Val O → (O → Bool) → Res (O → Bool)} (vs : List (Val O))
    (hwalk : ∀ v ∈ vs, ∀ M, K M → Visit L mark (fun n => walk n v M) M v.objects)
    (hK : ∀ M M' ws, K M → Found (leads L) (Good L) (mark M) ws (mark M') → K M') (hM : K M) :
    Visit L mark (fun n => GxcopyCheck.each (walk n) vs M) M (vs.flatMap Val.objects) := by
  induction vs generalizing M with
  | nil => exact .refl (.const _) fun v hv => absurd hv List.not_mem_nil
  | cons v vs ih =>
    rw [List.flatMap_cons]
    apply (hwalk v List.mem_cons_self M hM).bind
    intro M' hfound
    exact ih (fun w hw => hwalk w (List.mem_cons_of_mem v hw)) (hK M M' _ hM hfound)

theorem Reached.lead {v : Val O} {o w : O} (h : Reached L v o) (hstop : ¬ Stop L o) (hw : w ∈ leads L o) : Reached L v w := by
  obtain ⟨r, hr, hreach⟩ := h
  exact ⟨r, hr, hreach.tail hstop hw⟩

theorem leads_table {o : O} (hkind : L.kind o = .table) : leads L o =
    ((L.metatable o).toList.filter fun m => L.index (.object m) "__gxcopy_metatable" = some .nil) ++
      (keyFirst (L.entries o)).flatMap Val.objects := by
  unfold leads
  rw [hkind]

theorem leads_function {o : O} (hkind : L.kind o = .lua_function ∨ L.kind o = .c_function) :
    leads L o = (L.upvalues o).flatMap Val.objects := by
  unfold leads
  rcases hkind with hkind | hkind
  · rw [hkind]
  · rw [hkind]

theorem good_function {o : O} (hkind : L.kind o = .lua_function ∨ L.kind o = .c_function) : Good L o := by
  unfold Good
  rcases hkind with hkind | hkind
  · rw [hkind]
    exact ⟨by decide, by decide, fun h => by cases h⟩
  · rw [hkind]
    exact ⟨by decide, by decide, fun h => by cases h⟩

theorem not_good_metatable {o : O} (hkind : L.kind o = .table) (hbad : ¬ Good L o) : ∃ m g, L.metatable o = some m ∧
    L.index (.object m) "__gxcopy_metatable" = some (.object g) ∧ metatable_function L (.object m) g ≠ some true := by
  by_contra hall
  refine hbad ⟨fun h => (by rw [hkind] at h; cases h), fun h => (by rw [hkind] at h; cases h), fun _ m g hm hg => ?_⟩
  exact by_contra fun hfun => hall ⟨m, g, hm, hg, hfun⟩

theorem update_true {M : O → Bool} {o n : O} : Function.update M o true n = true ↔ M n = true ∨ n = o := by
  by_cases hn : n = o
  · subst hn
    simp
  · rw [Function.update_of_ne hn]
    exact ⟨.inl, fun h => h.resolve_right hn⟩

/-! ## gxcopy_check -/

/-- a userdata is not accepted, with or without its functions -/
theorem check_userdata_not_ok (L : Source O) (o : O) (M : O → Bool) :
    ∃ r, (∀ M', r ≠ .ok M') ∧ ∀ check, check_userdata L check o M = r := by
  unfold check_userdata
  split_ifs with hfalsy
  · exact ⟨.fail, fun M' h => (by cases h), fun _ => rfl⟩
  · cases hload : L.index (L.getmetatable o) "__gxcopy_load" with
    | none => exact ⟨.raise, fun M' h => (by cases h), fun _ => rfl⟩
    | some load =>
      dsimp only
      by_cases hnil : load = .nil
      · -- without the function, its type is not the one of a function
        subst hnil
        cases hsave : L.index (L.getmetatable o) "__gxcopy_save" with
        | none => exact ⟨.raise, fun M' h => (by cases h), fun _ => rfl⟩
        | some save =>
          refine ⟨.fail, fun M' h => (by cases h), fun check => ?_⟩
          dsimp only
          rw [if_neg (fun h => h rfl), if_pos (show L.isfunction .nil = false from rfl)]
          exact ite_self _
      · exact ⟨.fail, fun M' h => (by cases h), fun check => if_pos hnil⟩

theorem getmetatable_none {o : O} (hm : L.metatable o = none) : L.getmetatable o = .nil := by
  unfold Source.getmetatable
  rw [hm]

theorem getmetatable_visible {o m : O} (hm : L.metatable o = some m) (hv : L.rawget m "__metatable" = .nil) :
    L.getmetatable o = .object m := by
  unfold Source.getmetatable
  rw [hm]
  exact if_pos hv

theorem check_metatable_none {o : O} (hm : L.metatable o = none) (M : O → Bool) (check : Val O → (O → Bool) → Res (O → Bool)) :
    check_metatable L check o M = .ok M := by
  unfold check_metatable
  rw [getmetatable_none hm]
  rfl

theorem check_metatable_nil {o m : O} (hm : L.metatable o = some m) (hv : L.rawget m "__metatable" = .nil)
    (hnil : L.index (.object m) "__gxcopy_metatable" = some .nil) (M : O → Bool) (check : Val O → (O → Bool) → Res (O → Bool)) :
    check_metatable L check o M = check (.object m) M := by
  unfold check_metatable
  rw [getmetatable_visible hm hv, hnil]
  rfl

theorem check_metatable_function {o m g : O} {b : Option Bool} (hm : L.metatable o = some m)
    (hv : L.rawget m "__metatable" = .nil) (hg : L.index (.object m) "__gxcopy_metatable" = some (.object g))
    (hfunction : L.isfunction (.object g) = true) (hb : metatable_function L (.object m) g = b) (M : O → Bool)
    (check : Val O → (O → Bool) → Res (O → Bool)) :
    check_metatable L check o M = b.elim .raise fun b => cond b (check (.object o) M) .fail := by
  unfold check_metatable
  rw [getmetatable_visible hm hv, hg]
  dsimp only
  rw [if_neg (show ¬ (Val.object m).falsy = true from Bool.false_ne_true), if_pos hfunction, hb]
  rcases b with _ | _ | _
  · rfl
  · rfl
  · rfl

theorem check_save_load_ok {o : O} (halike : ∀ m, L.metatable o = some m → MetatableAlike L D m) (M : O → Bool) :
    check_save_load L o M = .ok M := by
  unfold check_save_load
  cases hm : L.metatable o with
  | none =>
    rw [getmetatable_none hm]
    rfl
  | some m =>
    rw [getmetatable_visible hm (halike m hm).visible, if_neg (show ¬ (Val.object m).falsy = true from Bool.false_ne_true)]
    rcases (halike m hm).save_load with ⟨hsave, hload⟩ | ⟨save, load, hsave, hfun, hload, hfun'⟩
    · rw [hsave]
      dsimp only
      rw [if_neg (fun h => h rfl), hload]
      rfl
    · have hne : save ≠ .nil := by
        rintro rfl
        cases hfun
      rw [hsave]
      dsimp only
      rw [if_pos hne]
      dsimp only
      rw [hfun, hload]
      dsimp only
      rw [hfun']
      rfl

/-- what the walk of `gxcopy_check` needs -/
structure Checking (L : Source O) (k : ℕ) (M : O → Bool) : Prop where
  few : unmarked (fun o => M o = true) < k
  stop : ∀ o, Stop L o → M o = true

theorem Checking.keep [Finite O] {k : ℕ} {M' : O → Bool} {ws : List O} (h : Checking L k M)
    (hf : Found (leads L) (Good L) (fun o => M o = true) ws (fun o => M' o = true)) : Checking L k M' :=
  ⟨lt_of_le_of_lt (unmarked_mono hf.mono) h.few, fun o ho => hf.mono o (h.stop o ho)⟩

theorem gxcopy_check_marked {o : O} (h : M o = true) (n : ℕ) : gxcopy_check L n (.object o) M = .ok M := by
  cases n with
  | zero => exact if_pos h
  | succ n => exact if_pos h

theorem gxcopy_check_plain {v : Val O} (h : v.objects = []) (n : ℕ) : gxcopy_check L n v M = .ok M := by
  cases v with
  | object o => exact absurd h (List.cons_ne_nil o [])
  | nil => cases n <;> rfl
  | boolean b => cases n <;> rfl
  | lightuserdata p => cases n <;> rfl
  | integer i => cases n <;> rfl
  | number x => cases n <;> rfl
  | string t => cases n <;> rfl

theorem Checking.enter [Finite O] {k : ℕ} {o : O} (h : Checking L (k + 1) M) (ho : ¬ M o = true) :
    Checking L k (Function.update M o true) := by
  refine ⟨?_, fun p hp => update_true.2 (.inl (h.stop p hp))⟩
  have hlt := unmarked_enter (M := fun p => M p = true) (fun p => update_true (M := M) (o := o)) ho
  exact lt_of_lt_of_le hlt (Nat.le_of_lt_succ h.few)

/-- the walk of `gxcopy_check` over the values that are reached, while fewer than k objects are unmarked -/
def Checks (L : Source O) (v₀ : Val O) (k : ℕ) : Prop :=
  ∀ v M, (∀ o ∈ v.objects, Reached L v₀ o) → Checking L k M →
    Visit L (fun M o => M o = true) (fun n => gxcopy_check L n v M) M v.objects

section
variable [Finite O] {v₀ : Val O} {k : ℕ} {o : O}

theorem Checks.values (ih : Checks L v₀ k) {vs : List (Val O)} (hv : ∀ p ∈ vs.flatMap Val.objects, Reached L v₀ p)
    (hM : Checking L k M) :
    Visit L (fun M o => M o = true) (fun n => each (gxcopy_check L n) vs M) M (vs.flatMap Val.objects) := by
  refine Visit.each (Checking L k) vs ?_ (fun M M' ws h hf => h.keep hf) hM
  intro v hmem M hM
  exact ih v M (fun p hp => hv p (List.mem_flatMap.2 ⟨v, hmem, hp⟩)) hM

omit [Finite O] in
/-- the metatable of a good table -/
theorem Checks.metatable (ih : Checks L v₀ k) (hkind : L.kind o = .table) (ho : Reached L v₀ o) (hstop : ¬ Stop L o)
    (halike : ∀ m, L.metatable o = some m → MetatableAlike L D m) (hgood : Good L o) (hM : Checking L k M) (hmark : M o = true) :
    Visit L (fun M o => M o = true) (fun n => check_metatable L (gxcopy_check L n) o M) M
      ((L.metatable o).toList.filter fun m => L.index (.object m) "__gxcopy_metatable" = some .nil) := by
  cases hm : L.metatable o with
  | none => exact .refl ⟨0, fun n _ => check_metatable_none hm M _⟩ fun v hv => absurd hv List.not_mem_nil
  | some m =>
    rcases (halike m hm).function with hnil | ⟨g, hg, hfunction, -, -⟩
    · have hleads : [m] = (some m).toList.filter fun m => L.index (.object m) "__gxcopy_metatable" = some .nil := by
        rw [Option.toList_some, List.filter_cons_of_pos, List.filter_nil]
        exact decide_eq_true hnil
      rw [← hleads, funext fun n => check_metatable_nil hm (halike m hm).visible hnil M (gxcopy_check L n)]
      apply ih (.object m) M _ hM
      intro p hp
      apply ho.lead hstop
      rw [leads_table hkind, hm, ← hleads]
      exact List.mem_append_left _ hp
    · -- an accepted function: the table itself is checked once more
      have hleads : [] = (some m).toList.filter fun m => L.index (.object m) "__gxcopy_metatable" = some .nil := by
        rw [Option.toList_some, List.filter_cons_of_neg, List.filter_nil]
        rw [hg]
        exact fun h => absurd (of_decide_eq_true h) fun h => (by cases h)
      rw [← hleads, funext fun n => check_metatable_function hm (halike m hm).visible hg hfunction (hgood.2.2 hkind m g hm hg) M
        (gxcopy_check L n)]
      exact .refl ⟨0, fun n _ => gxcopy_check_marked hmark n⟩ fun v hv => absurd hv List.not_mem_nil

omit [Finite O] in
/-- a table that is not good -/
theorem check_table_not_good (hkind : L.kind o = .table) (halike : ∀ m, L.metatable o = some m → MetatableAlike L D m)
    (hbad : ¬ Good L o) (M : O → Bool) : ∃ r, (∀ M', r ≠ .ok M') ∧ ∀ check, check_table L check o M = r := by
  obtain ⟨m, g, hm, hg, hfun⟩ := not_good_metatable hkind hbad
  obtain ⟨g', hg', hfunction, -, -⟩ := (halike m hm).function.resolve_left fun h => (by rw [hg] at h; cases h)
  obtain rfl : g = g' := Val.object.inj (Option.some.inj (hg.symm.trans hg'))
  rcases hval : metatable_function L (.object m) g with _ | _ | _
  · refine ⟨.raise, fun M' h => (by cases h), fun check => ?_⟩
    unfold check_table
    rw [check_metatable_function hm (halike m hm).visible hg hfunction hval]
    rfl
  · refine ⟨.fail, fun M' h => (by cases h), fun check => ?_⟩
    unfold check_table
    rw [check_metatable_function hm (halike m hm).visible hg hfunction hval]
    rfl
  · exact absurd hval hfun

theorem Checks.table (ih : Checks L v₀ k) (hA : Alike L D v₀) (hkind : L.kind o = .table) (ho : Reached L v₀ o) (hstop : ¬ Stop L o)
    (hM : Checking L (k + 1) M) (hmark : ¬ M o = true) :
    Visit L (fun M o => M o = true) (fun n => check_table L (gxcopy_check L n) o M) M [o] := by
  have halike := hA.metatable o ho hstop hkind
  by_cases hgood : Good L o
  · have hin := hM.enter hmark
    have hmeta := ih.metatable hkind ho hstop halike hgood hin (update_true.2 (.inr rfl))
    have hall : Visit L (fun M o => M o = true) (fun n => check_table L (gxcopy_check L n) o M) (Function.update M o true)
        (leads L o) := by
      rw [leads_table hkind]
      apply hmeta.bind
      intro M' hfound
      rw [check_save_load_ok halike M']
      apply ih.values _ (hin.keep hfound)
      intro p hp
      apply ho.lead hstop
      rw [leads_table hkind]
      exact List.mem_append_right _ hp
    exact hall.enter (fun p => update_true) hstop hgood
  · obtain ⟨r, hr, hcheck⟩ := check_table_not_good hkind halike hgood M
    exact .not_good ⟨0, fun n _ => hcheck _⟩ hr hstop hgood

theorem Checks.function (ih : Checks L v₀ k) (hkind : L.kind o = .lua_function ∨ L.kind o = .c_function) (ho : Reached L v₀ o)
    (hstop : ¬ Stop L o) (hM : Checking L (k + 1) M) (hmark : ¬ M o = true) :
    Visit L (fun M o => M o = true) (fun n => each (gxcopy_check L n) (L.upvalues o) (Function.update M o true)) M [o] := by
  apply Visit.enter _ (fun p => update_true) hstop (good_function hkind)
  rw [leads_function hkind]
  apply ih.values _ (hM.enter hmark)
  intro p hp
  apply ho.lead hstop
  rw [leads_function hkind]
  exact hp

theorem Checks.object (ih : Checks L v₀ k) (hA : Alike L D v₀) (ho : Reached L v₀ o) (hM : Checking L (k + 1) M)
    (hmark : ¬ M o = true) : Visit L (fun M o => M o = true) (fun n => check_object L (gxcopy_check L n) o M) M [o] := by
  have hstop : ¬ Stop L o := fun h => hmark (hM.stop o h)
  unfold check_object
  cases hkind : L.kind o with
  | table => exact ih.table hA hkind ho hstop hM hmark
  | lua_function => exact ih.function (.inl hkind) ho hstop hM hmark
  | c_function => exact ih.function (.inr hkind) ho hstop hM hmark
  | userdata =>
    obtain ⟨r, hr, hcheck⟩ := check_userdata_not_ok L o M
    exact .not_good ⟨0, fun n _ => hcheck _⟩ hr hstop fun hgood => hgood.2.1 hkind
  | thread => exact .not_good (.const Res.fail) (fun M' h => (by cases h)) hstop fun hgood => hgood.1 hkind

end

/-- **What `gxcopy_check` comes to** -/
theorem check_visit [Finite O] {v₀ : Val O} (hA : Alike L D v₀) (k : ℕ) : Checks L v₀ k := by
  induction k with
  | zero => exact fun v M _ hM => absurd hM.few (Nat.not_lt_zero _)
  | succ k ih =>
    intro v M hv hM
    cases v with
    | object o =>
      by_cases hmark : M o = true
      · exact .refl ⟨0, fun n _ => gxcopy_check_marked hmark n⟩ fun w hw => (by rw [List.mem_singleton.1 hw]; exact hmark)
      · apply Visit.later
        have hstep : (fun n => gxcopy_check L (n + 1) (.object o) M) = fun n => check_object L (gxcopy_check L n) o M :=
          funext fun n => if_neg hmark
        rw [hstep]
        exact ih.object hA (hv o List.mem_cons_self) hM hmark
    | _ => exact .refl ⟨0, fun n _ => gxcopy_check_plain rfl n⟩ fun w hw => absurd hw List.not_mem_nil

end Shuttlesock.GxcopyCheck
