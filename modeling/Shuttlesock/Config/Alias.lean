/-
Aliases of settings: `config:find_handler_for_setting` after any calls of `config:register_setting` (`config.lua`).

An alias is entered as `module.alias`, and in no other table. It is looked up as `module:alias`, or among the names of all modules.

Results:
- `known_registered`: what the tables hold after any calls, failed ones included.
- `alias_iff`: the exact condition for an alias to resolve as the primary name does.
- `alias_unknown`: an alias that is not found, with its module or without.
-/
import Mathlib.Tactic
import Shuttlesock.Config.Register

namespace Shuttlesock.Register

open Shuttlesock.Settings (Handler Head lookup qualify alias_full_name find_handler_for_setting path_matches)
open Shuttlesock.Parser (Str)

/-! ## Lookup -/

/-- the tables after these calls, one after the other -/
def registered (calls : List (Str × Description)) : Tables :=
  calls.foldl (fun t call => (register_setting t call.1 call.2).2) ⟨[], [], [], []⟩

/-- the handler of a setting with this path, if there is one -/
def resolve (t : Tables) (path : Str) (h : Head) : Option Handler :=
  (find_handler_for_setting ⟨t.handlers, t.handlers_any_module⟩ path h).toOption

/-- **The condition** of a name without a module: exactly one registered setting has it and a path that matches -/
def Sole (t : Tables) (path name : Str) : Prop :=
  ((t.handlers_any_module.filter (·.name = name)).filter fun handler => path_matches path handler.path).length = 1

/-! ## The tables -/

structure Known (t : Tables) : Prop where
  keys : (t.handlers.map Prod.fst).Nodup
  known : ∀ key handler, (key, handler) ∈ t.handlers → key = handler.full_name ∨ ∃ a, key = alias_full_name handler a
  listed : ∀ handler ∈ t.handlers_any_module, (handler.full_name, handler) ∈ t.handlers

/-- one more key -/
theorem nodup_insert {l : List (Str × Handler)} {key : Str} (h : (l.map Prod.fst).Nodup) (hkey : ¬ (lookup l key).isSome = true)
    (handler : Handler) : ((l ++ [(key, handler)]).map Prod.fst).Nodup := by
  rw [lookup_isSome] at hkey
  rw [List.map_append, List.nodup_append']
  refine ⟨h, List.nodup_singleton key, ?_⟩
  simpa using hkey

theorem insert_aliases_known {handler : Handler} (aliases : List Str) {l : List (Str × Handler)} (h : (l.map Prod.fst).Nodup) :
    ((insert_aliases handler aliases l).2.map Prod.fst).Nodup ∧
      ∀ p ∈ (insert_aliases handler aliases l).2, p ∈ l ∨ p.2 = handler ∧ ∃ a, p.1 = alias_full_name handler a := by
  induction aliases generalizing l with
  | nil => exact ⟨h, fun p hp => .inl hp⟩
  | cons a aliases ih =>
    unfold insert_aliases
    split_ifs with htaken
    · exact ⟨h, fun p hp => .inl hp⟩
    · obtain ⟨hkeys, hmem⟩ := ih (nodup_insert h htaken handler)
      refine ⟨hkeys, fun p hp => ?_⟩
      rcases hmem p hp with hp | hp
      · rcases List.mem_append.1 hp with hp | hp
        · exact .inl hp
        · rw [List.mem_singleton.1 hp]
          exact .inr ⟨rfl, a, rfl⟩
      · exact .inr hp

/-- a call keeps them, whether it fails or not -/
theorem Known.register {t : Tables} (h : Known t) (module_name : Str) (setting : Description) :
    Known (register_setting t module_name setting).2 := by
  unfold register_setting
  cases check module_name setting with
  | error err => exact h
  | raise => exact h
  | ok handler =>
    dsimp only
    unfold insert_handler
    split_ifs with hname
    · exact h
    · have hkeys := nodup_insert h.keys hname handler
      obtain ⟨hnodup, hmem⟩ := @insert_aliases_known handler handler.aliases _ hkeys
      obtain ⟨m, hgrows⟩ := insert_aliases_grows handler handler.aliases (t.handlers ++ [(handler.full_name, handler)])
      have hknown : ∀ p ∈ (insert_aliases handler handler.aliases (t.handlers ++ [(handler.full_name, handler)])).2,
          p.1 = p.2.full_name ∨ ∃ a, p.1 = alias_full_name p.2 a := by
        intro p hp
        rcases hmem p hp with hp | ⟨hp2, a, ha⟩
        · rcases List.mem_append.1 hp with hp | hp
          · exact h.known p.1 p.2 hp
          · rw [List.mem_singleton.1 hp]
            exact .inl rfl
        · rw [hp2]
          exact .inr ⟨a, ha⟩
      cases hinsert : insert_aliases handler handler.aliases (t.handlers ++ [(handler.full_name, handler)]) with
      | mk taken l =>
        rw [hinsert] at hnodup hknown hgrows
        dsimp only at hgrows
        have hlisted : ∀ hd ∈ t.handlers_any_module, (hd.full_name, hd) ∈ l := by
          intro hd hhd
          rw [hgrows, List.append_assoc]
          exact List.mem_append_left _ (h.listed hd hhd)
        cases taken with
        | some a => exact ⟨hnodup, fun key hd => hknown (key, hd), hlisted⟩
        | none =>
          refine ⟨hnodup, fun key hd => hknown (key, hd), fun hd hhd => ?_⟩
          rcases List.mem_append.1 hhd with hhd | hhd
          · exact hlisted hd hhd
          · rw [List.mem_singleton.1 hhd, hgrows]
            simp

/-- **The tables after any calls** -/
theorem known_registered (calls : List (Str × Description)) : Known (registered calls) := by
  unfold registered
  have hrun : ∀ t, Known t → Known (calls.foldl (fun t call => (register_setting t call.1 call.2).2) t) := by
    induction calls with
    | nil => exact fun t ht => ht
    | cons call calls ih => exact fun t ht => ih _ (ht.register call.1 call.2)
  exact hrun _ ⟨List.nodup_nil, fun _ _ h => absurd h List.not_mem_nil, fun _ h => absurd h List.not_mem_nil⟩

/-! ## Aliases -/

section
variable {t : Tables} {path : Str} {h : Head} {handler : Handler}

theorem Known.lookup_iff (ht : Known t) (key : Str) : lookup t.handlers key = some handler ↔ (key, handler) ∈ t.handlers := by
  constructor
  · exact Settings.lookup_some
  · intro hmem
    obtain ⟨other, hother⟩ := Option.isSome_iff_exists.1 (lookup_isSome.2 (List.mem_map_of_mem hmem))
    have heq := List.inj_on_of_nodup_map ht.keys (Settings.lookup_some hother) hmem rfl
    rw [hother, (Prod.mk.inj heq).2]

/-- with its module, only a handler's own name leads to it -/
theorem resolve_qualified (ht : Known t) (hmem : handler ∈ t.handlers_any_module) (hw : h.written = some handler.module_name) :
    resolve t path h = some handler ↔ h.name = handler.name := by
  have hresolve : resolve t path h = lookup t.handlers (qualify handler.module_name h.name) := by
    unfold resolve find_handler_for_setting Head.full_name
    rw [hw]
    dsimp only [Option.map_some]
    cases lookup t.handlers (qualify handler.module_name h.name) with
    | none => rfl
    | some hd => rfl
  rw [hresolve, ht.lookup_iff]
  constructor
  · intro hkey
    rcases ht.known _ _ hkey with hfull | ⟨a, ha⟩
    · unfold Handler.full_name qualify at hfull
      exact List.tail_eq_of_cons_eq (List.append_cancel_left hfull)
    · -- a colon and a full stop
      unfold qualify alias_full_name at ha
      have hhead := List.head_eq_of_cons_eq (List.append_cancel_left ha)
      exact absurd hhead (by decide)
  · intro hname
    rw [hname]
    exact ht.listed handler hmem

theorem resolve_bare (hw : h.written = none) (hd : Handler) : resolve t path h = some hd ↔
    (t.handlers_any_module.filter (·.name = h.name)).filter (fun handler => path_matches path handler.path) = [hd] := by
  unfold resolve find_handler_for_setting Head.full_name Settings.possible_handlers
  rw [hw]
  dsimp only [Option.map_none]
  generalize (t.handlers_any_module.filter (·.name = h.name)).filter (fun handler => path_matches path handler.path) = l
  match l with
  | [] => simp [Except.toOption]
  | [x] => simp [Except.toOption]
  | _ :: _ :: _ => simp [Except.toOption]

theorem resolve_sole (hw : h.written = none) : (resolve t path h).isSome = true ↔ Sole t path h.name := by
  unfold Sole
  rw [Option.isSome_iff_exists, List.length_eq_one_iff]
  simp only [resolve_bare hw]

/-- what is found without a module has that name -/
theorem resolve_name (hw : h.written = none) {hd : Handler} (hr : resolve t path h = some hd) : hd.name = h.name := by
  rw [resolve_bare hw] at hr
  have hmem : hd ∈ [hd] := List.mem_cons_self
  rw [← hr] at hmem
  simpa using (List.mem_filter.1 (List.mem_filter.1 hmem).1).2

/-- **When an alias does as the primary name does**; it needs not even be an alias. -/
theorem alias_iff (calls : List (Str × Description)) (handler : Handler) (hmem : handler ∈ (registered calls).handlers_any_module)
    (alias_name path : Str) (h : Head) (hname : h.name = handler.name) (hw : h.written = none ∨ h.written = some handler.module_name) :
    resolve (registered calls) path { h with name := alias_name } = resolve (registered calls) path h ↔
      alias_name = handler.name ∨
        h.written = none ∧ ¬ Sole (registered calls) path alias_name ∧ ¬ Sole (registered calls) path handler.name := by
  have ht := known_registered calls
  rcases hw with hw | hw
  · constructor
    · intro heq
      by_cases hsome : Sole (registered calls) path handler.name
      · rw [← hname, ← resolve_sole hw] at hsome
        obtain ⟨hd, hhd⟩ := Option.isSome_iff_exists.1 hsome
        have halias : hd.name = alias_name := resolve_name (h := { h with name := alias_name }) hw (heq.trans hhd)
        exact .inl (halias.symm.trans ((resolve_name hw hhd).trans hname))
      · refine .inr ⟨hw, ?_, hsome⟩
        rwa [← resolve_sole (h := { h with name := alias_name }) hw, heq, resolve_sole hw, hname]
    · rintro (rfl | ⟨-, halias, hsole⟩)
      · rw [← hname]
      · rw [← resolve_sole (h := { h with name := alias_name }) hw, Bool.not_eq_true, Option.isSome_eq_false_iff,
          Option.isNone_iff_eq_none] at halias
        rw [← hname, ← resolve_sole hw, Bool.not_eq_true, Option.isSome_eq_false_iff, Option.isNone_iff_eq_none] at hsole
        rw [halias, hsole]
  · have hprimary : resolve (registered calls) path h = some handler := (resolve_qualified ht hmem hw).2 hname
    rw [hprimary, resolve_qualified (h := { h with name := alias_name }) ht hmem hw]
    constructor
    · exact .inl
    · rintro (heq | ⟨hnone, -⟩)
      · exact heq
      · rw [hw] at hnone
        cases hnone

end

/-- `foo` with the alias `bar` -/
def foo_calls : List (Str × Description) := [(['m'], foo "foo" (.string "bar".toList))]

def foo_head (name : String) (written : Option Str) : Head := ⟨name.toList, written, none, some [0], false, none⟩

/-- the handler of `foo` -/
def foo_handler : Handler := ⟨['m'], "foo".toList, ["bar".toList], ['/'], 1, 1, .never, none⟩

theorem alias_iff_foo :
    resolve (registered foo_calls) ['/'] (foo_head "bar" none) = resolve (registered foo_calls) ['/'] (foo_head "foo" none) ↔
    "bar".toList = "foo".toList ∨ (none : Option Str) = none ∧ ¬ Sole (registered foo_calls) ['/'] "bar".toList ∧
      ¬ Sole (registered foo_calls) ['/'] "foo".toList :=
  alias_iff foo_calls foo_handler (by decide) "bar".toList ['/'] (foo_head "foo" none) rfl (.inl rfl)

/-- **An alias that is not found** -/
theorem alias_unknown : resolve (registered foo_calls) ['/'] (foo_head "foo" none) = some foo_handler ∧
    resolve (registered foo_calls) ['/'] (foo_head "bar" none) = none ∧
    resolve (registered foo_calls) ['/'] (foo_head "foo" (some ['m'])) = some foo_handler ∧
    resolve (registered foo_calls) ['/'] (foo_head "bar" (some ['m'])) = none := by
  decide

end Shuttlesock.Register
