/-
The offsets of modules in each other's context lists: `Module.add_dependency`, `Module.new`, `module:freeze`,
`module:create_parent_modules_index_map` and `module:dependent_modules` of `module.lua`, `shuso_master_initialize_modules`,
`shuso_module_freeze`, `shuso_context_list_initialize`, `shuso_context` and `shuso_set_context` of `module.c`.

A module becomes a dependent of its parents, of the publishers of its required events and of `core` when it is added, and of
the publishers of its optional events when it is frozen. Modules are frozen one after the other, in the order in which they
were added, and freezing one fixes the number of its dependents.

Model: the modules with their parsed strings, and Lua's tables `Module.dependents` and `Module.providers`. `pairs` visits the
subscriptions in any order; each adds the module to the list of its publisher, once, so that the order changes nothing.
`none` is an error. An optional event of an unknown module is one too: `publishing_module:event` is called on nil. The checks
of `SHUTTLESOCK_DEBUG_MODULE_SYSTEM` are left out.

Results:
- `slots_iff`: for all modules that are added and frozen, every offset lies within the list of its provider and no two are
  the same, if and only if no module has an optional subscription to an event of a module that was added before it, and of
  which it is not a dependent in another way.
- `contexts_of_placed`: a context that is set at such an offset is found again, and no other one changes.
- `not_placed`: a module with an optional subscription to the event of an earlier one.
-/
import Mathlib.Tactic

namespace Shuttlesock.Modules

/-! ## The model -/

/-- an event of a subscribe string; `~` marks an optional one -/
structure Subscription where
  optional : Bool
  module_name : String
  event_name : String
deriving DecidableEq

/-- `shuso_module_t` -/
structure Mod where
  name : String
  parent_module_names : List String
  subscribe : List Subscription
  publish : List String
deriving DecidableEq

/-- `Module`: a module's index is its place -/
structure Table where
  modules : List Mod
  dependents : String → List String
  providers : String → List String

def max_module_count : ℕ := 255
def SHUSO_MODULE_INDEX_INVALID : ℕ := 255

def Table.empty : Table := ⟨[], fun _ => [], fun _ => []⟩

/-- `Module.find` by name -/
def Table.find (t : Table) (name : String) : Option Mod := t.modules.find? (·.name = name)

/-- a list with one more element, once -/
def note (l : List String) (x : String) : List String := if x ∈ l then l else l ++ [x]

def add_dependency (t : Table) (provider_name dependent_name : String) : Table :=
  { t with
    dependents := Function.update t.dependents provider_name (note (t.dependents provider_name) dependent_name)
    providers := Function.update t.providers dependent_name (note (t.providers dependent_name) provider_name) }

def add_dependencies (t : Table) (dependent_name : String) (provider_names : List String) : Table :=
  provider_names.foldl (fun t p => add_dependency t p dependent_name) t

/-- the publishers of the required events -/
def Mod.required (m : Mod) : List String := (m.subscribe.filter (!·.optional)).map Subscription.module_name

/-- `Module.new` -/
def new (t : Table) (m : Mod) : Option Table :=
  if max_module_count ≤ t.modules.length then none
  else if (t.find m.name).isSome then none
  else if ¬ m.parent_module_names.Nodup ∨ ¬ m.subscribe.Nodup ∨ ¬ m.publish.Nodup then none
  else
    let t := add_dependencies t m.name m.required
    let t := { t with modules := t.modules ++ [m] }
    some (add_dependencies t m.name (m.parent_module_names ++ ["core"]))

/-- the modules are added in this order; `core` is the first -/
def add_modules (ms : List Mod) : Option Table := ms.foldlM new .empty

def freeze_parent (m : Mod) (t : Table) (modname : String) : Option Table :=
  (t.find modname).map fun parent => add_dependency t parent.name m.name

def freeze_event (m : Mod) (t : Table) (s : Subscription) : Option Table :=
  (t.find s.module_name).bind fun publishing_module =>
    if s.event_name ∈ publishing_module.publish then some (add_dependency t publishing_module.name m.name)
    else if s.optional then some t
    else none

/-- `module:freeze` -/
def freeze (t : Table) (m : Mod) : Option Table :=
  (m.parent_module_names.foldlM (freeze_parent m) t).bind fun t => m.subscribe.foldlM (freeze_event m) t

/-- whether `dependent_modules` finds all modules -/
def Table.dependents_known (t : Table) (provider : String) : Prop := ∀ d ∈ t.dependents provider, (t.find d).isSome

instance (t : Table) (provider : String) : Decidable (t.dependents_known provider) :=
  inferInstanceAs (Decidable (∀ d ∈ t.dependents provider, (t.find d).isSome))

/-- the place of m among the dependents of each module, as the array of uint8_t that `shuso_module_freeze` makes of it -/
def index_map (t : Table) (m : Mod) : List ℕ :=
  t.modules.map fun parent =>
    if parent.name ∈ t.providers m.name then (t.dependents parent.name).idxOf m.name % 256
    else SHUSO_MODULE_INDEX_INVALID

/-- `module:create_parent_modules_index_map` -/
def create_parent_modules_index_map (t : Table) (m : Mod) : Option (List ℕ) :=
  if ∀ p ∈ t.providers m.name, (t.find p).isSome ∧ t.dependents_known p then some (index_map t m) else none

/-- what `shuso_module_freeze` leaves in the module: `parent_modules_index_map` and `submodules.count` -/
structure Frozen where
  parent_modules_index_map : List ℕ
  count : ℕ
deriving DecidableEq

def shuso_module_freeze (t : Table) (m : Mod) : Option (Table × Frozen) :=
  (freeze t m).bind fun t =>
    (create_parent_modules_index_map t m).bind fun map =>
      if t.dependents_known m.name then some (t, ⟨map, (t.dependents m.name).length⟩) else none

def freeze_all : List Mod → Table → Option (Table × List Frozen)
  | [], t => some (t, [])
  | m :: ms, t =>
    (shuso_module_freeze t m).bind fun r => (freeze_all ms r.1).map fun rest => (rest.1, r.2 :: rest.2)

/-- `shuso_master_initialize_modules`, to the end of freezing -/
def shuso_master_initialize_modules (t : Table) : Option (Table × List Frozen) := freeze_all t.modules t

/-- the offset of a module at its i-th parent -/
def Frozen.offset (f : Frozen) (i : ℕ) : ℕ := f.parent_modules_index_map.getD i SHUSO_MODULE_INDEX_INVALID

/-- the dependents of the i-th module, each with its place and what it was frozen to -/
def Depends (t : Table) (fs : List Frozen) (i j : ℕ) (g : Frozen) : Prop :=
  ∃ P D, t.modules[i]? = some P ∧ t.modules[j]? = some D ∧ P.name ∈ t.providers D.name ∧ fs[j]? = some g

/-- the pointers that `shuso_palloc` has made room for, with what was in the memory -/
def shuso_context_list_initialize (parent : Frozen) (memory : ℕ → ℕ) : List ℕ := (List.range parent.count).map memory

/-- `shuso_context`: NULL if there is no offset, and `none` if it reads outside the list -/
def shuso_context (parent : ℕ) (f : Frozen) (context_list : List ℕ) : Option ℕ :=
  if f.offset parent = SHUSO_MODULE_INDEX_INVALID then some 0 else context_list[f.offset parent]?

/-- `shuso_set_context`: `none` if it writes outside the list -/
def shuso_set_context (parent : ℕ) (f : Frozen) (ctx : ℕ) (context_list : List ℕ) : Option (Bool × List ℕ) :=
  if f.offset parent = SHUSO_MODULE_INDEX_INVALID then some (false, context_list)
  else if f.offset parent < context_list.length then some (true, context_list.set (f.offset parent) ctx)
  else none

/-- setting the context of a dependent is seen by itself and by no other one -/
def Stored (t : Table) (fs : List Frozen) (i j ctx : ℕ) (g : Frozen) (l l' : List ℕ) : Prop :=
  shuso_set_context i g ctx l = some (true, l') ∧ l'.length = l.length ∧ shuso_context i g l' = some ctx ∧
    ∀ k h, Depends t fs i k h → j ≠ k → shuso_context i h l' = shuso_context i h l

/-- **The property.** -/
structure Placed (t : Table) (fs : List Frozen) : Prop where
  within : ∀ i j f g, Depends t fs i j g → fs[i]? = some f → g.offset i < f.count
  apart : ∀ i j k g h, Depends t fs i j g → Depends t fs i k h → j ≠ k → g.offset i ≠ h.offset i
  contexts : ∀ i j f g memory l ctx, Depends t fs i j g → fs[i]? = some f →
    l.length = ( shuso_context_list_initialize f memory).length →
      (shuso_context i g l).isSome ∧ ∃ l', Stored t fs i j ctx g l l'

/-- of which a module is a dependent as soon as it is added -/
def Mod.static (m : Mod) : List String := m.required ++ (m.parent_module_names ++ ["core"])

/-- **The condition.** -/
def Ok (ms : List Mod) : Prop :=
  ∀ (i j : ℕ) (P D : Mod), i < j → ms[i]? = some P → ms[j]? = some D →
    (∃ s ∈ D.subscribe, s.optional = true ∧ s.module_name = P.name ∧ s.event_name ∈ P.publish) → P.name ∈ D.static

/-! ## Dependencies -/

theorem mem_note {l : List String} {x y : String} : y ∈ note l x ↔ y ∈ l ∨ y = x := by
  unfold note
  split
  · rename_i h
    exact ⟨.inl, fun hy => hy.elim id fun he => he ▸ h⟩
  · simp

theorem note_prefix (l : List String) (x : String) : l <+: note l x := by
  unfold note
  split
  · exact List.prefix_refl l
  · exact List.prefix_append l [x]

theorem note_nodup {l : List String} (h : l.Nodup) (x : String) : (note l x).Nodup := by
  unfold note
  split
  · exact h
  · rename_i hx
    exact List.nodup_append.2 ⟨h, List.nodup_singleton x, fun a ha b hb heq => hx (by simp_all)⟩

/-- the two tables say the same, and name nobody twice -/
structure Table.Wf (t : Table) : Prop where
  mirror : ∀ p d, d ∈ t.dependents p ↔ p ∈ t.providers d
  nodup : ∀ p, (t.dependents p).Nodup

theorem add_dependencies_modules (t : Table) (d : String) (ps : List String) :
    (add_dependencies t d ps).modules = t.modules := by
  induction ps generalizing t with
  | nil => rfl
  | cons p ps ih => exact ih (add_dependency t p d)

theorem add_dependencies_append (t : Table) (d : String) (ps qs : List String) :
    add_dependencies t d (ps ++ qs) = add_dependencies (add_dependencies t d ps) d qs := List.foldl_append

theorem add_dependency_wf {t : Table} (h : t.Wf) (p d : String) : (add_dependency t p d).Wf := by
  constructor
  · intro q e
    unfold add_dependency
    dsimp only
    rcases eq_or_ne q p with rfl | hq <;> rcases eq_or_ne e d with rfl | he
    · simp only [Function.update_self, mem_note, h.mirror q e, or_true]
    · simp only [Function.update_self, Function.update_of_ne he, mem_note, he, or_false, h.mirror]
    · simp only [Function.update_self, Function.update_of_ne hq, mem_note, hq, or_false, h.mirror]
    · simp only [Function.update_of_ne hq, Function.update_of_ne he, h.mirror]
  · intro q
    unfold add_dependency
    dsimp only
    rcases eq_or_ne q p with rfl | hq
    · rw [Function.update_self]
      exact note_nodup (h.nodup q) d
    · rw [Function.update_of_ne hq]
      exact h.nodup q

theorem add_dependencies_wf {t : Table} (h : t.Wf) (d : String) (ps : List String) : (add_dependencies t d ps).Wf := by
  induction ps generalizing t with
  | nil => exact h
  | cons p ps ih => exact ih (add_dependency_wf h p d)

/-- a module that becomes a dependent comes last in the lists of its providers -/
theorem add_dependencies_extends (t : Table) (d : String) (ps : List String) (p : String) :
    t.dependents p <+: (add_dependencies t d ps).dependents p := by
  induction ps generalizing t with
  | nil => exact List.prefix_refl _
  | cons q ps ih =>
    refine List.IsPrefix.trans ?_ (ih (add_dependency t q d))
    unfold add_dependency
    dsimp only
    rcases eq_or_ne p q with rfl | hp
    · rw [Function.update_self]
      exact note_prefix _ _
    · rw [Function.update_of_ne hp]

theorem mem_add_dependencies (t : Table) (d : String) (ps : List String) (p e : String) :
    e ∈ (add_dependencies t d ps).dependents p ↔ e ∈ t.dependents p ∨ e = d ∧ p ∈ ps := by
  induction ps generalizing t with
  | nil => simp [add_dependencies]
  | cons q ps ih =>
    have hstep : e ∈ (add_dependency t q d).dependents p ↔ e ∈ t.dependents p ∨ e = d ∧ p = q := by
      unfold add_dependency
      dsimp only
      rcases eq_or_ne p q with rfl | hp
      · rw [Function.update_self, mem_note]
        simp
      · rw [Function.update_of_ne hp]
        simp [hp]
    change e ∈ (add_dependencies (add_dependency t q d) d ps).dependents p ↔ _
    rw [ih, hstep, List.mem_cons]
    tauto

/-! ## Adding -/

/-- what adding the modules leaves -/
structure Added (ms : List Mod) (t : Table) : Prop extends t.Wf where
  modules : t.modules = ms
  names : (ms.map Mod.name).Nodup
  few : ms.length ≤ max_module_count
  depends : ∀ p e, e ∈ t.dependents p ↔ ∃ m ∈ ms, m.name = e ∧ p ∈ m.static

theorem find_isSome {t : Table} {name : String} : (t.find name).isSome ↔ name ∈ t.modules.map Mod.name := by
  unfold Table.find
  rw [List.find?_isSome, List.mem_map]
  simp

theorem new_added {ms : List Mod} {t t' : Table} {m : Mod} (h : Added ms t) (heq : new t m = some t') :
    Added (ms ++ [m]) t' := by
  unfold new at heq
  split_ifs at heq with hcount hfind hdup
  rw [Option.some.injEq] at heq
  subst heq
  have hname : m.name ∉ ms.map Mod.name := by
    rw [← h.modules, ← find_isSome]
    exact hfind
  have hwf := add_dependencies_wf h.toWf m.name m.required
  have hwf' : Table.Wf { add_dependencies t m.name m.required with modules := t.modules ++ [m] } :=
    ⟨hwf.mirror, hwf.nodup⟩
  rw [add_dependencies_modules]
  refine ⟨add_dependencies_wf hwf' _ _, ?_, ?_, ?_, fun p e => ?_⟩
  · rw [add_dependencies_modules, h.modules]
  · rw [List.map_append]
    exact List.nodup_append.2 ⟨h.names, List.nodup_singleton _, fun a ha b hb heq => hname (by simp_all)⟩
  · rw [h.modules] at hcount
    rw [List.length_append, List.length_singleton]
    omega
  · rw [mem_add_dependencies]
    change e ∈ (add_dependencies t m.name m.required).dependents p ∨ _ ↔ _
    rw [mem_add_dependencies, h.depends]
    unfold Mod.static
    constructor
    · rintro ((⟨d, hd, hrest⟩ | ⟨rfl, hp⟩) | ⟨rfl, hp⟩)
      · exact ⟨d, List.mem_append_left _ hd, hrest⟩
      · exact ⟨m, by simp, rfl, List.mem_append_left _ hp⟩
      · exact ⟨m, by simp, rfl, List.mem_append_right _ hp⟩
    · rintro ⟨d, hd, rfl, hp⟩
      rcases List.mem_append.1 hd with hd | hd
      · exact .inl (.inl ⟨d, hd, rfl, hp⟩)
      · rw [List.mem_singleton.1 hd] at hp ⊢
        rcases List.mem_append.1 hp with hp | hp
        · exact .inl (.inr ⟨rfl, hp⟩)
        · exact .inr ⟨rfl, hp⟩

theorem add_modules_added {ms : List Mod} {t : Table} (h : add_modules ms = some t) : Added ms t := by
  have hfold : ∀ (l pre : List Mod) (u : Table), Added pre u → l.foldlM new u = some t → Added (pre ++ l) t := by
    intro l
    induction l with
    | nil =>
      intro pre u hu heq
      cases heq
      rwa [List.append_nil]
    | cons m l ih =>
      intro pre u hu heq
      obtain ⟨v, hv, heq⟩ := Option.bind_eq_some_iff.1 heq
      rw [List.append_cons]
      exact ih (pre ++ [m]) v (new_added hu hv) heq
  have hempty : Added [] .empty :=
    ⟨⟨fun p d => by simp [Table.empty], fun p => List.nodup_nil⟩, rfl, List.nodup_nil, Nat.zero_le _,
      fun p e => by simp [Table.empty]⟩
  exact hfold ms [] .empty hempty h

/-! ## Freezing -/

/-- the publishers of the events that are there -/
def Mod.present (ms : List Mod) (m : Mod) : List String :=
  (m.subscribe.filter fun s => (ms.find? (·.name = s.module_name)).any fun pub => s.event_name ∈ pub.publish).map
    Subscription.module_name

/-- of which a module is a dependent when it is frozen -/
def Mod.bound (ms : List Mod) (m : Mod) : List String := m.parent_module_names ++ m.present ms

theorem find_name {t : Table} {name : String} {m : Mod} (h : t.find name = some m) : m.name = name := by
  have hsome := List.find?_some h
  simpa using hsome

theorem freeze_parents_eq {m : Mod} {l : List String} {t t' : Table} (h : l.foldlM (freeze_parent m) t = some t') :
    t' = add_dependencies t m.name l := by
  induction l generalizing t with
  | nil => exact (Option.some.inj h).symm
  | cons p l ih =>
    obtain ⟨u, hu, h⟩ := Option.bind_eq_some_iff.1 h
    obtain ⟨parent, hparent, rfl⟩ := Option.map_eq_some_iff.1 hu
    rw [find_name hparent] at h
    exact ih h

theorem freeze_events_eq {m : Mod} {l : List Subscription} {t t' : Table}
    (h : l.foldlM (freeze_event m) t = some t') :
    t' = add_dependencies t m.name (Mod.present t.modules { m with subscribe := l }) := by
  induction l generalizing t with
  | nil => exact (Option.some.inj h).symm
  | cons s l ih =>
    obtain ⟨u, hu, h⟩ := Option.bind_eq_some_iff.1 h
    obtain ⟨pub, hpub, hu⟩ := Option.bind_eq_some_iff.1 hu
    have hname := find_name hpub
    unfold Table.find at hpub
    unfold Mod.present at ih ⊢
    rw [List.filter_cons, hpub, Option.any_some]
    split at hu
    · rename_i hev
      cases hu
      rw [if_pos (decide_eq_true hev)]
      have heq := ih h
      rw [hname] at heq
      exact heq
    · rename_i hev
      rw [if_neg (by simpa using hev)]
      split at hu
      · cases hu
        exact ih h
      · cases hu

/-- the table when m is frozen -/
def Table.freeze (t : Table) (m : Mod) : Table := add_dependencies t m.name (m.bound t.modules)

theorem freeze_eq {t t' : Table} {m : Mod} (h : freeze t m = some t') : t' = t.freeze m := by
  obtain ⟨u, hu, h⟩ := Option.bind_eq_some_iff.1 h
  have hparents := freeze_parents_eq hu
  have hevents := freeze_events_eq h
  have hmods : u.modules = t.modules := by rw [hparents, add_dependencies_modules]
  rw [hmods, hparents] at hevents
  rw [hevents]
  unfold Table.freeze Mod.bound
  rw [add_dependencies_append]

theorem freeze_all_spec {ms : List Mod} {t t' : Table} {fs : List Frozen} (h : freeze_all ms t = some (t', fs)) :
    t' = ms.foldl Table.freeze t ∧ ∀ (k : ℕ) (m : Mod), ms[k]? = some m →
      fs[k]? = some ⟨index_map ((ms.take (k + 1)).foldl Table.freeze t) m,
        (((ms.take (k + 1)).foldl Table.freeze t).dependents m.name).length⟩ := by
  induction ms generalizing t fs with
  | nil =>
    cases h
    exact ⟨rfl, fun k m hm => by simp at hm⟩
  | cons m ms ih =>
    obtain ⟨⟨u, f⟩, hf, h⟩ := Option.bind_eq_some_iff.1 h
    obtain ⟨⟨t'', rest⟩, hrest, heq⟩ := Option.map_eq_some_iff.1 h
    cases heq
    obtain ⟨v, hv, hf⟩ := Option.bind_eq_some_iff.1 hf
    obtain ⟨map, hmap, hf⟩ := Option.bind_eq_some_iff.1 hf
    obtain ⟨-, hf⟩ := Option.ite_none_right_eq_some.1 hf
    obtain ⟨-, hmap⟩ := Option.ite_none_right_eq_some.1 hmap
    cases hf
    cases hmap
    obtain rfl := freeze_eq hv
    obtain ⟨hlast, hall⟩ := ih hrest
    refine ⟨hlast, fun k d hd => ?_⟩
    cases k with
    | zero =>
      cases hd
      rfl
    | succ k => exact hall k d hd

/-! ## The dependents along the freezing -/

theorem foldl_freeze_modules (l : List Mod) (t : Table) : (l.foldl Table.freeze t).modules = t.modules := by
  induction l generalizing t with
  | nil => rfl
  | cons m l ih =>
    rw [List.foldl_cons, ih]
    exact add_dependencies_modules ..

theorem foldl_freeze_wf (l : List Mod) {t : Table} (h : t.Wf) : (l.foldl Table.freeze t).Wf := by
  induction l generalizing t with
  | nil => exact h
  | cons m l ih => exact ih (add_dependencies_wf h _ _)

theorem foldl_freeze_prefix (l : List Mod) (t : Table) (p : String) :
    t.dependents p <+: (l.foldl Table.freeze t).dependents p := by
  induction l generalizing t with
  | nil => exact List.prefix_refl _
  | cons m l ih => exact (add_dependencies_extends t m.name _ p).trans (ih (t.freeze m))

/-- the lists of dependents only grow at their ends -/
theorem take_freeze_prefix (ms : List Mod) (t : Table) (p : String) {k n : ℕ} (h : k ≤ n) :
    ((ms.take k).foldl Table.freeze t).dependents p <+: ((ms.take n).foldl Table.freeze t).dependents p := by
  obtain ⟨r, hr⟩ : ms.take k <+: ms.take n := List.take_prefix_take_left h
  rw [← hr, List.foldl_append]
  exact foldl_freeze_prefix _ _ p

theorem mem_foldl_freeze (l : List Mod) (t : Table) (p e : String) :
    e ∈ (l.foldl Table.freeze t).dependents p ↔
      e ∈ t.dependents p ∨ ∃ m ∈ l, m.name = e ∧ p ∈ m.bound t.modules := by
  induction l generalizing t with
  | nil => simp
  | cons m l ih =>
    have hmods : (t.freeze m).modules = t.modules := add_dependencies_modules ..
    rw [List.foldl_cons, ih, hmods]
    unfold Table.freeze
    rw [mem_add_dependencies]
    simp only [List.mem_cons, exists_eq_or_imp, eq_comm (a := e)]
    tauto

/-- in a list that another one continues, an element of the longer one is within the length of the shorter one if it is in
that -/
theorem idxOf_lt_iff {l l' : List String} {x : String} (h : l <+: l') (hx : x ∈ l') :
    l'.idxOf x < l.length ↔ x ∈ l := by
  obtain ⟨r, rfl⟩ := h
  by_cases hl : x ∈ l
  · rw [List.idxOf_append_of_mem hl]
    exact ⟨fun _ => hl, fun _ => List.idxOf_lt_length_of_mem hl⟩
  · rw [List.idxOf_append_of_notMem hl]
    exact ⟨fun hlt => by omega, fun hin => absurd hin hl⟩

theorem idxOf_extends {l l' : List String} {x : String} (h : l <+: l') (hx : x ∈ l) : l'.idxOf x = l.idxOf x := by
  obtain ⟨r, rfl⟩ := h
  exact List.idxOf_append_of_mem hx

/-! ## The offsets -/

/-- a module of the list is the one of its name -/
theorem eq_of_name {ms : List Mod} (h : (ms.map Mod.name).Nodup) {m m' : Mod} (hm : m ∈ ms) (hm' : m' ∈ ms)
    (heq : m.name = m'.name) : m = m' := List.inj_on_of_nodup_map h hm hm' heq

section Frozen

variable {ms : List Mod} {t t' : Table} {fs : List Frozen} {i j k : ℕ} {P D : Mod}

/-- who is a dependent of P when the first n modules are frozen -/
theorem mem_dependents (h : Added ms t) (hD : ms[j]? = some D) (n : ℕ) (p : String) :
    D.name ∈ ((ms.take n).foldl Table.freeze t).dependents p ↔ p ∈ D.static ∨ j < n ∧ p ∈ D.bound ms := by
  have hmem : D ∈ ms := List.mem_of_getElem? hD
  have hnd : ms.Nodup := h.names.of_map
  rw [mem_foldl_freeze, h.depends, h.modules]
  constructor
  · rintro (⟨m, hm, hname, hp⟩ | ⟨m, hm, hname, hp⟩)
    · rw [eq_of_name h.names hm hmem hname] at hp
      exact .inl hp
    · rw [eq_of_name h.names (List.mem_of_mem_take hm) hmem hname] at hp hm
      obtain ⟨k, hk⟩ := List.getElem?_of_mem hm
      have hkn : k < n := by
        have hlt := (List.getElem?_eq_some_iff.1 hk).1
        rw [List.length_take] at hlt
        omega
      rw [List.getElem?_take_of_lt hkn] at hk
      have hjk : j = k := by
        obtain ⟨hjl, hjD⟩ := List.getElem?_eq_some_iff.1 hD
        obtain ⟨hkl, hkD⟩ := List.getElem?_eq_some_iff.1 hk
        exact (List.Nodup.getElem_inj_iff hnd).1 (hjD.trans hkD.symm)
      exact .inr ⟨hjk ▸ hkn, hp⟩
  · rintro (hp | ⟨hj, hp⟩)
    · exact .inl ⟨D, hmem, rfl, hp⟩
    · refine .inr ⟨D, ?_, rfl, hp⟩
      apply List.mem_of_getElem? (i := j)
      rwa [List.getElem?_take_of_lt hj]

/-- nobody has more dependents than there are modules -/
theorem dependents_few (h : Added ms t) (n : ℕ) (p : String) :
    (((ms.take n).foldl Table.freeze t).dependents p).length ≤ max_module_count := by
  have hsub : ((ms.take n).foldl Table.freeze t).dependents p ⊆ ms.map Mod.name := by
    intro e he
    rw [mem_foldl_freeze, h.depends] at he
    rcases he with ⟨m, hm, rfl, -⟩ | ⟨m, hm, rfl, -⟩
    · exact List.mem_map_of_mem hm
    · exact List.mem_map_of_mem (List.mem_of_mem_take hm)
  have hnodup := (foldl_freeze_wf (ms.take n) h.toWf).nodup p
  calc (((ms.take n).foldl Table.freeze t).dependents p).length
    _ ≤ (ms.map Mod.name).length := (hnodup.subperm hsub).length_le
    _ = ms.length := List.length_map _
    _ ≤ max_module_count := h.few

/-- a module is frozen as a dependent of all its providers -/
theorem offset_eq (h : Added ms t) (hP : ms[i]? = some P) (hD : ms[j]? = some D)
    (hprov : D.name ∈ (ms.foldl Table.freeze t).dependents P.name) :
    (index_map ((ms.take (j + 1)).foldl Table.freeze t) D).getD i SHUSO_MODULE_INDEX_INVALID =
      ((ms.foldl Table.freeze t).dependents P.name).idxOf D.name := by
  have hjlt := (List.getElem?_eq_some_iff.1 hD).1
  have hall : ms.foldl Table.freeze t = (ms.take ms.length).foldl Table.freeze t := by rw [List.take_length]
  have hin : D.name ∈ ((ms.take (j + 1)).foldl Table.freeze t).dependents P.name := by
    rw [hall, mem_dependents h hD] at hprov
    rw [mem_dependents h hD]
    exact hprov.imp id fun hp => ⟨Nat.lt_succ_self j, hp.2⟩
  have hprefix := take_freeze_prefix ms t P.name (Nat.succ_le_of_lt hjlt)
  rw [← hall] at hprefix
  rw [idxOf_extends hprefix hin]
  have hwf := foldl_freeze_wf (ms.take (j + 1)) h.toWf
  -- there are few modules, so the place of one fits a uint8_t
  have hfew := dependents_few h (j + 1) P.name
  have hlt := List.idxOf_lt_length_of_mem hin
  unfold index_map
  rw [foldl_freeze_modules, h.modules, List.getD_eq_getElem?_getD, List.getElem?_map, hP, Option.map_some,
    Option.getD_some, if_pos ((hwf.mirror _ _).1 hin), Nat.mod_eq_of_lt]
  unfold max_module_count at hfew
  omega

/-- **Exactly who is placed.** The offset of a dependent lies within the list of its provider when it was its dependent by
the time that one was frozen. -/
theorem within_iff (h : Added ms t) (hP : ms[i]? = some P) (hD : ms[j]? = some D)
    (hprov : D.name ∈ (ms.foldl Table.freeze t).dependents P.name) :
    ((ms.foldl Table.freeze t).dependents P.name).idxOf D.name <
        (((ms.take (i + 1)).foldl Table.freeze t).dependents P.name).length ↔
      P.name ∈ D.static ∨ j < i + 1 ∧ P.name ∈ D.bound ms := by
  have hilt := (List.getElem?_eq_some_iff.1 hP).1
  have hprefix := take_freeze_prefix ms t P.name (Nat.succ_le_of_lt hilt)
  rw [List.take_length] at hprefix
  rw [idxOf_lt_iff hprefix hprov, mem_dependents h hD]

/-- a module is bound to another one by a parent or by an event of it -/
theorem mem_bound (h : (ms.map Mod.name).Nodup) (hP : P ∈ ms) :
    P.name ∈ D.bound ms ↔ P.name ∈ D.parent_module_names ∨
      ∃ s ∈ D.subscribe, s.module_name = P.name ∧ s.event_name ∈ P.publish := by
  unfold Mod.bound Mod.present
  rw [List.mem_append, List.mem_map]
  apply or_congr_right
  have hfind : ∀ s : Subscription, s.module_name = P.name → ms.find? (·.name = s.module_name) = some P := by
    intro s hs
    cases hf : ms.find? (·.name = s.module_name) with
    | none =>
      have hnone := List.find?_eq_none.1 hf P hP
      exact absurd hs.symm (by simpa using hnone)
    | some pub =>
      have hname : pub.name = s.module_name := by simpa using List.find?_some hf
      rw [eq_of_name h (List.mem_of_find?_eq_some hf) hP (hname.trans hs)]
  constructor
  · rintro ⟨s, hs, hname⟩
    obtain ⟨hs, hev⟩ := List.mem_filter.1 hs
    rw [hfind s hname, Option.any_some, decide_eq_true_eq] at hev
    exact ⟨s, hs, hname, hev⟩
  · rintro ⟨s, hs, hname, hev⟩
    refine ⟨s, List.mem_filter.2 ⟨hs, ?_⟩, hname⟩
    rw [hfind s hname, Option.any_some, decide_eq_true_eq]
    exact hev

/-- what a module is bound to by anything but an optional event it depends on as soon as it is added -/
theorem static_or_optional (h : (ms.map Mod.name).Nodup) (hP : P ∈ ms) (hb : P.name ∈ D.bound ms) :
    P.name ∈ D.static ∨ ∃ s ∈ D.subscribe, s.optional = true ∧ s.module_name = P.name ∧ s.event_name ∈ P.publish := by
  unfold Mod.static Mod.required
  rcases (mem_bound h hP).1 hb with hp | ⟨s, hs, hname, hev⟩
  · exact .inl (List.mem_append_right _ (List.mem_append_left _ hp))
  · cases ho : s.optional with
    | true => exact .inr ⟨s, hs, ho, hname, hev⟩
    | false =>
      refine .inl (List.mem_append_left _ (List.mem_map.2 ⟨s, List.mem_filter.2 ⟨hs, ?_⟩, hname⟩))
      rw [ho]
      rfl

end Frozen

/-! ## Contexts -/

theorem context_list_length (f : Frozen) (memory : ℕ → ℕ) :
    ( shuso_context_list_initialize f memory).length = f.count := by
  unfold shuso_context_list_initialize
  rw [List.length_map, List.length_range]

/-- a context set at an offset within the list is found there, and not at another one -/
theorem contexts_of_placed {t : Table} {fs : List Frozen} {i j ctx : ℕ} {g : Frozen} {l : List ℕ}
    (hvalid : g.offset i < SHUSO_MODULE_INDEX_INVALID) (hwithin : g.offset i < l.length)
    (hapart : ∀ k h, Depends t fs i k h → j ≠ k → g.offset i ≠ h.offset i) :
    (shuso_context i g l).isSome ∧ ∃ l', Stored t fs i j ctx g l l' := by
  have hne := Nat.ne_of_lt hvalid
  unfold Stored shuso_set_context shuso_context
  rw [if_neg hne, if_neg hne, if_pos hwithin]
  refine ⟨?_, l.set (g.offset i) ctx, rfl, List.length_set, ?_, fun k h hk hjk => ?_⟩
  · rw [List.getElem?_eq_getElem hwithin]
    rfl
  · rw [if_neg hne]
    exact List.getElem?_set_self hwithin
  · rw [List.getElem?_set_ne (hapart k h hk hjk)]

/-- **Module context offsets.** The modules are placed exactly when the optional subscriptions are to events of later
modules, or of modules they depend on anyway. -/
theorem slots_iff (ms : List Mod) (t t' : Table) (fs : List Frozen) (hadd : add_modules ms = some t)
    (hinit : shuso_master_initialize_modules t = some (t', fs)) : Placed t' fs ↔ Ok ms := by
  have h := add_modules_added hadd
  unfold shuso_master_initialize_modules at hinit
  rw [h.modules] at hinit
  obtain ⟨rfl, hfs⟩ := freeze_all_spec hinit
  have hmods : (ms.foldl Table.freeze t).modules = ms := (foldl_freeze_modules ms t).trans h.modules
  have hwf := foldl_freeze_wf ms h.toWf
  have hall : ∀ p, (ms.foldl Table.freeze t).dependents p =
      ((ms.take ms.length).foldl Table.freeze t).dependents p := fun p => by rw [List.take_length]
  -- the offset of a dependent is its place in the whole list of its provider
  have hoffset : ∀ {i j g}, Depends (ms.foldl Table.freeze t) fs i j g → ∃ P D, ms[i]? = some P ∧ ms[j]? = some D ∧
      D.name ∈ (ms.foldl Table.freeze t).dependents P.name ∧
      g.offset i = ((ms.foldl Table.freeze t).dependents P.name).idxOf D.name := by
    intro i j g ⟨P, D, hP, hD, hprov, hg⟩
    rw [hmods] at hP hD
    rw [← hwf.mirror] at hprov
    rw [hfs j D hD, Option.some.injEq] at hg
    exact ⟨P, D, hP, hD, hprov, hg ▸ offset_eq h hP hD hprov⟩
  constructor
  · intro hplaced i j P D hij hP hD hopt
    have hmem := List.mem_of_getElem? hP
    have hbound : P.name ∈ D.bound ms := by
      obtain ⟨s, hs, -, hev⟩ := hopt
      exact (mem_bound h.names hmem).2 (.inr ⟨s, hs, hev⟩)
    have hprov : D.name ∈ (ms.foldl Table.freeze t).dependents P.name := by
      rw [hall, mem_dependents h hD]
      exact .inr ⟨(List.getElem?_eq_some_iff.1 hD).1, hbound⟩
    have hin := hplaced.within i j _ _
      ⟨P, D, hmods.symm ▸ hP, hmods.symm ▸ hD, (hwf.mirror _ _).1 hprov, hfs j D hD⟩ (hfs i P hP)
    unfold Frozen.offset at hin
    rw [offset_eq h hP hD hprov, within_iff h hP hD hprov] at hin
    rcases hin with hstatic | ⟨hji, -⟩
    · exact hstatic
    · omega
  · intro hok
    have hwithin : ∀ {i j f g}, Depends (ms.foldl Table.freeze t) fs i j g → fs[i]? = some f → g.offset i < f.count := by
      intro i j f g hdep hf
      obtain ⟨P, D, hP, hD, hprov, hoff⟩ := hoffset hdep
      rw [hfs i P hP, Option.some.injEq] at hf
      rw [hoff, ← hf, within_iff h hP hD hprov]
      rw [hall, mem_dependents h hD] at hprov
      rcases hprov with hstatic | ⟨-, hbound⟩
      · exact .inl hstatic
      rcases Nat.lt_or_ge j (i + 1) with hji | hij
      · exact .inr ⟨hji, hbound⟩
      rcases static_or_optional h.names (List.mem_of_getElem? hP) hbound with hstatic | hopt
      · exact .inl hstatic
      · exact .inl (hok i j P D hij hP hD hopt)
    have hapart : ∀ {i j k g e}, Depends (ms.foldl Table.freeze t) fs i j g →
        Depends (ms.foldl Table.freeze t) fs i k e → j ≠ k → g.offset i ≠ e.offset i := by
      intro i j k g e hj hk hne heq
      obtain ⟨P, D, hP, hD, hprov, hoff⟩ := hoffset hj
      obtain ⟨P', E, hP', hE, hprov', hoff'⟩ := hoffset hk
      obtain rfl : P = P' := Option.some.inj (hP.symm.trans hP')
      rw [hoff, hoff', List.idxOf_inj hprov] at heq
      have hDE := eq_of_name h.names (List.mem_of_getElem? hD) (List.mem_of_getElem? hE) heq
      subst hDE
      obtain ⟨hjl, hjD⟩ := List.getElem?_eq_some_iff.1 hD
      obtain ⟨hkl, hkD⟩ := List.getElem?_eq_some_iff.1 hE
      exact hne ((List.Nodup.getElem_inj_iff h.names.of_map).1 (hjD.trans hkD.symm))
    refine ⟨fun i j f g => hwithin, fun i j k g e => hapart, fun i j f g memory l ctx hdep hf hlen => ?_⟩
    rw [context_list_length] at hlen
    refine contexts_of_placed ?_ (hlen ▸ hwithin hdep hf) fun k e hk hjk => hapart hdep hk hjk
    obtain ⟨P, D, hP, hD, hprov, hoff⟩ := hoffset hdep
    have hlt := List.idxOf_lt_length_of_mem hprov
    have hfew := dependents_few h ms.length P.name
    rw [← hall] at hfew
    rw [hoff]
    exact Nat.lt_of_lt_of_le hlt hfew

/-- `core` and three modules: the third publishes an event, the second one can do without it -/
def three : List Mod :=
  [⟨"core", [], [], []⟩, ⟨"reader", ["source"], [⟨true, "source", "data"⟩], []⟩, ⟨"source", [], [], ["data"]⟩]

theorem slots_iff_three : ∃ t t' fs, add_modules three = some t ∧
    shuso_master_initialize_modules t = some (t', fs) ∧ (Placed t' fs ↔ Ok three) := by
  obtain ⟨t, ht⟩ : ∃ t, add_modules three = some t := Option.isSome_iff_exists.1 (by decide +kernel)
  have hinit : ((add_modules three).bind shuso_master_initialize_modules).isSome := by decide +kernel
  rw [ht, Option.bind_some] at hinit
  obtain ⟨⟨t', fs⟩, hfs⟩ := Option.isSome_iff_exists.1 hinit
  exact ⟨t, t', fs, ht, hfs, slots_iff three t t' fs ht hfs⟩

/-- the second module is added after the one whose event it can do without -/
def late : List Mod :=
  [⟨"core", [], [], []⟩, ⟨"source", [], [], ["data"]⟩, ⟨"reader", [], [⟨true, "source", "data"⟩], []⟩]

/-- the reader writes to the place 0 of the contexts of its source, where there is room for none -/
theorem not_placed : ∃ t t' fs, add_modules late = some t ∧ shuso_master_initialize_modules t = some (t', fs) ∧
    (∃ f g, Depends t' fs 1 2 g ∧ fs[1]? = some f ∧ f.count = 0 ∧ g.offset 1 = 0 ∧
      shuso_set_context 1 g 1 ( shuso_context_list_initialize f id) = none) ∧ ¬ Placed t' fs := by
  obtain ⟨t, ht⟩ : ∃ t, add_modules late = some t := Option.isSome_iff_exists.1 (by decide +kernel)
  have hrun : ((add_modules late).bind shuso_master_initialize_modules).any (fun r =>
      r.1.modules = late ∧ "source" ∈ r.1.providers "reader" ∧
        r.2.map (fun f => (f.count, f.offset 1)) = [(3, 255), (0, 255), (0, 0)]) := by decide +kernel
  rw [ht, Option.bind_some, Option.any_eq_true] at hrun
  obtain ⟨⟨t', fs⟩, hfs, hrun⟩ := hrun
  rw [decide_eq_true_eq] at hrun
  obtain ⟨hmods, hprov, hmap⟩ := hrun
  obtain ⟨e, f, g, rfl⟩ : ∃ e f g, fs = [e, f, g] := by
    rw [← List.length_eq_three, ← List.length_map, hmap]
    rfl
  simp only [List.map_cons, List.map_nil, List.cons.injEq, Prod.mk.injEq, and_true] at hmap
  obtain ⟨-, ⟨hcount, -⟩, -, hoff⟩ := hmap
  have hdep : Depends t' [e, f, g] 1 2 g := by
    refine ⟨late[1], late[2], ?_, ?_, hprov, rfl⟩
    · rw [hmods]
      rfl
    · rw [hmods]
      rfl
  refine ⟨t, t', [e, f, g], ht, hfs, ⟨f, g, hdep, rfl, hcount, hoff, ?_⟩, fun hplaced => ?_⟩
  · unfold shuso_set_context
    rw [context_list_length, hcount, hoff]
    rfl
  · have hlt := hplaced.within 1 2 f g hdep rfl
    omega

end Shuttlesock.Modules
