/-
The registry of modules (`Module.new`, `Module.new_core_module` and `Module.add_dependency` of `module.lua`), with the strings that a
module is added with and all the ways in which adding it fails.

Model: the tables of `Module`; a table that is not there is one without entries. Pointers are numbers. A failed call returns nil and a
text, here an error with that text. `pairs` visits the subscriptions in an order that is part of the input. Patterns of one character
class are predicates on characters, and `gmatch` gives the longest runs of such characters.
- `Inverse`: `dependents_indexed` says at which place of `dependents` a module stands, each stands there once, and `providers` is the
  same seen from the other side.
- not in the model: the table of events, which `Event.get` adds to.

The required events make the new module a dependent before the publish string is looked at.

Results:
- `add_dependency_inverse`, `reach_inverse`: in every run the tables fit each other.
- `new_atomic_iff`: in every state that is reached, exactly when a call of `Module.new` is all or nothing.
- `not_atomic`: a bad publish string after a required event.
-/
import Mathlib.Tactic
import Shuttlesock.Core.Runs

namespace Shuttlesock.Registration

open Shuttlesock.Runs

abbrev Str := List Char

/-! ## The strings -/

/-- `%s` -/
def isspace (c : Char) : Bool := c == ' ' || c == '\t' || c == '\n' || c == '\x0b' || c == '\x0c' || c == '\r'

/-- `[%w%_]` -/
def isword (c : Char) : Bool := c.isAlphanum || c == '_'

/-- `[%w%_%.]` -/
def isevent (c : Char) : Bool := isword c || c == '.'

/-- `gmatch` of one class, repeated -/
def runs (p : Char → Bool) (str : Str) : List Str := (str.splitOnP fun c => !p c).filter (· ≠ [])

structure Subscription where
  key : Str
  required : Bool
  module_name : Str
  event_name : Str
deriving DecidableEq, Repr

def quoted (text : String) (s : Str) (rest : String) : Str := text.toList ++ '"' :: s ++ '"' :: rest.toList

def badchar (c : Char) (where_ : String) : Str := "invalid character '".toList ++ c :: '\'' :: " in ".toList ++ where_.toList

/-- `^(~?)([%w%_%.]+):([%w%_%.]+)$` -/
def event_parts (mevname : Str) : Option (Bool × Str × Str) :=
  let (optional, s) : Bool × Str := match mevname with
    | '~' :: s => (true, s)
    | s => (false, s)
  match s.dropWhile isevent with
  | ':' :: evname =>
    if s.takeWhile isevent ≠ [] ∧ evname ≠ [] ∧ evname.all isevent then some (optional, s.takeWhile isevent, evname) else none
  | _ => none

def subscribe_loop : List Str → List Subscription → Except Str (List Subscription)
  | [], events => .ok events
  | mevname :: rest, events =>
    -- ^.+:.+$
    if ¬ ':' ∈ mevname.tail.dropLast then
      .error (quoted "invalid subscribe event name " mevname " , must be modulename:eventname")
    else
      match event_parts mevname with
      | none => .error (quoted "invalid subscribe event name " mevname "")
      | some (optional, modname, evname) =>
        if ¬ modname.all isword then
          .error (quoted "invalid module name " modname "" ++ quoted " in subscribe event name " mevname "")
        else if mevname ∈ events.map Subscription.key then
          .error (quoted "duplicate value " mevname " in subscribe event name")
        else subscribe_loop rest (events ++ [⟨mevname, !optional, modname, evname⟩])

def split_subscribe_list_string (str : Str) : Except Str (List Subscription) :=
  match str.find? fun c => !(c == '~' || isspace c || isevent c || c == ':') with
  | some c => .error (badchar c "subscribe string")
  | none => subscribe_loop (runs (fun c => !isspace c) str) []

def publish_loop : List Str → List Str → Except Str (List Str)
  | [], events => .ok events
  | evname :: rest, events =>
    if ¬ evname.all isevent then .error (quoted "invalid event name " evname " in publish string")
    else if evname ∈ events then .error (quoted "duplicate value " evname " in publish string")
    else publish_loop rest (events ++ [evname])

def split_publish_list_string (str : Str) : Except Str (List Str) :=
  match str.find? fun c => !(isspace c || isevent c || c == ':') with
  | some c => .error (badchar c "publish string")
  | none => publish_loop (runs (fun c => !isspace c) str) []

def parents_loop : List Str → List Str → Except Str (List Str)
  | [], modules => .ok modules
  | modname :: rest, modules =>
    if modname ∈ modules then .error (quoted "duplocate value " modname " in parent_modules string")
    else parents_loop rest (modules ++ [modname])

theorem parents_loop_ok {l modules res : List Str} (h : parents_loop l modules = .ok res) : res = modules ++ l := by
  induction l generalizing modules with
  | nil =>
    cases h
    exact (List.append_nil res).symm
  | cons w l ih =>
    by_cases hw : w ∈ modules
    · cases (if_pos hw).symm.trans h
    · simpa using ih ((if_neg hw).symm.trans h)

def split_parent_modules_string (str : Str) : Except Str (List Str) :=
  match str.find? fun c => !(isspace c || isword c) with
  | some c => .error (badchar c "parent_modules string")
  | none => parents_loop (runs isword str) []

/-- `^(%d+)%.(%d+)%.(%d+)$` -/
def version_valid (version : Str) : Bool :=
  match version.splitOn '.' with
  | [major, minor, patch] => [major, minor, patch].all fun n => n ≠ [] && n.all Char.isDigit
  | _ => false

/-! ## The registry -/

structure Mod where
  name : Str
  ptr : ℕ
  version : Str
  parent_module_names : List Str
  subscribe : List Subscription
  publish : List Str
  index : ℕ
deriving DecidableEq, Repr

structure Registry where
  /-- the name of `Module.core` -/
  core : Option Str
  coreless : Bool
  by_name : Str → Option Mod
  by_ptr : ℕ → Option Mod
  index_counter : ℕ
  dependents : Str → List Str
  dependents_indexed : Str → Str → Option ℕ
  providers : Str → Str → Bool

def max_module_count : ℕ := 255

def Registry.empty : Registry := ⟨none, false, fun _ => none, fun _ => none, 0, fun _ => [], fun _ _ => none, fun _ _ => false⟩

def add_dependency (r : Registry) (provider_name dependent_name : Str) : Registry :=
  let indexed := if r.dependents provider_name = [] then fun _ => none else r.dependents_indexed provider_name
  let (dependents, indexed) : List Str × (Str → Option ℕ) :=
    if indexed dependent_name = none then
      (r.dependents provider_name ++ [dependent_name],
        Function.update indexed dependent_name (some (r.dependents provider_name ++ [dependent_name]).length))
    else (r.dependents provider_name, indexed)
  { r with
    dependents := Function.update r.dependents provider_name dependents
    dependents_indexed := Function.update r.dependents_indexed provider_name indexed
    providers := Function.update r.providers dependent_name
      (Function.update (r.providers dependent_name) provider_name true) }

def add_dependencies (r : Registry) (dependent_name : Str) (provider_names : List Str) : Registry :=
  provider_names.foldl (fun r p => add_dependency r p dependent_name) r

/-- the arguments of `Module.new`; a string that is nil is the empty one -/
structure Args where
  name : Str
  ptr : ℕ
  version : Str
  subscribe_string : Str
  publish_string : Str
  parent_module_names_string : Str
deriving DecidableEq, Repr

/-- the order in which `pairs` visits the subscriptions -/
structure Pairs where
  order : List Subscription → List Subscription
  perm : ∀ l, (order l).Perm l

/-- the publishers of the required events -/
def required (subscribe : List Subscription) : List Str := (subscribe.filter Subscription.required).map Subscription.module_name

def failed (name err : Str) : Str := "failed to add module ".toList ++ name ++ ": ".toList ++ err

/-- the checks before the first dependency is recorded -/
def check (r : Registry) (a : Args) : Except Str (List Str × List Subscription) :=
  if max_module_count ≤ r.index_counter then .error "number of modules cannot exceed 255".toList
  else if (r.by_name a.name).isSome ∨ (r.by_ptr a.ptr).isSome then
    .error ("module ".toList ++ a.name ++ " has already been added".toList)
  else if ¬ version_valid a.version then
    .error ("module ".toList ++ a.name ++ quoted " has an invalid version string " a.version "")
  else if r.core = none ∧ r.coreless = false then .error "core module not set".toList
  else
    match split_parent_modules_string a.parent_module_names_string with
    | .error err => .error (failed a.name err)
    | .ok parents =>
      match split_subscribe_list_string a.subscribe_string with
      | .error err => .error (failed a.name err)
      | .ok subscribe => .ok (parents, subscribe)

/-- the module in `by_name` and `by_ptr`, and counted -/
def Registry.record (r : Registry) (m : Mod) : Registry :=
  { r with
    by_name := Function.update r.by_name m.name (some m)
    by_ptr := Function.update r.by_ptr m.ptr (some m)
    index_counter := r.index_counter + 1 }

/-- `Module.new` -/
def new (o : Pairs) (r : Registry) (a : Args) : Registry × Except Str Mod :=
  match check r a with
  | .error err => (r, .error err)
  | .ok (parents, subscribe) =>
    let r := add_dependencies r a.name (required (o.order subscribe))
    match split_publish_list_string a.publish_string with
    | .error err => (r, .error (failed a.name err))
    | .ok publish =>
      let m : Mod := ⟨a.name, a.ptr, a.version, parents, subscribe, publish, r.index_counter + 1⟩
      (add_dependencies (r.record m) a.name (parents ++ (r.core.toList ++ ["core".toList])), .ok m)

/-- `Module.new_core_module` -/
def new_core_module (o : Pairs) (r : Registry) (a : Args) : Registry × Except Str Mod :=
  if (r.by_name a.name).isSome then
    (r, .error ("module ".toList ++ a.name ++ " has already been added as a non-core module".toList))
  else if r.core.isSome then (r, .error "core module is already set".toList)
  else
    let (r, res) := new o { r with coreless := true } a
    let r := { r with coreless := false }
    match res with
    | .error err => (r, .error err)
    | .ok m => ({ r with core := some m.name }, .ok m)

inductive Call where
  | new (o : Pairs) (a : Args)
  | new_core_module (o : Pairs) (a : Args)
  /-- from `module:freeze` -/
  | add_dependency (provider_name dependent_name : Str)

def step (r : Registry) : Call → Option Registry
  | .new o a => some (new o r a).1
  | .new_core_module o a => some (new_core_module o r a).1
  | .add_dependency p d => some (add_dependency r p d)

/-! ## The property -/

structure Inverse (r : Registry) : Prop where
  indexed : ∀ p d k, r.dependents_indexed p d = some k ↔ 1 ≤ k ∧ (r.dependents p)[k - 1]? = some d
  nodup : ∀ p, (r.dependents p).Nodup
  mirror : ∀ p d, r.providers d p = true ↔ d ∈ r.dependents p

/-- **The property** of a call: nothing changes when it fails, and when it succeeds the module has the next index and the tables of the
dependencies fit each other. -/
structure Atomic (o : Pairs) (r : Registry) (a : Args) : Prop where
  failed : ∀ err, (new o r a).2 = .error err → (new o r a).1 = r
  index : ∀ m, (new o r a).2 = .ok m → m.index = r.index_counter + 1 ∧ (new o r a).1.index_counter = m.index ∧
    (new o r a).1.by_name a.name = some m ∧ (new o r a).1.by_ptr a.ptr = some m
  inverse : ∀ m, (new o r a).2 = .ok m → Inverse (new o r a).1

/-- **The condition**: the publish string is read, or another check fails before, or the module is recorded already with the publishers of
all its required events. -/
def Clean (r : Registry) (a : Args) : Prop :=
  (∃ publish, split_publish_list_string a.publish_string = .ok publish) ∨ (∃ err, check r a = .error err) ∨
    ∀ subscribe, split_subscribe_list_string a.subscribe_string = .ok subscribe →
      ∀ s ∈ subscribe, s.required = true → a.name ∈ r.dependents s.module_name

/-! ## The tables fit each other -/

namespace Inverse

variable {r : Registry}

theorem fresh (h : Inverse r) (p : Str) :
    (if r.dependents p = [] then fun _ => none else r.dependents_indexed p) = r.dependents_indexed p := by
  split_ifs with hp
  · funext d
    cases hk : r.dependents_indexed p d with
    | none => rfl
    | some k =>
      have := ((h.indexed p d k).1 hk).2
      simp [hp] at this
  · rfl

theorem none_iff (h : Inverse r) (p d : Str) : r.dependents_indexed p d = none ↔ d ∉ r.dependents p := by
  constructor
  · intro hn hd
    obtain ⟨i, hi, hid⟩ := List.getElem_of_mem hd
    have : r.dependents_indexed p d = some (i + 1) := (h.indexed p d (i + 1)).2 ⟨by omega, by simp [hi, hid]⟩
    simp [hn] at this
  · intro hd
    by_contra hn
    obtain ⟨k, hk⟩ := Option.ne_none_iff_exists'.1 hn
    exact hd (List.mem_of_getElem? ((h.indexed p d k).1 hk).2)

/-- a dependency that is recorded changes nothing -/
theorem add_known (h : Inverse r) {p d : Str} (hd : d ∈ r.dependents p) : add_dependency r p d = r := by
  have hn : r.dependents_indexed p d ≠ none := fun hn => (h.none_iff p d).1 hn hd
  have hm : r.providers d p = true := (h.mirror p d).2 hd
  unfold add_dependency
  simp only [h.fresh, hn, if_false, Function.update_eq_self]
  rw [← hm, Function.update_eq_self, Function.update_eq_self]

theorem add_fresh (h : Inverse r) {p d : Str} (hd : d ∉ r.dependents p) :
    add_dependency r p d = { r with
      dependents := Function.update r.dependents p (r.dependents p ++ [d])
      dependents_indexed := Function.update r.dependents_indexed p
        (Function.update (r.dependents_indexed p) d (some ((r.dependents p).length + 1)))
      providers := Function.update r.providers d (Function.update (r.providers d) p true) } := by
  have hn : r.dependents_indexed p d = none := (h.none_iff p d).2 hd
  unfold add_dependency
  simp only [h.fresh, hn, if_true, List.length_append, List.length_singleton]

end Inverse

theorem empty_inverse : Inverse Registry.empty := by
  refine ⟨fun p d k => ?_, fun p => List.nodup_nil, fun p d => ?_⟩ <;> simp [Registry.empty]

/-- where a value stands in a list with one more value at its end -/
theorem place_append {l : List Str} {d e : Str} {k : ℕ} (hd : d ∉ l) :
    (1 ≤ k ∧ (l ++ [d])[k - 1]? = some e) ↔ if e = d then k = l.length + 1 else 1 ≤ k ∧ l[k - 1]? = some e := by
  rcases Nat.lt_trichotomy (k - 1) l.length with hk | hk | hk
  · rw [List.getElem?_append_left hk]
    split_ifs with he
    · subst he
      constructor
      · intro h
        exact absurd (List.mem_of_getElem? h.2) hd
      · intro h
        omega
    · rfl
  · have hl : l[k - 1]? = none := List.getElem?_eq_none hk.ge
    rw [List.getElem?_append_right hk.ge, hl, hk]
    simp only [Nat.sub_self, List.getElem?_cons_zero, Option.some.injEq, reduceCtorEq, and_false]
    split_ifs with he
    · subst he
      simp only [and_true]
      omega
    · simp [Ne.symm he]
  · have h1 : (l ++ [d])[k - 1]? = none := List.getElem?_eq_none (by simp; omega)
    have h2 : l[k - 1]? = none := List.getElem?_eq_none hk.le
    rw [h1, h2]
    split_ifs
    · simp
      omega
    · rfl

/-- **One dependency.** -/
theorem add_dependency_inverse {r : Registry} (h : Inverse r) (p d : Str) : Inverse (add_dependency r p d) := by
  by_cases hd : d ∈ r.dependents p
  · rwa [h.add_known hd]
  rw [h.add_fresh hd]
  refine ⟨fun q e k => ?_, fun q => ?_, fun q e => ?_⟩
  · by_cases hq : q = p
    · subst hq
      simp only [Function.update_self]
      rw [place_append hd]
      by_cases he : e = d
      · subst he
        simp [eq_comm]
      · simp only [Function.update_of_ne he, if_neg he]
        exact h.indexed q e k
    · simp only [Function.update_of_ne hq]
      exact h.indexed q e k
  · by_cases hq : q = p
    · subst hq
      simp only [Function.update_self]
      exact (h.nodup q).append (List.nodup_singleton d) (by simpa using hd)
    · simp only [Function.update_of_ne hq]
      exact h.nodup q
  · have hm := h.mirror q e
    by_cases hq : q = p <;> by_cases he : e = d
    · subst hq he
      simp
    · subst hq
      simp [he, hm]
    · subst he
      simp [hq, hm]
    · simp [hq, he, hm]

theorem add_dependencies_inverse {r : Registry} (h : Inverse r) (d : Str) (ps : List Str) : Inverse (add_dependencies r d ps) := by
  induction ps generalizing r with
  | nil => exact h
  | cons p ps ih => exact ih (add_dependency_inverse h p d)

/-! ## Runs -/

theorem Inverse.of_tables {r t : Registry} (h : Inverse r) (h1 : t.dependents = r.dependents)
    (h2 : t.dependents_indexed = r.dependents_indexed) (h3 : t.providers = r.providers) : Inverse t := by
  refine ⟨?_, ?_, ?_⟩
  · rw [h1, h2]
    exact h.indexed
  · rw [h1]
    exact h.nodup
  · rw [h1, h3]
    exact h.mirror

theorem Inverse.record {r : Registry} (h : Inverse r) (m : Mod) : Inverse (r.record m) := h.of_tables rfl rfl rfl

theorem new_inverse (o : Pairs) {r : Registry} (h : Inverse r) (a : Args) : Inverse (new o r a).1 := by
  unfold new
  split
  · exact h
  · rename_i parents subscribe _
    have h1 := add_dependencies_inverse h a.name (required (o.order subscribe))
    dsimp only
    split
    · exact h1
    · exact add_dependencies_inverse (h1.record _) a.name _

theorem new_core_module_inverse (o : Pairs) {r : Registry} (h : Inverse r) (a : Args) : Inverse (new_core_module o r a).1 := by
  unfold new_core_module
  have h0 : Inverse { r with coreless := true } := h.of_tables rfl rfl rfl
  have h1 := new_inverse o h0 a
  split_ifs
  · exact h
  · exact h
  · dsimp only
    split
    · exact h1.of_tables rfl rfl rfl
    · exact h1.of_tables rfl rfl rfl

/-- **Every run keeps the tables fitting.** -/
theorem reach_inverse {r : Registry} (h : Reach step always Registry.empty r) : Inverse r := by
  refine h.inv empty_inverse fun s c t hi _ hs => ?_
  cases c <;> simp only [step, Option.some.injEq] at hs <;> subst hs
  · exact new_inverse _ hi _
  · exact new_core_module_inverse _ hi _
  · exact add_dependency_inverse hi _ _

/-! ## What the dependencies change -/

/-- what recording dependencies leaves alone -/
structure Frame (r t : Registry) : Prop where
  by_name : t.by_name = r.by_name
  by_ptr : t.by_ptr = r.by_ptr
  index_counter : t.index_counter = r.index_counter
  grown : ∀ p, r.dependents p ⊆ t.dependents p

theorem add_dependency_frame {r : Registry} (h : Inverse r) (p d : Str) : Frame r (add_dependency r p d) := by
  refine ⟨rfl, rfl, rfl, fun q => ?_⟩
  by_cases hd : d ∈ r.dependents p
  · rw [h.add_known hd]
    exact List.Subset.refl _
  · rw [h.add_fresh hd]
    by_cases hq : q = p
    · subst hq
      simp
    · simp [hq]

theorem add_dependency_mem {r : Registry} (h : Inverse r) (p d : Str) : d ∈ (add_dependency r p d).dependents p := by
  by_cases hd : d ∈ r.dependents p
  · rwa [h.add_known hd]
  · rw [h.add_fresh hd]
    simp

theorem add_dependencies_frame {r : Registry} (h : Inverse r) (d : Str) (ps : List Str) : Frame r (add_dependencies r d ps) := by
  induction ps generalizing r with
  | nil => exact ⟨rfl, rfl, rfl, fun _ => List.Subset.refl _⟩
  | cons p ps ih =>
    have h1 := add_dependency_frame h p d
    have h2 := ih (add_dependency_inverse h p d)
    exact ⟨h2.by_name.trans h1.by_name, h2.by_ptr.trans h1.by_ptr, h2.index_counter.trans h1.index_counter,
      fun q => List.Subset.trans (h1.grown q) (h2.grown q)⟩

theorem add_dependencies_mem {r : Registry} (h : Inverse r) (d : Str) {ps : List Str} {p : Str} (hp : p ∈ ps) :
    d ∈ (add_dependencies r d ps).dependents p := by
  induction ps generalizing r with
  | nil => simp at hp
  | cons q ps ih =>
    have hi := add_dependency_inverse h q d
    rcases List.mem_cons.1 hp with rfl | hp
    · exact (add_dependencies_frame hi d ps).grown p (add_dependency_mem h p d)
    · exact ih hi hp

/-- **When recording dependencies changes nothing**: they are all recorded. -/
theorem add_dependencies_eq_iff {r : Registry} (h : Inverse r) (d : Str) (ps : List Str) :
    add_dependencies r d ps = r ↔ ∀ p ∈ ps, d ∈ r.dependents p := by
  constructor
  · intro he p hp
    rw [← he]
    exact add_dependencies_mem h d hp
  · intro hall
    induction ps with
    | nil => rfl
    | cons p ps ih =>
      have hp : add_dependency r p d = r := h.add_known (hall p List.mem_cons_self)
      calc add_dependencies r d (p :: ps) = add_dependencies (add_dependency r p d) d ps := rfl
        _ = add_dependencies r d ps := by rw [hp]
        _ = r := ih fun q hq => hall q (List.mem_cons_of_mem p hq)

/-! ## A call -/

theorem check_subscribe {r : Registry} {a : Args} {parents : List Str} {subscribe : List Subscription}
    (h : check r a = .ok (parents, subscribe)) : split_subscribe_list_string a.subscribe_string = .ok subscribe := by
  unfold check at h
  split_ifs at h
  split at h
  · simp at h
  · split at h
    · simp at h
    · rename_i hs
      simp only [Except.ok.injEq, Prod.mk.injEq] at h
      rw [hs, h.2]

theorem mem_required (o : Pairs) (subscribe : List Subscription) (p : Str) :
    p ∈ required (o.order subscribe) ↔ ∃ s ∈ subscribe, s.required = true ∧ s.module_name = p := by
  simp only [required, List.mem_map, List.mem_filter, (o.perm subscribe).mem_iff, and_assoc]

theorem atomic_of_check {o : Pairs} {r : Registry} {a : Args} {err : Str} (h : check r a = .error err) : Atomic o r a := by
  have hn : new o r a = (r, .error err) := by rw [new, h]
  refine ⟨fun _ _ => by rw [hn], fun m hm => ?_, fun m hm => ?_⟩ <;> simp [hn] at hm

theorem atomic_of_publish {o : Pairs} {r : Registry} (hr : Inverse r) {a : Args} {parents : List Str} {subscribe : List Subscription}
    {publish : List Str} (h : check r a = .ok (parents, subscribe)) (hp : split_publish_list_string a.publish_string = .ok publish) :
    Atomic o r a := by
  set r1 := add_dependencies r a.name (required (o.order subscribe)) with hr1
  have h1 : Inverse r1 := add_dependencies_inverse hr a.name _
  have f1 : Frame r r1 := add_dependencies_frame hr a.name _
  set m : Mod := ⟨a.name, a.ptr, a.version, parents, subscribe, publish, r1.index_counter + 1⟩ with hm
  have f2 := add_dependencies_frame (h1.record m) a.name (parents ++ (r1.core.toList ++ ["core".toList]))
  have hn : new o r a = (add_dependencies (r1.record m) a.name (parents ++ (r1.core.toList ++ ["core".toList])), .ok m) := by
    simp only [new, h, hp, ← hr1, ← hm]
  refine ⟨fun err he => ?_, fun m' hm' => ?_, fun m' _ => new_inverse o hr a⟩
  · simp [hn] at he
  · rw [hn] at hm' ⊢
    cases hm'
    refine ⟨by rw [hm, f1.index_counter], ?_, ?_, ?_⟩
    · rw [f2.index_counter]
      rfl
    · rw [f2.by_name]
      exact Function.update_self ..
    · rw [f2.by_ptr]
      exact Function.update_self ..

/-- **When `Module.new` is all or nothing.** -/
theorem new_atomic_iff {r : Registry} (h : Reach step always Registry.empty r) (o : Pairs) (a : Args) : Atomic o r a ↔ Clean r a := by
  have hr := reach_inverse h
  cases hc : check r a with
  | error err =>
    exact iff_of_true (atomic_of_check hc) (.inr (.inl ⟨err, hc⟩))
  | ok ps =>
    obtain ⟨parents, subscribe⟩ := ps
    cases hp : split_publish_list_string a.publish_string with
    | ok publish => exact iff_of_true (atomic_of_publish hr hc hp) (.inl ⟨publish, hp⟩)
    | error err =>
      -- the call fails after the required events
      have hs := check_subscribe hc
      have hn : new o r a = (add_dependencies r a.name (required (o.order subscribe)), .error (failed a.name err)) := by
        simp only [new, hc, hp]
      have hall : add_dependencies r a.name (required (o.order subscribe)) = r ↔
          ∀ s ∈ subscribe, s.required = true → a.name ∈ r.dependents s.module_name := by
        rw [add_dependencies_eq_iff hr]
        simp only [mem_required]
        constructor
        · intro hq s hs hreq
          exact hq _ ⟨s, hs, hreq, rfl⟩
        · rintro hq p ⟨s, hs, hreq, rfl⟩
          exact hq s hs hreq
      constructor
      · intro hat
        refine .inr (.inr fun subscribe' hs' => ?_)
        cases hs.symm.trans hs'
        have hsame := hat.failed (failed a.name err) (by rw [hn])
        rw [hn] at hsame
        exact hall.1 hsame
      · rintro (⟨publish, hp'⟩ | ⟨err', hc'⟩ | hclean)
        · simp [hp] at hp'
        · simp [hc] at hc'
        · refine ⟨fun _ _ => ?_, fun m hm => ?_, fun m hm => ?_⟩
          · rw [hn]
            exact hall.2 (hclean subscribe hs)
          · simp [hn] at hm
          · simp [hn] at hm

def sorted : Pairs := ⟨id, fun _ => List.Perm.refl _⟩

def core_args : Args := ⟨"core".toList, 1, "0.0.1".toList, [], [], []⟩

/-- a required event, and `!` in the publish string -/
def bad_args : Args := ⟨"foo".toList, 2, "0.0.1".toList, "bar:ev".toList, "bad!".toList, []⟩

def started : Registry := (new_core_module sorted Registry.empty core_args).1

theorem started_reach : Reach step always Registry.empty started :=
  Reach.init.next (a := .new_core_module sorted core_args) trivial rfl

theorem atomic_good : split_publish_list_string "x.y".toList = .ok ["x.y".toList] ∧
    Atomic sorted started { bad_args with publish_string := "x.y".toList } := by
  have hp : split_publish_list_string "x.y".toList = .ok ["x.y".toList] := by decide +kernel
  exact ⟨hp, (new_atomic_iff started_reach sorted _).2 (.inl ⟨_, hp⟩)⟩

/-- the module is not added and stays a dependent -/
theorem not_atomic : ∃ r, Reach step always Registry.empty r ∧ ∃ o a, ¬ Atomic o r a := by
  refine ⟨started, started_reach, sorted, bad_args, fun h => ?_⟩
  have he : (new sorted started bad_args).2 =
      .error "failed to add module foo: invalid character '!' in publish string".toList := by decide +kernel
  have h1 : (new sorted started bad_args).1.dependents "bar".toList = ["foo".toList] := by decide +kernel
  have h2 : started.dependents "bar".toList = [] := by decide +kernel
  rw [h.failed _ he, h2] at h1
  cases h1

end Shuttlesock.Registration
