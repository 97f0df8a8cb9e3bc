/-
`module:freeze` of `module.lua` with the ways it ends: the parents and the subscriptions of a module, and what is missing of
them.

Model: the modules and the table of dependencies are those of `Module/Offsets.lean`; here an error carries its text, and a
raised error is told apart from one that is returned. `pairs` visits the subscriptions in an order that is part of the
input. What is written before an error stays. The field `optional` of an event is set nowhere in `module.lua` or `event.lua`,
so that it is nil; whether a subscription is optional is read from `subscribe_required`.

When the module of an optional subscription is not there, the code goes on and calls `publishing_module:event` on nil.

Results:
- `freezes_iff`: in every state that freezing reaches, a call succeeds when what is required is there, raises nothing and
  ignores what is optional and not there, if and only if `Harmless`.
- `not_freezes`: a module with one optional subscription to a module that was not added.
- `module_freeze_agrees`: the other model of freezing says the same.
-/
import Mathlib.Tactic
import Shuttlesock.Core.Runs
import Shuttlesock.Module.Offsets

namespace Shuttlesock.Modules

/-! ## The model -/

/-- how a call ends: it returns true, nil and a text, or it raises an error -/
inductive Ending where
  | ok
  | error (message : String)
  | raised
deriving DecidableEq

/-- the modules, and which of them have the field `frozen` -/
structure Freezer where
  table : Table
  frozen : String → Bool

/-- the loop over `parent_module_names` -/
def freeze_parents (m : Mod) : List String → Table → Table × Ending
  | [], t => (t, .ok)
  | modname :: rest, t =>
    match t.find modname with
    | none => (t, .error ("module " ++ m.name ++ " requires parent module " ++ modname ++ ", which was not found"))
    | some parent => freeze_parents m rest (add_dependency t parent.name m.name)

/-- the name that a subscription is kept under, when it is a required one -/
def Subscription.key (s : Subscription) : String := s.module_name ++ ":" ++ s.event_name

/-- the loop over `events.subscribe` -/
def freeze_events (m : Mod) : List Subscription → Table → Table × Ending
  | [], t => (t, .ok)
  | s :: rest, t =>
    match t.find s.module_name with
    | none =>
      if s.optional then (t, .raised)
      else (t, .error ("module " ++ m.name ++ " depends on event " ++ s.key ++ ", but module " ++ s.module_name ++
        " was not found"))
    | some publishing_module =>
      if s.event_name ∈ publishing_module.publish then
        freeze_events m rest (add_dependency t publishing_module.name m.name)
      else if s.optional then freeze_events m rest t
      else (t, .error ("module " ++ m.name ++ " depends on event " ++ s.key ++ ", but module " ++ s.module_name ++
        " does not publish such an event"))

/-- the two loops, the second one if the first ends well -/
def freeze_loops (order : List Subscription) (t : Table) (m : Mod) : Table × Ending :=
  match freeze_parents m m.parent_module_names t with
  | (t, .ok) => freeze_events m order t
  | (t, e) => (t, e)

/-- `module:freeze` -/
def module_freeze (order : List Subscription) (s : Freezer) (m : Mod) : Freezer × Ending :=
  if s.frozen m.name then (s, .ok)
  else
    match freeze_loops order s.table m with
    | (t, .ok) => (⟨t, Function.update s.frozen m.name true⟩, .ok)
    | (t, e) => ({ s with table := t }, e)

/-- a call for one of the modules, with the order of its subscriptions -/
def freeze_step (s : Freezer) (call : Mod × List Subscription) : Option Freezer :=
  if call.1 ∈ s.table.modules ∧ call.2.Perm call.1.subscribe then some (module_freeze call.2 s call.1).1 else none

/-- the modules are added, and none is frozen -/
def Table.unfrozen (t : Table) : Freezer := ⟨t, fun _ => false⟩

/-- the module of a subscription is there and publishes its event -/
def Table.publishes (t : Table) (s : Subscription) : Prop := ∃ pub, t.find s.module_name = some pub ∧ s.event_name ∈ pub.publish

/-- every parent exists, and every event that is not optional is published by a module that exists -/
def Table.provided (t : Table) (m : Mod) : Prop :=
  (∀ p ∈ m.parent_module_names, (t.find p).isSome) ∧ ∀ s ∈ m.subscribe, s.optional = false → t.publishes s

/-- of whom freezing m makes it a dependent: its parents and the publishers of the events that are there -/
def Table.wanted (t : Table) (m : Mod) (p : String) : Prop :=
  p ∈ m.parent_module_names ∨ ∃ s ∈ m.subscribe, s.module_name = p ∧ t.publishes s

/-- **The property** of one call. -/
structure Freezes (s : Freezer) (m : Mod) (order : List Subscription) : Prop where
  never_raises : ( module_freeze order s m).2 ≠ .raised
  succeeds : ( module_freeze order s m).2 = .ok ↔ s.table.provided m
  only : ∀ p d, d ∈ ( module_freeze order s m).1.table.dependents p →
    d ∈ s.table.dependents p ∨ d = m.name ∧ s.table.wanted m p
  all : ( module_freeze order s m).2 = .ok → ∀ p, s.table.wanted m p →
    m.name ∈ ( module_freeze order s m).1.table.dependents p

/-- **The condition**: the module is frozen already, a parent is missing, or each optional subscription to a missing module
comes after a required one to an event that is not there. -/
def Harmless (s : Freezer) (m : Mod) (order : List Subscription) : Prop :=
  s.frozen m.name = true ∨ (∃ p ∈ m.parent_module_names, s.table.find p = none) ∨
    ∀ pre o post, order = pre ++ o :: post → o.optional = true → s.table.find o.module_name = none →
      ∃ r ∈ pre, r.optional = false ∧ ¬ s.table.publishes r

/-! ## The loops -/

section Loops

variable {t t' : Table} {m : Mod}

theorem find_congr (h : t'.modules = t.modules) (name : String) : t'.find name = t.find name := by
  unfold Table.find
  rw [h]

theorem publishes_congr (h : t'.modules = t.modules) (s : Subscription) : t'.publishes s ↔ t.publishes s := by
  unfold Table.publishes
  rw [find_congr h]

theorem add_dependency_modules (t : Table) (p d : String) : (add_dependency t p d).modules = t.modules := rfl

/-- all parents are there and each gets the module, or one is missing -/
theorem freeze_parents_spec (m : Mod) (l : List String) (t : Table) :
    (∀ p ∈ l, (t.find p).isSome) ∧ freeze_parents m l t = (add_dependencies t m.name l, .ok) ∨
      (∃ p ∈ l, t.find p = none) ∧
        ∃ seen message, seen ⊆ l ∧ freeze_parents m l t = (add_dependencies t m.name seen, .error message) := by
  induction l generalizing t with
  | nil => exact .inl ⟨fun p hp => absurd hp List.not_mem_nil, rfl⟩
  | cons p l ih =>
    unfold freeze_parents
    split
    · rename_i hp
      exact .inr ⟨⟨p, List.mem_cons_self, hp⟩, [], _, List.nil_subset _, rfl⟩
    · rename_i parent hp
      have hsome : (t.find p).isSome := by rw [hp]; rfl
      rw [find_name hp]
      rcases ih (add_dependency t p m.name) with ⟨hall, heq⟩ | ⟨⟨q, hq, hmissing⟩, seen, message, hseen, heq⟩
      · refine .inl ⟨fun q hq => ?_, heq⟩
        rcases List.mem_cons.1 hq with rfl | hq
        · exact hsome
        · exact hall q hq
      · refine .inr ⟨⟨q, List.mem_cons_of_mem _ hq, hmissing⟩, p :: seen, message, ?_, heq⟩
        exact List.cons_subset_cons p hseen

/-- how far the loop over the subscriptions comes: over those of `seen`, which are published or optional with their module
there, and to the end or to one that stops it -/
theorem freeze_events_spec (m : Mod) (l : List Subscription) (t : Table) : ∃ seen rest ps, l = seen ++ rest ∧
    (∀ r ∈ seen, t.publishes r ∨ r.optional = true ∧ (t.find r.module_name).isSome) ∧
    (∀ p, p ∈ ps ↔ ∃ r ∈ seen, r.module_name = p ∧ t.publishes r) ∧
    (freeze_events m l t).1 = add_dependencies t m.name ps ∧
    ((freeze_events m l t).2 = .ok ∧ rest = [] ∨
      (∃ message r post, (freeze_events m l t).2 = .error message ∧ rest = r :: post ∧ r.optional = false ∧
        ¬ t.publishes r) ∨
      ∃ r post, (freeze_events m l t).2 = .raised ∧ rest = r :: post ∧ r.optional = true ∧
        t.find r.module_name = none) := by
  induction l generalizing t with
  | nil => exact ⟨[], [], [], rfl, by simp, by simp, rfl, .inl ⟨rfl, rfl⟩⟩
  | cons s l ih =>
    unfold freeze_events
    split
    · rename_i hnone
      have hnot : ¬ t.publishes s := by
        rintro ⟨pub, hpub, -⟩
        rw [hnone] at hpub
        cases hpub
      split
      · rename_i hopt
        exact ⟨[], s :: l, [], rfl, by simp, by simp, rfl, .inr (.inr ⟨s, l, rfl, rfl, hopt, hnone⟩)⟩
      · rename_i hopt
        exact ⟨[], s :: l, [], rfl, by simp, by simp, rfl, .inr (.inl ⟨_, s, l, rfl, rfl, by simpa using hopt, hnot⟩)⟩
    · rename_i pub hpub
      split
      · rename_i hev
        have hs : t.publishes s := ⟨pub, hpub, hev⟩
        obtain ⟨seen, rest, ps, rfl, hseen, hps, htable, hend⟩ := ih (add_dependency t pub.name m.name)
        simp only [publishes_congr (add_dependency_modules t pub.name m.name),
          find_congr (add_dependency_modules t pub.name m.name)] at hseen hps hend
        refine ⟨s :: seen, rest, pub.name :: ps, rfl, ?_, fun p => ?_, htable, hend⟩
        · intro r hr
          rcases List.mem_cons.1 hr with rfl | hr
          · exact .inl hs
          · exact hseen r hr
        · rw [List.mem_cons, hps, find_name hpub]
          simp only [List.mem_cons, exists_eq_or_imp, hs, and_true, eq_comm (a := p)]
      · rename_i hev
        have hs : ¬ t.publishes s := by
          rintro ⟨pub', hpub', hev'⟩
          rw [hpub] at hpub'
          cases hpub'
          exact hev hev'
        split
        · rename_i hopt
          obtain ⟨seen, rest, ps, rfl, hseen, hps, htable, hend⟩ := ih t
          refine ⟨s :: seen, rest, ps, rfl, ?_, fun p => ?_, htable, hend⟩
          · intro r hr
            rcases List.mem_cons.1 hr with rfl | hr
            · exact .inr ⟨hopt, by rw [hpub]; rfl⟩
            · exact hseen r hr
          · rw [hps]
            simp only [List.mem_cons, exists_eq_or_imp, hs, and_false, false_or]
        · rename_i hopt
          exact ⟨[], s :: l, [], rfl, by simp, by simp, rfl,
            .inr (.inl ⟨_, s, l, rfl, rfl, by simpa using hopt, hs⟩)⟩

/-- some optional subscription to a missing module comes before every required one that fails -/
def Exposed (t : Table) (order : List Subscription) : Prop :=
  ∃ pre o post, order = pre ++ o :: post ∧ o.optional = true ∧ t.find o.module_name = none ∧
    ∀ r ∈ pre, r.optional = false → t.publishes r

theorem freeze_loops_modules (order : List Subscription) (t : Table) (m : Mod) :
    (freeze_loops order t m).1.modules = t.modules := by
  unfold freeze_loops
  rcases freeze_parents_spec m m.parent_module_names t with ⟨-, heq⟩ | ⟨-, seen, message, -, heq⟩ <;> rw [heq]
  · obtain ⟨-, -, ps, -, -, -, htable, -⟩ := freeze_events_spec m order (add_dependencies t m.name m.parent_module_names)
    dsimp only
    rw [htable, add_dependencies_modules, add_dependencies_modules]
  · exact add_dependencies_modules t m.name seen

theorem freeze_loops_only {order : List Subscription} (hperm : order.Perm m.subscribe) {p d : String}
    (h : d ∈ (freeze_loops order t m).1.dependents p) : d ∈ t.dependents p ∨ d = m.name ∧ t.wanted m p := by
  unfold freeze_loops at h
  rcases freeze_parents_spec m m.parent_module_names t with ⟨-, heq⟩ | ⟨-, seen, message, hseen, heq⟩ <;> rw [heq] at h
  · obtain ⟨seen, rest, ps, rfl, -, hps, htable, -⟩ :=
      freeze_events_spec m order (add_dependencies t m.name m.parent_module_names)
    dsimp only at h
    rw [htable, mem_add_dependencies, mem_add_dependencies] at h
    rcases h with (h | ⟨hd, hp⟩) | ⟨hd, hp⟩
    · exact .inl h
    · exact .inr ⟨hd, .inl hp⟩
    · obtain ⟨r, hr, hname, hpub⟩ := (hps p).1 hp
      rw [publishes_congr (add_dependencies_modules ..)] at hpub
      exact .inr ⟨hd, .inr ⟨r, hperm.subset (List.mem_append_left _ hr), hname, hpub⟩⟩
  · rw [mem_add_dependencies] at h
    exact h.imp id fun ⟨hd, hp⟩ => ⟨hd, .inl (hseen hp)⟩

/-- when the loops end well, nothing is missing and everybody has the module -/
theorem freeze_loops_ok {order : List Subscription} (hperm : order.Perm m.subscribe)
    (h : (freeze_loops order t m).2 = .ok) :
    t.provided m ∧ ∀ p, t.wanted m p → m.name ∈ (freeze_loops order t m).1.dependents p := by
  unfold freeze_loops at h ⊢
  rcases freeze_parents_spec m m.parent_module_names t with ⟨hall, heq⟩ | ⟨-, seen, message, -, heq⟩ <;> rw [heq] at h ⊢
  · have hmods := add_dependencies_modules t m.name m.parent_module_names
    obtain ⟨seen, rest, ps, rfl, hseen, hps, htable, hend⟩ :=
      freeze_events_spec m order (add_dependencies t m.name m.parent_module_names)
    dsimp only at h ⊢
    rw [h] at hend
    simp only [publishes_congr hmods] at hseen hps
    obtain ⟨-, rfl⟩ | ⟨message, r, post, hbad, -⟩ | ⟨r, post, hbad, -⟩ := hend
    · rw [List.append_nil] at hperm
      refine ⟨⟨hall, fun s hs hreq => ?_⟩, fun p hp => ?_⟩
      · rcases hseen s (hperm.mem_iff.2 hs) with hpub | ⟨hopt, -⟩
        · exact hpub
        · rw [hreq] at hopt
          cases hopt
      · rw [htable, mem_add_dependencies, mem_add_dependencies]
        rcases hp with hp | ⟨s, hs, hname, hpub⟩
        · exact .inl (.inr ⟨rfl, hp⟩)
        · exact .inr ⟨rfl, (hps p).2 ⟨s, hperm.mem_iff.2 hs, hname, hpub⟩⟩
    · cases hbad
    · cases hbad
  · cases h

/-- an error is returned only when something is missing -/
theorem freeze_loops_error {order : List Subscription} {message : String} (hperm : order.Perm m.subscribe)
    (h : (freeze_loops order t m).2 = .error message) : ¬ t.provided m := by
  rintro ⟨hparents, hevents⟩
  unfold freeze_loops at h
  rcases freeze_parents_spec m m.parent_module_names t with ⟨-, heq⟩ | ⟨⟨p, hp, hmissing⟩, -⟩
  · obtain ⟨seen, rest, ps, rfl, -, -, -, hend⟩ :=
      freeze_events_spec m order (add_dependencies t m.name m.parent_module_names)
    rw [heq] at h
    dsimp only at h
    rw [h] at hend
    obtain ⟨hbad, -⟩ | ⟨message, r, post, -, rfl, hreq, hnot⟩ | ⟨r, post, hbad, -⟩ := hend
    · cases hbad
    · rw [publishes_congr (add_dependencies_modules ..)] at hnot
      exact hnot (hevents r (hperm.subset (by simp)) hreq)
    · cases hbad
  · have hsome := hparents p hp
    rw [hmissing] at hsome
    cases hsome

theorem freeze_loops_raised (order : List Subscription) (t : Table) (m : Mod) :
    (freeze_loops order t m).2 = .raised ↔ (∀ p ∈ m.parent_module_names, t.find p ≠ none) ∧ Exposed t order := by
  unfold freeze_loops
  rcases freeze_parents_spec m m.parent_module_names t with ⟨hall, heq⟩ | ⟨⟨p, hp, hmissing⟩, seen, message, -, heq⟩ <;>
    rw [heq]
  · have hparents : ∀ p ∈ m.parent_module_names, t.find p ≠ none := fun p hp hnone => by
      have hsome := hall p hp
      rw [hnone] at hsome
      cases hsome
    have hmods := add_dependencies_modules t m.name m.parent_module_names
    obtain ⟨seen, rest, ps, rfl, hseen, -, -, hend⟩ :=
      freeze_events_spec m order (add_dependencies t m.name m.parent_module_names)
    simp only [publishes_congr hmods, find_congr hmods] at hseen hend
    dsimp only
    -- a subscription that is passed is not one that stops the loop
    have hpast : ∀ pre o post, seen ++ rest = pre ++ o :: post → o.optional = true → t.find o.module_name = none →
        seen.length ≤ pre.length := by
      intro pre o post hsplit hopt hnone
      by_contra hlt
      have hmem : o ∈ seen := by
        have hget : (seen ++ rest)[pre.length]? = some o := by rw [hsplit]; simp
        rw [List.getElem?_append_left (by omega)] at hget
        exact List.mem_of_getElem? hget
      rcases hseen o hmem with ⟨pub, hpub, -⟩ | ⟨-, hsome⟩
      · rw [hnone] at hpub
        cases hpub
      · rw [hnone] at hsome
        cases hsome
    constructor
    · intro h
      rw [h] at hend
      obtain ⟨hbad, -⟩ | ⟨message, r, post, hbad, -⟩ | ⟨r, post, -, rfl, hopt, hnone⟩ := hend
      · cases hbad
      · cases hbad
      · refine ⟨hparents, seen, r, post, rfl, hopt, hnone, fun q hq hreq => ?_⟩
        rcases hseen q hq with hpub | ⟨hopt', -⟩
        · exact hpub
        · rw [hreq] at hopt'
          cases hopt'
    · rintro ⟨-, pre, o, post, hsplit, hopt, hnone, hpre⟩
      have hle := hpast pre o post hsplit hopt hnone
      obtain ⟨-, rfl⟩ | ⟨message, r, post', -, rfl, hreq, hnot⟩ | ⟨r, post', h, -⟩ := hend
      · have hlen := congrArg List.length hsplit
        rw [List.append_nil, List.length_append, List.length_cons] at hlen
        omega
      · have hseen : seen <+: seen ++ r :: post' := List.prefix_append ..
        have hpre' : pre <+: seen ++ r :: post' := hsplit ▸ List.prefix_append ..
        obtain ⟨mid, rfl⟩ := List.prefix_of_prefix_length_le hseen hpre' hle
        rw [List.append_assoc, List.append_cancel_left_eq] at hsplit
        cases mid with
        | nil =>
          cases hsplit
          rw [hreq] at hopt
          cases hopt
        | cons q mid =>
          cases hsplit
          exact absurd (hpre r (by simp) hreq) hnot
      · exact h
  · exact ⟨nofun, fun ⟨hall, _⟩ => absurd hmissing (hall p hp)⟩

end Loops

/-! ## One call, and any run -/

section Calls

variable {ms : List Mod} {s s' : Freezer} {m : Mod} {order : List Subscription}

theorem module_freeze_frozen (order : List Subscription) (h : s.frozen m.name = true) : module_freeze order s m = (s, .ok) := if_pos h

theorem module_freeze_loops (order : List Subscription) (h : s.frozen m.name = false) :
    ( module_freeze order s m).1.table = (freeze_loops order s.table m).1 ∧
      ( module_freeze order s m).2 = (freeze_loops order s.table m).2 ∧
      ∀ n, ( module_freeze order s m).1.frozen n = true →
        s.frozen n = true ∨ n = m.name ∧ (freeze_loops order s.table m).2 = .ok := by
  unfold module_freeze
  rw [if_neg (by rw [h]; exact Bool.false_ne_true)]
  split
  · rename_i t heq
    rw [heq]
    refine ⟨rfl, rfl, fun n hn => ?_⟩
    rcases eq_or_ne n m.name with rfl | hne
    · exact .inr ⟨rfl, rfl⟩
    · dsimp only at hn
      rw [Function.update_of_ne hne] at hn
      exact .inl hn
  · rename_i t e hne heq
    rw [heq]
    exact ⟨rfl, rfl, fun n hn => .inl hn⟩

/-- what every run keeps: what is frozen was provided, and its publishers know of it -/
structure Freezer.Inv (ms : List Mod) (s : Freezer) : Prop where
  modules : s.table.modules = ms
  provided : ∀ m ∈ ms, s.frozen m.name = true → s.table.provided m
  known : ∀ m ∈ ms, s.frozen m.name = true → ∀ p, s.table.wanted m p → m.name ∈ s.table.dependents p

theorem provided_congr {t t' : Table} (h : t'.modules = t.modules) (m : Mod) : t'.provided m ↔ t.provided m := by
  unfold Table.provided
  simp only [find_congr h, publishes_congr h]

theorem wanted_congr {t t' : Table} (h : t'.modules = t.modules) (m : Mod) (p : String) :
    t'.wanted m p ↔ t.wanted m p := by
  unfold Table.wanted
  simp only [publishes_congr h]

/-- nobody loses a dependent -/
theorem freeze_loops_keeps (order : List Subscription) (t : Table) (m : Mod) {p d : String} (h : d ∈ t.dependents p) :
    d ∈ (freeze_loops order t m).1.dependents p := by
  unfold freeze_loops
  rcases freeze_parents_spec m m.parent_module_names t with ⟨-, heq⟩ | ⟨-, seen, message, -, heq⟩ <;> rw [heq]
  · obtain ⟨-, -, ps, -, -, -, htable, -⟩ := freeze_events_spec m order (add_dependencies t m.name m.parent_module_names)
    dsimp only
    rw [htable, mem_add_dependencies, mem_add_dependencies]
    exact .inl (.inl h)
  · rw [mem_add_dependencies]
    exact .inl h

theorem inv_step (hnames : (ms.map Mod.name).Nodup) (h : s.Inv ms) {call : Mod × List Subscription}
    (heq : freeze_step s call = some s') : s'.Inv ms := by
  unfold freeze_step at heq
  split_ifs at heq with hcall
  obtain ⟨hmem, hperm⟩ := hcall
  rw [h.modules] at hmem
  cases heq
  by_cases hfrozen : s.frozen call.1.name = true
  · rw [module_freeze_frozen call.2 hfrozen]
    exact h
  · obtain ⟨htable, -, hflag⟩ := module_freeze_loops call.2 (Bool.eq_false_iff.2 hfrozen)
    have hmods := freeze_loops_modules call.2 s.table call.1
    have hnew : ∀ n ∈ ms, ( module_freeze call.2 s call.1).1.frozen n.name = true →
        s.frozen n.name = true ∨ n = call.1 ∧ (freeze_loops call.2 s.table call.1).2 = .ok := fun n hn hf =>
      (hflag n.name hf).imp id fun ⟨hname, hok⟩ => ⟨eq_of_name hnames hn hmem hname, hok⟩
    constructor
    · rw [htable, hmods, h.modules]
    · intro n hn hf
      rw [htable, provided_congr hmods]
      rcases hnew n hn hf with hf | ⟨rfl, hok⟩
      · exact h.provided n hn hf
      · exact (freeze_loops_ok hperm hok).1
    · intro n hn hf p hp
      rw [htable] at hp ⊢
      rw [wanted_congr hmods] at hp
      rcases hnew n hn hf with hf | ⟨rfl, hok⟩
      · exact freeze_loops_keeps call.2 s.table call.1 (h.known n hn hf p hp)
      · exact (freeze_loops_ok hperm hok).2 p hp

theorem not_exposed (t : Table) (order : List Subscription) : ¬ Exposed t order ↔
    ∀ pre o post, order = pre ++ o :: post → o.optional = true → t.find o.module_name = none →
      ∃ r ∈ pre, r.optional = false ∧ ¬ t.publishes r := by
  unfold Exposed
  push Not
  rfl

/-- **The main result.** In every state that freezing reaches from any modules that were added, a call has the property if
and only if it meets the condition. -/
theorem freezes_iff (ms : List Mod) (t : Table) (s : Freezer) (m : Mod) (order : List Subscription)
    (hadd : add_modules ms = some t) (hreach : Runs.Reach freeze_step Runs.always t.unfrozen s) (hm : m ∈ ms)
    (hperm : order.Perm m.subscribe) : Freezes s m order ↔ Harmless s m order := by
  have hadded := add_modules_added hadd
  have hinv : s.Inv ms := hreach.inv ⟨hadded.modules, fun _ _ h => (Bool.false_ne_true h).elim,
    fun _ _ h => (Bool.false_ne_true h).elim⟩ fun _ _ _ hi _ heq => inv_step hadded.names hi heq
  by_cases hfrozen : s.frozen m.name = true
  · refine ⟨fun _ => .inl hfrozen, fun _ => ?_⟩
    have heq := module_freeze_frozen order hfrozen
    refine ⟨?_, ?_, fun p d hd => ?_, fun _ => ?_⟩
    · rw [heq]
      exact Ending.noConfusion
    · rw [heq]
      exact iff_of_true rfl (hinv.provided m hm hfrozen)
    · rw [heq] at hd
      exact .inl hd
    · rw [heq]
      exact hinv.known m hm hfrozen
  · obtain ⟨htable, hend, -⟩ := module_freeze_loops order (Bool.eq_false_iff.2 hfrozen)
    have hraised := freeze_loops_raised order s.table m
    constructor
    · intro h
      have hnot := h.never_raises
      rw [hend, ne_eq, hraised] at hnot
      by_cases hparents : ∀ p ∈ m.parent_module_names, s.table.find p ≠ none
      · exact .inr (.inr ((not_exposed ..).1 fun hexp => hnot ⟨hparents, hexp⟩))
      · push Not at hparents
        exact .inr (.inl hparents)
    · intro h
      have hnot : (freeze_loops order s.table m).2 ≠ .raised := by
        rw [ne_eq, hraised]
        rintro ⟨hparents, hexp⟩
        rcases h with h | ⟨p, hp, hmissing⟩ | h
        · exact hfrozen h
        · exact hparents p hp hmissing
        · exact (not_exposed ..).2 h hexp
      refine ⟨by rwa [hend], ?_, fun p d hd => ?_, fun hok => ?_⟩
      · rw [hend]
        refine ⟨fun hok => (freeze_loops_ok hperm hok).1, fun hprov => ?_⟩
        cases hres : (freeze_loops order s.table m).2 with
        | ok => rfl
        | error message => exact absurd hprov (freeze_loops_error hperm hres)
        | raised => exact absurd hres hnot
      · rw [htable] at hd
        exact freeze_loops_only hperm hd
      · rw [hend] at hok
        rw [htable]
        exact (freeze_loops_ok hperm hok).2

end Calls

/-- every failure taken for one -/
def succeeded (r : Table × Ending) : Option Table := if r.2 = .ok then some r.1 else none

/-- freezing in the order of the subscribe string, with one kind of failure, is the first model -/
theorem module_freeze_agrees (t : Table) (m : Mod) : freeze t m = succeeded (freeze_loops m.subscribe t m) := by
  have hparents : ∀ (l : List String) (t : Table), l.foldlM (freeze_parent m) t = succeeded (freeze_parents m l t) := by
    intro l
    induction l with
    | nil => exact fun t => rfl
    | cons p l ih =>
      intro t
      rw [List.foldlM_cons]
      unfold freeze_parents freeze_parent
      cases t.find p with
      | none => rfl
      | some parent => exact ih _
  have hevents : ∀ (l : List Subscription) (t : Table), l.foldlM (freeze_event m) t = succeeded (freeze_events m l t) := by
    intro l
    induction l with
    | nil => exact fun t => rfl
    | cons s l ih =>
      intro t
      rw [List.foldlM_cons]
      unfold freeze_events freeze_event
      cases t.find s.module_name with
      | none => cases s.optional <;> rfl
      | some pub =>
        rw [Option.bind_some]
        dsimp only
        by_cases hev : s.event_name ∈ pub.publish
        · rw [if_pos hev, if_pos hev]
          exact ih _
        · rw [if_neg hev, if_neg hev]
          cases s.optional with
          | true => exact ih _
          | false => rfl
  unfold freeze freeze_loops
  rw [hparents]
  rcases freeze_parents m m.parent_module_names t with ⟨u, ending⟩
  cases ending with
  | ok => exact hevents m.subscribe u
  | error message => rfl
  | raised => rfl

theorem freezes_iff_late : ∃ t, add_modules late = some t ∧
    (Freezes t.unfrozen ⟨"reader", [], [⟨true, "source", "data"⟩], []⟩ [⟨true, "source", "data"⟩] ↔
      Harmless t.unfrozen ⟨"reader", [], [⟨true, "source", "data"⟩], []⟩ [⟨true, "source", "data"⟩]) := by
  obtain ⟨t, ht⟩ : ∃ t, add_modules late = some t := Option.isSome_iff_exists.1 (by decide +kernel)
  exact ⟨t, ht, freezes_iff late t t.unfrozen _ _ ht .init (by decide) (.refl _)⟩

/-- `core`, and a module that can do without an event of a module that is not there -/
def optional_only : List Mod := [⟨"core", [], [], []⟩, ⟨"test", [], [⟨true, "missing", "event"⟩], []⟩]

/-- nothing that is required is missing, and freezing the second module raises an error -/
theorem not_freezes : ∃ t, add_modules optional_only = some t ∧
    t.provided ⟨"test", [], [⟨true, "missing", "event"⟩], []⟩ ∧
    ( module_freeze [⟨true, "missing", "event"⟩] t.unfrozen ⟨"test", [], [⟨true, "missing", "event"⟩], []⟩).2 = .raised ∧
    ¬ Freezes t.unfrozen ⟨"test", [], [⟨true, "missing", "event"⟩], []⟩ [⟨true, "missing", "event"⟩] := by
  obtain ⟨t, ht⟩ : ∃ t, add_modules optional_only = some t := Option.isSome_iff_exists.1 (by decide +kernel)
  have hmodules := (add_modules_added ht).modules
  have hfind : t.find "missing" = none := by
    unfold Table.find
    rw [hmodules]
    decide
  have hraised : ( module_freeze [⟨true, "missing", "event"⟩] t.unfrozen
      ⟨"test", [], [⟨true, "missing", "event"⟩], []⟩).2 = .raised := by
    rw [(module_freeze_loops _ rfl).2.1, freeze_loops_raised]
    exact ⟨by simp, [], _, [], rfl, rfl, hfind, by simp⟩
  exact ⟨t, ht, ⟨by simp, by simp⟩, hraised, fun h => h.never_raises hraised⟩

end Shuttlesock.Modules
