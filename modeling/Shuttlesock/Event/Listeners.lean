/-
The listeners of an event: `event:add_listener` and the new event of `Event.get` (`event.lua`).

Model: names are lists of characters and pointers are numbers. Modules change while they are initialized, so a call has with it what
`Module.find` returns then, and the module that has initialized the event. A priority is a number that is not NaN or infinite, and so it
is a rational; Lua compares integers and floats by value.

`place` is where the new listener goes: to the end, to the front, or in front of the first one with no greater priority.

Results:
- `insert_eq`: the loop is `List.orderedInsert`.
- `add_listener_ordered`: a call keeps the order.
- `listeners_ordered`: all listeners that were added are there, in order.
-/
import Mathlib.Tactic
import Mathlib.Data.List.Sort

namespace Shuttlesock.Listeners

/-! ## The model -/

abbrev Name := List Char

/-- a module, as far as its events ask -/
structure Module where
  name : Name
  finalized : Bool
  subscribes_to_event : Name → Bool

structure Listener where
  module : Name
  listener : ℕ
  privdata : ℕ
  priority : ℚ
  optional : Bool
deriving DecidableEq

structure Event where
  module_name : Name
  name : Name
  listeners : List Listener
  /-- nil at first -/
  optional : Option Bool

/-- the event that `Event.get` makes -/
def new_event (module_name name : Name) : Event := ⟨module_name, name, [], none⟩

def Event.full_name (e : Event) : Name := e.module_name ++ ':' :: e.name

/-- the arguments of a call, and the modules at that time -/
structure Call where
  find : ℕ → Option Module
  /-- `self.module` -/
  module : Option Module
  dst_module_ptr : ℕ
  listener_ptr : ℕ
  privdata_ptr : ℕ
  priority : ℚ
  optional : Bool

def FIRST_PRIORITY : ℚ := 127
def LAST_PRIORITY : ℚ := -127

/-- the loop over the listeners, and the end of the list when it finds none -/
def insert (l : Listener) (listeners : List Listener) : List Listener :=
  match listeners.findIdx? fun v => v.priority ≤ l.priority with
  | some i => listeners.insertIdx i l
  | none => listeners.insertIdx listeners.length l

/-- the list with a new listener -/
def place (l : Listener) (listeners : List Listener) : List Listener :=
  if l.priority = LAST_PRIORITY then listeners ++ [l]
  else if l.priority = FIRST_PRIORITY then l :: listeners
  else insert l listeners

/-- an event is optional when all its listeners are -/
def still_optional (self : Option Bool) (optional : Bool) : Option Bool :=
  if self = none ∧ optional = true then some true
  else if self = some true ∧ optional = false then some false
  else self

/-- what a call returns: the listener, nil and a text, or an error that it raises -/
inductive Added where
  | listener (l : Listener)
  | refused (message : String)
  | raised (message : String)

def finalized_message (subscriber : Module) (full_name : Name) (finalized : Module) : String :=
  "module " ++ String.ofList subscriber.name ++ " can't add event listener for event '" ++ String.ofList full_name ++ "': module " ++
    String.ofList finalized.name ++ " has already been finalized"

def add_listener (e : Event) (c : Call) : Added × Event :=
  if c.priority < LAST_PRIORITY then (.raised "listener priority cannot be below -127", e)
  else if FIRST_PRIORITY < c.priority then (.raised "listener priority cannot be above 127", e)
  else
    match c.find c.dst_module_ptr with
    | none => (.refused "unknown receiver module", e)
    | some subscriber =>
      match c.module with
      | none =>
        (.refused ("module " ++ String.ofList subscriber.name ++ " tried to listen to nonexistent event " ++ String.ofList e.full_name), e)
      | some module =>
        if module.finalized then (.refused (finalized_message subscriber e.full_name module), e)
        else if subscriber.finalized then (.refused (finalized_message subscriber e.full_name subscriber), e)
        else if !subscriber.subscribes_to_event e.full_name then
          (.refused ("module " ++ String.ofList subscriber.name ++ " has not declared event " ++ String.ofList e.full_name ++
            " in its 'subscribe' list, so it cannot be used."), e)
        else
          let l : Listener := ⟨subscriber.name, c.listener_ptr, c.privdata_ptr, c.priority, c.optional⟩
          (.listener l, { e with listeners := place l e.listeners, optional := still_optional e.optional c.optional })

/-- what the calls of a sequence return, and the last state of the event -/
def run (e : Event) : List Call → List Added × Event
  | [] => ([], e)
  | c :: calls => ((add_listener e c).1 :: (run (add_listener e c).2 calls).1, (run (add_listener e c).2 calls).2)

def Added.listener? : Added → Option Listener
  | .listener l => some l
  | .refused _ => none
  | .raised _ => none

/-- the listeners that were added, in that order -/
def added (results : List Added) : List Listener := results.filterMap Added.listener?

/-- no listener is behind one of a smaller priority -/
def Sorted (listeners : List Listener) : Prop := listeners.Pairwise fun a b => b.priority ≤ a.priority

/-- **The property** of the list, with the listeners that were added. -/
structure Ordered (added listeners : List Listener) : Prop where
  /-- each of them exactly once -/
  perm : listeners.Perm added
  sorted : Sorted listeners
  /-- the last ones are at the end, in the order in which they were added -/
  last : ∃ front, listeners = front ++ added.filter (·.priority = LAST_PRIORITY) ∧ ∀ v ∈ front, v.priority ≠ LAST_PRIORITY

/-! ## The place of a listener -/

/-- the first comes before the second, or may -/
def Before (a b : Listener) : Prop := b.priority ≤ a.priority

instance : DecidableRel Before := fun a b => inferInstanceAs (Decidable (b.priority ≤ a.priority))

instance : Std.Total Before := ⟨fun a b => le_total b.priority a.priority⟩

instance : IsTrans Listener Before := ⟨fun _ _ _ hab hbc => le_trans hbc hab⟩

section Place

variable {l : Listener} {listeners added : List Listener}

/-- the loop inserts into an ordered list -/
theorem insert_eq (l : Listener) (listeners : List Listener) : insert l listeners = listeners.orderedInsert Before l := by
  induction listeners with
  | nil => rfl
  | cons v listeners ih =>
    rw [insert, List.findIdx?_cons]
    by_cases hv : v.priority ≤ l.priority
    · have hbefore : Before l v := hv
      rw [decide_eq_true hv, List.orderedInsert_cons_of_le Before _ hbefore]
      rfl
    · have hbefore : ¬Before l v := hv
      rw [decide_eq_false hv, List.orderedInsert_of_not_le Before _ hbefore, ← ih, insert]
      cases listeners.findIdx? fun v => v.priority ≤ l.priority <;> rfl

/-- in front of listeners that need not come first -/
theorem orderedInsert_append (front : List Listener) {back : List Listener} (h : ∀ v ∈ back, Before l v) :
    (front ++ back).orderedInsert Before l = front.orderedInsert Before l ++ back := by
  induction front with
  | nil =>
    cases back with
    | nil => rfl
    | cons v back => exact List.orderedInsert_cons_of_le _ _ (h v List.mem_cons_self)
  | cons v front ih =>
    rw [List.cons_append, List.orderedInsert_cons, List.orderedInsert_cons, ih]
    split_ifs <;> rfl

theorem place_perm (l : Listener) (listeners : List Listener) : (place l listeners).Perm (l :: listeners) := by
  unfold place
  split_ifs
  · exact List.perm_append_singleton l listeners
  · exact List.Perm.refl _
  · rw [insert_eq]
    exact List.perm_orderedInsert Before l listeners

/-- every priority is in the range -/
def Ranged (listeners : List Listener) : Prop := ∀ v ∈ listeners, LAST_PRIORITY ≤ v.priority ∧ v.priority ≤ FIRST_PRIORITY

theorem place_ranged (hl : LAST_PRIORITY ≤ l.priority ∧ l.priority ≤ FIRST_PRIORITY) (h : Ranged listeners) :
    Ranged (place l listeners) := by
  intro v hv
  rcases List.mem_cons.1 ((place_perm l listeners).mem_iff.1 hv) with rfl | hv
  · exact hl
  · exact h v hv

theorem place_sorted (h : Sorted listeners) (hranged : Ranged listeners) : Sorted (place l listeners) := by
  unfold place
  split_ifs with hlast hfirst
  · refine List.pairwise_append.2 ⟨h, List.pairwise_singleton _ l, fun v hv w hw => ?_⟩
    rw [List.mem_singleton.1 hw, hlast]
    exact (hranged v hv).1
  · refine List.pairwise_cons.2 ⟨fun v hv => ?_, h⟩
    rw [hfirst]
    exact (hranged v hv).2
  · rw [insert_eq]
    exact List.Pairwise.orderedInsert (r := Before) l listeners h

/-- the last ones stay at the end -/
theorem place_last (hl : LAST_PRIORITY ≤ l.priority) (h : Ordered added listeners) :
    ∃ front, place l listeners = front ++ (added ++ [l]).filter (·.priority = LAST_PRIORITY) ∧
      ∀ v ∈ front, v.priority ≠ LAST_PRIORITY := by
  obtain ⟨front, hfront, hne⟩ := h.last
  rw [List.filter_append, hfront]
  unfold place
  split_ifs with hlast hfirst
  · refine ⟨front, ?_, hne⟩
    rw [List.append_assoc, List.filter_singleton, decide_eq_true hlast]
    rfl
  · refine ⟨l :: front, ?_, List.forall_mem_cons.2 ⟨hlast, hne⟩⟩
    rw [List.filter_singleton, decide_eq_false hlast, Bool.cond_false, List.append_nil, List.cons_append]
  · refine ⟨front.orderedInsert Before l, ?_, fun v hv => ?_⟩
    · rw [insert_eq, orderedInsert_append, List.filter_singleton, decide_eq_false hlast, Bool.cond_false, List.append_nil]
      intro v hv
      rw [Before, of_decide_eq_true (List.mem_filter.1 hv).2]
      exact hl
    · rcases (List.mem_orderedInsert Before).1 hv with rfl | hv
      · exact hlast
      · exact hne v hv

theorem place_ordered (hl : LAST_PRIORITY ≤ l.priority) (hranged : Ranged listeners) (h : Ordered added listeners) :
    Ordered (added ++ [l]) (place l listeners) where
  perm := (place_perm l listeners).trans ((h.perm.cons l).trans (List.perm_append_singleton l added).symm)
  sorted := place_sorted h.sorted hranged
  last := place_last hl h

end Place

/-! ## Every sequence of calls -/

/-- what a call does: it adds a listener in the range, or it leaves the event alone -/
theorem add_listener_cases (e : Event) (c : Call) :
    (∃ l, (add_listener e c).1 = .listener l ∧ (LAST_PRIORITY ≤ l.priority ∧ l.priority ≤ FIRST_PRIORITY) ∧
        (add_listener e c).2.listeners = place l e.listeners) ∨
      (add_listener e c).1.listener? = none ∧ (add_listener e c).2 = e := by
  unfold add_listener
  by_cases hlow : c.priority < LAST_PRIORITY
  · rw [if_pos hlow]
    exact .inr ⟨rfl, rfl⟩
  by_cases hhigh : FIRST_PRIORITY < c.priority
  · rw [if_neg hlow, if_pos hhigh]
    exact .inr ⟨rfl, rfl⟩
  rw [if_neg hlow, if_neg hhigh]
  cases c.find c.dst_module_ptr with
  | none => exact .inr ⟨rfl, rfl⟩
  | some subscriber =>
    cases c.module with
    | none => exact .inr ⟨rfl, rfl⟩
    | some module =>
      dsimp only
      split_ifs
      · exact .inr ⟨rfl, rfl⟩
      · exact .inr ⟨rfl, rfl⟩
      · exact .inr ⟨rfl, rfl⟩
      · exact .inl ⟨_, rfl, ⟨not_lt.1 hlow, not_lt.1 hhigh⟩, rfl⟩

theorem add_listener_ordered {e : Event} {before : List Listener} (hranged : Ranged e.listeners) (h : Ordered before e.listeners)
    (c : Call) : Ranged (add_listener e c).2.listeners ∧
      Ordered (before ++ (add_listener e c).1.listener?.toList) (add_listener e c).2.listeners := by
  rcases add_listener_cases e c with ⟨l, hadded, hl, hlisteners⟩ | ⟨hadded, hevent⟩
  · rw [hadded, hlisteners]
    exact ⟨place_ranged hl hranged, place_ordered hl.1 hranged h⟩
  · rw [hadded, hevent, Option.toList_none, List.append_nil]
    exact ⟨hranged, h⟩

theorem run_ordered {calls : List Call} {e : Event} {before : List Listener} (hranged : Ranged e.listeners)
    (h : Ordered before e.listeners) : Ordered (before ++ added (run e calls).1) (run e calls).2.listeners := by
  induction calls generalizing e before with
  | nil =>
    rw [run, added, List.filterMap_nil, List.append_nil]
    exact h
  | cons c calls ih =>
    obtain ⟨hranged', h'⟩ := add_listener_ordered hranged h c
    have hadded : added (run e (c :: calls)).1 = (add_listener e c).1.listener?.toList ++ added (run (add_listener e c).2 calls).1 := by
      rw [run, added, List.filterMap_cons]
      cases (add_listener e c).1.listener? <;> rfl
    rw [hadded, ← List.append_assoc]
    exact ih hranged' h'

end Shuttlesock.Listeners
