/-
The subscribers of a Lua module: `lua_module_initialize` of `core_lua_api.c` up to the end of its loops, `Event.find`,
`event:add_listener` and `event:initialize` of `event.lua`, `shuso_event_by_name_listen_with_priority` of `event.c`, and the
subscribe list that `module:add` of `module.lua` makes.

Model: names are lists of characters. The module is the active one and is known to `Module.find`; nothing sets `finalized`.
The keys of `module_subscribers` are visited in any order. A subscriber that is added behind `module:add` has no index, which
`lua_tointeger` reads as 0; so it does with a number that is not an integer. The priority goes through int and int8_t. An
error that is raised in Lua is caught by `luaS_call`, which records it; then `lua_isnil` looks at a value below, and the call
returns true. A string that was popped stays readable: the collector is not modelled. An event exists when an added module
publishes it; it has a `module` once that module has initialized it.

The loop over the subscribers of an event puts a `~` in front of the event's name for each optional one, and keeps it.

Results:
- `registered_iff`: each subscriber of an event that exists has one listener of its own, and no event has another new one, if
  and only if `Ok`.
- `not_registered`: two optional subscribers of one event.
-/
import Mathlib.Tactic
import Shuttlesock.Core.GraphCopy

namespace Shuttlesock.Subscribers

/-! ## The model -/

abbrev Name := List Char

/-- a number of Lua: an integer, or a float with the value of one, or another float -/
inductive LuaNumber where
  | integer (i : ℤ)
  | fraction

def lua_tointeger : LuaNumber → ℤ
  | .integer i => i
  | .fraction => 0

/-- int, then int8_t -/
def int8 (i : ℤ) : ℤ := (i.bmod (2 ^ 32)).bmod (2 ^ 8)

/-- an element of a list in `module_subscribers` -/
structure Subscriber where
  priority : LuaNumber
  index : Option ℕ
  optional : Bool

/-- the subscribers of one event -/
structure Entry where
  event_name : Name
  optional : Bool
  subscribers : List Subscriber

/-- a module of Lua, its names in `module_publish_events` and its table in `module_subscribers`; the core refuses a subscribe
string with two `~` in a row -/
structure LuaModule where
  name : Name
  publish : List Name
  entries : List Entry
  keys : (entries.map Entry.event_name).Nodup
  plain : ∀ n ∈ entries, n.event_name.head? ≠ some '~'

inductive Callback where
  | lua_module_event_listener
  | other (address : ℕ)
deriving DecidableEq

structure Listener where
  module : Name
  listener : Callback
  privdata : ℕ
  priority : ℤ
deriving DecidableEq

structure Event where
  published : Bool
  initialized : Bool
  listeners : List Listener
deriving DecidableEq

/-- `events_by_name`, and the errors that were set -/
structure State where
  events : Name → Option Event
  errors : List String

def State.set_error (s : State) (message : String) : State := { s with errors := s.errors ++ [message] }

def State.put (s : State) (name : Name) (e : Event) : State := { s with events := Function.update s.events name (some e) }

/-- the name that `module:add` writes to the subscribe string -/
def Entry.declared (n : Entry) : Name :=
  let subscribers := n.subscribers.filter (·.index.isSome)
  if (0 < subscribers.length || n.optional) && subscribers.all (·.optional) then '~' :: n.event_name else n.event_name

/-- `module:subscribes_to_event` -/
def LuaModule.subscribes_to_event (m : LuaModule) (name : Name) : Bool :=
  (m.entries.map Entry.declared).contains name || (m.entries.map Entry.declared).contains ('~' :: name)

def is_word (c : Char) : Bool := c.isAlphanum || c = '_'

/-- the pattern `^([%w%_]+):([%w%_%.]+)$` -/
def is_event_name (str : Name) : Bool :=
  !(str.takeWhile is_word).isEmpty &&
    match str.dropWhile is_word with
    | ':' :: event_name => !event_name.isEmpty && event_name.all fun c => is_word c || c = '.'
    | _ => false

/-- `Event.find` with one name -/
def find (s : State) (str : Name) : Except String Event :=
  if is_event_name str then
    match s.events str with
    | some e => .ok e
    | none => .error ("event " ++ String.ofList str ++ " not found")
  else .error ("invalid event name \"" ++ String.ofList str ++ "\"")

def FIRST_PRIORITY : ℤ := 127
def LAST_PRIORITY : ℤ := -127

/-- before the first listener that has no greater priority -/
def insert_listener (l : Listener) : List Listener → List Listener
  | [] => [l]
  | v :: ls => if v.priority ≤ l.priority then l :: v :: ls else v :: insert_listener l ls

/-- what `event:add_listener` returns: the event, nil and a text, or an error that it raises -/
inductive Added where
  | listener (e : Event)
  | refused (message : String)
  | raised (message : String)

/-- `event:add_listener` -/
def add_listener (m : LuaModule) (full_name : Name) (e : Event) (l : Listener) : Added :=
  if l.priority < LAST_PRIORITY then .raised "listener priority cannot be below -127"
  else if FIRST_PRIORITY < l.priority then .raised "listener priority cannot be above 127"
  else if !e.initialized then
    .refused ("module " ++ String.ofList m.name ++ " tried to listen to nonexistent event " ++ String.ofList full_name)
  else if !m.subscribes_to_event full_name then
    .refused ("module " ++ String.ofList m.name ++ " has not declared event " ++ String.ofList full_name ++
      " in its 'subscribe' list, so it cannot be used.")
  else if l.priority = LAST_PRIORITY then .listener { e with listeners := e.listeners ++ [l] }
  else if l.priority = FIRST_PRIORITY then .listener { e with listeners := l :: e.listeners }
  else .listener { e with listeners := insert_listener l e.listeners }

/-- `event_listen_continue` -/
def event_listen_continue (m : LuaModule) (name : Name) (optional : Bool) (l : Listener) (s : State) : State × Bool :=
  match find s name with
  | .error message => if optional then (s, true) else (s.set_error message, false)
  | .ok e =>
    match add_listener m name e l with
    | .listener e => (s.put name e, true)
    | .refused message => if optional then (s, true) else (s.set_error message, false)
    | .raised message => (s.set_error ("Lua error: " ++ message), true)

def shuso_event_by_name_listen_with_priority (m : LuaModule) (name : Name) (l : Listener) (s : State) : State × Bool :=
  match name with
  | '~' :: name => event_listen_continue m name true l s
  | name => event_listen_continue m name false l s

/-- the listener that is made for a subscriber -/
def Subscriber.to_listener (m : LuaModule) (sub : Subscriber) : Listener :=
  ⟨m.name, .lua_module_event_listener, sub.index.getD 0, int8 (lua_tointeger sub.priority)⟩

/-- the loop over the subscribers of one event -/
def listen_each (m : LuaModule) : Name → List Subscriber → State → State
  | _, [], s => s
  | event_name, sub :: rest, s =>
    let event_name := if sub.optional then '~' :: event_name else event_name
    listen_each m event_name rest ( shuso_event_by_name_listen_with_priority m event_name (sub.to_listener m) s).1

/-- the loop over `module_subscribers` -/
def listen_entries (m : LuaModule) : List Entry → State → State
  | [], s => s
  | n :: rest, s => listen_entries m rest (listen_each m n.event_name n.subscribers s)

def LuaModule.full_name (m : LuaModule) (event_name : Name) : Name := m.name ++ ':' :: event_name

/-- `shuso_event_initialize` of one of the module's events -/
def initialize_event (m : LuaModule) (s : State) (event_name : Name) : State :=
  match s.events (m.full_name event_name) with
  | none => s.set_error ("unknown event " ++ String.ofList event_name ++ " in module " ++ String.ofList m.name)
  | some e =>
    if !e.published then
      s.set_error ("unknown event " ++ String.ofList event_name ++ " in module " ++ String.ofList m.name)
    else if e.initialized then
      s.set_error ("module " ++ String.ofList m.name ++ " has already registered event " ++ String.ofList event_name ++
        " with a different event struct")
    else s.put (m.full_name event_name) { e with initialized := true }

/-- `lua_module_initialize`, to the end of its loops -/
def lua_module_initialize (m : LuaModule) (s : State) : State :=
  listen_entries m m.entries (m.publish.foldl (initialize_event m) s)

/-- the subscribers of an event -/
def LuaModule.subscribers (m : LuaModule) (name : Name) : List Subscriber :=
  ((m.entries.find? (·.event_name = name)).map Entry.subscribers).getD []

/-- the listener of a subscriber: with its own priority and index -/
structure Own (m : LuaModule) (sub : Subscriber) (l : Listener) : Prop where
  module : l.module = m.name
  listener : l.listener = .lua_module_event_listener
  index : sub.index = some l.privdata
  priority : sub.priority = .integer l.priority

/-- **The property**: every event that exists has its old listeners and one for each subscriber. -/
def Registered (m : LuaModule) (s s' : State) : Prop :=
  ∀ name e, s.events name = some e → e.published = true → ∃ e' own, s'.events name = some e' ∧
    List.Forall₂ (Own m) (m.subscribers name) own ∧ e'.listeners.Perm (e.listeners ++ own)

/-- the event is initialized when the subscribers are looked at -/
def Ready (m : LuaModule) (name : Name) (e : Event) : Prop :=
  e.initialized = true ∨ ∃ event_name ∈ m.publish, name = m.full_name event_name

/-- **The condition**: an event that exists and has subscribers is initialized by now and has a proper name, no more than one of
them is optional, and each has an index and an integer priority in the range. -/
def Ok (m : LuaModule) (s : State) : Prop :=
  ∀ name e, s.events name = some e → e.published = true → m.subscribers name ≠ [] →
    Ready m name e ∧ is_event_name name = true ∧ (m.subscribers name).countP (·.optional) ≤ 1 ∧
      ∀ sub ∈ m.subscribers name, sub.index.isSome ∧
        ∃ i, sub.priority = .integer i ∧ LAST_PRIORITY ≤ i ∧ i ≤ FIRST_PRIORITY

/-! ## One listener -/

/-- the priority is one that `add_listener` takes -/
def Listener.ranked (l : Listener) : Bool := decide (LAST_PRIORITY ≤ l.priority) && decide (l.priority ≤ FIRST_PRIORITY)

/-- events of this name can be listened to -/
def State.hears (s : State) (name : Name) : Bool := is_event_name name && (s.events name).any (·.initialized)

/-- the event of that name has new listeners, and nothing else has changed -/
structure Gains (s s' : State) (name : Name) (new : List Listener) : Prop where
  others : ∀ x, x ≠ name → s'.events x = s.events x
  missing : s.events name = none → s'.events name = none
  event : ∀ e, s.events name = some e → ∃ ls, s'.events name = some { e with listeners := ls } ∧
    ls.Perm (e.listeners ++ new)

section Gains

variable {s s' s'' : State} {name : Name} {new new' : List Listener} {m : LuaModule} {l : Listener} {e : Event}

theorem Gains.refl (h : s'.events = s.events) : Gains s s' name [] :=
  ⟨fun x _ => by rw [h], fun hnone => by rw [h, hnone],
    fun e he => ⟨e.listeners, by rw [h, he], by rw [List.append_nil]⟩⟩

theorem Gains.trans (h : Gains s s' name new) (h' : Gains s' s'' name new') : Gains s s'' name (new ++ new') := by
  refine ⟨fun x hx => (h'.others x hx).trans (h.others x hx), fun hnone => h'.missing (h.missing hnone), fun e he => ?_⟩
  obtain ⟨ls, hls, hperm⟩ := h.event e he
  obtain ⟨ls', hls', hperm'⟩ := h'.event _ hls
  refine ⟨ls', hls', hperm'.trans ?_⟩
  rw [← List.append_assoc]
  exact hperm.append_right new'

/-- whether an event can be listened to does not change -/
theorem Gains.hears (h : Gains s s' name new) (x : Name) : s'.hears x = s.hears x := by
  unfold State.hears
  rcases eq_or_ne x name with rfl | hx
  · cases hev : s.events x with
    | none => rw [h.missing hev]
    | some e =>
      obtain ⟨ls, hls, -⟩ := h.event e hev
      rw [hls]
      rfl
  · rw [h.others x hx]

theorem insert_listener_perm (l : Listener) (ls : List Listener) : (insert_listener l ls).Perm (l :: ls) := by
  induction ls with
  | nil => rfl
  | cons v ls ih =>
    unfold insert_listener
    split
    · rfl
    · exact (ih.cons v).trans (.swap l v ls)

/-- a listener that is added is one more, and one that is not leaves no event -/
theorem add_listener_spec (hsub : m.subscribes_to_event name = true) :
    (e.initialized && l.ranked) = true ∧
      (∃ ls, add_listener m name e l = .listener { e with listeners := ls } ∧ ls.Perm (e.listeners ++ [l])) ∨
    (e.initialized && l.ranked) = false ∧ ∀ e', add_listener m name e l ≠ .listener e' := by
  unfold add_listener Listener.ranked
  by_cases hlow : l.priority < LAST_PRIORITY
  · rw [if_pos hlow]
    refine .inr ⟨?_, fun e' => Added.noConfusion⟩
    rw [decide_eq_false (by omega), Bool.false_and, Bool.and_false]
  by_cases hhigh : FIRST_PRIORITY < l.priority
  · rw [if_neg hlow, if_pos hhigh]
    refine .inr ⟨?_, fun e' => Added.noConfusion⟩
    rw [decide_eq_false (p := l.priority ≤ FIRST_PRIORITY) (by omega), Bool.and_false, Bool.and_false]
  cases hinit : e.initialized with
  | false =>
    rw [if_neg hlow, if_neg hhigh]
    exact .inr ⟨rfl, fun e' => Added.noConfusion⟩
  | true =>
    rw [if_neg hlow, if_neg hhigh, decide_eq_true (p := LAST_PRIORITY ≤ l.priority) (by omega),
      decide_eq_true (p := l.priority ≤ FIRST_PRIORITY) (by omega), hsub]
    refine .inl ⟨rfl, ?_⟩
    by_cases hlast : l.priority = LAST_PRIORITY
    · rw [if_pos hlast]
      exact ⟨e.listeners ++ [l], rfl, .refl _⟩
    by_cases hfirst : l.priority = FIRST_PRIORITY
    · rw [if_neg hlast, if_pos hfirst]
      exact ⟨l :: e.listeners, rfl, (List.perm_append_singleton l e.listeners).symm⟩
    · rw [if_neg hlast, if_neg hfirst]
      exact ⟨insert_listener l e.listeners, rfl,
        (insert_listener_perm l e.listeners).trans (List.perm_append_singleton l e.listeners).symm⟩

theorem listen_continue_gains (hsub : m.subscribes_to_event name = true) (optional : Bool) (l : Listener) (s : State) :
    Gains s (event_listen_continue m name optional l s).1 name (if s.hears name && l.ranked then [l] else []) := by
  have hsame : ∀ message, Gains s (if optional then (s, true) else (s.set_error message, false)).1 name [] :=
    fun message => by cases optional <;> exact .refl rfl
  unfold event_listen_continue find State.hears
  cases hname : is_event_name name with
  | false => exact hsame _
  | true =>
    cases hev : s.events name with
    | none => exact hsame _
    | some e =>
      rw [if_pos rfl, Option.any_some, Bool.true_and]
      dsimp only
      rcases add_listener_spec (e := e) (l := l) hsub with ⟨hyes, ls, hadd, hperm⟩ | ⟨hno, hadd⟩
      · rw [hyes, hadd, if_pos rfl]
        refine ⟨fun x hx => Function.update_of_ne hx _ _, fun hnone => ?_, fun e' he' => ?_⟩
        · rw [hev] at hnone
          cases hnone
        · rw [hev] at he'
          cases he'
          exact ⟨ls, Function.update_self .., hperm⟩
      · rw [hno]
        cases hres : add_listener m name e l with
        | listener e' => exact absurd hres (hadd e')
        | refused message => exact hsame message
        | raised message => exact .refl rfl

end Gains

/-! ## The subscribers of one event -/

/-- the name of an event behind the tildes that the loop has put in front of it -/
def tildes (k : ℕ) (name : Name) : Name := List.replicate k '~' ++ name

theorem not_event_name (name : Name) : is_event_name ('~' :: name) = false := rfl

/-- one tilde is taken off, and there is no event with another one -/
theorem listen_tildes {m : LuaModule} {name : Name} (hplain : name.head? ≠ some '~')
    (hsub : m.subscribes_to_event name = true) (k : ℕ) (l : Listener) (s : State) :
    Gains s ( shuso_event_by_name_listen_with_priority m (tildes k name) l s).1 name
      (if s.hears name && decide (k ≤ 1) && l.ranked then [l] else []) := by
  rcases k with - | - | k
  · have heq : shuso_event_by_name_listen_with_priority m (tildes 0 name) l s =
        event_listen_continue m name false l s := by
      unfold shuso_event_by_name_listen_with_priority tildes
      rw [List.replicate_zero, List.nil_append]
      split
      · exact absurd rfl hplain
      · rfl
    rw [heq, decide_eq_true (Nat.zero_le 1), Bool.and_true]
    exact listen_continue_gains hsub false l s
  · rw [decide_eq_true (p := 0 + 1 ≤ 1) le_rfl, Bool.and_true]
    exact listen_continue_gains hsub true l s
  · rw [decide_eq_false (p := k + 1 + 1 ≤ 1) (by omega), Bool.and_false, Bool.false_and]
    have heq : shuso_event_by_name_listen_with_priority m (tildes (k + 1 + 1) name) l s = (s, true) := by
      change event_listen_continue m ('~' :: tildes k name) true l s = (s, true)
      unfold event_listen_continue find
      rw [not_event_name]
      rfl
    rw [heq]
    exact .refl rfl

/-- those of the subscribers that get a listener, when the loop begins with k tildes -/
def heard (m : LuaModule) (hears : Bool) : ℕ → List Subscriber → List Subscriber
  | _, [] => []
  | k, sub :: rest =>
    let k := if sub.optional then k + 1 else k
    (if hears && decide (k ≤ 1) && (sub.to_listener m).ranked then [sub] else []) ++ heard m hears k rest

theorem listen_each_gains {m : LuaModule} {name : Name} (hplain : name.head? ≠ some '~')
    (hsub : m.subscribes_to_event name = true) (k : ℕ) (subs : List Subscriber) (s : State) :
    Gains s (listen_each m (tildes k name) subs s) name
      ((heard m (s.hears name) k subs).map (Subscriber.to_listener m)) := by
  induction subs generalizing k s with
  | nil => exact .refl rfl
  | cons sub rest ih =>
    unfold listen_each heard
    have hname : (if sub.optional then '~' :: tildes k name else tildes k name) =
        tildes (if sub.optional then k + 1 else k) name := by
      cases sub.optional with
      | true => rfl
      | false => rfl
    dsimp only
    rw [hname]
    have hone := listen_tildes hplain hsub (if sub.optional then k + 1 else k) (sub.to_listener m) s
    have hrest := ih (if sub.optional then k + 1 else k)
      ( shuso_event_by_name_listen_with_priority m (tildes (if sub.optional then k + 1 else k) name)
        (sub.to_listener m) s).1
    rw [hone.hears] at hrest
    rw [List.map_append]
    have hmap : ∀ b : Bool, (if b then [sub] else []).map (Subscriber.to_listener m) =
        if b then [sub.to_listener m] else [] := fun b => by cases b <;> rfl
    rw [hmap]
    exact hone.trans hrest

theorem heard_sublist (m : LuaModule) (hears : Bool) (k : ℕ) (subs : List Subscriber) :
    (heard m hears k subs).Sublist subs := by
  induction subs generalizing k with
  | nil => exact .slnil
  | cons sub rest ih =>
    unfold heard
    dsimp only
    generalize (if sub.optional then k + 1 else k) = k'
    split
    · exact (ih k').cons_cons sub
    · exact (ih k').cons sub

/-- all are heard: the event is there, no more than one of them is optional, and their priorities are in the range -/
theorem heard_all {m : LuaModule} {hears : Bool} {k : ℕ} {subs : List Subscriber} (hk : k ≤ 1) :
    heard m hears k subs = subs ↔ subs = [] ∨ hears = true ∧ k + subs.countP (·.optional) ≤ 1 ∧
      ∀ sub ∈ subs, (sub.to_listener m).ranked = true := by
  induction subs generalizing k with
  | nil => exact iff_of_true rfl (.inl rfl)
  | cons sub rest ih =>
    have hcount : (if sub.optional then k + 1 else k) + rest.countP (·.optional) =
        k + (sub :: rest).countP (·.optional) := by
      rw [List.countP_cons]
      cases sub.optional with
      | true => simp only [if_true]; omega
      | false => simp
    unfold heard
    dsimp only
    generalize (if sub.optional then k + 1 else k) = k' at hcount ⊢
    split
    · rename_i hyes
      simp only [Bool.and_eq_true, decide_eq_true_eq] at hyes
      obtain ⟨⟨hh, hle⟩, hr⟩ := hyes
      rw [List.singleton_append, List.cons_inj_right, ih hle, hcount]
      constructor
      · rintro (rfl | ⟨-, hc, hall⟩)
        · refine .inr ⟨hh, by rw [← hcount]; exact hle, fun t ht => ?_⟩
          rw [List.mem_singleton.1 ht]
          exact hr
        · refine .inr ⟨hh, hc, fun t ht => ?_⟩
          rcases List.mem_cons.1 ht with rfl | ht
          · exact hr
          · exact hall t ht
      · rintro (h | ⟨-, hc, hall⟩)
        · cases h
        · exact .inr ⟨hh, hc, fun t ht => hall t (List.mem_cons_of_mem _ ht)⟩
    · rename_i hno
      refine iff_of_false (fun heq => ?_) ?_
      · have hlen := (heard_sublist m hears k' rest).length_le
        rw [List.nil_append] at heq
        rw [heq, List.length_cons] at hlen
        omega
      · rintro (h | ⟨hh, hc, hall⟩)
        · cases h
        · apply hno
          rw [hh, hall sub List.mem_cons_self, decide_eq_true (by omega)]
          rfl

/-! ## All events -/

section Entries

variable {m : LuaModule} {s s' : State} {entries : List Entry} {name : Name}

/-- `module:add` declares every event that has an entry -/
theorem subscribes_of_mem {n : Entry} (h : n ∈ m.entries) : m.subscribes_to_event n.event_name = true := by
  have hmem : n.declared ∈ m.entries.map Entry.declared := List.mem_map_of_mem h
  unfold LuaModule.subscribes_to_event
  simp only [Bool.or_eq_true, List.contains_iff_mem]
  unfold Entry.declared at hmem ⊢
  dsimp only at hmem
  split at hmem
  · exact .inr hmem
  · exact .inl hmem

/-- the subscribers of an event in some of the entries -/
def subscribers_in (entries : List Entry) (name : Name) : List Subscriber :=
  ((entries.find? (·.event_name = name)).map Entry.subscribers).getD []

theorem subscribers_in_cons (n : Entry) (entries : List Entry) (name : Name) : subscribers_in (n :: entries) name =
    if n.event_name = name then n.subscribers else subscribers_in entries name := by
  unfold subscribers_in
  by_cases h : n.event_name = name
  · rw [List.find?_cons_of_pos (by simpa using h), if_pos h]
    rfl
  · rw [List.find?_cons_of_neg (by simpa using h), if_neg h]

theorem subscribers_in_nil (h : name ∉ entries.map Entry.event_name) : subscribers_in entries name = [] := by
  unfold subscribers_in
  rw [List.find?_eq_none.2 fun n hn => by
    rw [decide_eq_true_eq]
    rintro rfl
    exact h (List.mem_map_of_mem hn)]
  rfl

/-- each event gets the listeners of its own subscribers -/
theorem listen_entries_gains (hsub : ∀ n ∈ entries, n ∈ m.entries) (hkeys : (entries.map Entry.event_name).Nodup)
    (s : State) (name : Name) : (s.events name = none → (listen_entries m entries s).events name = none) ∧
      ∀ e, s.events name = some e → ∃ ls, (listen_entries m entries s).events name = some { e with listeners := ls } ∧
        ls.Perm (e.listeners ++ (heard m (s.hears name) 0 (subscribers_in entries name)).map (Subscriber.to_listener m)) := by
  induction entries generalizing s with
  | nil => exact ⟨id, fun e he => ⟨e.listeners, he, by rw [show subscribers_in [] name = [] from rfl]; simp [heard]⟩⟩
  | cons n rest ih =>
    rw [List.map_cons, List.nodup_cons] at hkeys
    have hn := hsub n List.mem_cons_self
    have hone : Gains s (listen_each m n.event_name n.subscribers s) n.event_name _ :=
      listen_each_gains (m.plain n hn) (subscribes_of_mem hn) 0 n.subscribers s
    obtain ⟨hmissing, hall⟩ := ih (fun n' hn' => hsub n' (List.mem_cons_of_mem _ hn')) hkeys.2
      (listen_each m n.event_name n.subscribers s)
    unfold listen_entries
    rw [subscribers_in_cons, ← hone.hears]
    rcases eq_or_ne n.event_name name with rfl | hne
    · rw [if_pos rfl]
      refine ⟨fun hnone => hmissing (hone.missing hnone), fun e he => ?_⟩
      obtain ⟨ls, hls, hperm⟩ := hone.event e he
      obtain ⟨ls', hls', hperm'⟩ := hall _ hls
      rw [subscribers_in_nil hkeys.1] at hperm'
      refine ⟨ls', hls', hperm'.trans ?_⟩
      rw [hone.hears]
      simpa [heard] using hperm
    · rw [if_neg hne]
      have heq := hone.others name hne.symm
      exact ⟨fun hnone => hmissing (heq.trans hnone), fun e he => hall e (heq.trans he)⟩

theorem initialize_event_events (m : LuaModule) (s : State) (event_name name : Name) :
    ( initialize_event m s event_name).events name = (s.events name).map fun e =>
      { e with initialized := e.initialized || (e.published && decide (name = m.full_name event_name)) } := by
  rcases eq_or_ne name (m.full_name event_name) with rfl | hne
  · unfold initialize_event
    cases hev : s.events (m.full_name event_name) with
    | none => exact hev
    | some e =>
      obtain ⟨published, initialized, listeners⟩ := e
      cases published <;> cases initialized <;> simp [State.put, State.set_error, hev]
  · have hsame : ( initialize_event m s event_name).events name = s.events name := by
      unfold initialize_event
      split
      · rfl
      · split_ifs
        · rfl
        · rfl
        · exact Function.update_of_ne hne _ _
    rw [hsame]
    simp [hne]

/-- which events are initialized when the module has initialized its own -/
theorem initialize_events (m : LuaModule) (names : List Name) (s : State) (name : Name) :
    (names.foldl ( initialize_event m) s).events name = (s.events name).map fun e =>
      { e with initialized := e.initialized || (e.published && names.any fun n => name = m.full_name n) } := by
  induction names generalizing s with
  | nil => simp
  | cons n names ih =>
    rw [List.foldl_cons, ih, initialize_event_events, Option.map_map]
    congr 1
    funext e
    simp only [Function.comp_apply, List.any_cons]
    cases e.initialized <;> cases e.published <;> simp

end Entries

/-! ## The main result -/

section Main

variable {m : LuaModule} {s : State} {subs : List Subscriber}

theorem int8_eq {i : ℤ} (hlow : LAST_PRIORITY ≤ i) (hhigh : i ≤ FIRST_PRIORITY) : int8 i = i := by
  unfold LAST_PRIORITY at hlow
  unfold FIRST_PRIORITY at hhigh
  unfold int8
  rw [Int.bmod_eq_of_le (n := i) (m := 2 ^ 32) (by omega) (by omega), Int.bmod_eq_of_le (by omega) (by omega)]

/-- one listener for each subscriber: they are the heard ones, and each has what its listener has -/
theorem own_iff {hears : Bool} : (∃ own, List.Forall₂ (Own m) subs own ∧
      ((heard m hears 0 subs).map (Subscriber.to_listener m)).Perm own) ↔
    subs = [] ∨ hears = true ∧ subs.countP (·.optional) ≤ 1 ∧ ∀ sub ∈ subs, sub.index.isSome ∧
      ∃ i, sub.priority = .integer i ∧ LAST_PRIORITY ≤ i ∧ i ≤ FIRST_PRIORITY := by
  constructor
  · rintro ⟨own, hown, hperm⟩
    have hall : heard m hears 0 subs = subs := by
      apply (heard_sublist m hears 0 subs).eq_of_length
      rw [← List.length_map (f := Subscriber.to_listener m), hperm.length_eq, hown.length_eq]
    rcases (heard_all (Nat.zero_le 1)).1 hall with hnil | ⟨hh, hc, hranked⟩
    · exact .inl hnil
    · refine .inr ⟨hh, by rwa [Nat.zero_add] at hc, fun sub hsub => ?_⟩
      obtain ⟨l, hl, hsubl⟩ := GraphCopy.forall₂_exists_left hown hsub
      rw [hall] at hperm
      obtain ⟨sub', hsub', rfl⟩ := List.mem_map.1 (hperm.mem_iff.2 hl)
      have hr := hranked sub' hsub'
      unfold Listener.ranked at hr
      simp only [Bool.and_eq_true, decide_eq_true_eq] at hr
      exact ⟨by rw [hsubl.index]; rfl, _, hsubl.priority, hr⟩
  · rintro (rfl | ⟨rfl, hc, hall⟩)
    · exact ⟨[], .nil, .refl _⟩
    · have hpriority : ∀ sub ∈ subs, sub.priority = .integer (sub.to_listener m).priority ∧
          (sub.to_listener m).ranked = true := by
        intro sub hsub
        obtain ⟨-, i, hi, hlow, hhigh⟩ := hall sub hsub
        have heq : (sub.to_listener m).priority = i := by
          unfold Subscriber.to_listener
          dsimp only
          rw [hi]
          exact int8_eq hlow hhigh
        unfold Listener.ranked
        rw [heq, decide_eq_true hlow, decide_eq_true hhigh]
        exact ⟨hi, rfl⟩
      have heard_eq : heard m true 0 subs = subs :=
        (heard_all (Nat.zero_le 1)).2 (.inr ⟨rfl, by rwa [Nat.zero_add], fun sub hsub => (hpriority sub hsub).2⟩)
      refine ⟨subs.map (Subscriber.to_listener m), ?_, by rw [heard_eq]⟩
      rw [List.forall₂_map_right_iff, List.forall₂_same]
      intro sub hsub
      obtain ⟨n, hn⟩ := Option.isSome_iff_exists.1 (hall sub hsub).1
      refine ⟨rfl, rfl, ?_, (hpriority sub hsub).1⟩
      unfold Subscriber.to_listener
      rw [hn]
      rfl

/-- the events that the loop hears: they are ready, and their names are proper -/
theorem hears_iff {name : Name} {e : Event} (he : s.events name = some e) (hpub : e.published = true) :
    (m.publish.foldl ( initialize_event m) s).hears name = true ↔ Ready m name e ∧ is_event_name name = true := by
  unfold State.hears Ready
  rw [initialize_events, he, Option.map_some, Option.any_some, hpub]
  simp only [Bool.true_and, Bool.and_eq_true, Bool.or_eq_true, List.any_eq_true, decide_eq_true_eq]
  exact and_comm

/-- **The main result.** After the initialization of a module every event that exists has its old listeners and one for each of
the module's subscribers, with the priority and the index of that subscriber, if and only if the condition is met. -/
theorem registered_iff (m : LuaModule) (s : State) : Registered m s ( lua_module_initialize m s) ↔ Ok m s := by
  have hafter : ∀ name e, s.events name = some e → ∃ ls init,
      ( lua_module_initialize m s).events name = some ⟨e.published, init, ls⟩ ∧
      ls.Perm (e.listeners ++ (heard m ((m.publish.foldl ( initialize_event m) s).hears name) 0
        (m.subscribers name)).map (Subscriber.to_listener m)) := by
    intro name e he
    have hinit := initialize_events m m.publish s name
    rw [he, Option.map_some] at hinit
    obtain ⟨ls, hls, hperm⟩ := (listen_entries_gains (fun _ hn => hn) m.keys
      (m.publish.foldl ( initialize_event m) s) name).2 _ hinit
    exact ⟨ls, _, hls, hperm⟩
  constructor
  · intro h name e he hpub hne
    obtain ⟨e', own, he', hown, hperm'⟩ := h name e he hpub
    obtain ⟨ls, init, hls, hperm⟩ := hafter name e he
    rw [hls] at he'
    cases he'
    have hsame := (List.perm_append_left_iff _).1 (hperm.symm.trans hperm')
    rcases own_iff.1 ⟨own, hown, hsame⟩ with hnil | ⟨hh, hc, hall⟩
    · exact absurd hnil hne
    · obtain ⟨hready, hname⟩ := (hears_iff he hpub).1 hh
      exact ⟨hready, hname, hc, hall⟩
  · intro h name e he hpub
    obtain ⟨ls, init, hls, hperm⟩ := hafter name e he
    have hown : ∃ own, List.Forall₂ (Own m) (m.subscribers name) own ∧
        ((heard m ((m.publish.foldl ( initialize_event m) s).hears name) 0 (m.subscribers name)).map
          (Subscriber.to_listener m)).Perm own := by
      rw [own_iff]
      rcases eq_or_ne (m.subscribers name) [] with hnil | hne
      · exact .inl hnil
      · obtain ⟨hready, hname, hc, hall⟩ := h name e he hpub hne
        exact .inr ⟨(hears_iff he hpub).2 ⟨hready, hname⟩, hc, hall⟩
    obtain ⟨own, hown, hsame⟩ := hown
    exact ⟨_, own, hls, hown, hperm.trans (hsame.append_left _)⟩

end Main

/-- a module with two subscribers of one event, both optional -/
def two_optional : LuaModule where
  name := "test".toList
  publish := []
  entries := [⟨"core:ready".toList, false, [⟨.integer 0, some 1, true⟩, ⟨.integer 0, some 2, true⟩]⟩]
  keys := List.nodup_singleton _
  plain := by decide

/-- the event is there and has been initialized -/
def core_ready : State := ⟨fun name => if name = "core:ready".toList then some ⟨true, true, []⟩ else none, []⟩

/-- the second subscriber is looked for under a name with two tildes, and no error is set -/
theorem not_registered : ( lua_module_initialize two_optional core_ready).events "core:ready".toList =
      some ⟨true, true, [⟨"test".toList, .lua_module_event_listener, 1, 0⟩]⟩ ∧
    ( lua_module_initialize two_optional core_ready).errors = [] ∧
    ¬ Registered two_optional core_ready ( lua_module_initialize two_optional core_ready) := by
  have hrun : ( lua_module_initialize two_optional core_ready).events "core:ready".toList =
      some ⟨true, true, [⟨"test".toList, .lua_module_event_listener, 1, 0⟩]⟩ := by decide +kernel
  refine ⟨hrun, by decide +kernel, fun h => ?_⟩
  obtain ⟨e', own, he', hown, hperm⟩ := h "core:ready".toList ⟨true, true, []⟩ rfl rfl
  rw [hrun] at he'
  cases he'
  have htwo : own.length = 2 := hown.length_eq.symm
  have hone := hperm.length_eq
  rw [List.nil_append, htwo] at hone
  cases hone

end Shuttlesock.Subscribers
