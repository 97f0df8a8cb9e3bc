/-
What the event machinery leaves on the Lua stack: the listen functions, `fire_event`, `shuso_event_delay`, `clear_delayed_state`,
`delayed_event_handler` and `shuso_event_resume_delayed` of `event.c`, with `luaS_pcall` and `luaS_push_lua_module_field` of
`lua_utils.c`, `shuso_set_error` of `shuttlesock.c` and `core_manager_try_stop` of `core.c`.

Model: the stack of `S->lua.state` is in the state, and each function does with it what its calls of Lua's C API do. Lua has
`Event.find` and `event:add_listener` as its functions. A listener is any function of the state that leaves the height as it found it. An
address of a C event is a number, and so is the address of the record of a delay; a record keeps its content after its reference was
given back. This is the build without `SHUTTLESOCK_DEBUG_EVENTS`.
- `step`: the calls. `step` is none for a timer that does not run, and where a resume goes on with an id that is no delay.

Results:
- `listen_continue_height`, `delay_height`, `fire_event_height`: these calls leave the height as they found it.
- `clear_found`: `clear_delayed_state` leaves the event on the stack when it finds it.
- `step_height`: a timer that fires and a resume that find their event leave one value more, and nothing else does.
- `run_height`: so the stack grows by one value each time an event is run again.
- `neutral_iff`: the calls of a run keep the height if and only if no event is run again.
- `not_neutral`: the manager delays its stop once.
-/
import Mathlib.Tactic
import Shuttlesock.Core.LuaStack
import Shuttlesock.Core.Refs
import Shuttlesock.Core.Runs
import Shuttlesock.Event.Listeners
import Shuttlesock.Event.Subscribe

namespace Shuttlesock.EventStack

open LuaStack Refs Runs

abbrev Name := List Char

/-! ## The state -/

inductive Function where
  | require
  | find
  | add_listener
  /-- `luaS_traceback_error_handler` -/
  | traceback
deriving DecidableEq

inductive Value where
  | nil
  | string (s : Name)
  | number (q : ℚ)
  | lightuserdata (p : ℕ)
  | userdata (record : ℕ)
  /-- an event of `event.lua` -/
  | event (e : ℕ)
  | function (f : Function)
  | table (name : Name)
deriving DecidableEq

/-- `shuso_event_delay_t` -/
structure Delay where
  reason : String
  event : ℕ
  code : ℤ
  data : ℕ
  next_listener_index : ℕ
  ref : ℕ
deriving DecidableEq

/-- what the registry has under a reference -/
inductive Entry where
  | delay (record : ℕ)
  | other
deriving DecidableEq

structure St where
  stack : List Value
  registry : Table Entry
  /-- the userdata of the delays; the address is the index -/
  records : List Delay
  /-- the records whose timer runs -/
  timers : List ℕ
  events_by_name : Name → Option ℕ
  events_by_ptr : ℕ → Option ℕ
  event : ℕ → Listeners.Event
  find_module : ℕ → Option Listeners.Module
  /-- the module that has initialized an event -/
  publisher : ℕ → Option Listeners.Module
  active_module : ℕ
  errors : List String
  /-- the run state is beyond `SHUSO_STATE_CONFIGURING` -/
  configured : Bool
  do_not_publish_event : Bool
  /-- SIGABRT was raised -/
  aborted : Bool

def St.height (s : St) : ℕ := s.stack.length

/-! ## The C API -/

def St.push (s : St) (v : Value) : St := { s with stack := s.stack ++ [v] }

def St.pop (s : St) (n : ℕ) : St := { s with stack := LuaStack.pop n s.stack }

def St.settop (s : St) (n : ℕ) : St := { s with stack := LuaStack.settop .nil n s.stack }

def St.insert (s : St) (i : ℕ) : St := { s with stack := LuaStack.insert i s.stack }

def St.remove (s : St) (i : ℕ) : St := { s with stack := LuaStack.remove i s.stack }

/-- the value at the index -k; below the bottom is the C function that runs -/
def St.value (s : St) (k : ℕ) : Value := (fromTop k s.stack).getD (.function .traceback)

def St.isnil (s : St) (k : ℕ) : Bool := s.value k = .nil

/-- `lua_tostring` under `%s` -/
def St.tostring (s : St) (k : ℕ) : String :=
  match s.value k with
  | .string text => String.ofList text
  | _ => "(null)"

def event_module : Name := "shuttlesock.core.event".toList

/-- `lua_getfield` -/
def getfield (v : Value) (key : String) : Value :=
  match v with
  | .table name => if name = event_module ∧ key = "find" then .function .find else .nil
  | .event _ => if key = "add_listener" then .function .add_listener else .nil
  | _ => .nil

/-- `Event.find` -/
def find (s : St) : List Value → Except String (List Value)
  | [.lightuserdata p] =>
    match s.events_by_ptr p with
    | some e => .ok [.event e]
    | none => .ok [.nil, .string "event not found".toList]
  | [.string str] =>
    if Subscribers.is_event_name str then
      match s.events_by_name str with
      | some e => .ok [.event e]
      | none => .ok [.nil, .string ("event ".toList ++ str ++ " not found".toList)]
    else .ok [.nil, .string ("invalid event name \"".toList ++ str ++ "\"".toList)]
  | _ => .error "assertion failed!"

/-- `event:add_listener`; `optional` is not passed -/
def add_listener (s : St) : List Value → Except String (List Value) × St
  | [.event e, .lightuserdata module, .lightuserdata listener, .lightuserdata privdata, .number priority] =>
    match Listeners.add_listener (s.event e) ⟨s.find_module, s.publisher e, module, listener, privdata, priority, false⟩ with
    | (.listener _, event) => (.ok [.table "listener".toList], { s with event := Function.update s.event e event })
    | (.refused message, _) => (.ok [.nil, .string message.toList], s)
    | (.raised message, _) => (.error message, s)
  | _ => (.error "assertion failed!", s)

/-- a function of Lua runs; it has a stack of its own -/
def apply (s : St) (f : Option Value) (args : List Value) : Except String (List Value) × St :=
  match f with
  | some (.function .require) =>
    match args with
    | [.string name] => (.ok [.table name], s)
    | _ => (.error "bad argument #1 to 'require'", s)
  | some (.function .find) => (find s args, s)
  | some (.function .add_listener) => add_listener s args
  | some (.function .traceback) => (.ok args, s)
  | _ => (.error "attempt to call a value that is not a function", s)

/-- the results of a call, as many as were asked for -/
def adjust (nresults : ℕ) (results : List Value) : List Value := LuaStack.settop .nil nresults results

/-- `lua_call`; nothing catches an error -/
def lua_call (s : St) (nargs nresults : ℕ) : St :=
  match apply s (callee nargs s.stack) (arguments nargs s.stack) with
  | (.ok results, t) => { t with stack := below nargs s.stack ++ adjust nresults results }
  | (.error _, t) => { t with aborted := true }

def luaS_push_lua_module_field (s : St) (module_name : Name) (key_name : String) : St :=
  let s := (s.push (.function .require)).push (.string module_name)
  let s := lua_call s 1 1
  let s := s.push (getfield (s.value 1) key_name)
  s.remove (s.height - 1)

/-! ## Listeners -/

/-- `shuso_event_interrupt_t` -/
inductive Interrupt where
  | no
  | pause
  | cancel
  | delay
deriving DecidableEq

/-- `shuso_complete_event_state_t` -/
structure Cev where
  event : ℕ
  cur : ℕ
  code : ℤ
  data : ℕ
  interrupt : Interrupt
  interrupt_reason : Option String

/-- a listener of a C event -/
structure Listener where
  module : ℕ
  fn : Cev → St → Cev × St
  neutral : ∀ cev s, (fn cev s).2.height = s.height

/-- the loop over the listeners; only an event with an interrupt handler stops it -/
def fire_listeners (interruptible : Bool) : List Listener → Cev → St → Cev × St
  | [], cev, s => (cev, s)
  | l :: ls, cev, s =>
    if interruptible = true ∧ cev.interrupt ≠ .no then (cev, s)
    else
      let r := l.fn cev { s with active_module := l.module }
      fire_listeners interruptible ls { r.1 with cur := r.1.cur + 1 } r.2

/-- the listeners from an index on, for these listeners of an event -/
def fire_event (interruptible : Bool) (listeners : List Listener) (s : St) (event listener_start_index : ℕ) (code : ℤ) (data : ℕ) :
    Bool × St :=
  let r := fire_listeners interruptible (listeners.drop listener_start_index) ⟨event, listener_start_index, code, data, .no, none⟩ s
  (r.1.interrupt = .no, { r.2 with active_module := s.active_module })

/-- an interrupt handler: what it returns, and the delay that it grants -/
abbrev InterruptHandler := Interrupt → Option ℚ → Bool × Option ℚ

/-- the C events without their listeners, and the event for errors with them -/
structure Base where
  /-- with the name of its publisher -/
  event_name : ℕ → String
  module_name : ℕ → String
  interrupt_handler : ℕ → Option InterruptHandler
  error : ℕ
  error_listeners : List Listener

namespace Base

variable (b : Base)

def set_error (s : St) (message : String) : St :=
  let s := { s with errors := s.errors ++ [message] }
  if !s.do_not_publish_event && s.configured then
    let s := { s with do_not_publish_event := true }
    let s := (fire_event (b.interrupt_handler b.error).isSome b.error_listeners s b.error 0 0 0).2
    { s with do_not_publish_event := false }
  else s

def luaS_pcall (s : St) (nargs nresults : ℕ) : Bool × St :=
  let s := { s with stack := .function .traceback :: s.stack }
  match apply s (callee nargs s.stack) (arguments nargs s.stack) with
  | (.ok results, t) =>
    let t := { t with stack := below nargs s.stack ++ adjust nresults results }
    (true, t.remove 1)
  | (.error message, t) =>
    let t := { t with stack := below nargs s.stack ++ [.string message.toList] }
    let t := b.set_error t ("Lua error: " ++ message)
    (false, (t.pop 1).remove 1)

def luaS_call (s : St) (nargs nresults : ℕ) : St := (b.luaS_pcall s nargs nresults).2

/-! ## Listening -/

def event_listen_continue (s : St) (nargs : ℕ) (optional : Bool) (callback pd : ℕ) (priority : Int8) : Bool × St :=
  let module := s.active_module
  let top := s.height - nargs
  let s := luaS_push_lua_module_field s event_module "find"
  let s := s.insert (top + 1)
  let s := b.luaS_call s nargs 2
  if s.isnil 2 then
    if optional then (true, s.settop top)
    else (false, (b.set_error s (if s.isnil 1 then "failed to find module" else s.tostring 1)).settop top)
  else
    let s := s.pop 1
    let s := s.push (getfield (s.value 1) "add_listener")
    let s := s.push (s.value 2)
    let s := ((s.push (.lightuserdata module)).push (.lightuserdata callback)).push (.lightuserdata pd)
    let s := s.push (.number priority.toInt)
    let s := b.luaS_call s 5 2
    if s.isnil 2 then
      if optional then (true, s.settop top)
      else (false, (b.set_error s (if s.isnil 1 then "failed to add listener" else s.tostring 1)).settop top)
    else (true, s.settop top)

def shuso_event_by_name_listen_with_priority (s : St) (name : Name) (callback pd : ℕ) (priority : Int8) : Bool × St :=
  let optional := name.head? = some '~'
  let name := if optional then name.tail else name
  b.event_listen_continue (s.push (.string name)) 1 optional callback pd priority

def shuso_event_by_pointer_listen_with_priority (s : St) (event callback pd : ℕ) (priority : Int8) : Bool × St :=
  b.event_listen_continue (s.push (.lightuserdata event)) 1 false callback pd priority

/-! ## Delays -/

/-- whether the event may be interrupted, and the delay that is granted -/
def try_to_interrupt_event (s : St) (cev : Cev) (what : String) (interrupt : Interrupt) (sec : Option ℚ) : Bool × Option ℚ × St :=
  match b.interrupt_handler cev.event with
  | none => (false, sec, b.set_error { s with aborted := true }
      ("event " ++ b.event_name cev.event ++ " cannot be " ++ what ++ " by module " ++ b.module_name s.active_module))
  | some handler => ((handler interrupt sec).1, (handler interrupt sec).2, s)

/-- what it returns, the reference of the delay, and the states of the event and of the process then -/
def shuso_event_delay (s : St) (cev : Cev) (reason : String) (max_delay_sec : ℚ) : Bool × Option ℕ × Cev × St :=
  match b.try_to_interrupt_event s cev "delayed" .delay (some max_delay_sec) with
  | (false, _, s) => (false, none, cev, s)
  | (true, sec, s) =>
    if sec.getD max_delay_sec ≤ 0 then (false, none, cev, s)
    else
      let cev := { cev with interrupt := .delay, interrupt_reason := some reason }
      let top := s.height
      let s := luaS_push_lua_module_field s event_module "find"
      let s := s.push (.lightuserdata cev.event)
      let s := b.luaS_call s 1 1
      -- the second `%s` of the text is given a structure
      if s.isnil 1 then (false, none, cev, b.set_error (s.settop top) ("event " ++ b.event_name cev.event ++ " cannot be delayed"))
      else
        let record := s.records.length
        let s := s.push (.userdata record)
        let s := s.push (.table "shuttlesock.core.event.delayed".toList)
        -- `lua_setmetatable`
        let s := s.pop 1
        -- `luaL_ref`
        let r := s.registry.ref (.delay record)
        let s := { s.pop 1 with registry := r.1 }
        let delayed : Delay := ⟨reason, cev.event, cev.code, cev.data, cev.cur % 2 ^ 16, r.2⟩
        let s := { s with records := s.records ++ [delayed], timers := s.timers ++ [record] }
        (true, some r.2, cev, s.settop top)

def clear_delayed_state (s : St) (delay : Delay) (error_out : Bool) : Bool × St :=
  let top := s.height
  let s := luaS_push_lua_module_field s event_module "find"
  let s := s.push (.lightuserdata delay.event)
  let s := b.luaS_call s 1 1
  if s.isnil 1 then
    let s := s.settop top
    (false, if error_out then b.set_error s "delayed_event_handler couldn't find the event" else s)
  else (true, { s with registry := s.registry.unref delay.ref })

end Base

/-- the C events, with their listeners; those of the event for errors are in `Base` -/
structure System extends Base where
  listeners : ℕ → List Listener

namespace System

variable (sys : System)

/-- `fire_event` of a C event -/
def fire (s : St) (event listener_start_index : ℕ) (code : ℤ) (data : ℕ) : Bool × St :=
  fire_event (sys.interrupt_handler event).isSome (sys.listeners event) s event listener_start_index code data

def shuso_event_publish (s : St) (event : ℕ) (code : ℤ) (data : ℕ) : Bool × St := sys.fire s event 0 code data

/-- ev_timer: whether the loop reports `EV_TIMER` -/
def delayed_event_handler (s : St) (delay : Delay) (ev_timer : Bool) : St :=
  match sys.clear_delayed_state s delay true with
  | (false, s) => s
  | (true, s) => if ev_timer then (sys.fire s delay.event delay.next_listener_index delay.code delay.data).2 else s

/-- without a delay under the id it goes on with the address of something else, or NULL -/
def shuso_event_resume_delayed (s : St) (delay_id : ℕ) : Option (Bool × St) :=
  match s.registry.slot delay_id with
  | some (.delay record) =>
    (s.records[record]?).map fun delay =>
      let s := (s.push (.userdata record)).pop 1
      match sys.clear_delayed_state s delay false with
      | (false, s) => (false, s)
      | (true, s) => sys.fire s delay.event delay.next_listener_index delay.code delay.data
  | _ => none

end System

/-! ## Runs -/

inductive Op where
  | listen_by_name (name : Name) (callback pd : ℕ) (priority : Int8)
  | listen_by_pointer (event callback pd : ℕ) (priority : Int8)
  | publish (event : ℕ) (code : ℤ) (data : ℕ)
  | delay (cev : Cev) (reason : String) (max_delay_sec : ℚ)
  | timer (record : ℕ) (ev_timer : Bool)
  | resume (delay_id : ℕ)

def step (sys : System) (s : St) : Op → Option St
  | .listen_by_name name callback pd priority => some (sys.shuso_event_by_name_listen_with_priority s name callback pd priority).2
  | .listen_by_pointer event callback pd priority => some (sys.shuso_event_by_pointer_listen_with_priority s event callback pd priority).2
  | .publish event code data => some (sys.shuso_event_publish s event code data).2
  | .delay cev reason max_delay_sec => some (sys.shuso_event_delay s cev reason max_delay_sec).2.2.2
  | .timer record ev_timer =>
    if record ∈ s.timers then
      (s.records[record]?).map fun delay => sys.delayed_event_handler { s with timers := s.timers.erase record } delay ev_timer
    else none
  | .resume delay_id => (sys.shuso_event_resume_delayed s delay_id).map Prod.snd

/-- **The property**: every call of the run that returns leaves the height as it found it. -/
def Neutral (sys : System) (s : St) (ops : List Op) : Prop :=
  ∀ pre op post t t', ops = pre ++ op :: post → exec (step sys) s pre = some t → step sys t op = some t' → t'.height = t.height

/-- `Event.find` knows the event of a record -/
def St.knows (s : St) (record : ℕ) : Bool := (s.records[record]?).any fun delay => (s.events_by_ptr delay.event).isSome

/-- an event is run again: the timer of a delay fires, or the delay is resumed, and the event is known -/
def reruns (s : St) : Op → Bool
  | .timer record _ => decide (record ∈ s.timers) && s.knows record
  | .resume delay_id =>
    match s.registry.slot delay_id with
    | some (.delay record) => s.knows record
    | _ => false
  | _ => false

/-! ## The height -/

section Height

variable {s t : St} (b : Base)

@[simp] theorem push_height (s : St) (v : Value) : (s.push v).height = s.height + 1 := by
  rw [St.height, St.push, List.length_append]
  rfl

@[simp] theorem settop_height (s : St) (n : ℕ) : (s.settop n).height = n :=
  settop_length Value.nil n s.stack

@[simp] theorem push_pop (s : St) (v : Value) : (s.push v).pop 1 = s := by
  rw [St.pop, St.push]
  simp

@[simp] theorem push_settop (s : St) (v : Value) : (s.push v).settop s.height = s := by
  rw [St.settop, St.push, St.height]
  simp

@[simp] theorem push_value (s : St) (v : Value) : (s.push v).value 1 = v := by
  rw [St.value, St.push, fromTop_one]
  rfl

theorem fire_listeners_height (interruptible : Bool) (listeners : List Listener) (cev : Cev) (s : St) :
    (fire_listeners interruptible listeners cev s).2.height = s.height := by
  induction listeners generalizing cev s with
  | nil => rfl
  | cons l ls ih =>
    rw [fire_listeners]
    split_ifs
    · rfl
    · exact (ih _ _).trans (l.neutral cev _)

/-- the loop over the listeners leaves the height as it found it -/
theorem fire_event_height (interruptible : Bool) (listeners : List Listener) (s : St) (event start : ℕ) (code : ℤ) (data : ℕ) :
    (fire_event interruptible listeners s event start code data).2.height = s.height :=
  fire_listeners_height interruptible _ _ s

@[simp] theorem set_error_height (s : St) (message : String) : (b.set_error s message).height = s.height := by
  unfold Base.set_error
  dsimp only
  split_ifs
  · exact fire_event_height _ _ _ _ _ _ _
  · rfl

/-! ## The calls of Lua -/

theorem lua_call_require (s : St) (name : Name) :
    lua_call ((s.push (.function .require)).push (.string name)) 1 1 = s.push (.table name) := by
  have hstack : ((s.push (.function .require)).push (.string name)).stack = s.stack ++ [.function .require, .string name] := by
    simp [St.push]
  unfold lua_call
  rw [hstack, callee_one, arguments_one, below_one]
  rfl

/-- it pushes the function -/
theorem push_find (s : St) : luaS_push_lua_module_field s event_module "find" = s.push (.function .find) := by
  have hfield : getfield (.table event_module) "find" = .function .find := by
    rw [getfield, if_pos ⟨rfl, rfl⟩]
  unfold luaS_push_lua_module_field
  dsimp only
  rw [lua_call_require]
  rw [push_value, hfield, push_height, push_height, Nat.add_sub_cancel]
  have hremove := remove_append s.stack [.function .find] (.table event_module)
  rw [St.remove]
  simpa [St.push, St.height] using hremove

/-- what `Event.find` returns first for a pointer -/
def found (s : St) (p : ℕ) : Value := ((s.events_by_ptr p).map Value.event).getD .nil

theorem call_find (s : St) (p : ℕ) :
    b.luaS_call ((s.push (.function .find)).push (.lightuserdata p)) 1 1 = s.push (found s p) := by
  have hstack : Value.function .traceback :: ((s.push (.function .find)).push (.lightuserdata p)).stack =
      (.function .traceback :: s.stack) ++ [.function .find, .lightuserdata p] := by
    simp [St.push]
  unfold Base.luaS_call Base.luaS_pcall
  dsimp only
  rw [hstack, callee_one, arguments_one, below_one]
  unfold apply find found
  dsimp only [St.push]
  cases s.events_by_ptr p <;> rfl

theorem found_isnil (s : St) (p : ℕ) : (s.push (found s p)).isnil 1 = (s.events_by_ptr p).isNone := by
  rw [St.isnil, push_value, found]
  cases s.events_by_ptr p <;> rfl

/-! ## Calls that leave the height as they found it -/

theorem listen_continue_height (s : St) (nargs : ℕ) (optional : Bool) (callback pd : ℕ) (priority : Int8) :
    (b.event_listen_continue s nargs optional callback pd priority).2.height = s.height - nargs := by
  unfold Base.event_listen_continue
  dsimp only
  -- every way out sets the height that was there before the arguments
  split_ifs <;> exact settop_height _ _

theorem listen_by_name_height (s : St) (name : Name) (callback pd : ℕ) (priority : Int8) :
    (b.shuso_event_by_name_listen_with_priority s name callback pd priority).2.height = s.height := by
  unfold Base.shuso_event_by_name_listen_with_priority
  rw [listen_continue_height, push_height, Nat.add_sub_cancel]

theorem listen_by_pointer_height (s : St) (event callback pd : ℕ) (priority : Int8) :
    (b.shuso_event_by_pointer_listen_with_priority s event callback pd priority).2.height = s.height := by
  unfold Base.shuso_event_by_pointer_listen_with_priority
  rw [listen_continue_height, push_height, Nat.add_sub_cancel]

theorem try_to_interrupt_height (s : St) (cev : Cev) (what : String) (interrupt : Interrupt) (sec : Option ℚ) :
    (b.try_to_interrupt_event s cev what interrupt sec).2.2.height = s.height := by
  unfold Base.try_to_interrupt_event
  cases b.interrupt_handler cev.event with
  | none => exact set_error_height b _ _
  | some handler => rfl

theorem delay_height (s : St) (cev : Cev) (reason : String) (max_delay_sec : ℚ) :
    (b.shuso_event_delay s cev reason max_delay_sec).2.2.2.height = s.height := by
  have htry := try_to_interrupt_height b s cev "delayed" .delay (some max_delay_sec)
  unfold Base.shuso_event_delay
  generalize b.try_to_interrupt_event s cev "delayed" .delay (some max_delay_sec) = r at htry ⊢
  obtain ⟨ok, sec, t⟩ := r
  cases ok with
  | false => exact htry
  | true =>
    dsimp only at htry ⊢
    split_ifs
    · exact htry
    · rw [set_error_height, settop_height]
      exact htry
    · rw [settop_height]
      exact htry

theorem fire_height (sys : System) (s : St) (event start : ℕ) (code : ℤ) (data : ℕ) :
    (sys.fire s event start code data).2.height = s.height :=
  fire_event_height _ _ s event start code data

/-! ## Running an event again -/

/-- the event that was found stays on the stack -/
theorem clear_found {delay : Delay} {e : ℕ} (h : s.events_by_ptr delay.event = some e) (error_out : Bool) :
    b.clear_delayed_state s delay error_out = (true, { s.push (.event e) with registry := s.registry.unref delay.ref }) := by
  unfold Base.clear_delayed_state
  dsimp only
  rw [push_find, call_find, found_isnil, h, if_neg (by simp), found, h]
  rfl

theorem clear_missing {delay : Delay} (h : s.events_by_ptr delay.event = none) (error_out : Bool) :
    b.clear_delayed_state s delay error_out =
      (false, if error_out then b.set_error s "delayed_event_handler couldn't find the event" else s) := by
  unfold Base.clear_delayed_state
  dsimp only
  rw [push_find, call_find, found_isnil, h, if_pos Option.isNone_none, push_settop]

/-- a timer that fires leaves the event on the stack when it finds it -/
theorem timer_height (sys : System) (s : St) (delay : Delay) (ev_timer : Bool) :
    (sys.delayed_event_handler s delay ev_timer).height = s.height + (s.events_by_ptr delay.event).isSome.toNat := by
  unfold System.delayed_event_handler
  cases hevent : s.events_by_ptr delay.event with
  | none =>
    rw [clear_missing _ hevent]
    exact set_error_height _ s _
  | some e =>
    rw [clear_found _ hevent]
    cases ev_timer with
    | true => exact (fire_height sys _ _ _ _ _).trans (push_height s _)
    | false => exact push_height s _

theorem resume_slot (sys : System) {delay_id record : ℕ} (hslot : s.registry.slot delay_id = some (.delay record)) :
    sys.shuso_event_resume_delayed s delay_id = (s.records[record]?).map fun delay =>
      match sys.clear_delayed_state s delay false with
      | (false, s) => (false, s)
      | (true, s) => sys.fire s delay.event delay.next_listener_index delay.code delay.data := by
  unfold System.shuso_event_resume_delayed
  rw [hslot]
  dsimp only
  rw [push_pop]

/-- a resume of a delay that is there returns, and leaves the event on the stack when it finds it -/
theorem resume_height (sys : System) {delay_id record : ℕ} {delay : Delay} (hslot : s.registry.slot delay_id = some (.delay record))
    (hrecord : s.records[record]? = some delay) : ∃ r, sys.shuso_event_resume_delayed s delay_id = some r ∧
      r.2.height = s.height + (s.events_by_ptr delay.event).isSome.toNat := by
  rw [resume_slot sys hslot, hrecord, Option.map_some]
  refine ⟨_, rfl, ?_⟩
  cases hevent : s.events_by_ptr delay.event with
  | none =>
    rw [clear_missing _ hevent]
    rfl
  | some e =>
    rw [clear_found _ hevent]
    exact (fire_height sys _ _ _ _ _).trans (push_height s _)

/-! ## Every run -/

/-- **What a call leaves**: one value more when it runs an event again, and the height that it found otherwise. -/
theorem step_height (sys : System) {op : Op} (h : step sys s op = some t) : t.height = s.height + (reruns s op).toNat := by
  cases op with
  | listen_by_name name callback pd priority =>
    obtain rfl := Option.some.inj h
    exact listen_by_name_height _ s name callback pd priority
  | listen_by_pointer event callback pd priority =>
    obtain rfl := Option.some.inj h
    exact listen_by_pointer_height _ s event callback pd priority
  | publish event code data =>
    obtain rfl := Option.some.inj h
    exact fire_height sys s event 0 code data
  | delay cev reason max_delay_sec =>
    obtain rfl := Option.some.inj h
    exact delay_height _ s cev reason max_delay_sec
  | timer record ev_timer =>
    rw [step] at h
    split_ifs at h with htimer
    obtain ⟨delay, hrecord, hhandler⟩ := Option.map_eq_some_iff.1 h
    have hheight := timer_height sys { s with timers := s.timers.erase record } delay ev_timer
    rw [reruns, decide_eq_true htimer, Bool.true_and, St.knows, hrecord, Option.any_some, ← hhandler]
    exact hheight
  | resume delay_id =>
    rw [step, Option.map_eq_some_iff] at h
    obtain ⟨r, hresume, rfl⟩ := h
    cases hslot : s.registry.slot delay_id with
    | none =>
      rw [System.shuso_event_resume_delayed, hslot] at hresume
      cases hresume
    | some entry =>
      cases entry with
      | other =>
        rw [System.shuso_event_resume_delayed, hslot] at hresume
        cases hresume
      | delay record =>
        cases hrecord : s.records[record]? with
        | none =>
          rw [resume_slot sys hslot, hrecord] at hresume
          cases hresume
        | some delay =>
          obtain ⟨u, hu, hheight⟩ := resume_height sys hslot hrecord
          obtain rfl := Option.some.inj (hu.symm.trans hresume)
          rw [hheight, reruns, hslot]
          dsimp only
          rw [St.knows, hrecord, Option.any_some]

theorem knows_iff {record : ℕ} :
    s.knows record = true ↔ ∃ delay, s.records[record]? = some delay ∧ (s.events_by_ptr delay.event).isSome = true :=
  Option.any_eq_true _ _

/-- a call that runs an event again returns -/
theorem step_reruns (sys : System) {op : Op} (h : reruns s op = true) : ∃ t, step sys s op = some t := by
  cases op with
  | timer record ev_timer =>
    rw [reruns, Bool.and_eq_true, decide_eq_true_eq, knows_iff] at h
    obtain ⟨htimer, delay, hrecord, -⟩ := h
    rw [step, if_pos htimer, hrecord]
    exact ⟨_, rfl⟩
  | resume delay_id =>
    rw [reruns] at h
    cases hslot : s.registry.slot delay_id with
    | none =>
      rw [hslot] at h
      cases h
    | some entry =>
      cases entry with
      | other =>
        rw [hslot] at h
        cases h
      | delay record =>
        rw [hslot] at h
        obtain ⟨delay, hrecord, -⟩ := knows_iff.1 h
        obtain ⟨r, hresume, -⟩ := resume_height sys hslot hrecord
        rw [step, hresume]
        exact ⟨r.2, rfl⟩
  | _ => cases h

/-- how often a run runs an event again -/
def count_reruns (sys : System) : St → List Op → ℕ
  | _, [] => 0
  | s, op :: ops => (reruns s op).toNat + ((step sys s op).map fun t => count_reruns sys t ops).getD 0

/-- **The stack grows** by one value each time an event is run again. -/
theorem run_height (sys : System) {ops : List Op} (h : exec (step sys) s ops = some t) :
    t.height = s.height + count_reruns sys s ops := by
  induction ops generalizing s with
  | nil =>
    obtain rfl := Option.some.inj h
    rfl
  | cons op ops ih =>
    rw [exec_cons] at h
    obtain ⟨u, hstep, hrest⟩ := Option.bind_eq_some_iff.1 h
    rw [ih hrest, step_height sys hstep, count_reruns, hstep, Option.map_some, Option.getD_some, Nat.add_assoc]

/-- **Stack neutrality.** The calls of a run leave the height as they found it if and only if none of them runs an event again. -/
theorem neutral_iff (sys : System) (s : St) (ops : List Op) :
    Neutral sys s ops ↔ ∀ pre op post t, ops = pre ++ op :: post → exec (step sys) s pre = some t → reruns t op = false := by
  constructor
  · intro h pre op post t hops hpre
    rw [← Bool.not_eq_true]
    intro hreruns
    obtain ⟨u, hstep⟩ := step_reruns sys hreruns
    have hsame := h pre op post t u hops hpre hstep
    rw [step_height sys hstep, hreruns] at hsame
    exact Nat.succ_ne_self _ hsame
  · intro h pre op post t u hops hpre hstep
    rw [step_height sys hstep, h pre op post t hops hpre]
    rfl

end Height

/-! ## The manager stops -/

def stop_event_interrupt_handler : InterruptHandler
  | .delay, some delay_sec => (true, some (if 1 < delay_sec then 1 else delay_sec))
  | _, delay_sec => (false, delay_sec)

/-- `core_manager_try_stop`, as far as it concerns the event: it delays it while a worker is alive -/
def core_manager_try_stop (b : Base) (module : ℕ) (all_workers_dead : St → Bool) : Listener where
  module := module
  fn cev s :=
    if all_workers_dead s then (cev, s)
    else (b.shuso_event_delay s cev "waiting for workers to shut down" (1 / 10)).2.2
  neutral cev s := by
    split_ifs
    · rfl
    · exact delay_height b s cev _ _

/-- event 0 is core:manager.stop, and event 1 is the one for errors -/
def core_events : Base where
  event_name event := if event = 0 then "core:manager.stop" else "core:error"
  module_name _ := "core"
  interrupt_handler event := if event = 0 then some stop_event_interrupt_handler else none
  error := 1
  error_listeners := []

/-- the workers never stop -/
def manager : System where
  toBase := core_events
  listeners event := if event = 0 then [core_manager_try_stop core_events 0 fun _ => false] else []

def running : St where
  stack := []
  registry := ⟨2, fun _ => none, []⟩
  records := []
  timers := []
  events_by_name _ := none
  events_by_ptr event := if event = 0 then some 0 else none
  event _ := Listeners.new_event "core".toList "manager.stop".toList
  find_module _ := none
  publisher _ := none
  active_module := 0
  errors := []
  configured := true
  do_not_publish_event := false
  aborted := false

/-- the stop is delayed, and its timer runs -/
def delayed : St := (manager.shuso_event_publish running 0 0 0).2

theorem delayed_reruns : reruns delayed (.timer 0 true) = true := by decide +kernel

theorem not_neutral : ¬∀ sys s ops, Neutral sys s ops := by
  intro h
  obtain ⟨t, hstep⟩ := step_reruns manager delayed_reruns
  have hsame := h manager running [.publish 0 0 0, .timer 0 true] [.publish 0 0 0] (.timer 0 true) [] delayed t rfl rfl hstep
  rw [step_height manager hstep, delayed_reruns] at hsame
  exact Nat.succ_ne_self _ hsame

end Shuttlesock.EventStack
