/-
The event watchers of Lua code (`core_lua_api.c`, the section WATCHERS) and the Lua registry that keeps them: `Lua_shuso_new_watcher`,
`Lua_watcher_set`, `Lua_watcher_start`, `Lua_watcher_stop`, `Lua_watcher_yield`, `Lua_watcher_newindex`, `Lua_watcher_gc` and
`watcher_callback`.

Model: a watcher is a userdata, and libev holds a pointer to it while it is active or pending. A watcher that runs is referenced in the
registry, a handler is as long as nobody gives its reference back.
- `none` as a reference is `LUA_NOREF`.
- Lua code may do anything with a watcher that was not collected, also inside a handler. The collector may free one that the registry
  does not hold (`gc`). Its memory stays in the model (`collected`).
- libev: `fire` makes an active watcher pending, and a timer that does not repeat inactive; `invoke` calls back, up to the call of the
  handler, and `finish` is the rest of the callback.
- a failed assertion, the null pointer and an error outside of a protected call set `fault`.
- `others`: the references of the rest of the program.
- not in the model: `luaL_check*` (`checked`), file descriptors, signals, process ids, libev's checks of them, `__index`.

Results:
- `Reach.sound`, `sound_iff`: in every run, a step leaves `Sound`, exactly when it meets `Ok`. With `Sound`, every watcher that libev
  can call back exists, has its own reference and its handler's, and a reference to itself is held only while libev or the callback
  needs it.
- `handler_for_life`: a watcher that has a handler has one in every later state. Its reference is never given back, also when the
  watcher is collected, and no coroutine yields to it any more.
-/
import Mathlib.Tactic
import Shuttlesock.Core.Runs
import Shuttlesock.Core.Refs

namespace Shuttlesock.Watchers

open Shuttlesock.Runs Shuttlesock.Refs

/-! ## Model -/

/-- `shuso_lua_ev_watcher_type_t` -/
inductive Kind where
  | io
  | timer
  | child
  | signal
deriving DecidableEq

def watchertype_str : Kind → String
  | .io => "io"
  | .timer => "timer"
  | .child => "child"
  | .signal => "signal"

/-- an argument -/
inductive Value where
  | nil
  | number (q : ℚ)
  | function (f : ℕ)
  | thread (t : ℕ) (yieldable : Bool)
  | other
deriving DecidableEq

/-- an object in the registry -/
inductive Obj where
  | watcher (i : ℕ)
  | function (f : ℕ)
  | thread (t : ℕ)
  | other
deriving DecidableEq

def Obj.callable : Obj → Bool
  | function _ => true
  | thread _ => true
  | _ => false

/-- the Lua thread that calls; `top_isthread` is `lua_isthread(L, -1)` -/
structure Caller where
  thread : ℕ
  main : Bool
  yieldable : Bool
  top_isthread : Bool
deriving DecidableEq

/-- `shuso_lua_ev_watcher_t` -/
structure Watcher where
  type : Kind
  active : Bool
  pending : Bool
  /-- `ev.data` points to the watcher -/
  data : Bool
  repeats : ℚ
  self : Option ℕ
  handler : Option ℕ
  coroutine_thread : Option ℕ
  collected : Bool
deriving DecidableEq

/-- the callback that runs -/
structure Call where
  watcher : ℕ
  handler_is_coroutine : Bool
deriving DecidableEq

structure St where
  registry : Table Obj
  watchers : ℕ → Option Watcher
  others : ℕ → Option ℕ
  call : Option Call
  fault : Bool

/-- what a function of the API leaves on the stack -/
inductive Out where
  | nothing
  | watcher (i : ℕ)
  | nil
  | yields
  | error (text : String)
deriving DecidableEq

def St.put (s : St) (i : ℕ) (w : Watcher) : St := { s with watchers := Function.update s.watchers i (some w) }

def St.crash (s : St) : St := { s with fault := true }

def luaL_unref (R : Table Obj) : Option ℕ → Table Obj
  | none => R
  | some r => R.unref r

/-- what `lua_push_handler_function_or_coroutine` does -/
inductive Pushed where
  | handler (o : Obj)
  | nothing
  | error (text : String)
  /-- `lua_isyieldable` of the null pointer -/
  | crash

/-- behind the search for the coroutine: the result and what `*coroutine` becomes -/
def push_coroutine (t : ℕ) (yieldable allow_no_handler : Bool) : Pushed × Option ℕ :=
  if yieldable then (.handler (.thread t), some t)
  else if allow_no_handler then (.nothing, none)
  else (.error "handler coroutine isn't yieldable", none)

/-- coroutine is `*coroutine` before; caller is there with `caller_can_be_handler` -/
def lua_push_handler_function_or_coroutine (v : Value) (coroutine : Option ℕ) (caller : Option Caller) (allow_no_handler : Bool) :
    Pushed × Option ℕ :=
  match v with
  | .function f => (.handler (.function f), none)
  | .thread t yieldable => push_coroutine t yieldable allow_no_handler
  | _ =>
    match caller with
    | none => if allow_no_handler then (.nothing, none) else (.crash, coroutine)
    | some L =>
      if L.main && !allow_no_handler then
        (.error "handler can't be the main thread because it's not a coroutine and can't yield and spindly spiders", coroutine)
      else push_coroutine L.thread L.yieldable allow_no_handler

/-- `ev_*_start` of libev -/
def Watcher.ev_start (w : Watcher) : Watcher := { w with active := true }

/-- `ev_*_stop` of libev -/
def Watcher.ev_stop (w : Watcher) : Watcher := { w with active := false, pending := false }

def lua_watcher_ref (s : St) (i : ℕ) (w : Watcher) : St × Out :=
  match w.self with
  | some _ => (s, .error "watcher already has a reference")
  | none =>
    let r := s.registry.ref (.watcher i)
    ({ s with registry := r.1 }.put i { w with self := some r.2 }, .watcher i)

def lua_watcher_unref (s : St) (i : ℕ) (w : Watcher) : St :=
  match w.self with
  | none => s
  | some r => { s with registry := s.registry.unref r }.put i { w with coroutine_thread := none, self := none }

def Lua_shuso_new_watcher (s : St) (i : ℕ) (type : Kind) : St × Out :=
  (s.put i ⟨type, false, false, false, 0, none, none, none, false⟩, .watcher i)

/-- checked: the arguments are what `luaL_check*` asks for; v is the last one -/
def Lua_watcher_set (s : St) (i : ℕ) (w : Watcher) (checked : Bool) (repeats : ℚ) (v : Value) : St × Out :=
  if w.active || w.pending then
    (s, .error ("cannot call " ++ watchertype_str w.type ++ " watcher:set(), the event is already active"))
  else if !checked then (s, .error "bad argument")
  else
    let w := { w with data := true, repeats := if w.type = .timer then repeats else w.repeats }
    match (lua_push_handler_function_or_coroutine v none none true).1 with
    | .handler o =>
      let r := s.registry.ref o
      ({ s with registry := luaL_unref r.1 w.handler }.put i { w with handler := some r.2 }, .watcher i)
    | .nothing => (s.put i w, .watcher i)
    | .error text => (s.put i w, .error text)
    | .crash => (s.crash, .nothing)

def Lua_watcher_start (s : St) (i : ℕ) (w : Watcher) : St × Out :=
  if w.active then (s, .error "shuttlesock.watcher already active")
  else if w.handler = none then (s, .error "shuttlesock.watcher cannot be started without a handler")
  else lua_watcher_ref (s.put i w.ev_start) i w.ev_start

/-- `lua_watcher_unref` also pops the last argument; top is the number of arguments -/
def Lua_watcher_stop (s : St) (i : ℕ) (w : Watcher) (top : ℕ) : St × Out :=
  (lua_watcher_unref (s.put i w.ev_stop) i w.ev_stop, if w.self ≠ none ∧ top = 1 then .nil else .watcher i)

def Lua_watcher_yield (s : St) (i : ℕ) (w : Watcher) (L : Caller) : St × Out :=
  if w.coroutine_thread = some L.thread ∧ w.handler = none then (s.crash, .nothing)
  else if w.coroutine_thread ≠ some L.thread ∧ w.handler ≠ none then
    (s, .error (if L.top_isthread then "can't yield to shuttlesock.watcher, it's already yielding to a different coroutine"
      else "can't yield to shuttlesock.watcher, its handler has already been set"))
  else if w.handler ≠ none then (s.crash, .nothing)
  else if w.coroutine_thread ≠ none then (s.crash, .nothing)
  else
    let p := lua_push_handler_function_or_coroutine .nil w.coroutine_thread (some L) false
    match p.1 with
    | .handler o =>
      let r := s.registry.ref o
      let w := { w with handler := some r.2, coroutine_thread := p.2 }
      let t := Lua_watcher_start ({ s with registry := r.1 }.put i w) i w
      match t.2 with
      | .error text => (t.1, .error text)
      | _ => (t.1, .yields)
    | .error text => (s.put i { w with coroutine_thread := p.2 }, .error text)
    | _ => (s.crash, .nothing)

/-- `watcher.handler = v` -/
def newindex_handler (s : St) (i : ℕ) (w : Watcher) (v : Value) : St × Out :=
  let t := { s with registry := luaL_unref s.registry w.handler }
  let w := if w.handler ≠ none then { w with coroutine_thread := none } else w
  if v = .nil then (t.put i w, .nothing)
  else
    let p := lua_push_handler_function_or_coroutine v w.coroutine_thread none false
    match p.1 with
    | .handler o =>
      let r := t.registry.ref o
      ({ t with registry := r.1 }.put i { w with handler := some r.2, coroutine_thread := p.2 }, .nothing)
    -- the error leaves the old reference in the watcher
    | .error text => (t.put i { w with coroutine_thread := p.2 }, .error text)
    | .nothing => (t.put i { w with handler := none, coroutine_thread := p.2 }, .error "watcher handler must be a coroutine or function")
    | .crash => (t.crash, .nothing)

def Lua_watcher_newindex (s : St) (i : ℕ) (w : Watcher) (key : String) (v : Value) : St × Out :=
  if key = "handler" then newindex_handler s i w v
  else if w.type = .timer then
    match v with
    | .number q => (if key = "repeat" then s.put i { w with repeats := q } else s, .nothing)
    | _ => (s, if key = "after" ∨ key = "repeat" then .error "number expected" else .nothing)
  else (s, .error ("don't know how to set shuttlesock " ++ watchertype_str w.type ++ " watcher field \"" ++ key ++ "\""))

/-- the memory of the watcher is free then -/
def Lua_watcher_gc (s : St) (i : ℕ) (w : Watcher) : St :=
  let t := { s with registry := luaL_unref s.registry w.self }
  let w := { w with self := none }
  lua_watcher_unref (t.put i { w with collected := true }) i { w with collected := true }

/-- libev sees that the event of an active watcher has come -/
def ev_fire (s : St) (i : ℕ) (w : Watcher) : St :=
  if w.type = .timer ∧ w.repeats = 0 then s.put i { w with active := false, pending := true } else s.put i { w with pending := true }

/-- `watcher_callback`, up to the handler -/
def callback_begin (s : St) (i : ℕ) (w : Watcher) : St :=
  let s := s.put i { w with pending := false }
  if w.collected || !w.data then s.crash
  else
    match w.handler with
    | none => s.crash
    | some r =>
      match s.registry.slot r with
      | some (.thread _) => { s with call := some ⟨i, true⟩ }
      | some (.function _) => { s with call := some ⟨i, false⟩ }
      | _ => s.crash

/-- the coroutine is finished or the timer is -/
def finished (w : Watcher) (handler_is_coroutine rc_ok : Bool) : Bool :=
  (handler_is_coroutine && rc_ok) || (decide (w.type = .timer) && decide (w.repeats = 0))

/-- `watcher_callback`, behind the handler; rc_ok: the coroutine is finished -/
def callback_end (s : St) (c : Call) (w : Watcher) (rc_ok : Bool) : St :=
  let s := { s with call := none }
  if w.collected then s.crash
  else if finished w c.handler_is_coroutine rc_ok then
    match (w.self.bind s.registry.slot : Option Obj) with
    | some (.watcher j) =>
      match s.watchers j with
      | some v => (Lua_watcher_stop s j v 1).1
      | none => s.crash
    -- the error of `luaL_checkudata`
    | _ => s.crash
  else s

inductive Act where
  | new (i : ℕ) (type : Kind)
  | set (i : ℕ) (checked : Bool) (repeats : ℚ) (v : Value)
  | start (i : ℕ)
  | stop (i : ℕ) (top : ℕ)
  | yield (i : ℕ) (L : Caller)
  | newindex (i : ℕ) (key : String) (v : Value)
  | gc (i : ℕ)
  | fire (i : ℕ)
  | invoke (i : ℕ)
  | finish (rc_ok : Bool)
  | ref (k : ℕ)
  | unref (k : ℕ)

/-- the registry holds the watcher -/
def St.anchored (s : St) (i : ℕ) : Bool := (List.range (s.registry.top + 1)).any fun r => s.registry.slot r = some (.watcher i)

/-- the watcher that Lua code can name -/
def St.watcher (s : St) (i : ℕ) : Option Watcher := (s.watchers i).filter fun w => !w.collected

def step (s : St) (a : Act) : Option St :=
  if s.fault then none
  else
    match a with
    | .new i type => if s.watchers i = none then some (Lua_shuso_new_watcher s i type).1 else none
    | .set i checked repeats v => (s.watcher i).map fun w => (Lua_watcher_set s i w checked repeats v).1
    | .start i => (s.watcher i).map fun w => (Lua_watcher_start s i w).1
    | .stop i top => (s.watcher i).map fun w => (Lua_watcher_stop s i w top).1
    | .yield i L => (s.watcher i).map fun w => (Lua_watcher_yield s i w L).1
    | .newindex i key v => (s.watcher i).map fun w => (Lua_watcher_newindex s i w key v).1
    | .gc i => if s.anchored i then none else (s.watcher i).map fun w => Lua_watcher_gc s i w
    | .fire i => ((s.watchers i).filter fun w => w.active).map fun w => ev_fire s i w
    | .invoke i =>
      if s.call = none then ((s.watchers i).filter fun w => w.pending).map fun w => callback_begin s i w else none
    | .finish rc_ok => s.call.bind fun c => (s.watchers c.watcher).map fun w => callback_end s c w rc_ok
    | .ref k =>
      if s.others k = none then
        some { s with registry := (s.registry.ref .other).1, others := Function.update s.others k (some (s.registry.ref .other).2) }
      else none
    | .unref k => (s.others k).map fun r => { s with registry := s.registry.unref r, others := Function.update s.others k none }

def initial : St := ⟨⟨0, fun _ => none, []⟩, fun _ => none, fun _ => none, none, false⟩

/-! ## Specification -/

/-- who holds a reference -/
inductive Owner where
  | self (i : ℕ)
  | handler (i : ℕ)
  | other (k : ℕ)
deriving DecidableEq

def St.owns (s : St) : Owner → Option ℕ
  | .self i => (s.watchers i).bind Watcher.self
  | .handler i => (s.watchers i).bind Watcher.handler
  | .other k => s.others k

def Owner.Holds : Owner → Obj → Prop
  | self i, v => v = .watcher i
  | handler _, v => v.callable = true
  | other _, v => v = .other

def St.calls (s : St) (i : ℕ) : Prop := s.call.map Call.watcher = some i

structure Sound (s : St) : Prop where
  fault : s.fault = false
  /-- the values in the registry and their owners belong together, one to one -/
  owners : Owners s.registry s.owns
  held : ∀ o r, s.owns o = some r → ∃ v, s.registry.slot r = some v ∧ o.Holds v
  /-- what libev can call back -/
  looped : ∀ i w, s.watchers i = some w → w.active = true ∨ w.pending = true →
    w.self ≠ none ∧ w.handler ≠ none ∧ w.data = true ∧ w.collected = false
  /-- the callback reads the watcher again -/
  called : ∀ i w, s.watchers i = some w → s.calls i → w.collected = false
  /-- nothing else holds back the collector -/
  released : ∀ i w, s.watchers i = some w → w.self ≠ none → w.active = true ∨ w.pending = true ∨ s.calls i

/-- a value for the field handler: the reference of an old handler is given back first -/
def Value.assignable (w : Watcher) : Value → Bool
  | function _ => true
  | thread _ yieldable => yieldable || decide (w.handler = none)
  | nil => decide (w.handler = none)
  | _ => false

def Ok (s : St) : Act → Prop
  -- the first `set` of a watcher is before its first start
  | .start i => ∀ w ∈ s.watcher i, w.active = true ∨ w.handler = none ∨ w.data = true
  -- the coroutine that the handler is does not yield to the watcher again
  | .yield i L => ∀ w ∈ s.watcher i, w.coroutine_thread ≠ some L.thread ∧
      (w.handler ≠ none ∨ L.main = true ∨ L.yieldable = false ∨ w.data = true)
  | .newindex i key v => ∀ w ∈ s.watcher i, key = "handler" → v.assignable w = true
  -- a handler that stops its own watcher does not let go of it
  | .gc i => ∀ c ∈ s.call, c.watcher ≠ i
  -- and it does not stop a watcher that the callback stops, nor make a timer that has fired one that repeats
  | .finish rc_ok => ∀ c ∈ s.call, ∀ w ∈ s.watchers c.watcher,
      if finished w c.handler_is_coroutine rc_ok then w.self ≠ none else w.self = none ∨ w.active = true ∨ w.pending = true
  | _ => True

instance (s : St) (a : Act) : Decidable (Ok s a) :=
  match a with
  | .start i => inferInstanceAs (Decidable (∀ w ∈ s.watcher i, w.active = true ∨ w.handler = none ∨ w.data = true))
  | .yield i L => inferInstanceAs (Decidable (∀ w ∈ s.watcher i, w.coroutine_thread ≠ some L.thread ∧
      (w.handler ≠ none ∨ L.main = true ∨ L.yieldable = false ∨ w.data = true)))
  | .newindex i key v => inferInstanceAs (Decidable (∀ w ∈ s.watcher i, key = "handler" → v.assignable w = true))
  | .gc i => inferInstanceAs (Decidable (∀ c ∈ s.call, c.watcher ≠ i))
  | .finish rc_ok => inferInstanceAs (Decidable (∀ c ∈ s.call, ∀ w ∈ s.watchers c.watcher,
      if finished w c.handler_is_coroutine rc_ok then w.self ≠ none else w.self = none ∨ w.active = true ∨ w.pending = true))
  | .new _ _ | .set _ _ _ _ | .stop _ _ | .fire _ | .invoke _ | .ref _ | .unref _ => isTrue trivial

/-! ## The books -/

/-- the registry is well formed, and its values and their owners belong together -/
structure Books (s : St) : Prop where
  wf : s.registry.Wf
  owners : Owners s.registry s.owns
  held : ∀ o r, s.owns o = some r → ∃ v, s.registry.slot r = some v ∧ o.Holds v

theorem Books.congr {s t : St} (h : Books s) (hr : t.registry = s.registry) (ho : t.owns = s.owns) : Books t := by
  refine ⟨hr ▸ h.wf, ?_, ?_⟩
  · rw [hr, ho]
    exact h.owners
  · rw [hr, ho]
    exact h.held

/-- one owner moves -/
theorem Books.move {s t : St} {o : Owner} {b : Option ℕ} (h : Books s) (hm : Shift s.registry (s.owns o) t.registry b)
    (howns : t.owns = Function.update s.owns o b) (hb : ∀ r, b = some r → ∃ v, t.registry.slot r = some v ∧ o.Holds v) :
    Books t := by
  refine ⟨hm.wf, howns ▸ h.owners.move hm, fun p r hr => ?_⟩
  rw [howns] at hr
  by_cases hp : p = o
  · rw [hp, Function.update_self] at hr
    rw [hp]
    exact hb r hr
  · rw [Function.update_of_ne hp] at hr
    rw [h.owners.toSeparate.slot hm.toMoves hp hr]
    exact h.held p r hr

theorem Books.live {s : St} (h : Books s) {o : Owner} {r : ℕ} (hr : s.owns o = some r) : s.registry.Live r := h.owners.live o r hr

/-! ## Updates -/

@[simp] theorem put_watchers (s : St) (i : ℕ) (w : Watcher) : (s.put i w).watchers i = some w := Function.update_self ..

theorem put_other {i j : ℕ} (s : St) (w : Watcher) (h : j ≠ i) : (s.put i w).watchers j = s.watchers j := Function.update_of_ne h ..

@[simp] theorem put_put (s : St) (R : Table Obj) (i : ℕ) (v w : Watcher) :
    { s.put i v with registry := R }.put i w = { s with registry := R }.put i w := by
  simp only [St.put, Function.update_idem]

@[simp] theorem put_registry (s : St) (i : ℕ) (w : Watcher) : (s.put i w).registry = s.registry := rfl

@[simp] theorem put_call (s : St) (i : ℕ) (w : Watcher) : (s.put i w).call = s.call := rfl

@[simp] theorem put_fault (s : St) (i : ℕ) (w : Watcher) : (s.put i w).fault = s.fault := rfl

theorem owns_put (s : St) (R : Table Obj) (i : ℕ) (w : Watcher) :
    ({ s with registry := R }.put i w).owns =
      Function.update (Function.update s.owns (.self i) w.self) (.handler i) w.handler := by
  funext o
  cases o with
  | self j =>
    rw [Function.update_of_ne (by simp)]
    by_cases hj : j = i
    · subst hj
      simp [St.owns]
    · rw [Function.update_of_ne (by simpa using hj)]
      simp only [St.owns, put_other _ w hj]
  | handler j =>
    by_cases hj : j = i
    · subst hj
      simp [St.owns]
    · rw [Function.update_of_ne (by simpa using hj), Function.update_of_ne (by simp)]
      simp only [St.owns, put_other _ w hj]
  | other k =>
    rw [Function.update_of_ne (by simp), Function.update_of_ne (by simp)]
    rfl

section Owns

variable {s : St} {i : ℕ} {w v : Watcher}

theorem owns_self (hi : s.watchers i = some w) : s.owns (.self i) = w.self := by simp [St.owns, hi]

theorem owns_handler (hi : s.watchers i = some w) : s.owns (.handler i) = w.handler := by simp [St.owns, hi]

theorem owns_put_self (R : Table Obj) (hi : s.watchers i = some w) (hv : v.handler = w.handler) :
    ({ s with registry := R }.put i v).owns = Function.update s.owns (.self i) v.self := by
  rw [owns_put, hv, ← owns_handler hi]
  refine Function.update_eq_iff.2 ⟨?_, fun o _ => rfl⟩
  rw [Function.update_of_ne (by simp)]

theorem owns_put_handler (R : Table Obj) (hi : s.watchers i = some w) (hv : v.self = w.self) :
    ({ s with registry := R }.put i v).owns = Function.update s.owns (.handler i) v.handler := by
  rw [owns_put, hv, ← owns_self hi, Function.update_eq_self]

theorem owns_put_same (hi : s.watchers i = some w) (hs : v.self = w.self) (hh : v.handler = w.handler) :
    (s.put i v).owns = s.owns := by
  have h := owns_put_handler s.registry hi hs
  rwa [hh, ← owns_handler hi, Function.update_eq_self] at h

end Owns

/-! ## The invariant -/

structure Good (called : Prop) (w : Watcher) : Prop where
  looped : w.active = true ∨ w.pending = true → w.self ≠ none
  self : w.self ≠ none → w.handler ≠ none ∧ w.data = true ∧ w.collected = false
  coroutine : w.coroutine_thread ≠ none → w.handler ≠ none
  kept : called → w.collected = false
  released : w.self ≠ none → w.active = true ∨ w.pending = true ∨ called

structure Inv (s : St) : Prop where
  fault : s.fault = false
  books : Books s
  good : ∀ i w, s.watchers i = some w → Good (s.calls i) w
  call : ∀ c, s.call = some c → ∃ w, s.watchers c.watcher = some w

theorem Inv.sound {s : St} (h : Inv s) : Sound s where
  fault := h.fault
  owners := h.books.owners
  held := h.books.held
  looped i w hi hl := ⟨(h.good i w hi).looped hl, (h.good i w hi).self ((h.good i w hi).looped hl)⟩
  called i w hi := (h.good i w hi).kept
  released i w hi := (h.good i w hi).released

/-- an update of one watcher and the registry -/
theorem Inv.put {s : St} {R : Table Obj} {i : ℕ} {v : Watcher} (h : Inv s) (hb : Books ({ s with registry := R }.put i v))
    (hv : Good (s.calls i) v) : Inv ({ s with registry := R }.put i v) := by
  refine ⟨h.fault, hb, fun j w hj => ?_, fun c hc => ?_⟩
  · by_cases hji : j = i
    · subst hji
      cases (put_watchers _ _ _).symm.trans hj
      exact hv
    · rw [put_other _ _ hji] at hj
      exact h.good j w hj
  · by_cases hci : c.watcher = i
    · exact ⟨v, hci ▸ put_watchers _ _ _⟩
    · rw [put_other _ _ hci]
      exact h.call c hc

/-- an update that moves no reference -/
theorem Inv.put_same {s : St} {i : ℕ} {w v : Watcher} (h : Inv s) (hi : s.watchers i = some w) (hs : v.self = w.self)
    (hh : v.handler = w.handler) (hv : Good (s.calls i) v) : Inv (s.put i v) :=
  h.put (R := s.registry) (h.books.congr rfl (owns_put_same hi hs hh)) hv

/-- a new handler takes the place of the old one -/
theorem Books.put_handler {s : St} {i : ℕ} {w v : Watcher} {R : Table Obj} (h : Books s) (hi : s.watchers i = some w)
    (hv : v.self = w.self) (hm : Shift s.registry w.handler R v.handler)
    (hb : ∀ r, v.handler = some r → ∃ o, R.slot r = some o ∧ o.callable = true) : Books ({ s with registry := R }.put i v) :=
  h.move (o := .handler i) (by rw [owns_handler hi]; exact hm) (owns_put_handler R hi hv) hb

theorem Books.put_self {s : St} {i : ℕ} {w v : Watcher} {R : Table Obj} (h : Books s) (hi : s.watchers i = some w)
    (hv : v.handler = w.handler) (hm : Shift s.registry w.self R v.self)
    (hb : ∀ r, v.self = some r → R.slot r = some (.watcher i)) : Books ({ s with registry := R }.put i v) :=
  h.move (o := .self i) (by rw [owns_self hi]; exact hm) (owns_put_self R hi hv) fun r hr => ⟨_, hb r hr, rfl⟩

/-- give back what is held, if anything is -/
theorem unref_handler_shift {s : St} {i : ℕ} {w : Watcher} (h : Books s) (hi : s.watchers i = some w) :
    Shift s.registry w.handler (luaL_unref s.registry w.handler) none := by
  cases hh : w.handler with
  | none => exact Shift.refl h.wf fun r hr => by cases hr
  | some r => exact unref_shift h.wf (h.live (owns_handler hi |>.trans hh))

/-! ## The functions -/

section Functions

variable {s : St} {i : ℕ} {w : Watcher}

theorem start_inv (h : Inv s) (hi : s.watchers i = some w) (hc : w.collected = false)
    (hok : w.active = true ∨ w.handler = none ∨ w.data = true) : Inv (Lua_watcher_start s i w).1 := by
  have hg := h.good i w hi
  unfold Lua_watcher_start
  split_ifs with hact hhan
  · exact h
  · exact h
  · have hdata : w.data = true := (hok.resolve_left hact).resolve_left hhan
    unfold lua_watcher_ref
    cases hself : w.self with
    | some r =>
      have hne : w.self ≠ none := by simp [hself]
      simp only [Watcher.ev_start, hself]
      exact h.put_same hi hself.symm rfl ⟨fun _ => by simp, fun _ => hg.self hne, hg.coroutine, hg.kept, fun _ => .inl rfl⟩
    | none =>
      simp only [Watcher.ev_start, hself, put_registry, put_put]
      refine h.put (h.books.put_self hi rfl ?_ ?_)
        ⟨fun _ => by simp, fun _ => ⟨hhan, hdata, hc⟩, hg.coroutine, hg.kept, fun _ => .inl rfl⟩
      · rw [hself]
        exact ref_shift h.books.wf _
      · rintro r hr
        cases hr
        exact ref_slot _ _

theorem stop_inv (h : Inv s) (hi : s.watchers i = some w) (top : ℕ) : Inv (Lua_watcher_stop s i w top).1 := by
  have hg := h.good i w hi
  unfold Lua_watcher_stop lua_watcher_unref
  cases hself : w.self with
  | none =>
    simp only [Watcher.ev_stop, hself]
    refine h.put_same hi hself.symm rfl ⟨fun hl => ?_, fun hn => absurd rfl hn, hg.coroutine, hg.kept, fun hn => absurd rfl hn⟩
    rcases hl with hl | hl <;> cases hl
  | some r =>
    simp only [Watcher.ev_stop, hself, put_registry, put_put]
    refine h.put (h.books.put_self hi rfl ?_ fun q hq => by cases hq)
      ⟨fun hl => ?_, fun hn => absurd rfl hn, fun hn => absurd rfl hn, hg.kept, fun hn => absurd rfl hn⟩
    · rw [hself]
      exact unref_shift h.books.wf (h.books.live ((owns_self hi).trans hself))
    · rcases hl with hl | hl <;> cases hl

theorem push_coroutine_callable {t : ℕ} {y allow : Bool} {o : Obj} (h : (push_coroutine t y allow).1 = .handler o) :
    o.callable = true := by
  unfold push_coroutine at h
  split_ifs at h
  cases h
  rfl

theorem push_callable {v : Value} {c : Option ℕ} {caller : Option Caller} {allow : Bool} {o : Obj}
    (h : (lua_push_handler_function_or_coroutine v c caller allow).1 = .handler o) : o.callable = true := by
  unfold lua_push_handler_function_or_coroutine at h
  split at h
  · cases h
    rfl
  · exact push_coroutine_callable h
  · split at h
    · split_ifs at h
    · split_ifs at h
      exact push_coroutine_callable h

/-- no handler is no error where there may be none -/
theorem push_allow (v : Value) (c : Option ℕ) :
    (∃ o, (lua_push_handler_function_or_coroutine v c none true).1 = .handler o) ∨
      (lua_push_handler_function_or_coroutine v c none true).1 = .nothing := by
  cases v with
  | function f => exact .inl ⟨_, rfl⟩
  | thread t y =>
    cases y with
    | false => exact .inr rfl
    | true => exact .inl ⟨_, rfl⟩
  | nil => exact .inr rfl
  | number q => exact .inr rfl
  | other => exact .inr rfl

/-- `set` takes the new reference first -/
theorem replace_handler (h : Books s) (hi : s.watchers i = some w) (o : Obj) :
    Shift s.registry w.handler (luaL_unref (s.registry.ref o).1 w.handler) (some (s.registry.ref o).2) ∧
      (luaL_unref (s.registry.ref o).1 w.handler).slot (s.registry.ref o).2 = some o := by
  cases hh : w.handler with
  | none => exact ⟨ref_shift h.wf o, ref_slot _ _⟩
  | some r =>
    have hlive : s.registry.Live r := h.live ((owns_handler hi).trans hh)
    have hne : (s.registry.ref o).2 ≠ r := fun heq => ref_fresh s.registry o (heq ▸ hlive)
    refine ⟨ref_unref_shift h.wf o hlive, ?_⟩
    rw [luaL_unref, unref_slot, Function.update_of_ne hne]
    exact ref_slot _ _

theorem set_inv (h : Inv s) (hi : s.watchers i = some w) (hc : w.collected = false) (checked : Bool) (repeats : ℚ) (v : Value) :
    Inv (Lua_watcher_set s i w checked repeats v).1 := by
  have hg := h.good i w hi
  unfold Lua_watcher_set
  by_cases hact : (w.active || w.pending) = true
  · rw [if_pos hact]
    exact h
  rw [if_neg hact]
  by_cases hch : (!checked) = true
  · rw [if_pos hch]
    exact h
  rw [if_neg hch]
  rcases push_allow v none with ⟨o, ho⟩ | hno
  · obtain ⟨hshift, hslot⟩ := replace_handler h.books hi o
    simp only [ho]
    refine h.put (h.books.put_handler hi rfl hshift ?_)
      ⟨hg.looped, fun _ => ⟨by simp, rfl, hc⟩, fun _ => by simp, hg.kept, hg.released⟩
    intro r hr
    cases hr
    exact ⟨o, hslot, push_callable ho⟩
  · simp only [hno]
    exact h.put_same hi rfl rfl ⟨hg.looped, fun hs => ⟨(hg.self hs).1, rfl, hc⟩, hg.coroutine, hg.kept, hg.released⟩

/-- the old reference is given back, then the new one is taken -/
theorem newindex_handler_inv (h : Inv s) (hi : s.watchers i = some w) {v : Value} (hok : v.assignable w = true) :
    Inv (newindex_handler s i w v).1 := by
  have hg := h.good i w hi
  have hun := unref_handler_shift h.books hi
  have hset : ∀ (o : Obj) (c : Option ℕ), o.callable = true →
      Inv ({ s with registry := ((luaL_unref s.registry w.handler).ref o).1 }.put i
        { w with handler := some ((luaL_unref s.registry w.handler).ref o).2, coroutine_thread := c }) := by
    intro o c ho
    refine h.put (h.books.put_handler hi rfl (hun.trans (ref_shift hun.wf o)) ?_)
      ⟨hg.looped, fun hs => ⟨by simp, (hg.self hs).2⟩, fun _ => by simp, hg.kept, hg.released⟩
    intro r hr
    cases hr
    exact ⟨o, ref_slot _ _, ho⟩
  have hnone : w.handler = none → Inv (s.put i { w with coroutine_thread := none }) := fun hh =>
    h.put_same hi rfl rfl ⟨hg.looped, hg.self, fun hn => absurd rfl hn, hg.kept, hg.released⟩
  cases v with
  | nil =>
    have hh : w.handler = none := by simpa [Value.assignable] using hok
    simpa [newindex_handler, hh, luaL_unref] using h.put_same hi rfl rfl hg
  | function f =>
    have hf := hset (.function f) none rfl
    by_cases hh : w.handler = none <;> simpa [newindex_handler, hh, lua_push_handler_function_or_coroutine] using hf
  | thread t y =>
    cases y with
    | true =>
      have ht := hset (.thread t) (some t) rfl
      by_cases hh : w.handler = none <;>
        simpa [newindex_handler, hh, lua_push_handler_function_or_coroutine, push_coroutine] using ht
    | false =>
      have hh : w.handler = none := by simpa [Value.assignable] using hok
      simpa [newindex_handler, hh, luaL_unref, lua_push_handler_function_or_coroutine, push_coroutine] using hnone hh
  | number q => cases hok
  | other => cases hok

theorem newindex_inv (h : Inv s) (hi : s.watchers i = some w) (key : String) (v : Value)
    (hok : key = "handler" → v.assignable w = true) : Inv (Lua_watcher_newindex s i w key v).1 := by
  have hg := h.good i w hi
  unfold Lua_watcher_newindex
  by_cases hkey : key = "handler"
  · rw [if_pos hkey]
    exact newindex_handler_inv h hi (hok hkey)
  rw [if_neg hkey]
  by_cases htimer : w.type = .timer
  · rw [if_pos htimer]
    cases v with
    | number q =>
      dsimp only
      split_ifs
      · exact h.put_same hi rfl rfl ⟨hg.looped, hg.self, hg.coroutine, hg.kept, hg.released⟩
      · exact h
    | nil => exact h
    | function f => exact h
    | thread t y => exact h
    | other => exact h
  · rw [if_neg htimer]
    exact h

theorem yield_inv (h : Inv s) (hi : s.watchers i = some w) (hc : w.collected = false) {L : Caller}
    (hL : w.coroutine_thread ≠ some L.thread)
    (hok : w.handler ≠ none ∨ L.main = true ∨ L.yieldable = false ∨ w.data = true) : Inv (Lua_watcher_yield s i w L).1 := by
  have hg := h.good i w hi
  unfold Lua_watcher_yield
  rw [if_neg fun hn => hL hn.1]
  by_cases hh : w.handler = none
  swap
  · rw [if_pos ⟨hL, hh⟩]
    exact h
  have hco : w.coroutine_thread = none := by
    by_contra hne
    exact hg.coroutine hne hh
  have herr : Inv (s.put i { w with coroutine_thread := none }) :=
    h.put_same hi rfl rfl ⟨hg.looped, hg.self, fun hn => absurd rfl hn, hg.kept, hg.released⟩
  rw [if_neg fun hn => hn.2 hh, if_neg fun hn => hn hh, if_neg fun hn => hn hco]
  cases hmain : L.main with
  | true => simpa [lua_push_handler_function_or_coroutine, hmain, hco] using herr
  | false =>
    cases hy : L.yieldable with
    | false => simpa [lua_push_handler_function_or_coroutine, push_coroutine, hmain, hy] using herr
    | true =>
      have hdata : w.data = true := by simpa [hh, hmain, hy] using hok
      -- the coroutine is the handler now, and the watcher is not started yet
      have hset : Inv ({ s with registry := (s.registry.ref (.thread L.thread)).1 }.put i
          { w with handler := some (s.registry.ref (.thread L.thread)).2, coroutine_thread := some L.thread }) := by
        refine h.put (h.books.put_handler hi rfl (hh ▸ ref_shift h.books.wf _) ?_)
          ⟨hg.looped, fun hs => ⟨by simp, (hg.self hs).2⟩, fun _ => by simp, hg.kept, hg.released⟩
        intro r hr
        cases hr
        exact ⟨_, ref_slot _ _, rfl⟩
      have hstart := start_inv hset (put_watchers _ _ _) hc (.inr (.inr hdata))
      simp only [lua_push_handler_function_or_coroutine, push_coroutine, hmain, hy, Bool.false_and, Bool.false_eq_true, if_false,
        if_true]
      split <;> exact hstart

theorem anchored_of_self (h : Books s) (hi : s.watchers i = some w) (hs : w.self ≠ none) : s.anchored i = true := by
  obtain ⟨r, hr⟩ := Option.ne_none_iff_exists'.1 hs
  have hown : s.owns (.self i) = some r := (owns_self hi).trans hr
  obtain ⟨v, hv, rfl⟩ := h.held _ _ hown
  refine List.any_eq_true.2 ⟨r, List.mem_range.2 (Nat.lt_succ_of_le (h.live hown).1), ?_⟩
  simpa using hv

theorem gc_eq (h : Inv s) (hi : s.watchers i = some w) (ha : s.anchored i = false) :
    w.self = none ∧ Lua_watcher_gc s i w = s.put i { w with collected := true } := by
  have hself : w.self = none := by
    by_contra hne
    rw [anchored_of_self h.books hi hne] at ha
    cases ha
  refine ⟨hself, ?_⟩
  unfold Lua_watcher_gc lua_watcher_unref
  rw [hself]
  rfl

theorem gc_inv (h : Inv s) (hi : s.watchers i = some w) (ha : s.anchored i = false) (hcall : ∀ c ∈ s.call, c.watcher ≠ i) :
    Inv (Lua_watcher_gc s i w) := by
  have hg := h.good i w hi
  obtain ⟨hself, heq⟩ := gc_eq h hi ha
  rw [heq]
  refine h.put_same hi rfl rfl ⟨hg.looped, fun hs => absurd hself hs, hg.coroutine, fun hcalls => ?_, hg.released⟩
  obtain ⟨c, hc, rfl⟩ := Option.map_eq_some_iff.1 hcalls
  exact absurd rfl (hcall c hc)

theorem fire_inv (h : Inv s) (hi : s.watchers i = some w) (hact : w.active = true) : Inv (ev_fire s i w) := by
  have hg := h.good i w hi
  have hself := hg.looped (.inl hact)
  unfold ev_fire
  split_ifs <;>
    exact h.put_same hi rfl rfl ⟨fun _ => hself, hg.self, hg.coroutine, hg.kept, fun _ => .inr (.inl rfl)⟩

theorem Good.congr {c d : Prop} {w : Watcher} (h : Good c w) (hcd : c ↔ d) : Good d w :=
  ⟨h.looped, h.self, h.coroutine, fun hd => h.kept (hcd.2 hd), fun hs => by simpa [hcd] using h.released hs⟩

/-- the callback begins with the handler -/
theorem begin_inv (h : Inv s) (hi : s.watchers i = some w) (hp : w.pending = true) (hcall : s.call = none) :
    Inv (callback_begin s i w) := by
  have hg := h.good i w hi
  have hself := hg.looped (.inr hp)
  obtain ⟨hhan, hdata, hcol⟩ := hg.self hself
  obtain ⟨r, hr⟩ := Option.ne_none_iff_exists'.1 hhan
  obtain ⟨v, hv, hcallable⟩ := h.books.held (.handler i) r ((owns_handler hi).trans hr)
  have hbegin : ∀ b, Inv { s.put i { w with pending := false } with call := some ⟨i, b⟩ } := by
    intro b
    refine ⟨h.fault, (h.books.congr (t := s.put i { w with pending := false }) rfl (owns_put_same hi rfl rfl)).congr rfl rfl,
      fun j u hj => ?_, fun c hc => ?_⟩
    · by_cases hji : j = i
      · subst hji
        cases (put_watchers _ _ _).symm.trans hj
        exact ⟨fun _ => hself, hg.self, hg.coroutine, fun _ => hcol, fun _ => .inr (.inr rfl)⟩
      · have hj' : s.watchers j = some u := (put_other s _ hji).symm.trans hj
        refine (h.good j u hj').congr ?_
        simp [St.calls, hcall, Ne.symm hji]
    · cases hc
      exact ⟨_, put_watchers _ _ _⟩
  unfold callback_begin
  rw [if_neg (by simp [hcol, hdata])]
  split
  · rename_i hn
    exact absurd hn hhan
  · rename_i q hq
    cases hr.symm.trans hq
    rw [put_registry, hv]
    cases v with
    | function f => exact hbegin false
    | thread t => exact hbegin true
    | watcher j => cases hcallable
    | other => cases hcallable

/-- the callback ends -/
theorem Inv.hangup (h : Inv s) {c : Call} (hc : s.call = some c)
    (hw : ∀ w, s.watchers c.watcher = some w → w.self = none ∨ w.active = true ∨ w.pending = true) :
    Inv { s with call := none } := by
  refine ⟨h.fault, h.books.congr rfl rfl, fun i w hi => ?_, fun d hd => by cases hd⟩
  have hg := h.good i w hi
  refine ⟨hg.looped, hg.self, hg.coroutine, fun hn => (by cases hn), fun hs => ?_⟩
  rcases hg.released hs with hl | hl | hl
  · exact .inl hl
  · exact .inr (.inl hl)
  · have hci : c.watcher = i := by simpa [St.calls, hc] using hl
    rcases hw w (hci ▸ hi) with hn | hl | hl
    · exact absurd hn hs
    · exact .inl hl
    · exact .inr (.inl hl)

theorem stop_hangup (s : St) (i : ℕ) (w : Watcher) (top : ℕ) :
    (Lua_watcher_stop { s with call := none } i w top).1 = { (Lua_watcher_stop s i w top).1 with call := none } := by
  unfold Lua_watcher_stop lua_watcher_unref
  cases hself : w.self <;> simp [Watcher.ev_stop, hself, St.put]

theorem stop_watcher (s : St) (i : ℕ) (w : Watcher) (top : ℕ) :
    ∃ v, (Lua_watcher_stop s i w top).1.watchers i = some v ∧ v.self = none := by
  unfold Lua_watcher_stop lua_watcher_unref
  cases hself : w.self <;> simp [Watcher.ev_stop, hself]

theorem end_inv (h : Inv s) {c : Call} (hc : s.call = some c) (hi : s.watchers c.watcher = some w) {rc_ok : Bool}
    (hok : if finished w c.handler_is_coroutine rc_ok then w.self ≠ none else w.self = none ∨ w.active = true ∨ w.pending = true) :
    Inv (callback_end s c w rc_ok) := by
  have hcol : w.collected = false := (h.good _ w hi).kept (by simp [St.calls, hc])
  unfold callback_end
  simp only [hcol, Bool.false_eq_true, if_false]
  split_ifs at hok ⊢ with hfin
  · obtain ⟨r, hr⟩ := Option.ne_none_iff_exists'.1 hok
    obtain ⟨v, hv, rfl⟩ := h.books.held (.self c.watcher) r ((owns_self hi).trans hr)
    simp only [hr, Option.bind_some, hv, hi, stop_hangup]
    refine (stop_inv h hi 1).hangup (c := c) ?_ fun u hu => ?_
    · unfold Lua_watcher_stop lua_watcher_unref
      simp [Watcher.ev_stop, hr, hc]
    · obtain ⟨u', hu', hself⟩ := stop_watcher s c.watcher w 1
      cases hu'.symm.trans hu
      exact .inl hself
  · refine h.hangup hc fun u hu => ?_
    cases hi.symm.trans hu
    exact hok

theorem new_inv (h : Inv s) (hi : s.watchers i = none) (type : Kind) : Inv (Lua_shuso_new_watcher s i type).1 := by
  refine h.put (R := s.registry) (h.books.congr rfl ?_)
    ⟨fun hl => (by rcases hl with hl | hl <;> cases hl), fun hn => absurd rfl hn, fun hn => absurd rfl hn, fun _ => rfl,
      fun hn => absurd rfl hn⟩
  have hself : s.owns (.self i) = none := by simp [St.owns, hi]
  have hhan : s.owns (.handler i) = none := by simp [St.owns, hi]
  have hupd : ∀ o, s.owns o = none → Function.update s.owns o none = s.owns := fun o ho => by rw [← ho, Function.update_eq_self]
  exact (owns_put s s.registry i _).trans (by rw [hupd _ hself, hupd _ hhan])

end Functions

/-! ## Other users of the registry -/

theorem owns_others (s : St) (R : Table Obj) (k : ℕ) (b : Option ℕ) :
    St.owns { s with registry := R, others := Function.update s.others k b } = Function.update s.owns (.other k) b := by
  funext o
  cases o with
  | self j => rw [Function.update_of_ne (by simp)]; rfl
  | handler j => rw [Function.update_of_ne (by simp)]; rfl
  | other j =>
    by_cases hj : j = k
    · subst hj
      simp [St.owns]
    · rw [Function.update_of_ne (by simpa using hj)]
      simp [St.owns, hj]

theorem others_inv {s : St} (h : Inv s) {R : Table Obj} {k : ℕ} {b : Option ℕ} (hm : Shift s.registry (s.others k) R b)
    (hb : ∀ r, b = some r → R.slot r = some .other) : Inv { s with registry := R, others := Function.update s.others k b } :=
  ⟨h.fault, h.books.move (o := .other k) hm (owns_others s R k b) fun r hr => ⟨_, hb r hr, rfl⟩, h.good, h.call⟩

/-! ## Every step -/

section Steps

variable {s t : St} {i : ℕ} {w : Watcher} {a : Act}

theorem watcher_eq (h : s.watcher i = some w) : s.watchers i = some w ∧ w.collected = false := by
  obtain ⟨hi, hc⟩ := Option.filter_eq_some_iff.1 h
  exact ⟨hi, by simpa using hc⟩

theorem step_inv (h : Inv s) (hok : Ok s a) (hst : step s a = some t) : Inv t := by
  unfold step at hst
  rw [if_neg (by simp [h.fault])] at hst
  cases a with
  | new i type =>
    obtain ⟨hi, rfl⟩ : s.watchers i = none ∧ _ = t := by simpa using hst
    exact new_inv h hi type
  | set i checked repeats v =>
    obtain ⟨w, hw, rfl⟩ := Option.map_eq_some_iff.1 hst
    exact set_inv h (watcher_eq hw).1 (watcher_eq hw).2 checked repeats v
  | start i =>
    obtain ⟨w, hw, rfl⟩ := Option.map_eq_some_iff.1 hst
    exact start_inv h (watcher_eq hw).1 (watcher_eq hw).2 (hok w hw)
  | stop i top =>
    obtain ⟨w, hw, rfl⟩ := Option.map_eq_some_iff.1 hst
    exact stop_inv h (watcher_eq hw).1 top
  | yield i L =>
    obtain ⟨w, hw, rfl⟩ := Option.map_eq_some_iff.1 hst
    exact yield_inv h (watcher_eq hw).1 (watcher_eq hw).2 (hok w hw).1 (hok w hw).2
  | newindex i key v =>
    obtain ⟨w, hw, rfl⟩ := Option.map_eq_some_iff.1 hst
    exact newindex_inv h (watcher_eq hw).1 key v (hok w hw)
  | gc i =>
    dsimp only at hst
    split_ifs at hst with ha
    obtain ⟨w, hw, rfl⟩ := Option.map_eq_some_iff.1 hst
    exact gc_inv h (watcher_eq hw).1 (by simpa using ha) hok
  | fire i =>
    obtain ⟨w, hw, rfl⟩ := Option.map_eq_some_iff.1 hst
    obtain ⟨hi, hact⟩ := Option.filter_eq_some_iff.1 hw
    exact fire_inv h hi hact
  | invoke i =>
    dsimp only at hst
    split_ifs at hst with hcall
    obtain ⟨w, hw, rfl⟩ := Option.map_eq_some_iff.1 hst
    obtain ⟨hi, hp⟩ := Option.filter_eq_some_iff.1 hw
    exact begin_inv h hi hp hcall
  | finish rc_ok =>
    obtain ⟨c, hc, hst⟩ := Option.bind_eq_some_iff.1 hst
    obtain ⟨w, hi, rfl⟩ := Option.map_eq_some_iff.1 hst
    exact end_inv h hc hi (hok c hc w hi)
  | ref k =>
    dsimp only at hst
    split_ifs at hst with hk
    cases hst
    refine others_inv h (hk ▸ ref_shift h.books.wf .other) fun r hr => ?_
    cases hr
    exact ref_slot _ _
  | unref k =>
    obtain ⟨r, hr, rfl⟩ := Option.map_eq_some_iff.1 hst
    exact others_inv h (hr ▸ unref_shift h.books.wf (h.books.live (o := .other k) hr)) fun q hq => by cases hq

theorem initial_inv : Inv initial where
  fault := rfl
  books := ⟨⟨List.nodup_nil, fun r hr => by cases hr⟩,
    ⟨⟨fun o r hr => (by cases o <;> cases hr), fun o p r hr => by cases o <;> cases hr⟩, fun r v hv => by cases hv⟩,
    fun o r hr => by cases o <;> cases hr⟩
  good i w hi := by cases hi
  call c hc := by cases hc

theorem Reach.keeps (h : Reach step Ok s t) (hs : Inv s) : Inv t := h.inv hs fun _ _ _ => step_inv

/-! ## What the other steps break -/

theorem start_looped (hact : ¬w.active = true) (hhan : w.handler ≠ none) :
    ∃ v, (Lua_watcher_start s i w).1.watchers i = some v ∧ v.active = true ∧ v.data = w.data := by
  unfold Lua_watcher_start lua_watcher_ref
  rw [if_neg hact, if_neg hhan]
  cases hself : w.self <;> simp [Watcher.ev_start, hself]

/-- a callback would find no watcher -/
theorem start_unsound (hact : ¬w.active = true) (hhan : w.handler ≠ none) (hdata : ¬w.data = true) :
    ¬Sound (Lua_watcher_start s i w).1 := by
  intro hs
  obtain ⟨v, hv, hact', hdata'⟩ := start_looped (s := s) (i := i) hact hhan
  exact hdata (hdata' ▸ (hs.looped i v hv (.inl hact')).2.2.1)

theorem crash_unsound (s : St) : ¬Sound s.crash := fun h => by cases h.fault

theorem yield_unsound (h : Inv s) (hi : s.watchers i = some w) {L : Caller}
    (hno : ¬(w.coroutine_thread ≠ some L.thread ∧ (w.handler ≠ none ∨ L.main = true ∨ L.yieldable = false ∨ w.data = true))) :
    ¬Sound (Lua_watcher_yield s i w L).1 := by
  unfold Lua_watcher_yield
  by_cases hL : w.coroutine_thread = some L.thread
  · -- one of the assertions fails
    have hhan : w.handler ≠ none := (h.good i w hi).coroutine (by simp [hL])
    rw [if_neg fun hn => hhan hn.2, if_neg fun hn => hn.1 hL, if_pos hhan]
    exact crash_unsound s
  · simp only [ne_eq, hL, not_false_eq_true, true_and, not_or, not_not, Bool.not_eq_true] at hno
    obtain ⟨hhan, hmain, hy, hdata⟩ := hno
    have hco : w.coroutine_thread = none := by
      by_contra hne
      exact (h.good i w hi).coroutine hne hhan
    have hact : ¬w.active = true := fun hact => ((h.good i w hi).self ((h.good i w hi).looped (.inl hact))).1 hhan
    rw [if_neg fun hn => hL hn.1, if_neg fun hn => hn.2 hhan, if_neg fun hn => hn hhan, if_neg fun hn => hn hco]
    have hstart := start_unsound (s := { s with registry := (s.registry.ref (.thread L.thread)).1 }.put i
      { w with handler := some (s.registry.ref (.thread L.thread)).2, coroutine_thread := some L.thread }) (i := i)
      (w := { w with handler := some (s.registry.ref (.thread L.thread)).2, coroutine_thread := some L.thread })
      hact (by simp) (by simp [hdata])
    simp only [lua_push_handler_function_or_coroutine, push_coroutine, hmain, hy, Bool.false_and, Bool.false_eq_true, if_false,
      if_true]
    split <;> exact hstart

/-- a reference that was given back stays in the watcher -/
theorem stale_unsound {r : ℕ} (hr : w.handler = some r) :
    ¬Sound ({ s with registry := s.registry.unref r }.put i w) := by
  intro hs
  obtain ⟨v, hv, -⟩ := hs.held (.handler i) r (by simp [St.owns, hr])
  rw [put_registry, unref_slot, Function.update_self] at hv
  cases hv

theorem newindex_unsound {v : Value} (hno : ¬v.assignable w = true) : ¬Sound (newindex_handler s i w v).1 := by
  cases v with
  | function f => exact absurd rfl hno
  | number q => exact crash_unsound _
  | other => exact crash_unsound _
  | nil =>
    obtain ⟨r, hr⟩ := Option.ne_none_iff_exists'.1 (show w.handler ≠ none by simpa [Value.assignable] using hno)
    simpa [newindex_handler, hr, luaL_unref] using stale_unsound (s := s) (i := i) (w := { w with coroutine_thread := none }) hr
  | thread t y =>
    obtain ⟨rfl, hh⟩ : y = false ∧ w.handler ≠ none := by simpa [Value.assignable] using hno
    obtain ⟨r, hr⟩ := Option.ne_none_iff_exists'.1 hh
    simpa [newindex_handler, hr, luaL_unref, lua_push_handler_function_or_coroutine, push_coroutine] using
      stale_unsound (s := s) (i := i) (w := { w with coroutine_thread := none }) hr

theorem end_unsound (h : Inv s) {c : Call} (hc : s.call = some c) (hi : s.watchers c.watcher = some w) {rc_ok : Bool}
    (hno : ¬if finished w c.handler_is_coroutine rc_ok then w.self ≠ none else w.self = none ∨ w.active = true ∨ w.pending = true) :
    ¬Sound (callback_end s c w rc_ok) := by
  have hcol : w.collected = false := (h.good _ w hi).kept (by simp [St.calls, hc])
  unfold callback_end
  simp only [hcol, Bool.false_eq_true, if_false]
  split_ifs at hno ⊢ with hfin
  · rw [not_not] at hno
    rw [hno]
    exact crash_unsound _
  · intro hs
    rw [not_or, not_or] at hno
    rcases hs.released c.watcher w hi hno.1 with hl | hl | hl
    · exact hno.2.1 hl
    · exact hno.2.2 hl
    · cases hl

theorem step_unsound (h : Inv s) (hno : ¬Ok s a) (hst : step s a = some t) : ¬Sound t := by
  unfold step at hst
  rw [if_neg (by simp [h.fault])] at hst
  cases a with
  | new i type => exact absurd trivial hno
  | set i checked repeats v => exact absurd trivial hno
  | stop i top => exact absurd trivial hno
  | fire i => exact absurd trivial hno
  | invoke i => exact absurd trivial hno
  | ref k => exact absurd trivial hno
  | unref k => exact absurd trivial hno
  | start i =>
    obtain ⟨w, hw, rfl⟩ := Option.map_eq_some_iff.1 hst
    obtain ⟨v, hv, hno⟩ : ∃ v ∈ s.watcher i, ¬(v.active = true ∨ v.handler = none ∨ v.data = true) := by simpa [Ok] using hno
    cases hw.symm.trans hv
    rw [not_or, not_or] at hno
    exact start_unsound hno.1 hno.2.1 hno.2.2
  | yield i L =>
    obtain ⟨w, hw, rfl⟩ := Option.map_eq_some_iff.1 hst
    refine yield_unsound h (watcher_eq hw).1 fun hok => hno fun v hv => ?_
    cases hw.symm.trans hv
    exact hok
  | newindex i key v =>
    obtain ⟨w, hw, rfl⟩ := Option.map_eq_some_iff.1 hst
    by_cases hkey : key = "handler"
    · unfold Lua_watcher_newindex
      rw [if_pos hkey]
      refine newindex_unsound fun hok => hno fun u hu _ => ?_
      cases hw.symm.trans hu
      exact hok
    · exact absurd (fun u _ hk => absurd hk hkey) hno
  | gc i =>
    dsimp only at hst
    split_ifs at hst with ha
    obtain ⟨w, hw, rfl⟩ := Option.map_eq_some_iff.1 hst
    obtain ⟨c, hc, hci⟩ : ∃ c ∈ s.call, c.watcher = i := by simpa [Ok] using hno
    rw [(gc_eq h (watcher_eq hw).1 (by simpa using ha)).2]
    intro hs
    have hcol := hs.called i { w with collected := true } (put_watchers _ _ _) (by simp [St.calls, Option.mem_def.1 hc, hci])
    cases hcol
  | finish rc_ok =>
    obtain ⟨c, hc, hst⟩ := Option.bind_eq_some_iff.1 hst
    obtain ⟨w, hi, rfl⟩ := Option.map_eq_some_iff.1 hst
    refine end_unsound h hc hi fun hok => hno fun d hd u hu => ?_
    cases hc.symm.trans hd
    cases hi.symm.trans hu
    exact hok

/-- **The watchers of Lua.** As long as every step meets `Ok` the state is sound, and a further step leaves it so, exactly when it
meets `Ok` too. -/
theorem sound_iff (h : Reach step Ok initial s) : Sound s ∧ ∀ a t, step s a = some t → (Sound t ↔ Ok s a) := by
  have hinv := Reach.keeps h initial_inv
  refine ⟨hinv.sound, fun a t hst => ⟨fun hs => ?_, fun hok => (step_inv hinv hok hst).sound⟩⟩
  by_contra hno
  exact step_unsound hinv hno hst hs

end Steps

/-- a coroutine waits for a timer, until the callback -/
def timer_called : List Act :=
  [.new 0 .timer, .set 0 true (0 : ℚ) .nil, .yield 0 ⟨7, false, true, false⟩, .fire 0, .invoke 0]

/-- the callback ends well, but not when the coroutine has stopped the timer -/
theorem sound_timer : ∃ s t u v, execIf step Ok initial timer_called = some s ∧ step s (.finish true) = some t ∧ Sound t ∧
    step s (.stop 0 1) = some u ∧ step u (.finish true) = some v ∧ ¬Sound v := by
  have hrun : (execIf step Ok initial timer_called).any fun s => decide (Ok s (.finish true)) && (step s (.finish true)).isSome &&
      decide (Ok s (.stop 0 1)) && (step s (.stop 0 1)).any fun u => !decide (Ok u (.finish true)) &&
        (step u (.finish true)).isSome := by
    decide +kernel
  obtain ⟨s, hs, hall⟩ := Option.any_eq_true _ _ |>.1 hrun
  simp only [Bool.and_eq_true, decide_eq_true_eq, Option.isSome_iff_exists, Option.any_eq_true, Bool.not_eq_true',
    decide_eq_false_iff_not] at hall
  obtain ⟨⟨⟨hok, t, ht⟩, hstop⟩, u, hu, hno, v, hv⟩ := hall
  have hreach := Reach.of_execIf .init hs
  exact ⟨s, t, u, v, hs, ht, ((sound_iff hreach).2 _ t ht).2 hok, hu, hv,
    fun hsound => hno (((sound_iff (hreach.next hstop hu)).2 _ v hv).1 hsound)⟩

/-! ## A handler is for life -/

/-- what the watcher i may become -/
def Touches (s t : St) (i : ℕ) (w : Watcher) : Prop :=
  t.watchers = s.watchers ∨ ∃ v, t.watchers = Function.update s.watchers i (some v) ∧ (w.handler ≠ none → v.handler ≠ none)

section Touches

variable {s t : St} {i : ℕ} {w : Watcher}

theorem start_touches (s : St) (i : ℕ) (w : Watcher) : Touches s (Lua_watcher_start s i w).1 i w := by
  unfold Lua_watcher_start lua_watcher_ref
  split_ifs
  · exact .inl rfl
  · exact .inl rfl
  · cases hself : w.self with
    | none =>
      simp only [Watcher.ev_start, hself, put_registry, put_put]
      exact .inr ⟨_, rfl, id⟩
    | some r =>
      simp only [Watcher.ev_start, hself]
      exact .inr ⟨_, rfl, id⟩

theorem stop_touches (s : St) (i : ℕ) (w : Watcher) (top : ℕ) : Touches s (Lua_watcher_stop s i w top).1 i w := by
  unfold Lua_watcher_stop lua_watcher_unref
  cases hself : w.self with
  | none =>
    simp only [Watcher.ev_stop, hself]
    exact .inr ⟨_, rfl, id⟩
  | some r =>
    simp only [Watcher.ev_stop, hself, put_registry, put_put]
    exact .inr ⟨_, rfl, id⟩

theorem set_touches (s : St) (i : ℕ) (w : Watcher) (checked : Bool) (repeats : ℚ) (v : Value) :
    Touches s (Lua_watcher_set s i w checked repeats v).1 i w := by
  unfold Lua_watcher_set
  by_cases hact : (w.active || w.pending) = true
  · rw [if_pos hact]
    exact .inl rfl
  rw [if_neg hact]
  by_cases hch : (!checked) = true
  · rw [if_pos hch]
    exact .inl rfl
  rw [if_neg hch]
  rcases push_allow v none with ⟨o, ho⟩ | hno
  · simp only [ho]
    exact .inr ⟨_, rfl, fun _ => by simp⟩
  · simp only [hno]
    exact .inr ⟨_, rfl, id⟩

theorem yield_touches (s : St) (i : ℕ) (w : Watcher) (L : Caller) : Touches s (Lua_watcher_yield s i w L).1 i w := by
  unfold Lua_watcher_yield
  split_ifs with h1 h2 h3 hhan h5
  · exact .inl rfl
  · exact .inl rfl
  · exact .inl rfl
  · exact .inl rfl
  · exact .inl rfl
  · -- there is no handler yet
    have hany : ∀ {u : St} {v : Watcher}, u.watchers = Function.update s.watchers i (some v) → Touches s u i w :=
      fun hu => .inr ⟨_, hu, fun hn => absurd hn hhan⟩
    dsimp only
    split
    · have hstart : ∀ (u : St) (v : Watcher), u.watchers = Function.update s.watchers i (some v) →
          Touches s (Lua_watcher_start u i v).1 i w := by
        intro u v hu
        rcases start_touches u i v with he | ⟨x, he, -⟩
        · exact hany (he.trans hu)
        · exact hany (v := x) (by rw [he, hu, Function.update_idem])
      split <;> exact hstart _ _ rfl
    · exact hany rfl
    · exact .inl rfl

theorem newindex_handler_touches (s : St) (i : ℕ) (w : Watcher) (v : Value) : Touches s (newindex_handler s i w v).1 i w := by
  cases v with
  | nil => by_cases hh : w.handler = none <;> exact .inr ⟨_, rfl, by simp [hh]⟩
  | function f => exact .inr ⟨_, rfl, fun _ => by simp⟩
  | number q => exact .inl rfl
  | other => exact .inl rfl
  | thread t y =>
    cases y with
    | true => exact .inr ⟨_, rfl, fun _ => by simp⟩
    | false => by_cases hh : w.handler = none <;> exact .inr ⟨_, rfl, by simp [hh]⟩

theorem newindex_touches (s : St) (i : ℕ) (w : Watcher) (key : String) (v : Value) :
    Touches s (Lua_watcher_newindex s i w key v).1 i w := by
  unfold Lua_watcher_newindex
  by_cases hkey : key = "handler"
  · rw [if_pos hkey]
    exact newindex_handler_touches s i w v
  rw [if_neg hkey]
  by_cases htimer : w.type = .timer
  · rw [if_pos htimer]
    cases v with
    | number q =>
      dsimp only
      split_ifs
      · exact .inr ⟨_, rfl, id⟩
      · exact .inl rfl
    | nil => exact .inl rfl
    | function f => exact .inl rfl
    | thread t y => exact .inl rfl
    | other => exact .inl rfl
  · rw [if_neg htimer]
    exact .inl rfl

theorem fire_touches (s : St) (i : ℕ) (w : Watcher) : Touches s (ev_fire s i w) i w := by
  unfold ev_fire
  split_ifs <;> exact .inr ⟨_, rfl, id⟩

theorem begin_touches (s : St) (i : ℕ) (w : Watcher) : Touches s (callback_begin s i w) i w := by
  have hput : ∀ u : St, u.watchers = (s.put i { w with pending := false }).watchers → Touches s u i w := fun u hu =>
    .inr ⟨_, hu, id⟩
  unfold callback_begin
  dsimp only
  split_ifs
  · exact hput _ rfl
  · split
    · exact hput _ rfl
    · split <;> exact hput _ rfl

/-- the watcher that the callback stops is its own -/
theorem end_touches (h : Inv s) {c : Call} (hi : s.watchers c.watcher = some w) (rc_ok : Bool) :
    Touches s (callback_end s c w rc_ok) c.watcher w := by
  unfold callback_end
  dsimp only
  split_ifs
  · exact .inl rfl
  · cases hself : w.self with
    | none => exact .inl rfl
    | some r =>
      obtain ⟨v, hv, rfl⟩ := h.books.held (.self c.watcher) r ((owns_self hi).trans hself)
      simp only [Option.bind_some, hv, hi]
      exact stop_touches { s with call := none } c.watcher w 1
  · exact .inl rfl

theorem Touches.at (h : Touches s t i w) (hi : s.watchers i = some w) (hc : w.collected = false) {j : ℕ} {u : Watcher}
    (hj : s.watchers j = some u) (hu : u.handler ≠ none) :
    ∃ v, t.watchers j = some v ∧ v.handler ≠ none ∧ (u.collected = true → v = u) := by
  rcases h with he | ⟨v, he, hv⟩
  · exact ⟨u, by rw [he, hj], hu, fun _ => rfl⟩
  · by_cases hji : j = i
    · subst hji
      cases hi.symm.trans hj
      exact ⟨v, by rw [he, Function.update_self], hv hu, fun hcol => by rw [hc] at hcol; cases hcol⟩
    · exact ⟨u, by rw [he, Function.update_of_ne hji, hj], hu, fun _ => rfl⟩

/-- one step keeps the handlers, and what was collected as it is -/
theorem step_handler {a : Act} (h : Inv s) (hst : step s a = some t) {j : ℕ} {u : Watcher} (hj : s.watchers j = some u)
    (hu : u.handler ≠ none) : ∃ v, t.watchers j = some v ∧ v.handler ≠ none ∧ (u.collected = true → v = u) := by
  unfold step at hst
  rw [if_neg (by simp [h.fault])] at hst
  cases a with
  | new i type =>
    obtain ⟨hi, rfl⟩ : s.watchers i = none ∧ _ = t := by simpa using hst
    have hji : j ≠ i := by
      rintro rfl
      rw [hi] at hj
      cases hj
    exact ⟨u, (put_other s _ hji).trans hj, hu, fun _ => rfl⟩
  | set i checked repeats v =>
    obtain ⟨w, hw, rfl⟩ := Option.map_eq_some_iff.1 hst
    exact (set_touches s i w checked repeats v).at (watcher_eq hw).1 (watcher_eq hw).2 hj hu
  | start i =>
    obtain ⟨w, hw, rfl⟩ := Option.map_eq_some_iff.1 hst
    exact (start_touches s i w).at (watcher_eq hw).1 (watcher_eq hw).2 hj hu
  | stop i top =>
    obtain ⟨w, hw, rfl⟩ := Option.map_eq_some_iff.1 hst
    exact (stop_touches s i w top).at (watcher_eq hw).1 (watcher_eq hw).2 hj hu
  | yield i L =>
    obtain ⟨w, hw, rfl⟩ := Option.map_eq_some_iff.1 hst
    exact (yield_touches s i w L).at (watcher_eq hw).1 (watcher_eq hw).2 hj hu
  | newindex i key v =>
    obtain ⟨w, hw, rfl⟩ := Option.map_eq_some_iff.1 hst
    exact (newindex_touches s i w key v).at (watcher_eq hw).1 (watcher_eq hw).2 hj hu
  | gc i =>
    dsimp only at hst
    split_ifs at hst with ha
    obtain ⟨w, hw, rfl⟩ := Option.map_eq_some_iff.1 hst
    obtain ⟨hi, hc⟩ := watcher_eq hw
    have htouch : Touches s (Lua_watcher_gc s i w) i w := by
      rw [(gc_eq h hi (by simpa using ha)).2]
      exact .inr ⟨_, rfl, id⟩
    exact htouch.at hi hc hj hu
  | fire i =>
    obtain ⟨w, hw, rfl⟩ := Option.map_eq_some_iff.1 hst
    obtain ⟨hi, hact⟩ := Option.filter_eq_some_iff.1 hw
    have hc := ((h.good i w hi).self ((h.good i w hi).looped (.inl hact))).2.2
    exact (fire_touches s i w).at hi hc hj hu
  | invoke i =>
    dsimp only at hst
    split_ifs at hst with hcall
    obtain ⟨w, hw, rfl⟩ := Option.map_eq_some_iff.1 hst
    obtain ⟨hi, hp⟩ := Option.filter_eq_some_iff.1 hw
    have hc := ((h.good i w hi).self ((h.good i w hi).looped (.inr hp))).2.2
    exact (begin_touches s i w).at hi hc hj hu
  | finish rc_ok =>
    obtain ⟨c, hc, hst⟩ := Option.bind_eq_some_iff.1 hst
    obtain ⟨w, hi, rfl⟩ := Option.map_eq_some_iff.1 hst
    have hcol : w.collected = false := (h.good _ w hi).kept (by simp [St.calls, hc])
    exact (end_touches h hi rc_ok).at hi hcol hj hu
  | ref k =>
    dsimp only at hst
    split_ifs at hst
    cases hst
    exact ⟨u, hj, hu, fun _ => rfl⟩
  | unref k =>
    obtain ⟨r, -, rfl⟩ := Option.map_eq_some_iff.1 hst
    exact ⟨u, hj, hu, fun _ => rfl⟩

/-- no coroutine takes the place of a handler -/
theorem yield_refused {L : Caller} (hw : w.handler ≠ none) : (Lua_watcher_yield s i w L).2 ≠ .yields := by
  unfold Lua_watcher_yield
  rw [if_neg fun hn => hw hn.2]
  split_ifs <;> simp

/-- **A watcher that has a handler** has one in every later state, under a reference of its own. A watcher that is collected keeps it:
the function or the coroutine stays in the registry. No coroutine can yield to the watcher any more, not even the one that did. -/
theorem handler_for_life (h : Reach step Ok initial s) (hi : s.watchers i = some w) (hw : w.handler ≠ none)
    (ht : Reach step Ok s t) : ∃ v r o, t.watchers i = some v ∧ v.handler = some r ∧ t.registry.slot r = some o ∧
      o.callable = true ∧ (w.collected = true → v = w) ∧ ∀ L, (Lua_watcher_yield t i v L).2 ≠ .yields := by
  have hinv : Inv t := Reach.keeps ht (Reach.keeps h initial_inv)
  have hlater : ∃ v, t.watchers i = some v ∧ v.handler ≠ none ∧ (w.collected = true → v = w) := by
    induction ht with
    | init => exact ⟨w, hi, hw, fun _ => rfl⟩
    | next hmid hok hst ih =>
      have hmid' := Reach.keeps hmid (Reach.keeps h initial_inv)
      obtain ⟨u, hu, huh, huc⟩ := ih hmid'
      obtain ⟨v, hv, hvh, hvc⟩ := step_handler hmid' hst hu huh
      refine ⟨v, hv, hvh, fun hcol => ?_⟩
      cases huc hcol
      exact hvc hcol
  obtain ⟨v, hv, hvh, hvc⟩ := hlater
  obtain ⟨r, hr⟩ := Option.ne_none_iff_exists'.1 hvh
  obtain ⟨o, ho, hcall⟩ := hinv.books.held (.handler i) r ((owns_handler hv).trans hr)
  exact ⟨v, r, o, hv, hr, ho, hcall, hvc, fun L => yield_refused hvh⟩

end Touches

/-- the coroutine has ended and the timer is collected: the registry keeps the coroutine, also when the next one waits -/
theorem handler_stays : ∃ (t : St) (v : Watcher) (r : ℕ) (o : Obj), t.watchers 0 = some v ∧ v.collected = true ∧
    v.handler = some r ∧ t.registry.slot r = some o ∧ (t.watchers 1).isSome := by
  have hrun : (execIf step Ok initial (timer_called ++ [.finish true, .gc 0])).any fun s =>
      ((s.watchers 0).any fun w => w.collected && decide (w.handler ≠ none)) &&
        (execIf step Ok s [.new 1 .timer, .set 1 true (0 : ℚ) .nil, .yield 1 ⟨8, false, true, false⟩]).any fun t =>
          (t.watchers 1).isSome := by
    decide +kernel
  obtain ⟨s, hs, hall⟩ := Option.any_eq_true _ _ |>.1 hrun
  simp only [Bool.and_eq_true, decide_eq_true_eq, Option.any_eq_true] at hall
  obtain ⟨⟨w, hw, hcol, hhan⟩, t, ht, hone⟩ := hall
  obtain ⟨v, r, o, hv, hr, ho, -, hsame, -⟩ := handler_for_life (Reach.of_execIf .init hs) hw hhan (Reach.of_execIf .init ht)
  exact ⟨t, v, r, o, hv, hsame hcol ▸ hcol, hr, ho, hone⟩

end Shuttlesock.Watchers
