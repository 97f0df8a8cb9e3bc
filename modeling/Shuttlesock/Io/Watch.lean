/-
The watcher of an io: `io.c` and the libev backend `io_libev.c`.

Model: an `Io` has the fields that decide about its watcher, and whether libev has the watcher active. libev calls the watcher's
function only while it is active, and it is active from its start to its stop. What a system call returns is part of the input,
and so is how far the buffers are then filled.
- `Script`: what a handler, an error handler or outside code does: calls of the io API, one after the other. A call that runs a
  handler has the script of that handler in it.
- `run_handler`, `ev_operation`, ..: the functions of the source, which get the handler to run as a function.
- not in the model: buffers, addresses, and the fields that only handlers read (`error`, `closed`, `handler_stage`).

Results:
- `run_inStep`: a script keeps the watcher in step with `watch_type`.
- `silent_run`: a script that starts out of step, in an error handler.
- `run_inStep_iff`: in a run, the watcher is in step in all states exactly when every event is answered.
- `left_behind`: a run where it is not.
-/
import Mathlib.Tactic

namespace Shuttlesock.Watch

/-! ## The io -/

inductive Opcode where
  | none
  | readv
  | writev
  | read
  | write
  | sendmsg
  | sendto
  | send
  | recvmsg
  | recvfrom
  | recv
  | accept
  | connect
  | close
  | shutdown
deriving DecidableEq

inductive WatchType where
  | none
  | op_finish
  | op_retry
  | poll_read
  | poll_write
  | poll_readwrite
deriving DecidableEq

structure Io where
  fd : ℤ
  opcode : Opcode
  watch_type : WatchType
  result : ℤ
  op_repeat_to_completion : Bool
  /-- there is an error handler -/
  error_handler : Bool
  /-- `shuso_ev_active` -/
  active : Bool
deriving DecidableEq

/-- `shuso_io_init` -/
def init (fd : ℤ) : Io := ⟨fd, .none, .none, 0, false, false, false⟩

/-- how far the buffers are filled or written -/
inductive Fill where
  | complete
  | incomplete
  | no_memory
deriving DecidableEq

/-- what a system call returns, with any other errno than EINTR -/
inductive Sys where
  /-- EAGAIN or EWOULDBLOCK -/
  | again
  /-- EINPROGRESS -/
  | inprogress
  | failed
  | done (n : ℕ) (fill : Fill)
deriving DecidableEq

/-! ## The functions of the source -/

/-- `shuso_io_ev_watch_update` -/
def ev_watch_update (io : Io) : Io :=
  if io.watch_type = .none ∧ io.active = true then { io with active := false }
  else if io.watch_type ≠ .none ∧ io.active = false then { io with active := true }
  else io

/-- `shuso_io_run_handler` -/
def run_handler (handler : Io → Io) (io : Io) : Io :=
  if io.error_handler = true ∧ io.result = -1 then handler io else ev_watch_update (handler io)

/-- `shuso_io_ev_connect`, what it does to the watcher -/
def ev_connect (io : Io) : Io :=
  if io.fd = -1 then io
  else if io.watch_type = .op_finish then ev_watch_update { io with watch_type := .none }
  else io

/-- the loop around the system calls: some are interrupted -/
def system_calls : ℕ → Io → Io
  | 0, io => if io.opcode = .connect then ev_connect io else io
  | n + 1, io => system_calls n (if io.opcode = .connect then ev_connect io else io)

/-- `shuso_io_op_update_and_check_completion` -/
def op_update_and_check_completion (op : Opcode) (fill : Fill) : Fill :=
  match op with
  | .none | .connect | .accept | .close | .shutdown => .complete
  | .read | .write | .sendto | .recvfrom | .send | .recv => if fill = .incomplete then .incomplete else .complete
  | .readv | .writev | .recvmsg | .sendmsg => fill

/-- what an operation comes to -/
inductive Ended where
  | waits (watch_type : WatchType) (result : ℤ)
  | ended (result : ℤ)
deriving DecidableEq

/-- the end of `shuso_io_ev_operation`, from the result of the system call -/
def ended (op : Opcode) (fd : ℤ) (whole : Bool) (result : ℤ) (sys : Sys) : Ended :=
  if op = .connect ∧ fd = -1 then .ended (-1)  -- EBADF
  else
    match sys with
    | .again => if op = .connect then .waits .op_finish result else .waits .op_retry result
    | .inprogress => if op = .connect then .waits .op_finish result else .ended (-1)
    | .failed => .ended (-1)
    | .done n fill =>
      if n ≠ 0 ∧ whole = true then
        match op_update_and_check_completion op fill with
        | .incomplete => .waits .op_retry (result + n)
        | .no_memory => .ended (-1 + n)
        | .complete => .ended (result + n)
      else .ended (result + n)

/-- `shuso_io_ev_operation` -/
def ev_operation (interrupted : ℕ) (sys : Sys) (handler : Io → Io) (io : Io) : Io :=
  let io' := system_calls interrupted io
  match ended io.opcode io.fd io.op_repeat_to_completion io.result sys with
  | .waits watch_type result => ev_watch_update { io' with watch_type := watch_type, result := result }
  | .ended result => run_handler handler { io' with result := result }

/-- the operations, those with a `_partial` twice -/
inductive Request where
  | connect
  | shutdown
  | close
  | accept
  | writev (once : Bool)
  | readv (once : Bool)
  | sendto (once : Bool)
  | recvfrom (once : Bool)
  | send (once : Bool)
  | recv (once : Bool)
  | write (once : Bool)
  | read (once : Bool)
  | sendmsg
  | recvmsg
deriving DecidableEq

def Request.opcode : Request → Opcode
  | .connect => .connect
  | .shutdown => .close
  | .close => .close
  | .accept => .accept
  | .writev _ => .writev
  | .readv _ => .readv
  | .sendto _ => .sendto
  | .recvfrom _ => .recvfrom
  | .send _ => .send
  | .recv _ => .recv
  | .write _ => .write
  | .read _ => .read
  | .sendmsg => .sendmsg
  | .recvmsg => .recvmsg

/-- `op_repeat_to_completion` -/
def Request.whole : Request → Bool
  | .writev once | .readv once | .sendto once | .recvfrom once | .send once | .recv once | .write once | .read once => !once
  | .connect | .shutdown | .close | .accept | .sendmsg | .recvmsg => true

/-- `io_op_run_new` -/
def op_run_new (request : Request) (interrupted : ℕ) (sys : Sys) (handler : Io → Io) (io : Io) : Io :=
  ev_operation interrupted sys handler
    { io with result := 0, opcode := request.opcode, op_repeat_to_completion := request.whole }

/-- `shuso_io_abort` -/
def abort (io : Io) : Io := ev_watch_update { io with watch_type := .none, result := -1 }

/-- `shuso_io_stop` -/
def stop (handler : Io → Io) (io : Io) : Io :=
  abort (if io.watch_type = .none then io else handler { io with watch_type := .none, result := -1 })

/-- `shuso_io_suspend` -/
def suspend (io : Io) : Io := ev_watch_update { io with opcode := .none, watch_type := .none }

/-- `shuso_io_wait`; `SHUSO_IO_READ` is 1, `SHUSO_IO_WRITE` is 2 -/
def wait (evflags : ℤ) (io : Io) : Io :=
  let watch_type : WatchType :=
    if evflags = 3 then .poll_readwrite else if evflags = 1 then .poll_read else if evflags = 2 then .poll_write
    else io.watch_type
  ev_watch_update { io with watch_type := watch_type, result := 0 }

/-- what libev reports -/
structure Flags where
  read : Bool
  write : Bool
deriving DecidableEq

/-- `ev_opcode_finish_match_event_type`; none is SIGABRT -/
def ev_opcode_finish_match_event_type (op : Opcode) (flags : Flags) : Option Bool :=
  if op = .connect then some flags.write else none

/-- `ev_opcode_retry_match_event_type`; none is SIGABRT -/
def ev_opcode_retry_match_event_type (op : Opcode) (flags : Flags) : Option Bool :=
  match op with
  | .none => none
  | .readv | .read | .recvfrom | .recvmsg | .recv => some flags.read
  | .writev | .write | .sendto | .sendmsg | .send => some flags.write
  | .accept | .connect | .close | .shutdown => some true

def ev_watch_poll_match_event_type (watch_type : WatchType) (flags : Flags) : Bool :=
  if flags.read then watch_type = .poll_read || watch_type = .poll_readwrite
  else if flags.write then watch_type = .poll_write || watch_type = .poll_readwrite
  else false

/-- `shuso_io_ev_watcher_handler`; none is SIGABRT -/
def ev_watcher_handler (flags : Flags) (interrupted : ℕ) (sys : Sys) (handler : Io → Io) (io : Io) : Option Io :=
  match io.watch_type with
  | .none => none
  | .op_finish =>
    (ev_opcode_finish_match_event_type io.opcode flags).map fun ok =>
      if ok then ev_operation interrupted sys handler io else io
  | .op_retry =>
    (ev_opcode_retry_match_event_type io.opcode flags).map fun ok =>
      if ok then ev_operation interrupted sys handler { io with watch_type := .none } else io
  | .poll_read | .poll_write | .poll_readwrite =>
    some (if ev_watch_poll_match_event_type io.watch_type flags then run_handler handler { io with watch_type := .none } else io)

/-! ## Handlers -/

/-- calls of the io API; the handler of a call is the script of the handler or error handler that it runs, if it does -/
inductive Script where
  | ret
  | set_error_handler (present : Bool) (next : Script)
  | start (request : Request) (interrupted : ℕ) (sys : Sys) (handler next : Script)
  | resume (handler next : Script)
  | wait (evflags : ℤ) (next : Script)
  | suspend (next : Script)
  | abort (next : Script)
  | stop (handler next : Script)

def Script.run : Script → Io → Io
  | .ret, io => io
  | .set_error_handler present next, io => next.run { io with error_handler := present }
  | .start request interrupted sys handler next, io => next.run (op_run_new request interrupted sys handler.run io)
  | .resume handler next, io => next.run (run_handler handler.run io)
  | .wait evflags next, io => next.run (Watch.wait evflags io)
  | .suspend next, io => next.run (Watch.suspend io)
  | .abort next, io => next.run (Watch.abort io)
  | .stop handler next, io => next.run (Watch.stop handler.run io)

/-! ## The event loop -/

inductive Action where
  /-- outside code -/
  | outside (script : Script)
  | ready (flags : Flags) (interrupted : ℕ) (sys : Sys) (handler : Script)

/-- from the event loop, back to the event loop -/
inductive Step : Io → Action → Io → Prop
  | outside (io : Io) (script : Script) : Step io (.outside script) (script.run io)
  | ready {io io' : Io} {flags : Flags} {interrupted : ℕ} {sys : Sys} {handler : Script} (active : io.active = true)
      (returns : ev_watcher_handler flags interrupted sys handler.run io = some io') :
      Step io (.ready flags interrupted sys handler) io'

/-- a run, with the states before its actions -/
inductive Run : List (Io × Action) → Io → Prop
  | init (fd : ℤ) : Run [] (Watch.init fd)
  | step {trace : List (Io × Action)} {io io' : Io} {a : Action} (run : Run trace io) (step : Step io a io') :
      Run (trace ++ [(io, a)]) io'

/-- **The property** of a state in the event loop -/
structure InStep (io : Io) : Prop where
  /-- a suspended operation has a watcher -/
  watched : io.watch_type ≠ .none → io.active = true
  /-- the watcher's function is not called with `SHUSO_IO_WATCH_NONE` -/
  no_abort : io.active = true → io.watch_type ≠ .none

/-- what an error handler does reaches no `shuso_io_watch_update`; the result is whether there is an error handler then -/
def Script.silent (fd : ℤ) : Script → Bool → Option Bool
  | .ret, error_handler => some error_handler
  | .set_error_handler present next, _ => next.silent fd present
  | .start request _ sys handler next, error_handler =>
    if error_handler = true ∧ ended request.opcode fd request.whole 0 sys = .ended (-1) then
      (handler.silent fd true).bind (next.silent fd)
    else none
  | .resume handler next, error_handler =>
    if error_handler = true then (handler.silent fd true).bind (next.silent fd) else none
  | .wait _ _, _ => none
  | .suspend _, _ => none
  | .abort _, _ => none
  | .stop _ _, _ => none

/-- the event clears `watch_type` and runs the error handler -/
def Reported (io : Io) (flags : Flags) (sys : Sys) : Prop :=
  io.error_handler = true ∧
    (io.watch_type = .op_retry ∧ ev_opcode_retry_match_event_type io.opcode flags = some true ∧
        ended io.opcode io.fd io.op_repeat_to_completion io.result sys = .ended (-1) ∨
      ev_watch_poll_match_event_type io.watch_type flags = true ∧ io.result = -1)

/-- **The condition**: an error handler that an event runs after clearing `watch_type` is not silent -/
def Answered (io : Io) : Action → Prop
  | .outside _ => True
  | .ready flags _ sys handler => Reported io flags sys → handler.silent io.fd true = none

/-! ## What keeps the watcher in step -/

/-- **The update** brings the watcher in step. -/
theorem ev_watch_update_inStep (io : Io) : InStep (ev_watch_update io) := by
  unfold ev_watch_update
  split_ifs with hstop hstart
  · exact ⟨fun h => absurd hstop.1 h, fun h => absurd h Bool.false_ne_true⟩
  · exact ⟨fun _ => rfl, fun _ => hstart.1⟩
  · constructor
    · intro hwatch
      by_contra hactive
      exact hstart ⟨hwatch, Bool.eq_false_of_not_eq_true hactive⟩
    · exact fun hactive hnone => hstop ⟨hnone, hactive⟩

theorem init_inStep (fd : ℤ) : InStep (init fd) := ⟨fun h => absurd rfl h, fun h => absurd h Bool.false_ne_true⟩

/-- only `watch_type` and the watcher count -/
theorem inStep_congr {io io' : Io} (h : InStep io) (hwatch : io'.watch_type = io.watch_type) (hactive : io'.active = io.active) :
    InStep io' := by
  constructor
  · rw [hwatch, hactive]
    exact h.watched
  · rw [hwatch, hactive]
    exact h.no_abort

theorem run_handler_inStep {handler : Io → Io} (hh : ∀ io, InStep io → InStep (handler io)) {io : Io} (h : InStep io) :
    InStep (run_handler handler io) := by
  unfold run_handler
  split_ifs
  · exact hh io h
  · exact ev_watch_update_inStep _

theorem ev_connect_inStep {io : Io} (h : InStep io) : InStep (ev_connect io) := by
  unfold ev_connect
  split_ifs
  · exact h
  · exact ev_watch_update_inStep _
  · exact h

theorem system_calls_inStep (n : ℕ) {io : Io} (h : InStep io) : InStep (system_calls n io) := by
  have hone : ∀ {io : Io}, InStep io → InStep (if io.opcode = .connect then ev_connect io else io) := by
    intro io h
    split_ifs
    · exact ev_connect_inStep h
    · exact h
  induction n generalizing io with
  | zero => exact hone h
  | succ n ih => exact ih (hone h)

theorem ev_operation_inStep (interrupted : ℕ) (sys : Sys) {handler : Io → Io} (hh : ∀ io, InStep io → InStep (handler io))
    {io : Io} (h : InStep io) : InStep (ev_operation interrupted sys handler io) := by
  unfold ev_operation
  cases ended io.opcode io.fd io.op_repeat_to_completion io.result sys with
  | waits watch_type result => exact ev_watch_update_inStep _
  | ended result => exact run_handler_inStep hh (inStep_congr (system_calls_inStep interrupted h) rfl rfl)

/-- **A script** keeps the watcher in step. -/
theorem run_inStep (script : Script) {io : Io} (h : InStep io) : InStep (script.run io) := by
  induction script generalizing io with
  | ret => exact h
  | set_error_handler present next ih => exact ih (inStep_congr h rfl rfl)
  | start request interrupted sys handler next ihh ih =>
    apply ih
    exact ev_operation_inStep interrupted sys (fun io h => ihh h) (inStep_congr h rfl rfl)
  | resume handler next ihh ih => exact ih (run_handler_inStep (fun io h => ihh h) h)
  | wait evflags next ih => exact ih (ev_watch_update_inStep _)
  | suspend next ih => exact ih (ev_watch_update_inStep _)
  | abort next ih => exact ih (ev_watch_update_inStep _)
  | stop handler next ihh ih => exact ih (ev_watch_update_inStep _)

/-! ## Out of step -/

/-- an event has cleared `watch_type`, and the operation has failed -/
structure Stale (io : Io) : Prop where
  watch_type : io.watch_type = .none
  active : io.active = true
  result : io.result = -1

theorem Stale.not_inStep {io : Io} (h : Stale io) : ¬ InStep io := fun hin => hin.no_abort h.active h.watch_type

/-- without `SHUSO_IO_WATCH_OP_FINISH` -/
theorem system_calls_none (n : ℕ) {io : Io} (h : io.watch_type = .none) : system_calls n io = io := by
  have hone : (if io.opcode = .connect then ev_connect io else io) = io := by
    unfold ev_connect
    rw [h]
    split_ifs with _ _ hfinish
    · rfl
    · cases hfinish
    · rfl
    · rfl
  induction n with
  | zero => exact hone
  | succ n ih =>
    calc system_calls (n + 1) io
      _ = system_calls n (if io.opcode = .connect then ev_connect io else io) := rfl
      _ = system_calls n io := by rw [hone]
      _ = io := ih

/-- a result is one of the system call, or the failure -/
theorem ended_failed (io : Io) {n : ℕ} (sys : Sys) {handler : Io → Io} (hnone : io.watch_type = .none) (heh : io.error_handler = true)
    (h : ended io.opcode io.fd io.op_repeat_to_completion io.result sys = .ended (-1)) :
    ev_operation n sys handler io = handler { io with result := -1 } := by
  unfold ev_operation
  rw [h, system_calls_none n hnone]
  exact if_pos ⟨heh, rfl⟩

theorem ended_else (io : Io) {n : ℕ} (sys : Sys) {handler : Io → Io} (hnone : io.watch_type = .none)
    (h : ¬ (io.error_handler = true ∧ ended io.opcode io.fd io.op_repeat_to_completion io.result sys = .ended (-1))) :
    InStep (ev_operation n sys handler io) := by
  unfold ev_operation
  rw [system_calls_none n hnone]
  cases hended : ended io.opcode io.fd io.op_repeat_to_completion io.result sys with
  | waits watch_type result => exact ev_watch_update_inStep _
  | ended result =>
    dsimp only
    unfold run_handler
    rw [if_neg]
    · exact ev_watch_update_inStep _
    · rintro ⟨heh, hresult⟩
      refine h ⟨heh, ?_⟩
      rw [hended]
      exact congrArg Ended.ended hresult

/-- where a script that started out of step ends: still so, or in step -/
inductive After (fd : ℤ) (io : Io) : Option Bool → Prop
  | silent {present : Bool} (stale : Stale io) (same : io.fd = fd) (error_handler : io.error_handler = present) :
      After fd io (some present)
  | update (inStep : InStep io) : After fd io none

theorem After.inStep_iff {fd : ℤ} {io : Io} {r : Option Bool} (h : After fd io r) : InStep io ↔ r = none := by
  cases h with
  | silent stale same error_handler => exact ⟨fun hin => absurd hin stale.not_inStep, fun hnone => by cases hnone⟩
  | update inStep => exact ⟨fun _ => rfl, fun _ => inStep⟩

/-- one script after another -/
theorem After.bind {fd : ℤ} {io : Io} {r : Option Bool} (h : After fd io r) {next : Script}
    (ih : ∀ {io : Io} {present : Bool}, Stale io → io.error_handler = present →
      After io.fd (next.run io) (next.silent io.fd present)) :
    After fd (next.run io) (r.bind (next.silent fd)) := by
  cases h with
  | silent stale same error_handler =>
    rw [Option.bind_some, ← same]
    exact ih stale error_handler
  | update inStep => exact .update (run_inStep next inStep)

/-- **A script that starts out of step** ends so when it is silent, and else in step. -/
theorem silent_run (script : Script) {io : Io} {present : Bool} (h : Stale io) (heh : io.error_handler = present) :
    After io.fd (script.run io) (script.silent io.fd present) := by
  induction script generalizing io present with
  | ret => exact .silent h rfl heh
  | set_error_handler after next ih =>
    have hset : Stale { io with error_handler := after } := ⟨h.watch_type, h.active, h.result⟩
    exact ih hset rfl
  | start request interrupted sys handler next ihh ih =>
    set io' : Io := { io with result := 0, opcode := request.opcode, op_repeat_to_completion := request.whole } with hio'
    have hrun : (Script.start request interrupted sys handler next).run io =
      next.run (ev_operation interrupted sys handler.run io') := rfl
    rw [hrun, Script.silent]
    split_ifs with hfails
    · have hreported : io'.error_handler = true := heh.trans hfails.1
      have hstale : Stale { io' with result := -1 } := ⟨h.watch_type, h.active, rfl⟩
      rw [ended_failed io' sys h.watch_type hreported hfails.2]
      exact (ihh hstale hreported).bind ih
    · refine .update (run_inStep next (ended_else io' sys h.watch_type ?_))
      exact fun hboth => hfails ⟨heh.symm.trans hboth.1, hboth.2⟩
  | resume handler next ihh ih =>
    have hrun : (Script.resume handler next).run io = next.run (run_handler handler.run io) := rfl
    rw [hrun, Script.silent]
    unfold run_handler
    split_ifs with hreports hpresent hpresent
    · exact (ihh h hreports.1).bind ih
    · exact absurd (heh.symm.trans hreports.1) hpresent
    · exact absurd ⟨heh.trans hpresent, h.result⟩ hreports
    · exact .update (run_inStep next (ev_watch_update_inStep _))
  | wait evflags next ih => exact .update (run_inStep next (ev_watch_update_inStep _))
  | suspend next ih => exact .update (run_inStep next (ev_watch_update_inStep _))
  | abort next ih => exact .update (run_inStep next (ev_watch_update_inStep _))
  | stop handler next ihh ih => exact .update (run_inStep next (ev_watch_update_inStep _))

/-! ## Events -/

/-- the operation of an event that has cleared `watch_type` -/
theorem retry_inStep (interrupted : ℕ) (sys : Sys) (handler : Script) {io : Io} (hactive : io.active = true) :
    InStep (ev_operation interrupted sys handler.run { io with watch_type := .none }) ↔
      (io.error_handler = true ∧ ended io.opcode io.fd io.op_repeat_to_completion io.result sys = .ended (-1) →
        handler.silent io.fd true = none) := by
  set io' : Io := { io with watch_type := .none } with hio'
  by_cases hfails : io.error_handler = true ∧ ended io.opcode io.fd io.op_repeat_to_completion io.result sys = .ended (-1)
  · have hstale : Stale { io' with result := -1 } := ⟨rfl, hactive, rfl⟩
    rw [ended_failed io' sys rfl hfails.1 hfails.2, (silent_run handler hstale hfails.1).inStep_iff]
    exact ⟨fun h _ => h, fun h => h hfails⟩
  · exact ⟨fun _ h => absurd h hfails, fun _ => ended_else io' sys rfl hfails⟩

/-- the handler of an event that has cleared `watch_type` -/
theorem poll_inStep (handler : Script) {io : Io} (hactive : io.active = true) :
    InStep (run_handler handler.run { io with watch_type := .none }) ↔
      (io.error_handler = true ∧ io.result = -1 → handler.silent io.fd true = none) := by
  unfold run_handler
  split_ifs with hreports
  · have hstale : Stale { io with watch_type := .none } := ⟨rfl, hactive, hreports.2⟩
    rw [(silent_run handler hstale hreports.1).inStep_iff]
    exact ⟨fun h _ => h, fun h => h hreports⟩
  · exact ⟨fun _ h => absurd h hreports, fun _ => ev_watch_update_inStep _⟩

theorem not_poll {watch_type : WatchType} (flags : Flags) (h : watch_type = .op_finish ∨ watch_type = .op_retry) :
    ev_watch_poll_match_event_type watch_type flags = false := by
  unfold ev_watch_poll_match_event_type
  rcases h with rfl | rfl
  · split_ifs <;> rfl
  · split_ifs <;> rfl

theorem ev_watcher_handler_poll {io : Io} (hnone : io.watch_type ≠ .none) (hfinish : io.watch_type ≠ .op_finish)
    (hretry : io.watch_type ≠ .op_retry) (flags : Flags) (interrupted : ℕ) (sys : Sys) (handler : Io → Io) :
    ev_watcher_handler flags interrupted sys handler io = some (if ev_watch_poll_match_event_type io.watch_type flags then
      run_handler handler { io with watch_type := .none } else io) := by
  unfold ev_watcher_handler
  split
  · rename_i h
    exact absurd h hnone
  · rename_i h
    exact absurd h hfinish
  · rename_i h
    exact absurd h hretry
  · rfl
  · rfl
  · rfl

/-- **One step**, from a state in step -/
theorem step_inStep_iff {io io' : Io} {a : Action} (h : InStep io) (hs : Step io a io') : InStep io' ↔ Answered io a := by
  cases hs with
  | outside script => exact ⟨fun _ => trivial, fun _ => run_inStep script h⟩
  | @ready _ flags interrupted sys handler active returns =>
    show InStep io' ↔ (Reported io flags sys → handler.silent io.fd true = none)
    unfold Reported
    by_cases hfinish : io.watch_type = .op_finish
    · -- the connection is looked at with `watch_type` in place
      have hnot := not_poll flags (.inl hfinish)
      constructor
      · rintro - ⟨-, ⟨hretry, -⟩ | ⟨hpoll, -⟩⟩
        · rw [hfinish] at hretry
          cases hretry
        · rw [hnot] at hpoll
          cases hpoll
      · intro _
        unfold ev_watcher_handler at returns
        simp only [hfinish] at returns
        obtain ⟨ok, -, rfl⟩ := Option.map_eq_some_iff.1 returns
        split_ifs
        · exact ev_operation_inStep interrupted sys (fun io h => run_inStep handler h) h
        · exact h
    by_cases hretry : io.watch_type = .op_retry
    · have hnot := not_poll flags (.inr hretry)
      unfold ev_watcher_handler at returns
      simp only [hretry] at returns
      obtain ⟨ok, hok, rfl⟩ := Option.map_eq_some_iff.1 returns
      rw [hnot, hok, hretry]
      cases ok with
      | true =>
        rw [if_pos rfl, retry_inStep interrupted sys handler active]
        constructor
        · rintro hanswered ⟨heh, ⟨-, -, hended⟩ | ⟨hfalse, -⟩⟩
          · exact hanswered ⟨heh, hended⟩
          · cases hfalse
        · rintro hanswered ⟨heh, hended⟩
          exact hanswered ⟨heh, .inl ⟨rfl, rfl, hended⟩⟩
      | false =>
        rw [if_neg Bool.false_ne_true]
        constructor
        · rintro - ⟨-, ⟨-, hfalse, -⟩ | ⟨hfalse, -⟩⟩
          · cases hfalse
          · cases hfalse
        · exact fun _ => h
    · rw [ev_watcher_handler_poll (h.no_abort active) hfinish hretry] at returns
      obtain rfl := Option.some.inj returns
      split_ifs with hpoll
      · rw [poll_inStep handler active, hpoll]
        constructor
        · rintro hanswered ⟨heh, ⟨hno, -⟩ | ⟨-, hresult⟩⟩
          · exact absurd hno hretry
          · exact hanswered ⟨heh, hresult⟩
        · rintro hanswered ⟨heh, hresult⟩
          exact hanswered ⟨heh, .inr ⟨rfl, hresult⟩⟩
      · constructor
        · rintro - ⟨-, ⟨hno, -⟩ | ⟨hyes, -⟩⟩
          · exact absurd hno hretry
          · exact absurd hyes hpoll
        · exact fun _ => h

/-! ## Runs -/

/-- **The watcher in every state of a run** is in step exactly when every event of the run is answered. -/
theorem run_inStep_iff {trace : List (Io × Action)} {io : Io} (h : Run trace io) :
    (∀ s ∈ trace.map Prod.fst ++ [io], InStep s) ↔ ∀ p ∈ trace, Answered p.1 p.2 := by
  induction h with
  | init fd =>
    constructor
    · intro _ p hp
      exact absurd hp List.not_mem_nil
    · intro _ s hs
      rw [List.mem_singleton.1 hs]
      exact init_inStep fd
  | @step trace io io' a run step ih =>
    rw [List.map_append]
    constructor
    · intro hall p hp
      have hbefore : ∀ s ∈ trace.map Prod.fst ++ [io], InStep s := fun s hs => hall s (List.mem_append_left _ hs)
      rcases List.mem_append.1 hp with hp | hp
      · exact ih.1 hbefore p hp
      · rw [List.mem_singleton.1 hp]
        have hio : InStep io := hbefore io (List.mem_append_right _ List.mem_cons_self)
        exact (step_inStep_iff hio step).1 (hall io' (List.mem_append_right _ List.mem_cons_self))
    · intro hanswered
      have hbefore := ih.2 fun p hp => hanswered p (List.mem_append_left _ hp)
      have hio : InStep io := hbefore io (List.mem_append_right _ List.mem_cons_self)
      intro s hs
      rcases List.mem_append.1 hs with hs | hs
      · exact hbefore s hs
      · rw [List.mem_singleton.1 hs]
        exact (step_inStep_iff hio step).2 (hanswered (io, a) (List.mem_append_right _ List.mem_cons_self))

/-- a read of five bytes, which first waits -/
theorem read_inStep : InStep ⟨3, .read, .none, 5, true, false, false⟩ := by
  have run : Run ([] ++ [(init 3, .outside (.start (.read false) 0 .again .ret .ret))] ++
      [(⟨3, .read, .op_retry, 0, true, false, true⟩, .ready ⟨true, false⟩ 0 (.done 5 .complete) .ret)])
      ⟨3, .read, .none, 5, true, false, false⟩ := .step (.step (.init 3) (.outside _ _)) (.ready rfl rfl)
  have hanswered : ∀ p ∈ [] ++ [(init 3, Action.outside (.start (.read false) 0 .again .ret .ret))] ++
      [(⟨3, .read, .op_retry, 0, true, false, true⟩, .ready ⟨true, false⟩ 0 (.done 5 .complete) .ret)], Answered p.1 p.2 := by
    intro p hp
    rcases List.mem_append.1 hp with hp | hp
    · rw [List.mem_singleton.1 hp]
      trivial
    · rw [List.mem_singleton.1 hp]
      exact fun hreported => absurd hreported.1 Bool.false_ne_true
  exact (run_inStep_iff run).2 hanswered _ (List.mem_append_right _ List.mem_cons_self)

/-- **A watcher left behind**: a read waits, an event comes, and the read fails. The error handler returns with the watcher still
active, and the next event aborts the process. -/
theorem left_behind : ∃ trace io, Run trace io ∧ io.active = true ∧ io.watch_type = .none ∧
    ∀ flags interrupted sys handler, ev_watcher_handler flags interrupted sys handler io = none := by
  have waits : Run ([] ++ [(init 3, .outside (.set_error_handler true (.start (.read false) 0 .again .ret .ret)))])
      ⟨3, .read, .op_retry, 0, true, true, true⟩ := .step (.init 3) (.outside _ _)
  have fails : Step ⟨3, .read, .op_retry, 0, true, true, true⟩ (.ready ⟨true, false⟩ 0 .failed .ret)
      ⟨3, .read, .none, -1, true, true, true⟩ := .ready rfl rfl
  exact ⟨_, _, waits.step fails, rfl, rfl, fun _ _ _ _ => rfl⟩

end Shuttlesock.Watch
