/-
Reading and writing one buffer (`io.c`, `io_libev.c`): `shuso_io_read`, `shuso_io_write`, `shuso_io_recv`, `shuso_io_send`, each with and
without `_partial`, on the libev backend: `io_op_run_new`, `shuso_io_ev_operation`, `shuso_io_op_update_and_check_completion`,
`shuso_io_ev_watcher_handler`.

Model: the watcher and its fields are those of `Watch.Io`; here an io also has the buffer and the error. What a system call returns is
part of the input. none is a failed assertion, or SIGABRT.
- `calls`: history, the buffer and the length that each system call was asked for.
- `runs`: history, result and error each time the handler was run. It leaves the io alone.
- `Run`: an operation, from the state before it to the end of its handler. Its outcomes are listed from the last one on.
- not in the model: the bytes, `flags`, `closed`.

Results:
- `driven`: in every run, each call asks for what is left; the handler is run once, by the outcome that ends the operation, and is told
  what was transferred, or the error; before that the io waits for its event, and then its watcher is stopped.
- `ev_operation_watch`: a call is one of `Watch`, without the buffer.
-/
import Mathlib.Tactic
import Shuttlesock.Io.Watch

namespace Shuttlesock.Transfer

open Shuttlesock.Watch (Flags Opcode Request WatchType)

/-! ## Model -/

structure Io extends Watch.Io where
  buf : ℕ
  len : ℤ
  error : ℕ
  calls : List (ℕ × ℤ)
  runs : List (ℤ × ℕ)
deriving DecidableEq

/-- what a system call returns, with any other errno than EINTR -/
inductive Outcome where
  /-- EAGAIN or EWOULDBLOCK -/
  | again
  | failed (errno : ℕ)
  /-- 0 is the end of the file -/
  | done (k : ℕ)
deriving DecidableEq

def Outcome.count : Outcome → ℕ
  | done k => k
  | _ => 0

/-- `shuso_io_ev_watch_update` -/
def ev_watch_update (io : Io) : Io := { io with toIo := Watch.ev_watch_update io.toIo }

/-- `shuso_io_run_handler` -/
def run_handler (io : Io) : Io := { io with toIo := Watch.run_handler id io.toIo, runs := io.runs ++ [(io.result, io.error)] }

/-- `shuso_io_op_update_and_check_completion` -/
def op_update_and_check_completion (io : Io) (result_sz : ℕ) : Option (Io × Bool) :=
  let io := { io with buf := io.buf + result_sz, len := io.len - result_sz }
  if 0 ≤ io.len then some (io, decide (io.len = 0)) else none

/-- `shuso_io_ev_operation`; the call is interrupted some times before -/
def ev_operation (interrupted : ℕ) (outcome : Outcome) (io : Io) : Option Io :=
  if io.opcode = .write ∧ io.len ≤ 0 then none
  else
    let io := { io with calls := io.calls ++ List.replicate (interrupted + 1) (io.buf, io.len) }
    match outcome with
    | .again => some (ev_watch_update { io with watch_type := .op_retry })
    | .failed errno => some (run_handler { io with result := -1, error := errno })
    | .done result =>
      if result ≠ 0 ∧ io.op_repeat_to_completion = true then
        match op_update_and_check_completion io result with
        | none => none
        | some (io, false) => some (ev_watch_update { io with watch_type := .op_retry, result := io.result + result })
        | some (io, true) => some (run_handler { io with result := io.result + result })
      else some (run_handler { io with result := io.result + result })

/-- `io_op_run_new` -/
def op_run_new (request : Request) (init_ptr : ℕ) (init_len : ℤ) (interrupted : ℕ) (outcome : Outcome) (io : Io) : Option Io :=
  ev_operation interrupted outcome
    { io with result := 0, error := 0, opcode := request.opcode, buf := init_ptr, len := init_len,
              op_repeat_to_completion := request.whole, calls := [], runs := [] }

/-- `shuso_io_ev_watcher_handler` -/
def ev_watcher_handler (flags : Flags) (interrupted : ℕ) (outcome : Outcome) (io : Io) : Option Io :=
  match io.watch_type with
  | .none => none
  | .op_finish =>
    (Watch.ev_opcode_finish_match_event_type io.opcode flags).bind fun ok =>
      if ok then ev_operation interrupted outcome io else some io
  | .op_retry =>
    (Watch.ev_opcode_retry_match_event_type io.opcode flags).bind fun ok =>
      if ok then ev_operation interrupted outcome { io with watch_type := .none } else some io
  | .poll_read | .poll_write | .poll_readwrite =>
    some (if Watch.ev_watch_poll_match_event_type io.watch_type flags then run_handler { io with watch_type := .none } else io)

/-! ## An operation -/

inductive Fn where
  | read
  | write
  | recv
  | send
deriving DecidableEq

/-- once: the function with `_partial` -/
def Fn.request (once : Bool) : Fn → Request
  | read => .read once
  | write => .write once
  | recv => .recv once
  | send => .send once

/-- the io goes on from `prior`; an outcome counts no more bytes than were asked for -/
inductive Run (fn : Fn) (once : Bool) (prior : Io) (base n : ℕ) : List (ℕ × Outcome) → Io → Prop
  | start {interrupted : ℕ} {outcome : Outcome} {io : Io} (fits : outcome.count ≤ n)
      (returns : op_run_new (fn.request once) base n interrupted outcome prior = some io) :
      Run fn once prior base n [(interrupted, outcome)] io
  | ready {outcomes : List (ℕ × Outcome)} {interrupted : ℕ} {outcome : Outcome} {flags : Flags} {io io' : Io}
      (run : Run fn once prior base n outcomes io) (live : io.runs = []) (active : io.active = true)
      (matching : Watch.ev_opcode_retry_match_event_type io.opcode flags = some true) (fits : (outcome.count : ℤ) ≤ io.len)
      (returns : ev_watcher_handler flags interrupted outcome io = some io') :
      Run fn once prior base n ((interrupted, outcome) :: outcomes) io'
  | other {outcomes : List (ℕ × Outcome)} {interrupted : ℕ} {outcome : Outcome} {flags : Flags} {io io' : Io}
      (run : Run fn once prior base n outcomes io) (live : io.runs = []) (active : io.active = true)
      (matching : Watch.ev_opcode_retry_match_event_type io.opcode flags = some false)
      (returns : ev_watcher_handler flags interrupted outcome io = some io') :
      Run fn once prior base n outcomes io'

/-! ## The claim -/

/-- the bytes that were transferred -/
def moved : List (ℕ × Outcome) → ℕ
  | [] => 0
  | (_, outcome) :: outcomes => moved outcomes + outcome.count

/-- each call asks for what is left then -/
def asked (base n : ℕ) : List (ℕ × Outcome) → List (ℕ × ℤ)
  | [] => []
  | (interrupted, _) :: outcomes =>
    asked base n outcomes ++ List.replicate (interrupted + 1) (base + moved outcomes, (n : ℤ) - moved outcomes)

/-- what the handler is told at the end, when the last outcome makes m bytes; none as long as the operation goes on -/
def told (once : Bool) (n m : ℕ) : Outcome → Option (ℤ × ℕ)
  | .again => none
  | .failed errno => some (-1, errno)
  | .done k => if k = 0 ∨ once = true ∨ m = n then some (m, 0) else none

/-- **The claim**, behind an outcome -/
structure Driven (once : Bool) (prior : Io) (base n : ℕ) (outcomes : List (ℕ × Outcome)) (io : Io) : Prop where
  asked : io.calls = asked base n outcomes
  fits : moved outcomes ≤ n
  /-- the handler is run once, if the last outcome ends the operation -/
  once : io.runs = ((outcomes.head?.map Prod.snd).bind (told once n (moved outcomes))).toList
  /-- until then the io waits, and answers its event -/
  waits : io.runs = [] → io.watch_type = .op_retry ∧ io.active = true ∧
    ∀ flags interrupted outcome, (outcome.count : ℤ) ≤ io.len → ev_watcher_handler flags interrupted outcome io ≠ none
  /-- then it waits for nothing, unless it did so before the operation -/
  quiet : io.runs ≠ [] → prior.watch_type = .none → io.watch_type = .none ∧ io.active = false

/-! ## One call -/

theorem ev_watch_update_eq (io : Io) : ev_watch_update io = { io with active := decide (io.watch_type ≠ .none) } := by
  unfold ev_watch_update Watch.ev_watch_update
  obtain ⟨⟨fd, opcode, watch_type, result, whole, error_handler, active⟩, buf, len, error, calls, runs⟩ := io
  cases watch_type <;> cases active <;> rfl

theorem run_handler_eq {io : Io} (h : io.error_handler = false) :
    run_handler io = { io with active := decide (io.watch_type ≠ .none), runs := io.runs ++ [(io.result, io.error)] } := by
  have heq : Watch.run_handler id io.toIo = Watch.ev_watch_update io.toIo := by simp [Watch.run_handler, h]
  have hupd := congrArg Io.toIo (ev_watch_update_eq io)
  rw [run_handler, heq]
  simp only [ev_watch_update] at hupd
  rw [hupd]

theorem request_whole (fn : Fn) (once : Bool) : (fn.request once).whole = !once := by cases fn <;> rfl

variable {fn : Fn} {once : Bool} {prior io : Io} {base n : ℕ} {outcomes : List (ℕ × Outcome)} {interrupted : ℕ} {outcome : Outcome}

/-- before a call -/
structure Ready (fn : Fn) (once : Bool) (base n : ℕ) (outcomes : List (ℕ × Outcome)) (io : Io) : Prop where
  opcode : io.opcode = (fn.request once).opcode
  whole : io.op_repeat_to_completion = !once
  error_handler : io.error_handler = false
  result : io.result = moved outcomes
  error : io.error = 0
  buf : io.buf = base + moved outcomes
  len : io.len = (n : ℤ) - moved outcomes
  left : moved outcomes < n
  calls : io.calls = asked base n outcomes
  runs : io.runs = []

theorem Ready.asked (h : Ready fn once base n outcomes io) (interrupted : ℕ) (outcome : Outcome) :
    io.calls ++ List.replicate (interrupted + 1) (io.buf, io.len) = Transfer.asked base n ((interrupted, outcome) :: outcomes) := by
  rw [h.calls, h.buf, h.len]
  rfl

/-- the io behind a call that does not end the operation -/
def waiting (interrupted k : ℕ) (io : Io) : Io :=
  { io with watch_type := .op_retry, active := true, result := io.result + k, buf := io.buf + k, len := io.len - k,
            calls := io.calls ++ List.replicate (interrupted + 1) (io.buf, io.len) }

theorem Ready.next (h : Ready fn once base n outcomes io) (interrupted : ℕ) (hleft : moved outcomes + outcome.count < n) :
    Ready fn once base n ((interrupted, outcome) :: outcomes) (waiting interrupted outcome.count io) where
  opcode := h.opcode
  whole := h.whole
  error_handler := h.error_handler
  result := by
    show io.result + outcome.count = ((moved outcomes + outcome.count : ℕ) : ℤ)
    rw [h.result, Nat.cast_add]
  error := h.error
  buf := by
    show io.buf + outcome.count = base + (moved outcomes + outcome.count)
    rw [h.buf, Nat.add_assoc]
  len := by
    show io.len - outcome.count = (n : ℤ) - ((moved outcomes + outcome.count : ℕ) : ℤ)
    rw [h.len, Nat.cast_add]
    omega
  left := hleft
  calls := h.asked interrupted outcome
  runs := h.runs

/-- no call of an operation that goes on fails its assertion -/
theorem Ready.len_pos (h : Ready fn once base n outcomes io) : ¬(io.opcode = .write ∧ io.len ≤ 0) := by
  have hlen := h.len
  have hleft := h.left
  rintro ⟨-, hle⟩
  omega

/-- the handler has been told r -/
structure Told (base n : ℕ) (outcomes : List (ℕ × Outcome)) (r : ℤ × ℕ) (io io' : Io) : Prop where
  calls : io'.calls = asked base n outcomes
  runs : io'.runs = [r]
  watch_type : io'.watch_type = io.watch_type
  active : io'.active = decide (io.watch_type ≠ .none)

/-- the end of an operation -/
theorem told_of_run {io' : Io} {r : ℤ × ℕ} (herror_handler : io'.error_handler = false) (hruns : io'.runs = [])
    (hcalls : io'.calls = asked base n outcomes) (hwatch : io'.watch_type = io.watch_type) (hr : (io'.result, io'.error) = r) :
    Told base n outcomes r io (run_handler io') := by
  rw [run_handler_eq herror_handler]
  refine ⟨hcalls, ?_, hwatch, ?_⟩
  · rw [hruns, hr]
    rfl
  · dsimp only
    rw [hwatch]

/-- **A call** either goes on or ends the operation. -/
theorem operation_spec (interrupted : ℕ) (h : Ready fn once base n outcomes io) (hfits : (outcome.count : ℤ) ≤ io.len) :
    ∃ io', ev_operation interrupted outcome io = some io' ∧
      (told once n (moved outcomes + outcome.count) outcome = none ∧ io' = waiting interrupted outcome.count io ∧
          moved outcomes + outcome.count < n ∨
        ∃ r, told once n (moved outcomes + outcome.count) outcome = some r ∧
          Told base n ((interrupted, outcome) :: outcomes) r io io') := by
  have hasked := h.asked interrupted outcome
  have hlen := h.len
  have hleft := h.left
  rw [ev_operation, if_neg h.len_pos]
  dsimp only
  cases outcome with
  | again =>
    refine ⟨_, rfl, .inl ⟨rfl, ?_, hleft⟩⟩
    rw [ev_watch_update_eq]
    simp [waiting, Outcome.count]
  | failed errno =>
    refine ⟨_, rfl, .inr ⟨_, rfl, ?_⟩⟩
    exact told_of_run h.error_handler h.runs hasked rfl rfl
  | done k =>
    simp only [Outcome.count] at hfits ⊢
    have hresult : io.result + (k : ℤ) = ((moved outcomes + k : ℕ) : ℤ) := by rw [h.result, Nat.cast_add]
    by_cases hgoes : k ≠ 0 ∧ io.op_repeat_to_completion = true
    · have hpos : (0 : ℤ) ≤ io.len - k := by omega
      have hwhole : once = false := by simpa [h.whole] using hgoes.2
      simp only [if_pos hgoes, op_update_and_check_completion, if_pos hpos]
      by_cases hdone : io.len - (k : ℤ) = 0
      · -- everything is transferred
        have hn : moved outcomes + k = n := by omega
        rw [decide_eq_true hdone]
        refine ⟨_, rfl, .inr ⟨((moved outcomes + k : ℕ), 0), ?_, ?_⟩⟩
        · rw [told, if_pos (.inr (.inr hn))]
        · exact told_of_run h.error_handler h.runs hasked rfl (Prod.ext hresult h.error)
      · rw [decide_eq_false hdone]
        refine ⟨_, rfl, .inl ⟨?_, ?_, by omega⟩⟩
        · rw [told, if_neg]
          rintro (hk | honce | hn)
          · exact hgoes.1 hk
          · rw [hwhole] at honce
            cases honce
          · omega
        · rw [ev_watch_update_eq]
          simp [waiting]
    · rw [if_neg hgoes]
      refine ⟨_, rfl, .inr ⟨((moved outcomes + k : ℕ), 0), ?_, ?_⟩⟩
      · have hends : k = 0 ∨ once = true ∨ moved outcomes + k = n := by
          by_cases hk : k = 0
          · exact .inl hk
          · refine .inr (.inl ?_)
            by_contra honce
            exact hgoes ⟨hk, by rw [h.whole, Bool.eq_false_of_not_eq_true honce]; rfl⟩
        rw [told, if_pos hends]
      · exact told_of_run h.error_handler h.runs hasked rfl (Prod.ext hresult h.error)

/-! ## The watcher -/

/-- the outcome without the buffer -/
def Outcome.sys (len : ℤ) : Outcome → Watch.Sys
  | again => .again
  | failed _ => .failed
  | done k => .done k (if len = k then .complete else .incomplete)

theorem system_calls_eq (interrupted : ℕ) {io : Watch.Io} (h : io.opcode ≠ .connect) : Watch.system_calls interrupted io = io := by
  induction interrupted with
  | zero => rw [Watch.system_calls, if_neg h]
  | succ interrupted ih => rw [Watch.system_calls, if_neg h, ih]

theorem fn_opcode (fn : Fn) (once : Bool) (fill : Watch.Fill) :
    (fn.request once).opcode ≠ .connect ∧ (fill = .complete ∨ fill = .incomplete →
      Watch.op_update_and_check_completion (fn.request once).opcode fill = fill) := by
  cases fn
  all_goals
    refine ⟨by simp [Fn.request, Request.opcode], ?_⟩
    rintro (rfl | rfl)
    · rfl
    · rfl

/-- **A call**, as the watcher sees it, is one of `Watch`. -/
theorem ev_operation_watch {io io' : Io} (hop : io.opcode = (fn.request once).opcode)
    (hcall : ev_operation interrupted outcome io = some io') :
    io'.toIo = Watch.ev_operation interrupted (outcome.sys io.len) id io.toIo := by
  have hconnect : io.opcode ≠ .connect := hop ▸ (fn_opcode fn once .complete).1
  have hcalls := system_calls_eq interrupted hconnect
  rw [Watch.ev_operation, hcalls]
  rw [ev_operation] at hcall
  split_ifs at hcall with hassert
  cases outcome with
  | again =>
    cases hcall
    simp [Watch.ended, Outcome.sys, hconnect, ev_watch_update]
  | failed errno =>
    cases hcall
    simp [Watch.ended, Outcome.sys, hconnect, run_handler]
  | done k =>
    have hfill : Watch.op_update_and_check_completion io.opcode (if io.len = k then .complete else .incomplete) =
        if io.len = k then .complete else .incomplete := by
      rw [hop]
      refine (fn_opcode fn once _).2 ?_
      split_ifs
      · exact .inl rfl
      · exact .inr rfl
    dsimp only at hcall
    split_ifs at hcall with hgoes
    · simp only [Watch.ended, Outcome.sys, hconnect, false_and, if_false, hgoes, if_true, ne_eq, not_false_eq_true, and_self, hfill]
      simp only [op_update_and_check_completion] at hcall
      split_ifs at hcall with hpos
      by_cases hdone : io.len = k
      · rw [decide_eq_true (sub_eq_zero.2 hdone)] at hcall
        cases hcall
        simp [hdone, run_handler, hgoes.2]
      · rw [decide_eq_false fun heq => hdone (sub_eq_zero.1 heq)] at hcall
        cases hcall
        simp [hdone, ev_watch_update, hgoes.2]
    · cases hcall
      simp only [Watch.ended, Outcome.sys, hconnect, false_and, if_false, hgoes]
      rfl

/-! ## Runs -/

theorem ready_new (fn : Fn) (once : Bool) (prior : Io) (base : ℕ) {n : ℕ} (hn : 0 < n) (herror_handler : prior.error_handler = false) :
    Ready fn once base n []
      { prior with result := 0, error := 0, opcode := (fn.request once).opcode, buf := base, len := n,
                   op_repeat_to_completion := (fn.request once).whole, calls := [], runs := [] } where
  opcode := rfl
  whole := request_whole fn once
  error_handler := herror_handler
  result := rfl
  error := rfl
  buf := rfl
  len := by simp [moved]
  left := hn
  calls := rfl
  runs := rfl

/-- the watcher's state is not read before a call -/
theorem Ready.event (h : Ready fn once base n outcomes io) : Ready fn once base n outcomes { io with watch_type := .none } :=
  ⟨h.opcode, h.whole, h.error_handler, h.result, h.error, h.buf, h.len, h.left, h.calls, h.runs⟩

/-- the four functions have an event to wait for -/
theorem match_some (fn : Fn) (once : Bool) (flags : Flags) :
    ∃ ok, Watch.ev_opcode_retry_match_event_type (fn.request once).opcode flags = some ok := by
  cases fn <;> exact ⟨_, rfl⟩

theorem handler_retry {flags : Flags} {ok : Bool} (hwatch : io.watch_type = .op_retry)
    (hok : Watch.ev_opcode_retry_match_event_type io.opcode flags = some ok) :
    ev_watcher_handler flags interrupted outcome io =
      if ok then ev_operation interrupted outcome { io with watch_type := .none } else some io := by
  simp [ev_watcher_handler, hwatch, hok]

/-- an io that waits has an answer to every event -/
theorem Ready.answers (h : Ready fn once base n outcomes io) (hwatch : io.watch_type = .op_retry) (flags : Flags)
    (interrupted : ℕ) (outcome : Outcome) (hfits : (outcome.count : ℤ) ≤ io.len) :
    ev_watcher_handler flags interrupted outcome io ≠ none := by
  obtain ⟨ok, hok⟩ := match_some fn once flags
  rw [← h.opcode] at hok
  rw [handler_retry hwatch hok]
  cases ok with
  | false => simp
  | true =>
    obtain ⟨io', hcall, -⟩ := operation_spec interrupted h.event hfits
    rw [if_pos rfl, hcall]
    exact Option.some_ne_none io'

theorem waiting_driven (h : Ready fn once base n ((interrupted, outcome) :: outcomes) io) (hwatch : io.watch_type = .op_retry)
    (hactive : io.active = true) (htold : told once n (moved outcomes + outcome.count) outcome = none) :
    Driven once prior base n ((interrupted, outcome) :: outcomes) io where
  asked := h.calls
  fits := h.left.le
  once := by
    rw [h.runs]
    show [] = (told once n (moved outcomes + outcome.count) outcome).toList
    rw [htold]
    rfl
  waits _ := ⟨hwatch, hactive, h.answers hwatch⟩
  quiet hruns := absurd h.runs hruns

theorem told_driven {io' : Io} {r : ℤ × ℕ} (h : Told base n ((interrupted, outcome) :: outcomes) r io io')
    (hfits : moved outcomes + outcome.count ≤ n) (htold : told once n (moved outcomes + outcome.count) outcome = some r)
    (hquiet : prior.watch_type = .none → io.watch_type = .none) :
    Driven once prior base n ((interrupted, outcome) :: outcomes) io' where
  asked := h.calls
  fits := hfits
  once := by
    rw [h.runs]
    show [r] = (told once n (moved outcomes + outcome.count) outcome).toList
    rw [htold]
    rfl
  waits hruns := by
    rw [h.runs] at hruns
    cases hruns
  quiet _ hprior := by
    rw [h.watch_type, h.active, hquiet hprior]
    exact ⟨rfl, rfl⟩

/-- a call makes a state of the run -/
theorem call_driven {io' : Io} (h : Ready fn once base n outcomes io) (hfits : (outcome.count : ℤ) ≤ io.len)
    (hcall : ev_operation interrupted outcome io = some io') (hquiet : prior.watch_type = .none → io.watch_type = .none) :
    Driven once prior base n ((interrupted, outcome) :: outcomes) io' ∧
      (io'.runs = [] → Ready fn once base n ((interrupted, outcome) :: outcomes) io') := by
  obtain ⟨u, hu, hcases⟩ := operation_spec interrupted h hfits
  rw [hcall] at hu
  cases hu
  have hlen := h.len
  rcases hcases with ⟨htold, rfl, hleft⟩ | ⟨r, htold, hr⟩
  · have hnext := h.next interrupted hleft
    exact ⟨waiting_driven hnext rfl rfl htold, fun _ => hnext⟩
  · refine ⟨told_driven hr (by omega) htold hquiet, fun hruns => ?_⟩
    rw [hr.runs] at hruns
    cases hruns

/-- a state of a run, and what the next call can rely on -/
theorem run_driven (hn : 0 < n) (herror_handler : prior.error_handler = false) (h : Run fn once prior base n outcomes io) :
    Driven once prior base n outcomes io ∧ (io.runs = [] → Ready fn once base n outcomes io) := by
  induction h with
  | start fits returns =>
    exact call_driven (ready_new fn once prior base hn herror_handler) (by simpa using fits) returns fun hprior => hprior
  | ready run live active matching fits returns ih =>
    obtain ⟨hdriven, hready⟩ := ih
    rw [handler_retry (hdriven.waits live).1 matching, if_pos rfl] at returns
    exact call_driven (hready live).event fits returns fun _ => rfl
  | other run live active matching returns ih =>
    rw [handler_retry (ih.1.waits live).1 matching] at returns
    cases returns
    exact ih

/-- **The driver**: an operation is started, and every state of it is as claimed. -/
theorem driven (fn : Fn) (once : Bool) (prior : Io) (base n : ℕ) (hn : 0 < n) (herror_handler : prior.error_handler = false) :
    (∀ interrupted outcome, outcome.count ≤ n → op_run_new (fn.request once) base n interrupted outcome prior ≠ none) ∧
      ∀ outcomes io, Run fn once prior base n outcomes io → Driven once prior base n outcomes io := by
  refine ⟨fun interrupted outcome hfits => ?_, fun outcomes io hrun => (run_driven hn herror_handler hrun).1⟩
  have hready := ready_new fn once prior base hn herror_handler
  have hfits : (outcome.count : ℤ) ≤ n := by simpa using hfits
  obtain ⟨io, hcall, -⟩ := operation_spec interrupted hready hfits
  rw [op_run_new, hcall]
  exact Option.some_ne_none io

/-- an io that nothing was done with -/
def idle : Io := ⟨Watch.init 5, 0, 0, 0, [], []⟩

/-- three bytes are read as two and one: one call is interrupted, and one would block -/
theorem driven_read :
    ∃ io, Run .read false idle 100 3 [(0, .done 1), (0, .again), (1, .done 2)] io ∧
      io.calls = [(100, 3), (100, 3), (102, 1), (102, 1)] ∧ io.runs = [(3, 0)] ∧
      Driven false idle 100 3 [(0, .done 1), (0, .again), (1, .done 2)] io := by
  have hrun : ∃ io, Run .read false idle 100 3 [(0, .done 1), (0, .again), (1, .done 2)] io ∧
      io.calls = [(100, 3), (100, 3), (102, 1), (102, 1)] ∧ io.runs = [(3, 0)] := by
    have hmatch : Watch.ev_opcode_retry_match_event_type .read ⟨true, false⟩ = some true := rfl
    exact ⟨_, ((Run.start (by decide) rfl).ready rfl rfl hmatch (by decide) rfl).ready rfl rfl hmatch (by decide) rfl, rfl, rfl⟩
  obtain ⟨io, hrun, hcalls, hruns⟩ := hrun
  exact ⟨io, hrun, hcalls, hruns, (driven .read false idle 100 3 (by decide) rfl).2 _ io hrun⟩

end Shuttlesock.Transfer
