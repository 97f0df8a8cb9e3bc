/-
Sending to a process (`ipc.c`): `shuso_ipc_send` with the proxy through the manager, and `shuso_ipc_send_workers`.

Model: one call at a time. `outbox` is the outbox of each process, `ring` what was released in the ring of each process and not read
yet; `Outbox.lean` and `Ring.lean` have their steps one by one. What a send meets is part of the input (`Env`): the states it loads,
whether `ipc_reserve_write_index` gets an index, and what `malloc` and the slab return.
- `proxies`: the records `shuso_ipc_manager_proxy_msg_t` that are allocated.
- history: `taken` and `freed` list the records taken from the slab and given back, `tried` the destinations of all calls of
  `shuso_ipc_send` so far.
- not in the model: the notices to the receivers, the timer of the outbox.

Results:
- `spread_iff`: `shuso_ipc_send_workers` does what a send to each worker does, and says whether all succeeded, exactly when every
  worker but the last one accepts.
- `not_spread`: the first of two workers has stopped.
-/
import Mathlib.Tactic
import Shuttlesock.Ipc.Outbox

namespace Shuttlesock.Send

open Shuttlesock.Outbox (Runstate)

/-! ## Model -/

def SHUTTLESOCK_UNKNOWN_PROCESS : ℤ := -404
def SHUTTLESOCK_NOPROCESS : ℤ := -3
def SHUTTLESOCK_MASTER : ℤ := -2
def SHUTTLESOCK_MANAGER : ℤ := -1
def SHUTTLESOCK_WORKER : ℤ := 0

def SHUTTLESOCK_IPC_CMD_SHUTDOWN : ℕ := 2
def SHUTTLESOCK_IPC_CMD_MANAGER_PROXY_MESSAGE : ℕ := 11
def SHUTTLESOCK_IPC_CMD_RECEIVE_PROXIED_MESSAGE : ℕ := 12

structure Msg where
  code : ℕ
  ptr : ℕ
deriving DecidableEq

/-- `shuso_ipc_manager_proxy_msg_t` -/
structure Proxy where
  code : ℕ
  src : ℤ
  dst : ℤ
  pd : ℕ
deriving DecidableEq

structure State where
  /-- first to last, each with its destination -/
  outbox : ℤ → List (ℤ × Msg)
  ring : ℤ → List Msg
  proxies : ℕ → Option Proxy
  taken : List ℕ
  freed : List ℕ
  /-- the last error of each process -/
  error : ℤ → Option String
  tried : List ℤ

/-- what one `shuso_ipc_send` meets -/
structure Env where
  dst_state : Runstate
  manager_state : Runstate
  /-- `ipc_reserve_write_index` -/
  reserved : Bool
  /-- `malloc` -/
  memory : Bool
  /-- the slab, none for NULL -/
  record : Option ℕ

def shuso_process_as_string (procnum : ℤ) : String :=
  if procnum = SHUTTLESOCK_UNKNOWN_PROCESS then "unknown"
  else if procnum = SHUTTLESOCK_NOPROCESS then "no_process"
  else if procnum = SHUTTLESOCK_MASTER then "master"
  else if procnum = SHUTTLESOCK_MANAGER then "manager"
  else if SHUTTLESOCK_WORKER ≤ procnum then "worker"
  else "???"

def shuso_runstate_as_string : Runstate → String
  | .dead => "SHUSO_STATE_DEAD"
  | .stopped => "SHUSO_STATE_STOPPED"
  | .misconfigured => "SHUSO_STATE_MISCONFIGURED"
  | .configuring => "SHUSO_STATE_CONFIGURING"
  | .configured => "SHUSO_STATE_CONFIGURED"
  | .nil => "SHUSO_STATE_NIL"
  | .starting => "SHUSO_STATE_STARTING"
  | .running => "SHUSO_STATE_RUNNING"
  | .stopping => "SHUSO_STATE_STOPPING"

/-- `shuso_set_error`, which returns false -/
def shuso_set_error (s : State) (p : ℤ) (text : String) : State × Bool :=
  ({ s with error := Function.update s.error p (some text) }, false)

def ipc_send_direct (s : State) (dst : ℤ) (m : Msg) (e : Env) : State × Bool :=
  if e.reserved then ({ s with ring := Function.update s.ring dst (s.ring dst ++ [m]) }, true) else (s, false)

def ipc_send_outbuf_append (s : State) (src dst : ℤ) (m : Msg) (e : Env) : State × Bool :=
  if e.memory then ({ s with outbox := Function.update s.outbox src (s.outbox src ++ [(dst, m)]) }, true) else (s, false)

/-- master and worker -/
def Apart (src dst : ℤ) : Prop :=
  src = SHUTTLESOCK_MASTER ∧ SHUTTLESOCK_WORKER ≤ dst ∨ SHUTTLESOCK_WORKER ≤ src ∧ dst = SHUTTLESOCK_MASTER

instance (src dst : ℤ) : Decidable (Apart src dst) := by
  unfold Apart
  infer_instance

/-- the error of a destination that is not there -/
def not_started (dst : ℤ) (dst_state : Runstate) : String :=
  if SHUTTLESOCK_WORKER ≤ dst then
    s!"tried sending IPC message to worker {dst} with state {shuso_runstate_as_string dst_state}"
  else s!"tried sending IPC message to {shuso_process_as_string dst} with state {shuso_runstate_as_string dst_state}"

/-- `shuso_ipc_send` to a process that is not apart -/
def ipc_send_near (s : State) (src dst : ℤ) (m : Msg) (dst_state : Runstate) (e : Env) : State × Bool :=
  let s := { s with tried := s.tried ++ [dst] }
  if dst_state.toInt < Runstate.starting.toInt then shuso_set_error s src (not_started dst dst_state)
  else if s.outbox src ≠ [] ∨ dst_state = .starting then ipc_send_outbuf_append s src dst m e
  else
    let r := ipc_send_direct s dst m e
    if r.2 then r else ipc_send_outbuf_append s src dst m e

def shuso_ipc_send_proxy_via_manager (s : State) (src dst : ℤ) (m : Msg) (e : Env) : State × Bool :=
  match e.record with
  | none => shuso_set_error s src "unable to allocate shared memory for IPC proxy message"
  | some d =>
    let s := { s with
      proxies := Function.update s.proxies d (some ⟨m.code, src, dst, m.ptr⟩)
      taken := s.taken ++ [d] }
    ipc_send_near s src SHUTTLESOCK_MANAGER ⟨SHUTTLESOCK_IPC_CMD_MANAGER_PROXY_MESSAGE, d⟩ e.manager_state e

def shuso_ipc_send (s : State) (src dst : ℤ) (m : Msg) (e : Env) : State × Bool :=
  if Apart src dst then
    let s := { s with tried := s.tried ++ [dst] }
    if e.dst_state.toInt < Runstate.starting.toInt then shuso_set_error s src (not_started dst e.dst_state)
    else shuso_ipc_send_proxy_via_manager s src dst m e
  else ipc_send_near s src dst m e.dst_state e

/-- the loop of `shuso_ipc_send_workers`: `ret = ret && shuso_ipc_send(..)` -/
def send_loop (src : ℤ) (m : Msg) (env : ℕ → Env) : State → Bool → List ℕ → State × Bool
  | s, ret, [] => (s, ret)
  | s, ret, i :: is =>
    let r := if ret then shuso_ipc_send s src i m (env i) else (s, false)
    send_loop src m env r.1 r.2 is

/-- the workers from workers_start up to workers_end -/
def workers (workers_start workers_end : ℕ) : List ℕ := List.range' workers_start (workers_end - workers_start)

def shuso_ipc_send_workers (s : State) (src : ℤ) (workers_start workers_end : ℕ) (m : Msg) (env : ℕ → Env) : State × Bool :=
  send_loop src m env s true (workers workers_start workers_end)

/-! ## All workers -/

/-- a send to each of them, whether the others fail or not -/
def send_each (src : ℤ) (m : Msg) (env : ℕ → Env) : State → List ℕ → State × List Bool
  | s, [] => (s, [])
  | s, i :: is =>
    let r := shuso_ipc_send s src i m (env i)
    let rest := send_each src m env r.1 is
    (rest.1, r.2 :: rest.2)

/-- the sends to the workers one by one: whether they succeed -/
def sends (s : State) (src : ℤ) (workers_start workers_end : ℕ) (m : Msg) (env : ℕ → Env) : State × List Bool :=
  send_each src m env s (workers workers_start workers_end)

/-- **The claim**: every worker is sent to, and the result is true if and only if all sends succeed. -/
def Spread (s : State) (src : ℤ) (workers_start workers_end : ℕ) (m : Msg) (env : ℕ → Env) : Prop :=
  (shuso_ipc_send_workers s src workers_start workers_end m env).1 = (sends s src workers_start workers_end m env).1 ∧
    ((shuso_ipc_send_workers s src workers_start workers_end m env).2 = true ↔
      ∀ ok ∈ (sends s src workers_start workers_end m env).2, ok = true)

/-! ### Every send is recorded -/

variable {s : State} {src dst : ℤ} {m : Msg}

@[simp] theorem error_tried (p : ℤ) (text : String) : (shuso_set_error s p text).1.tried = s.tried := rfl

theorem direct_tried (e : Env) : (ipc_send_direct s dst m e).1.tried = s.tried := by
  unfold ipc_send_direct
  split <;> rfl

theorem append_tried (e : Env) : (ipc_send_outbuf_append s src dst m e).1.tried = s.tried := by
  unfold ipc_send_outbuf_append
  split <;> rfl

theorem near_tried (dst_state : Runstate) (e : Env) :
    (ipc_send_near s src dst m dst_state e).1.tried = s.tried ++ [dst] := by
  unfold ipc_send_near
  dsimp only
  split_ifs
  · rfl
  · exact append_tried e
  · exact direct_tried e
  · exact append_tried e

theorem proxy_tried (e : Env) : s.tried.length ≤ (shuso_ipc_send_proxy_via_manager s src dst m e).1.tried.length := by
  unfold shuso_ipc_send_proxy_via_manager
  split
  · exact le_refl _
  · simp [near_tried]

theorem send_tried (s : State) (src dst : ℤ) (m : Msg) (e : Env) :
    s.tried.length < (shuso_ipc_send s src dst m e).1.tried.length := by
  unfold shuso_ipc_send
  split_ifs with h1 h2
  · simp
  · apply lt_of_lt_of_le _ (proxy_tried e)
    simp
  · simp [near_tried]

theorem each_tried (src : ℤ) (m : Msg) (env : ℕ → Env) (is : List ℕ) (s : State) :
    s.tried.length + is.length ≤ (send_each src m env s is).1.tried.length := by
  induction is generalizing s with
  | nil => exact le_refl _
  | cons i is ih =>
    have h1 := send_tried s src i m (env i)
    have h2 := ih (shuso_ipc_send s src i m (env i)).1
    simp only [send_each, List.length_cons]
    omega

/-! ### The loop -/

/-- once ret is false nothing is sent -/
theorem loop_false (env : ℕ → Env) (s : State) (is : List ℕ) : send_loop src m env s false is = (s, false) := by
  induction is with
  | nil => rfl
  | cons i is ih => simpa [send_loop] using ih

/-- as long as no send but the last one fails, the loop sends to each -/
theorem loop_of_ok (env : ℕ → Env) (is : List ℕ) (s : State)
    (h : ∀ ok ∈ (send_each src m env s is).2.dropLast, ok = true) :
    send_loop src m env s true is = ((send_each src m env s is).1, (send_each src m env s is).2.all id) := by
  induction is generalizing s with
  | nil => rfl
  | cons i is ih =>
    simp only [send_loop, send_each, if_true, List.all_cons, id] at h ⊢
    cases is with
    | nil => simp [send_loop, send_each]
    | cons j js =>
      rw [List.dropLast_cons_of_ne_nil (by simp [send_each])] at h
      have h1 : (shuso_ipc_send s src i m (env i)).2 = true := h _ List.mem_cons_self
      have h2 := ih _ fun ok hok => h ok (List.mem_cons_of_mem _ hok)
      rw [h1, h2, Bool.true_and]

/-- where another send fails, the loop sends less -/
theorem loop_short (env : ℕ → Env) (is : List ℕ) (s : State)
    (h : ¬∀ ok ∈ (send_each src m env s is).2.dropLast, ok = true) :
    (send_loop src m env s true is).1.tried.length < (send_each src m env s is).1.tried.length := by
  induction is generalizing s with
  | nil => exact absurd (by simp [send_each]) h
  | cons i is ih =>
    simp only [send_loop, send_each, if_true] at h ⊢
    cases hr : (shuso_ipc_send s src i m (env i)).2 with
    | true =>
      apply ih
      intro hall
      apply h
      intro ok hok
      cases is with
      | nil => simp [send_each] at hok
      | cons j js =>
        rw [List.dropLast_cons_of_ne_nil (by simp [send_each]), hr] at hok
        rcases List.mem_cons.1 hok with rfl | hok
        · rfl
        · exact hall ok hok
    | false =>
      -- a worker is left, which the loop does not reach
      have hne : is ≠ [] := by
        intro hnil
        subst hnil
        simp [send_each] at h
      have h1 := each_tried src m env is (shuso_ipc_send s src i m (env i)).1
      have h2 := List.length_pos_iff.2 hne
      simp only [loop_false]
      omega

/-! ### Which sends fail -/

/-- whether a process in `dst_state` is sent to, with or without messages in the outbox -/
def takes (queued : Bool) (dst_state : Runstate) (e : Env) : Bool :=
  decide (Runstate.starting.toInt ≤ dst_state.toInt) &&
    (e.memory || !queued && !decide (dst_state = .starting) && e.reserved)

/-- whether there are messages in the outbox after it -/
def left_queued (queued : Bool) (dst_state : Runstate) (e : Env) : Bool :=
  queued || takes queued dst_state e && (decide (dst_state = .starting) || !e.reserved)

/-- `takes` for either route -/
def accepts (queued : Bool) (src dst : ℤ) (e : Env) : Bool :=
  if Apart src dst then
    decide (Runstate.starting.toInt ≤ e.dst_state.toInt) && e.record.isSome && takes queued e.manager_state e
  else takes queued e.dst_state e

/-- `left_queued` for either route -/
def queued_after (queued : Bool) (src dst : ℤ) (e : Env) : Bool :=
  if Apart src dst then
    if Runstate.starting.toInt ≤ e.dst_state.toInt ∧ e.record.isSome then left_queued queued e.manager_state e else queued
  else left_queued queued e.dst_state e

/-- every worker but the last one accepts -/
def AllButLast (src : ℤ) (env : ℕ → Env) : Bool → List ℕ → Prop
  | _, [] => True
  | queued, i :: is =>
    is = [] ∨ accepts queued src i (env i) = true ∧ AllButLast src env (queued_after queued src i (env i)) is

/-- messages in the outbox -/
def queued (s : State) (src : ℤ) : Bool := !(s.outbox src).isEmpty

theorem queued_iff : queued s src = true ↔ s.outbox src ≠ [] := by simp [queued]

theorem append_ok (s : State) (src dst : ℤ) (m : Msg) (e : Env) :
    (ipc_send_outbuf_append s src dst m e).2 = e.memory ∧
      queued (ipc_send_outbuf_append s src dst m e).1 src = (queued s src || e.memory) := by
  unfold ipc_send_outbuf_append
  split
  · next h => simp [h, queued]
  · next h => simp [h, queued]

theorem direct_ok (s : State) (src dst : ℤ) (m : Msg) (e : Env) :
    (ipc_send_direct s dst m e).2 = e.reserved ∧ queued (ipc_send_direct s dst m e).1 src = queued s src := by
  unfold ipc_send_direct
  split
  · next h => simp [h, queued]
  · next h => simp [h]

theorem near_ok (s : State) (src dst : ℤ) (m : Msg) (dst_state : Runstate) (e : Env) :
    (ipc_send_near s src dst m dst_state e).2 = takes (queued s src) dst_state e ∧
      queued (ipc_send_near s src dst m dst_state e).1 src = left_queued (queued s src) dst_state e := by
  unfold ipc_send_near
  dsimp only
  have happend := append_ok { s with tried := s.tried ++ [dst] } src dst m e
  have hdirect := direct_ok { s with tried := s.tried ++ [dst] } src dst m e
  have hs : queued { s with tried := s.tried ++ [dst] } src = queued s src := rfl
  split_ifs with h1 h2 h3
  · have h : takes (queued s src) dst_state e = false := by simp [takes, h1]
    rw [left_queued, h, Bool.false_and, Bool.or_false]
    exact ⟨rfl, rfl⟩
  · have hq : queued s src = true ∨ dst_state = .starting := h2.imp_left queued_iff.2
    rw [happend.1, happend.2, hs]
    rcases hq with hq | hq <;> cases hm : e.memory <;> simp [takes, left_queued, hq, hm, not_lt.1 h1]
  all_goals
    have hq : queued s src = false := by
      cases hq : queued s src with
      | true => exact absurd (.inl (queued_iff.1 hq)) h2
      | false => rfl
    have hst : dst_state ≠ .starting := fun h => h2 (.inr h)
  · rw [hdirect.1] at h3
    rw [hdirect.1, hdirect.2, hs]
    simp [takes, left_queued, hq, hst, h3, not_lt.1 h1]
  · rw [hdirect.1] at h3
    rw [happend.1, happend.2, hs]
    simp [takes, left_queued, hq, hst, h3, not_lt.1 h1]

theorem send_ok (s : State) (src dst : ℤ) (m : Msg) (e : Env) :
    (shuso_ipc_send s src dst m e).2 = accepts (queued s src) src dst e ∧
      queued (shuso_ipc_send s src dst m e).1 src = queued_after (queued s src) src dst e := by
  unfold shuso_ipc_send accepts queued_after
  split_ifs with h1 h2 h3 h3
  · exact absurd h3.1 (not_le.2 h2)
  · simp [shuso_set_error, h2, queued]
  · obtain ⟨d, hd⟩ := Option.isSome_iff_exists.1 h3.2
    have h := near_ok { s with
      tried := s.tried ++ [dst]
      proxies := Function.update s.proxies d (some ⟨m.code, src, dst, m.ptr⟩)
      taken := s.taken ++ [d] } src SHUTTLESOCK_MANAGER
      ⟨SHUTTLESOCK_IPC_CMD_MANAGER_PROXY_MESSAGE, d⟩ e.manager_state e
    have hq (f : ℕ → Option Proxy) (l : List ℕ) (t : List ℤ) :
        queued { s with tried := t, proxies := f, taken := l } src = queued s src := rfl
    rw [hq] at h
    simpa [shuso_ipc_send_proxy_via_manager, hd, h3.1] using h
  · have hd : e.record = none := by
      cases hr : e.record with
      | none => rfl
      | some d => exact absurd ⟨not_lt.1 h2, by simp [hr]⟩ h3
    simp [shuso_ipc_send_proxy_via_manager, hd, shuso_set_error, queued]
  · exact near_ok s src dst m e.dst_state e

theorem each_ok (m : Msg) (env : ℕ → Env) (is : List ℕ) (s : State) :
    (∀ ok ∈ (send_each src m env s is).2.dropLast, ok = true) ↔ AllButLast src env (queued s src) is := by
  induction is generalizing s with
  | nil => simp [send_each, AllButLast]
  | cons i is ih =>
    obtain ⟨hok, hq⟩ := send_ok s src i m (env i)
    cases is with
    | nil => simp [send_each, AllButLast]
    | cons j js =>
      have h := ih (shuso_ipc_send s src i m (env i)).1
      rw [hq] at h
      rw [AllButLast, ← h, ← hok, send_each, List.dropLast_cons_of_ne_nil (by simp [send_each])]
      simp

/-- **Exactly when all workers are sent to.** `shuso_ipc_send_workers` leaves the state that a send to each worker leaves, and says
whether all of them succeeded, if and only if every worker but the last one accepts. -/
theorem spread_iff (s : State) (src : ℤ) (workers_start workers_end : ℕ) (m : Msg) (env : ℕ → Env) :
    Spread s src workers_start workers_end m env ↔
      AllButLast src env (queued s src) (workers workers_start workers_end) := by
  rw [← each_ok m env (workers workers_start workers_end) s]
  constructor
  · intro h
    by_contra hbad
    have hlt := loop_short env (workers workers_start workers_end) s hbad
    have heq := congrArg (fun t => t.tried.length) h.1
    exact absurd heq (ne_of_lt hlt)
  · intro h
    have heq := loop_of_ok env (workers workers_start workers_end) s h
    refine ⟨congrArg Prod.fst heq, ?_⟩
    rw [shuso_ipc_send_workers, heq]
    simp [sends]

/-! ### The first of two workers has stopped -/

def idle : State := ⟨fun _ => [], fun _ => [], fun _ => none, [], [], fun _ => none, []⟩

/-- worker 0 has stopped, the other one runs -/
def one_stopped (i : ℕ) : Env :=
  { dst_state := if i = 0 then .stopped else .running, manager_state := .running, reserved := true, memory := true, record := none }

/-- **The second worker is not told to shut down**, although a send to it would succeed. -/
theorem not_spread :
    ¬Spread idle SHUTTLESOCK_MANAGER 0 2 ⟨SHUTTLESOCK_IPC_CMD_SHUTDOWN, 1⟩ one_stopped ∧
      (sends idle SHUTTLESOCK_MANAGER 0 2 ⟨SHUTTLESOCK_IPC_CMD_SHUTDOWN, 1⟩ one_stopped).2 = [false, true] ∧
      (shuso_ipc_send_workers idle SHUTTLESOCK_MANAGER 0 2 ⟨SHUTTLESOCK_IPC_CMD_SHUTDOWN, 1⟩ one_stopped).1.ring 1 = [] := by
  have h2 : (sends idle SHUTTLESOCK_MANAGER 0 2 ⟨SHUTTLESOCK_IPC_CMD_SHUTDOWN, 1⟩ one_stopped).2 = [false, true] := by decide
  refine ⟨?_, h2, by decide⟩
  rintro ⟨hstate, -⟩
  have hring := congrArg (fun t => (t.ring 1).length) hstate
  revert hring
  decide

end Shuttlesock.Send
