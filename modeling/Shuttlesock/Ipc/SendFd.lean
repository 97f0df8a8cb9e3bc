/-
Sending file descriptors to a process: `shuso_ipc_send_fd` and the coroutine `ipc_send_fd_coroutine` (`ipc.c`), which sends the
messages of a buffer one after the other through the io of one destination.

Model: one destination. A message is named by the number of its call, and its link in the buffer too.
- One action is a call, or a writability event of the socket. Until the coroutine returns, `sendmsg` succeeds for `room`
  messages, and would block then. It fails in no other way, and sends whole messages.
- `yielded`: `io->handler_stage` is behind the `sendmsg` of the loop.
- `watch_type`: `SHUSO_IO_WATCH_OP_RETRY`, for which the watcher is active, or `SHUSO_IO_WATCH_NONE`.
- `log`: the successful calls of `sendmsg`, with their message, and the links that were dequeued and freed.

Results:
- `send_loop`: what one run of the coroutine sends.
- `sent_of_ok`: in a run where no call is made while a `sendmsg` is blocked, all messages so far were sent once, in order and
  before they were freed, the others are watched, and one event with room for them sends them.
- `lost_of_blocked`: a call while a `sendmsg` is blocked frees a message that was not sent.
- `lost`: a run with two calls.
-/
import Mathlib.Tactic
import Shuttlesock.Core.Runs

namespace Shuttlesock.SendFd

open Runs

/-! ## The model -/

inductive WatchType where
  | none | op_retry
deriving DecidableEq

inductive Event where
  | sent (msg : Option ℕ)
  | freed (link : ℕ)
deriving DecidableEq

structure State where
  fd_msg_buf : List ℕ
  /-- how many calls there were -/
  made : ℕ
  yielded : Bool
  /-- `io->msg`; none is NULL -/
  msg : Option ℕ
  watch_type : WatchType
  log : List Event
deriving DecidableEq

def init : State := ⟨[], 0, false, none, .none, []⟩

inductive Action where
  /-- `shuso_ipc_send_fd` -/
  | send_fd (room : ℕ)
  /-- the socket is writable -/
  | writable (room : ℕ)

/-- `shuso_buffer_free` of `shuso_buffer_dequeue` -/
def free_dequeued (s : State) : Option State :=
  match s.fd_msg_buf with
  | [] => none  -- assert(buf->first != link)
  | link :: rest => some { s with fd_msg_buf := rest, log := s.log ++ [.freed link] }

/-- the loop of `ipc_send_fd_coroutine`; a `sendmsg` that succeeds runs the handler again -/
def ipc_send_fd_loop : ℕ → State → Option State
  | 0, s =>
    match s.fd_msg_buf with
    | [] => some { s with yielded := false }
    | link :: _ => some { s with yielded := true, msg := some link, watch_type := .op_retry }
  | room + 1, s =>
    match s.fd_msg_buf with
    | [] => some { s with yielded := false }
    | link :: _ =>
      (free_dequeued { s with yielded := true, msg := some link, log := s.log ++ [.sent (some link)] }).bind
        (ipc_send_fd_loop room)

def ipc_send_fd_coroutine (room : ℕ) (s : State) : Option State :=
  if s.yielded then (free_dequeued s).bind (ipc_send_fd_loop room) else ipc_send_fd_loop room s

/-- `shuso_io_resume_buf` with NULL; `io->buf` is `io->msg` -/
def shuso_io_resume (room : ℕ) (s : State) : Option State := ipc_send_fd_coroutine room { s with msg := none }

def shuso_ipc_send_fd (room : ℕ) (s : State) : Option State :=
  shuso_io_resume room { s with fd_msg_buf := s.fd_msg_buf ++ [s.made], made := s.made + 1 }

/-- `shuso_io_ev_watcher_handler`, and `shuso_io_ev_operation` for `SHUSO_IO_OP_SENDMSG` -/
def shuso_io_ev_watcher_handler (room : ℕ) (s : State) : Option State :=
  match room with
  | 0 => some { s with watch_type := .op_retry }
  | room + 1 => ipc_send_fd_coroutine room { s with watch_type := .none, log := s.log ++ [.sent s.msg] }

def step (s : State) : Action → Option State
  | .send_fd room => shuso_ipc_send_fd room s
  | .writable room => if s.watch_type = .op_retry then shuso_io_ev_watcher_handler room s else none

/-- **The condition**: the coroutine is not suspended in a `sendmsg` that would block -/
def Ok (s : State) : Action → Prop
  | .send_fd _ => s.yielded = false
  | .writable _ => True

instance (s : State) : (a : Action) → Decidable (Ok s a)
  | .send_fd _ => inferInstanceAs (Decidable (_ = _))
  | .writable _ => isTrue trivial

/-- the first k messages are sent and freed -/
def told (k : ℕ) : List Event := (List.range k).flatMap fun i => [.sent (some i), .freed i]

/-- **The property**: all but the messages in the buffer were sent once, in order, before they were freed; and those in the
buffer are not left without a watcher -/
structure Sent (s : State) : Prop where
  order : ∃ k ≤ s.made, s.log = told k ∧ s.fd_msg_buf = List.range' k (s.made - k)
  watched : s.fd_msg_buf ≠ [] → s.watch_type = .op_retry

/-! ## The coroutine -/

theorem told_succ (k : ℕ) : told (k + 1) = told k ++ [.sent (some k), .freed k] := by
  unfold told
  rw [List.range_succ, List.flatMap_append]
  rfl

/-- k messages are sent, and n are in the buffer; the coroutine is at its start, or blocked -/
structure At (k n : ℕ) (s : State) : Prop where
  made : s.made = k + n
  log : s.log = told k
  buf : s.fd_msg_buf = List.range' k n
  start : n = 0 → s.yielded = false ∧ s.watch_type = .none
  blocked : n ≠ 0 → s.yielded = true ∧ s.watch_type = .op_retry ∧ s.msg = some k

/-- the first message of the buffer is freed after it was sent -/
theorem free_sent {k n : ℕ} {s : State} (hbuf : s.fd_msg_buf = List.range' k (n + 1))
    (hlog : s.log = told k ++ [.sent (some k)]) :
    free_dequeued s = some { s with fd_msg_buf := List.range' (k + 1) n, log := told (k + 1) } := by
  have htold : told (k + 1) = s.log ++ [.freed k] := by
    rw [told_succ, hlog, List.append_assoc]
    rfl
  unfold free_dequeued
  rw [hbuf, htold]
  rfl

/-- **A run of the coroutine** sends what there is room for. -/
theorem send_loop (room k n : ℕ) {s : State} (hmade : s.made = k + n) (hlog : s.log = told k)
    (hbuf : s.fd_msg_buf = List.range' k n) (hwatch : s.watch_type = .none) :
    ∃ t, ipc_send_fd_loop room s = some t ∧ t.made = s.made ∧ At (k + min room n) (n - room) t := by
  induction room generalizing k n s with
  | zero =>
    rw [Nat.zero_min, Nat.add_zero, Nat.sub_zero]
    cases n with
    | zero =>
      refine ⟨{ s with yielded := false }, ?_, rfl, hmade, hlog, hbuf, fun _ => ⟨rfl, hwatch⟩, fun h => absurd rfl h⟩
      unfold ipc_send_fd_loop
      rw [hbuf]
      rfl
    | succ n =>
      refine ⟨{ s with yielded := true, msg := some k, watch_type := .op_retry }, ?_, rfl, hmade, hlog, hbuf,
        fun h => absurd h (Nat.succ_ne_zero _), fun _ => ⟨rfl, rfl, rfl⟩⟩
      unfold ipc_send_fd_loop
      rw [hbuf]
      rfl
  | succ room ih =>
    cases n with
    | zero =>
      rw [Nat.min_zero, Nat.add_zero, Nat.zero_sub]
      refine ⟨{ s with yielded := false }, ?_, rfl, hmade, hlog, hbuf, fun _ => ⟨rfl, hwatch⟩, fun h => absurd rfl h⟩
      unfold ipc_send_fd_loop
      rw [hbuf]
      rfl
    | succ n =>
      -- the first message is sent and freed
      obtain ⟨t, ht, htmade, hat⟩ := ih (k + 1) n (s := { s with
          yielded := true, msg := some k, fd_msg_buf := List.range' (k + 1) n, log := told (k + 1) })
        (by rw [hmade]; omega) rfl rfl hwatch
      refine ⟨t, ?_, htmade, ?_⟩
      · have hfree : free_dequeued { s with yielded := true, msg := some k, log := s.log ++ [.sent (some k)] } = some _ :=
          free_sent hbuf (by rw [hlog])
        unfold ipc_send_fd_loop
        simp only [hbuf, List.range'_succ]
        rw [hbuf, List.range'_succ] at hfree
        rw [hfree, Option.bind_some]
        exact ht
      · rw [Nat.add_sub_add_right, Nat.add_min_add_right, ← Nat.add_assoc, Nat.add_right_comm]
        exact hat

/-! ## The steps -/

theorem at_init : At 0 0 init := ⟨rfl, rfl, rfl, fun _ => ⟨rfl, rfl⟩, fun h => absurd rfl h⟩

/-- a call while nothing is blocked -/
theorem At.send_fd {k n : ℕ} {s : State} (h : At k n s) (hidle : s.yielded = false) (room : ℕ) :
    ∃ t, shuso_ipc_send_fd room s = some t ∧ At (k + min room 1) (1 - room) t := by
  have hn : n = 0 := by
    by_contra hn
    rw [(h.blocked hn).1] at hidle
    cases hidle
  subst hn
  have hmade : s.made = k := h.made
  obtain ⟨t, ht, -, hat⟩ := send_loop room k 1
    (s := { s with fd_msg_buf := s.fd_msg_buf ++ [s.made], made := s.made + 1, msg := none })
    (by rw [hmade]) h.log (by rw [h.buf, hmade]; rfl) (h.start rfl).2
  have hnot : ¬ s.yielded = true := by
    rw [hidle]
    exact Bool.false_ne_true
  exact ⟨t, (if_neg hnot).trans ht, hat⟩

/-- the socket is writable again -/
theorem At.writable {k n : ℕ} {s : State} (h : At k n s) (hwatch : s.watch_type = .op_retry) (room : ℕ) :
    ∃ t, step s (.writable room) = some t ∧ t.made = s.made ∧ At (k + min room n) (n - room) t := by
  have hn : n ≠ 0 := by
    rintro rfl
    rw [(h.start rfl).2] at hwatch
    cases hwatch
  obtain ⟨n, rfl⟩ := Nat.exists_eq_succ_of_ne_zero hn
  obtain ⟨hyielded, -, hmsg⟩ := h.blocked hn
  rw [show step s (.writable room) = shuso_io_ev_watcher_handler room s from if_pos hwatch]
  cases room with
  | zero =>
    rw [Nat.zero_min, Nat.add_zero, Nat.sub_zero]
    exact ⟨_, rfl, rfl, h.made, h.log, h.buf, fun hzero => absurd hzero hn, fun _ => ⟨hyielded, rfl, hmsg⟩⟩
  | succ room =>
    -- the message that was blocked is sent, and freed when the coroutine goes on
    have hfree : free_dequeued { s with watch_type := .none, log := s.log ++ [.sent s.msg] } = some _ :=
      free_sent h.buf (by rw [h.log, hmsg])
    obtain ⟨t, ht, htmade, hat⟩ := send_loop room (k + 1) n
      (s := { s with watch_type := .none, fd_msg_buf := List.range' (k + 1) n, log := told (k + 1) })
      (by rw [h.made]; omega) rfl rfl rfl
    refine ⟨t, ?_, htmade, ?_⟩
    · have hresume : ipc_send_fd_coroutine room { s with watch_type := .none, log := s.log ++ [.sent s.msg] } =
          (free_dequeued { s with watch_type := .none, log := s.log ++ [.sent s.msg] }).bind (ipc_send_fd_loop room) :=
        if_pos hyielded
      rw [hfree, Option.bind_some, ht] at hresume
      exact hresume
    · rw [Nat.succ_sub_succ, Nat.succ_min_succ, ← Nat.add_one, ← Nat.add_assoc, Nat.add_right_comm]
      exact hat

/-- how far the messages are -/
def Inv (s : State) : Prop := ∃ k n, At k n s

theorem step_inv {s t : State} {a : Action} (h : Inv s) (hok : Ok s a) (hst : step s a = some t) : Inv t := by
  obtain ⟨k, n, hat⟩ := h
  cases a with
  | send_fd room =>
    obtain ⟨u, hu, hatu⟩ := hat.send_fd hok room
    rw [show step s (.send_fd room) = some u from hu] at hst
    cases hst
    exact ⟨_, _, hatu⟩
  | writable room =>
    obtain ⟨hwatch, -⟩ := Option.ite_none_right_eq_some.1 hst
    obtain ⟨u, hu, -, hatu⟩ := hat.writable hwatch room
    rw [hu] at hst
    cases hst
    exact ⟨_, _, hatu⟩

theorem At.sent {k n : ℕ} {s : State} (h : At k n s) : Sent s := by
  refine ⟨⟨k, ?_, h.log, ?_⟩, fun hbuf => ?_⟩
  · rw [h.made]
    exact Nat.le_add_right k n
  · rw [h.made, Nat.add_sub_cancel_left]
    exact h.buf
  · have hn : n ≠ 0 := by
      rintro rfl
      exact hbuf h.buf
    exact (h.blocked hn).2.1

/-- **The messages of every run** without a call while a `sendmsg` is blocked: sent once, in order, before they are freed; and
those that are left are sent when the socket has room for them. -/
theorem sent_of_ok (s : State) (h : Reach step Ok init s) : Sent s ∧
    (s.fd_msg_buf ≠ [] → ∃ t, step s (.writable s.fd_msg_buf.length) = some t ∧ t.fd_msg_buf = [] ∧
      t.log = told s.made) := by
  obtain ⟨k, n, hat⟩ : Inv s := h.inv ⟨0, 0, at_init⟩ fun _ _ _ hs hok hst => step_inv hs hok hst
  refine ⟨hat.sent, fun hbuf => ?_⟩
  have hlen : s.fd_msg_buf.length = n := by
    rw [hat.buf, List.length_range']
  obtain ⟨t, ht, -, hatt⟩ := hat.writable (hat.sent.watched hbuf) n
  rw [hlen]
  rw [Nat.sub_self, Nat.min_self] at hatt
  refine ⟨t, ht, hatt.buf, ?_⟩
  rw [hat.made]
  exact hatt.log

/-- three messages: one is sent at once, the next two when there is room again -/
theorem sent_three : ∃ s, Reach step Ok init s ∧ Sent s ∧ s.log = told 2 ∧ s.fd_msg_buf = [2] := by
  have hrun : (execIf step Ok init [.send_fd 3, .send_fd 0, .writable 1, .send_fd 0, .writable 0]).any fun s =>
      decide (s.log = told 2 ∧ s.fd_msg_buf = [2]) := by decide
  obtain ⟨s, hs, hlog⟩ := Option.any_eq_true _ _ |>.1 hrun
  have hreach := Reach.of_execIf .init hs
  exact ⟨s, hreach, (sent_of_ok s hreach).1, of_decide_eq_true hlog⟩

/-! ## A call while a message is blocked -/

/-- the loop is about the messages in the buffer -/
theorem loop_log {room : ℕ} {s t : State} (h : ipc_send_fd_loop room s = some t) :
    ∃ l, t.log = s.log ++ l ∧ ∀ i, .sent (some i) ∈ l → i ∈ s.fd_msg_buf := by
  induction room generalizing s with
  | zero =>
    have hlog : t.log = s.log := by
      unfold ipc_send_fd_loop at h
      split at h
      · cases h
        rfl
      · cases h
        rfl
    exact ⟨[], by rw [hlog, List.append_nil], fun i hi => by cases hi⟩
  | succ room ih =>
    unfold ipc_send_fd_loop at h
    split at h
    · cases h
      exact ⟨[], (List.append_nil _).symm, fun i hi => by cases hi⟩
    · rename_i link rest hbuf
      obtain ⟨u, hu, h⟩ := Option.bind_eq_some_iff.1 h
      unfold free_dequeued at hu
      simp only [hbuf] at hu
      cases hu
      obtain ⟨l, hl, hmem⟩ := ih h
      refine ⟨.sent (some link) :: .freed link :: l, ?_, fun i hi => ?_⟩
      · rw [hl, List.append_assoc, List.append_assoc]
        rfl
      · rw [hbuf]
        rcases List.mem_cons.1 hi with heq | hi
        · cases heq
          exact List.mem_cons_self
        · rcases List.mem_cons.1 hi with heq | hi
          · cases heq
          · exact List.mem_cons_of_mem _ (hmem i hi)

/-- **A message that is lost**: the first of the buffer is freed, and was not sent. -/
theorem lost_of_blocked {k n : ℕ} {s t : State} (h : At k n s) (hblocked : s.yielded = true) {room : ℕ}
    (hst : step s (.send_fd room) = some t) : .sent (some k) ∉ t.log ∧ .freed k ∈ t.log := by
  have hn : n ≠ 0 := by
    rintro rfl
    rw [(h.start rfl).1] at hblocked
    cases hblocked
  obtain ⟨n, rfl⟩ := Nat.exists_eq_succ_of_ne_zero hn
  -- the coroutine goes on behind the message that is blocked
  let called : State := { s with fd_msg_buf := s.fd_msg_buf ++ [s.made], made := s.made + 1, msg := none }
  have hbuf : called.fd_msg_buf = k :: (List.range' (k + 1) n ++ [s.made]) := by
    show s.fd_msg_buf ++ [s.made] = _
    rw [h.buf, List.range'_succ]
    rfl
  have hrun : (free_dequeued called).bind (ipc_send_fd_loop room) = some t := by
    rw [← hst]
    exact (if_pos hblocked).symm
  unfold free_dequeued at hrun
  simp only [hbuf, Option.bind_some] at hrun
  obtain ⟨l, hl, hmem⟩ := loop_log hrun
  change t.log = s.log ++ [.freed k] ++ l at hl
  change ∀ i, .sent (some i) ∈ l → i ∈ List.range' (k + 1) n ++ [s.made] at hmem
  rw [hl, h.log]
  constructor
  · intro hsent
    rcases List.mem_append.1 hsent with hsent | hsent
    · rcases List.mem_append.1 hsent with hsent | hsent
      · obtain ⟨i, hi, heq⟩ := List.mem_flatMap.1 hsent
        have hlt : i < k := List.mem_range.1 hi
        have hik : i = k := by
          rcases List.mem_cons.1 heq with heq | heq
          · exact (Option.some.inj (Event.sent.inj heq)).symm
          · cases List.mem_singleton.1 heq
        omega
      · cases List.mem_singleton.1 hsent
    · have hmade := h.made
      rcases List.mem_append.1 (hmem k hsent) with hk | hk
      · have hle := (List.mem_range'_1.1 hk).1
        omega
      · have hk := List.mem_singleton.1 hk
        omega
  · exact List.mem_append_left _ (List.mem_append_right _ (List.mem_singleton.2 rfl))

/-- **Two calls.** The socket has no room for the first message; the second call frees it, and sends its own. -/
theorem lost : ∃ s, Reach step always init s ∧ ¬ Sent s ∧ s.log = [.freed 0, .sent (some 1), .freed 1] := by
  have hrun : (exec step init [.send_fd 0, .send_fd 1]).any fun s =>
      decide (s.log = [.freed 0, .sent (some 1), .freed 1]) := by decide
  obtain ⟨s, hs, hlog⟩ := Option.any_eq_true _ _ |>.1 hrun
  have hlog := of_decide_eq_true hlog
  refine ⟨s, Reach.of_exec hs, fun hsent => ?_, hlog⟩
  obtain ⟨k, -, htold, -⟩ := hsent.order
  rw [hlog] at htold
  cases k with
  | zero => cases htold
  | succ k =>
    -- what is told begins with the first message
    have hfirst : told (k + 1) = .sent (some 0) :: .freed 0 :: (List.range' 1 k).flatMap fun i => [.sent (some i), .freed i] := by
      unfold told
      rw [List.range_eq_range', List.range'_succ]
      rfl
    rw [hfirst] at htold
    cases htold

end Shuttlesock.SendFd
