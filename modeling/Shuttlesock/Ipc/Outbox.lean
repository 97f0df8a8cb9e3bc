/-
The outbox of a sending process (`ipc.c`): `shuso_ipc_send`, `ipc_send_outbuf_append`, `ipc_send_retry_cb`,
`shuso_ipc_channel_local_stop`.

Model: one process sends to any number of destinations. Each destination has its ring and its receiver (`send_step` and
`recv_step`, one atomic step at a time). What a process does between two atomic steps touches only its own memory and is
done together with the step before it.
- heap: `mem` is the content of the outbox nodes, `live` are the allocated ones. `malloc` returns any node that is not
  allocated (x in the actions); `free` leaves the content as it is.
- `Ctl`: what the process is doing. `shuso_ipc_send` is called from the event loop or from a cancel handler; while the
  handler of cur runs, the loop of `shuso_ipc_channel_local_stop` keeps cur and the `next` it has saved.
- destinations in `only` have no other sender. The ring of any other destination may be changed at any time (`other`).
- a process may send to itself: its receiver then runs between its calls, which is one of the interleavings.
- not in the model: the proxy through the manager, the notices to the receivers, the error texts, the callbacks of
  pending file descriptor receivers.
- history: `accepted` lists the messages whose send returns true, from the append to the outbox or from the release of
  the index on; `delivered` those handed to a handler; `cancelled` those whose cancel handler was called.
-/
import Mathlib.Tactic
import Shuttlesock.Ipc.RingSolo

namespace Shuttlesock.Outbox

open Shuttlesock.Ring

/-! ## State -/

/-- `shuso_runstate_t` -/
inductive Runstate where
  | dead | stopped | misconfigured | configuring | configured | nil | starting | running | stopping
deriving DecidableEq, Repr

def Runstate.toInt : Runstate → ℤ
  | .dead => -5
  | .stopped => -4
  | .misconfigured => -3
  | .configuring => -2
  | .configured => -1
  | .nil => 0
  | .starting => 1
  | .running => 2
  | .stopping => 3

/-- `shuso_ipc_outbuf_t` -/
structure Outbuf (A D : Type*) where
  code : UInt8
  ptr : ℕ
  dst : D
  next : Option A

def Outbuf.msg {A D : Type*} (n : Outbuf A D) : Msg := ⟨n.code, n.ptr⟩

inductive Ctl (A D : Type*) where
  /-- in the event loop, or with (cur, next) in the cancel handler of cur -/
  | run (stop : Option (A × Option A))
  /-- in the `ipc_send_direct` of a `shuso_ipc_send` -/
  | sending (stop : Option (A × Option A)) (d : D) (m : Msg) (pc : SendPc)
  /-- in the `ipc_send_direct` of `ipc_send_retry_cb` -/
  | retrying (cur : A) (pc : SendPc)

structure St (A D : Type*) where
  buf : D → Ringbuf
  recv : D → RecvPc
  mem : A → Outbuf A D
  live : Finset A
  first : Option A
  last : Option A
  send_retry : Bool
  ctl : Ctl A D
  accepted : D → List Msg
  delivered : D → List Msg
  cancelled : D → List Msg

variable {A D : Type*} [DecidableEq A] [DecidableEq D]

/-- add to the history of one destination -/
def push (f : D → List Msg) (d : D) (l : List Msg) : D → List Msg := Function.update f d (f d ++ l)

/-! ## Sending -/

/-- `ipc_send_outbuf_append`; x is what `malloc` returns -/
def ipc_send_outbuf_append (s : St A D) (d : D) (m : Msg) (x : A) : St A D :=
  let mem := Function.update s.mem x ⟨m.code, m.ptr, d, none⟩
  { s with
    mem :=
      match s.last with
      | none => mem
      | some t => Function.update mem t { mem t with next := some x }
    live := insert x s.live
    first := s.first.or (some x)
    last := some x
    send_retry := true
    accepted := push s.accepted d [m] }

/-- `shuso_ipc_send` up to its first atomic step on the ring -/
def shuso_ipc_send (s : St A D) (stop : Option (A × Option A)) (d : D) (dst_state : Runstate) (m : Msg) (x : A) :
    St A D :=
  if dst_state.toInt < Runstate.starting.toInt then s
  else if s.first.isSome ∨ dst_state = .starting then ipc_send_outbuf_append s d m x
  else { s with ctl := .sending stop d m (.loadFull m) }

/-- the head of the loop of `ipc_send_retry_cb` -/
def retry_loop (s : St A D) : St A D :=
  match s.first with
  | none => { s with last := none, ctl := .run none }
  | some cur => { s with ctl := .retrying cur (.loadFull (s.mem cur).msg) }

/-- one atomic step of the `ipc_send_direct` the process is in -/
def runSend (s : St A D) (x : A) : St A D :=
  match s.ctl with
  | .run _ => s
  | .sending stop d m pc =>
    let (pc', b, ret) := send_step pc (s.buf d)
    let s' := { s with buf := Function.update s.buf d b, accepted := push s.accepted d (released pc).toList }
    match ret with
    | none => { s' with ctl := .sending stop d m pc' }
    | some true => { s' with ctl := .run stop }
    | some false => { ipc_send_outbuf_append s' d m x with ctl := .run stop }
  | .retrying cur pc =>
    let (pc', b, ret) := send_step pc (s.buf (s.mem cur).dst)
    let s' := { s with buf := Function.update s.buf (s.mem cur).dst b }
    match ret with
    | none => { s' with ctl := .retrying cur pc' }
    | some true => retry_loop { s' with first := (s.mem cur).next, live := s.live.erase cur }
    | some false => { s' with send_retry := true, ctl := .run none }

/-! ## Stopping -/

/-- the head of the loop of `shuso_ipc_channel_local_stop` -/
def stop_loop (s : St A D) : Option A → St A D
  | none => { s with first := none, last := none, send_retry := false, ctl := .run none }
  | some cur =>
    { s with
      ctl := .run (some (cur, (s.mem cur).next))
      cancelled := push s.cancelled (s.mem cur).dst [(s.mem cur).msg] }

/-! ## The system -/

/-- one step of the receiver of d -/
def runRecv (s : St A D) (d : D) : St A D :=
  let (r, b, handled) := recv_step (s.recv d) (s.buf d)
  { s with
    buf := Function.update s.buf d b
    recv := Function.update s.recv d r
    delivered := push s.delivered d handled.toList }

inductive Action (A D : Type*) where
  | send (d : D) (dst_state : Runstate) (m : Msg) (x : A)
  | run (x : A)
  | retry
  | stop
  | handled
  | wake (d : D)
  | recv (d : D)
  | other (d : D) (b : Ringbuf)

variable (only : D → Prop) [DecidablePred only]

def step (s : St A D) : Action A D → Option (St A D)
  | .send d dst_state m x =>
    match s.ctl with
    | .run stop => if x ∈ s.live then none else some (shuso_ipc_send s stop d dst_state m x)
    | _ => none
  | .run x =>
    match s.ctl with
    | .run _ => none
    | _ => if x ∈ s.live then none else some (runSend s x)
  | .retry =>
    match s.ctl with
    | .run none => if s.send_retry then some (retry_loop s) else none
    | _ => none
  | .stop =>
    match s.ctl with
    | .run none => some (stop_loop s s.first)
    | _ => none
  -- the cancel handler of cur returns
  | .handled =>
    match s.ctl with
    | .run (some (cur, next)) => some (stop_loop { s with live := s.live.erase cur } next)
    | _ => none
  | .wake d => if s.recv d = .idle then some { s with recv := Function.update s.recv d .loadNextRead } else none
  | .recv d => if s.recv d = .idle ∨ s.recv d = .aborted then none else some (runRecv s d)
  | .other d b => if only d then none else some { s with buf := Function.update s.buf d b }

/-- nothing sent; mem is whatever the memory holds -/
def init (mem : A → Outbuf A D) : St A D where
  buf := fun _ => .new
  recv := fun _ => .idle
  mem := mem
  live := ∅
  first := none
  last := none
  send_retry := false
  ctl := .run none
  accepted := fun _ => []
  delivered := fun _ => []
  cancelled := fun _ => []

end Shuttlesock.Outbox
