/-
The ring of an IPC destination (`shuso_ipc_ringbuf_t`) with any number of senders and its one receiver (`ipc.c`).

Model: every atomic load, store, fetch-add and compare-exchange of `ipc_reserve_write_index`, `ipc_send_direct`,
`ipc_release_write_index` and `ipc_receive` is one step (sequentially consistent). `SendPc` and `RecvPc` say which of
them comes next, with the local variables that are still used. `(uint8_t )index` is `slot`. `next_read` and the other
indices are counted without the 2^63 bound of `int64_t`.
- `send_step`, `recv_step`: one atomic step of a call; the last component is the return value of `ipc_send_direct`, or
  the message handed to `ipc_handlers[code].receive`.
- `step`: the system. A process starts a send, makes a step of it, or the receiver makes a step. The notice of a
  successful send (`shuso_io_resume(&...notice)`) is counted in `notices`; reading k of them (`wake`) runs `ipc_receive`.
- history: `resets` counts the stores to `next_write_reserve` by the receiver, a sender knows the count at its
  fetch-add; `ledger` lists the messages that got an index, in that order; `returned` those whose send returned true;
  `delivered` those handed to a handler.

Results:
- `slot_inj`: indices in one window of 256 have different slots.
- `send_frame`: what a sender leaves as it is.
-/
import Mathlib.Tactic
import Shuttlesock.Core.Runs

namespace Shuttlesock.Ring

/-! ## The ring -/

structure Msg where
  code : UInt8
  ptr : ℕ
deriving DecidableEq, Repr

/-- `SHUTTLESOCK_IPC_CMD_NIL` -/
def NIL : UInt8 := 0

/-- `shuso_ipc_ringbuf_t` -/
structure Ringbuf where
  next_read : ℕ
  next_write_reserve : ℕ
  next_write_release : ℕ
  full : Bool
  code : Fin 256 → UInt8
  ptr : Fin 256 → ℕ
  resets : ℕ

/-- `(uint8_t )index` -/
def slot (i : ℕ) : Fin 256 := Fin.ofNat 256 i

theorem slot_inj {i j : ℕ} (h : slot i = slot j) (h1 : i < j + 256) (h2 : j < i + 256) : i = j := by
  have h3 : i % 256 = j % 256 := congrArg Fin.val h
  omega

def Ringbuf.setCode (b : Ringbuf) (i : ℕ) (c : UInt8) : Ringbuf := { b with code := Function.update b.code (slot i) c }

def Ringbuf.setPtr (b : Ringbuf) (i : ℕ) (x : ℕ) : Ringbuf := { b with ptr := Function.update b.ptr (slot i) x }

/-- all zero, as the memory is after the allocation -/
def Ringbuf.new : Ringbuf where
  next_read := 0
  next_write_reserve := 0
  next_write_release := 0
  full := false
  code := fun _ => NIL
  ptr := fun _ => 0
  resets := 0

/-! ## `ipc_send_direct` -/

/-- the step that comes next; e is `resets` at the fetch-add -/
inductive SendPc where
  | idle
  | loadFull (m : Msg)
  | reserve (m : Msg)
  | loadRead (m : Msg) (next e : ℕ)
  | recheck (m : Msg) (next e next_read : ℕ)
  | cas (m : Msg) (next e : ℕ)
  | storePtr (m : Msg) (index : ℕ)
  | storeCode (m : Msg) (index : ℕ)
  | release (m : Msg) (index : ℕ)
  | notice (m : Msg)
deriving DecidableEq, Repr

def send_step : SendPc → Ringbuf → SendPc × Ringbuf × Option Bool
  | .idle, b => (.idle, b, none)
  -- ipc_reserve_write_index
  | .loadFull m, b => if b.full then (.idle, b, some false) else (.reserve m, b, none)
  | .reserve m, b =>
    (.loadRead m b.next_write_reserve b.resets, { b with next_write_reserve := b.next_write_reserve + 1 }, none)
  | .loadRead m next e, b => (.recheck m next e b.next_read, b, none)
  | .recheck m next e next_read, b =>
    if b.full then (.idle, b, some false)
    else if 255 < next - next_read then (.cas m next e, b, none)
    else (.storePtr m next, b, none)
  | .cas _ _ _, b => (.idle, { b with full := true }, some false)
  -- ipc_send_direct
  | .storePtr m index, b => (.storeCode m index, b.setPtr index m.ptr, none)
  | .storeCode m index, b => (.release m index, b.setCode index m.code, none)
  -- ipc_release_write_index
  | .release m _, b => (.notice m, { b with next_write_release := b.next_write_release + 1 }, none)
  | .notice _, b => (.idle, b, some true)

/-- a sender never moves `next_read`, it moves `next_write_release` only by its release and sets `full` only by its
compare-exchange -/
theorem send_frame (pc : SendPc) (b : Ringbuf) :
    (send_step pc b).2.1.next_read = b.next_read ∧
      ((∀ m i, pc ≠ .release m i) → (send_step pc b).2.1.next_write_release = b.next_write_release) ∧
      ((∀ m i e, pc ≠ .cas m i e) → (send_step pc b).2.1.full = b.full) := by
  cases pc with
  | loadFull m => simp only [send_step]; split_ifs <;> exact ⟨rfl, fun _ => rfl, fun _ => rfl⟩
  | recheck m i e nr => simp only [send_step]; split_ifs <;> exact ⟨rfl, fun _ => rfl, fun _ => rfl⟩
  | release m i => exact ⟨rfl, fun h => absurd rfl (h m i), fun _ => rfl⟩
  | cas m i e => exact ⟨rfl, fun _ => rfl, fun h => absurd rfl (h m i e)⟩
  | _ => exact ⟨rfl, fun _ => rfl, fun _ => rfl⟩

/-- the send gets its index in this step -/
def accepts : SendPc → Ringbuf → Option (ℕ × Msg)
  | .recheck m next _ next_read, b => if b.full ∨ 255 < next - next_read then none else some (next, m)
  | _, _ => none

/-- the send is refused in this step, after its fetch-add: its index and the count of resets at the fetch-add -/
def refuses : SendPc → Ringbuf → Option (ℕ × ℕ)
  | .recheck _ next e _, b => if b.full then some (next, e) else none
  | .cas _ next e, _ => some (next, e)
  | _, _ => none

/-- between the fetch-add and the decision -/
def SendPc.pending : SendPc → Option (ℕ × ℕ)
  | .loadRead _ next e => some (next, e)
  | .recheck _ next e _ => some (next, e)
  | .cas _ next e => some (next, e)
  | _ => none

/-- has an index and has not released it -/
def SendPc.held : SendPc → Option (ℕ × Msg)
  | .storePtr m index => some (index, m)
  | .storeCode m index => some (index, m)
  | .release m index => some (index, m)
  | _ => none

/-- accepted and not returned yet -/
def SendPc.inflight : SendPc → Option Msg
  | .storePtr m _ => some m
  | .storeCode m _ => some m
  | .release m _ => some m
  | .notice m => some m
  | _ => none

/-! ## `ipc_receive` -/

inductive RecvPc where
  | idle
  | loadNextRead
  | loop (read_index : ℕ)
  | loadCode (read_index : ℕ)
  | loadPtr (read_index : ℕ) (code : UInt8)
  | clear (read_index : ℕ) (m : Msg)
  | bump (read_index : ℕ) (m : Msg)
  | handler (read_index : ℕ) (m : Msg)
  | checkFull
  | resetLoad
  | resetStore (next_read : ℕ)
  | assertReserve
  | assertRelease (next_write_reserve : ℕ)
  | clearFull
  | aborted
deriving DecidableEq, Repr

def recv_step : RecvPc → Ringbuf → RecvPc × Ringbuf × Option Msg
  | .idle, b => (.idle, b, none)
  | .loadNextRead, b => (.loop b.next_read, b, none)
  | .loop read_index, b =>
    if read_index < b.next_write_release then (.loadCode read_index, b, none) else (.checkFull, b, none)
  | .loadCode read_index, b => (.loadPtr read_index (b.code (slot read_index)), b, none)
  | .loadPtr read_index code, b =>
    if code = NIL then (.loop read_index, b, none)
    else (.clear read_index ⟨code, b.ptr (slot read_index)⟩, b, none)
  | .clear read_index m, b => (.bump read_index m, b.setCode read_index NIL, none)
  | .bump read_index m, b => (.handler (read_index + 1) m, { b with next_read := b.next_read + 1 }, none)
  | .handler read_index m, b => (.loop read_index, b, some m)
  | .checkFull, b => if b.full then (.resetLoad, b, none) else (.idle, b, none)
  | .resetLoad, b => (.resetStore b.next_read, b, none)
  | .resetStore next_read, b =>
    (.assertReserve, { b with next_write_reserve := next_read, resets := b.resets + 1 }, none)
  | .assertReserve, b => (.assertRelease b.next_write_reserve, b, none)
  | .assertRelease next_write_reserve, b =>
    if next_write_reserve = b.next_write_release then (.clearFull, b, none) else (.aborted, b, none)
  | .clearFull, b => (.idle, { b with full := false }, none)
  | .aborted, b => (.aborted, b, none)

/-- taken out of its slot, not yet handed to the handler -/
def RecvPc.hand : RecvPc → List Msg
  | .bump _ m => [m]
  | .handler _ m => [m]
  | _ => []

/-- between the store to `next_write_reserve` and the store to `full` -/
def RecvPc.late : RecvPc → Bool
  | .assertReserve | .assertRelease _ | .clearFull => true
  | _ => false

/-! ## The system -/

structure St (P : Type*) where
  buf : Ringbuf
  send : P → SendPc
  recv : RecvPc
  notices : ℕ
  ledger : List (ℕ × Msg)
  returned : List Msg
  delivered : List Msg

variable {P : Type*} [DecidableEq P]

inductive Action (P : Type*) where
  | send (p : P) (m : Msg)
  | run (p : P)
  | wake (k : ℕ)
  | recv

/-- one step of the send of p -/
def runSend (s : St P) (p : P) : St P :=
  let (pc, b, ret) := send_step (s.send p) s.buf
  { s with
    buf := b
    send := Function.update s.send p pc
    notices := s.notices + if ret = some true then 1 else 0
    ledger := s.ledger ++ (accepts (s.send p) s.buf).toList
    returned := s.returned ++ if ret = some true then (s.send p).inflight.toList else [] }

def runRecv (s : St P) : St P :=
  let (pc, b, handled) := recv_step s.recv s.buf
  { s with buf := b, recv := pc, delivered := s.delivered ++ handled.toList }

def step (s : St P) : Action P → Option (St P)
  | .send p m =>
    if s.send p = .idle ∧ m.code ≠ NIL then some { s with send := Function.update s.send p (.loadFull m) } else none
  | .run p => if s.send p = .idle then none else some (runSend s p)
  | .wake k =>
    if s.recv = .idle ∧ 0 < k ∧ k ≤ s.notices then some { s with recv := .loadNextRead, notices := s.notices - k }
    else none
  | .recv => if s.recv = .idle ∨ s.recv = .aborted then none else some (runRecv s)

def init : St P where
  buf := .new
  send := fun _ => .idle
  recv := .idle
  notices := 0
  ledger := []
  returned := []
  delivered := []

/-- the index of the next message to be taken out of its slot -/
def St.readPos (s : St P) : ℕ :=
  match s.recv with
  | .bump _ _ => s.buf.next_read + 1
  | _ => s.buf.next_read

end Shuttlesock.Ring
