/-
What becomes of the data of Lua IPC messages (`modules/lua_bridge/api/ipc_lua_api.c`): `luaS_ipc_send_message` and the handlers
of the four codes, in all processes.

Model: any number of workers. A step is a call of `luaS_ipc_send_message` that packs its own data (`Packs` says what
`luaS_lua_ipc_pack_data` gives), a send of some other message, one round of `ipc_send_retry_cb`, the handling of the first message of a
ring, or one round of the loop of `shuso_ipc_channel_local_stop`. What a send meets is an input; `dst_state` is the state of the process
that it goes to.
- an assertion that fails, or a handler that takes a record for one of another kind, sets `failed`.
- `active`: `ipc_messages_active`, in the memory of the master (true) and in that of the manager and its workers (false).
- history: `calls` lists the calls with their result, `collected` the data collected, each with the process.
- not in the model: what a handler or a caller in Lua does, messages with data that was packed before.

Result: `pack_of_packed`: `pack` leaves what `luaS_lua_ipc_pack_data` leaves.
-/
import Mathlib.Tactic
import Shuttlesock.Core.Runs
import Shuttlesock.Ipc.Flight
import Shuttlesock.Lua.IpcCancel

namespace Shuttlesock.IpcAccount

open Shuttlesock.Runs Shuttlesock.Flight
open Shuttlesock.Lua (World Data)
open Shuttlesock.Send (Msg Env Apart shuso_ipc_send SHUTTLESOCK_MASTER SHUTTLESOCK_MANAGER SHUTTLESOCK_WORKER)
open Shuttlesock.IpcCancel (Proxy SHUTTLESOCK_IPC_CMD_LUA_MESSAGE SHUTTLESOCK_IPC_CMD_LUA_MESSAGE_RESPONSE
  SHUTTLESOCK_IPC_CMD_LUA_MANAGER_PROXY_MESSAGE SHUTTLESOCK_IPC_CMD_LUA_MANAGER_RECEIVE_PROXIED_MESSAGE)

/-! ## State -/

structure Call where
  block : ℕ
  procnum : ℤ
  ok : Bool
  /-- the data was collected in the call, and the counter and the shared blocks are as before it -/
  restored : Bool

structure St where
  ipc : Send.State
  data : ℕ → Option Data
  /-- the field success of a data record -/
  success : ℕ → Bool
  proxy : ℕ → Option Proxy
  slab : Finset ℕ
  active : Bool → ℤ
  collected : List (ℕ × ℤ)
  calls : List Call
  failed : Bool

/-- whether a process has the memory of the master -/
def in_master (p : ℤ) : Bool := decide (p = SHUTTLESOCK_MASTER)

def shuso_processes_share_heap (procnum1 procnum2 : ℤ) : Bool := in_master procnum1 == in_master procnum2

/-- what a process sees of the shared blocks and of its counter -/
def world (s : St) (p : ℤ) : World :=
  { procnum := p
    slab := s.slab
    userdata := ∅
    mem := fun _ => ⟨[], [], 0, 0⟩
    ipc_messages_active := s.active (in_master p)
    freed := [] }

def luaS_lua_ipc_gc_data (s : St) (p : ℤ) (d : Data) : Option St :=
  (Lua.luaS_lua_ipc_gc_data (world s p) d).map fun w => { s with
    slab := w.slab
    active := Function.update s.active (in_master p) w.ipc_messages_active
    collected := s.collected ++ [(d.block, p)] }

/-! ## Sending -/

inductive Result where
  | sent
  | refused
  | nil (text : String)
  | error (text : String)
deriving DecidableEq

/-- `luaS_lua_ipc_pack_data`, with `automatic_gc` set behind it -/
def pack (s : St) (p : ℤ) (d : Data) : St := { s with
  data := Function.update s.data d.block (some { d with automatic_gc := true })
  slab := if d.in_shared_memory then insert d.block s.slab ∪ d.reftable.toFinset else s.slab
  active := Function.update s.active (in_master p) (s.active (in_master p) + 1) }

/-- **`pack` is what packing leaves**, of any value that can be packed. -/
theorem pack_of_packed {T : Type*} [DecidableEq T] [Fintype T] (A : Lua.Allocator) (tables : Lua.Tables T) {fuel : ℕ}
    (hfuel : Fintype.card T ≤ fuel) (v : Lua.Value T) (name : String) {s : St} {p : ℤ} {shared : Bool} {d : Data} {w : World}
    (h : Lua.luaS_lua_ipc_pack_data A tables fuel v name shared (world s p) = .ok d w) :
    d.origin_procnum = p ∧ d.in_shared_memory = shared ∧ w.slab = (pack s p d).slab ∧
      w.ipc_messages_active = (pack s p d).active (in_master p) := by
  have hcard : (GraphCopy.todo Finset.univ (Lua.pack_start A shared (world s p) : Lua.Packing T).packed).card ≤ fuel :=
    le_trans (Finset.card_filter_le _ _) hfuel
  have hout := Lua.pack_field_outcome A shared tables Finset.mem_univ fuel v _
    (Lua.pack_start_anchored A shared (world s p)).2 hcard
  cases hr : Lua.pack_field A shared tables fuel v (Lua.pack_start A shared (world s p)) with
  | raise msg u =>
    simp only [Lua.luaS_lua_ipc_pack_data, hr] at h
    cases h
  | deep =>
    simp only [Lua.luaS_lua_ipc_pack_data, hr] at h
    cases h
  | ok f u =>
    rw [hr] at hout
    obtain ⟨-, -, new, hg⟩ := hout
    have hprocnum : u.procnum = p := by
      rw [hg.procnum]
      cases shared <;> rfl
    have hactive : u.ipc_messages_active = s.active (in_master p) := by
      rw [hg.active]
      cases shared <;> rfl
    have hheap := h
    rw [Lua.pack_data_ok hr] at h
    cases h
    refine ⟨hprocnum, rfl, ?_, ?_⟩
    · cases shared with
      | false => exact Lua.pack_heap hheap
      | true =>
        have href : u.reftable = new := hg.reftable.trans (List.nil_append new)
        simp only [pack, href, if_true]
        exact hg.slab
    · simp only [pack, Function.update_self]
      rw [hactive]

/-- the error of `shuso_procnum_valid` -/
def procnum_error (n : ℕ) (procnum : ℤ) : Option String :=
  if procnum < SHUTTLESOCK_MASTER then some "invalid procnum"
  else if SHUTTLESOCK_WORKER ≤ procnum ∧ ¬procnum < n then some "invalid worker number"
  else none

/-- with the data already packed; none for a failed assertion -/
def send_packed (n : ℕ) (s : St) (p dst : ℤ) (d : Data) (e : Env) : Option (St × Result) :=
  match procnum_error n dst with
  | some err => (luaS_lua_ipc_gc_data s p d).map fun s => (s, .error err)
  | none =>
    if Apart p dst then
      if ¬d.in_shared_memory then none
      else
        match e.record with
        | none =>
          (luaS_lua_ipc_gc_data s p d).map fun s => (s, .nil "failed to allocate shared data to proxy IPC message")
        | some k =>
          let s := { s with
            slab := insert k s.slab
            proxy := Function.update s.proxy k (some ⟨d.block, p, dst, SHUTTLESOCK_IPC_CMD_LUA_MESSAGE⟩) }
          let r := shuso_ipc_send s.ipc p SHUTTLESOCK_MANAGER ⟨SHUTTLESOCK_IPC_CMD_LUA_MANAGER_PROXY_MESSAGE, k⟩ e
          if r.2 then some ({ s with ipc := r.1 }, .sent)
          else
            let s := { s with ipc := r.1, slab := s.slab.erase k, proxy := Function.update s.proxy k none }
            (luaS_lua_ipc_gc_data s p d).map fun s => (s, .refused)
    else
      let r := shuso_ipc_send s.ipc p dst ⟨SHUTTLESOCK_IPC_CMD_LUA_MESSAGE, d.block⟩ e
      some ({ s with ipc := r.1 }, if r.2 then .sent else .refused)

def luaS_ipc_send_message (n : ℕ) (s : St) (p dst : ℤ) (d : Data) (e : Env) : Option (St × Result) :=
  send_packed n (pack s p d) p dst { d with automatic_gc := true } e

/-! ## Handlers -/

/-- the responding process sets success, sends the response, and looks at nothing that becomes of it -/
def lua_ipc_handler (s : St) (q : ℤ) (ptr : ℕ) (e : Env) : Option St :=
  (s.data ptr).map fun d =>
    let s := { s with success := Function.update s.success ptr true }
    { s with ipc := (shuso_ipc_send s.ipc q d.origin_procnum ⟨SHUTTLESOCK_IPC_CMD_LUA_MESSAGE_RESPONSE, ptr⟩ e).1 }

def handle_lua_ipc_response (s : St) (q : ℤ) (ptr : ℕ) : Option St :=
  (s.data ptr).bind fun d =>
    if ¬(s.success ptr = true ∧ d.origin_procnum = q) then none
    else if d.automatic_gc then luaS_lua_ipc_gc_data s q d
    else some s

/-- a message that it cannot forward is left at that -/
def lua_ipc_manager_proxy_handler (s : St) (q : ℤ) (ptr : ℕ) (e : Env) : Option St :=
  (s.proxy ptr).bind fun d =>
    if q ≠ SHUTTLESOCK_MANAGER then none
    else if d.code ≠ SHUTTLESOCK_IPC_CMD_LUA_MESSAGE ∧
        ¬(d.code = SHUTTLESOCK_IPC_CMD_LUA_MESSAGE_RESPONSE ∧ s.success d.data = true) then none
    else
      let dst := if d.code = SHUTTLESOCK_IPC_CMD_LUA_MESSAGE then d.dst else d.src
      some { s with
        ipc := (shuso_ipc_send s.ipc q dst ⟨SHUTTLESOCK_IPC_CMD_LUA_MANAGER_RECEIVE_PROXIED_MESSAGE, ptr⟩ e).1 }

def lua_ipc_proxy_receive_handler (s : St) (q : ℤ) (ptr : ℕ) (e : Env) : Option St :=
  (s.proxy ptr).bind fun d =>
    if d.code = SHUTTLESOCK_IPC_CMD_LUA_MESSAGE then
      let s := { s with
        proxy := Function.update s.proxy ptr (some { d with code := SHUTTLESOCK_IPC_CMD_LUA_MESSAGE_RESPONSE })
        success := Function.update s.success d.data true }
      some { s with
        ipc := (shuso_ipc_send s.ipc q SHUTTLESOCK_MANAGER ⟨SHUTTLESOCK_IPC_CMD_LUA_MANAGER_PROXY_MESSAGE, ptr⟩ e).1 }
    else if d.code ≠ SHUTTLESOCK_IPC_CMD_LUA_MESSAGE_RESPONSE then none
    else
      (handle_lua_ipc_response s q d.data).map fun s =>
        { s with slab := s.slab.erase ptr, proxy := Function.update s.proxy ptr none }

/-- the handlers of `shuso_register_lua_ipc_handler` -/
def handle (s : St) (q : ℤ) (m : Msg) (e : Env) : Option St :=
  if m.code = SHUTTLESOCK_IPC_CMD_LUA_MESSAGE then lua_ipc_handler s q m.ptr e
  else if m.code = SHUTTLESOCK_IPC_CMD_LUA_MESSAGE_RESPONSE then handle_lua_ipc_response s q m.ptr
  else if m.code = SHUTTLESOCK_IPC_CMD_LUA_MANAGER_PROXY_MESSAGE then lua_ipc_manager_proxy_handler s q m.ptr e
  else if m.code = SHUTTLESOCK_IPC_CMD_LUA_MANAGER_RECEIVE_PROXIED_MESSAGE then lua_ipc_proxy_receive_handler s q m.ptr e
  else some s

/-- `lua_ipc_cancel_handler` for a data record -/
def lua_ipc_cancel_handler (s : St) (p : ℤ) (ptr : ℕ) : Option St :=
  (s.data ptr).bind fun d => if d.automatic_gc then luaS_lua_ipc_gc_data s p d else some s

/-- the cancel handlers; that of the two codes of the manager is given a record of another kind -/
def cancel (s : St) (p : ℤ) (m : Msg) : Option St :=
  if m.code = SHUTTLESOCK_IPC_CMD_LUA_MESSAGE then lua_ipc_cancel_handler s p m.ptr
  else if m.code = SHUTTLESOCK_IPC_CMD_LUA_MANAGER_PROXY_MESSAGE ∨
      m.code = SHUTTLESOCK_IPC_CMD_LUA_MANAGER_RECEIVE_PROXIED_MESSAGE then none
  else some s

/-! ## The system -/

/-- a message with one of the four codes -/
def is_lua (m : Msg) : Bool :=
  m.code = SHUTTLESOCK_IPC_CMD_LUA_MESSAGE ∨ m.code = SHUTTLESOCK_IPC_CMD_LUA_MESSAGE_RESPONSE ∨
    m.code = SHUTTLESOCK_IPC_CMD_LUA_MANAGER_PROXY_MESSAGE ∨
    m.code = SHUTTLESOCK_IPC_CMD_LUA_MANAGER_RECEIVE_PROXIED_MESSAGE

/-- whose data a message is about: its block, and the process that packed it -/
def subject (s : St) (m : Msg) : Option (ℕ × ℤ) :=
  if m.code = SHUTTLESOCK_IPC_CMD_LUA_MESSAGE ∨ m.code = SHUTTLESOCK_IPC_CMD_LUA_MESSAGE_RESPONSE then
    (s.data m.ptr).map fun d => (m.ptr, d.origin_procnum)
  else if m.code = SHUTTLESOCK_IPC_CMD_LUA_MANAGER_PROXY_MESSAGE ∨
      m.code = SHUTTLESOCK_IPC_CMD_LUA_MANAGER_RECEIVE_PROXIED_MESSAGE then
    (s.proxy m.ptr).bind fun d => (s.data d.data).map fun data => (d.data, data.origin_procnum)
  else none

/-- the message is about the data of block b -/
def touches (s : St) (b : ℕ) (m : Msg) : Bool := (subject s m).any fun y => decide (y.1 = b)

/-- what packing for a message to dst gives. The block of a message in flight is not given out again. -/
structure Packs (n : ℕ) (s : St) (p dst : ℤ) (d : Data) : Prop where
  origin : d.origin_procnum = p
  shared : d.in_shared_memory = !shuso_processes_share_heap p dst
  fresh : inflight n s.ipc (touches s d.block) = 0

instance (n : ℕ) (s : St) (p dst : ℤ) (d : Data) : Decidable (Packs n s p dst d) :=
  decidable_of_iff
    (d.origin_procnum = p ∧ d.in_shared_memory = (!shuso_processes_share_heap p dst) ∧
      inflight n s.ipc (touches s d.block) = 0)
    ⟨fun h => ⟨h.1, h.2.1, h.2.2⟩, fun h => ⟨h.origin, h.shared, h.fresh⟩⟩

/-- the data y was collected between s and t, and the rest is as before -/
def Restored (s t : St) (y : ℕ × ℤ) : Prop :=
  t.collected = s.collected ++ [y] ∧ t.active = s.active ∧ t.slab = s.slab

instance (s t : St) (y : ℕ × ℤ) : Decidable (Restored s t y) := by
  unfold Restored
  infer_instance

/-- the result of a call goes to its history -/
def finish (s : St) (p : ℤ) (d : Data) : Option (St × Result) → St
  | none => { s with failed := true }
  | some r => { r.1 with
      calls := r.1.calls ++ [⟨d.block, p, decide (r.2 = .sent), decide (Restored s r.1 (d.block, p))⟩] }

inductive Act where
  | call (p dst : ℤ) (d : Data) (e : Env)
  | other (src dst : ℤ) (m : Msg) (e : Env)
  | retry (p : ℤ) (e : Env)
  | receive (q : ℤ) (e : Env)
  | stop (p : ℤ)

def step (n : ℕ) (s : St) : Act → Option St
  | .call p dst d e =>
    if p ∈ procs n ∧ Packs n s p dst d ∧ (∀ k ∈ e.record, s.proxy k = none) then
      some (finish s p d (luaS_ipc_send_message n s p dst d e))
    else none
  | .other src dst m e =>
    if src ∈ procs n ∧ dst ∈ procs n ∧ ¬is_lua m ∧ ¬Apart src dst then
      some { s with ipc := (shuso_ipc_send s.ipc src dst m e).1 }
    else none
  | .retry p e => if p ∈ procs n then (ipc_send_retry_cb s.ipc p e).map fun ipc => { s with ipc := ipc } else none
  | .receive q e =>
    if q ∈ procs n then
      match s.ipc.ring q with
      | [] => none
      | m :: rest =>
        let s := { s with ipc := { s.ipc with ring := Function.update s.ipc.ring q rest } }
        some ((handle s q m e).getD { s with failed := true })
    else none
  | .stop p =>
    if p ∈ procs n then
      match s.ipc.outbox p with
      | [] => none
      | cur :: next =>
        let s := { s with ipc := { s.ipc with outbox := Function.update s.ipc.outbox p next } }
        some ((cancel s p cur.2).getD { s with failed := true })
    else none

end Shuttlesock.IpcAccount
