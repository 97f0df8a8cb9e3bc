/-
Lua IPC messages that are cancelled (`modules/lua_bridge/api/ipc_lua_api.c`, `ipc.c`): `lua_ipc_cancel_handler`,
`lua_ipc_response_cancel_handler`, and the loop of `shuso_ipc_channel_local_stop` that calls them.

Model: the process that stops. `record` has what is at an address: the data of a message, or the record of a message that goes
through the manager. A handler that takes a record for one of the other kind ends in none, like one whose assertion fails.
- `refs`: the data records whose reftable is in the Lua registry.
- `caller`: what is under "caller" in the reftable of a data record, by its address; none for nil.
- history: `notified` lists the callers that were called with false.
- not in the model: messages with other codes, what a caller does.

Results:
- `cancels_iff`: a message is cancelled as it should be exactly when it is a response, or a message that does not go through the
  manager and whose data is not collected, or is not in shared memory.
- `stops_iff`: the same for a whole outbox.
-/
import Mathlib.Tactic
import Shuttlesock.Ipc.Send
import Shuttlesock.Lua.IpcSlab

namespace Shuttlesock.IpcCancel

open Shuttlesock.Lua (World Data luaS_lua_ipc_gc_data)
open Shuttlesock.Send (Msg)

/-! ## Model -/

def SHUTTLESOCK_IPC_CMD_LUA_MESSAGE : ℕ := 13
def SHUTTLESOCK_IPC_CMD_LUA_MESSAGE_RESPONSE : ℕ := 14
def SHUTTLESOCK_IPC_CMD_LUA_MANAGER_PROXY_MESSAGE : ℕ := 15
def SHUTTLESOCK_IPC_CMD_LUA_MANAGER_RECEIVE_PROXIED_MESSAGE : ℕ := 16

/-- `shuso_lua_ipc_proxy_msg_t`; data is an address -/
structure Proxy where
  data : ℕ
  src : ℤ
  dst : ℤ
  code : ℕ

inductive Record where
  | data (d : Data)
  | proxy (p : Proxy)

structure State where
  world : World
  record : ℕ → Option Record
  refs : Finset ℕ
  caller : ℕ → Option ℕ
  notified : List ℕ

/-- `luaS_lua_ipc_gc_data`, with `luaL_unref` -/
def gc (s : State) (d : Data) : Option State :=
  (luaS_lua_ipc_gc_data s.world d).map fun w => { s with world := w, refs := s.refs.erase d.block }

/-- `lua_ipc_return_to_caller` with false -/
def lua_ipc_return_to_caller (s : State) (caller : Option ℕ) : State := { s with notified := s.notified ++ caller.toList }

def lua_ipc_cancel_handler (s : State) (ptr : ℕ) : Option State :=
  match s.record ptr with
  | some (.data d) =>
    let caller := s.caller d.block
    (if d.automatic_gc then gc s d else some s).map fun s => lua_ipc_return_to_caller s caller
  | _ => none

/-- nothing needs to be done -/
def lua_ipc_response_cancel_handler (s : State) (_ptr : ℕ) : Option State := some s

/-- the cancel handlers of `shuso_register_lua_ipc_handler` -/
def cancel (s : State) (m : Msg) : Option State :=
  if m.code = SHUTTLESOCK_IPC_CMD_LUA_MESSAGE_RESPONSE then lua_ipc_response_cancel_handler s m.ptr
  else lua_ipc_cancel_handler s m.ptr

/-- the loop of `shuso_ipc_channel_local_stop` -/
def shuso_ipc_channel_local_stop : State → List Msg → Option State
  | s, [] => some s
  | s, cur :: next => (cancel s cur).bind fun s => shuso_ipc_channel_local_stop s next

/-! ## What is sent, and what should be released -/

/-- the blocks of a message's data, with the block of the record -/
def blocks (d : Data) : Finset ℕ := if d.in_shared_memory then insert d.block d.reftable.toFinset else ∅

/-- the data that the process sends by itself, or for a broadcast -/
structure Own (s : State) (ptr : ℕ) (d : Data) : Prop where
  record : s.record ptr = some (.data d)
  block : d.block = ptr
  origin : d.origin_procnum = s.world.procnum
  nodup : d.reftable.Nodup
  fresh : ptr ∉ d.reftable
  refs : d.automatic_gc = true → ptr ∈ s.refs
  slab : d.in_shared_memory = true → blocks d ⊆ s.world.slab
  active : d.automatic_gc = true → 0 < s.world.ipc_messages_active

/-- what a Lua message of each code is sent with -/
def Sent (s : State) (m : Msg) : Prop :=
  m.code = SHUTTLESOCK_IPC_CMD_LUA_MESSAGE ∧ (∃ d, Own s m.ptr d) ∨
    m.code = SHUTTLESOCK_IPC_CMD_LUA_MESSAGE_RESPONSE ∧ (∃ d, s.record m.ptr = some (.data d)) ∨
    (m.code = SHUTTLESOCK_IPC_CMD_LUA_MANAGER_PROXY_MESSAGE ∨
      m.code = SHUTTLESOCK_IPC_CMD_LUA_MANAGER_RECEIVE_PROXIED_MESSAGE) ∧ (∃ p, s.record m.ptr = some (.proxy p))

/-- the blocks that belong to a message. A response has none of its own: the data is of the process that packed it. -/
def owned_blocks (s : State) (m : Msg) : Finset ℕ :=
  if m.code = SHUTTLESOCK_IPC_CMD_LUA_MESSAGE_RESPONSE then ∅
  else
    match s.record m.ptr with
    | some (.data d) => if d.automatic_gc then blocks d else ∅
    | some (.proxy _) => {m.ptr}
    | none => ∅

/-- the data record that is collected with a message -/
def owned_data (s : State) (m : Msg) : Finset ℕ :=
  if m.code = SHUTTLESOCK_IPC_CMD_LUA_MESSAGE_RESPONSE then ∅
  else
    match s.record m.ptr with
    | some (.data d) => if d.automatic_gc then {d.block} else ∅
    | _ => ∅

/-- **The claim** for one message: its handler takes the record for what it is, calls no one but the caller, and that once at most, and
releases what belongs to the message, each block once. -/
def Cancels (s : State) (m : Msg) : Prop :=
  ∃ t, cancel s m = some t ∧
    (∃ l : List ℕ, t.notified = s.notified ++ l ∧ l.length ≤ 1 ∧ ∀ c ∈ l, s.caller m.ptr = some c) ∧
    (∃ l : List ℕ, t.world.freed = s.world.freed ++ l ∧ l.Nodup ∧ l.toFinset = owned_blocks s m) ∧
    t.world.slab = s.world.slab \ owned_blocks s m ∧ t.refs = s.refs \ owned_data s m

/-- The claim for an outbox: each message when its turn comes. -/
def Stops : State → List Msg → Prop
  | _, [] => True
  | s, cur :: next => Cancels s cur ∧ ∀ t, cancel s cur = some t → Stops t next

/-- a response, or the message itself with data that its handler releases as a whole -/
def Fine (s : State) (m : Msg) : Prop :=
  m.code = SHUTTLESOCK_IPC_CMD_LUA_MESSAGE_RESPONSE ∨
    ∃ d, s.record m.ptr = some (.data d) ∧ ¬(d.automatic_gc = true ∧ d.in_shared_memory = true)

/-! ## One message -/

variable {s t : State} {m : Msg} {d : Data}

/-- the message collects its data when it is cancelled -/
def automatic (s : State) (m : Msg) : Bool :=
  if m.code = SHUTTLESOCK_IPC_CMD_LUA_MESSAGE_RESPONSE then false
  else
    match s.record m.ptr with
    | some (.data d) => d.automatic_gc
    | _ => false

/-- what the handler of a message that is `Fine` does -/
structure Lets (s : State) (m : Msg) (t : State) : Prop where
  record : t.record = s.record
  caller : t.caller = s.caller
  procnum : t.world.procnum = s.world.procnum
  slab : t.world.slab = s.world.slab
  freed : t.world.freed = s.world.freed
  refs : t.refs = s.refs \ owned_data s m
  active : t.world.ipc_messages_active = s.world.ipc_messages_active - if automatic s m then 1 else 0
  notified : t.notified = s.notified ∨ ∃ c, s.caller m.ptr = some c ∧ t.notified = s.notified ++ [c]

theorem response_ne : SHUTTLESOCK_IPC_CMD_LUA_MESSAGE ≠ SHUTTLESOCK_IPC_CMD_LUA_MESSAGE_RESPONSE := by decide

/-- data in the heap of the process -/
theorem gc_heap (hd : Own s m.ptr d) (hauto : d.automatic_gc = true) (hheap : d.in_shared_memory = false) :
    gc s d = some { s with
      world := { s.world with ipc_messages_active := s.world.ipc_messages_active - 1 }
      refs := s.refs.erase d.block } := by
  have hact := hd.active hauto
  have hge : ¬s.world.ipc_messages_active - 1 < 0 := by omega
  simp [gc, luaS_lua_ipc_gc_data, hd.origin, hheap, hge]

theorem gc_shared (hd : Own s m.ptr d) (hauto : d.automatic_gc = true) (hshared : d.in_shared_memory = true) :
    ∃ w, luaS_lua_ipc_gc_data s.world d = some w := by
  obtain ⟨-, -, -, hactive⟩ := Lua.foldl_slab_free s.world d.reftable
  have hact := hd.active hauto
  have hge : ¬s.world.ipc_messages_active - 1 < 0 := by omega
  unfold luaS_lua_ipc_gc_data
  simp only [hd.origin, hshared, hactive, ne_eq, not_true_eq_false, if_false, if_true, hge]
  exact ⟨_, rfl⟩

theorem return_notified (s : State) (caller : Option ℕ) :
    (lua_ipc_return_to_caller s caller).notified = s.notified ∨
      ∃ c, caller = some c ∧ (lua_ipc_return_to_caller s caller).notified = s.notified ++ [c] := by
  cases caller with
  | none => exact .inl (List.append_nil _)
  | some c => exact .inr ⟨c, rfl, rfl⟩

/-- **The handler of a message that is `Fine`.** -/
theorem cancel_lets (hs : Sent s m) (hf : Fine s m) : ∃ t, cancel s m = some t ∧ Lets s m t := by
  by_cases hresp : m.code = SHUTTLESOCK_IPC_CMD_LUA_MESSAGE_RESPONSE
  · refine ⟨s, by simp [cancel, hresp, lua_ipc_response_cancel_handler], rfl, rfl, rfl, rfl, rfl, ?_, ?_, .inl rfl⟩
    · simp [owned_data, hresp]
    · simp [automatic, hresp]
  · obtain ⟨d, hrec, hnot⟩ := hf.resolve_left hresp
    have hown : ∃ d, Own s m.ptr d := by
      rcases hs with h | h | h
      · exact h.2
      · exact absurd h.1 hresp
      · obtain ⟨p, hp⟩ := h.2
        rw [hrec] at hp
        cases hp
    obtain ⟨d', hd⟩ := hown
    have hdd : d' = d := by
      have h := hd.record
      rw [hrec] at h
      cases h
      rfl
    subst hdd
    cases hauto : d'.automatic_gc with
    | false =>
      refine ⟨lua_ipc_return_to_caller s (s.caller d'.block), by simp [cancel, hresp, lua_ipc_cancel_handler, hrec, hauto], rfl,
        rfl, rfl, rfl, rfl, ?_, ?_, ?_⟩
      · simp [owned_data, hresp, hrec, hauto, lua_ipc_return_to_caller]
      · simp [automatic, hresp, hrec, hauto, lua_ipc_return_to_caller]
      · rw [← hd.block]
        exact return_notified s _
    | true =>
      have hheap : d'.in_shared_memory = false := by
        cases hsh : d'.in_shared_memory with
        | false => rfl
        | true => exact absurd ⟨hauto, hsh⟩ hnot
      have hcancel : cancel s m = some (lua_ipc_return_to_caller { s with
          world := { s.world with ipc_messages_active := s.world.ipc_messages_active - 1 }
          refs := s.refs.erase d'.block } (s.caller d'.block)) := by
        simp [cancel, hresp, lua_ipc_cancel_handler, hrec, hauto, gc_heap hd hauto hheap]
      refine ⟨_, hcancel, rfl, rfl, rfl, rfl, rfl, ?_, ?_, ?_⟩
      · simp [owned_data, hresp, hrec, hauto, lua_ipc_return_to_caller, Finset.sdiff_singleton_eq_erase]
      · simp [automatic, hresp, hrec, hauto, lua_ipc_return_to_caller]
      · rw [← hd.block]
        exact return_notified _ _

theorem owned_of_fine (hf : Fine s m) : owned_blocks s m = ∅ := by
  unfold owned_blocks
  split_ifs with hresp
  · rfl
  · obtain ⟨d, hrec, hnot⟩ := hf.resolve_left hresp
    simp only [hrec, blocks]
    split_ifs with h1 h2
    · exact absurd ⟨h1, h2⟩ hnot
    · rfl
    · rfl

/-- **Exactly when a message is cancelled as it should be.** -/
theorem cancels_iff (hs : Sent s m) : Cancels s m ↔ Fine s m := by
  constructor
  · rintro ⟨t, ht, -, ⟨l, hfreed, -, hl⟩, -, -⟩
    by_contra hbad
    have hresp : m.code ≠ SHUTTLESOCK_IPC_CMD_LUA_MESSAGE_RESPONSE := fun h => hbad (.inl h)
    rcases hs with ⟨-, d, hd⟩ | h | ⟨-, p, hp⟩
    · have hboth : d.automatic_gc = true ∧ d.in_shared_memory = true := by
        by_contra hnot
        exact hbad (.inr ⟨d, hd.record, hnot⟩)
      obtain ⟨hauto, hshared⟩ := hboth
      obtain ⟨w, hw⟩ := gc_shared hd hauto hshared
      simp only [cancel, if_neg hresp, lua_ipc_cancel_handler, hd.record, hauto, if_true, gc, hw, Option.map_some,
        Option.some.injEq] at ht
      subst ht
      have hlist : l = d.reftable := List.append_cancel_left (hfreed.symm.trans (Lua.gc_frees hshared hw).2.1)
      have hblock : m.ptr ∈ l.toFinset := by
        rw [hl]
        simp [owned_blocks, hresp, hd.record, hauto, blocks, hshared, hd.block]
      rw [hlist, List.mem_toFinset] at hblock
      exact hd.fresh hblock
    · exact hresp h.1
    · simp [cancel, hresp, lua_ipc_cancel_handler, hp] at ht
  · intro hf
    obtain ⟨t, ht, hlet⟩ := cancel_lets hs hf
    have hempty := owned_of_fine hf
    refine ⟨t, ht, ?_, ⟨[], by simp [hlet.freed], List.nodup_nil, by simp [hempty]⟩, by simp [hlet.slab, hempty], hlet.refs⟩
    rcases hlet.notified with h | ⟨c, hc, h⟩
    · exact ⟨[], by simp [h], by simp, by simp⟩
    · exact ⟨[c], h, by simp, by simpa using hc⟩

/-! ## An outbox -/

/-- the messages of an outbox: what is collected with one of them is collected with no other -/
structure Outbox (s : State) (out : List Msg) : Prop where
  sent : ∀ m ∈ out, Sent s m
  distinct : ((out.filter (automatic s)).map Msg.ptr).Nodup
  active : (out.countP (automatic s) : ℤ) ≤ s.world.ipc_messages_active

theorem automatic_congr (h : t.record = s.record) : automatic t = automatic s := by
  funext m
  simp only [automatic, h]

theorem automatic_own (hm : m.code = SHUTTLESOCK_IPC_CMD_LUA_MESSAGE) (hd : s.record m.ptr = some (.data d)) :
    automatic s m = d.automatic_gc := by
  have hresp : m.code ≠ SHUTTLESOCK_IPC_CMD_LUA_MESSAGE_RESPONSE := by rw [hm]; exact response_ne
  simp [automatic, hresp, hd]

theorem mem_owned_data {k : ℕ} (hs : Sent s m) (h : k ∈ owned_data s m) : automatic s m = true ∧ m.ptr = k := by
  unfold owned_data at h
  split_ifs at h with hresp
  · exact absurd h (Finset.notMem_empty k)
  · rcases hs with ⟨-, d, hd⟩ | hs | ⟨-, p, hp⟩
    · simp only [hd.record] at h
      split_ifs at h with hauto
      · rw [Finset.mem_singleton, hd.block] at h
        exact ⟨by simp [automatic, hresp, hd.record, hauto], h.symm⟩
      · exact absurd h (Finset.notMem_empty k)
    · exact absurd hs.1 hresp
    · simp only [hp] at h
      exact absurd h (Finset.notMem_empty k)

/-- the other messages are as they were -/
theorem Outbox.rest {out : List Msg} (h : Outbox s (m :: out)) (hlet : Lets s m t) : Outbox t out := by
  have hauto : automatic t = automatic s := automatic_congr hlet.record
  have hactive := h.active
  rw [List.countP_cons] at hactive
  have hleft : (out.countP (automatic s) : ℤ) ≤ t.world.ipc_messages_active := by
    rw [hlet.active]
    split_ifs at hactive ⊢ <;> push_cast at hactive <;> omega
  refine ⟨fun m' hm' => ?_, ?_, by rw [hauto]; exact hleft⟩
  · rcases h.sent m' (List.mem_cons_of_mem _ hm') with ⟨hcode, d, hd⟩ | ⟨hcode, d, hd⟩ | ⟨hcode, p, hp⟩
    · refine .inl ⟨hcode, d, ?_⟩
      have hm'auto := automatic_own hcode hd.record
      refine ⟨by rw [hlet.record]; exact hd.record, hd.block, by rw [hlet.procnum]; exact hd.origin, hd.nodup, hd.fresh, ?_,
        by rw [hlet.slab]; exact hd.slab, ?_⟩
      · intro hgc
        rw [hlet.refs]
        refine Finset.mem_sdiff.2 ⟨hd.refs hgc, fun howned => ?_⟩
        -- the message before it would have collected the same data
        obtain ⟨hm, hptr⟩ := mem_owned_data (h.sent m List.mem_cons_self) howned
        have hdis := h.distinct
        rw [List.filter_cons_of_pos hm, List.map_cons, List.nodup_cons] at hdis
        exact hdis.1 (List.mem_map.2 ⟨m', List.mem_filter.2 ⟨hm', hm'auto.trans hgc⟩, hptr.symm⟩)
      · intro hgc
        have hpos : 0 < out.countP (automatic s) := List.countP_pos_iff.2 ⟨m', hm', hm'auto.trans hgc⟩
        omega
    · exact .inr (.inl ⟨hcode, d, by rw [hlet.record]; exact hd⟩)
    · exact .inr (.inr ⟨hcode, p, by rw [hlet.record]; exact hp⟩)
  · have hdis := h.distinct
    rw [hauto]
    by_cases hm : automatic s m = true
    · rw [List.filter_cons_of_pos hm, List.map_cons] at hdis
      exact (List.nodup_cons.1 hdis).2
    · rwa [List.filter_cons_of_neg hm] at hdis

theorem fine_congr (h : t.record = s.record) (m : Msg) : Fine t m ↔ Fine s m := by simp only [Fine, h]

/-- **Exactly when an outbox is cancelled as it should be**: each of its messages is a response, or one that does not go through the
manager with data that is not collected or not in shared memory. -/
theorem stops_iff (s : State) (out : List Msg) (h : Outbox s out) : Stops s out ↔ ∀ m ∈ out, Fine s m := by
  induction out generalizing s with
  | nil => simp [Stops]
  | cons m out ih =>
    have hs := h.sent m List.mem_cons_self
    rw [Stops, cancels_iff hs, List.forall_mem_cons]
    refine and_congr_right fun hf => ?_
    obtain ⟨t, ht, hlet⟩ := cancel_lets hs hf
    have htail := ih t (h.rest hlet)
    simp only [fine_congr hlet.record] at htail
    rw [← htail]
    constructor
    · exact fun hall => hall t ht
    · intro hall u hu
      rw [ht] at hu
      cases hu
      exact hall

/-! ### The master sends to a worker, and the manager cannot take it -/

/-- the data at 1 and the record at 2 for the manager, with a caller -/
def proxied : State where
  world := { Lua.noMessages with procnum := -2, slab := {1, 2}, ipc_messages_active := 1 }
  record k := if k = 1 then some (.data ⟨1, .nil, [], "beep", -2, true, true⟩)
    else if k = 2 then some (.proxy ⟨1, -2, 0, 13⟩) else none
  refs := {1}
  caller k := if k = 1 then some 7 else none
  notified := []

theorem proxied_outbox : Outbox proxied [⟨15, 2⟩] where
  sent m hm := by
    rw [List.mem_singleton] at hm
    subst hm
    exact .inr (.inr ⟨.inl rfl, ⟨1, -2, 0, 13⟩, rfl⟩)
  distinct := by decide
  active := by decide

/-- **Its handler takes the record for the data of the message.** -/
theorem not_stops : Outbox proxied [⟨15, 2⟩] ∧ ¬Stops proxied [⟨15, 2⟩] := by
  refine ⟨proxied_outbox, fun h => ?_⟩
  obtain ⟨t, ht, -⟩ := h.1
  cases ht

/-- the same data sent to another worker -/
def direct : State where
  world := { Lua.noMessages with procnum := 0, userdata := {1}, ipc_messages_active := 1 }
  record k := if k = 1 then some (.data ⟨1, .nil, [], "beep", 0, false, true⟩) else none
  refs := {1}
  caller k := if k = 1 then some 7 else none
  notified := []

theorem direct_own : Own direct 1 ⟨1, .nil, [], "beep", 0, false, true⟩ where
  record := rfl
  block := rfl
  origin := rfl
  nodup := List.nodup_nil
  fresh := List.not_mem_nil
  refs _ := by decide
  slab h := by cases h
  active _ := by decide

theorem direct_outbox : Outbox direct [⟨13, 1⟩] where
  sent m hm := by
    rw [List.mem_singleton] at hm
    subst hm
    exact .inl ⟨rfl, _, direct_own⟩
  distinct := by decide
  active := by decide

theorem stops_direct : Stops direct [⟨13, 1⟩] := by
  refine (stops_iff direct [⟨13, 1⟩] direct_outbox).2 fun m hm => ?_
  rw [List.mem_singleton] at hm
  subst hm
  exact .inr ⟨⟨1, .nil, [], "beep", 0, false, true⟩, rfl, by decide⟩

end Shuttlesock.IpcCancel
