/-
The data of Lua IPC messages is accounted for: a call of `luaS_ipc_send_message` that does not succeed leaves nothing behind, and what a
call has sent is collected once, by a response or by a cancel handler.

The invariant (`Inv`) holds between the operations of a step, with the message in hand: one that was taken out of its ring or outbox and
is not sent on yet. Each operation has a lemma (`Inv.pop_ring`, `Inv.send`, `Inv.collect`, `Inv.set_proxy`, `Inv.pack`), and each handler
is made of these.

Results:
- `accounted_of_ok`: `Accounted` in every state that a run of `Ok` steps reaches.
- `not_accounted`: a call whose send fails does not collect its data.
-/
import Mathlib.Tactic
import Shuttlesock.Lua.IpcSend

namespace Shuttlesock.IpcAccount

open Shuttlesock.Runs Shuttlesock.Flight
open Shuttlesock.Lua (World Data)
open Shuttlesock.Send (Msg Env Apart shuso_ipc_send SHUTTLESOCK_MASTER SHUTTLESOCK_MANAGER SHUTTLESOCK_WORKER)
open Shuttlesock.IpcCancel (Proxy SHUTTLESOCK_IPC_CMD_LUA_MESSAGE SHUTTLESOCK_IPC_CMD_LUA_MESSAGE_RESPONSE
  SHUTTLESOCK_IPC_CMD_LUA_MANAGER_PROXY_MESSAGE SHUTTLESOCK_IPC_CMD_LUA_MANAGER_RECEIVE_PROXIED_MESSAGE)

/-! ## The claim -/

def is_about (s : St) (y : ℕ × ℤ) (m : Msg) : Bool := decide (subject s m = some y)

def Call.key (c : Call) : ℕ × ℤ := (c.block, c.procnum)

/-- **The claim**: a call that does not succeed collects its data and leaves the counter and the shared blocks as before; for the data
of all calls, there is one collection, or one message in flight. No assertion fails. -/
structure Accounted (n : ℕ) (s : St) : Prop where
  restored : ∀ c ∈ s.calls, c.ok = false → c.restored = true
  once : ∀ y, (s.calls.map Call.key).count y = s.collected.count y + inflight n s.ipc (is_about s y)
  sound : s.failed = false

/-- the handler of the message sends another one -/
def answers (s : St) (m : Msg) : Bool :=
  m.code = SHUTTLESOCK_IPC_CMD_LUA_MESSAGE ∨ m.code = SHUTTLESOCK_IPC_CMD_LUA_MANAGER_PROXY_MESSAGE ∨
    m.code = SHUTTLESOCK_IPC_CMD_LUA_MANAGER_RECEIVE_PROXIED_MESSAGE ∧
      (s.proxy m.ptr).any fun d => decide (d.code = SHUTTLESOCK_IPC_CMD_LUA_MESSAGE)

/-- every call with a valid destination succeeds, and an invalid one is not the master's; what a handler sends is taken; and no
process stops with a response, or a message of the manager's codes, in its outbox -/
def Ok (n : ℕ) (s : St) : Act → Prop
  | .call p dst _ e =>
    if procnum_error n dst = none then
      Send.takes (Send.queued s.ipc p) e.dst_state e = true ∧ (Apart p dst → e.record.isSome)
    else in_master p = false
  | .other _ _ _ _ => True
  | .retry _ _ => True
  | .receive q e => ∀ m ∈ (s.ipc.ring q).head?, answers s m = true → Send.takes (Send.queued s.ipc q) e.dst_state e = true
  | .stop p => ∀ x ∈ (s.ipc.outbox p).head?, x.2.code = SHUTTLESOCK_IPC_CMD_LUA_MESSAGE ∨ ¬is_lua x.2

def initial : St where
  ipc := Send.idle
  data _ := none
  success _ := false
  proxy _ := none
  slab := ∅
  active _ := 0
  collected := []
  calls := []
  failed := false

/-! ## The invariant -/

variable {n : ℕ} {s t : St} {m m' : Msg} {a a' : Option Msg} {p q dst : ℤ} {d : Data} {e : Env} {b k : ℕ} {y : ℕ × ℤ}

def refers (k : ℕ) (m : Msg) : Bool :=
  decide (m.code = SHUTTLESOCK_IPC_CMD_LUA_MANAGER_PROXY_MESSAGE ∨
    m.code = SHUTTLESOCK_IPC_CMD_LUA_MANAGER_RECEIVE_PROXIED_MESSAGE) && decide (m.ptr = k)

/-- the record of a message that goes through the manager -/
structure Routed (n : ℕ) (s : St) (k : ℕ) (r : Proxy) : Prop where
  proxy : s.proxy k = some r
  src : r.src ∈ procs n
  dst : r.dst ∈ procs n
  data : ∃ d, s.data r.data = some d ∧ d.automatic_gc = true ∧ d.origin_procnum = r.src
  code : r.code = SHUTTLESOCK_IPC_CMD_LUA_MESSAGE ∨
    r.code = SHUTTLESOCK_IPC_CMD_LUA_MESSAGE_RESPONSE ∧ s.success r.data = true

/-- a message that goes to q -/
structure Good (n : ℕ) (s : St) (q : ℤ) (m : Msg) : Prop where
  message : m.code = SHUTTLESOCK_IPC_CMD_LUA_MESSAGE →
    ∃ d, s.data m.ptr = some d ∧ d.automatic_gc = true ∧ d.origin_procnum ∈ procs n ∧ ¬Apart q d.origin_procnum
  response : m.code = SHUTTLESOCK_IPC_CMD_LUA_MESSAGE_RESPONSE →
    ∃ d, s.data m.ptr = some d ∧ d.automatic_gc = true ∧ s.success m.ptr = true ∧ d.origin_procnum = q
  proxy : m.code = SHUTTLESOCK_IPC_CMD_LUA_MANAGER_PROXY_MESSAGE → q = SHUTTLESOCK_MANAGER ∧ ∃ r, Routed n s m.ptr r
  receive : m.code = SHUTTLESOCK_IPC_CMD_LUA_MANAGER_RECEIVE_PROXIED_MESSAGE →
    ∃ r, Routed n s m.ptr r ∧ (r.code = SHUTTLESOCK_IPC_CMD_LUA_MESSAGE_RESPONSE → q = r.src)

/-- a message in the outbox of p -/
def Own (s : St) (p : ℤ) (m : Msg) : Prop :=
  m.code = SHUTTLESOCK_IPC_CMD_LUA_MESSAGE → ∃ d, s.data m.ptr = some d ∧ d.origin_procnum = p

/-- the message in hand, as a number -/
def hand (c : Msg → Bool) : Option Msg → ℕ
  | none => 0
  | some m => one c m

def key_in (b : Bool) (y : ℕ × ℤ) : Bool := in_master y.2 == b

/-- **The invariant**, between two operations of a step: a message may be in hand, out of its ring and not sent on. -/
structure Inv (n : ℕ) (s : St) (a : Option Msg) : Prop where
  placed : ∀ p ∈ procs n, ∀ x ∈ s.ipc.outbox p, x.1 ∈ procs n
  ring : ∀ q ∈ procs n, ∀ m ∈ s.ipc.ring q, Good n s q m
  outbox : ∀ p ∈ procs n, ∀ x ∈ s.ipc.outbox p, Good n s x.1 x.2 ∧ Own s p x.2
  block : ∀ b d, s.data b = some d → d.block = b
  /-- one message refers to a record, and only as long as it is allocated -/
  single : ∀ k, inflight n s.ipc (refers k) + hand (refers k) a ≤ if (s.proxy k).isSome then 1 else 0
  counts : ∀ y, (s.calls.map Call.key).count y = s.collected.count y + inflight n s.ipc (is_about s y) + hand (is_about s y) a
  active : ∀ b, s.active b = ((s.calls.map Call.key).countP (key_in b) : ℤ) - s.collected.countP (key_in b)
  restored : ∀ c ∈ s.calls, c.ok = false → c.restored = true
  sound : s.failed = false

theorem Inv.accounted (h : Inv n s none) : Accounted n s := ⟨h.restored, fun y => h.counts y, h.sound⟩

theorem Inv.flying (h : Inv n s a) (hm : Flying n s.ipc m) : ∃ q, Good n s q m := by
  obtain ⟨p, hp, hm | ⟨x, hx, rfl⟩⟩ := hm
  · exact ⟨p, h.ring p hp m hm⟩
  · exact ⟨x.1, (h.outbox p hp x hx).1⟩

/-! ### What a message looks at -/

/-- t has the same records as s, as far as m looks at them -/
structure Sees (s t : St) (m : Msg) : Prop where
  data : ∀ b, touches s b m = true → t.data b = s.data b
  success : ∀ b, s.success b = true → t.success b = true
  proxy : refers m.ptr m = true → t.proxy m.ptr = s.proxy m.ptr

/-- one of the two codes whose ptr is the data itself -/
def Direct (m : Msg) : Prop :=
  m.code = SHUTTLESOCK_IPC_CMD_LUA_MESSAGE ∨ m.code = SHUTTLESOCK_IPC_CMD_LUA_MESSAGE_RESPONSE

/-- one of the two codes of the manager -/
def Indirect (m : Msg) : Prop :=
  m.code = SHUTTLESOCK_IPC_CMD_LUA_MANAGER_PROXY_MESSAGE ∨
    m.code = SHUTTLESOCK_IPC_CMD_LUA_MANAGER_RECEIVE_PROXIED_MESSAGE

theorem Indirect.not_direct (h : Indirect m) : ¬Direct m := by
  rintro (h1 | h1) <;> rcases h with h2 | h2 <;> rw [h1] at h2 <;> exact absurd h2 (by decide)

theorem is_lua_iff : is_lua m = true ↔ Direct m ∨ Indirect m := by
  simp [is_lua, Direct, Indirect, or_assoc]

theorem subject_direct (h : Direct m) : subject s m = (s.data m.ptr).map fun d => (m.ptr, d.origin_procnum) := if_pos h

theorem subject_indirect (h : Indirect m) :
    subject s m = (s.proxy m.ptr).bind fun d => (s.data d.data).map fun data => (d.data, data.origin_procnum) :=
  (if_neg h.not_direct).trans (if_pos h)

theorem subject_other (h : ¬is_lua m) : subject s m = none := by
  rw [is_lua_iff, not_or] at h
  exact (if_neg h.1).trans (if_neg h.2)

theorem refers_iff : refers k m = true ↔ Indirect m ∧ m.ptr = k := by simp [refers, Indirect]

theorem Routed.subject {r : Proxy} (h : Routed n s m.ptr r) (hm : Indirect m) : subject s m = some (r.data, r.src) := by
  obtain ⟨d, hd, -, horigin⟩ := h.data
  simp [subject_indirect hm, h.proxy, hd, horigin]

theorem Good.direct (h : Good n s q m) (hm : Direct m) :
    ∃ d, s.data m.ptr = some d ∧ d.automatic_gc = true ∧ IpcAccount.subject s m = some (m.ptr, d.origin_procnum) := by
  have hdata : ∃ d, s.data m.ptr = some d ∧ d.automatic_gc = true := by
    rcases hm with hm | hm
    · obtain ⟨d, hd, hauto, -⟩ := h.message hm
      exact ⟨d, hd, hauto⟩
    · obtain ⟨d, hd, hauto, -⟩ := h.response hm
      exact ⟨d, hd, hauto⟩
  obtain ⟨d, hd, hauto⟩ := hdata
  exact ⟨d, hd, hauto, by simp [subject_direct hm, hd]⟩

theorem Good.indirect (h : Good n s q m) (hm : Indirect m) : ∃ r, Routed n s m.ptr r := by
  rcases hm with hm | hm
  · exact (h.proxy hm).2
  · obtain ⟨r, hr, -⟩ := h.receive hm
    exact ⟨r, hr⟩

theorem touches_of_subject (h : subject s m = some y) : touches s y.1 m = true := by simp [touches, h]

theorem Sees.of_direct (h : Sees s t m) (hm : Direct m) (hd : s.data m.ptr = some d) : t.data m.ptr = some d := by
  have hsub : subject s m = some (m.ptr, d.origin_procnum) := by simp [subject_direct hm, hd]
  rw [h.data m.ptr (touches_of_subject hsub), hd]

theorem Sees.routed {r : Proxy} (h : Sees s t m) (hm : Indirect m) (hr : Routed n s m.ptr r) : Routed n t m.ptr r where
  proxy := by rw [h.proxy (refers_iff.2 ⟨hm, rfl⟩), hr.proxy]
  src := hr.src
  dst := hr.dst
  data := by
    obtain ⟨d, hd⟩ := hr.data
    exact ⟨d, by rw [h.data r.data (touches_of_subject (hr.subject hm)), hd.1], hd.2⟩
  code := hr.code.imp_right fun hc => ⟨hc.1, h.success _ hc.2⟩

/-- what it looks at is as good as before -/
theorem Sees.good (h : Sees s t m) (hg : Good n s q m) : Good n t q m where
  message hm := by
    obtain ⟨d, hd, hrest⟩ := hg.message hm
    exact ⟨d, h.of_direct (.inl hm) hd, hrest⟩
  response hm := by
    obtain ⟨d, hd, hauto, hsucc, horigin⟩ := hg.response hm
    exact ⟨d, h.of_direct (.inr hm) hd, hauto, h.success _ hsucc, horigin⟩
  proxy hm := by
    obtain ⟨hq, r, hr⟩ := hg.proxy hm
    exact ⟨hq, r, h.routed (.inl hm) hr⟩
  receive hm := by
    obtain ⟨r, hr, hq⟩ := hg.receive hm
    exact ⟨r, h.routed (.inr hm) hr, hq⟩

theorem Sees.own (h : Sees s t m) (ho : Own s p m) : Own t p m := by
  intro hm
  obtain ⟨d, hd, horigin⟩ := ho hm
  exact ⟨d, h.of_direct (.inl hm) hd, horigin⟩

theorem Sees.subject (h : Sees s t m) (hg : Good n s q m) : subject t m = subject s m := by
  by_cases hdir : Direct m
  · obtain ⟨d, hd, -, hsub⟩ := hg.direct hdir
    rw [hsub, subject_direct hdir, h.of_direct hdir hd]
    rfl
  · by_cases hind : Indirect m
    · obtain ⟨r, hr⟩ := hg.indirect hind
      rw [hr.subject hind, (h.routed hind hr).subject hind]
    · have hnot : ¬is_lua m := fun hlua => (is_lua_iff.1 hlua).elim hdir hind
      rw [subject_other hnot, subject_other hnot]

/-- **Another state with the same messages**, each of which sees the same: only the hand, the history and what no message looks at have
changed. -/
theorem Inv.sees (h : Inv n s a) (hipc : t.ipc = s.ipc) (hsees : ∀ m, Flying n s.ipc m → Sees s t m)
    (hblock : ∀ b d, t.data b = some d → d.block = b)
    (hsingle : ∀ k, inflight n s.ipc (refers k) + hand (refers k) a' ≤ if (t.proxy k).isSome then 1 else 0)
    (hcounts : ∀ y, (t.calls.map Call.key).count y = t.collected.count y + inflight n s.ipc (is_about s y) + hand (is_about t y) a')
    (hactive : ∀ b, t.active b = ((t.calls.map Call.key).countP (key_in b) : ℤ) - t.collected.countP (key_in b))
    (hrestored : ∀ c ∈ t.calls, c.ok = false → c.restored = true) (hsound : t.failed = false) : Inv n t a' where
  placed := by rw [hipc]; exact h.placed
  ring q hq m hm := by
    rw [hipc] at hm
    exact (hsees m ⟨q, hq, .inl hm⟩).good (h.ring q hq m hm)
  outbox p hp x hx := by
    rw [hipc] at hx
    have hs := hsees x.2 ⟨p, hp, .inr ⟨x, hx, rfl⟩⟩
    obtain ⟨hgood, hown⟩ := h.outbox p hp x hx
    exact ⟨hs.good hgood, hs.own hown⟩
  block := hblock
  single k := by rw [hipc]; exact hsingle k
  counts y := by
    rw [hcounts, hipc]
    congr 2
    refine inflight_eq_of fun m hm => ?_
    obtain ⟨q, hgood⟩ := h.flying hm
    rw [is_about, is_about, (hsees m hm).subject hgood]
  active := hactive
  restored := hrestored
  sound := hsound

/-! ### Messages that come and go -/

theorem refers_other (hm : ¬is_lua m) : refers k m = false := by
  rw [Bool.eq_false_iff, ne_eq, refers_iff]
  exact fun h => hm (is_lua_iff.2 (.inr h.1))

theorem is_about_other (hm : ¬is_lua m) : is_about s y m = false := by simp [is_about, subject_other hm]

theorem good_other (hm : ¬is_lua m) : Good n s q m := by
  rw [is_lua_iff, not_or] at hm
  exact ⟨fun h => absurd (.inl h) hm.1, fun h => absurd (.inr h) hm.1, fun h => absurd (.inl h) hm.2,
    fun h => absurd (.inr h) hm.2⟩

theorem own_other (hm : ¬is_lua m) : Own s p m := fun h => absurd (is_lua_iff.2 (.inl (.inl h))) hm

/-- **Other messages in flight, or in hand**: the records are the same. -/
theorem Inv.flow {i : Send.State} (h : Inv n s a)
    (hring : ∀ q ∈ procs n, ∀ m ∈ i.ring q, m ∈ s.ipc.ring q ∨ Good n s q m)
    (houtbox : ∀ p ∈ procs n, ∀ x ∈ i.outbox p, x ∈ s.ipc.outbox p ∨ x.1 ∈ procs n ∧ Good n s x.1 x.2 ∧ Own s p x.2)
    (hcount : ∀ c : Msg → Bool, (∀ m, ¬is_lua m → c m = false) → inflight n i c + hand c a' = inflight n s.ipc c + hand c a) :
    Inv n { s with ipc := i } a' := by
  have hsees (m : Msg) : Sees s { s with ipc := i } m := ⟨fun _ _ => rfl, fun _ h => h, fun _ => rfl⟩
  refine ⟨fun p hp x hx => ?_, fun q hq m hm => ?_, fun p hp x hx => ?_, h.block, fun k => ?_, fun y => ?_, h.active, h.restored,
    h.sound⟩
  · exact (houtbox p hp x hx).elim (h.placed p hp x) And.left
  · exact (hsees m).good ((hring q hq m hm).elim (h.ring q hq m) id)
  · have hx' : Good n s x.1 x.2 ∧ Own s p x.2 := (houtbox p hp x hx).elim (h.outbox p hp x) And.right
    exact ⟨(hsees x.2).good hx'.1, (hsees x.2).own hx'.2⟩
  · have hc := hcount (refers k) fun m hm => refers_other hm
    rw [hc]
    exact h.single k
  · have hc := hcount (is_about s y) fun m hm => is_about_other hm
    have h1 := h.counts y
    change _ = s.collected.count y + inflight n i (is_about s y) + hand (is_about s y) a'
    rw [add_assoc, hc, ← add_assoc]
    exact h1

/-- the message that is handled next is in hand -/
theorem Inv.pop_ring {rest : List Msg} (h : Inv n s none) (hq : q ∈ procs n) (hr : s.ipc.ring q = m :: rest) :
    Inv n { s with ipc := { s.ipc with ring := Function.update s.ipc.ring q rest } } (some m) := by
  refine h.flow (fun p hp x hx => .inl ?_) (fun p hp x hx => .inl hx) fun c _ => ?_
  · exact mem_update_tail (fun y hy => by rw [hr]; exact List.mem_cons_of_mem _ hy) hx
  · have hc := inflight_ring (s := s.ipc) hq rest c
    rw [hr, List.countP_cons] at hc
    simp only [hand, one]
    omega

theorem Inv.pop_outbox {x : ℤ × Msg} {next : List (ℤ × Msg)} (h : Inv n s none) (hp : p ∈ procs n)
    (hr : s.ipc.outbox p = x :: next) :
    Inv n { s with ipc := { s.ipc with outbox := Function.update s.ipc.outbox p next } } (some x.2) := by
  refine h.flow (fun q hq z hz => .inl hz) (fun q hq z hz => .inl ?_) fun c _ => ?_
  · exact mem_update_tail (fun y hy => by rw [hr]; exact List.mem_cons_of_mem _ hy) hz
  · have hc := inflight_outbox (s := s.ipc) hp next c
    rw [hr, List.countP_cons] at hc
    simp only [hand, one]
    omega

/-- a send that is taken -/
theorem Inv.push {r : Send.State × Bool} (h : Inv n s (some m)) (hr : Sends n s.ipc p dst m r) (hok : r.2 = true)
    (hdst : dst ∈ procs n) (hgood : Good n s dst m) (hown : Own s p m) : Inv n { s with ipc := r.1 } none := by
  refine h.flow (fun q hq x hx => ?_) (fun q hq x hx => ?_) fun c _ => ?_
  · rcases hr.ring q x hx with hx | ⟨rfl, rfl⟩
    · exact .inl hx
    · exact .inr hgood
  · rcases hr.outbox q x hx with hx | ⟨rfl, rfl⟩
    · exact .inl hx
    · exact .inr ⟨hdst, hgood, hown⟩
  · rw [hr.inflight, hok]
    rfl

theorem Inv.other {r : Send.State × Bool} (h : Inv n s none) (hr : Sends n s.ipc p dst m r) (hm : ¬is_lua m)
    (hdst : dst ∈ procs n) : Inv n { s with ipc := r.1 } none := by
  refine h.flow (fun q hq x hx => ?_) (fun q hq x hx => ?_) fun c hc => ?_
  · rcases hr.ring q x hx with hx | ⟨-, rfl⟩
    · exact .inl hx
    · exact .inr (good_other hm)
  · rcases hr.outbox q x hx with hx | ⟨-, rfl⟩
    · exact .inl hx
    · exact .inr ⟨hdst, good_other hm, own_other hm⟩
  · rw [hr.inflight, one, hc m hm]
    simp

theorem Inv.retry {i : Send.State} (h : Inv n s none) (hp : p ∈ procs n) (hr : Retries n s.ipc p i) :
    Inv n { s with ipc := i } none := by
  refine h.flow (fun q hq x hx => ?_) (fun q hq x hx => .inl (hr.outbox q x hx)) fun c _ => by rw [hr.inflight]
  exact (hr.ring q x hx).imp_right fun hx => (h.outbox p hp (q, x) hx).1

/-- a message that is no Lua message is done with -/
theorem Inv.drop (h : Inv n s (some m)) (hm : ¬is_lua m) : Inv n s none := by
  refine h.flow (i := s.ipc) (fun q hq x hx => .inl hx) (fun q hq x hx => .inl hx) fun c hc => ?_
  simp [hand, one, hc m hm]

/-! ### Collecting -/

/-- the collected data is that of calls, each call at most once -/
theorem Inv.subperm (h : Inv n s (some m)) (hy : subject s m = some y) :
    (y :: s.collected).Subperm (s.calls.map Call.key) := by
  rw [List.subperm_ext_iff]
  intro x _
  have hcount := h.counts x
  rw [hcount, List.count_cons]
  by_cases hx : y = x
  · subst hx
    have hone : hand (is_about s y) (some m) = 1 := by simp [hand, one, is_about, hy]
    rw [hone]
    simp
  · simp only [beq_iff_eq, hx, if_false]
    omega

/-- so the counter of its process is not zero -/
theorem Inv.active_pos (h : Inv n s (some m)) (hy : subject s m = some y) : 0 < s.active (in_master y.2) := by
  have hle := (h.subperm hy).countP_le (key_in (in_master y.2))
  rw [List.countP_cons, if_pos (by simp [key_in])] at hle
  rw [h.active]
  omega

theorem gc_spec (horigin : d.origin_procnum = p) (hpos : 0 < s.active (in_master p)) :
    ∃ slab, luaS_lua_ipc_gc_data s p d = some { s with
        slab := slab
        active := Function.update s.active (in_master p) (s.active (in_master p) - 1)
        collected := s.collected ++ [(d.block, p)] } ∧
      (d.in_shared_memory = false → slab = s.slab) := by
  obtain ⟨-, -, hprocnum, hactive⟩ := Lua.foldl_slab_free (world s p) d.reftable
  have hge : ¬(world s p).ipc_messages_active - 1 < 0 := by
    change ¬s.active (in_master p) - 1 < 0
    omega
  have hworld : d.origin_procnum = (world s p).procnum := horigin
  unfold luaS_lua_ipc_gc_data Lua.luaS_lua_ipc_gc_data
  cases hshared : d.in_shared_memory with
  | true =>
    simp only [hworld, hactive, hge, ne_eq, not_true_eq_false, if_false, if_true, Option.map_some]
    exact ⟨_, rfl, fun h => by cases h⟩
  | false =>
    simp only [hworld, hge, ne_eq, not_true_eq_false, Bool.false_eq_true, if_false, Option.map_some]
    exact ⟨_, rfl, fun _ => rfl⟩

/-- what collecting the data d in process p leaves -/
structure Collects (s : St) (p : ℤ) (d : Data) (t : St) : Prop where
  ipc : t.ipc = s.ipc
  data : t.data = s.data
  success : t.success = s.success
  proxy : t.proxy = s.proxy
  calls : t.calls = s.calls
  collected : t.collected = s.collected ++ [(d.block, p)]
  active : t.active = Function.update s.active (in_master p) (s.active (in_master p) - 1)
  slab : d.in_shared_memory = false → t.slab = s.slab

/-- **The data of the message in hand is collected.** -/
theorem Inv.collect (h : Inv n s (some m)) (hy : subject s m = some (d.block, p)) (horigin : d.origin_procnum = p) :
    ∃ t, luaS_lua_ipc_gc_data s p d = some t ∧ Collects s p d t ∧ Inv n t none := by
  obtain ⟨slab, hgc, hslab⟩ := gc_spec horigin (h.active_pos hy)
  refine ⟨_, hgc, ⟨rfl, rfl, rfl, rfl, rfl, rfl, rfl, hslab⟩, ?_⟩
  refine h.sees rfl (fun m _ => ⟨fun _ _ => rfl, fun _ h => h, fun _ => rfl⟩) h.block (fun k => ?_) (fun y => ?_) (fun b => ?_)
    h.restored h.sound
  · exact le_trans (Nat.add_le_add_left (Nat.zero_le _) _) (h.single k)
  · have hcount := h.counts y
    simp only [List.count_append, List.count_singleton, hand]
    simp only [hand, one, is_about, hy, Option.some.injEq, decide_eq_true_eq] at hcount
    simp only [beq_iff_eq]
    rw [hcount]
    omega
  · have hactive := h.active b
    simp only [List.countP_append, List.countP_singleton]
    by_cases hb : in_master p = b
    · subst hb
      simp only [Function.update_self, key_in, beq_self_eq_true, if_true]
      rw [hactive]
      push_cast
      omega
    · rw [Function.update_of_ne (Ne.symm hb), hactive]
      simp [key_in, hb]

/-! ### Records -/

theorem Inv.set_success (h : Inv n s a) (b : ℕ) : Inv n { s with success := Function.update s.success b true } a := by
  refine h.sees rfl (fun m _ => ⟨fun _ _ => rfl, fun b' hb' => ?_, fun _ => rfl⟩) h.block h.single h.counts h.active h.restored
    h.sound
  by_cases hb : b' = b
  · simp [hb]
  · simpa [Function.update_of_ne hb] using hb'

/-- a record that no message in flight refers to -/
theorem Inv.set_proxy (h : Inv n s a) (hk : inflight n s.ipc (refers k) = 0) (o : Option Proxy) (slab : Finset ℕ)
    (hself : hand (refers k) a' ≤ if o.isSome then 1 else 0)
    (hother : ∀ j, j ≠ k → hand (refers j) a' ≤ hand (refers j) a)
    (habout : ∀ y, hand (is_about { s with slab := slab, proxy := Function.update s.proxy k o } y) a' = hand (is_about s y) a) :
    Inv n { s with slab := slab, proxy := Function.update s.proxy k o } a' := by
  refine h.sees rfl (fun m hm => ⟨fun _ _ => rfl, fun _ h => h, fun hrefers => ?_⟩) h.block (fun j => ?_) (fun y => ?_) h.active
    h.restored h.sound
  · have hne : m.ptr ≠ k := by
      intro heq
      have hfalse := eq_false_of_inflight hk hm
      rw [← heq, hrefers] at hfalse
      cases hfalse
    exact Function.update_of_ne hne _ _
  · by_cases hj : j = k
    · subst hj
      simpa [hk] using hself
    · simp only [Function.update_of_ne hj]
      exact le_trans (Nat.add_le_add_left (hother j hj) _) (h.single j)
  · rw [habout]
    exact h.counts y

/-- another message about the same data, and the same record, is in hand -/
theorem Inv.swap (h : Inv n s (some m)) (hrefers : ∀ k, refers k m' = refers k m) (hsub : subject s m' = subject s m) :
    Inv n s (some m') := by
  have hsees (m : Msg) : Sees s s m := ⟨fun _ _ => rfl, fun _ h => h, fun _ => rfl⟩
  refine h.sees rfl (fun m _ => hsees m) h.block (fun k => ?_) (fun y => ?_) h.active h.restored h.sound
  · rw [hand, one, hrefers]
    exact h.single k
  · rw [hand, one, is_about, hsub]
    exact h.counts y

/-! ### Handlers -/

/-- the send of a handler is taken -/
theorem Inv.send (h : Inv n s (some m)) (hp : p ∈ procs n) (hdst : dst ∈ procs n) (hnear : ¬Apart p dst)
    (htake : Send.takes (Send.queued s.ipc p) e.dst_state e = true) (hgood : Good n s dst m) (hown : Own s p m) :
    (shuso_ipc_send s.ipc p dst m e).2 = true ∧ Inv n { s with ipc := (shuso_ipc_send s.ipc p dst m e).1 } none := by
  have hsend : shuso_ipc_send s.ipc p dst m e = Send.ipc_send_near s.ipc p dst m e.dst_state e := if_neg hnear
  have hok : (Send.ipc_send_near s.ipc p dst m e.dst_state e).2 = true :=
    (Send.near_ok s.ipc p dst m e.dst_state e).1.trans htake
  rw [hsend]
  exact ⟨hok, h.push (near_sends m e.dst_state e hp hdst) hok hdst hgood hown⟩

theorem ne_code {i j : ℕ} (hij : i ≠ j) : (⟨i, b⟩ : Msg).code ≠ j := hij

/-- the direct message -/
theorem message_inv (h : Inv n s (some m)) (hgood : Good n s q m) (hq : q ∈ procs n)
    (hm : m.code = SHUTTLESOCK_IPC_CMD_LUA_MESSAGE) (htake : Send.takes (Send.queued s.ipc q) e.dst_state e = true) :
    ∃ t, lua_ipc_handler s q m.ptr e = some t ∧ Inv n t none := by
  obtain ⟨d, hd, hauto, horigin, hnear⟩ := hgood.message hm
  refine ⟨_, by rw [lua_ipc_handler, hd]; rfl, ?_⟩
  have hmsg : m = ⟨SHUTTLESOCK_IPC_CMD_LUA_MESSAGE, m.ptr⟩ := by rw [← hm]
  have hsucc := h.set_success m.ptr
  set s' : St := { s with success := Function.update s.success m.ptr true } with hs'
  have hswap : Inv n s' (some ⟨SHUTTLESOCK_IPC_CMD_LUA_MESSAGE_RESPONSE, m.ptr⟩) := by
    refine hsucc.swap (fun k => ?_) ?_
    · rw [hmsg]
      rfl
    · rw [subject_direct (.inr rfl), subject_direct (.inl hm)]
  refine (hswap.send hq horigin hnear htake ⟨?_, ?_, ?_, ?_⟩ ?_).2
  · exact fun h => absurd h (ne_code (by decide))
  · exact fun _ => ⟨d, hd, hauto, by simp [hs'], rfl⟩
  · exact fun h => absurd h (ne_code (by decide))
  · exact fun h => absurd h (ne_code (by decide))
  · exact fun h => absurd h (ne_code (by decide))

theorem response_inv (h : Inv n s (some m)) (hgood : Good n s q m) (hm : m.code = SHUTTLESOCK_IPC_CMD_LUA_MESSAGE_RESPONSE) :
    ∃ t, handle_lua_ipc_response s q m.ptr = some t ∧ Inv n t none := by
  obtain ⟨d, hd, hauto, hsucc, horigin⟩ := hgood.response hm
  have hsub : subject s m = some (d.block, q) := by
    rw [subject_direct (.inr hm), hd, h.block _ d hd, ← horigin]
    rfl
  obtain ⟨t, ht, -, hinv⟩ := h.collect hsub horigin
  refine ⟨t, ?_, hinv⟩
  simp [handle_lua_ipc_response, hd, hsucc, horigin, hauto, ht]

/-- a message to the manager is forwarded -/
theorem forward_inv (h : Inv n s (some m)) (hgood : Good n s q m)
    (hm : m.code = SHUTTLESOCK_IPC_CMD_LUA_MANAGER_PROXY_MESSAGE)
    (htake : Send.takes (Send.queued s.ipc q) e.dst_state e = true) :
    ∃ t, lua_ipc_manager_proxy_handler s q m.ptr e = some t ∧ Inv n t none := by
  obtain ⟨rfl, r, hr⟩ := hgood.proxy hm
  have hmsg : m = ⟨SHUTTLESOCK_IPC_CMD_LUA_MANAGER_PROXY_MESSAGE, m.ptr⟩ := by rw [← hm]
  have hcode : ¬(r.code ≠ SHUTTLESOCK_IPC_CMD_LUA_MESSAGE ∧
      ¬(r.code = SHUTTLESOCK_IPC_CMD_LUA_MESSAGE_RESPONSE ∧ s.success r.data = true)) :=
    fun hbad => hr.code.elim hbad.1 hbad.2
  refine ⟨_, by simp only [lua_ipc_manager_proxy_handler, hr.proxy, Option.bind_some, ne_eq, not_true_eq_false, if_false,
    if_neg hcode]; rfl, ?_⟩
  set dst : ℤ := if r.code = SHUTTLESOCK_IPC_CMD_LUA_MESSAGE then r.dst else r.src with hdst
  have hmem : dst ∈ procs n := by
    rw [hdst]
    split_ifs
    · exact hr.dst
    · exact hr.src
  have hswap : Inv n s (some ⟨SHUTTLESOCK_IPC_CMD_LUA_MANAGER_RECEIVE_PROXIED_MESSAGE, m.ptr⟩) := by
    refine h.swap (fun k => ?_) ?_
    · rw [hmsg]
      rfl
    · rw [subject_indirect (.inr rfl), subject_indirect (.inl hm)]
  refine (hswap.send manager_mem hmem (not_apart_manager dst) htake ⟨?_, ?_, ?_, ?_⟩ ?_).2
  · exact fun h => absurd h (ne_code (by decide))
  · exact fun h => absurd h (ne_code (by decide))
  · exact fun h => absurd h (ne_code (by decide))
  · refine fun _ => ⟨r, hr, fun hresp => ?_⟩
    rw [hdst, hresp, if_neg (by decide)]
  · exact fun h => absurd h (ne_code (by decide))

/-- the record of the message in hand is that of no other message -/
theorem Inv.alone (h : Inv n s (some m)) (hm : Indirect m) : inflight n s.ipc (refers m.ptr) = 0 := by
  have hone : hand (refers m.ptr) (some m) = 1 := by simp [hand, one, refers_iff.2 ⟨hm, rfl⟩]
  have hle := h.single m.ptr
  rw [hone] at hle
  split_ifs at hle <;> omega

/-- the destination responds through the manager -/
theorem respond_inv {r : Proxy} (h : Inv n s (some m)) (hq : q ∈ procs n)
    (hm : m.code = SHUTTLESOCK_IPC_CMD_LUA_MANAGER_RECEIVE_PROXIED_MESSAGE) (hr : Routed n s m.ptr r)
    (hcode : r.code = SHUTTLESOCK_IPC_CMD_LUA_MESSAGE) (htake : Send.takes (Send.queued s.ipc q) e.dst_state e = true) :
    ∃ t, lua_ipc_proxy_receive_handler s q m.ptr e = some t ∧ Inv n t none := by
  refine ⟨_, by simp only [lua_ipc_proxy_receive_handler, hr.proxy, Option.bind_some, hcode, if_true]; rfl, ?_⟩
  have hmsg : m = ⟨SHUTTLESOCK_IPC_CMD_LUA_MANAGER_RECEIVE_PROXIED_MESSAGE, m.ptr⟩ := by rw [← hm]
  set r' : Proxy := { r with code := SHUTTLESOCK_IPC_CMD_LUA_MESSAGE_RESPONSE } with hr'
  have hsucc := h.set_success r.data
  set s₁ : St := { s with success := Function.update s.success r.data true } with hs₁
  have hself : hand (refers m.ptr) (some ⟨SHUTTLESOCK_IPC_CMD_LUA_MANAGER_PROXY_MESSAGE, m.ptr⟩) ≤ 1 :=
    one_le_one _ _
  have hproxy : Inv n { s₁ with slab := s₁.slab, proxy := Function.update s₁.proxy m.ptr (some r') }
      (some ⟨SHUTTLESOCK_IPC_CMD_LUA_MANAGER_PROXY_MESSAGE, m.ptr⟩) := by
    refine hsucc.set_proxy (hsucc.alone (.inr hm)) (some r') s₁.slab hself (fun j _ => ?_) fun y => ?_
    · rw [hmsg]
      exact le_refl _
    · rw [hand, hand, one, one, is_about, is_about, subject_indirect (.inl rfl), subject_indirect (.inr hm)]
      simp [hs₁, hr.proxy, hr']
  refine (hproxy.send hq manager_mem (not_apart_to_manager q) htake ⟨?_, ?_, ?_, ?_⟩ ?_).2
  · exact fun h => absurd h (ne_code (by decide))
  · exact fun h => absurd h (ne_code (by decide))
  · exact fun _ => ⟨rfl, r', ⟨by simp, hr.src, hr.dst, hr.data, .inr ⟨rfl, by simp [hs₁, hr']⟩⟩⟩
  · exact fun h => absurd h (ne_code (by decide))
  · exact fun h => absurd h (ne_code (by decide))

/-- the response through the manager arrives -/
theorem arrive_inv {r : Proxy} (h : Inv n s (some m)) (hm : Indirect m) (hr : Routed n s m.ptr r)
    (hcode : r.code = SHUTTLESOCK_IPC_CMD_LUA_MESSAGE_RESPONSE) (hsrc : q = r.src) :
    ∃ t, lua_ipc_proxy_receive_handler s q m.ptr e = some t ∧ Inv n t none := by
  subst hsrc
  obtain ⟨d, hd, hauto, horigin⟩ := hr.data
  have hsucc : s.success r.data = true := by
    rcases hr.code with hc | hc
    · rw [hcode] at hc
      exact absurd hc (by decide)
    · exact hc.2
  have hne : SHUTTLESOCK_IPC_CMD_LUA_MESSAGE_RESPONSE ≠ SHUTTLESOCK_IPC_CMD_LUA_MESSAGE := by decide
  have hsub : subject s m = some (d.block, r.src) := by rw [hr.subject hm, h.block _ d hd]
  obtain ⟨t, ht, hcol, hinv⟩ := h.collect hsub horigin
  have halone := h.alone hm
  rw [← hcol.ipc] at halone
  refine ⟨{ t with slab := t.slab.erase m.ptr, proxy := Function.update t.proxy m.ptr none }, ?_, ?_⟩
  · simp [lua_ipc_proxy_receive_handler, hr.proxy, hcode, hne, handle_lua_ipc_response, hd, hsucc, horigin, hauto, ht]
  · exact hinv.set_proxy halone none (t.slab.erase m.ptr) (le_refl _) (fun j _ => le_refl _) fun y => rfl

/-- **A handler whose send is taken** keeps the invariant, and fails no assertion. -/
theorem handle_inv (h : Inv n s (some m)) (hgood : Good n s q m) (hq : q ∈ procs n)
    (htake : answers s m = true → Send.takes (Send.queued s.ipc q) e.dst_state e = true) :
    ∃ t, handle s q m e = some t ∧ Inv n t none := by
  unfold handle
  split_ifs with h13 h14 h15 h16
  · exact message_inv h hgood hq h13 (htake (by simp [answers, h13]))
  · exact response_inv h hgood h14
  · exact forward_inv h hgood h15 (htake (by simp [answers, h15]))
  · obtain ⟨r, hr, hsrc⟩ := hgood.receive h16
    rcases hr.code with hcode | hcode
    · exact respond_inv h hq h16 hr hcode (htake (by simp [answers, h16, hr.proxy, hcode]))
    · exact arrive_inv h (.inr h16) hr hcode.1 (hsrc hcode.1)
  · exact ⟨s, rfl, h.drop (by simp [is_lua, h13, h14, h15, h16])⟩

/-- **The cancel handler** of a direct message, or of another one. -/
theorem cancel_inv (h : Inv n s (some m)) (hgood : Good n s q m) (hown : Own s p m)
    (hm : m.code = SHUTTLESOCK_IPC_CMD_LUA_MESSAGE ∨ ¬is_lua m) : ∃ t, cancel s p m = some t ∧ Inv n t none := by
  rcases hm with hm | hm
  · obtain ⟨d, hd, hauto, -⟩ := hgood.message hm
    obtain ⟨d', hd', horigin⟩ := hown hm
    rw [hd] at hd'
    cases hd'
    have hsub : subject s m = some (d.block, p) := by
      rw [subject_direct (.inl hm), hd, h.block _ d hd, ← horigin]
      rfl
    obtain ⟨t, ht, -, hinv⟩ := h.collect hsub horigin
    exact ⟨t, by simp [cancel, hm, lua_ipc_cancel_handler, hd, hauto, ht], hinv⟩
  · have hnot := hm
    rw [is_lua_iff, not_or] at hm
    exact ⟨s, (if_neg fun hc => hm.1 (.inl hc)).trans (if_neg hm.2), h.drop hnot⟩

/-! ### Calls -/

theorem procnum_error_none : procnum_error n dst = none ↔ dst ∈ procs n := by
  rw [mem_procs]
  unfold procnum_error
  split_ifs with h1 h2
  · exact iff_of_false id fun h => absurd h.1 (not_le.2 h1)
  · exact iff_of_false id fun h => h2.2 h.2
  · refine iff_of_true rfl ⟨not_lt.1 h1, ?_⟩
    by_contra hlt
    have hworker : ¬SHUTTLESOCK_WORKER ≤ dst := fun hw => h2 ⟨hw, hlt⟩
    simp only [SHUTTLESOCK_WORKER] at hworker
    omega

/-- what is packed is in hand, as the direct message; c is the entry of the call -/
theorem Inv.pack {c : Call} (h : Inv n s none) (hd : Packs n s p dst d) (hkey : c.key = (d.block, p))
    (hres : c.ok = false → c.restored = true) :
    Inv n { pack s p d with calls := s.calls ++ [c] } (some ⟨SHUTTLESOCK_IPC_CMD_LUA_MESSAGE, d.block⟩) := by
  have horigin := hd.origin
  refine h.sees rfl (fun m hm => ⟨fun b hb => ?_, fun _ h => h, fun _ => rfl⟩) (fun b d' hd' => ?_) (fun k => ?_) (fun y => ?_)
    (fun b => ?_) (fun c' hc' hok => ?_) h.sound
  · have hne : b ≠ d.block := by
      rintro rfl
      rw [eq_false_of_inflight hd.fresh hm] at hb
      cases hb
    exact Function.update_of_ne hne _ _
  · by_cases hb : b = d.block
    · simp only [IpcAccount.pack, hb, Function.update_self, Option.some.injEq] at hd'
      rw [← hd', hb]
    · simp only [IpcAccount.pack, Function.update_of_ne hb] at hd'
      exact h.block b d' hd'
  · have hzero : hand (refers k) (some ⟨SHUTTLESOCK_IPC_CMD_LUA_MESSAGE, d.block⟩) = 0 := by
      simp [hand, one, refers, SHUTTLESOCK_IPC_CMD_LUA_MESSAGE, SHUTTLESOCK_IPC_CMD_LUA_MANAGER_PROXY_MESSAGE,
        SHUTTLESOCK_IPC_CMD_LUA_MANAGER_RECEIVE_PROXIED_MESSAGE]
    rw [hzero]
    exact h.single k
  · have hcount := h.counts y
    have hsub : subject { IpcAccount.pack s p d with calls := s.calls ++ [c] } ⟨SHUTTLESOCK_IPC_CMD_LUA_MESSAGE, d.block⟩ =
        some (d.block, p) := by
      rw [subject_direct (.inl rfl)]
      simp [IpcAccount.pack, horigin]
    simp only [List.map_append, List.map_cons, List.map_nil, List.count_append, List.count_singleton, hkey, hcount, hand, one,
      is_about, hsub, Option.some.injEq, decide_eq_true_eq, beq_iff_eq, add_zero]
    rfl
  · have hactive := h.active b
    simp only [List.map_append, List.map_cons, List.map_nil, List.countP_append, List.countP_singleton, hkey, IpcAccount.pack]
    by_cases hb : in_master p = b
    · subst hb
      simp only [Function.update_self, key_in, beq_self_eq_true, if_true]
      rw [hactive]
      push_cast
      omega
    · rw [Function.update_of_ne (Ne.symm hb), hactive]
      simp [key_in, hb]
  · rcases List.mem_append.1 hc' with hc' | hc'
    · exact h.restored c' hc' hok
    · rw [List.mem_singleton] at hc'
      subst hc'
      exact hres hok

theorem gc_calls (s : St) (p : ℤ) (d : Data) (l : List Call) :
    luaS_lua_ipc_gc_data { s with calls := l } p d = (luaS_lua_ipc_gc_data s p d).map fun t => { t with calls := l } := by
  unfold luaS_lua_ipc_gc_data
  rw [Option.map_map]
  rfl

/-- the direct message is good for its destination -/
theorem message_good {b : ℕ} (hd : s.data b = some d) (hauto : d.automatic_gc = true) (hp : d.origin_procnum ∈ procs n)
    (hnear : ¬Apart dst d.origin_procnum) : Good n s dst ⟨SHUTTLESOCK_IPC_CMD_LUA_MESSAGE, b⟩ where
  message _ := ⟨d, hd, hauto, hp, hnear⟩
  response h := absurd h (ne_code (by decide))
  proxy h := absurd h (ne_code (by decide))
  receive h := absurd h (ne_code (by decide))

theorem apart_comm {p q : ℤ} : Apart p q ↔ Apart q p := by
  unfold Apart
  tauto

theorem not_share_of_apart {p q : ℤ} (h : Apart p q) : shuso_processes_share_heap p q = false := by
  unfold shuso_processes_share_heap in_master
  rcases h with ⟨h1, h2⟩ | ⟨h1, h2⟩
  · have hq : q ≠ SHUTTLESOCK_MASTER := by
      rintro rfl
      exact absurd h2 (by decide)
    simp [h1, hq]
  · have hp : p ≠ SHUTTLESOCK_MASTER := by
      rintro rfl
      exact absurd h1 (by decide)
    simp [hp, h2]

/-- the direct route, but for the entry of the call -/
theorem direct_inv {c : Call} (hpack : Inv n { pack s p d with calls := s.calls ++ [c] }
      (some ⟨SHUTTLESOCK_IPC_CMD_LUA_MESSAGE, d.block⟩))
    (hp : p ∈ procs n) (hd : Packs n s p dst d) (hdst : dst ∈ procs n) (hnear : ¬Apart p dst)
    (htake : Send.takes (Send.queued s.ipc p) e.dst_state e = true) :
    ∃ t, luaS_ipc_send_message n s p dst d e = some (t, .sent) ∧ Inv n { t with calls := t.calls ++ [c] } none := by
  have hvalid : procnum_error n dst = none := procnum_error_none.2 hdst
  set s₁ : St := { pack s p d with calls := s.calls ++ [c] }
  have hdata : s₁.data d.block = some { d with automatic_gc := true } := Function.update_self _ _ _
  have horigin : d.origin_procnum = p := hd.origin
  have hgood : Good n s₁ dst ⟨SHUTTLESOCK_IPC_CMD_LUA_MESSAGE, d.block⟩ := by
    refine message_good hdata rfl ?_ ?_
    · rw [horigin]
      exact hp
    · rw [horigin, apart_comm]
      exact hnear
  obtain ⟨hsent, hinv⟩ := hpack.send hp hdst hnear htake hgood fun _ => ⟨_, hdata, horigin⟩
  refine ⟨{ pack s p d with
    ipc := (shuso_ipc_send s.ipc p dst ⟨SHUTTLESOCK_IPC_CMD_LUA_MESSAGE, d.block⟩ e).1 }, ?_, hinv⟩
  have hsent' : (shuso_ipc_send s.ipc p dst ⟨SHUTTLESOCK_IPC_CMD_LUA_MESSAGE, d.block⟩ e).2 = true := hsent
  unfold luaS_ipc_send_message send_packed
  simp only [hvalid, if_neg hnear, pack, hsent', if_true]

/-- the route through the manager -/
theorem proxied_inv {c : Call} (hpack : Inv n { pack s p d with calls := s.calls ++ [c] }
      (some ⟨SHUTTLESOCK_IPC_CMD_LUA_MESSAGE, d.block⟩))
    (hp : p ∈ procs n) (hd : Packs n s p dst d) (hdst : dst ∈ procs n) (hapart : Apart p dst)
    (htake : Send.takes (Send.queued s.ipc p) e.dst_state e = true) (hk : e.record = some k) (hfresh : s.proxy k = none) :
    ∃ t, luaS_ipc_send_message n s p dst d e = some (t, .sent) ∧ Inv n { t with calls := t.calls ++ [c] } none := by
  have hvalid : procnum_error n dst = none := procnum_error_none.2 hdst
  have horigin : d.origin_procnum = p := hd.origin
  have hshared : d.in_shared_memory = true := by
    rw [hd.shared, not_share_of_apart hapart]
    rfl
  set r : Proxy := ⟨d.block, p, dst, SHUTTLESOCK_IPC_CMD_LUA_MESSAGE⟩ with hr
  set s₁ : St := { pack s p d with calls := s.calls ++ [c] }
  have hdata : s₁.data d.block = some { d with automatic_gc := true } := Function.update_self _ _ _
  have hsub : subject s₁ ⟨SHUTTLESOCK_IPC_CMD_LUA_MESSAGE, d.block⟩ = some (d.block, p) := by
    rw [subject_direct (.inl rfl), hdata, ← horigin]
    rfl
  have halone : inflight n s₁.ipc (refers k) = 0 := by
    have hle := hpack.single k
    have hnone : s₁.proxy k = none := hfresh
    rw [hnone] at hle
    simp only [Option.isSome_none, Bool.false_eq_true, if_false] at hle
    omega
  have hrouted : Routed n { s₁ with slab := insert k s₁.slab, proxy := Function.update s₁.proxy k (some r) } k r :=
    ⟨Function.update_self _ _ _, hp, hdst, ⟨_, hdata, rfl, horigin⟩, .inl rfl⟩
  have hset : Inv n { s₁ with slab := insert k s₁.slab, proxy := Function.update s₁.proxy k (some r) }
      (some ⟨SHUTTLESOCK_IPC_CMD_LUA_MANAGER_PROXY_MESSAGE, k⟩) := by
    refine hpack.set_proxy halone (some r) _ (one_le_one _ _) (fun j hj => ?_) fun y => ?_
    · have hnot : refers j ⟨SHUTTLESOCK_IPC_CMD_LUA_MANAGER_PROXY_MESSAGE, k⟩ = false := by
        rw [Bool.eq_false_iff, ne_eq, refers_iff]
        exact fun h => hj h.2.symm
      simp [hand, one, hnot]
    · have hsub' := hrouted.subject (m := ⟨SHUTTLESOCK_IPC_CMD_LUA_MANAGER_PROXY_MESSAGE, k⟩) (.inl rfl)
      rw [hand, hand, one, one, is_about, is_about, hsub', hsub]
  have hgood : Good n { s₁ with slab := insert k s₁.slab, proxy := Function.update s₁.proxy k (some r) } SHUTTLESOCK_MANAGER
      ⟨SHUTTLESOCK_IPC_CMD_LUA_MANAGER_PROXY_MESSAGE, k⟩ :=
    ⟨fun h => absurd h (ne_code (by decide)), fun h => absurd h (ne_code (by decide)), fun _ => ⟨rfl, r, hrouted⟩,
      fun h => absurd h (ne_code (by decide))⟩
  obtain ⟨hsent, hinv⟩ := hset.send hp manager_mem (not_apart_to_manager p) htake hgood
    fun h => absurd h (ne_code (by decide))
  refine ⟨{ pack s p d with
    slab := insert k (pack s p d).slab
    proxy := Function.update s.proxy k (some r)
    ipc := (shuso_ipc_send s.ipc p SHUTTLESOCK_MANAGER ⟨SHUTTLESOCK_IPC_CMD_LUA_MANAGER_PROXY_MESSAGE, k⟩ e).1 }, ?_, hinv⟩
  have hsent' : (shuso_ipc_send s.ipc p SHUTTLESOCK_MANAGER ⟨SHUTTLESOCK_IPC_CMD_LUA_MANAGER_PROXY_MESSAGE, k⟩ e).2 = true :=
    hsent
  unfold luaS_ipc_send_message send_packed
  simp only [hvalid, if_pos hapart, hshared, not_true_eq_false, if_false, hk, pack, hsent', if_true, hr]

/-- an invalid destination, in a process that is not the master -/
theorem invalid_inv (h : Inv n s none) (hd : Packs n s p dst d) {err : String} (hinvalid : procnum_error n dst = some err)
    (hp : in_master p = false) :
    ∃ t, luaS_ipc_send_message n s p dst d e = some (t, .error err) ∧ Restored s t (d.block, p) ∧
      ∀ c : Call, c.key = (d.block, p) → c.restored = true → Inv n { t with calls := t.calls ++ [c] } none := by
  have hmaster : in_master dst = false := by
    unfold in_master
    rw [decide_eq_false_iff_not]
    rintro rfl
    rw [procnum_error] at hinvalid
    simp [SHUTTLESOCK_MASTER, SHUTTLESOCK_WORKER] at hinvalid
  have hheap : d.in_shared_memory = false := by
    rw [hd.shared, shuso_processes_share_heap, hp, hmaster]
    rfl
  set d' : Data := { d with automatic_gc := true } with hd'
  have hsub (c : Call) : subject { pack s p d with calls := s.calls ++ [c] } ⟨SHUTTLESOCK_IPC_CMD_LUA_MESSAGE, d.block⟩ =
      some (d'.block, p) := by
    rw [subject_direct (.inl rfl)]
    simp [pack, hd.origin, hd']
  have horigin : d'.origin_procnum = p := hd.origin
  have hpos : 0 < (pack s p d).active (in_master p) :=
    (h.pack hd (c := ⟨d.block, p, true, true⟩) rfl fun _ => rfl).active_pos (hsub _)
  obtain ⟨slab, hgc, hslab⟩ := gc_spec horigin hpos
  have hcall : luaS_ipc_send_message n s p dst d e =
      (luaS_lua_ipc_gc_data (pack s p d) p d').map fun s => (s, .error err) := by
    unfold luaS_ipc_send_message send_packed
    simp only [hinvalid]
    rfl
  rw [hgc] at hcall
  refine ⟨_, hcall, ⟨rfl, ?_, (hslab hheap).trans ?_⟩, fun c hkey hres => ?_⟩
  · funext b
    by_cases hb : b = in_master p
    · simp [pack, hb]
    · simp [pack, Function.update_of_ne hb]
  · simp [pack, hheap]
  · obtain ⟨t, ht, -, hinv⟩ := (h.pack hd hkey fun _ => hres).collect (hsub c) horigin
    rw [gc_calls, hgc, Option.map_some, Option.some.injEq] at ht
    rw [← ht] at hinv
    exact hinv

/-! ## Runs -/

theorem call_inv (h : Inv n s none) (hp : p ∈ procs n) (hd : Packs n s p dst d) (hfresh : ∀ k ∈ e.record, s.proxy k = none)
    (hok : Ok n s (.call p dst d e)) : Inv n (finish s p d (luaS_ipc_send_message n s p dst d e)) none := by
  cases hvalid : procnum_error n dst with
  | none =>
    obtain ⟨htake, hrecord⟩ : Send.takes (Send.queued s.ipc p) e.dst_state e = true ∧ (Apart p dst → e.record.isSome) := by
      simpa [Ok, hvalid] using hok
    have hdst : dst ∈ procs n := procnum_error_none.1 hvalid
    have hsent : ∀ c : Call, c.key = (d.block, p) → c.ok = true →
        ∃ t, luaS_ipc_send_message n s p dst d e = some (t, .sent) ∧ Inv n { t with calls := t.calls ++ [c] } none := by
      intro c hkey hcok
      have hpack := h.pack hd hkey fun hno => by rw [hcok] at hno; cases hno
      by_cases hapart : Apart p dst
      · obtain ⟨k, hk⟩ := Option.isSome_iff_exists.1 (hrecord hapart)
        exact proxied_inv hpack hp hd hdst hapart htake hk (hfresh k hk)
      · exact direct_inv hpack hp hd hdst hapart htake
    obtain ⟨t, ht, -⟩ := hsent ⟨d.block, p, true, true⟩ rfl rfl
    rw [ht]
    obtain ⟨t', ht', hinv⟩ := hsent ⟨d.block, p, true, decide (Restored s t (d.block, p))⟩ rfl rfl
    rw [ht] at ht'
    cases ht'
    exact hinv
  | some err =>
    have hp' : in_master p = false := by simpa [Ok, hvalid] using hok
    obtain ⟨t, ht, hres, hinv⟩ := invalid_inv (e := e) h hd hvalid hp'
    rw [ht]
    exact hinv ⟨d.block, p, false, decide (Restored s t (d.block, p))⟩ rfl (decide_eq_true hres)

/-- **A step that is `Ok`** keeps the invariant. -/
theorem step_inv {act : Act} (h : Inv n s none) (hok : Ok n s act) (hst : step n s act = some t) : Inv n t none := by
  cases act with
  | call p dst d e =>
    simp only [step] at hst
    split_ifs at hst with hg
    cases hst
    exact call_inv h hg.1 hg.2.1 hg.2.2 hok
  | other src dst m e =>
    simp only [step] at hst
    split_ifs at hst with hg
    cases hst
    have hsend : shuso_ipc_send s.ipc src dst m e = Send.ipc_send_near s.ipc src dst m e.dst_state e := if_neg hg.2.2.2
    rw [hsend]
    exact h.other (near_sends m e.dst_state e hg.1 hg.2.1) hg.2.2.1 hg.2.1
  | retry p e =>
    simp only [step] at hst
    split_ifs at hst with hg
    obtain ⟨i, hi, rfl⟩ := Option.map_eq_some_iff.1 hst
    exact h.retry hg (retry_retries hg (h.placed p hg) hi)
  | receive q e =>
    simp only [step] at hst
    split_ifs at hst with hg
    split at hst
    · cases hst
    · next m rest hring =>
      have hhead : m ∈ (s.ipc.ring q).head? := by simp [hring]
      have hgood := h.ring q hg m (by rw [hring]; exact List.mem_cons_self)
      have hsees : Sees s { s with ipc := { s.ipc with ring := Function.update s.ipc.ring q rest } } m :=
        ⟨fun _ _ => rfl, fun _ h => h, fun _ => rfl⟩
      obtain ⟨u, hu, hinv⟩ := handle_inv (e := e) (h.pop_ring hg hring) (hsees.good hgood) hg (hok m hhead)
      rw [hu, Option.getD_some, Option.some.injEq] at hst
      rw [← hst]
      exact hinv
  | stop p =>
    simp only [step] at hst
    split_ifs at hst with hg
    split at hst
    · cases hst
    · next cur next hout =>
      have hhead : cur ∈ (s.ipc.outbox p).head? := by simp [hout]
      obtain ⟨hgood, hown⟩ := h.outbox p hg cur (by rw [hout]; exact List.mem_cons_self)
      have hsees : Sees s { s with ipc := { s.ipc with outbox := Function.update s.ipc.outbox p next } } cur.2 :=
        ⟨fun _ _ => rfl, fun _ h => h, fun _ => rfl⟩
      obtain ⟨u, hu, hinv⟩ := cancel_inv (h.pop_outbox hg hout) (hsees.good hgood) (hsees.own hown) (hok cur hhead)
      rw [hu, Option.getD_some, Option.some.injEq] at hst
      rw [← hst]
      exact hinv

theorem initial_inv (n : ℕ) : Inv n initial none where
  placed _ _ _ hx := absurd hx List.not_mem_nil
  ring _ _ _ hm := absurd hm List.not_mem_nil
  outbox _ _ _ hx := absurd hx List.not_mem_nil
  block _ _ hd := by cases hd
  single k := by simp [inflight, load, initial, Send.idle, hand]
  counts y := by simp [inflight, load, initial, Send.idle, hand]
  active b := by simp [initial]
  restored _ hc := absurd hc List.not_mem_nil
  sound := rfl

/-- **The data of every call is accounted for**, in every state that a run of `Ok` steps reaches. -/
theorem accounted_of_ok (n : ℕ) (s : St) (h : Reach (step n) (Ok n) initial s) : Accounted n s :=
  (h.inv (initial_inv n) fun _ _ _ hi hok hst => step_inv hi hok hst).accounted

/-! ### The manager sends to worker 0 -/

/-- nil, packed in the heap of the manager -/
def beep : Data := ⟨1, .nil, [], "beep", -1, false, false⟩

/-- a place in the ring, and a destination in that state -/
def env (dst_state : Outbox.Runstate) : Env :=
  { dst_state := dst_state, manager_state := .running, reserved := true, memory := true, record := none }

/-- **The worker has stopped**: the call does not succeed, and nothing is collected. -/
theorem not_accounted :
    ∃ s, exec (step 1) initial [.call (-1) 0 beep (env .stopped)] = some s ∧ s.collected = [] ∧ s.active false = 1 ∧
      (∀ p ∈ procs 1, s.ipc.ring p = [] ∧ s.ipc.outbox p = []) ∧ ¬Accounted 1 s := by
  refine ⟨_, rfl, rfl, rfl, by decide, fun h => ?_⟩
  have hc := h.restored _ List.mem_cons_self rfl
  revert hc
  decide

/-- the message, and the response -/
def answered : List Act := [.call (-1) 0 beep (env .running), .receive 0 (env .running), .receive (-1) (env .running)]

instance (n : ℕ) (s : St) (act : Act) : Decidable (Ok n s act) :=
  match act with
  | .call _ dst _ _ => inferInstanceAs (Decidable (if procnum_error n dst = none then _ else _))
  | .other _ _ _ _ => instDecidableTrue
  | .retry _ _ => instDecidableTrue
  | .receive q _ => inferInstanceAs (Decidable (∀ m ∈ (s.ipc.ring q).head?, answers s m = true → _))
  | .stop p => inferInstanceAs (Decidable (∀ x ∈ (s.ipc.outbox p).head?, _ ∨ ¬is_lua x.2))

theorem accounted_of_ok_answered :
    ∃ s, exec (step 1) initial answered = some s ∧ s.collected = [(1, -1)] ∧ Accounted 1 s :=
  ⟨_, rfl, rfl, accounted_of_ok 1 _ (Reach.of_execIf .init (show execIf (step 1) (Ok 1) initial answered = _ from rfl))⟩

end Shuttlesock.IpcAccount
