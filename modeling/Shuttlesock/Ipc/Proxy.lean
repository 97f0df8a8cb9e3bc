/-
The records of messages between master and workers (`ipc.c`, `ipc_commands.c`): `shuso_ipc_send_proxy_via_manager`,
`manager_proxy_message_handle`, `received_proxied_message_handle`, `shuso_ipc_channel_local_stop`.

Model: any number of processes. One step is a `shuso_ipc_send`, one round of `ipc_send_retry_cb`, the handling of the first message of
a ring, or `shuso_ipc_channel_local_stop`. A handler that sends does so in steps of its own, except for the one of the manager.
- `carried`: the messages in flight that carry a record.
- a handler that reads a record which is not allocated is not enabled; `Inv` says that there is none.
- not in the model: what the handlers of other codes do.

Results:
- `released_iff`: after a run, a record is freed once for each time it was taken, or is in flight, exactly when no step of the run
  has lost one. Every message that its destination handles loses one (`not_released`).
-/
import Mathlib.Tactic
import Shuttlesock.Core.Runs
import Shuttlesock.Ipc.Flight

namespace Shuttlesock.Proxy

open Shuttlesock.Send Shuttlesock.Flight Shuttlesock.Runs
open Shuttlesock.Outbox (Runstate)

/-! ## Model -/

def shuso_shared_slab_free (s : State) (d : ℕ) : State :=
  { s with proxies := Function.update s.proxies d none, freed := s.freed ++ [d] }

def manager_proxy_message_handle (s : State) (procnum : ℤ) (ptr : ℕ) (e : Env) : Option State :=
  if procnum ≠ SHUTTLESOCK_MANAGER then none
  else (s.proxies ptr).map fun d =>
    let r := shuso_ipc_send s procnum d.dst ⟨SHUTTLESOCK_IPC_CMD_RECEIVE_PROXIED_MESSAGE, ptr⟩ e
    if r.2 then r.1
    else shuso_shared_slab_free (shuso_set_error r.1 procnum "failed to proxy IPC message").1 ptr

/-- reads the record, and leaves it -/
def received_proxied_message_handle (s : State) (ptr : ℕ) : Option State :=
  (s.proxies ptr).map fun _ => s

/-- one round of the loop of `ipc_receive` -/
def ipc_receive (s : State) (procnum : ℤ) (e : Env) : Option State :=
  match s.ring procnum with
  | [] => none
  | m :: rest =>
    let s := { s with ring := Function.update s.ring procnum rest }
    if m.code = SHUTTLESOCK_IPC_CMD_MANAGER_PROXY_MESSAGE then manager_proxy_message_handle s procnum m.ptr e
    else if m.code = SHUTTLESOCK_IPC_CMD_RECEIVE_PROXIED_MESSAGE then received_proxied_message_handle s m.ptr
    else some s

/-- the cancel handler of the two codes does nothing -/
def shuso_ipc_channel_local_stop (s : State) (procnum : ℤ) : State :=
  { s with outbox := Function.update s.outbox procnum [] }

/-- the message carries a record -/
def proxied (m : Msg) : Bool :=
  m.code = SHUTTLESOCK_IPC_CMD_MANAGER_PROXY_MESSAGE ∨ m.code = SHUTTLESOCK_IPC_CMD_RECEIVE_PROXIED_MESSAGE

inductive Act where
  | send (src dst : ℤ) (m : Msg) (e : Env)
  | retry (p : ℤ) (e : Env)
  | receive (p : ℤ) (e : Env)
  | stop (p : ℤ)

/-- a module sends neither of the two codes, and the slab returns a block that is not in use -/
def step (n : ℕ) (s : State) : Act → Option State
  | .send src dst m e =>
    if src ∈ procs n ∧ dst ∈ procs n ∧ ¬proxied m ∧ (∀ d ∈ e.record, s.proxies d = none) then
      some (shuso_ipc_send s src dst m e).1
    else none
  | .retry p e => if p ∈ procs n then ipc_send_retry_cb s p e else none
  | .receive p e => if p ∈ procs n then ipc_receive s p e else none
  | .stop p => if p ∈ procs n then some (shuso_ipc_channel_local_stop s p) else none

/-! ## Records in flight -/

def carries (d : ℕ) (m : Msg) : Bool := proxied m && decide (m.ptr = d)

def carried (n : ℕ) (s : State) (d : ℕ) : ℕ := inflight n s (carries d)

/-- **The claim**: each time a record was taken it was freed once, unless a message in flight carries it. -/
def Released (n : ℕ) (s : State) : Prop := ∀ d, s.taken.count d = s.freed.count d + carried n s d

/-- nothing has been sent -/
def initial : State := ⟨fun _ => [], fun _ => [], fun _ => none, [], [], fun _ => none, []⟩

/-- the step loses no record: a record that was taken is sent to the manager, no destination runs the handler, and no process stops
with such a message in its outbox -/
def Ok (s : State) : Act → Prop
  | .send src dst _ e =>
    Apart src dst → Runstate.starting.toInt ≤ e.dst_state.toInt → e.record.isSome →
      takes (queued s src) e.manager_state e = true
  | .retry _ _ => True
  | .receive p _ => ∀ m ∈ (s.ring p).head?, m.code ≠ SHUTTLESOCK_IPC_CMD_RECEIVE_PROXIED_MESSAGE
  | .stop p => ∀ x ∈ s.outbox p, ¬proxied x.2

/-! ## What a step does -/

variable {n : ℕ} {s t : State}

theorem one_of_not_proxied {m : Msg} (h : ¬proxied m) (d : ℕ) : one (carries d) m = 0 := by simp [one, carries, h]

theorem one_of_proxied {m : Msg} (h : proxied m = true) (d : ℕ) : one (carries d) m = if d = m.ptr then 1 else 0 := by
  simp [one, carries, h, eq_comm]

theorem carried_congr (hr : t.ring = s.ring) (ho : t.outbox = s.outbox) (d : ℕ) : carried n t d = carried n s d :=
  inflight_congr hr ho

/-- every destination is a process -/
structure Placed (n : ℕ) (s : State) : Prop where
  proxies : ∀ d pr, s.proxies d = some pr → pr.dst ∈ procs n
  outbox : ∀ p, ∀ x ∈ s.outbox p, x.1 ∈ procs n

theorem Placed.drop {p : ℤ} {l : List (ℤ × Msg)} (h : Placed n s) (hl : ∀ x ∈ l, x ∈ s.outbox p) :
    Placed n { s with outbox := Function.update s.outbox p l } := by
  refine ⟨h.proxies, fun q x hx => ?_⟩
  by_cases hq : q = p
  · subst hq
    simp only [Function.update_self] at hx
    exact h.outbox q x (hl x hx)
  · simp only [Function.update_of_ne hq] at hx
    exact h.outbox q x hx

theorem Placed.send {src dst : ℤ} {m : Msg} {r : State × Bool} (hp : Placed n s) (hdst : dst ∈ procs n)
    (h : Sends n s src dst m r) : Placed n r.1 where
  proxies := by rw [h.proxies]; exact hp.proxies
  outbox p x hx := by
    rcases h.outbox p x hx with hx | ⟨-, hx⟩
    · exact hp.outbox p x hx
    · rw [hx]
      exact hdst

/-- the number of records d that are allocated -/
def live (s : State) (d : ℕ) : ℕ := if (s.proxies d).isSome then 1 else 0

/-- **What a step does to the records**, and whether it loses none. -/
inductive Effect (n : ℕ) (s t : State) : Bool → Prop where
  /-- a message comes, moves, or is handled, that carries none -/
  | same (hp : t.proxies = s.proxies) (ht : t.taken = s.taken) (hf : t.freed = s.freed)
      (hc : ∀ d, carried n t d = carried n s d) : Effect n s t true
  /-- a message leaves with a new record -/
  | take (k : ℕ) (pr : Proxy) (hk : s.proxies k = none) (hp : t.proxies = Function.update s.proxies k (some pr))
      (ht : t.taken = s.taken ++ [k]) (hf : t.freed = s.freed)
      (hc : ∀ d, carried n t d = carried n s d + if d = k then 1 else 0) : Effect n s t true
  /-- the message cannot be forwarded -/
  | free (k : ℕ) (hp : t.proxies = Function.update s.proxies k none) (ht : t.taken = s.taken)
      (hf : t.freed = s.freed ++ [k]) (hc : ∀ d, carried n t d + (if d = k then 1 else 0) = carried n s d) : Effect n s t true
  /-- a new record, and no message -/
  | leak (k : ℕ) (pr : Proxy) (hk : s.proxies k = none) (hp : t.proxies = Function.update s.proxies k (some pr))
      (ht : t.taken = s.taken ++ [k]) (hf : t.freed = s.freed) (hc : ∀ d, carried n t d = carried n s d) : Effect n s t false
  /-- messages go, and their records stay -/
  | lose (k : ℕ) (hp : t.proxies = s.proxies) (ht : t.taken = s.taken) (hf : t.freed = s.freed)
      (hc : ∀ d, carried n t d ≤ carried n s d) (hk : carried n t k < carried n s k) : Effect n s t false

theorem Effect.of_sends {src dst : ℤ} {m : Msg} {r : State × Bool} (h : Sends n s src dst m r) (hm : ¬proxied m) :
    Effect n s r.1 true :=
  .same h.proxies h.taken h.freed fun d => by simp [carried, h.inflight, one_of_not_proxied hm]

/-- the history of destinations is no part of it -/
theorem Effect.tried {l : List ℤ} {b : Bool} (h : Effect n { s with tried := l } t b) : Effect n s t b := by
  cases h with
  | same hp ht hf hc => exact .same hp ht hf hc
  | take k pr hk hp ht hf hc => exact .take k pr hk hp ht hf hc
  | free k hp ht hf hc => exact .free k hp ht hf hc
  | leak k pr hk hp ht hf hc => exact .leak k pr hk hp ht hf hc
  | lose k hp ht hf hc hk => exact .lose k hp ht hf hc hk

theorem proxied_manager (k : ℕ) : proxied ⟨SHUTTLESOCK_IPC_CMD_MANAGER_PROXY_MESSAGE, k⟩ = true := by simp [proxied]

theorem proxied_receive (k : ℕ) : proxied ⟨SHUTTLESOCK_IPC_CMD_RECEIVE_PROXIED_MESSAGE, k⟩ = true := by simp [proxied]

/-- on the way through the manager a record is taken, and lost if the manager does not take the message -/
theorem proxy_effect {src dst : ℤ} {m : Msg} {e : Env} {k : ℕ} (hp : Placed n s) (hsrc : src ∈ procs n) (hdst : dst ∈ procs n)
    (hr : e.record = some k) (hk : s.proxies k = none) :
    Placed n (shuso_ipc_send_proxy_via_manager s src dst m e).1 ∧
      Effect n s (shuso_ipc_send_proxy_via_manager s src dst m e).1 (takes (queued s src) e.manager_state e) := by
  simp only [shuso_ipc_send_proxy_via_manager, hr]
  set s' : State := { s with
    proxies := Function.update s.proxies k (some ⟨m.code, src, dst, m.ptr⟩)
    taken := s.taken ++ [k] } with hs'
  have hp' : Placed n s' := by
    refine ⟨fun d pr hd => ?_, hp.outbox⟩
    by_cases hdk : d = k
    · subst hdk
      simp only [hs', Function.update_self, Option.some.injEq] at hd
      rw [← hd]
      exact hdst
    · simp only [hs', Function.update_of_ne hdk] at hd
      exact hp.proxies d pr hd
  have hsend := near_sends (s := s') ⟨SHUTTLESOCK_IPC_CMD_MANAGER_PROXY_MESSAGE, k⟩ e.manager_state e hsrc
    (manager_mem (n := n))
  have hok : _ = takes (queued s src) e.manager_state e :=
    (near_ok s' src SHUTTLESOCK_MANAGER ⟨SHUTTLESOCK_IPC_CMD_MANAGER_PROXY_MESSAGE, k⟩ e.manager_state e).1
  have hcar (d : ℕ) : carried n s' d = carried n s d := carried_congr rfl rfl d
  refine ⟨hp'.send manager_mem hsend, ?_⟩
  cases htake : takes (queued s src) e.manager_state e with
  | true =>
    refine .take k _ hk hsend.proxies hsend.taken hsend.freed fun d => ?_
    rw [carried, hsend.inflight, hok, htake, if_pos rfl, one_of_proxied (proxied_manager k)]
    exact congrArg (· + _) (hcar d)
  | false =>
    refine .leak k _ hk hsend.proxies hsend.taken hsend.freed fun d => ?_
    rw [carried, hsend.inflight, hok, htake]
    exact hcar d

theorem send_effect {src dst : ℤ} {m : Msg} {e : Env} (hp : Placed n s) (hsrc : src ∈ procs n) (hdst : dst ∈ procs n)
    (hm : ¬proxied m) (he : ∀ d ∈ e.record, s.proxies d = none) :
    Placed n (shuso_ipc_send s src dst m e).1 ∧
      ∃ b, Effect n s (shuso_ipc_send s src dst m e).1 b ∧ (Ok s (.send src dst m e) ↔ b = true) := by
  unfold shuso_ipc_send
  split_ifs with h1 h2
  · refine ⟨⟨hp.proxies, hp.outbox⟩, true, .same rfl rfl rfl fun d => carried_congr rfl rfl d, ?_⟩
    simp only [Ok, iff_true]
    intro _ h
    exact absurd h (not_le.2 h2)
  · have hp' : Placed n { s with tried := s.tried ++ [dst] } := ⟨hp.proxies, hp.outbox⟩
    cases hr : e.record with
    | none =>
      simp only [shuso_ipc_send_proxy_via_manager, hr]
      exact ⟨⟨hp.proxies, hp.outbox⟩, true, .same rfl rfl rfl fun d => carried_congr rfl rfl d, by simp [Ok, hr]⟩
    | some k =>
      obtain ⟨hplaced, heff⟩ := proxy_effect (m := m) hp' hsrc hdst hr (he k hr)
      refine ⟨hplaced, _, heff.tried, ?_⟩
      simp only [Ok, hr, Option.isSome_some]
      exact ⟨fun h => h h1 (not_lt.1 h2) trivial, fun h _ _ _ => h⟩
  · have hsend := near_sends (s := s) m e.dst_state e hsrc hdst
    exact ⟨hp.send hdst hsend, true, .of_sends hsend hm, by simp [Ok, h1]⟩

theorem retry_effect {p : ℤ} {e : Env} (hp : Placed n s) (hmem : p ∈ procs n) (h : ipc_send_retry_cb s p e = some t) :
    Placed n t ∧ Effect n s t true := by
  have hr := retry_retries hmem (hp.outbox p) h
  refine ⟨⟨?_, fun q x hx => hp.outbox q x (hr.outbox q x hx)⟩, .same hr.proxies hr.taken hr.freed fun d => hr.inflight _⟩
  rw [hr.proxies]
  exact hp.proxies

/-- the manager forwards a message or frees its record; s is without the message -/
theorem manager_effect {p : ℤ} {k : ℕ} {e : Env} (s₀ : State) (hp : Placed n s) (hprox : s.proxies = s₀.proxies)
    (ht : s.taken = s₀.taken) (hf : s.freed = s₀.freed)
    (hc : ∀ d, carried n s d + (if d = k then 1 else 0) = carried n s₀ d)
    (h : manager_proxy_message_handle s p k e = some t) : Placed n t ∧ Effect n s₀ t true := by
  unfold manager_proxy_message_handle at h
  split_ifs at h with hman
  rw [not_not] at hman
  subst hman
  cases hk : s.proxies k with
  | none =>
    rw [hk] at h
    cases h
  | some pr =>
    simp only [hk, Option.map_some, Option.some.injEq] at h
    rw [shuso_ipc_send, if_neg (not_apart_manager _)] at h
    have hsend := near_sends (s := s) ⟨SHUTTLESOCK_IPC_CMD_RECEIVE_PROXIED_MESSAGE, k⟩ e.dst_state e
      (manager_mem (n := n)) (hp.proxies k pr hk)
    have hplaced := hp.send (hp.proxies k pr hk) hsend
    split_ifs at h with hr
    · subst h
      refine ⟨hplaced, .same (hsend.proxies.trans hprox) (hsend.taken.trans ht) (hsend.freed.trans hf) fun d => ?_⟩
      rw [← hc, carried, hsend.inflight, hr, if_pos rfl, one_of_proxied (proxied_receive k)]
      rfl
    · subst h
      refine ⟨⟨fun d pr' hd => ?_, hplaced.outbox⟩, .free k ?_ (hsend.taken.trans ht) ?_ fun d => ?_⟩
      · simp only [shuso_shared_slab_free, shuso_set_error] at hd
        by_cases hdk : d = k
        · rw [hdk, Function.update_self] at hd
          cases hd
        · rw [Function.update_of_ne hdk] at hd
          exact hplaced.proxies d pr' hd
      · simp only [shuso_shared_slab_free, shuso_set_error, hsend.proxies, hprox]
      · simp only [shuso_shared_slab_free, shuso_set_error, hsend.freed, hf]
      · have h1 := hsend.inflight (carries d)
        rw [if_neg hr, add_zero] at h1
        rw [← hc, carried, carried, ← h1]
        exact congrArg (· + _) (inflight_congr rfl rfl)

theorem receive_effect {p : ℤ} {e : Env} (hp : Placed n s) (hmem : p ∈ procs n) (h : ipc_receive s p e = some t) :
    Placed n t ∧ ∃ b, Effect n s t b ∧ (Ok s (.receive p e) ↔ b = true) := by
  unfold ipc_receive at h
  split at h
  · cases h
  · next m rest hring =>
    have hplaced : Placed n { s with ring := Function.update s.ring p rest } := ⟨hp.proxies, hp.outbox⟩
    have hc (d : ℕ) : carried n { s with ring := Function.update s.ring p rest } d + one (carries d) m = carried n s d := by
      have h1 := inflight_ring (s := s) hmem rest (carries d)
      rw [hring, List.countP_cons] at h1
      unfold one carried
      omega
    have hok : Ok s (.receive p e) ↔ m.code ≠ SHUTTLESOCK_IPC_CMD_RECEIVE_PROXIED_MESSAGE := by simp [Ok, hring]
    dsimp only at h
    split_ifs at h with h11 h12
    · have hm : proxied m = true := by simp [proxied, h11]
      simp only [one_of_proxied hm] at hc
      obtain ⟨ht, heff⟩ := manager_effect s hplaced rfl rfl rfl hc h
      exact ⟨ht, true, heff, by rw [hok, h11]; decide⟩
    · have hm : proxied m = true := by simp [proxied, h12]
      simp only [one_of_proxied hm] at hc
      obtain ⟨pr, -, ht⟩ := Option.map_eq_some_iff.1 h
      subst ht
      refine ⟨hplaced, false, .lose m.ptr rfl rfl rfl (fun d => ?_) ?_, by rw [hok]; simp [h12]⟩
      · rw [← hc d]
        exact Nat.le_add_right _ _
      · rw [← hc m.ptr, if_pos rfl]
        exact Nat.lt_succ_self _
    · cases h
      have hm : ¬proxied m := by simp [proxied, h11, h12]
      refine ⟨hplaced, true, .same rfl rfl rfl fun d => ?_, by rw [hok]; simp [h12]⟩
      rw [← hc d, one_of_not_proxied hm, add_zero]

theorem stop_effect {p : ℤ} (hp : Placed n s) (hmem : p ∈ procs n) :
    Placed n (shuso_ipc_channel_local_stop s p) ∧
      ∃ b, Effect n s (shuso_ipc_channel_local_stop s p) b ∧ (Ok s (.stop p) ↔ b = true) := by
  have hc (d : ℕ) : carried n (shuso_ipc_channel_local_stop s p) d + (s.outbox p).countP (fun x => carries d x.2) =
      carried n s d := by
    have h := inflight_outbox (s := s) hmem [] (carries d)
    rwa [List.countP_nil, add_zero] at h
  refine ⟨hp.drop fun x hx => absurd hx List.not_mem_nil, ?_⟩
  by_cases hok : ∀ x ∈ s.outbox p, ¬proxied x.2
  · refine ⟨true, .same rfl rfl rfl fun d => ?_, by simpa [Ok] using hok⟩
    have h0 : (s.outbox p).countP (fun x => carries d x.2) = 0 :=
      List.countP_eq_zero.2 fun x hx hd => hok x hx (Bool.and_eq_true_iff.1 hd).1
    have h1 := hc d
    rw [h0, add_zero] at h1
    exact h1
  · refine ⟨false, ?_, by simpa [Ok] using hok⟩
    push Not at hok
    obtain ⟨x, hx, hprox⟩ := hok
    refine .lose x.2.ptr rfl rfl rfl (fun d => ?_) ?_
    · rw [← hc d]
      exact Nat.le_add_right _ _
    · have hpos : 0 < (s.outbox p).countP (fun y => carries x.2.ptr y.2) :=
        List.countP_pos_iff.2 ⟨x, hx, by simp [carries, hprox]⟩
      have h1 := hc x.2.ptr
      omega

theorem step_effect {a : Act} (hp : Placed n s) (h : step n s a = some t) :
    Placed n t ∧ ∃ b, Effect n s t b ∧ (Ok s a ↔ b = true) := by
  cases a with
  | send src dst m e =>
    simp only [step] at h
    split_ifs at h with hg
    cases h
    exact send_effect hp hg.1 hg.2.1 hg.2.2.1 hg.2.2.2
  | retry p e =>
    simp only [step] at h
    split_ifs at h with hg
    obtain ⟨h1, h2⟩ := retry_effect hp hg h
    exact ⟨h1, true, h2, by simp [Ok]⟩
  | receive p e =>
    simp only [step] at h
    split_ifs at h with hg
    exact receive_effect hp hg h
  | stop p =>
    simp only [step] at h
    split_ifs at h with hg
    cases h
    exact stop_effect hp hg

/-! ## The invariant -/

structure Inv (n : ℕ) (s : State) : Prop where
  placed : Placed n s
  /-- a record that is not freed is allocated -/
  counts : ∀ d, s.taken.count d = s.freed.count d + live s d
  /-- one message carries it at most, and only as long as it is allocated -/
  single : ∀ d, carried n s d ≤ live s d

theorem live_le_one (s : State) (d : ℕ) : live s d ≤ 1 := by
  unfold live
  split_ifs <;> decide

theorem live_of_none {d : ℕ} (h : s.proxies d = none) : live s d = 0 := by simp [live, h]

theorem live_congr (h : t.proxies = s.proxies) (d : ℕ) : live t d = live s d := by simp only [live, h]

theorem live_take {k : ℕ} {pr : Proxy} (hk : s.proxies k = none) (h : t.proxies = Function.update s.proxies k (some pr)) (d : ℕ) :
    live t d = live s d + if d = k then 1 else 0 := by
  by_cases hd : d = k
  · subst hd
    rw [live_of_none hk, live, h, Function.update_self]
    simp
  · simp only [live, h, Function.update_of_ne hd, if_neg hd, add_zero]

theorem live_free {k : ℕ} (hk : 0 < live s k) (h : t.proxies = Function.update s.proxies k none) (d : ℕ) :
    live t d + (if d = k then 1 else 0) = live s d := by
  by_cases hd : d = k
  · subst hd
    have h1 : live t d = 0 := live_of_none (by rw [h, Function.update_self])
    have h2 := live_le_one s d
    rw [if_pos rfl]
    omega
  · simp only [live, h, Function.update_of_ne hd, if_neg hd, add_zero]

theorem count_snoc (l : List ℕ) (k d : ℕ) : (l ++ [k]).count d = l.count d + if d = k then 1 else 0 := by
  rw [List.count_append, List.count_singleton]
  by_cases hd : d = k
  · simp [hd]
  · simp [hd, Ne.symm hd]

/-- a record that is given back was carried, and is allocated -/
theorem Inv.live_pos {k : ℕ} (hi : Inv n s) (hc : ∀ d, carried n t d + (if d = k then 1 else 0) = carried n s d) :
    0 < live s k := by
  have h1 := hc k
  have h2 := hi.single k
  rw [if_pos rfl] at h1
  omega

/-- **A step keeps the invariant.** -/
theorem Effect.inv {b : Bool} (h : Effect n s t b) (ht : Placed n t) (hi : Inv n s) : Inv n t := by
  have h1 := hi.counts
  have h2 := hi.single
  cases h with
  | same hp htk hf hc =>
    refine ⟨ht, fun d => ?_, fun d => ?_⟩
    · rw [htk, hf, live_congr hp, h1]
    · rw [hc, live_congr hp]
      exact h2 d
  | take k pr hk hp htk hf hc =>
    refine ⟨ht, fun d => ?_, fun d => ?_⟩
    · rw [htk, hf, count_snoc, live_take hk hp, h1, add_assoc]
    · rw [hc, live_take hk hp]
      exact Nat.add_le_add_right (h2 d) _
  | free k hp htk hf hc =>
    have hlive := live_free (hi.live_pos hc) hp
    refine ⟨ht, fun d => ?_, fun d => ?_⟩
    · rw [htk, hf, count_snoc, h1, ← hlive d]
      omega
    · have h3 := h2 d
      rw [← hc d, ← hlive d] at h3
      exact Nat.le_of_add_le_add_right h3
  | leak k pr hk hp htk hf hc =>
    refine ⟨ht, fun d => ?_, fun d => ?_⟩
    · rw [htk, hf, count_snoc, live_take hk hp, h1, add_assoc]
    · rw [hc, live_take hk hp]
      exact Nat.le_add_right_of_le (h2 d)
  | lose k hp htk hf hc _ =>
    refine ⟨ht, fun d => ?_, fun d => ?_⟩
    · rw [htk, hf, live_congr hp, h1]
    · rw [live_congr hp]
      exact le_trans (hc d) (h2 d)

/-- with the invariant: every record that is allocated is carried -/
theorem released_iff_live (hi : Inv n s) : Released n s ↔ ∀ d, live s d = carried n s d := by
  refine forall_congr' fun d => ?_
  have h := hi.counts d
  omega

/-- **A step that loses none** keeps the claim, and the others break it. -/
theorem Effect.keeps_iff {b : Bool} (h : Effect n s t b) (hi : Inv n s) (ht : Inv n t) (hr : Released n s) :
    Released n t ↔ b = true := by
  rw [released_iff_live ht]
  rw [released_iff_live hi] at hr
  cases h with
  | same hp _ _ hc => simp [live_congr hp, hc, hr]
  | take k pr hk hp _ _ hc => simp [live_take hk hp, hc, hr]
  | free k hp _ _ hc =>
    have hlive := live_free (hi.live_pos hc) hp
    refine iff_of_true (fun d => ?_) rfl
    have h3 := hr d
    rw [← hc d, ← hlive d] at h3
    exact Nat.add_right_cancel h3
  | leak k pr hk hp _ _ hc =>
    refine iff_of_false (fun hall => ?_) Bool.false_ne_true
    have h3 := hall k
    rw [live_take hk hp, hc, hr, if_pos rfl] at h3
    omega
  | lose k hp _ _ _ hk =>
    refine iff_of_false (fun hall => ?_) Bool.false_ne_true
    have h3 := hall k
    rw [live_congr hp, hr] at h3
    omega

/-- **A record that is lost stays lost.** -/
theorem Effect.stays_lost {b : Bool} (h : Effect n s t b) (hi : Inv n s) (ht : Inv n t) (hr : ¬Released n s) :
    ¬Released n t := by
  rw [released_iff_live ht]
  rw [released_iff_live hi, not_forall] at hr
  obtain ⟨d, hd⟩ := hr
  have hle := hi.single d
  have hone := live_le_one s d
  refine not_forall.2 ⟨d, ?_⟩
  cases h with
  | same hp _ _ hc =>
    rw [live_congr hp, hc]
    exact hd
  | take k pr hk hp _ _ hc =>
    rw [live_take hk hp, hc]
    omega
  | free k hp _ _ hc =>
    have hlive := live_free (hi.live_pos hc) hp d
    have h3 := hc d
    omega
  | leak k pr hk hp _ _ hc =>
    rw [live_take hk hp, hc]
    omega
  | lose k hp _ _ hc _ =>
    have h3 := hc d
    rw [live_congr hp]
    omega

/-! ## Runs -/

theorem initial_inv (n : ℕ) : Inv n initial where
  placed :=
    { proxies := fun _ _ h => by cases h
      outbox := fun _ _ hx => absurd hx List.not_mem_nil }
  counts _ := rfl
  single d := by simp [carried, inflight, load, initial]

theorem initial_released (n : ℕ) : Released n initial := by
  intro d
  simp [carried, inflight, load, initial]

theorem step_inv {a : Act} (hi : Inv n s) (h : step n s a = some t) : Inv n t := by
  obtain ⟨ht, b, heff, -⟩ := step_effect hi.placed h
  exact heff.inv ht hi

theorem run_not_released {as : List Act} (hi : Inv n s) (hr : ¬Released n s) (h : exec (step n) s as = some t) :
    ¬Released n t := by
  induction as generalizing s with
  | nil =>
    cases h
    exact hr
  | cons a as ih =>
    rw [exec_cons, Option.bind_eq_some_iff] at h
    obtain ⟨u, hu, hrest⟩ := h
    obtain ⟨hplaced, b, heff, -⟩ := step_effect hi.placed hu
    have hu' := heff.inv hplaced hi
    exact ih hu' (heff.stays_lost hi hu' hr) hrest

theorem run_released_iff {as : List Act} (hi : Inv n s) (hr : Released n s) (h : exec (step n) s as = some t) :
    Released n t ↔ Along (step n) Ok s as := by
  induction as generalizing s with
  | nil =>
    cases h
    exact iff_of_true hr trivial
  | cons a as ih =>
    rw [exec_cons, Option.bind_eq_some_iff] at h
    obtain ⟨u, hu, hrest⟩ := h
    obtain ⟨hplaced, b, heff, hok⟩ := step_effect hi.placed hu
    have hu' := heff.inv hplaced hi
    cases b with
    | true =>
      rw [ih hu' ((heff.keeps_iff hi hu' hr).2 rfl) hrest]
      constructor
      · exact fun hrun => ⟨hok.2 rfl, fun v hv => by rw [hu] at hv; cases hv; exact hrun⟩
      · exact fun hrun => hrun.2 u hu
    | false =>
      have hlost : ¬Released n u := fun hr' => Bool.false_ne_true ((heff.keeps_iff hi hu' hr).1 hr')
      refine iff_of_false (run_not_released hu' hlost hrest) fun hrun => ?_
      exact Bool.false_ne_true (hok.1 hrun.1)

/-- **Exactly when the records are released.** After a run of any processes, each record was freed once for each time it was taken, or
is carried by a message in flight, if and only if no step of the run lost one. -/
theorem released_iff (n : ℕ) (as : List Act) (s : State) (h : exec (step n) initial as = some s) :
    Released n s ↔ Along (step n) Ok initial as :=
  run_released_iff (initial_inv n) (initial_released n) h

/-- then, with no such message in flight, none is allocated -/
theorem none_left (hi : Inv n s) (hr : Released n s) (h : ∀ d, carried n s d = 0) (d : ℕ) : s.proxies d = none := by
  have hlive := (released_iff_live hi).1 hr d
  rw [h d] at hlive
  cases hd : s.proxies d with
  | none => rfl
  | some pr => simp [live, hd] at hlive

/-! ### A message from a worker to the master -/

/-- the slab returns block k, and the destination is in that state -/
def env (dst_state : Runstate) (k : ℕ) : Env :=
  { dst_state := dst_state, manager_state := .running, reserved := true, memory := true, record := some k }

/-- worker 0 sends a signal to the master; the manager forwards it, and the master runs the handler -/
def delivery : List Act :=
  [.send 0 (-2) ⟨1, 5⟩ (env .running 1), .receive (-1) (env .running 1), .receive (-2) (env .running 1)]

/-- the same, but the master has stopped before the manager forwards it -/
def refusal : List Act := [.send 0 (-2) ⟨1, 5⟩ (env .running 1), .receive (-1) (env .stopped 1)]

/-- **The record is not freed** once the message is handled. -/
theorem not_released :
    ∃ s, exec (step 1) initial delivery = some s ∧ ¬Released 1 s ∧ (∀ p ∈ procs 1, s.ring p = [] ∧ s.outbox p = []) ∧
      (s.proxies 1).isSome := by
  refine ⟨_, rfl, ?_, by decide, rfl⟩
  intro h
  have h1 := h 1
  revert h1
  decide

theorem refusal_ok : Along (step 1) Ok initial refusal := by
  refine ⟨fun _ _ _ => by decide, fun t ht => ⟨?_, fun _ _ => trivial⟩⟩
  cases ht
  intro m hm
  cases hm
  decide

theorem released_refused : ∃ s, exec (step 1) initial refusal = some s ∧ Released 1 s :=
  ⟨_, rfl, (released_iff 1 refusal _ rfl).2 refusal_ok⟩

end Shuttlesock.Proxy
