/-
Messages in flight: those in the rings and in the outboxes of the processes.

- `inflight`: how many of them satisfy a predicate.
- `Sends`: what a send does to them, with its result (`direct_sends`, `append_sends`, `near_sends`).
-/
import Mathlib.Tactic
import Shuttlesock.Ipc.Send

namespace Shuttlesock.Flight

open Shuttlesock.Send
open Shuttlesock.Outbox (Runstate)

/-- the processes, with n workers -/
def procs (n : ℕ) : Finset ℤ := (Finset.range (n + 2)).image fun i : ℕ => SHUTTLESOCK_MASTER + i

/-- the messages in the ring and in the outbox of p -/
def load (s : State) (c : Msg → Bool) (p : ℤ) : ℕ := (s.ring p).countP c + (s.outbox p).countP fun x => c x.2

def inflight (n : ℕ) (s : State) (c : Msg → Bool) : ℕ := ∑ p ∈ procs n, load s c p

/-- a predicate as a number -/
def one (c : Msg → Bool) (m : Msg) : ℕ := if c m then 1 else 0

theorem one_le_one (c : Msg → Bool) (m : Msg) : one c m ≤ 1 := by
  unfold one
  split_ifs <;> decide

variable {n : ℕ} {s t : State} {c : Msg → Bool}

theorem mem_procs {p : ℤ} : p ∈ procs n ↔ SHUTTLESOCK_MASTER ≤ p ∧ p < n := by
  simp only [procs, Finset.mem_image, Finset.mem_range, SHUTTLESOCK_MASTER]
  constructor
  · rintro ⟨i, hi, rfl⟩
    omega
  · rintro ⟨h1, h2⟩
    exact ⟨(p + 2).toNat, by omega, by omega⟩

theorem manager_mem : SHUTTLESOCK_MANAGER ∈ procs n := mem_procs.2 ⟨by decide, by simp only [SHUTTLESOCK_MANAGER]; omega⟩

/-- the manager is apart from none -/
theorem not_apart_manager (dst : ℤ) : ¬Apart SHUTTLESOCK_MANAGER dst := by
  simp [Apart, SHUTTLESOCK_MANAGER, SHUTTLESOCK_MASTER, SHUTTLESOCK_WORKER]

theorem not_apart_to_manager (src : ℤ) : ¬Apart src SHUTTLESOCK_MANAGER := by
  simp [Apart, SHUTTLESOCK_MANAGER, SHUTTLESOCK_MASTER, SHUTTLESOCK_WORKER]

/-! ## Counting -/

theorem inflight_congr (hr : t.ring = s.ring) (ho : t.outbox = s.outbox) : inflight n t c = inflight n s c := by
  simp only [inflight, load, hr, ho]

/-- only what p has changes -/
theorem inflight_of_load {p : ℤ} (hp : p ∈ procs n) (h : ∀ q, q ≠ p → load t c q = load s c q) :
    inflight n t c + load s c p = inflight n s c + load t c p := by
  have h1 := Finset.add_sum_erase (procs n) (load s c) hp
  have h2 := Finset.add_sum_erase (procs n) (load t c) hp
  have h3 : ∑ q ∈ (procs n).erase p, load t c q = ∑ q ∈ (procs n).erase p, load s c q :=
    Finset.sum_congr rfl fun q hq => h q (Finset.ne_of_mem_erase hq)
  unfold inflight
  omega

theorem inflight_ring {p : ℤ} (hp : p ∈ procs n) (l : List Msg) (c : Msg → Bool) :
    inflight n { s with ring := Function.update s.ring p l } c + (s.ring p).countP c = inflight n s c + l.countP c := by
  have h := inflight_of_load (s := s) (t := { s with ring := Function.update s.ring p l }) (c := c) hp
    fun q hq => by simp [load, Function.update_of_ne hq]
  simp only [load, Function.update_self] at h
  omega

theorem inflight_outbox {p : ℤ} (hp : p ∈ procs n) (l : List (ℤ × Msg)) (c : Msg → Bool) :
    inflight n { s with outbox := Function.update s.outbox p l } c + (s.outbox p).countP (fun x => c x.2) =
      inflight n s c + l.countP fun x => c x.2 := by
  have h := inflight_of_load (s := s) (t := { s with outbox := Function.update s.outbox p l }) (c := c) hp
    fun q hq => by simp [load, Function.update_of_ne hq]
  simp only [load, Function.update_self] at h
  omega

/-- m is in flight -/
def Flying (n : ℕ) (s : State) (m : Msg) : Prop := ∃ p ∈ procs n, m ∈ s.ring p ∨ ∃ x ∈ s.outbox p, x.2 = m

theorem inflight_eq_of {c' : Msg → Bool} (h : ∀ m, Flying n s m → c m = c' m) : inflight n s c = inflight n s c' := by
  refine Finset.sum_congr rfl fun p hp => ?_
  have h1 : (s.ring p).countP c = (s.ring p).countP c' :=
    List.countP_congr fun m hm => by rw [h m ⟨p, hp, .inl hm⟩]
  have h2 : (s.outbox p).countP (fun x => c x.2) = (s.outbox p).countP fun x => c' x.2 :=
    List.countP_congr fun x hx => by rw [h x.2 ⟨p, hp, .inr ⟨x, hx, rfl⟩⟩]
  unfold load
  rw [h1, h2]

theorem eq_false_of_inflight {m : Msg} (h : inflight n s c = 0) (hm : Flying n s m) : c m = false := by
  obtain ⟨p, hp, hm⟩ := hm
  have hload : load s c p = 0 := Finset.sum_eq_zero_iff.1 h p hp
  rw [load, Nat.add_eq_zero_iff, List.countP_eq_zero, List.countP_eq_zero] at hload
  rcases hm with hm | ⟨x, hx, rfl⟩
  · exact Bool.eq_false_iff.2 (hload.1 m hm)
  · exact Bool.eq_false_iff.2 (hload.2 x hx)

/-! ## Sending -/

/-- what a send of m on the near route does, with its result -/
structure Sends (n : ℕ) (s : State) (src dst : ℤ) (m : Msg) (r : State × Bool) : Prop where
  proxies : r.1.proxies = s.proxies
  taken : r.1.taken = s.taken
  freed : r.1.freed = s.freed
  ring : ∀ p, ∀ x ∈ r.1.ring p, x ∈ s.ring p ∨ p = dst ∧ x = m
  outbox : ∀ p, ∀ x ∈ r.1.outbox p, x ∈ s.outbox p ∨ p = src ∧ x = (dst, m)
  inflight : ∀ c, inflight n r.1 c = inflight n s c + if r.2 then one c m else 0

variable {src dst : ℤ} {m : Msg}

/-- a send that fails changes none of it -/
theorem Sends.failed (hp : t.proxies = s.proxies) (ht : t.taken = s.taken) (hf : t.freed = s.freed)
    (ho : t.outbox = s.outbox) (hr : t.ring = s.ring) : Sends n s src dst m (t, false) :=
  ⟨hp, ht, hf, fun p x hx => .inl (by rwa [← hr]), fun p x hx => .inl (by rwa [← ho]),
    fun c => by simpa using inflight_congr hr ho⟩

theorem mem_update_append {α : Type*} {f : ℤ → List α} {p q : ℤ} {a x : α}
    (h : x ∈ Function.update f p (f p ++ [a]) q) : x ∈ f q ∨ q = p ∧ x = a := by
  by_cases hq : q = p
  · subst hq
    simp only [Function.update_self, List.mem_append, List.mem_singleton] at h
    exact h.imp_right fun h => ⟨rfl, h⟩
  · rw [Function.update_of_ne hq] at h
    exact .inl h

theorem direct_sends (src : ℤ) (m : Msg) (e : Env) (hdst : dst ∈ procs n) :
    Sends n s src dst m (ipc_send_direct s dst m e) := by
  unfold ipc_send_direct
  split_ifs
  · refine ⟨rfl, rfl, rfl, fun p x hx => mem_update_append hx, fun p x hx => .inl hx, fun c => ?_⟩
    have h := inflight_ring (s := s) hdst (s.ring dst ++ [m]) c
    simp only [List.countP_append, List.countP_singleton] at h
    simp only [one, if_true]
    omega
  · exact .failed rfl rfl rfl rfl rfl

theorem append_sends (dst : ℤ) (m : Msg) (e : Env) (hsrc : src ∈ procs n) :
    Sends n s src dst m (ipc_send_outbuf_append s src dst m e) := by
  unfold ipc_send_outbuf_append
  split_ifs
  · refine ⟨rfl, rfl, rfl, fun p x hx => .inl hx, fun p x hx => mem_update_append hx, fun c => ?_⟩
    have h := inflight_outbox (s := s) hsrc (s.outbox src ++ [(dst, m)]) c
    simp only [List.countP_append, List.countP_singleton] at h
    simp only [one, if_true]
    omega
  · exact .failed rfl rfl rfl rfl rfl

theorem near_sends (m : Msg) (dst_state : Runstate) (e : Env) (hsrc : src ∈ procs n) (hdst : dst ∈ procs n) :
    Sends n s src dst m (ipc_send_near s src dst m dst_state e) := by
  unfold ipc_send_near
  dsimp only
  -- the history of destinations is no part of it
  have hs {r : State × Bool} (h : Sends n { s with tried := s.tried ++ [dst] } src dst m r) : Sends n s src dst m r :=
    ⟨h.proxies, h.taken, h.freed, h.ring, h.outbox, fun c => (h.inflight c).trans (congrArg (· + _) (inflight_congr rfl rfl))⟩
  split_ifs
  · exact .failed rfl rfl rfl rfl rfl
  · exact hs (append_sends dst m e hsrc)
  · exact hs (direct_sends src m e hdst)
  · exact hs (append_sends dst m e hsrc)

theorem direct_outbox (s : State) (dst : ℤ) (m : Msg) (e : Env) : (ipc_send_direct s dst m e).1.outbox = s.outbox := by
  unfold ipc_send_direct
  split <;> rfl

/-! ## Retrying -/

/-- one round of the loop of `ipc_send_retry_cb` -/
def ipc_send_retry_cb (s : State) (procnum : ℤ) (e : Env) : Option State :=
  match s.outbox procnum with
  | [] => none
  | cur :: rest =>
    let r := ipc_send_direct s cur.1 cur.2 e
    if r.2 then some { r.1 with outbox := Function.update r.1.outbox procnum rest } else some r.1

theorem mem_update_tail {α : Type*} {f : ℤ → List α} {p q : ℤ} {l : List α} {x : α} (hl : ∀ y ∈ l, y ∈ f p)
    (h : x ∈ Function.update f p l q) : x ∈ f q := by
  by_cases hq : q = p
  · subst hq
    rw [Function.update_self] at h
    exact hl x h
  · rwa [Function.update_of_ne hq] at h

/-- **A retry moves a message** from the outbox to the ring of its destination, or nothing. -/
structure Retries (n : ℕ) (s : State) (p : ℤ) (t : State) : Prop where
  proxies : t.proxies = s.proxies
  taken : t.taken = s.taken
  freed : t.freed = s.freed
  ring : ∀ q, ∀ m ∈ t.ring q, m ∈ s.ring q ∨ (q, m) ∈ s.outbox p
  outbox : ∀ q, ∀ x ∈ t.outbox q, x ∈ s.outbox q
  inflight : ∀ c, inflight n t c = inflight n s c

theorem retry_retries {p : ℤ} {e : Env} (hp : p ∈ procs n) (hdst : ∀ x ∈ s.outbox p, x.1 ∈ procs n)
    (h : ipc_send_retry_cb s p e = some t) : Retries n s p t := by
  unfold ipc_send_retry_cb at h
  split at h
  · cases h
  · next cur rest hout =>
    have hcur : cur ∈ s.outbox p := by rw [hout]; exact List.mem_cons_self
    have hsend := direct_sends (s := s) p cur.2 e (hdst cur hcur)
    have hbox := direct_outbox s cur.1 cur.2 e
    have hring : ∀ q, ∀ m ∈ (ipc_send_direct s cur.1 cur.2 e).1.ring q, m ∈ s.ring q ∨ (q, m) ∈ s.outbox p := by
      intro q m hm
      refine (hsend.ring q m hm).imp_right fun h => ?_
      rw [h.1, h.2]
      exact hcur
    dsimp only at h
    split_ifs at h with hr
    · cases h
      refine ⟨hsend.proxies, hsend.taken, hsend.freed, hring, fun q x hx => ?_, fun c => ?_⟩
      · simp only [hbox] at hx
        exact mem_update_tail (fun y hy => by rw [hout]; exact List.mem_cons_of_mem _ hy) hx
      · have h1 := inflight_outbox (s := (ipc_send_direct s cur.1 cur.2 e).1) hp rest c
        have h2 := hsend.inflight c
        have h3 : ((ipc_send_direct s cur.1 cur.2 e).1.outbox p).countP (fun x => c x.2) =
            rest.countP (fun x => c x.2) + one c cur.2 := by
          rw [hbox, hout, List.countP_cons, one]
        rw [hr, if_pos rfl] at h2
        omega
    · cases h
      refine ⟨hsend.proxies, hsend.taken, hsend.freed, hring, fun q x hx => by rwa [hbox] at hx, fun c => ?_⟩
      simp [hsend.inflight, hr]

end Shuttlesock.Flight
