/-
Delivery through the ring (`ipc.c`): what the invariant says about the messages.

- `Final s`: no step is left but the start of another send.
- `Delivery s`: nothing is handed to a handler but messages that were accepted, none twice; in a final state exactly the
  messages whose send returned true; two sends in flight never hold the same slot.
- `Readable s`: the assertion of `ipc_receive` has not failed, and when no send is in progress every slot from the read
  position up to `next_write_release` holds a message.

Results:
- `reach_woken`: in every run, a released message has a notice on its way, or the receiver is reading.
- `delivery_of_ok`, `readable_of_ok`: every state reached by steps that meet the condition.
- `delivery_fails`, `readable_fails`: without the condition, a single sender is enough. The receiver has read the first
  message and is about to look at `full`; 256 further sends and a refused one make the assertion fail.
-/
import Mathlib.Tactic
import Shuttlesock.Ipc.RingInv

namespace Shuttlesock.Ring

open Shuttlesock.Runs Shuttlesock.Procs

variable {P : Type*} [DecidableEq P]

/-! ## Unread messages and notices -/

/-- the read index that the receiver keeps -/
def RecvPc.index : RecvPc → Option ℕ
  | .loop i => some i
  | .loadCode i => some i
  | .loadPtr i _ => some i
  | .clear i _ => some i
  | .bump i _ => some i
  | .handler i _ => some i
  | _ => none

/-- in the loop of `ipc_receive` -/
def RecvPc.reading (pc : RecvPc) : Prop := pc = .loadNextRead ∨ ∃ i, pc.index = some i

structure Woken (s : St P) : Prop where
  index : ∀ i, s.recv.index = some i → i = s.buf.next_read
  unread : s.buf.next_read < s.buf.next_write_release →
    (∃ p m, s.send p = .notice m) ∨ 0 < s.notices ∨ s.recv.reading

theorem runSend_woken {s : St P} (h : Woken s) (p : P) : Woken (runSend s p) := by
  obtain ⟨hread, hrel, -⟩ := send_frame (s.send p) s.buf
  refine ⟨fun i hi => (h.index i hi).trans hread.symm, fun hlt => ?_⟩
  by_cases hp : ∃ m i, s.send p = .release m i
  · obtain ⟨m, i, hp⟩ := hp
    refine Or.inl ⟨p, m, ?_⟩
    simp [runSend, hp, send_step]
  by_cases hn : ∃ m, s.send p = .notice m
  · obtain ⟨m, hn⟩ := hn
    refine Or.inr (Or.inl ?_)
    simp [runSend, hn, send_step]
  · have hlt' : s.buf.next_read < s.buf.next_write_release := by
      rw [← hread, ← hrel fun m i h => hp ⟨m, i, h⟩]
      exact hlt
    rcases h.unread hlt' with ⟨q, m, hq⟩ | hnot | hreading
    · refine Or.inl ⟨q, m, ?_⟩
      have hqp : q ≠ p := by
        rintro rfl
        exact hn ⟨m, hq⟩
      exact (Function.update_of_ne hqp _ _).trans hq
    · exact Or.inr (Or.inl (Nat.lt_of_lt_of_le hnot (Nat.le_add_right _ _)))
    · exact Or.inr (Or.inr hreading)

omit [DecidableEq P] in
theorem runRecv_woken {s : St P} (h : Woken s) (hidle : s.recv ≠ .idle) : Woken (runRecv s) := by
  have hidx := h.index
  -- a step from outside the loop to outside the loop
  have hout : ∀ (pc : RecvPc) (b : Ringbuf) (d : List Msg), pc.index = none → ¬ s.recv.reading →
      b.next_read = s.buf.next_read → b.next_write_release = s.buf.next_write_release →
      Woken { s with buf := b, recv := pc, delivered := d } := by
    intro pc b d hpc hs h1 h2
    refine ⟨fun i hi => (by rw [hpc] at hi; cases hi), fun hlt => ?_⟩
    rw [h1, h2] at hlt
    exact (h.unread hlt).imp_right fun hr => Or.inl (hr.resolve_right hs)
  -- a step inside the loop
  have hin : ∀ (pc : RecvPc) (b : Ringbuf) (d : List Msg), (∃ i, pc.index = some i ∧ i = b.next_read) →
      Woken { s with buf := b, recv := pc, delivered := d } := by
    rintro pc b d ⟨i, hi, hib⟩
    refine ⟨fun j hj => ?_, fun _ => Or.inr (Or.inr (Or.inr ⟨i, hi⟩))⟩
    change pc.index = some j at hj
    rw [hi] at hj
    cases hj
    exact hib
  unfold runRecv
  cases hpc : s.recv with
  | idle => exact absurd hpc hidle
  | loadNextRead => exact hin _ _ _ ⟨_, rfl, rfl⟩
  | loop i =>
    obtain rfl := hidx i (by rw [hpc]; rfl)
    simp only [recv_step]
    split_ifs with hlt
    · exact hin _ _ _ ⟨_, rfl, rfl⟩
    · refine ⟨fun j hj => (by cases hj), fun hlt' => absurd hlt' hlt⟩
  | loadCode i =>
    obtain rfl := hidx i (by rw [hpc]; rfl)
    exact hin _ _ _ ⟨_, rfl, rfl⟩
  | loadPtr i code =>
    obtain rfl := hidx i (by rw [hpc]; rfl)
    simp only [recv_step]
    split_ifs
    · exact hin _ _ _ ⟨_, rfl, rfl⟩
    · exact hin _ _ _ ⟨_, rfl, rfl⟩
  | clear i m =>
    obtain rfl := hidx i (by rw [hpc]; rfl)
    exact hin _ _ _ ⟨_, rfl, rfl⟩
  | bump i m =>
    obtain rfl := hidx i (by rw [hpc]; rfl)
    exact hin _ _ _ ⟨_, rfl, rfl⟩
  | handler i m =>
    obtain rfl := hidx i (by rw [hpc]; rfl)
    exact hin _ _ _ ⟨_, rfl, rfl⟩
  | checkFull =>
    simp only [recv_step]
    split_ifs
    · exact hout _ _ _ rfl (by simp [RecvPc.reading, hpc, RecvPc.index]) rfl rfl
    · exact hout _ _ _ rfl (by simp [RecvPc.reading, hpc, RecvPc.index]) rfl rfl
  | assertRelease w =>
    simp only [recv_step]
    split_ifs
    · exact hout _ _ _ rfl (by simp [RecvPc.reading, hpc, RecvPc.index]) rfl rfl
    · exact hout _ _ _ rfl (by simp [RecvPc.reading, hpc, RecvPc.index]) rfl rfl
  | _ => exact hout _ _ _ rfl (by simp [RecvPc.reading, hpc, RecvPc.index]) rfl rfl

theorem step_woken {s t : St P} {a : Action P} (h : Woken s) (hst : step s a = some t) : Woken t := by
  cases a with
  | send p m =>
    simp only [step] at hst
    split_ifs at hst with hp
    cases hst
    refine ⟨h.index, fun hlt => ?_⟩
    rcases h.unread hlt with ⟨q, m', hq⟩ | hrest
    · refine Or.inl ⟨q, m', ?_⟩
      have hqp : q ≠ p := by
        rintro rfl
        rw [hp.1] at hq
        cases hq
      exact (Function.update_of_ne hqp _ _).trans hq
    · exact Or.inr hrest
  | run p =>
    simp only [step] at hst
    split_ifs at hst
    cases hst
    exact runSend_woken h p
  | wake k =>
    simp only [step] at hst
    split_ifs at hst
    cases hst
    exact ⟨fun i hi => (by cases hi), fun _ => Or.inr (Or.inr (Or.inl rfl))⟩
  | recv =>
    simp only [step] at hst
    split_ifs at hst with hpc
    cases hst
    exact runRecv_woken h fun hi => hpc (Or.inl hi)

/-- **A released message is announced.** In every run, when a message is unread its notice is on its way or the
receiver is in its loop. -/
theorem reach_woken {s : St P} (h : Reach step always init s) : Woken s :=
  h.inv ⟨fun i hi => (by cases hi), fun hlt => absurd hlt (Nat.lt_irrefl 0)⟩ fun _ _ _ h _ => step_woken h

/-! ## Delivery -/

/-- no step is left but the start of another send -/
def Final (s : St P) : Prop := step s .recv = none ∧ (∀ k, step s (.wake k) = none) ∧ ∀ p, step s (.run p) = none

/-- p has an index whose message is still to be stored or read -/
def Holds (s : St P) (p : P) (i : ℕ) : Prop := s.readPos ≤ i ∧ ∃ m, (s.send p).held = some (i, m)

structure Delivery [Fintype P] (s : St P) : Prop where
  handed : (s.delivered : Multiset Msg) ≤ s.returned + ∑ p, ((s.send p).inflight.toList : Multiset Msg)
  complete : Final s → s.delivered.Perm s.returned
  apart : ∀ p q, p ≠ q → ∀ i j, Holds s p i → Holds s q j → slot i ≠ slot j

/-- the assertion has not failed, and the receiver finds a message in every slot that it goes to -/
def Readable (s : St P) : Prop :=
  s.recv ≠ .aborted ∧
    ((∀ p, s.send p = .idle) → ∀ i, s.readPos ≤ i → i < s.buf.next_write_release → s.buf.code (slot i) ≠ NIL)

theorem final_iff (s : St P) :
    Final s ↔ (∀ p, s.send p = .idle) ∧ ((s.recv = .idle ∧ s.notices = 0) ∨ s.recv = .aborted) := by
  simp only [Final, step, ite_eq_left_iff, reduceCtorEq, imp_false, not_not, ite_eq_right_iff, not_and]
  constructor
  · rintro ⟨h1, h2, h3⟩
    refine ⟨h3, h1.imp_left fun hi => ⟨hi, ?_⟩⟩
    by_contra h0
    have := h2 1 hi Nat.one_pos
    omega
  · rintro ⟨h1, h2⟩
    refine ⟨h2.imp_left And.left, fun k hi hk => ?_, h1⟩
    rcases h2 with h2 | h2
    · omega
    · rw [hi] at h2
      cases h2

section Inv

omit [DecidableEq P]

variable [Fintype P]

/-- the messages handed over and the one in the receiver's hand, with their indices, are part of the ledger -/
theorem Inv.handed_subperm {s : St P} (h : Inv s) :
    ((s.delivered ++ s.recv.hand).zipIdx.map Prod.swap).Subperm s.ledger := by
  refine List.subperm_of_subset ?_ fun x hx => ?_
  · refine List.Nodup.of_map Prod.fst ?_
    have : Prod.fst ∘ (Prod.swap : Msg × ℕ → ℕ × Msg) = Prod.snd := rfl
    rw [List.map_map, this, List.zipIdx_map_snd]
    exact List.nodup_range'
  · obtain ⟨⟨m, i⟩, hy, rfl⟩ := List.mem_map.1 hx
    exact h.order i m (List.mem_zipIdx_iff_getElem?.1 hy)

theorem map_snd_zipIdx (l : List Msg) : (l.zipIdx.map Prod.swap).map Prod.snd = l := by
  have : Prod.snd ∘ (Prod.swap : Msg × ℕ → ℕ × Msg) = Prod.fst := rfl
  rw [List.map_map, this, List.zipIdx_map_fst]

theorem Inv.handed {s : St P} (h : Inv s) :
    (s.delivered : Multiset Msg) ≤ s.returned + ∑ p, ((s.send p).inflight.toList : Multiset Msg) := by
  obtain ⟨l, hperm, hsub⟩ := h.handed_subperm
  have hmap : (s.delivered ++ s.recv.hand).Subperm (s.ledger.map Prod.snd) :=
    ⟨l.map Prod.snd, by rw [← map_snd_zipIdx (s.delivered ++ s.recv.hand)]; exact hperm.map _, hsub.map _⟩
  rw [h.msgs, Multiset.coe_le]
  exact (List.sublist_append_left _ _).subperm.trans hmap

/-- nothing sent, nothing on its way and nothing to read: everything accepted has been handed over -/
theorem Inv.handed_all {s : St P} (h : Inv s) (hsend : ∀ p, s.send p = .idle) (hrecv : s.recv = .idle)
    (hread : s.buf.next_write_release ≤ s.buf.next_read) : s.delivered.Perm s.returned := by
  have hlen : s.ledger.length ≤ (s.delivered ++ s.recv.hand).length := by
    have := h.count
    simp only [hsend, SendPc.held, Option.toList_none, List.length_nil, Finset.sum_const_zero, Nat.add_zero] at this
    rw [h.taken, St.readPos, hrecv]
    simp only
    omega
  have hperm := (h.handed_subperm.perm_of_length_le (by simpa using hlen)).map Prod.snd
  rw [map_snd_zipIdx, hrecv] at hperm
  have hmsgs := h.msgs
  simp only [hsend, SendPc.inflight, Option.toList_none, Multiset.coe_nil, Finset.sum_const_zero, add_zero,
    Multiset.coe_eq_coe] at hmsgs
  simp only [RecvPc.hand, List.append_nil] at hperm
  exact hperm.trans hmsgs.symm

theorem Inv.apart {s : St P} (h : Inv s) {p q : P} (hpq : p ≠ q) {i j : ℕ} (hi : Holds s p i) (hj : Holds s q j) :
    slot i ≠ slot j := by
  obtain ⟨hi', m, hp⟩ := hi
  obtain ⟨hj', m', hq⟩ := hj
  have hkey := List.mem_map_of_mem (f := Prod.fst) (h.held_mem hq)
  have hbound := (h.mem_bound (List.mem_map_of_mem (f := Prod.fst) (h.held_mem hp))).2
  have := readPos_ge s
  exact h.slot_ne hkey hj' hi' (by simp only at hbound; omega) (h.heldApart p q hpq _ hp _ hq)

theorem Inv.readable {s : St P} (h : Inv s) : Readable s := by
  refine ⟨fun ha => ?_, fun hsend i hi hlt => ?_⟩
  · have := h.receiver
    rw [ha] at this
    exact this
  · have hcount : s.buf.next_write_release = s.keys.length := by
      have := h.count
      simp only [hsend, SendPc.held, Option.toList_none, List.length_nil, Finset.sum_const_zero, Nat.add_zero] at this
      rw [St.keys, List.length_map, this]
    -- without a message at i there are none above it, and too few below it
    have hmem : i ∈ s.keys := by
      by_contra hk
      have hbelow : ∀ j ∈ s.keys, j < i := by
        intro j hj
        by_cases hw : i < s.buf.next_write_reserve
        · rcases h.holes i hw hk with ⟨p, hp⟩ | ⟨-, -, habove⟩
          · rw [hsend] at hp
            cases hp
          · obtain ⟨x, hx, rfl⟩ := List.mem_map.1 hj
            exact habove x hx
        · have := (h.mem_bound hj).1
          omega
      have hsub := List.subperm_of_subset h.nodup fun j hj => List.mem_range.2 (hbelow j hj)
      have := hsub.length_le
      rw [List.length_range] at this
      omega
    obtain ⟨x, hx, rfl⟩ := List.mem_map.1 hmem
    rcases h.stored x hx hi with ⟨p, hp⟩ | ⟨hc, -⟩
    · rw [hsend] at hp
      cases hp
    · rw [hc]
      exact (h.below x hx).2.2

end Inv

/-! ## A single sender -/

/-- a send from its start to its return, not interrupted -/
def soloSend (p : P) (m : Msg) : List (Action P) := .send p m :: List.replicate 8 (.run p)

/-- what it leaves behind -/
def sent (s : St P) (m : Msg) : St P :=
  { s with
    buf := { (s.buf.setPtr s.buf.next_write_reserve m.ptr).setCode s.buf.next_write_reserve m.code with
      next_write_reserve := s.buf.next_write_reserve + 1
      next_write_release := s.buf.next_write_release + 1 }
    notices := s.notices + 1
    ledger := s.ledger ++ [(s.buf.next_write_reserve, m)]
    returned := s.returned ++ [m] }

/-- s with p at pc and the ring b -/
def St.put (s : St P) (p : P) (pc : SendPc) (b : Ringbuf) : St P :=
  { s with buf := b, send := Function.update s.send p pc }

theorem put_send (s : St P) (p : P) (pc : SendPc) (b : Ringbuf) : (s.put p pc b).send p = pc := Function.update_self _ _ _

theorem step_start {s : St P} {p : P} {m : Msg} (hp : s.send p = .idle) (hm : m.code ≠ NIL) :
    step s (.send p m) = some (s.put p (.loadFull m) s.buf) := by
  rw [step, if_pos ⟨hp, hm⟩]
  rfl

theorem step_run {s : St P} {p : P} {pc : SendPc} {b : Ringbuf} (hpc : pc ≠ .idle) :
    step (s.put p pc b) (.run p) = some (runSend (s.put p pc b) p) := by
  rw [step, if_neg ((put_send s p pc b).trans_ne hpc)]

/-- what a step of p changes when it gets no index and does not return true -/
theorem step_put {s : St P} {p : P} {pc pc' : SendPc} {b b' : Ringbuf} {ret : Option Bool} (hpc : pc ≠ .idle)
    (h : send_step pc b = (pc', b', ret)) (ha : accepts pc b = none) (hret : ret ≠ some true) :
    step (s.put p pc b) (.run p) = some (s.put p pc' b') := by
  rw [step_run hpc]
  simp only [runSend, St.put, Function.update_self, Function.update_idem, h, ha, if_neg hret, Option.toList_none,
    List.append_nil, Nat.add_zero]

theorem step_accept {s : St P} {p : P} {m : Msg} {i e r : ℕ} {b : Ringbuf} (hf : b.full = false) (hwin : ¬ 255 < i - r) :
    step (s.put p (.recheck m i e r) b) (.run p) =
      some (St.put { s with ledger := s.ledger ++ [(i, m)] } p (.storePtr m i) b) := by
  rw [step_run (by simp)]
  simp only [runSend, St.put, Function.update_self, Function.update_idem, send_step, accepts, hf, hwin, or_self,
    Bool.false_eq_true, if_false, reduceCtorEq, Option.toList_some, List.append_nil, Nat.add_zero]

/-- the index is too far ahead -/
theorem step_ahead {s : St P} {p : P} {m : Msg} {i e r : ℕ} {b : Ringbuf} (hf : b.full = false) (hwin : 255 < i - r) :
    step (s.put p (.recheck m i e r) b) (.run p) = some (s.put p (.cas m i e) b) := by
  have h1 : send_step (.recheck m i e r) b = (.cas m i e, b, none) := by
    simp only [send_step, hf, hwin, Bool.false_eq_true, if_false, if_true]
  have h2 : accepts (.recheck m i e r) b = none := if_pos (Or.inr hwin)
  exact step_put (by simp) h1 h2 (by simp)

theorem step_return {s : St P} {p : P} {m : Msg} {b : Ringbuf} :
    step (s.put p (.notice m) b) (.run p) =
      some { s.put p .idle b with notices := s.notices + 1, returned := s.returned ++ [m] } := by
  rw [step_run (by simp)]
  simp only [runSend, St.put, Function.update_self, Function.update_idem, send_step, accepts, SendPc.inflight, if_true,
    Option.toList_none, Option.toList_some, List.append_nil]

/-- the condition lets p run while p is not refused -/
def Lets (ok : St P → Action P → Prop) (s : St P) (p : P) : Prop :=
  ∀ (t : St P) (pc : SendPc) (b : Ringbuf), t.recv = s.recv → refuses pc b = none →
    (∀ x, accepts pc b = some x → pc.pending = some (x.1, b.resets)) → ok (t.put p pc b) (.run p)

theorem lets_always (s : St P) (p : P) : Lets always s p := fun _ _ _ _ _ _ => trivial

/-- up to the second look at `full` -/
theorem path_fetch {ok : St P → Action P → Prop} {s : St P} {p : P} {m : Msg} (hp : s.send p = .idle)
    (hm : m.code ≠ NIL) (hf : s.buf.full = false) (hstart : ok s (.send p m)) (hrun : Lets ok s p) :
    Path step ok s (.send p m :: List.replicate 3 (.run p))
      (s.put p (.recheck m s.buf.next_write_reserve s.buf.resets s.buf.next_read)
        { s.buf with next_write_reserve := s.buf.next_write_reserve + 1 }) := by
  have h1 : send_step (.loadFull m) s.buf = (.reserve m, s.buf, none) := by
    simp only [send_step, hf, Bool.false_eq_true, if_false]
  refine .cons hstart (step_start hp hm) ?_
  refine .cons (hrun s _ _ rfl rfl fun _ hx => by cases hx) (step_put (by simp) h1 rfl (by simp)) ?_
  refine .cons (hrun s _ _ rfl rfl fun _ hx => by cases hx) (step_put (by simp) rfl rfl (by simp)) ?_
  exact .cons (hrun s _ _ rfl rfl fun _ hx => by cases hx) (step_put (by simp) rfl rfl (by simp)) (.nil _)

/-- from the index to the return -/
theorem path_store {ok : St P → Action P → Prop} {s t : St P} {p : P} {m : Msg} {i : ℕ} {b : Ringbuf} (hrun : Lets ok s p)
    (ht : t.recv = s.recv) :
    Path step ok (t.put p (.storePtr m i) b) (List.replicate 4 (.run p))
      { t.put p .idle { (b.setPtr i m.ptr).setCode i m.code with next_write_release := b.next_write_release + 1 } with
        notices := t.notices + 1
        returned := t.returned ++ [m] } := by
  refine .cons (hrun t _ _ ht rfl fun _ hx => by cases hx) (step_put (by simp) rfl rfl (by simp)) ?_
  refine .cons (hrun t _ _ ht rfl fun _ hx => by cases hx) (step_put (by simp) rfl rfl (by simp)) ?_
  refine .cons (hrun t _ _ ht rfl fun _ hx => by cases hx) (step_put (by simp) rfl rfl (by simp)) ?_
  exact .cons (hrun t _ _ ht rfl fun _ hx => by cases hx) step_return (.nil _)

/-- a send that nobody interferes with -/
theorem path_send {ok : St P → Action P → Prop} {s : St P} {p : P} {m : Msg} (hp : s.send p = .idle)
    (hm : m.code ≠ NIL) (hf : s.buf.full = false) (hwin : s.buf.next_write_reserve < s.buf.next_read + 256)
    (hstart : ok s (.send p m)) (hrun : Lets ok s p) : Path step ok s (soloSend p m) (sent s m) := by
  have hwin' : ¬ 255 < s.buf.next_write_reserve - s.buf.next_read := by omega
  have hsend : Function.update s.send p .idle = s.send := by rw [← hp, Function.update_eq_self]
  have haccept : ok _ _ := hrun s (.recheck m s.buf.next_write_reserve s.buf.resets s.buf.next_read)
    { s.buf with next_write_reserve := s.buf.next_write_reserve + 1 } rfl (by rw [refuses, hf]; rfl) fun x hx => by
      simp only [accepts, hf, hwin', or_self, Bool.false_eq_true, if_false, Option.some.injEq] at hx
      rw [← hx, SendPc.pending]
  have h := (path_fetch hp hm hf hstart hrun).append
    (.cons haccept (step_accept hf hwin') (path_store (t := { s with ledger := _ }) hrun rfl))
  simp only [St.put, hsend] at h
  exact h

theorem exec_send {s : St P} {p : P} {m : Msg} (hp : s.send p = .idle) (hm : m.code ≠ NIL) (hf : s.buf.full = false)
    (hwin : s.buf.next_write_reserve < s.buf.next_read + 256) : exec step s (soloSend p m) = some (sent s m) :=
  (path_send hp hm hf hwin trivial (lets_always s p)).1

/-- the condition of the ring lets it run, but not between the receiver's store and its assertion -/
theorem lets_ok {s : St P} (p : P) (hrecv : s.recv ≠ .assertReserve) : Lets Ok s p := by
  intro t pc b ht hr ha
  refine ⟨fun i hi => ?_, fun m _ => ht.trans_ne hrecv, fun x hx => ?_⟩
  · rw [put_send] at hi
    cases hr.symm.trans hi
  · rw [put_send] at hx ⊢
    exact ha x hx

/-- what n sends of m leave behind -/
structure Sends (m : Msg) (n : ℕ) (s t : St P) : Prop where
  send : t.send = s.send
  recv : t.recv = s.recv
  full : t.buf.full = s.buf.full
  read : t.buf.next_read = s.buf.next_read
  reserve : t.buf.next_write_reserve = s.buf.next_write_reserve + n
  release : t.buf.next_write_release = s.buf.next_write_release + n
  notices : t.notices = s.notices + n
  returned : t.returned = s.returned ++ List.replicate n m
  delivered : t.delivered = s.delivered
  stored : ∀ j < n, t.buf.code (slot (s.buf.next_write_reserve + j)) ≠ NIL

def sends (p : P) (m : Msg) (n : ℕ) : List (Action P) := (List.replicate n (soloSend p m)).flatten

theorem exec_sends {s : St P} {p : P} {m : Msg} (hp : s.send p = .idle) (hm : m.code ≠ NIL) (hf : s.buf.full = false)
    (n : ℕ) (hn : n ≤ 256) (hwin : s.buf.next_write_reserve + n ≤ s.buf.next_read + 256) :
    ∃ t, exec step s (sends p m n) = some t ∧ Sends m n s t := by
  induction n with
  | zero => exact ⟨s, rfl, ⟨rfl, rfl, rfl, rfl, rfl, rfl, rfl, by simp, rfl, by simp⟩⟩
  | succ n ih =>
    obtain ⟨t, ht, h⟩ := ih (by omega) (by omega)
    have hstep := exec_send (s := t) (by rw [h.send]; exact hp) hm (by rw [h.full]; exact hf)
      (by rw [h.reserve, h.read]; omega)
    refine ⟨sent t m, ?_, ?_⟩
    · rw [sends, List.replicate_succ', List.flatten_append, List.flatten_singleton]
      exact exec_trans ht hstep
    · have hres : t.buf.next_write_reserve = s.buf.next_write_reserve + n := h.reserve
      refine ⟨h.send, h.recv, h.full, h.read, by simp [sent, hres]; omega, by simp [sent, h.release]; omega,
        by simp [sent, h.notices]; omega, ?_, h.delivered, fun j hj => ?_⟩
      · simp [sent, h.returned, List.replicate_succ']
      · simp only [sent, Ringbuf.setCode, Ringbuf.setPtr, hres]
        by_cases hjn : j = n
        · subst hjn
          rw [Function.update_self]
          exact hm
        · rw [Function.update_of_ne fun he => hjn (by have := slot_inj he (by omega) (by omega); omega)]
          exact h.stored j (by omega)

/-- a send that finds `next_read` 256 or more behind, up to its compare-exchange -/
theorem path_ahead {s : St P} {p : P} {m : Msg} (hp : s.send p = .idle) (hm : m.code ≠ NIL) (hf : s.buf.full = false)
    (hwin : s.buf.next_read + 256 ≤ s.buf.next_write_reserve) :
    Path step always s (.send p m :: List.replicate 4 (.run p))
      (s.put p (.cas m s.buf.next_write_reserve s.buf.resets)
        { s.buf with next_write_reserve := s.buf.next_write_reserve + 1 }) := by
  have hwin' : 255 < s.buf.next_write_reserve - s.buf.next_read := by omega
  refine (path_fetch hp hm hf trivial (lets_always s p)).append (.cons trivial ?_ (.nil _))
  exact step_ahead hf hwin'

/-- it is refused and sets `full` -/
theorem exec_refused {s : St P} {p : P} {m : Msg} (hp : s.send p = .idle) (hm : m.code ≠ NIL) (hf : s.buf.full = false)
    (hwin : s.buf.next_read + 256 ≤ s.buf.next_write_reserve) :
    exec step s (.send p m :: List.replicate 5 (.run p)) =
      some { s with buf := { s.buf with next_write_reserve := s.buf.next_write_reserve + 1, full := true } } := by
  have hsend : Function.update s.send p .idle = s.send := by rw [← hp, Function.update_eq_self]
  have h := (path_ahead hp hm hf hwin).append
    (.cons (a := .run p) trivial (step_put (by simp) rfl rfl (by simp)) (.nil _))
  rw [St.put, hsend] at h
  exact h.1

/-! ## The receiver alone -/

/-- the receiver takes one message out of the ring -/
def taken (s : St P) : St P :=
  { s with
    buf := { s.buf.setCode s.buf.next_read NIL with next_read := s.buf.next_read + 1 }
    recv := .loop (s.buf.next_read + 1)
    delivered := s.delivered ++ [⟨s.buf.code (slot s.buf.next_read), s.buf.ptr (slot s.buf.next_read)⟩] }

/-- s with the receiver at pc and the ring b -/
def St.putRecv (s : St P) (pc : RecvPc) (b : Ringbuf) : St P := { s with buf := b, recv := pc }

theorem step_recv {s : St P} {pc pc' : RecvPc} {b b' : Ringbuf} (hidle : pc ≠ .idle) (habort : pc ≠ .aborted)
    (h : recv_step pc b = (pc', b', none)) : step (s.putRecv pc b) .recv = some (s.putRecv pc' b') := by
  have hpc : (s.putRecv pc b).recv = pc := rfl
  rw [step, if_neg (hpc ▸ not_or.2 ⟨hidle, habort⟩)]
  simp only [runRecv, St.putRecv, h, Option.toList_none, List.append_nil]

/-- one message, from the loop to the loop -/
theorem path_take (ok : St P → Action P → Prop) {s : St P} (hpc : s.recv = .loop s.buf.next_read)
    (hlt : s.buf.next_read < s.buf.next_write_release) (hc : s.buf.code (slot s.buf.next_read) ≠ NIL)
    (hok : ∀ t : St P, (∀ v, t.recv ≠ .resetStore v) → ok t .recv) :
    Path step ok s (List.replicate 6 .recv) (taken s) := by
  have hself : s = s.putRecv (.loop s.buf.next_read) s.buf := by rw [St.putRecv, ← hpc]
  have h1 : recv_step (.loop s.buf.next_read) s.buf = (.loadCode s.buf.next_read, s.buf, none) := by
    rw [recv_step, if_pos hlt]
  have h2 : recv_step (.loadPtr s.buf.next_read (s.buf.code (slot s.buf.next_read))) s.buf =
      (.clear s.buf.next_read ⟨s.buf.code (slot s.buf.next_read), s.buf.ptr (slot s.buf.next_read)⟩, s.buf, none) := by
    rw [recv_step, if_neg hc]
  rw [hself]
  refine .cons (hok _ fun _ h => by cases h) (step_recv (by simp) (by simp) h1) ?_
  refine .cons (hok _ fun _ h => by cases h) (step_recv (by simp) (by simp) rfl) ?_
  refine .cons (hok _ fun _ h => by cases h) (step_recv (by simp) (by simp) h2) ?_
  refine .cons (hok _ fun _ h => by cases h) (step_recv (by simp) (by simp) rfl) ?_
  refine .cons (hok _ fun _ h => by cases h) (step_recv (by simp) (by simp) rfl) ?_
  exact .cons (hok _ fun _ h => by cases h) rfl (.nil _)

theorem exec_take {s : St P} (hpc : s.recv = .loop s.buf.next_read)
    (hlt : s.buf.next_read < s.buf.next_write_release) (hc : s.buf.code (slot s.buf.next_read) ≠ NIL) :
    exec step s (List.replicate 6 .recv) = some (taken s) :=
  (path_take always hpc hlt hc fun _ _ => trivial).1

/-- the receiver is woken and gets to its loop -/
theorem exec_wake {s : St P} (hpc : s.recv = .idle) (hn : 0 < s.notices) :
    exec step s [.wake s.notices, .recv] = some { s with recv := .loop s.buf.next_read, notices := 0 } := by
  simp [exec, step, runRecv, recv_step, hpc, hn]

/-- nothing is left to read -/
theorem exec_leave {s : St P} {i : ℕ} (hpc : s.recv = .loop i) (hle : s.buf.next_write_release ≤ i) :
    exec step s [.recv] = some { s with recv := .checkFull } := by
  have : ¬ i < s.buf.next_write_release := by omega
  simp [exec, step, runRecv, recv_step, hpc, this]

/-- one message sent, one read -/
theorem reach_one (m : Msg) (hm : m.code ≠ NIL) :
    Reach step Ok (init : St Unit) (sent init m) ∧
      Reach step Ok (init : St Unit) (taken { sent init m with recv := .loop 0, notices := 0 }) := by
  have h1 := path_send (s := (init : St Unit)) (p := ()) (m := m) rfl hm rfl (by decide) trivial
    (lets_ok () (by decide))
  have h2 : Path step Ok (sent (init : St Unit) m) [.wake 1, .recv] { sent init m with recv := .loop 0, notices := 0 } := by
    refine .cons trivial rfl (.cons (fun v hv => ?_) rfl (.nil _))
    cases hv
  have hc : (sent (init : St Unit) m).buf.code (slot 0) ≠ NIL := by
    simpa [sent, Ringbuf.setCode, Ringbuf.setPtr, init, Ringbuf.new] using hm
  have h3 := path_take Ok (s := { sent (init : St Unit) m with recv := .loop 0, notices := 0 }) rfl Nat.one_pos hc
    fun t ht v hv => absurd hv (ht v)
  have hsent := Reach.init.path h1
  exact ⟨hsent, hsent.path (h2.append h3)⟩

/-- `full` is set and not everything has been read: the assertion fails -/
theorem exec_abort {s : St P} (hpc : s.recv = .checkFull) (hf : s.buf.full = true)
    (hne : s.buf.next_read ≠ s.buf.next_write_release) :
    exec step s (List.replicate 5 .recv) = some { s with
      buf := { s.buf with next_write_reserve := s.buf.next_read, resets := s.buf.resets + 1 }, recv := .aborted } := by
  simp [exec, step, runRecv, recv_step, hpc, hf, hne, List.replicate]

/-! ## Where the ring fails -/

/-- whenever the receiver has read everything and is about to look at `full`: 256 sends and one that is refused make
the assertion fail -/
theorem exec_overrun {s : St P} {p : P} {m : Msg} (hpc : s.recv = .checkFull) (hp : s.send p = .idle)
    (hm : m.code ≠ NIL) (hf : s.buf.full = false) (hres : s.buf.next_write_reserve = s.buf.next_read) 
    (hrel : s.buf.next_write_release = s.buf.next_read) :
    ∃ as t, exec step s as = some t ∧ t.recv = .aborted ∧ t.send = s.send ∧ t.delivered = s.delivered ∧
      t.returned = s.returned ++ List.replicate 256 m := by
  obtain ⟨t, h1, ht⟩ := exec_sends hp hm hf 256 le_rfl (by omega)
  have h2 := exec_refused (s := t) (p := p) (m := m) (by rw [ht.send]; exact hp) hm (by rw [ht.full]; exact hf)
    (by rw [ht.read, ht.reserve]; omega)
  refine ⟨_, _, exec_trans h1 (exec_trans h2 (exec_abort ?_ rfl ?_)), rfl, ht.send, ht.delivered, ht.returned⟩
  · rw [← hpc]
    exact ht.recv
  · simp only [ht.read, ht.release]
    omega

/-- one message is sent and read, then the ring is overrun -/
theorem exists_aborted :
    ∃ s : St Unit, Reach step always init s ∧ s.recv = .aborted ∧ (∀ p, s.send p = .idle) ∧ s.delivered.length = 1 ∧
      s.returned.length = 257 := by
  have h1 := exec_send (s := (init : St Unit)) (p := ()) (m := ⟨20, 0⟩) rfl (by decide) rfl (by decide)
  have h2 := exec_wake (s := sent (init : St Unit) ⟨20, 0⟩) rfl (by decide)
  have h3 := exec_take (s := { sent (init : St Unit) ⟨20, 0⟩ with recv := .loop 0, notices := 0 }) rfl (by decide)
    (by decide)
  have h4 := exec_leave (s := taken { sent (init : St Unit) ⟨20, 0⟩ with recv := .loop 0, notices := 0 }) (i := 1) rfl
    le_rfl
  obtain ⟨as, t, h5, hrecv, hsend, hdel, hret⟩ := exec_overrun (p := ()) (m := ⟨20, 0⟩)
    (s := { taken { sent (init : St Unit) ⟨20, 0⟩ with recv := .loop 0, notices := 0 } with recv := .checkFull })
    rfl rfl (by decide) rfl rfl rfl
  refine ⟨t, Reach.of_exec (exec_trans h1 (exec_trans h2 (exec_trans h3 (exec_trans h4 h5)))), hrecv, fun p => ?_, ?_, ?_⟩
  · rw [hsend]
    rfl
  · rw [hdel]
    rfl
  · rw [hret, List.length_append, List.length_replicate]
    rfl

/-- **Delivery.** In every run whose steps meet the condition, only accepted messages are handed over, none twice; when
no step is left, exactly those whose send returned true; sends in flight hold different slots. -/
theorem delivery_of_ok [Fintype P] (s : St P) (h : Reach step Ok init s) : Delivery s := by
  have hi := reach_inv h
  refine ⟨hi.handed, fun hf => ?_, fun p q hpq i j => hi.apart hpq⟩
  obtain ⟨hsend, hrecv⟩ := (final_iff s).1 hf
  obtain ⟨hrecv, hnot⟩ := hrecv.resolve_right hi.readable.1
  refine hi.handed_all hsend hrecv (not_lt.1 fun hlt => ?_)
  rcases (reach_woken (h.mono fun _ _ _ => trivial)).unread hlt with ⟨p, m, hp⟩ | hn | hr
  · rw [hsend] at hp
    cases hp
  · omega
  · rw [hrecv] at hr
    simp [RecvPc.reading, RecvPc.index] at hr

/-- one message sent and read -/
theorem delivery_one :
    Delivery (taken { sent (init : St Unit) ⟨20, 7⟩ with recv := .loop 0, notices := 0 }) :=
  delivery_of_ok _ (reach_one ⟨20, 7⟩ (by decide)).2

/-- **The assertion holds and the reader finds its messages**, in every run whose steps meet the condition. -/
theorem readable_of_ok [Fintype P] (s : St P) (h : Reach step Ok init s) : Readable s := (reach_inv h).readable

/-- one message sent -/
theorem readable_one : Readable (sent (init : St Unit) ⟨20, 7⟩) :=
  readable_of_ok _ (reach_one ⟨20, 7⟩ (by decide)).1

/-- **A single sender is enough to lose messages.** The assertion fails with 256 messages whose send returned true and
that are handed to nobody. -/
theorem delivery_fails : ¬ ∀ s : St Unit, Reach step always init s → Delivery s := by
  intro h
  obtain ⟨s, hs, hrecv, hsend, hdel, hret⟩ := exists_aborted
  have := ((h s hs).complete ((final_iff s).2 ⟨hsend, Or.inr hrecv⟩)).length_eq
  omega

/-- **A single sender is enough to make the assertion fail.** -/
theorem readable_fails : ¬ ∀ s : St Unit, Reach step always init s → Readable s := by
  intro h
  obtain ⟨s, hs, hrecv, -⟩ := exists_aborted
  exact (h s hs).1 hrecv

end Shuttlesock.Ring
