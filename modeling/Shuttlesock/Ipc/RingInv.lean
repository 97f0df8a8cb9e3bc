/-
What the ring guarantees (`ipc.c`), as an invariant of all runs whose steps meet a condition.

Condition (`Ok`), on the state before the step. The ring has no way to give an index back, so
- a send that is refused after its fetch-add must not leave a hole: no accepted send has a higher index, and the
  receiver is not about to clear `full` with `next_write_reserve` already set back;
- no fetch-add falls between the receiver's store to `next_write_reserve` and the check of it;
- a send that reserved before the receiver set `next_write_reserve` back is not accepted after it;
- the receiver sets it back only when all accepted messages have been released and read.

Invariant (`Inv`): the ledger of accepted messages has every index below the read position, an index at or after it
belongs to one slot and one send, and an index without a message is pending, or the ring is full and no message is
above it.

Results:
- `run_inv`, `recv_inv`: one step of a sender, one of the receiver.
- `reach_inv`: every state reached.
-/
import Mathlib.Tactic
import Shuttlesock.Core.Procs
import Shuttlesock.Ipc.Ring

namespace Shuttlesock.Ring

open Shuttlesock.Runs Shuttlesock.Procs

variable {P : Type*}

/-! ## The condition -/

/-- no accepted send has an index above i -/
def NoneAbove (s : St P) (i : ℕ) : Prop :=
  (∀ p j m, (s.send p).held = some (j, m) → j ≤ i) ∧
    ∀ j, i < j → j < s.buf.next_read + 256 → s.buf.code (slot j) = NIL

def Ok (s : St P) : Action P → Prop
  | .run p =>
    (∀ i, refuses (s.send p) s.buf = some (i, s.buf.resets) → NoneAbove s i ∧ s.recv.late = false) ∧
    (∀ m, s.send p = .reserve m → s.recv ≠ .assertReserve) ∧
    (∀ x, accepts (s.send p) s.buf = some x → (s.send p).pending = some (x.1, s.buf.resets))
  | .recv =>
    ∀ v, s.recv = .resetStore v → s.buf.next_write_release = s.buf.next_read ∧ ∀ p, (s.send p).held = none
  | _ => True

/-! ## The invariant -/

/-- the index whose slot is still to be written -/
def SendPc.storing : SendPc → Option ℕ
  | .storePtr _ index => some index
  | .storeCode _ index => some index
  | _ => none

/-- the indices that messages have got -/
def St.keys (s : St P) : List ℕ := s.ledger.map Prod.fst

/-- what a reserved index is before the decision -/
def PendingOk (b : Ringbuf) (ledger : List (ℕ × Msg)) (m : Msg) (next e : ℕ) : Prop :=
  m.code ≠ NIL ∧ e ≤ b.resets ∧ (e = b.resets → next < b.next_write_reserve ∧ next ∉ ledger.map Prod.fst)

def SendOk (b : Ringbuf) (pos : ℕ) (ledger : List (ℕ × Msg)) : SendPc → Prop
  | .idle => True
  | .loadFull m => m.code ≠ NIL
  | .reserve m => m.code ≠ NIL
  | .loadRead m next e => PendingOk b ledger m next e
  | .recheck m next e next_read => PendingOk b ledger m next e ∧ next_read ≤ b.next_read
  | .cas m next e => PendingOk b ledger m next e
  | .storePtr m i => (i, m) ∈ ledger ∧ pos ≤ i ∧ b.code (slot i) = NIL
  | .storeCode m i => (i, m) ∈ ledger ∧ pos ≤ i ∧ b.code (slot i) = NIL ∧ b.ptr (slot i) = m.ptr
  | .release m i => (i, m) ∈ ledger
  | .notice _ => True

def RecvOk (b : Ringbuf) (ledger : List (ℕ × Msg)) : RecvPc → Prop
  | .idle => True
  | .loadNextRead => True
  | .loop i => i = b.next_read
  | .loadCode i => i = b.next_read
  | .loadPtr i code => i = b.next_read ∧ (code ≠ NIL → code = b.code (slot i))
  | .clear i m => i = b.next_read ∧ (i, m) ∈ ledger ∧ b.code (slot i) ≠ NIL
  | .bump i _ => i = b.next_read
  | .handler i _ => i = b.next_read
  | .checkFull => True
  | .resetLoad => b.full = true
  | .resetStore v => b.full = true ∧ v = b.next_read
  | .assertReserve => b.full = true ∧ b.next_write_reserve = b.next_read ∧ b.next_write_release = b.next_read
  | .assertRelease w => b.full = true ∧ w = b.next_read ∧ b.next_write_release = b.next_read
  | .clearFull => b.full = true
  | .aborted => False

variable [Fintype P]

/-- two sends of the same period between resets never have the same index -/
def PendingApart (e : ℕ) (pc pc' : SendPc) : Prop := ∀ i, pc.pending = some (i, e) → pc'.pending ≠ some (i, e)

def HeldApart (pc pc' : SendPc) : Prop := ∀ x, pc.held = some x → ∀ y, pc'.held = some y → x.1 ≠ y.1

structure Inv (s : St P) : Prop where
  nodup : s.keys.Nodup
  below : ∀ x ∈ s.ledger, x.1 < s.buf.next_write_reserve ∧ x.1 < s.buf.next_read + 256 ∧ x.2.code ≠ NIL
  /-- the messages taken out are those of the indices below the read position, in order -/
  taken : (s.delivered ++ s.recv.hand).length = s.readPos
  order : ∀ i m, (s.delivered ++ s.recv.hand)[i]? = some m → (i, m) ∈ s.ledger
  count : s.buf.next_write_release + ∑ p, (s.send p).held.toList.length = s.ledger.length
  msgs : (s.returned : Multiset Msg) + ∑ p, ((s.send p).inflight.toList : Multiset Msg) = (s.ledger.map Prod.snd : List Msg)
  senders : ∀ p, SendOk s.buf s.readPos s.ledger (s.send p)
  pendingApart : ∀ p q, p ≠ q → PendingApart s.buf.resets (s.send p) (s.send q)
  heldApart : ∀ p q, p ≠ q → HeldApart (s.send p) (s.send q)
  /-- an index without a message is pending, or the ring is full and no message is above it -/
  holes : ∀ i < s.buf.next_write_reserve, i ∉ s.keys → (∃ p, (s.send p).pending = some (i, s.buf.resets)) ∨
    (s.buf.full = true ∧ s.recv.late = false ∧ ∀ x ∈ s.ledger, x.1 < i)
  stored : ∀ x ∈ s.ledger, s.readPos ≤ x.1 → (∃ p, (s.send p).storing = some x.1) ∨
    (s.buf.code (slot x.1) = x.2.code ∧ s.buf.ptr (slot x.1) = x.2.ptr)
  free : ∀ i, s.readPos ≤ i → i < s.readPos + 256 → i ∉ s.keys → s.buf.code (slot i) = NIL
  lateHeld : s.recv.late = true → ∀ p, (s.send p).held = none
  receiver : RecvOk s.buf s.ledger s.recv

theorem init_inv : Inv (init : St P) where
  nodup := List.nodup_nil
  below := by intro x hx; cases hx
  taken := rfl
  order := by intro i m h; simp [init, RecvPc.hand] at h
  count := by simp [init, SendPc.held, Ringbuf.new]
  msgs := by simp [init, SendPc.inflight]
  senders := fun _ => trivial
  pendingApart := by intro p q _ i h; cases h
  heldApart := by intro p q _ x h; cases h
  holes := by intro i hi; cases hi
  stored := by intro x hx; cases hx
  free := fun _ _ _ _ => rfl
  lateHeld := by intro h; cases h
  receiver := trivial

/-! ## Consequences -/

omit [Fintype P] in
theorem readPos_ge (s : St P) : s.buf.next_read ≤ s.readPos ∧ s.readPos ≤ s.buf.next_read + 1 := by
  unfold St.readPos
  split
  · omega
  · omega

section Facts

variable {s : St P} (h : Inv s)

include h

/-- every index below the read position has a message -/
theorem Inv.read_mem {i : ℕ} (hi : i < s.readPos) : i ∈ s.keys := by
  rw [← h.taken] at hi
  have := h.order i _ (List.getElem?_eq_getElem hi)
  exact List.mem_map.2 ⟨_, this, rfl⟩

theorem Inv.unique {i : ℕ} {m m' : Msg} (h1 : (i, m) ∈ s.ledger) (h2 : (i, m') ∈ s.ledger) : m = m' := by
  have := List.inj_on_of_nodup_map h.nodup h1 h2 rfl
  exact (Prod.mk.inj this).2

/-- an index that a send writes to is one that has a message and is still to be read -/
theorem Inv.storing_mem {p : P} {i : ℕ} (hp : (s.send p).storing = some i) :
    (∃ m, (s.send p).held = some (i, m) ∧ (i, m) ∈ s.ledger) ∧ s.readPos ≤ i ∧ s.buf.code (slot i) = NIL := by
  have hs := h.senders p
  cases hpc : s.send p with
  | storePtr m j =>
    rw [hpc] at hp hs
    cases hp
    exact ⟨⟨m, rfl, hs.1⟩, hs.2.1, hs.2.2⟩
  | storeCode m j =>
    rw [hpc] at hp hs
    cases hp
    exact ⟨⟨m, rfl, hs.1⟩, hs.2.1, hs.2.2.1⟩
  | _ => rw [hpc] at hp; cases hp

theorem Inv.mem_bound {i : ℕ} (hi : i ∈ s.keys) : i < s.buf.next_write_reserve ∧ i < s.buf.next_read + 256 := by
  obtain ⟨x, hx, rfl⟩ := List.mem_map.1 hi
  exact ⟨(h.below x hx).1, (h.below x hx).2.1⟩

/-- indices of messages that are still to be read have different slots -/
theorem Inv.slot_ne {i j : ℕ} (hi : i ∈ s.keys) (hi' : s.readPos ≤ i) (hj : s.readPos ≤ j) (hj' : j < s.readPos + 256)
    (hne : j ≠ i) : slot j ≠ slot i := by
  intro heq
  have h1 := (h.mem_bound hi).2
  have h2 := readPos_ge s
  exact hne (slot_inj heq (by omega) (by omega))

/-- a slot that is not empty holds the message of the index at the read position -/
theorem Inv.at_readPos (hpos : s.readPos = s.buf.next_read) (hc : s.buf.code (slot s.buf.next_read) ≠ NIL) :
    (s.buf.next_read, ⟨s.buf.code (slot s.buf.next_read), s.buf.ptr (slot s.buf.next_read)⟩) ∈ s.ledger := by
  have hmem : s.buf.next_read ∈ s.keys := by
    by_contra hn
    exact hc (h.free _ hpos.le (by omega) hn)
  obtain ⟨⟨i, m⟩, hx, rfl⟩ := List.mem_map.1 hmem
  rcases h.stored _ hx hpos.le with ⟨p, hp⟩ | ⟨h1, h2⟩
  · exact absurd (h.storing_mem hp).2.2 hc
  · rw [h1, h2]
    exact hx

end Facts

theorem Inv.held_mem {s : St P} (h : Inv s) {p : P} {x : ℕ × Msg} (hp : (s.send p).held = some x) : x ∈ s.ledger := by
  have hs := h.senders p
  cases hpc : s.send p with
  | storePtr m j => rw [hpc] at hp hs; cases hp; exact hs.1
  | storeCode m j => rw [hpc] at hp hs; cases hp; exact hs.1
  | release m j => rw [hpc] at hp hs; cases hp; exact hs
  | _ => rw [hpc] at hp; cases hp

theorem Inv.late_full {s : St P} (h : Inv s) (hl : s.recv.late = true) : s.buf.full = true := by
  have hr := h.receiver
  cases hpc : s.recv with
  | assertReserve => rw [hpc] at hr; exact hr.1
  | assertRelease w => rw [hpc] at hr; exact hr.1
  | clearFull => rw [hpc] at hr; exact hr
  | _ => rw [hpc] at hl; cases hl

/-- no message lies above an index that has none, if no accepted send is seen above it -/
theorem Inv.none_above {s : St P} (h : Inv s) {i : ℕ} (hi : i ∉ s.keys) (hn : NoneAbove s i) :
    ∀ x ∈ s.ledger, x.1 < i := by
  intro x hx
  by_contra hle
  have hpos : s.readPos ≤ i := by
    by_contra hlt
    exact hi (h.read_mem (by omega))
  have hne : x.1 ≠ i := by
    rintro rfl
    exact hi (List.mem_map_of_mem hx)
  rcases h.stored x hx (by omega) with ⟨p, hp⟩ | ⟨hc, -⟩
  · obtain ⟨⟨m, hm, -⟩, -⟩ := h.storing_mem hp
    have := hn.1 p _ _ hm
    omega
  · rw [hn.2 x.1 (by omega) (h.below x hx).2.1] at hc
    exact (h.below x hx).2.2 hc.symm

/-! ## Frame rules -/

theorem SendOk.transfer {b b' : Ringbuf} {pos pos' : ℕ} {ledger ledger' : List (ℕ × Msg)} {pc : SendPc}
    (h : SendOk b pos ledger pc)
    (hpend : ∀ next e, pc.pending = some (next, e) → e ≤ b.resets →
      (e = b.resets → next < b.next_write_reserve ∧ next ∉ ledger.map Prod.fst) →
      e ≤ b'.resets ∧ (e = b'.resets → next < b'.next_write_reserve ∧ next ∉ ledger'.map Prod.fst))
    (hread : b.next_read ≤ b'.next_read) (hledger : ∀ x ∈ ledger, x ∈ ledger')
    (hst : ∀ i, pc.storing = some i → pos ≤ i → b.code (slot i) = NIL →
      pos' ≤ i ∧ b'.code (slot i) = NIL ∧ b'.ptr (slot i) = b.ptr (slot i)) : SendOk b' pos' ledger' pc := by
  cases pc with
  | idle => trivial
  | loadFull m => exact h
  | reserve m => exact h
  | loadRead m next e => exact ⟨h.1, hpend next e rfl h.2.1 h.2.2⟩
  | recheck m next e nr => exact ⟨⟨h.1.1, hpend next e rfl h.1.2.1 h.1.2.2⟩, h.2.trans hread⟩
  | cas m next e => exact ⟨h.1, hpend next e rfl h.2.1 h.2.2⟩
  | storePtr m i =>
    obtain ⟨h1, h2, -⟩ := hst i rfl h.2.1 h.2.2
    exact ⟨hledger _ h.1, h1, h2⟩
  | storeCode m i =>
    obtain ⟨h1, h2, h3⟩ := hst i rfl h.2.1 h.2.2.1
    exact ⟨hledger _ h.1, h1, h2, by rw [h3]; exact h.2.2.2⟩
  | release m i => exact hledger _ h
  | notice m => trivial

/-- what a sender can do to the ring leaves the receiver as it is -/
theorem RecvOk.transfer {b b' : Ringbuf} {ledger ledger' : List (ℕ × Msg)} {pc : RecvPc} (h : RecvOk b ledger pc)
    (hread : b'.next_read = b.next_read) (hfull : b.full = true → b'.full = true)
    (hreserve : pc = .assertReserve → b'.next_write_reserve = b.next_write_reserve)
    (hrelease : pc.late = true → b'.next_write_release = b.next_write_release)
    (hledger : ∀ x ∈ ledger, x ∈ ledger')
    (hcode : ∀ i, b.code (slot i) ≠ NIL → b'.code (slot i) = b.code (slot i)) : RecvOk b' ledger' pc := by
  cases pc with
  | idle => trivial
  | loadNextRead => trivial
  | loop i => simpa only [RecvOk, hread] using h
  | loadCode i => simpa only [RecvOk, hread] using h
  | loadPtr i code =>
    refine ⟨by rw [hread]; exact h.1, fun hne => ?_⟩
    have := h.2 hne
    rw [hcode i (by rw [← this]; exact hne)]
    exact this
  | clear i m =>
    refine ⟨by rw [hread]; exact h.1, hledger _ h.2.1, ?_⟩
    rw [hcode i h.2.2]
    exact h.2.2
  | bump i m => simpa only [RecvOk, hread] using h
  | handler i m => simpa only [RecvOk, hread] using h
  | checkFull => trivial
  | resetLoad => exact hfull h
  | resetStore v => exact ⟨hfull h.1, by rw [hread]; exact h.2⟩
  | assertReserve => exact ⟨hfull h.1, by rw [hreserve rfl, hread]; exact h.2.1, by rw [hrelease rfl, hread]; exact h.2.2⟩
  | assertRelease w => exact ⟨hfull h.1, by rw [hread]; exact h.2.1, by rw [hrelease rfl, hread]; exact h.2.2⟩
  | clearFull => exact hfull h
  | aborted => exact h

/-! ## Steps of a sender -/

variable [DecidableEq P]

omit [Fintype P] in
theorem view_update {γ : Type*} (f : SendPc → γ) {s : St P} {p : P} {pc : SendPc} (h : f pc = f (s.send p)) (q : P) :
    f (Function.update s.send p pc q) = f (s.send q) := by
  by_cases hq : q = p
  · subst hq
    rw [Function.update_self, h]
  · rw [Function.update_of_ne hq]

/-- a step that touches nothing but the sender's own position -/
theorem quiet_inv {s : St P} (h : Inv s) (p : P) (pc : SendPc) (hpend : pc.pending = (s.send p).pending)
    (hheld : pc.held = (s.send p).held) (hfl : pc.inflight = (s.send p).inflight)
    (hst : pc.storing = (s.send p).storing) (hok : SendOk s.buf s.readPos s.ledger pc) :
    Inv { s with send := Function.update s.send p pc } :=
  { h with
    count := by simpa only [view_update SendPc.held hheld] using h.count
    msgs := by simpa only [view_update SendPc.inflight hfl] using h.msgs
    senders := forall_update (Q := fun _ => SendOk s.buf s.readPos s.ledger) hok fun q _ => h.senders q
    pendingApart := by simpa only [PendingApart, view_update SendPc.pending hpend] using h.pendingApart
    heldApart := by simpa only [HeldApart, view_update SendPc.held hheld] using h.heldApart
    holes := fun i hi hk => by simpa only [view_update SendPc.pending hpend] using h.holes i hi hk
    stored := fun x hx hpos => by simpa only [view_update SendPc.storing hst] using h.stored x hx hpos
    lateHeld := by simpa only [view_update SendPc.held hheld] using h.lateHeld }

/-- `next_write_reserve++` -/
theorem reserve_inv {s : St P} (h : Inv s) {p : P} {m : Msg} (hp : s.send p = .reserve m)
    (hrecv : s.recv ≠ .assertReserve) :
    Inv { s with
      buf := { s.buf with next_write_reserve := s.buf.next_write_reserve + 1 }
      send := Function.update s.send p (.loadRead m s.buf.next_write_reserve s.buf.resets) } := by
  have hm : m.code ≠ NIL := by
    have := h.senders p
    rwa [hp] at this
  have hnew : s.buf.next_write_reserve ∉ s.keys := fun hk => by
    have := (h.mem_bound hk).1
    omega
  have hheld : (SendPc.loadRead m s.buf.next_write_reserve s.buf.resets).held = (s.send p).held := by rw [hp]; rfl
  have hfl : (SendPc.loadRead m s.buf.next_write_reserve s.buf.resets).inflight = (s.send p).inflight := by
    rw [hp]; rfl
  have hst : (SendPc.loadRead m s.buf.next_write_reserve s.buf.resets).storing = (s.send p).storing := by rw [hp]; rfl
  have hlt : ∀ q i, (s.send q).pending = some (i, s.buf.resets) → i < s.buf.next_write_reserve := by
    intro q i hq
    have hs := h.senders q
    cases hpc : s.send q with
    | loadRead m' j e => rw [hpc] at hq hs; cases hq; exact (hs.2.2 rfl).1
    | recheck m' j e nr => rw [hpc] at hq hs; cases hq; exact (hs.1.2.2 rfl).1
    | cas m' j e => rw [hpc] at hq hs; cases hq; exact (hs.2.2 rfl).1
    | _ => rw [hpc] at hq; cases hq
  refine { h with
    below := fun x hx => ⟨(h.below x hx).1.trans (Nat.lt_succ_self _), (h.below x hx).2⟩
    count := by simpa only [view_update SendPc.held hheld] using h.count
    msgs := by simpa only [view_update SendPc.inflight hfl] using h.msgs
    senders := ?_
    pendingApart := ?_
    heldApart := by simpa only [HeldApart, view_update SendPc.held hheld] using h.heldApart
    holes := ?_
    stored := fun x hx hpos => by simpa only [view_update SendPc.storing hst] using h.stored x hx hpos
    lateHeld := by simpa only [view_update SendPc.held hheld] using h.lateHeld
    receiver := h.receiver.transfer rfl id (fun he => absurd he hrecv) (fun _ => rfl) (fun _ hx => hx) fun _ _ => rfl }
  · refine forall_update (Q := fun _ => SendOk _ _ _) ⟨hm, le_rfl, fun _ => ⟨Nat.lt_succ_self _, hnew⟩⟩ fun q _ => ?_
    exact (h.senders q).transfer (fun next e _ h1 h2 => ⟨h1, fun he => ⟨(h2 he).1.trans (Nat.lt_succ_self _), (h2 he).2⟩⟩)
      le_rfl (fun _ hx => hx) fun i _ h1 h2 => ⟨h1, h2, rfl⟩
  · refine apart_update (R := PendingApart s.buf.resets) h.pendingApart (fun q _ i hi hq => ?_) fun q _ i hq hi => ?_
    · cases hi
      exact lt_irrefl _ (hlt q _ hq)
    · cases hi
      exact lt_irrefl _ (hlt q _ hq)
  · intro i hi hk
    by_cases heq : i = s.buf.next_write_reserve
    · subst heq
      exact Or.inl (exists_update_self (Q := fun pc : SendPc => pc.pending = some (_, s.buf.resets)) rfl)
    · rcases h.holes i (by simp only at hi; omega) hk with hex | hfull
      · exact Or.inl (exists_update (Q := fun pc : SendPc => pc.pending = some (i, s.buf.resets)) hex
          (by rw [hp]; intro h1; cases h1))
      · exact Or.inr hfull

/-- the send is refused after its fetch-add: `full` is set or was set before -/
theorem refuse_inv {s : St P} (h : Inv s) {p : P} {m : Msg} {i e : ℕ} (hp : (s.send p).pending = some (i, e))
    (hok : PendingOk s.buf s.ledger m i e)
    (hcond : e = s.buf.resets → NoneAbove s i ∧ s.recv.late = false) :
    Inv { s with buf := { s.buf with full := true }, send := Function.update s.send p .idle } := by
  have hnone : (s.send p).held = none ∧ (s.send p).inflight = none ∧ (s.send p).storing = none := by
    cases hpc : s.send p with
    | loadRead => exact ⟨rfl, rfl, rfl⟩
    | recheck => exact ⟨rfl, rfl, rfl⟩
    | cas => exact ⟨rfl, rfl, rfl⟩
    | _ => rw [hpc] at hp; cases hp
  have hheld : SendPc.idle.held = (s.send p).held := hnone.1.symm
  have hfl : SendPc.idle.inflight = (s.send p).inflight := hnone.2.1.symm
  have hst : SendPc.idle.storing = (s.send p).storing := hnone.2.2.symm
  refine { h with
    count := by simpa only [view_update SendPc.held hheld] using h.count
    msgs := by simpa only [view_update SendPc.inflight hfl] using h.msgs
    senders := ?_
    pendingApart := apart_update (R := PendingApart s.buf.resets) h.pendingApart
      (fun q _ i hi => by cases hi) fun q _ i _ hi => by cases hi
    heldApart := by simpa only [HeldApart, view_update SendPc.held hheld] using h.heldApart
    holes := ?_
    stored := fun x hx hpos => by simpa only [view_update SendPc.storing hst] using h.stored x hx hpos
    lateHeld := by simpa only [view_update SendPc.held hheld] using h.lateHeld
    receiver := h.receiver.transfer rfl (fun _ => rfl) (fun _ => rfl) (fun _ => rfl) (fun _ hx => hx) fun _ _ => rfl }
  · refine forall_update (Q := fun _ => SendOk _ _ _) trivial fun q _ => ?_
    exact (h.senders q).transfer (fun next e _ h1 h2 => ⟨h1, h2⟩) le_rfl (fun _ hx => hx)
      fun i _ h1 h2 => ⟨h1, h2, rfl⟩
  · intro j hj hk
    rcases h.holes j hj hk with ⟨q, hq⟩ | ⟨-, hlate, habove⟩
    · by_cases hqp : q = p
      · subst hqp
        rw [hp] at hq
        cases hq
        obtain ⟨hn, hlate⟩ := hcond rfl
        exact Or.inr ⟨rfl, hlate, h.none_above hk hn⟩
      · exact Or.inl (exists_update_of_ne (Q := fun pc : SendPc => pc.pending = some (j, s.buf.resets)) hqp hq)
    · exact Or.inr ⟨rfl, hlate, habove⟩

/-- the send passes the second look at `full` with its index in the window -/
theorem accept_inv {s : St P} (h : Inv s) {p : P} {m : Msg} {i nr : ℕ} (hp : s.send p = .recheck m i s.buf.resets nr)
    (hfull : s.buf.full = false) (hwin : i - nr ≤ 255) :
    Inv { s with send := Function.update s.send p (.storePtr m i), ledger := s.ledger ++ [(i, m)] } := by
  obtain ⟨⟨hm, -, hcur⟩, hnr⟩ : PendingOk s.buf s.ledger m i s.buf.resets ∧ nr ≤ s.buf.next_read := by
    have := h.senders p
    rwa [hp] at this
  obtain ⟨hlt, hnew⟩ := hcur rfl
  have hpos := readPos_ge s
  have hge : s.readPos ≤ i := by
    by_contra hlt'
    exact hnew (h.read_mem (by omega))
  have hlate : s.recv.late = false := by
    cases hl : s.recv.late with
    | false => rfl
    | true => rw [h.late_full hl] at hfull; cases hfull
  have hpend : ∀ q, q ≠ p → (s.send q).pending ≠ some (i, s.buf.resets) := fun q hq =>
    h.pendingApart p q (Ne.symm hq) i (by rw [hp]; rfl)
  have hkeys : (s.ledger ++ [(i, m)]).map Prod.fst = s.keys ++ [i] := by simp [St.keys]
  have hcount : ∑ q, (Function.update s.send p (.storePtr m i) q).held.toList.length + 0 =
      ∑ q, (s.send q).held.toList.length + 1 := by
    have := sum_update (fun pc : SendPc => pc.held.toList.length) s.send p (.storePtr m i)
    rwa [hp] at this
  have hmsgs : ∑ q, ((Function.update s.send p (.storePtr m i) q).inflight.toList : Multiset Msg) + 0 =
      ∑ q, ((s.send q).inflight.toList : Multiset Msg) + ([m] : List Msg) := by
    have := sum_update (fun pc : SendPc => (pc.inflight.toList : Multiset Msg)) s.send p (.storePtr m i)
    rwa [hp] at this
  refine { h with
    nodup := ?_
    below := ?_
    order := fun j x hx => List.mem_append_left _ (h.order j x hx)
    count := ?_
    msgs := ?_
    senders := ?_
    pendingApart := apart_update (R := PendingApart s.buf.resets) h.pendingApart (fun q _ j hj => by cases hj)
      fun q _ j _ hj => by cases hj
    heldApart := ?_
    holes := ?_
    stored := ?_
    free := ?_
    lateHeld := fun hl => by rw [show s.recv.late = true from hl] at hlate; cases hlate
    receiver := h.receiver.transfer rfl id (fun _ => rfl) (fun _ => rfl) (fun _ hx => List.mem_append_left _ hx)
      fun _ _ => rfl }
  · change ((s.ledger ++ [(i, m)]).map Prod.fst).Nodup
    rw [hkeys, List.nodup_append]
    refine ⟨h.nodup, by simp, fun j hj k hk he => ?_⟩
    obtain rfl := List.mem_singleton.1 hk
    exact hnew (he ▸ hj)
  · intro x hx
    rcases List.mem_append.1 hx with hx | hx
    · exact h.below x hx
    · obtain rfl := List.mem_singleton.1 hx
      exact ⟨hlt, by simp only; omega, hm⟩
  · have := h.count
    simp only [List.length_append, List.length_singleton]
    omega
  · simp only [List.map_append, List.map_cons, List.map_nil, ← Multiset.coe_add]
    rw [← h.msgs, add_assoc, ← hmsgs, add_zero]
  · refine forall_update (Q := fun _ => SendOk _ _ _)
      ⟨by simp, hge, h.free i hge (by omega) hnew⟩ fun q hq => ?_
    refine (h.senders q).transfer (fun next e he h1 h2 => ⟨h1, fun hres => ⟨(h2 hres).1, ?_⟩⟩) le_rfl
      (fun _ hx => List.mem_append_left _ hx) fun j _ h1 h2 => ⟨h1, h2, rfl⟩
    rw [hkeys]
    intro hk
    rcases List.mem_append.1 hk with hk | hk
    · exact (h2 hres).2 hk
    · obtain rfl := List.mem_singleton.1 hk
      rw [hres] at he
      exact hpend q hq he
  · refine apart_update (R := HeldApart) h.heldApart (fun q _ x hx y hy => ?_) fun q _ x hx y hy => ?_
    · cases hx
      rintro rfl
      exact hnew (List.mem_map_of_mem (h.held_mem hy))
    · cases hy
      intro he
      have := List.mem_map_of_mem (f := Prod.fst) (h.held_mem hx)
      rw [he] at this
      exact hnew this
  · intro j hj hk
    have hk' : j ∉ s.keys ∧ j ≠ i := by
      change j ∉ (s.ledger ++ [(i, m)]).map Prod.fst at hk
      rw [hkeys] at hk
      simpa using hk
    rcases h.holes j hj hk'.1 with ⟨q, hq⟩ | ⟨hf, -⟩
    · refine Or.inl (exists_update_of_ne (Q := fun pc : SendPc => pc.pending = some (j, s.buf.resets)) (q := q) ?_ hq)
      rintro rfl
      rw [hp] at hq
      cases hq
      exact hk'.2 rfl
    · rw [hfull] at hf
      cases hf
  · intro x hx hpos'
    rcases List.mem_append.1 hx with hx | hx
    · rcases h.stored x hx hpos' with hq | hst
      · exact Or.inl (exists_update (Q := fun pc : SendPc => pc.storing = some x.1) hq (by rw [hp]; intro h1; cases h1))
      · exact Or.inr hst
    · obtain rfl := List.mem_singleton.1 hx
      exact Or.inl (exists_update_self (Q := fun pc : SendPc => pc.storing = some i) rfl)
  · intro j h1 h2 hk
    refine h.free j h1 h2 fun hk' => hk ?_
    change j ∈ (s.ledger ++ [(i, m)]).map Prod.fst
    rw [hkeys]
    exact List.mem_append_left _ hk'

/-- `buf->ptr[next] = ptr` -/
theorem storePtr_inv {s : St P} (h : Inv s) {p : P} {m : Msg} {i : ℕ} (hp : s.send p = .storePtr m i) :
    Inv { s with buf := s.buf.setPtr i m.ptr, send := Function.update s.send p (.storeCode m i) } := by
  obtain ⟨hmem, hge, hnil⟩ : (i, m) ∈ s.ledger ∧ s.readPos ≤ i ∧ s.buf.code (slot i) = NIL := by
    have := h.senders p
    rwa [hp] at this
  have hkey : i ∈ s.keys := List.mem_map_of_mem hmem
  have hptr : ∀ j ∈ s.keys, s.readPos ≤ j → j ≠ i → (s.buf.setPtr i m.ptr).ptr (slot j) = s.buf.ptr (slot j) := by
    intro j hj hj' hne
    have := (h.mem_bound hj).2
    have := readPos_ge s
    exact Function.update_of_ne (h.slot_ne hkey hge hj' (by omega) hne) _ _
  -- first the store, then the move of the sender
  have hstore : Inv { s with buf := s.buf.setPtr i m.ptr } := by
    refine { h with
      senders := fun q => ?_
      stored := fun x hx hpos => ?_
      receiver := h.receiver.transfer rfl id (fun _ => rfl) (fun _ => rfl) (fun _ hx => hx) fun _ _ => rfl }
    · by_cases hq : q = p
      · subst hq
        rw [hp]
        exact ⟨hmem, hge, hnil⟩
      · refine (h.senders q).transfer (fun next e _ h1 h2 => ⟨h1, h2⟩) le_rfl (fun _ hx => hx)
          fun j hj h1 h2 => ⟨h1, h2, ?_⟩
        obtain ⟨⟨m', hq', hm'⟩, -⟩ := h.storing_mem hj
        exact hptr j (List.mem_map_of_mem hm') h1 (h.heldApart q p hq _ hq' (i, m) (by rw [hp]; rfl))
    · by_cases hxi : x.1 = i
      · exact Or.inl ⟨p, by rw [hp, hxi]; rfl⟩
      · rcases h.stored x hx hpos with hq | ⟨h1, h2⟩
        · exact Or.inl hq
        · exact Or.inr ⟨h1, by rw [hptr x.1 (List.mem_map_of_mem hx) hpos hxi]; exact h2⟩
  exact quiet_inv hstore p (.storeCode m i) (by rw [hp]; rfl) (by rw [hp]; rfl) (by rw [hp]; rfl) (by rw [hp]; rfl)
    ⟨hmem, hge, hnil, Function.update_self _ _ _⟩

/-- `buf->code[next] = code` -/
theorem storeCode_inv {s : St P} (h : Inv s) {p : P} {m : Msg} {i : ℕ} (hp : s.send p = .storeCode m i) :
    Inv { s with buf := s.buf.setCode i m.code, send := Function.update s.send p (.release m i) } := by
  have hpend : (SendPc.release m i).pending = (s.send p).pending := by rw [hp]; rfl
  have hheld : (SendPc.release m i).held = (s.send p).held := by rw [hp]; rfl
  have hfl : (SendPc.release m i).inflight = (s.send p).inflight := by rw [hp]; rfl
  obtain ⟨hmem, hge, hnil, hptr⟩ :
      (i, m) ∈ s.ledger ∧ s.readPos ≤ i ∧ s.buf.code (slot i) = NIL ∧ s.buf.ptr (slot i) = m.ptr := by
    have := h.senders p
    rwa [hp] at this
  have hkey : i ∈ s.keys := List.mem_map_of_mem hmem
  have hcode : ∀ j, s.readPos ≤ j → j < s.readPos + 256 → j ≠ i →
      (s.buf.setCode i m.code).code (slot j) = s.buf.code (slot j) :=
    fun j hj hj' hne => Function.update_of_ne (h.slot_ne hkey hge hj hj' hne) _ _
  have hbound : ∀ j ∈ s.keys, j < s.readPos + 256 := fun j hj => by
    have := (h.mem_bound hj).2
    have := readPos_ge s
    omega
  refine { h with
    count := by simpa only [Ringbuf.setCode, view_update SendPc.held hheld] using h.count
    msgs := by simpa only [Ringbuf.setCode, view_update SendPc.inflight hfl] using h.msgs
    senders := ?_
    pendingApart := by simpa only [Ringbuf.setCode, PendingApart, view_update SendPc.pending hpend] using h.pendingApart
    heldApart := by simpa only [Ringbuf.setCode, HeldApart, view_update SendPc.held hheld] using h.heldApart
    holes := fun j hj hk => by simpa only [Ringbuf.setCode, view_update SendPc.pending hpend] using h.holes j hj hk
    stored := ?_
    free := fun j h1 h2 hk => by
      rw [hcode j h1 h2 (by rintro rfl; exact hk hkey)]
      exact h.free j h1 h2 hk
    lateHeld := by simpa only [Ringbuf.setCode, view_update SendPc.held hheld] using h.lateHeld
    receiver := h.receiver.transfer rfl id (fun _ => rfl) (fun _ => rfl) (fun _ hx => hx) fun j hj => ?_ }
  · refine forall_update (Q := fun _ => SendOk _ _ _) hmem fun q hq => ?_
    refine (h.senders q).transfer (fun next e _ h1 h2 => ⟨h1, h2⟩) le_rfl (fun _ hx => hx) fun j hj h1 h2 => ⟨h1, ?_, rfl⟩
    obtain ⟨⟨m', hq', hm'⟩, -⟩ := h.storing_mem hj
    rw [hcode j h1 (hbound j (List.mem_map_of_mem hm')) (h.heldApart q p hq _ hq' (i, m) (by rw [hp]; rfl))]
    exact h2
  · intro x hx hpos
    by_cases hxi : x.1 = i
    · obtain ⟨j, m'⟩ := x
      obtain rfl : j = i := hxi
      obtain rfl := h.unique hx hmem
      exact Or.inr ⟨Function.update_self _ _ _, hptr⟩
    · rcases h.stored x hx hpos with hq | ⟨h1, h2⟩
      · refine Or.inl (exists_update (Q := fun pc : SendPc => pc.storing = some x.1) hq fun h1 => ?_)
        rw [hp] at h1
        exact absurd (Option.some.inj h1).symm hxi
      · exact Or.inr ⟨by rw [hcode x.1 hpos (hbound _ (List.mem_map_of_mem hx)) hxi]; exact h1, h2⟩
  · refine Function.update_of_ne (fun he => hj ?_) _ _
    rw [he]
    exact hnil

/-- `ipc_release_write_index` -/
theorem release_inv {s : St P} (h : Inv s) {p : P} {m : Msg} {i : ℕ} (hp : s.send p = .release m i) :
    Inv { s with
      buf := { s.buf with next_write_release := s.buf.next_write_release + 1 }
      send := Function.update s.send p (.notice m) } := by
  have hpend : (SendPc.notice m).pending = (s.send p).pending := by rw [hp]; rfl
  have hfl : (SendPc.notice m).inflight = (s.send p).inflight := by rw [hp]; rfl
  have hst : (SendPc.notice m).storing = (s.send p).storing := by rw [hp]; rfl
  have hlate : s.recv.late = true → False := fun hl => by
    have := h.lateHeld hl p
    rw [hp] at this
    cases this
  have hcount : ∑ q, (Function.update s.send p (.notice m) q).held.toList.length + 1 =
      ∑ q, (s.send q).held.toList.length + 0 := by
    have := sum_update (fun pc : SendPc => pc.held.toList.length) s.send p (.notice m)
    rwa [hp] at this
  refine { h with
    count := ?_
    msgs := by simpa only [view_update SendPc.inflight hfl] using h.msgs
    senders := ?_
    pendingApart := by simpa only [PendingApart, view_update SendPc.pending hpend] using h.pendingApart
    heldApart := apart_update (R := HeldApart) h.heldApart (fun q _ x hx => by cases hx) fun q _ x _ y hy => by cases hy
    holes := fun j hj hk => by simpa only [view_update SendPc.pending hpend] using h.holes j hj hk
    stored := fun x hx hpos => by simpa only [view_update SendPc.storing hst] using h.stored x hx hpos
    lateHeld := fun hl => (hlate hl).elim
    receiver := h.receiver.transfer rfl id (fun _ => rfl) (fun hl => (hlate hl).elim) (fun _ hx => hx) fun _ _ => rfl }
  · have := h.count
    simp only
    omega
  · exact forall_update (Q := fun _ => SendOk _ _ _) trivial fun q _ => (h.senders q).transfer
      (fun next e _ h1 h2 => ⟨h1, h2⟩) le_rfl (fun _ hx => hx) fun j _ h1 h2 => ⟨h1, h2, rfl⟩

/-- the notice is written and the send returns true -/
theorem return_inv {s : St P} (h : Inv s) {p : P} {m : Msg} (hp : s.send p = .notice m) (n : ℕ) :
    Inv { s with send := Function.update s.send p .idle, notices := n, returned := s.returned ++ [m] } := by
  have hpend : SendPc.idle.pending = (s.send p).pending := by rw [hp]; rfl
  have hheld : SendPc.idle.held = (s.send p).held := by rw [hp]; rfl
  have hst : SendPc.idle.storing = (s.send p).storing := by rw [hp]; rfl
  have hmsgs : ∑ q, ((Function.update s.send p .idle q).inflight.toList : Multiset Msg) + ([m] : List Msg) =
      ∑ q, ((s.send q).inflight.toList : Multiset Msg) + 0 := by
    have := sum_update (fun pc : SendPc => (pc.inflight.toList : Multiset Msg)) s.send p .idle
    rwa [hp] at this
  refine { h with
    count := by simpa only [view_update SendPc.held hheld] using h.count
    msgs := ?_
    senders := forall_update (Q := fun _ => SendOk _ _ _) trivial fun q _ => h.senders q
    pendingApart := by simpa only [PendingApart, view_update SendPc.pending hpend] using h.pendingApart
    heldApart := by simpa only [HeldApart, view_update SendPc.held hheld] using h.heldApart
    holes := fun j hj hk => by simpa only [view_update SendPc.pending hpend] using h.holes j hj hk
    stored := fun x hx hpos => by simpa only [view_update SendPc.storing hst] using h.stored x hx hpos
    lateHeld := by simpa only [view_update SendPc.held hheld] using h.lateHeld }
  rw [add_zero] at hmsgs
  rw [← h.msgs, ← hmsgs, ← Multiset.coe_add, add_assoc, add_comm (([m] : List Msg) : Multiset Msg)]

/-- **One step of a sender keeps the invariant.** -/
theorem run_inv {s : St P} (h : Inv s) {p : P} (hok : Ok s (.run p)) : Inv (runSend s p) := by
  obtain ⟨hrefuse, hreserve, haccept⟩ := hok
  have hs := h.senders p
  cases hp : s.send p with
  | idle =>
    have := quiet_inv h p .idle (by rw [hp]) (by rw [hp]) (by rw [hp]) (by rw [hp]) trivial
    simpa [runSend, hp, send_step, accepts] using this
  | loadFull m =>
    rw [hp] at hs
    cases hf : s.buf.full with
    | true =>
      have := quiet_inv h p .idle (by rw [hp]; rfl) (by rw [hp]; rfl) (by rw [hp]; rfl) (by rw [hp]; rfl)
        trivial
      simpa [runSend, hp, send_step, accepts, hf] using this
    | false =>
      have := quiet_inv h p (.reserve m) (by rw [hp]; rfl) (by rw [hp]; rfl) (by rw [hp]; rfl)
        (by rw [hp]; rfl) hs
      simpa [runSend, hp, send_step, accepts, hf] using this
  | reserve m =>
    have := reserve_inv h hp (hreserve m hp)
    simpa [runSend, hp, send_step, accepts] using this
  | loadRead m i e =>
    rw [hp] at hs
    have := quiet_inv h p (.recheck m i e s.buf.next_read) (by rw [hp]; rfl) (by rw [hp]; rfl)
      (by rw [hp]; rfl) (by rw [hp]; rfl) ⟨hs, le_rfl⟩
    simpa [runSend, hp, send_step, accepts] using this
  | recheck m i e nr =>
    rw [hp] at hs hrefuse haccept
    cases hf : s.buf.full with
    | true =>
      have hset : ({ s.buf with full := true } : Ringbuf) = s.buf := by rw [← hf]
      have := refuse_inv h (p := p) (i := i) (e := e) (by rw [hp]; rfl) hs.1
        (by rintro rfl; exact hrefuse i (by simp [refuses, hf]))
      rw [hset] at this
      simpa [runSend, hp, send_step, accepts, hf] using this
    | false =>
      by_cases hwin : 255 < i - nr
      · have := quiet_inv h p (.cas m i e) (by rw [hp]; rfl) (by rw [hp]; rfl) (by rw [hp]; rfl)
          (by rw [hp]; rfl) hs.1
        simpa [runSend, hp, send_step, accepts, hf, hwin] using this
      · have he := haccept (i, m) (by simp [accepts, hf, hwin])
        cases he
        have := accept_inv h hp hf (by omega)
        simpa [runSend, hp, send_step, accepts, hf, hwin] using this
  | cas m i e =>
    rw [hp] at hs hrefuse
    have := refuse_inv h (p := p) (i := i) (e := e) (by rw [hp]; rfl) hs (by rintro rfl; exact hrefuse i rfl)
    simpa [runSend, hp, send_step, accepts] using this
  | storePtr m i =>
    have := storePtr_inv h hp
    simpa [runSend, hp, send_step, accepts] using this
  | storeCode m i =>
    have := storeCode_inv h hp
    simpa [runSend, hp, send_step, accepts] using this
  | release m i =>
    have := release_inv h hp
    simpa [runSend, hp, send_step, accepts] using this
  | notice m =>
    have := return_inv h hp (s.notices + 1)
    simpa [runSend, hp, send_step, accepts, SendPc.inflight] using this

/-! ## Steps of the receiver -/

omit [DecidableEq P] in
/-- a step that touches nothing but the receiver's own position -/
theorem recv_quiet {s : St P} (h : Inv s) (pc : RecvPc) (n : ℕ) (hhand : pc.hand = s.recv.hand)
    (hpos : St.readPos { s with recv := pc, notices := n } = s.readPos) (hlate : pc.late = true → s.recv.late = true)
    (hok : RecvOk s.buf s.ledger pc) : Inv { s with recv := pc, notices := n } :=
  { h with
    taken := by rw [hpos, hhand]; exact h.taken
    order := by rw [hhand]; exact h.order
    senders := by rw [hpos]; exact h.senders
    holes := fun i hi hk => (h.holes i hi hk).imp_right fun ⟨h1, h2, h3⟩ =>
      ⟨h1, Bool.eq_false_iff.2 fun hl => Bool.eq_false_iff.1 h2 (hlate hl), h3⟩
    stored := by rw [hpos]; exact h.stored
    free := by rw [hpos]; exact h.free
    lateHeld := fun hl => h.lateHeld (hlate hl)
    receiver := hok }

omit [DecidableEq P] in
/-- `in->code[i] = SHUTTLESOCK_IPC_CMD_NIL` -/
theorem clear_inv {s : St P} (h : Inv s) {i : ℕ} {m : Msg} (hpc : s.recv = .clear i m) :
    Inv { s with buf := s.buf.setCode i NIL, recv := .bump i m } := by
  obtain ⟨rfl, hmem, hne⟩ : i = s.buf.next_read ∧ (i, m) ∈ s.ledger ∧ s.buf.code (slot i) ≠ NIL := by
    have := h.receiver
    rwa [hpc] at this
  have hpos : s.readPos = s.buf.next_read := by rw [St.readPos, hpc]
  have hhand : s.recv.hand = [] := by rw [hpc]; rfl
  have htaken : s.delivered.length = s.buf.next_read := by
    have := h.taken
    rwa [hhand, List.append_nil, hpos] at this
  have hkey : s.buf.next_read ∈ s.keys := List.mem_map_of_mem hmem
  have hnil : ∀ j, s.buf.code (slot j) = NIL → (s.buf.setCode s.buf.next_read NIL).code (slot j) = NIL := by
    intro j hj
    by_cases heq : slot j = slot s.buf.next_read
    · rw [heq]
      exact Function.update_self _ _ _
    · exact (Function.update_of_ne heq _ _).trans hj
  refine { h with
    taken := by simp [RecvPc.hand, St.readPos, htaken, Ringbuf.setCode]
    order := fun j x hx => ?_
    senders := fun q => ?_
    holes := fun j hj hk => (h.holes j hj hk).imp_right fun ⟨h1, _, h3⟩ => ⟨h1, rfl, h3⟩
    stored := fun x hx hx' => ?_
    free := fun j h1 h2 hk => ?_
    lateHeld := by intro hl; cases hl
    receiver := rfl }
  · simp only [RecvPc.hand] at hx
    rw [List.getElem?_append] at hx
    split_ifs at hx with hlt
    · exact h.order j x (by rw [hhand, List.append_nil]; exact hx)
    · obtain ⟨hlen, hx⟩ := List.getElem?_eq_some_iff.1 hx
      simp only [List.length_singleton] at hlen
      obtain rfl : j = s.buf.next_read := by omega
      simp only [List.getElem_singleton] at hx
      rw [← hx]
      exact hmem
  · refine (h.senders q).transfer (fun next e _ h1 h2 => ⟨h1, h2⟩) le_rfl (fun _ hx => hx)
      fun j hj h1 h2 => ⟨?_, hnil j h2, rfl⟩
    have hj' : j ≠ s.buf.next_read := by
      rintro rfl
      exact hne h2
    simp only [St.readPos, Ringbuf.setCode]
    omega
  · simp only [St.readPos, Ringbuf.setCode] at hx'
    have hb := (h.below x hx).2.1
    rcases h.stored x hx (by omega) with hq | ⟨h1, h2⟩
    · exact Or.inl hq
    · refine Or.inr ⟨?_, h2⟩
      rw [← h1]
      exact Function.update_of_ne (h.slot_ne hkey hpos.le (by omega) (by omega) (by omega)) _ _
  · simp only [St.readPos, Ringbuf.setCode] at h1 h2
    by_cases hj : j = s.buf.next_read + 256
    · have heq : slot j = slot s.buf.next_read := Fin.ext (by simp [slot, hj])
      rw [heq]
      exact Function.update_self _ _ _
    · exact hnil j (h.free j (by omega) (by omega) hk)

omit [DecidableEq P] in
/-- `atomic_fetch_add(&in->index.next_read, 1)` -/
theorem bump_inv {s : St P} (h : Inv s) {i : ℕ} {m : Msg} (hpc : s.recv = .bump i m) :
    Inv { s with buf := { s.buf with next_read := s.buf.next_read + 1 }, recv := .handler (i + 1) m } := by
  obtain rfl : i = s.buf.next_read := by
    have := h.receiver
    rwa [hpc] at this
  have hpos : s.readPos = s.buf.next_read + 1 := by rw [St.readPos, hpc]
  have hhand : s.recv.hand = [m] := by rw [hpc]; rfl
  exact { h with
    below := fun x hx => ⟨(h.below x hx).1, by have := (h.below x hx).2.1; simp only; omega, (h.below x hx).2.2⟩
    taken := by
      have := h.taken
      rwa [hhand, hpos] at this
    order := fun j x hx => h.order j x (by rw [hhand]; exact hx)
    senders := fun q => by
      refine (h.senders q).transfer (fun next e _ h1 h2 => ⟨h1, h2⟩) (Nat.le_succ _) (fun _ hx => hx)
        fun j _ h1 h2 => ⟨?_, h2, rfl⟩
      rwa [hpos] at h1
    holes := fun j hj hk => (h.holes j hj hk).imp_right fun ⟨h1, _, h3⟩ => ⟨h1, rfl, h3⟩
    stored := fun x hx hx' => h.stored x hx (by rw [hpos]; exact hx')
    free := fun j h1 h2 => h.free j (by rw [hpos]; exact h1) (by rw [hpos]; exact h2)
    lateHeld := by intro hl; cases hl
    receiver := rfl }

omit [DecidableEq P] in
/-- `ipc_handlers[code].receive(S, code, ptr)` -/
theorem handler_inv {s : St P} (h : Inv s) {i : ℕ} {m : Msg} (hpc : s.recv = .handler i m) :
    Inv { s with recv := .loop i, delivered := s.delivered ++ [m] } := by
  have hi : i = s.buf.next_read := by
    have := h.receiver
    rwa [hpc] at this
  have hpos : s.readPos = s.buf.next_read := by rw [St.readPos, hpc]
  have hhand : s.recv.hand = [m] := by rw [hpc]; rfl
  exact { h with
    taken := by
      have := h.taken
      rw [hhand, hpos] at this
      simpa [RecvPc.hand, St.readPos] using this
    order := fun j x hx => h.order j x (by rw [hhand]; simpa [RecvPc.hand] using hx)
    senders := fun q => by
      have := h.senders q
      rwa [hpos] at this
    holes := fun j hj hk => (h.holes j hj hk).imp_right fun ⟨h1, _, h3⟩ => ⟨h1, rfl, h3⟩
    stored := fun x hx hx' => h.stored x hx (by rw [hpos]; exact hx')
    free := fun j h1 h2 => h.free j (by rw [hpos]; exact h1) (by rw [hpos]; exact h2)
    lateHeld := by intro hl; cases hl
    receiver := hi }

omit [DecidableEq P] in
/-- when everything accepted is released and read, the messages have exactly the indices below `next_read` -/
theorem Inv.all_read {s : St P} (h : Inv s) (hpos : s.readPos = s.buf.next_read)
    (hrel : s.buf.next_write_release = s.buf.next_read) (hheld : ∀ p, (s.send p).held = none) :
    ∀ x ∈ s.ledger, x.1 < s.buf.next_read := by
  have hlen : s.keys.length = s.buf.next_read := by
    have := h.count
    simp only [hheld, Option.toList_none, List.length_nil, Finset.sum_const_zero, Nat.add_zero] at this
    rw [St.keys, List.length_map, ← this, hrel]
  have hsub : Finset.range s.buf.next_read ⊆ s.keys.toFinset := fun i hi => by
    rw [List.mem_toFinset]
    exact h.read_mem (by rw [hpos]; exact Finset.mem_range.1 hi)
  have heq := Finset.eq_of_subset_of_card_le hsub (by rw [List.toFinset_card_of_nodup h.nodup, hlen, Finset.card_range])
  intro x hx
  rw [← Finset.mem_range, heq, List.mem_toFinset]
  exact List.mem_map_of_mem hx

omit [Fintype P] [DecidableEq P] in
theorem SendOk.pending_le {b : Ringbuf} {pos : ℕ} {ledger : List (ℕ × Msg)} {pc : SendPc} (h : SendOk b pos ledger pc)
    {i e : ℕ} (hp : pc.pending = some (i, e)) : e ≤ b.resets := by
  cases pc with
  | loadRead m j e' => cases hp; exact h.2.1
  | recheck m j e' nr => cases hp; exact h.1.2.1
  | cas m j e' => cases hp; exact h.2.1
  | _ => cases hp

omit [DecidableEq P] in
/-- `in->index.next_write_reserve = in->index.next_read` -/
theorem resetStore_inv {s : St P} (h : Inv s) {v : ℕ} (hpc : s.recv = .resetStore v)
    (hrel : s.buf.next_write_release = s.buf.next_read) (hheld : ∀ p, (s.send p).held = none) :
    Inv { s with
      buf := { s.buf with next_write_reserve := v, resets := s.buf.resets + 1 }, recv := .assertReserve } := by
  obtain ⟨hfull, rfl⟩ : s.buf.full = true ∧ v = s.buf.next_read := by
    have := h.receiver
    rwa [hpc] at this
  have hpos : s.readPos = s.buf.next_read := by rw [St.readPos, hpc]
  have hhand : s.recv.hand = [] := by rw [hpc]; rfl
  have hread := h.all_read hpos hrel hheld
  have hold : ∀ q i, (s.send q).pending ≠ some (i, s.buf.resets + 1) := fun q i hq => by
    have := (h.senders q).pending_le hq
    omega
  exact { h with
    below := fun x hx => ⟨hread x hx, (h.below x hx).2⟩
    taken := by
      have := h.taken
      rwa [hhand, hpos] at this
    order := fun j x hx => h.order j x (by rw [hhand]; exact hx)
    senders := fun q => by
      refine (h.senders q).transfer (fun next e he h1 _ => ⟨by simp only; omega, ?_⟩) le_rfl (fun _ hx => hx)
        fun j _ h1 h2 => ⟨by rw [hpos] at h1; exact h1, h2, rfl⟩
      rintro rfl
      exact absurd he (hold q next)
    pendingApart := fun p q _ i hp => absurd hp (hold p i)
    holes := fun j hj hk => absurd (h.read_mem (by rw [hpos]; exact hj)) hk
    stored := fun x hx hx' => h.stored x hx (by rw [hpos]; exact hx')
    free := fun j h1 h2 => h.free j (by rw [hpos]; exact h1) (by rw [hpos]; exact h2)
    lateHeld := fun _ => hheld
    receiver := ⟨hfull, rfl, hrel⟩ }

omit [DecidableEq P] in
/-- `in->full = false` -/
theorem clearFull_inv {s : St P} (h : Inv s) (hpc : s.recv = .clearFull) :
    Inv { s with buf := { s.buf with full := false }, recv := .idle } := by
  have hpos : s.readPos = s.buf.next_read := by rw [St.readPos, hpc]
  have hhand : s.recv.hand = [] := by rw [hpc]; rfl
  have hlate : s.recv.late = true := by rw [hpc]; rfl
  exact { h with
    taken := by
      have := h.taken
      rwa [hhand, hpos] at this
    order := fun j x hx => h.order j x (by rw [hhand]; exact hx)
    senders := fun q => (h.senders q).transfer (fun next e _ h1 h2 => ⟨h1, h2⟩) le_rfl (fun _ hx => hx)
        fun j _ h1 h2 => ⟨by rw [hpos] at h1; exact h1, h2, rfl⟩
    holes := fun j hj hk => (h.holes j hj hk).imp_right fun ⟨_, h2, _⟩ => by rw [hlate] at h2; cases h2
    stored := fun x hx hx' => h.stored x hx (by rw [hpos]; exact hx')
    free := fun j h1 h2 => h.free j (by rw [hpos]; exact h1) (by rw [hpos]; exact h2)
    lateHeld := by intro hl; cases hl
    receiver := trivial }

omit [DecidableEq P] in
/-- **One step of the receiver keeps the invariant.** -/
theorem recv_inv {s : St P} (h : Inv s)
    (hok : ∀ v, s.recv = .resetStore v → s.buf.next_write_release = s.buf.next_read ∧ ∀ p, (s.send p).held = none) :
    Inv (runRecv s) := by
  have hr := h.receiver
  cases hpc : s.recv with
  | idle =>
    have := recv_quiet h .idle s.notices (by rw [hpc]) (by rw [St.readPos, St.readPos, hpc]) (by rw [hpc]; exact id)
      trivial
    simpa [runRecv, hpc, recv_step] using this
  | loadNextRead =>
    have := recv_quiet h (.loop s.buf.next_read) s.notices (by rw [hpc]; rfl) (by rw [St.readPos, St.readPos, hpc])
      (by rw [hpc]; exact id) rfl
    simpa [runRecv, hpc, recv_step] using this
  | loop i =>
    rw [hpc] at hr
    by_cases hlt : i < s.buf.next_write_release
    · have := recv_quiet h (.loadCode i) s.notices (by rw [hpc]; rfl) (by rw [St.readPos, St.readPos, hpc])
        (by rw [hpc]; exact id) hr
      simpa [runRecv, hpc, recv_step, hlt] using this
    · have := recv_quiet h .checkFull s.notices (by rw [hpc]; rfl) (by rw [St.readPos, St.readPos, hpc])
        (by rw [hpc]; exact id) trivial
      simpa [runRecv, hpc, recv_step, hlt] using this
  | loadCode i =>
    rw [hpc] at hr
    have := recv_quiet h (.loadPtr i (s.buf.code (slot i))) s.notices (by rw [hpc]; rfl)
      (by rw [St.readPos, St.readPos, hpc]) (by rw [hpc]; exact id) ⟨hr, fun _ => rfl⟩
    simpa [runRecv, hpc, recv_step] using this
  | loadPtr i code =>
    rw [hpc] at hr
    obtain ⟨rfl, hcode⟩ := hr
    by_cases hnil : code = NIL
    · have := recv_quiet h (.loop s.buf.next_read) s.notices (by rw [hpc]; rfl)
        (by rw [St.readPos, St.readPos, hpc]) (by rw [hpc]; exact id) rfl
      simpa [runRecv, hpc, recv_step, hnil] using this
    · have hc := hcode hnil
      rw [hc] at hnil
      have hmem := h.at_readPos (by rw [St.readPos, hpc]) hnil
      have := recv_quiet h (.clear s.buf.next_read ⟨code, s.buf.ptr (slot s.buf.next_read)⟩) s.notices
        (by rw [hpc]; rfl) (by rw [St.readPos, St.readPos, hpc]) (by rw [hpc]; exact id) ⟨rfl, by rw [hc]; exact hmem, hnil⟩
      simpa [runRecv, hpc, recv_step, hc, hnil] using this
  | clear i m =>
    have := clear_inv h hpc
    simpa [runRecv, hpc, recv_step] using this
  | bump i m =>
    have := bump_inv h hpc
    simpa [runRecv, hpc, recv_step] using this
  | handler i m =>
    have := handler_inv h hpc
    simpa [runRecv, hpc, recv_step] using this
  | checkFull =>
    cases hf : s.buf.full with
    | true =>
      have := recv_quiet h .resetLoad s.notices (by rw [hpc]; rfl) (by rw [St.readPos, St.readPos, hpc])
        (by rw [hpc]; exact id) hf
      simpa [runRecv, hpc, recv_step, hf] using this
    | false =>
      have := recv_quiet h .idle s.notices (by rw [hpc]; rfl) (by rw [St.readPos, St.readPos, hpc])
        (by rw [hpc]; exact id) trivial
      simpa [runRecv, hpc, recv_step, hf] using this
  | resetLoad =>
    rw [hpc] at hr
    have := recv_quiet h (.resetStore s.buf.next_read) s.notices (by rw [hpc]; rfl)
      (by rw [St.readPos, St.readPos, hpc]) (by rw [hpc]; exact id) ⟨hr, rfl⟩
    simpa [runRecv, hpc, recv_step] using this
  | resetStore v =>
    obtain ⟨h1, h2⟩ := hok v hpc
    have := resetStore_inv h hpc h1 h2
    simpa [runRecv, hpc, recv_step] using this
  | assertReserve =>
    rw [hpc] at hr
    have := recv_quiet h (.assertRelease s.buf.next_write_reserve) s.notices (by rw [hpc]; rfl)
      (by rw [St.readPos, St.readPos, hpc]) (by rw [hpc]; exact id) hr
    simpa [runRecv, hpc, recv_step] using this
  | assertRelease w =>
    rw [hpc] at hr
    have hw : w = s.buf.next_write_release := hr.2.1.trans hr.2.2.symm
    have := recv_quiet h .clearFull s.notices (by rw [hpc]; rfl) (by rw [St.readPos, St.readPos, hpc])
      (by rw [hpc]; exact id) hr.1
    simpa [runRecv, hpc, recv_step, hw] using this
  | clearFull =>
    have := clearFull_inv h hpc
    simpa [runRecv, hpc, recv_step] using this
  | aborted =>
    rw [hpc] at hr
    exact hr.elim

/-- **Every step that meets the condition keeps the invariant.** -/
theorem step_inv {s t : St P} {a : Action P} (h : Inv s) (hok : Ok s a) (hst : step s a = some t) : Inv t := by
  cases a with
  | send p m =>
    simp only [step] at hst
    split_ifs at hst with hp
    cases hst
    exact quiet_inv h p (.loadFull m) (by rw [hp.1]; rfl) (by rw [hp.1]; rfl) (by rw [hp.1]; rfl) (by rw [hp.1]; rfl) hp.2
  | run p =>
    simp only [step] at hst
    split_ifs at hst
    cases hst
    exact run_inv h hok
  | wake k =>
    simp only [step] at hst
    split_ifs at hst with hw
    cases hst
    exact recv_quiet h .loadNextRead _ (by rw [hw.1]; rfl) (by rw [St.readPos, St.readPos, hw.1]) (by rw [hw.1]; exact id) trivial
  | recv =>
    simp only [step] at hst
    split_ifs at hst
    cases hst
    exact recv_inv h hok

/-- **Every state that such steps reach.** -/
theorem reach_inv {s : St P} (h : Reach step Ok init s) : Inv s :=
  h.inv init_inv fun _ _ _ => step_inv

end Shuttlesock.Ring
