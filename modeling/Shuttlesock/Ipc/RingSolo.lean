/-
A ring with one sender is a queue (`ipc.c`).

`Solo b pc r` is what holds of a ring when only one process sends on it: pc is the position of its send (`idle` between
two sends), r that of the receiver. The window of unread indices is never longer than 256, an index that was reserved is
the next one to be released, and while `full` is set the sender stays out of the ring.
- `inRing b r`: the messages that were released and not handed to a handler yet, in the order of their indices.
- `released pc`: the message that the next step of the sender makes visible to the receiver.

Results:
- `send_solo`, `recv_solo`: every step of the two parties keeps `Solo`.
- `send_inRing`: the sender only adds to the end of the queue, and only by its release.
- `recv_inRing`: the receiver only takes from the front, and what it takes it hands to the handler. This also holds of a
  reset of the indices and of a reset whose assertion fails.
-/
import Mathlib.Tactic
import Shuttlesock.Ipc.Ring

namespace Shuttlesock.Ring

/-! ## What is in the ring -/

/-- the message in the slot of an index -/
def Ringbuf.msgAt (b : Ringbuf) (i : ℕ) : Msg := ⟨b.code (slot i), b.ptr (slot i)⟩

/-- the messages of n indices from i on -/
def Ringbuf.window (b : Ringbuf) (i n : ℕ) : List Msg := (List.range' i n).map b.msgAt

/-- the index of the next message to be taken out of its slot -/
def takeFrom (b : Ringbuf) : RecvPc → ℕ
  | .bump _ _ => b.next_read + 1
  | _ => b.next_read

/-- released and not handed to a handler yet -/
def inRing (b : Ringbuf) (r : RecvPc) : List Msg :=
  r.hand ++ b.window (takeFrom b r) (b.next_write_release - takeFrom b r)

/-- the step that comes next is the release of this message -/
def released : SendPc → Option Msg
  | .release m _ => some m
  | _ => none

theorem slot_ne {i j : ℕ} (h1 : i < j) (h2 : j < i + 256) : slot i ≠ slot j := by
  intro h
  have := slot_inj h (by omega) h2
  omega

theorem window_succ (b : Ringbuf) (i n : ℕ) : b.window i (n + 1) = b.msgAt i :: b.window (i + 1) n := by
  rw [Ringbuf.window, List.range'_succ, List.map_cons]
  rfl

theorem window_snoc (b : Ringbuf) (i n : ℕ) : b.window i (n + 1) = b.window i n ++ [b.msgAt (i + n)] := by
  rw [Ringbuf.window, List.range'_1_concat, List.map_append]
  rfl

theorem window_congr {b b' : Ringbuf} {i n : ℕ} (h : ∀ j, i ≤ j → j < i + n → b'.msgAt j = b.msgAt j) :
    b'.window i n = b.window i n := by
  refine List.map_congr_left fun j hj => ?_
  obtain ⟨h1, h2⟩ := List.mem_range'_1.1 hj
  exact h j h1 h2

theorem msgAt_setPtr {b : Ringbuf} {i j : ℕ} {x : ℕ} (h : slot j ≠ slot i) : (b.setPtr i x).msgAt j = b.msgAt j := by
  simp only [Ringbuf.msgAt, Ringbuf.setPtr, Function.update_of_ne h]

theorem msgAt_setCode {b : Ringbuf} {i j : ℕ} {c : UInt8} (h : slot j ≠ slot i) :
    (b.setCode i c).msgAt j = b.msgAt j := by
  simp only [Ringbuf.msgAt, Ringbuf.setCode, Function.update_of_ne h]

/-! ## One sender -/

/-- 1 between the fetch-add on `next_write_reserve` and the one on `next_write_release` -/
def SendPc.reserved : SendPc → ℕ
  | .loadRead _ _ _ | .recheck _ _ _ _ | .cas _ _ _ | .storePtr _ _ | .storeCode _ _ | .release _ _ => 1
  | _ => 0

/-- what the sender knows -/
def SoloSend (b : Ringbuf) : SendPc → Prop
  | .idle | .loadFull _ => True
  | .reserve _ | .notice _ => b.full = false
  | .loadRead _ next _ | .cas _ next _ => b.full = false ∧ next = b.next_write_release
  | .recheck _ next _ next_read => b.full = false ∧ next = b.next_write_release ∧ next_read ≤ b.next_read
  | .storePtr _ i => b.full = false ∧ i = b.next_write_release ∧ i < b.next_read + 256
  | .storeCode m i =>
    b.full = false ∧ i = b.next_write_release ∧ i < b.next_read + 256 ∧ b.ptr (slot i) = m.ptr
  | .release m i => b.full = false ∧ i = b.next_write_release ∧ i < b.next_read + 256 ∧ b.msgAt i = m

/-- what the receiver knows -/
def SoloRecv (b : Ringbuf) : RecvPc → Prop
  | .idle | .loadNextRead | .checkFull | .aborted => True
  | .loop i | .handler i _ => i = b.next_read
  | .loadCode i | .bump i _ => i = b.next_read ∧ i < b.next_write_release
  | .loadPtr i code => i = b.next_read ∧ i < b.next_write_release ∧ code = b.code (slot i)
  | .clear i m => i = b.next_read ∧ i < b.next_write_release ∧ m = b.msgAt i
  | .resetLoad | .resetStore _ | .assertReserve => b.full = true
  | .assertRelease next_write_reserve => b.full = true ∧ next_write_reserve = b.next_write_reserve
  | .clearFull => b.full = true ∧ b.next_write_reserve = b.next_write_release

structure Solo (b : Ringbuf) (pc : SendPc) (r : RecvPc) : Prop where
  unread : takeFrom b r ≤ b.next_write_release
  window : b.next_write_release ≤ b.next_read + 256
  reserve : b.full = false → b.next_write_reserve = b.next_write_release + pc.reserved
  send : SoloSend b pc
  recv : SoloRecv b r

theorem Solo.new : Solo .new .idle .idle := ⟨le_refl _, Nat.zero_le _, fun _ => rfl, trivial, trivial⟩

theorem next_read_le (b : Ringbuf) (r : RecvPc) : b.next_read ≤ takeFrom b r := by
  cases r with
  | bump i m => exact Nat.le_succ _
  | _ => exact le_refl _

/-- while `full` is set the sender has no index -/
theorem SoloSend.of_full {b : Ringbuf} {pc : SendPc} (h : SoloSend b pc) (hf : b.full = true) :
    pc = .idle ∨ ∃ m, pc = .loadFull m := by
  cases pc with
  | idle => exact Or.inl rfl
  | loadFull m => exact Or.inr ⟨m, rfl⟩
  | reserve m => exact absurd (hf.symm.trans h) (by decide)
  | notice m => exact absurd (hf.symm.trans h) (by decide)
  | _ => exact absurd (hf.symm.trans h.1) (by decide)

/-- what the receiver knows stays true when the slot it looks at does and, while `full` is set, the indices do -/
theorem SoloRecv.mono {b b' : Ringbuf} {r : RecvPc} (h : SoloRecv b r) (hread : b'.next_read = b.next_read)
    (hrel : b.next_write_release ≤ b'.next_write_release)
    (hslot : b.next_read < b.next_write_release → b'.msgAt b.next_read = b.msgAt b.next_read)
    (hfull : b.full = true → b'.full = true ∧ b'.next_write_reserve = b.next_write_reserve ∧
      b'.next_write_release = b.next_write_release) : SoloRecv b' r := by
  cases r with
  | idle => trivial
  | loadNextRead => trivial
  | checkFull => trivial
  | aborted => trivial
  | loop i => exact h.trans hread.symm
  | handler i m => exact h.trans hread.symm
  | loadCode i => exact ⟨h.1.trans hread.symm, lt_of_lt_of_le h.2 hrel⟩
  | bump i m => exact ⟨h.1.trans hread.symm, lt_of_lt_of_le h.2 hrel⟩
  | loadPtr i code =>
    obtain ⟨rfl, hlt, hc⟩ := h
    exact ⟨hread.symm, lt_of_lt_of_le hlt hrel, hc.trans (congrArg Msg.code (hslot hlt)).symm⟩
  | clear i m =>
    obtain ⟨rfl, hlt, hm⟩ := h
    exact ⟨hread.symm, lt_of_lt_of_le hlt hrel, hm.trans (hslot hlt).symm⟩
  | resetLoad => exact (hfull h).1
  | resetStore v => exact (hfull h).1
  | assertReserve => exact (hfull h).1
  | assertRelease w => exact ⟨(hfull h.1).1, h.2.trans (hfull h.1).2.1.symm⟩
  | clearFull =>
    obtain ⟨hf, h1, h2⟩ := hfull h.1
    exact ⟨hf, h1.trans (h.2.trans h2.symm)⟩

theorem takeFrom_congr {b b' : Ringbuf} (r : RecvPc) (hread : b'.next_read = b.next_read) :
    takeFrom b' r = takeFrom b r := by
  cases r with
  | bump i m => exact congrArg (· + 1) hread
  | _ => exact hread

/-! ## Steps of the sender -/

/-- a step of the sender keeps what is in the ring -/
structure Keeps (b b' : Ringbuf) : Prop where
  read : b'.next_read = b.next_read
  release : b.next_write_release ≤ b'.next_write_release
  slots : ∀ j, b.next_read ≤ j → j < b.next_write_release → b'.msgAt j = b.msgAt j
  full : b.full = true → b' = b

theorem Keeps.of_slots {b b' : Ringbuf} (hread : b'.next_read = b.next_read)
    (hrel : b.next_write_release ≤ b'.next_write_release) (hcode : b'.code = b.code) (hptr : b'.ptr = b.ptr)
    (hfull : b.full = false) : Keeps b b' where
  read := hread
  release := hrel
  slots := by
    intro j _ _
    simp only [Ringbuf.msgAt, hcode, hptr]
  full := fun hf => absurd (hf.symm.trans hfull) (by decide)

theorem Keeps.refl (b : Ringbuf) : Keeps b b := ⟨rfl, le_refl _, fun _ _ _ => rfl, fun _ => rfl⟩

/-- a store to the slot of the next index to be released does not touch an unread one -/
theorem Keeps.store {b : Ringbuf} (hw : b.next_write_release < b.next_read + 256) (hfull : b.full = false) (x : ℕ)
    (c : UInt8) :
    Keeps b (b.setPtr b.next_write_release x) ∧ Keeps b (b.setCode b.next_write_release c) := by
  have hne : ∀ j, b.next_read ≤ j → j < b.next_write_release → slot j ≠ slot b.next_write_release :=
    fun j h1 h2 => slot_ne h2 (by omega)
  have hf : b.full = true → ∀ b', b' = b := fun hf => absurd (hf.symm.trans hfull) (by decide)
  exact ⟨⟨rfl, le_refl _, fun j h1 h2 => msgAt_setPtr (hne j h1 h2), fun h => hf h _⟩,
    ⟨rfl, le_refl _, fun j h1 h2 => msgAt_setCode (hne j h1 h2), fun h => hf h _⟩⟩

theorem Solo.sender {b b' : Ringbuf} {pc pc' : SendPc} {r : RecvPc} (h : Solo b pc r) (hk : Keeps b b')
    (hwin : b'.next_write_release ≤ b.next_read + 256)
    (hres : b'.full = false → b'.next_write_reserve = b'.next_write_release + pc'.reserved)
    (hsend : SoloSend b' pc') : Solo b' pc' r where
  unread := by
    rw [takeFrom_congr r hk.read]
    exact le_trans h.unread hk.release
  window := by
    rw [hk.read]
    exact hwin
  reserve := hres
  send := hsend
  recv := by
    apply h.recv.mono hk.read hk.release
    · intro hlt
      exact hk.slots _ (le_refl _) hlt
    · intro hf
      rw [hk.full hf]
      exact ⟨hf, rfl, rfl⟩

/-- the step of `ipc_send_direct`, apart from the receiver: what it keeps and what it knows afterwards -/
theorem send_keeps {b : Ringbuf} {pc : SendPc} {r : RecvPc} (h : Solo b pc r) : Keeps b (send_step pc b).2.1 := by
  cases hpc : pc with
  | idle => exact Keeps.refl b
  | notice m => exact Keeps.refl b
  | loadRead m next e => exact Keeps.refl b
  | loadFull m =>
    simp only [send_step]
    split_ifs <;> exact Keeps.refl b
  | recheck m next e next_read =>
    simp only [send_step]
    split_ifs <;> exact Keeps.refl b
  | reserve m =>
    have hs := h.send
    rw [hpc] at hs
    exact Keeps.of_slots rfl (le_refl _) rfl rfl hs
  | cas m next e =>
    have hs := h.send
    rw [hpc] at hs
    exact Keeps.of_slots rfl (le_refl _) rfl rfl hs.1
  | storePtr m i =>
    have hs := h.send
    rw [hpc] at hs
    obtain ⟨hf, rfl, hw⟩ := hs
    exact (Keeps.store hw hf m.ptr m.code).1
  | storeCode m i =>
    have hs := h.send
    rw [hpc] at hs
    obtain ⟨hf, rfl, hw, -⟩ := hs
    exact (Keeps.store hw hf m.ptr m.code).2
  | release m i =>
    have hs := h.send
    rw [hpc] at hs
    exact Keeps.of_slots rfl (Nat.le_succ _) rfl rfl hs.1

theorem send_solo {b : Ringbuf} {pc : SendPc} {r : RecvPc} (h : Solo b pc r) :
    Solo (send_step pc b).2.1 (send_step pc b).1 r := by
  have hk := send_keeps h
  have hs := h.send
  have hr := h.reserve
  have hw := h.window
  have hle : b.next_read ≤ b.next_write_release := le_trans (next_read_le b r) h.unread
  cases hpc : pc with
  | idle => rw [hpc] at h; exact h
  | notice m =>
    rw [hpc] at hs hr hk
    exact h.sender hk hw hr trivial
  | loadFull m =>
    rw [hpc] at hs hr hk
    simp only [send_step] at hk ⊢
    split_ifs with hf
    · exact h.sender (Keeps.refl b) hw hr trivial
    · exact h.sender (Keeps.refl b) hw hr (by simpa [SoloSend] using hf)
  | reserve m =>
    rw [hpc] at hs hr hk
    refine h.sender hk hw ?_ ⟨hs, ?_⟩
    · intro hf
      exact congrArg (· + 1) (hr hs)
    · exact hr hs
  | loadRead m next e =>
    rw [hpc] at hs hr hk
    exact h.sender hk hw hr ⟨hs.1, hs.2, le_refl _⟩
  | recheck m next e next_read =>
    rw [hpc] at hs hr hk
    obtain ⟨hf, rfl, hnr⟩ := hs
    simp only [send_step, hf, Bool.false_eq_true, if_false] at hk ⊢
    split_ifs with hlt
    · exact h.sender (Keeps.refl b) hw hr ⟨hf, rfl⟩
    · have hroom : b.next_write_release < b.next_read + 256 := by omega
      exact h.sender (Keeps.refl b) hw hr ⟨hf, rfl, hroom⟩
  | cas m next e =>
    rw [hpc] at hs hr hk
    refine h.sender hk hw ?_ trivial
    intro hf
    exact absurd (show true = false from hf) (by decide)
  | storePtr m i =>
    rw [hpc] at hs hr hk
    obtain ⟨hf, hi, hlt⟩ := hs
    exact h.sender hk hw hr ⟨hf, hi, hlt, Function.update_self _ _ _⟩
  | storeCode m i =>
    rw [hpc] at hs hr hk
    obtain ⟨hf, hi, hlt, hp⟩ := hs
    refine h.sender hk hw hr ⟨hf, hi, hlt, ?_⟩
    have hcode : (b.setCode i m.code).code (slot i) = m.code := Function.update_self _ _ _
    exact congrArg₂ Msg.mk hcode hp
  | release m i =>
    rw [hpc] at hs hr hk
    obtain ⟨hf, rfl, hlt, -⟩ := hs
    refine h.sender hk hlt ?_ hf
    intro _
    exact hr hf

/-- **The sender adds to the end.** -/
theorem send_inRing {b : Ringbuf} {pc : SendPc} {r : RecvPc} (h : Solo b pc r) :
    inRing (send_step pc b).2.1 r = inRing b r ++ (released pc).toList := by
  have hk := send_keeps h
  have hn := next_read_le b r
  have hu := h.unread
  have hsame : (send_step pc b).2.1.window (takeFrom b r) (b.next_write_release - takeFrom b r) =
      b.window (takeFrom b r) (b.next_write_release - takeFrom b r) :=
    window_congr fun j h1 h2 => hk.slots j (le_trans hn h1) (by omega)
  by_cases hrel : ∃ m i, pc = .release m i
  · obtain ⟨m, i, rfl⟩ := hrel
    obtain ⟨-, rfl, -, hm⟩ := h.send
    have hlen : (send_step (.release m b.next_write_release) b).2.1.next_write_release - takeFrom b r =
        b.next_write_release - takeFrom b r + 1 := Nat.succ_sub hu
    rw [inRing, takeFrom_congr r hk.read, hlen, window_snoc, hsame, Nat.add_sub_cancel' hu, ← List.append_assoc]
    exact congrArg (fun x => inRing b r ++ [x]) hm
  · have hL : (send_step pc b).2.1.next_write_release = b.next_write_release :=
      (send_frame pc b).2.1 fun m i hpc => hrel ⟨m, i, hpc⟩
    have hnone : released pc = none := by
      cases pc with
      | release m i => exact absurd ⟨m, i, rfl⟩ hrel
      | _ => rfl
    rw [inRing, takeFrom_congr r hk.read, hL, hsame, hnone, Option.toList_none, List.append_nil]
    rfl

/-! ## Steps of the receiver -/

/-- what the sender knows stays true when the receiver only moves on and leaves the slot that is being filled alone -/
theorem SoloSend.mono {b b' : Ringbuf} {pc : SendPc} (h : SoloSend b pc) (hread : b.next_read ≤ b'.next_read)
    (hrel : b'.next_write_release = b.next_write_release) (hfull : b'.full = b.full)
    (hslot : b.next_write_release < b.next_read + 256 → b'.msgAt b.next_write_release = b.msgAt b.next_write_release) :
    SoloSend b' pc := by
  cases pc with
  | idle => trivial
  | loadFull m => trivial
  | reserve m => exact hfull.trans h
  | notice m => exact hfull.trans h
  | loadRead m next e => exact ⟨hfull.trans h.1, h.2.trans hrel.symm⟩
  | cas m next e => exact ⟨hfull.trans h.1, h.2.trans hrel.symm⟩
  | recheck m next e next_read => exact ⟨hfull.trans h.1, h.2.1.trans hrel.symm, le_trans h.2.2 hread⟩
  | storePtr m i => exact ⟨hfull.trans h.1, h.2.1.trans hrel.symm, by have := h.2.2; omega⟩
  | storeCode m i =>
    obtain ⟨hf, rfl, hlt, hp⟩ := h
    exact ⟨hfull.trans hf, hrel.symm, by omega, (congrArg Msg.ptr (hslot hlt)).trans hp⟩
  | release m i =>
    obtain ⟨hf, rfl, hlt, hm⟩ := h
    exact ⟨hfull.trans hf, hrel.symm, by omega, (hslot hlt).trans hm⟩

theorem recv_solo {b : Ringbuf} {pc : SendPc} {r : RecvPc} (h : Solo b pc r) :
    Solo (recv_step r b).2.1 pc (recv_step r b).1 := by
  obtain ⟨hu, hw, hr, hs, hrecv⟩ := h
  have hle : b.next_read ≤ b.next_write_release := le_trans (next_read_le b r) hu
  cases r with
  | idle => exact ⟨hle, hw, hr, hs, trivial⟩
  | aborted => exact ⟨hle, hw, hr, hs, trivial⟩
  | loadNextRead => exact ⟨hle, hw, hr, hs, rfl⟩
  | loop i =>
    simp only [recv_step]
    split_ifs with hlt
    · exact ⟨hle, hw, hr, hs, hrecv, hlt⟩
    · exact ⟨hle, hw, hr, hs, trivial⟩
  | loadCode i => exact ⟨hle, hw, hr, hs, hrecv.1, hrecv.2, rfl⟩
  | loadPtr i code =>
    obtain ⟨hi, hlt, hcode⟩ := hrecv
    simp only [recv_step]
    split_ifs with hnil
    · exact ⟨hle, hw, hr, hs, hi⟩
    · exact ⟨hle, hw, hr, hs, hi, hlt, congrArg (Msg.mk · _) hcode⟩
  | clear i m =>
    obtain ⟨rfl, hlt, -⟩ := hrecv
    refine ⟨hlt, hw, hr, ?_, rfl, hlt⟩
    refine hs.mono (le_refl _) rfl rfl ?_
    intro hroom
    exact msgAt_setCode (slot_ne hlt hroom).symm
  | bump i m =>
    obtain ⟨rfl, hlt⟩ := hrecv
    refine ⟨hlt, le_trans hw (Nat.add_le_add_right (Nat.le_succ _) _), hr, ?_, rfl⟩
    exact hs.mono (Nat.le_succ _) rfl rfl fun _ => rfl
  | handler i m => exact ⟨hle, hw, hr, hs, hrecv⟩
  | checkFull =>
    simp only [recv_step]
    split_ifs with hf
    · exact ⟨hle, hw, hr, hs, hf⟩
    · exact ⟨hle, hw, hr, hs, trivial⟩
  | resetLoad => exact ⟨hle, hw, hr, hs, hrecv⟩
  | resetStore v =>
    have hf : b.full = true := hrecv
    refine ⟨hle, hw, ?_, hs.mono (le_refl _) rfl rfl fun _ => rfl, hf⟩
    intro hf'
    exact absurd (hf.symm.trans hf') (by decide)
  | assertReserve => exact ⟨hle, hw, hr, hs, hrecv, rfl⟩
  | assertRelease w =>
    simp only [recv_step]
    split_ifs with heq
    · exact ⟨hle, hw, hr, hs, hrecv.1, hrecv.2.symm.trans heq⟩
    · exact ⟨hle, hw, hr, hs, trivial⟩
  | clearFull =>
    obtain ⟨hf, heq⟩ := hrecv
    rcases hs.of_full hf with rfl | ⟨m, rfl⟩
    · exact ⟨hle, hw, fun _ => heq, trivial, trivial⟩
    · exact ⟨hle, hw, fun _ => heq, trivial, trivial⟩

/-- **The receiver takes from the front.** -/
theorem recv_inRing {b : Ringbuf} {pc : SendPc} {r : RecvPc} (h : Solo b pc r) :
    inRing b r = (recv_step r b).2.2.toList ++ inRing (recv_step r b).2.1 (recv_step r b).1 := by
  have hrecv := h.recv
  cases r with
  | clear i m =>
    obtain ⟨rfl, hlt, hm⟩ := hrecv
    -- the slot that is cleared is not one of those that follow
    have hrest : (b.setCode b.next_read NIL).window (b.next_read + 1) (b.next_write_release - (b.next_read + 1)) =
        b.window (b.next_read + 1) (b.next_write_release - (b.next_read + 1)) := by
      refine window_congr fun j h1 h2 => msgAt_setCode ?_
      have hw := h.window
      exact (slot_ne (by omega) (by omega)).symm
    have hlen : b.next_write_release - b.next_read = b.next_write_release - (b.next_read + 1) + 1 := by omega
    change [] ++ b.window b.next_read (b.next_write_release - b.next_read) = [] ++ ([m] ++ _)
    rw [hlen, window_succ, hm]
    exact congrArg (fun x => b.msgAt b.next_read :: x) hrest.symm
  | loop i => simp only [recv_step]; split_ifs <;> rfl
  | loadPtr i code => simp only [recv_step]; split_ifs <;> rfl
  | checkFull => simp only [recv_step]; split_ifs <;> rfl
  | assertRelease w => simp only [recv_step]; split_ifs <;> rfl
  | _ => rfl

end Shuttlesock.Ring
