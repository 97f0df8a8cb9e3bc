/-
Partial results of vectored I/O (`io/io.c`): `io_iovec_update_on_incomplete_op`,
`io_iovec_op_update_and_check_completion` and `shuso_io_op_update_and_check_completion`, which
`shuso_io_ev_operation` calls after every positive result until it returns true.

Model: a `struct iovec *` is an array and an offset into it, `Mem` holds the arrays, `malloc` adds one. Every access
is checked, so an access outside an array, a failed `assert` and a loop that never ends are outcomes (`Fault`). The
functions that take `&io->iov, &iovcnt` return the new values of the two.
- `described io`: the elements that io describes, i.e. what the next `readv`/`writev`/`sendmsg`/`recvmsg` is given.
- `bytes`: the addresses that a list of elements covers, in order.
- `Conforms strict vs io n rs`: the calls with results `rs` neither fault nor end early nor late, and after each call
  that returns false (`strict`: after every call) io describes exactly the bytes of `vs` not transferred so far.

Results:
- `copy_loop_oob`: the copy into the temporary array runs outside both arrays when it does not start at the first
  element.
- `vectored_iff`: the sequences of results that the code handles: it completes at once, or the first result ends
  strictly inside the first element and the second one, if any, completes.
- `vectored_boundary`: a short result that ends exactly between two elements is reported as complete.
-/
import Mathlib.Tactic

namespace Shuttlesock.Vectored

/-! ## Memory -/

/-- `struct iovec` -/
structure Iovec where
  iov_base : ℕ
  iov_len : ℕ
deriving DecidableEq, Repr, Inhabited

inductive Fault where
  | outOfBounds
  | assertion
  | diverges
deriving DecidableEq, Repr

/-- `struct iovec *` -/
structure IovPtr where
  arr : ℕ
  off : ℕ
deriving DecidableEq, Repr

/-- `&p[n]` -/
def IovPtr.add (p : IovPtr) (n : ℕ) : IovPtr := { p with off := p.off + n }

abbrev Mem := List (List Iovec)

/-- the elements from `p` to the end of its array -/
def Mem.from (m : Mem) (p : IovPtr) : List Iovec := (m[p.arr]?.getD []).drop p.off

/-- `p[i]` -/
def Mem.read (m : Mem) (p : IovPtr) (i : ℕ) : Except Fault Iovec :=
  match (m.from p)[i]? with
  | some v => .ok v
  | none => .error .outOfBounds

/-- `p[i] = v` -/
def Mem.write (m : Mem) (p : IovPtr) (i : ℕ) (v : Iovec) : Except Fault Mem :=
  if i < (m.from p).length then .ok (m.modify p.arr fun a => a.set (p.off + i) v) else .error .outOfBounds

/-- `malloc(sizeof(struct iovec) * n)`; the content is indeterminate -/
def Mem.malloc (m : Mem) (n : ℕ) : Mem × IovPtr := (m ++ [List.replicate n default], ⟨m.length, 0⟩)

/-- `assert(p)` -/
def assert (p : Prop) [Decidable p] : Except Fault Unit := if p then .ok () else .error .assertion

/-! ## Model -/

/-- `shuso_io_opcode_t` -/
inductive Opcode where
  | NONE | READV | WRITEV | READ | WRITE | SENDMSG | SENDTO | SEND | RECVMSG | RECVFROM | RECV | ACCEPT | CONNECT
  | CLOSE | SHUTDOWN
deriving DecidableEq, Repr

/-- the operations on an array of `struct iovec` -/
def Opcode.vectored : Opcode → Bool
  | .READV | .WRITEV | .SENDMSG | .RECVMSG => true
  | _ => false

/-- the fields of `shuso_io_t` that the operations below use; `msg_iov`, `msg_iovlen` are those of `io->msg` -/
structure Io where
  opcode : Opcode
  mem : Mem
  iov : IovPtr
  iovcnt : ℕ
  msg_iov : IovPtr
  msg_iovlen : ℕ
  buf : ℕ
  len : ℤ
  incomplete_original_iovec : Option IovPtr
  incomplete_temporary_iovec : Option IovPtr
  result : ℤ
  error : ℕ
deriving Repr

def ENOMEM : ℕ := 12

/-- the copies `tmp_iov[i] = iov[i + iovcnt_offset]` for n values of i -/
def copy_from (iov tmp : IovPtr) (iovcnt_offset : ℕ) : ℕ → ℕ → Mem → Except Fault Mem
  | 0, _, mem => .ok mem
  | n + 1, i, mem => do
    let v ← mem.read iov (i + iovcnt_offset)
    let mem ← mem.write tmp i v
    copy_from iov tmp iovcnt_offset n (i + 1) mem

/-- `for(unsigned i = 0; i < bound; i++)`: a 32-bit counter never gets to a bound of 2^32 or more -/
def copy_loop (iov tmp : IovPtr) (iovcnt_offset bound : ℕ) (mem : Mem) : Except Fault Mem := do
  let mem ← copy_from iov tmp iovcnt_offset (min bound (2 ^ 32)) 0 mem
  if bound < 2 ^ 32 then .ok mem else .error .diverges

/-- returns io, `*iovptr`, `*iovcnt_ptr` and the result; `alloc` says whether malloc succeeds -/
def io_iovec_update_on_incomplete_op (alloc : Bool) (io : Io) (iov : IovPtr) (iovcnt iovcnt_offset : ℕ)
    (iov_start_offset : ℕ) : Except Fault (Io × IovPtr × ℕ × Bool) :=
  if iov_start_offset = 0 then do
    let io := { io with incomplete_original_iovec := io.incomplete_original_iovec.getD iov }
    assert (iovcnt_offset < iovcnt)
    return (io, iov.add iovcnt_offset, iovcnt - iovcnt_offset, true)
  else
    match io.incomplete_temporary_iovec with
    | none => do
      let new_iovcnt : ℤ := (iovcnt : ℤ) - iovcnt_offset
      assert (0 < iovcnt)
      assert (0 < new_iovcnt)
      assert (0 < iovcnt + iovcnt_offset)
      if !alloc then return ({ io with error := ENOMEM, result := -1 }, iov, iovcnt, false)
      let (mem, tmp_iov) := io.mem.malloc new_iovcnt.toNat
      let mem ← copy_loop iov tmp_iov iovcnt_offset (iovcnt + iovcnt_offset) mem
      let first ← mem.read tmp_iov 0
      assert (iov_start_offset < first.iov_len)
      let mem ← mem.write tmp_iov 0 ⟨first.iov_base + iov_start_offset, first.iov_len - iov_start_offset⟩
      let io := { io with mem := mem, incomplete_temporary_iovec := some tmp_iov,
                          incomplete_original_iovec := io.incomplete_original_iovec.getD iov }
      assert (iovcnt_offset < iovcnt)
      return (io, tmp_iov, iovcnt - iovcnt_offset, true)
    | some _ => do
      assert (io.incomplete_original_iovec ≠ none)
      let v ← io.mem.read iov iovcnt_offset
      assert (iov_start_offset < v.iov_len)
      assert (iovcnt_offset < iovcnt)
      -- neither the base nor the length of the element is changed here
      return (io, iov.add iovcnt_offset, iovcnt - iovcnt_offset, true)

/-- the loop over the elements: how many of the n from i on are covered by w bytes, what is left of w, and whether
that ends inside an element -/
def account (mem : Mem) (iov : IovPtr) : ℕ → ℕ → ℕ → Except Fault (ℕ × ℕ × Bool)
  | 0, i, w => .ok (i, w, false)
  | n + 1, i, w =>
    if w = 0 then .ok (i, w, false)
    else do
      let v ← mem.read iov i
      if w < v.iov_len then .ok (i, w, true) else account mem iov n (i + 1) (w - v.iov_len)

def io_iovec_op_update_and_check_completion (alloc : Bool) (io : Io) (iov : IovPtr) (iovcnt written : ℕ) :
    Except Fault (Io × IovPtr × ℕ × Bool) := do
  let (i, written_unaccounted_for, middle) ← account io.mem iov iovcnt 0 written
  if middle then
    let (io, iov, iovcnt, ok) ← io_iovec_update_on_incomplete_op alloc io iov iovcnt i written_unaccounted_for
    if !ok then assert (io.error ≠ 0)
    return (io, iov, iovcnt, !ok)
  else if 0 < written_unaccounted_for then
    let (io, iov, iovcnt, ok) ← io_iovec_update_on_incomplete_op alloc io iov iovcnt i 0
    if !ok then assert (io.error ≠ 0)
    return (io, iov, iovcnt, !ok)
  else return (io, iov, iovcnt, true)

def shuso_io_op_update_and_check_completion (alloc : Bool) (io : Io) (result_sz : ℕ) : Except Fault (Io × Bool) :=
  match io.opcode with
  | .NONE | .CONNECT | .ACCEPT | .CLOSE | .SHUTDOWN => .ok (io, true)
  | .READ | .WRITE | .SENDTO | .RECVFROM | .SEND | .RECV => do
    let io := { io with buf := io.buf + result_sz, len := io.len - result_sz }
    assert (0 ≤ io.len)
    return (io, io.len = 0)
  | .READV | .WRITEV => do
    let (io, iov, iovcnt, ret) ← io_iovec_op_update_and_check_completion alloc io io.iov io.iovcnt result_sz
    return ({ io with iov := iov, iovcnt := iovcnt }, ret)
  | .RECVMSG | .SENDMSG => do
    let (io, iov, iovcnt, ret) ← io_iovec_op_update_and_check_completion alloc io io.msg_iov io.msg_iovlen result_sz
    return ({ io with msg_iov := iov, msg_iovlen := iovcnt }, ret)

/-- io as `io_op_run_new` sets it up for the array `vs` -/
def io_op_run_new (opcode : Opcode) (vs : List Iovec) : Io where
  opcode := opcode
  mem := [vs]
  iov := ⟨0, 0⟩
  iovcnt := vs.length
  msg_iov := ⟨0, 0⟩
  msg_iovlen := vs.length
  buf := 0
  len := 0
  incomplete_original_iovec := none
  incomplete_temporary_iovec := none
  result := 0
  error := 0

/-! ## What the calls should do -/

/-- pointer and count that the operation is given -/
def Io.vec (io : Io) : IovPtr × ℕ :=
  match io.opcode with
  | .RECVMSG | .SENDMSG => (io.msg_iov, io.msg_iovlen)
  | _ => (io.iov, io.iovcnt)

def Io.setVec (io : Io) (op : Opcode) (p : IovPtr) (n : ℕ) : Io :=
  match op with
  | .RECVMSG | .SENDMSG => { io with msg_iov := p, msg_iovlen := n }
  | _ => { io with iov := p, iovcnt := n }

/-- the elements that io describes; `none` if they do not lie inside an array -/
def described (io : Io) : Option (List Iovec) :=
  if io.vec.2 ≤ (io.mem.from io.vec.1).length then some ((io.mem.from io.vec.1).take io.vec.2) else none

/-- the addresses that a list of elements covers -/
def bytes (vs : List Iovec) : List ℕ := vs.flatMap fun v => List.range' v.iov_base v.iov_len

def total (vs : List Iovec) : ℕ := (bytes vs).length

def Conforms (strict : Bool) (vs : List Iovec) (io : Io) (n : ℕ) : List ℕ → Prop
  | [] => True
  | r :: rs => ∃ io' ret, shuso_io_op_update_and_check_completion true io r = .ok (io', ret) ∧
      (ret = true ↔ n + r = total vs) ∧
      (ret = false ∨ strict = true → (described io').map bytes = some ((bytes vs).drop (n + r))) ∧
      Conforms strict vs io' (n + r) rs

/-- r bytes end strictly inside the first element, and the elements can be counted in 32 bits -/
def EndsInFirst (vs : List Iovec) (r : ℕ) : Prop :=
  vs.length < 2 ^ 32 ∧ ∃ v ∈ vs.head?, r < v.iov_len

/-- the sequences of results that the code handles -/
def OkResults (vs : List Iovec) : List ℕ → Prop
  | [] => True
  | [r] => r = total vs ∨ EndsInFirst vs r
  | [r, r'] => EndsInFirst vs r ∧ r + r' = total vs
  | _ => False

theorem bind_ok {β γ : Type} {x : Except Fault β} {f : β → Except Fault γ} {y : γ} :
    (x >>= f) = .ok y ↔ ∃ a, x = .ok a ∧ f a = .ok y := by
  cases x with
  | error e =>
    refine iff_of_false (fun h => ?_) fun ⟨a, h, _⟩ => ?_
    · cases h
    · cases h
  | ok a =>
    refine ⟨fun h => ⟨a, rfl, h⟩, ?_⟩
    rintro ⟨b, h, hf⟩
    cases h
    exact hf

theorem assert_ok {p : Prop} [Decidable p] {u : Unit} : assert p = .ok u ↔ p := by
  unfold assert
  split_ifs with h
  · exact iff_of_true rfl h
  · exact iff_of_false (by simp) h

/-! ## Bytes -/

@[simp] theorem bytes_nil : bytes [] = [] := rfl

@[simp] theorem bytes_cons (v : Iovec) (vs : List Iovec) :
    bytes (v :: vs) = List.range' v.iov_base v.iov_len ++ bytes vs := rfl

@[simp] theorem total_nil : total [] = 0 := rfl

@[simp] theorem total_cons (v : Iovec) (vs : List Iovec) : total (v :: vs) = v.iov_len + total vs := by
  simp [total]

theorem total_append (vs ws : List Iovec) : total (vs ++ ws) = total vs + total ws := by
  simp [total, bytes]

theorem total_take_drop (vs : List Iovec) (k : ℕ) : total (vs.take k) + total (vs.drop k) = total vs := by
  rw [← total_append, List.take_append_drop]

/-- what is left of the first element after r bytes -/
def Iovec.advance (v : Iovec) (r : ℕ) : Iovec := ⟨v.iov_base + r, v.iov_len - r⟩

theorem bytes_advance (v : Iovec) (vs : List Iovec) {r : ℕ} (h : r ≤ v.iov_len) :
    bytes (v.advance r :: vs) = (bytes (v :: vs)).drop r := by
  simp only [bytes_cons, Iovec.advance]
  rw [List.drop_append_of_le_length (by simpa using h), List.drop_range']
  simp

/-! ## Memory accesses -/

theorem read_eq {m : Mem} {p : IovPtr} {i : ℕ} (h : i < (m.from p).length) : m.read p i = .ok (m.from p)[i] := by
  simp [Mem.read, h]

theorem read_oob {m : Mem} {p : IovPtr} {i : ℕ} (h : (m.from p).length ≤ i) : m.read p i = .error .outOfBounds := by
  simp [Mem.read, h]

theorem from_malloc (m : Mem) (T : List Iovec) {p : IovPtr} (h : p.arr < m.length) :
    Mem.from (m ++ [T]) p = m.from p := by
  simp [Mem.from, List.getElem?_append_left h]

@[simp] theorem from_new (m : Mem) (T : List Iovec) : Mem.from (m ++ [T]) ⟨m.length, 0⟩ = T := by
  simp [Mem.from]

theorem write_new (m : Mem) (T : List Iovec) {i : ℕ} (v : Iovec) (h : i < T.length) :
    Mem.write (m ++ [T]) ⟨m.length, 0⟩ i v = .ok (m ++ [T.set i v]) := by
  have hmod : (m ++ [T]).modify m.length (fun a => a.set i v) = m ++ [T.set i v] := by
    induction m with
    | nil => rfl
    | cons a m ih => simpa using ih
  simp [Mem.write, h, hmod]

theorem write_length {m m' : Mem} {p q : IovPtr} {i : ℕ} {v : Iovec} (h : m.write p i v = .ok m') :
    (m'.from q).length = (m.from q).length := by
  unfold Mem.write at h
  split_ifs at h
  cases h
  simp only [Mem.from, List.getElem?_modify, List.length_drop]
  by_cases hpq : p.arr = q.arr
  · simp only [hpq, if_true]
    cases m[q.arr]? <;> simp
  · simp [hpq]

/-! ## The copy into the temporary array -/

theorem copy_from_all (m : Mem) {iov : IovPtr} (harr : iov.arr < m.length) (n i : ℕ) (X : List Iovec)
    (hX : X.length = n) (hn : i + n = (m.from iov).length) :
    copy_from iov ⟨m.length, 0⟩ 0 n i (m ++ [(m.from iov).take i ++ X]) = .ok (m ++ [m.from iov]) := by
  induction n generalizing i X with
  | zero =>
    rw [List.length_eq_zero_iff] at hX
    subst hX
    simp only [copy_from, List.append_nil]
    rw [List.take_of_length_le (by omega)]
  | succ n ih =>
    obtain ⟨x, X', rfl⟩ := List.exists_cons_of_length_eq_add_one hX
    have hi : i < (m.from iov).length := by omega
    have hset : ((m.from iov).take i ++ x :: X').set i (m.from iov)[i] = (m.from iov).take (i + 1) ++ X' := by
      have hlen : ((m.from iov).take i).length = i := by simp; omega
      rw [List.set_append_right _ _ hlen.le, hlen, Nat.sub_self, List.set_cons_zero, ← List.take_append_getElem hi,
        List.append_assoc]
      rfl
    simp only [copy_from, Nat.add_zero]
    rw [read_eq (by rw [from_malloc _ _ harr]; exact hi)]
    simp only [from_malloc _ _ harr]
    change (Mem.write _ _ _ _ >>= _) = _
    rw [write_new _ _ _ (by simp; omega), hset]
    exact ih (i + 1) X' (by simpa using hX) (by omega)

theorem copy_from_oob (iov tmp : IovPtr) (off n i : ℕ) (m : Mem) (h : i + off ≤ (m.from iov).length)
    (hn : (m.from iov).length < i + off + n) (m' : Mem) : copy_from iov tmp off n i m ≠ .ok m' := by
  induction n generalizing i m with
  | zero => omega
  | succ n ih =>
    intro hc
    rw [copy_from] at hc
    by_cases hi : i + off < (m.from iov).length
    · rw [read_eq hi] at hc
      change (Mem.write _ _ _ _ >>= _) = _ at hc
      cases hw : m.write tmp i (m.from iov)[i + off] with
      | error e => rw [hw] at hc; cases hc
      | ok m1 =>
        rw [hw] at hc
        have hl := write_length (q := iov) hw
        exact ih (i + 1) m1 (by omega) (by omega) hc
    · rw [read_oob (by omega)] at hc
      cases hc

/-- 2^32 elements or more: the counter wraps around before it gets to the bound -/
theorem copy_loop_diverges (m : Mem) (iov tmp : IovPtr) (off bound : ℕ) (h : 2 ^ 32 ≤ bound) (m' : Mem) :
    copy_loop iov tmp off bound m ≠ .ok m' := by
  unfold copy_loop
  cases copy_from iov tmp off (min bound (2 ^ 32)) 0 m with
  | error e => intro hc; cases hc
  | ok m1 =>
    intro hc
    change (if bound < 2 ^ 32 then Except.ok m1 else Except.error Fault.diverges) = Except.ok m' at hc
    rw [if_neg (by omega)] at hc
    cases hc

/-- **The copy runs outside the arrays** unless it starts at the first element: it copies `iovcnt + iovcnt_offset`
elements where `iovcnt - iovcnt_offset` are left. -/
theorem copy_loop_oob (m : Mem) (iov tmp : IovPtr) (off : ℕ) (hoff : 0 < off) (hle : off ≤ (m.from iov).length)
    (m' : Mem) : copy_loop iov tmp off ((m.from iov).length + off) m ≠ .ok m' := by
  by_cases hb : (m.from iov).length + off < 2 ^ 32
  · intro hc
    unfold copy_loop at hc
    rw [Nat.min_eq_left hb.le] at hc
    cases h1 : copy_from iov tmp off ((m.from iov).length + off) 0 m with
    | error e => rw [h1] at hc; cases hc
    | ok m1 => exact copy_from_oob iov tmp off _ 0 m (by omega) (by omega) m1 h1
  · exact copy_loop_diverges m iov tmp off _ (by omega) m'

theorem copy_loop_all (m : Mem) {iov : IovPtr} (harr : iov.arr < m.length) (X : List Iovec)
    (hX : X.length = (m.from iov).length) (hlt : (m.from iov).length < 2 ^ 32) :
    copy_loop iov ⟨m.length, 0⟩ 0 (m.from iov).length (m ++ [X]) = .ok (m ++ [m.from iov]) := by
  have h := copy_from_all m harr (m.from iov).length 0 X hX (by omega)
  simp only [List.take_zero, List.nil_append] at h
  simp only [copy_loop, Nat.min_eq_left hlt.le, h, hlt, if_true]
  rfl

/-! ## The loop over the elements -/

/-- w bytes end inside an element, or exactly at the end of one -/
theorem account_spec (mem : Mem) (iov : IovPtr) (n i w : ℕ) (hn : i + n ≤ (mem.from iov).length)
    (hw : w ≤ total (((mem.from iov).drop i).take n)) :
    (∃ k w', ∃ hk : i + k < (mem.from iov).length, account mem iov n i w = .ok (i + k, w', true) ∧ k < n ∧ 0 < w' ∧
      w' < ((mem.from iov)[i + k]).iov_len ∧ total (((mem.from iov).drop i).take k) + w' = w) ∨
    ∃ k, account mem iov n i w = .ok (i + k, 0, false) ∧ k ≤ n ∧ total (((mem.from iov).drop i).take k) = w := by
  induction n generalizing i w with
  | zero =>
    have hw0 : w = 0 := by simpa using hw
    exact Or.inr ⟨0, by simp [account, hw0], le_rfl, by simp [hw0]⟩
  | succ n ih =>
    have hi : i < (mem.from iov).length := by omega
    by_cases hw0 : w = 0
    · exact Or.inr ⟨0, by simp [account, hw0], by omega, by simp [hw0]⟩
    have hdrop : (mem.from iov).drop i = (mem.from iov)[i] :: (mem.from iov).drop (i + 1) :=
      List.drop_eq_getElem_cons hi
    by_cases hlt : w < ((mem.from iov)[i]).iov_len
    · refine Or.inl ⟨0, w, hi, ?_, by omega, by omega, hlt, by simp⟩
      rw [account, if_neg hw0, read_eq hi]
      simp [Bind.bind, Except.bind, hlt]
    · have hstep : account mem iov (n + 1) i w = account mem iov n (i + 1) (w - ((mem.from iov)[i]).iov_len) := by
        rw [account, if_neg hw0, read_eq hi]
        simp [Bind.bind, Except.bind, hlt]
      rw [hdrop, List.take_succ_cons, total_cons] at hw
      rcases ih (i + 1) (w - ((mem.from iov)[i]).iov_len) (by omega) (by omega) with
        ⟨k, w', hk, he, hkn, h0, hl, ht⟩ | ⟨k, he, hkn, ht⟩
      · refine Or.inl ⟨k + 1, w', by omega, ?_, by omega, h0, ?_, ?_⟩
        · rw [hstep, he, Nat.add_right_comm, Nat.add_assoc]
        · have : i + 1 + k = i + (k + 1) := by omega
          simpa [this] using hl
        · rw [hdrop, List.take_succ_cons, total_cons]
          omega
      · refine Or.inr ⟨k + 1, by rw [hstep, he, Nat.add_right_comm, Nat.add_assoc], by omega, ?_⟩
        rw [hdrop, List.take_succ_cons, total_cons]
        omega

/-! ## One call -/

/-- a result that ends inside element k, with no temporary array yet: the copy must succeed -/
theorem update_copies {io : Io} {iov : IovPtr} {cnt k w : ℕ} (hw : w ≠ 0) (ht : io.incomplete_temporary_iovec = none)
    {y : Io × IovPtr × ℕ × Bool} (h : io_iovec_update_on_incomplete_op true io iov cnt k w = .ok y) :
    ∃ tmp mem mem', mem = (io.mem.malloc ((cnt : ℤ) - k).toNat).1 ∧ copy_loop iov tmp k (cnt + k) mem = .ok mem' := by
  simp only [io_iovec_update_on_incomplete_op, if_neg hw, ht, Bool.not_true, Bool.false_eq_true, if_false,
    bind_ok, assert_ok] at h
  obtain ⟨-, -, -, -, -, -, mem', hc, -⟩ := h
  exact ⟨_, _, mem', rfl, hc⟩

/-- a result that ends inside element k, with a temporary array: the whole element is described again -/
theorem update_again {io : Io} {iov p : IovPtr} {cnt k w : ℕ} (hw : w ≠ 0)
    (ht : io.incomplete_temporary_iovec = some p) {y : Io × IovPtr × ℕ × Bool}
    (h : io_iovec_update_on_incomplete_op true io iov cnt k w = .ok y) : y = (io, iov.add k, cnt - k, true) := by
  simp only [io_iovec_update_on_incomplete_op, if_neg hw, ht, bind_ok, assert_ok] at h
  obtain ⟨-, -, -, -, -, -, -, -, h⟩ := h
  exact (Except.ok.inj h).symm

theorem update_vectored {alloc : Bool} {io : Io} (h : io.opcode.vectored = true) (r : ℕ) :
    shuso_io_op_update_and_check_completion alloc io r = (do
      let x ← io_iovec_op_update_and_check_completion alloc io io.vec.1 io.vec.2 r
      return (x.1.setVec io.opcode x.2.1 x.2.2.1, x.2.2.2)) := by
  unfold shuso_io_op_update_and_check_completion Io.vec Io.setVec
  cases hop : io.opcode <;> first | rfl | simp [Opcode.vectored, hop] at h

theorem core_done {alloc : Bool} {io : Io} {iov : IovPtr} {cnt r k : ℕ} (h : account io.mem iov cnt 0 r = .ok (k, 0, false)) :
    io_iovec_op_update_and_check_completion alloc io iov cnt r = .ok (io, iov, cnt, true) := by
  simp [io_iovec_op_update_and_check_completion, h, Bind.bind, Except.bind, Pure.pure, Except.pure]

theorem core_middle {alloc : Bool} {io : Io} {iov : IovPtr} {cnt r k w : ℕ}
    (h : account io.mem iov cnt 0 r = .ok (k, w, true)) :
    io_iovec_op_update_and_check_completion alloc io iov cnt r = (do
      let x ← io_iovec_update_on_incomplete_op alloc io iov cnt k w
      if !x.2.2.2 then assert (x.1.error ≠ 0)
      return (x.1, x.2.1, x.2.2.1, !x.2.2.2)) := by
  simp [io_iovec_op_update_and_check_completion, h, Bind.bind, Except.bind, Pure.pure, Except.pure]

/-- io after a first result that ends inside the first element: the temporary array `es` takes over -/
def tmpIo (op : Opcode) (vs es : List Iovec) : Io :=
  { io_op_run_new op vs with mem := [vs, es], incomplete_temporary_iovec := some ⟨1, 0⟩,
                             incomplete_original_iovec := some ⟨0, 0⟩ }.setVec op ⟨1, 0⟩ vs.length

section Vectored

variable {op : Opcode} {vs es : List Iovec}

theorem new_vec : (io_op_run_new op vs).vec = (⟨0, 0⟩, vs.length) := by cases op <;> rfl

theorem new_setVec : (io_op_run_new op vs).setVec op ⟨0, 0⟩ vs.length = io_op_run_new op vs := by cases op <;> rfl

theorem new_described : described (io_op_run_new op vs) = some vs := by
  have hm : (io_op_run_new op vs).mem.from ⟨0, 0⟩ = vs := rfl
  simp [described, new_vec, hm]

structure TmpFields (op : Opcode) (vs es : List Iovec) (io : Io) : Prop where
  opcode : io.opcode = op
  mem : io.mem = [vs, es]
  vec : io.vec = (⟨1, 0⟩, vs.length)
  tmp : io.incomplete_temporary_iovec = some ⟨1, 0⟩
  orig : io.incomplete_original_iovec = some ⟨0, 0⟩

theorem tmp_fields : TmpFields op vs es (tmpIo op vs es) := by
  cases op <;> exact ⟨rfl, rfl, rfl, rfl, rfl⟩

theorem tmp_from : (tmpIo op vs es).mem.from ⟨1, 0⟩ = es := by
  rw [tmp_fields.mem]; rfl

theorem tmp_described (hl : es.length = vs.length) : described (tmpIo op vs es) = some es := by
  simp [described, tmp_fields.vec, tmp_from, ← hl]

theorem setVec_vec (io : Io) (p : IovPtr) (n : ℕ) : (io.setVec io.opcode p n).vec = (p, n) := by
  cases io with
  | mk opcode => cases opcode <;> rfl

theorem setVec_mem (io : Io) (op : Opcode) (p : IovPtr) (n : ℕ) : (io.setVec op p n).mem = io.mem := by
  cases op <;> rfl

/-- everything that is left has been transferred: true, and io stays as it is -/
theorem core_complete {io : Io} {iov : IovPtr} (hfrom : io.mem.from iov = es) :
    io_iovec_op_update_and_check_completion true io iov es.length (total es) = .ok (io, iov, es.length, true) := by
  subst hfrom
  rcases account_spec io.mem iov (io.mem.from iov).length 0 (total (io.mem.from iov)) (by omega) (by simp) with
    ⟨k, w', hk, -, -, -, hl, ht⟩ | ⟨k, he, -⟩
  · exfalso
    simp only [Nat.zero_add, List.drop_zero] at hk hl ht
    have h1 := total_take_drop (io.mem.from iov) k
    rw [List.drop_eq_getElem_cons hk, total_cons] at h1
    omega
  · exact core_done he

/-- a short result that ends between two elements: true as well -/
theorem core_short {io : Io} {iov : IovPtr} (hfrom : io.mem.from iov = es) {r : ℕ} (hr : r < total es)
    {x : Io × IovPtr × ℕ × Bool} (hx : io_iovec_op_update_and_check_completion true io iov es.length r = .ok x)
    (hret : x.2.2.2 = false) :
    ∃ k w, ∃ hk : k < es.length, account io.mem iov es.length 0 r = .ok (k, w, true) ∧ 0 < w ∧
      w < es[k].iov_len ∧ total (es.take k) + w = r := by
  subst hfrom
  rcases account_spec io.mem iov (io.mem.from iov).length 0 r (by omega) (by simpa using hr.le) with
    ⟨k, w, hk, he, -, h0, hl, ht⟩ | ⟨k, he, -⟩
  · simp only [Nat.zero_add, List.drop_zero] at hk he hl ht
    exact ⟨k, w, hk, he, h0, hl, ht⟩
  · rw [core_done he] at hx
    cases hx
    cases hret

theorem new_complete (hop : op.vectored = true) :
    shuso_io_op_update_and_check_completion true (io_op_run_new op vs) (total vs) =
      .ok (io_op_run_new op vs, true) := by
  rw [update_vectored hop, new_vec, @core_complete vs (io_op_run_new op vs) ⟨0, 0⟩ rfl]
  change Except.ok ((io_op_run_new op vs).setVec op ⟨0, 0⟩ vs.length, true) = _
  rw [new_setVec]

theorem tmp_complete (hop : op.vectored = true) (hl : es.length = vs.length) :
    shuso_io_op_update_and_check_completion true (tmpIo op vs es) (total es) = .ok (tmpIo op vs es, true) := by
  rw [update_vectored (by rw [tmp_fields.opcode]; exact hop), tmp_fields.vec, ← hl, core_complete tmp_from]
  change Except.ok ((tmpIo op vs es).setVec (tmpIo op vs es).opcode ⟨1, 0⟩ es.length, true) = _
  rw [tmp_fields.opcode, hl]
  cases op <;> rfl

/-- a first result that ends inside the first element is put right in the temporary array -/
theorem new_first (hop : op.vectored = true) {v : Iovec} {rest : List Iovec} {r : ℕ} (h0 : 0 < r)
    (hr : r < v.iov_len) (hlt : (v :: rest).length < 2 ^ 32) :
    shuso_io_op_update_and_check_completion true (io_op_run_new op (v :: rest)) r =
      .ok (tmpIo op (v :: rest) (v.advance r :: rest), false) := by
  have hacc : account (io_op_run_new op (v :: rest)).mem ⟨0, 0⟩ (v :: rest).length 0 r = .ok (0, r, true) := by
    rw [List.length_cons, account, if_neg h0.ne']
    change (if r < v.iov_len then _ else _) = _
    rw [if_pos hr]
  have hcopy : copy_loop ⟨0, 0⟩ ⟨1, 0⟩ 0 (rest.length + 1)
      [v :: rest, List.replicate (rest.length + 1) default] = .ok [v :: rest, v :: rest] :=
    @copy_loop_all [v :: rest] ⟨0, 0⟩ (by simp) _ (by simp [Mem.from]) hlt
  have hread : Mem.read [v :: rest, v :: rest] ⟨1, 0⟩ 0 = .ok v := rfl
  have hwrite : Mem.write [v :: rest, v :: rest] ⟨1, 0⟩ 0 ⟨v.iov_base + r, v.iov_len - r⟩ =
      .ok [v :: rest, v.advance r :: rest] := rfl
  have hupd : io_iovec_update_on_incomplete_op true (io_op_run_new op (v :: rest)) ⟨0, 0⟩ (v :: rest).length 0 r =
      .ok ({ io_op_run_new op (v :: rest) with
              mem := [v :: rest, v.advance r :: rest], incomplete_temporary_iovec := some ⟨1, 0⟩,
              incomplete_original_iovec := some ⟨0, 0⟩ }, ⟨1, 0⟩, (v :: rest).length, true) := by
    have hnew : ((rest.length + 1 : ℕ) : ℤ) - (0 : ℕ) = ((rest.length + 1 : ℕ) : ℤ) := by omega
    simp only [io_iovec_update_on_incomplete_op, if_neg h0.ne', io_op_run_new, List.length_cons, assert, hnew,
      Mem.malloc, Int.toNat_natCast, Nat.add_zero]
    simp [hcopy, hread, hwrite, hr, Bind.bind, Except.bind, Pure.pure, Except.pure]
  rw [update_vectored hop, new_vec, core_middle hacc, hupd]
  rfl

/-- any other short first result is lost: the copy faults, or the operation is reported as complete -/
theorem new_short (hop : op.vectored = true) {r : ℕ} (hr : r < total vs) (hf : ¬ EndsInFirst vs r) {io' : Io}
    (h : shuso_io_op_update_and_check_completion true (io_op_run_new op vs) r = .ok (io', false)) : False := by
  rw [update_vectored hop, new_vec, bind_ok] at h
  obtain ⟨x, hx, h⟩ := h
  have hret : x.2.2.2 = false := (Prod.mk.inj (Except.ok.inj h)).2
  obtain ⟨k, w, hk, hacc, h0, hl, ht⟩ := @core_short vs (io_op_run_new op vs) _ rfl r hr x hx hret
  rw [core_middle hacc, bind_ok] at hx
  obtain ⟨y, hy, -⟩ := hx
  obtain ⟨tmp, mem, mem', hmem, hc⟩ := update_copies h0.ne' rfl hy
  have hfrom : mem.from ⟨0, 0⟩ = vs := by rw [hmem]; rfl
  rcases Nat.eq_zero_or_pos k with rfl | hkpos
  · -- inside the first element: only a count of 2^32 or more is left
    have hvs : 2 ^ 32 ≤ vs.length := by
      by_contra hlt
      refine hf ⟨by omega, vs[0], by simp [List.head?_eq_getElem?, hk], ?_⟩
      simp only [List.take_zero, total_nil] at ht
      omega
    exact copy_loop_diverges mem _ tmp 0 _ (by simpa using hvs) mem' hc
  · refine copy_loop_oob mem ⟨0, 0⟩ tmp k hkpos (by rw [hfrom]; exact hk.le) mem' ?_
    rw [hfrom]
    exact hc

/-- a second short result: complete too early, or bytes described again that are already transferred -/
theorem tmp_short (hop : op.vectored = true) (hl : es.length = vs.length) {r : ℕ} (hr : r < total es) {io' : Io}
    (h : shuso_io_op_update_and_check_completion true (tmpIo op vs es) r = .ok (io', false)) :
    (described io').map bytes ≠ some ((bytes es).drop r) := by
  rw [update_vectored (by rw [tmp_fields.opcode]; exact hop), tmp_fields.vec, ← hl, bind_ok] at h
  obtain ⟨x, hx, h⟩ := h
  obtain ⟨hio, hret⟩ := Prod.mk.inj (Except.ok.inj h)
  obtain ⟨k, w, hk, hacc, h0, hlen, ht⟩ := core_short tmp_from hr hx hret
  rw [core_middle hacc, bind_ok] at hx
  obtain ⟨y, hy, hx⟩ := hx
  obtain rfl := update_again h0.ne' tmp_fields.tmp hy
  obtain rfl : x = (tmpIo op vs es, IovPtr.add ⟨1, 0⟩ k, es.length - k, false) := by cases hx; rfl
  have hdesc : described io' = some (es.drop k) := by
    have hd : Mem.from (tmpIo op vs es).mem (IovPtr.add ⟨1, 0⟩ k) = es.drop k := by
      rw [tmp_fields.mem]; simp [Mem.from, IovPtr.add]
    subst hio
    simp only [described, setVec_vec, setVec_mem, hd, List.length_drop, le_refl, if_true]
    rw [List.take_of_length_le (by simp)]
  rw [hdesc]
  intro he
  -- the elements from k on have w more bytes than are left
  have hbytes := congrArg List.length (Option.some.inj he)
  rw [List.length_drop] at hbytes
  have hsplit := total_take_drop es k
  unfold total at *
  omega

end Vectored

/-! ## All calls -/

/-- nothing can be left to transfer after a result that completes -/
theorem nil_of_sum {rs : List ℕ} (hpos : ∀ r ∈ rs, 0 < r) (h : rs.sum = 0) : rs = [] := by
  cases rs with
  | nil => rfl
  | cons r rs =>
    have := hpos r List.mem_cons_self
    rw [List.sum_cons] at h
    omega

theorem drop_ne_self {vs : List Iovec} {n m : ℕ} (hm : m < n) (hn : n ≤ total vs) :
    (bytes vs).drop m ≠ (bytes vs).drop n := by
  intro h
  have := congrArg List.length h
  simp only [List.length_drop] at this
  unfold total at hn
  omega

/-- the second call and those after it -/
theorem conforms_tmp (op : Opcode) (hop : op.vectored = true) (strict : Bool) {vs es : List Iovec} {r : ℕ}
    (hl : es.length = vs.length) (hes : bytes es = (bytes vs).drop r) (hr : r < total vs) (rs : List ℕ)
    (hpos : ∀ x ∈ rs, 0 < x) (hsum : r + rs.sum ≤ total vs) :
    Conforms strict vs (tmpIo op vs es) r rs ↔
      (rs = [] ∨ ∃ r', rs = [r'] ∧ r + r' = total vs) ∧ (strict = true → r + rs.sum < total vs) := by
  have htot : total es = total vs - r := by unfold total; rw [hes, List.length_drop]
  cases rs with
  | nil => exact iff_of_true trivial ⟨Or.inl rfl, fun _ => by simpa using hr⟩
  | cons r' rs =>
    have hr' := hpos r' List.mem_cons_self
    have hsum' : r + (r' + rs.sum) ≤ total vs := by simpa using hsum
    by_cases hdone : r + r' = total vs
    · obtain rfl := nil_of_sum (fun x hx => hpos x (List.mem_cons_of_mem r' hx)) (by omega : rs.sum = 0)
      have hu := @tmp_complete op vs es hop hl
      rw [show total es = r' by omega] at hu
      refine ⟨?_, fun ⟨_, hs⟩ => ⟨_, _, hu, by simp [hdone], ?_, trivial⟩⟩
      · rintro ⟨io', ret, hc, -, hd, -⟩
        rw [hu] at hc
        cases hc
        refine ⟨Or.inr ⟨r', rfl, hdone⟩, fun hs => ?_⟩
        have h1 := hd (Or.inr hs)
        rw [tmp_described hl, Option.map_some, Option.some.injEq, hes] at h1
        exact absurd h1 (drop_ne_self (by omega) (by omega))
      · rintro (h | h)
        · cases h
        · have := hs h
          simp at this
          omega
    · refine iff_of_false ?_ ?_
      · rintro ⟨io', ret, hc, hret, hd, -⟩
        obtain rfl : ret = false := by
          cases ret
          · rfl
          · exact absurd (hret.1 rfl) hdone
        refine tmp_short hop hl (by omega) hc ?_
        rw [hd (Or.inl rfl), hes, List.drop_drop]
      · rintro ⟨h | ⟨x, hx, hxt⟩, -⟩
        · cases h
        · cases hx
          exact hdone hxt

theorem conforms_iff (op : Opcode) (hop : op.vectored = true) (strict : Bool) (vs : List Iovec) (rs : List ℕ)
    (hpos : ∀ r ∈ rs, 0 < r) (hsum : rs.sum ≤ total vs) :
    Conforms strict vs (io_op_run_new op vs) 0 rs ↔
      OkResults vs rs ∧ (strict = true → rs = [] ∨ rs.sum < total vs) := by
  cases rs with
  | nil => exact iff_of_true trivial ⟨trivial, fun _ => Or.inl rfl⟩
  | cons r rs =>
    have hr := hpos r List.mem_cons_self
    have hpos' : ∀ x ∈ rs, 0 < x := fun x hx => hpos x (List.mem_cons_of_mem r hx)
    rw [List.sum_cons] at hsum
    by_cases hdone : r = total vs
    · obtain rfl := nil_of_sum hpos' (by omega : rs.sum = 0)
      have hu := @new_complete op vs hop
      rw [← hdone] at hu
      refine ⟨?_, fun ⟨_, hs⟩ => ⟨_, _, hu, by simp [hdone], ?_, trivial⟩⟩
      · rintro ⟨io', ret, hc, -, hd, -⟩
        rw [hu] at hc
        cases hc
        refine ⟨Or.inl hdone, fun hs => ?_⟩
        have h1 := hd (Or.inr hs)
        rw [new_described, Option.map_some, Option.some.injEq] at h1
        exact absurd h1 (drop_ne_self (m := 0) (by omega) (by omega))
      · rintro (h | h)
        · cases h
        · have := hs h
          simp at this
          omega
    by_cases hf : EndsInFirst vs r
    · obtain ⟨hlt, v, hv, hrv⟩ := hf
      obtain ⟨rest, rfl⟩ : ∃ rest, vs = v :: rest := by
        cases vs with
        | nil => simp at hv
        | cons u rest => exact ⟨rest, by simpa using hv⟩
      have hu := @new_first op hop v rest r hr hrv hlt
      have hl : (v.advance r :: rest).length = (v :: rest).length := rfl
      have hes := bytes_advance v rest hrv.le
      have hrec : Conforms strict (v :: rest) (io_op_run_new op (v :: rest)) 0 (r :: rs) ↔
          Conforms strict (v :: rest) (tmpIo op (v :: rest) (v.advance r :: rest)) r rs := by
        refine ⟨?_, fun h => ⟨_, _, hu, by simpa using hdone, fun _ => ?_, by simpa using h⟩⟩
        · rintro ⟨io', ret, hc, -, -, hrest⟩
          rw [hu] at hc
          cases hc
          simpa using hrest
        · rw [tmp_described hl, Option.map_some, hes, Nat.zero_add]
      rw [hrec, conforms_tmp op hop strict hl hes (by omega) rs hpos' hsum, List.sum_cons]
      have hends : EndsInFirst (v :: rest) r := ⟨hlt, v, hv, hrv⟩
      refine and_congr ?_ (by simp)
      cases rs with
      | nil => exact iff_of_true (Or.inl rfl) (Or.inr hends)
      | cons r' rs =>
        cases rs with
        | nil => simp [OkResults, hends]
        | cons r'' rs => simp [OkResults]
    · refine iff_of_false ?_ ?_
      · rintro ⟨io', ret, hc, hret, -, -⟩
        obtain rfl : ret = false := by
          cases ret
          · rfl
          · exact absurd (by simpa using hret.1 rfl) hdone
        exact new_short hop (by omega) hf hc
      · rintro ⟨hok, -⟩
        cases rs with
        | nil => exact hok.elim hdone hf
        | cons r' rs =>
          cases rs with
          | nil => exact hf hok.1
          | cons r'' rs => exact hok

/-- **Which results the code handles.** For an array `vs` and positive results `rs` that sum up to at most its bytes,
the calls conform if and only if the operation completes at once, or the first result ends strictly inside the first
element and a second one, if any, completes. A call that completes the operation leaves io as it was before, so to ask
that io describes no bytes then leaves only the sequences that do not complete. -/
theorem vectored_iff (op : Opcode) (hop : op.vectored = true) (vs : List Iovec) (rs : List ℕ) (hpos : ∀ r ∈ rs, 0 < r)
    (hsum : rs.sum ≤ total vs) :
    (Conforms false vs (io_op_run_new op vs) 0 rs ↔ OkResults vs rs) ∧
      (Conforms true vs (io_op_run_new op vs) 0 rs ↔ OkResults vs rs ∧ (rs = [] ∨ rs.sum < total vs)) := by
  refine ⟨?_, ?_⟩
  · rw [conforms_iff op hop false vs rs hpos hsum]
    simp
  · rw [conforms_iff op hop true vs rs hpos hsum]
    simp

/-- two elements, a first result inside the first one, a second one that completes -/
theorem vectored_two_results :
    (Conforms false [⟨100, 4⟩, ⟨200, 2⟩] (io_op_run_new .WRITEV [⟨100, 4⟩, ⟨200, 2⟩]) 0 [3, 3] ↔
        OkResults [⟨100, 4⟩, ⟨200, 2⟩] [3, 3]) ∧
      (Conforms true [⟨100, 4⟩, ⟨200, 2⟩] (io_op_run_new .WRITEV [⟨100, 4⟩, ⟨200, 2⟩]) 0 [3, 3] ↔
        OkResults [⟨100, 4⟩, ⟨200, 2⟩] [3, 3] ∧ ([3, 3] = [] ∨ [3, 3].sum < total [⟨100, 4⟩, ⟨200, 2⟩])) :=
  vectored_iff .WRITEV rfl [⟨100, 4⟩, ⟨200, 2⟩] [3, 3] (by decide) (by decide)

/-- **A short write that ends between two elements is taken for a complete one**: 4 of 6 bytes, and the result is
true. -/
theorem vectored_boundary :
    ¬ ∀ (op : Opcode) (vs : List Iovec) (rs : List ℕ), op.vectored = true → (∀ r ∈ rs, 0 < r) → rs.sum ≤ total vs →
      Conforms false vs (io_op_run_new op vs) 0 rs := by
  intro h
  have h1 := h .WRITEV [⟨100, 4⟩, ⟨200, 2⟩] [4] rfl (by decide) (by decide)
  obtain ⟨io', ret, hc, hret, -, -⟩ := h1
  have htrue : ret = true := by cases hc; rfl
  exact absurd (hret.1 htrue) (by decide)

end Shuttlesock.Vectored
