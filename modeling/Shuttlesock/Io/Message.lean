/-
The flags and the header of a message (`io/io.c`, `io/io_libev.c`): `shuso_io_sendmsg`, `shuso_io_recvmsg`, the part of
`shuso_io_ev_operation` for the two, `shuso_io_op_cleanup`, `shuso_io_abort`.

Model: `flags` and `incomplete_temporary_iovec` are one word of `shuso_io_t`. `set` is what `flags` was set to, none once the pointer was
written over it; `low` are the bits of a pointer that are read as flags then.
- the header is `msg_iov`, `msg_iovlen` of `Vectored.Io`, and the caller's is `⟨0, 0⟩`, `vs.length`.
- `calls`: history, the flags of the calls of `sendmsg` or `recvmsg` for the operation.
- `Fault` is an access outside an array, a failed assertion or a loop that never ends: the operation goes nowhere then.
- both functions repeat to completion.
- not in the model: readiness that is not the operation's, `closed`, and what the handler does.

Results:
- `survives_iff`: flags and header survive an operation that ends exactly if the flags are 0 and no result ends inside an element.
- `not_survives`: the flags of a message that is sent at once.
-/
import Mathlib.Tactic
import Shuttlesock.Core.Runs
import Shuttlesock.Io.Vectored

namespace Shuttlesock.Message

open Shuttlesock.Runs Shuttlesock.Vectored

/-! ## Model -/

inductive Status where
  | started
  /-- `SHUSO_IO_WATCH_OP_RETRY` -/
  | waiting
  | ended
deriving DecidableEq

structure Op where
  io : Io
  set : Option ℤ
  status : Status
  calls : List ℤ
  fault : Option Fault

/-- what a system call returns, with any other errno than EINTR -/
inductive Sys where
  /-- EAGAIN or EWOULDBLOCK -/
  | again
  | failed (errno : ℕ)
  /-- alloc says whether malloc succeeds -/
  | done (n : ℕ) (alloc : Bool)

/-- `io->flags` -/
def flags (low : IovPtr → ℤ) (op : Op) : ℤ :=
  match op.set with
  | some flags => flags
  | none =>
    match op.io.incomplete_temporary_iovec with
    | none => 0
    | some p => low p

/-- up to the operation itself; the pointer that is set to NULL takes the place of the flags -/
def io_op_run_new (op : Op) (opcode : Opcode) (vs : List Iovec) : Op :=
  { op with io := Vectored.io_op_run_new opcode vs, set := none, status := .started, calls := [], fault := none }

def shuso_io_sendmsg (op : Op) (vs : List Iovec) (flags : ℤ) : Op := io_op_run_new { op with set := some flags } .SENDMSG vs

def shuso_io_recvmsg (op : Op) (vs : List Iovec) (flags : ℤ) : Op := io_op_run_new { op with set := some flags } .RECVMSG vs

def shuso_io_op_cleanup (op : Op) : Op :=
  if op.io.incomplete_temporary_iovec ≠ none then
    { op with io := { op.io with incomplete_temporary_iovec := none }, set := none }
  else op

def shuso_io_run_handler (op : Op) : Op := { op with status := .ended }

/-- the call is interrupted some times before -/
def shuso_io_ev_operation (low : IovPtr → ℤ) (op : Op) (interrupted : ℕ) (sys : Sys) : Op :=
  let op := { op with calls := op.calls ++ List.replicate (interrupted + 1) (flags low op) }
  match sys with
  | .again => { op with status := .waiting }
  | .failed errno =>
    shuso_io_run_handler (shuso_io_op_cleanup { op with io := { op.io with result := -1, error := errno } })
  | .done n alloc =>
    if n ≠ 0 then
      match shuso_io_op_update_and_check_completion alloc op.io n with
      | .error f => { op with fault := some f, status := .ended }
      | .ok (io, false) => { op with io := { io with result := io.result + n }, status := .waiting }
      | .ok (io, true) => shuso_io_run_handler (shuso_io_op_cleanup { op with io := { io with result := io.result + n } })
    else shuso_io_run_handler (shuso_io_op_cleanup { op with io := { op.io with result := op.io.result + n } })

def ECANCELED : ℕ := 125

def shuso_io_abort (op : Op) : Op :=
  let op := shuso_io_op_cleanup op
  { op with io := { op.io with error := ECANCELED, result := -1 }, status := .ended }

inductive Act where
  | call (interrupted : ℕ) (sys : Sys)
  | abort

/-- no more bytes than the call was asked for -/
def Fits (io : Io) : Sys → Prop
  | .done n _ => ∀ vs ∈ described io, n ≤ total vs
  | _ => True

instance (io : Io) (sys : Sys) : Decidable (Fits io sys) := by
  cases sys <;> unfold Fits <;> infer_instance

def step (low : IovPtr → ℤ) (op : Op) : Act → Option Op
  | .call interrupted sys =>
    if op.status ≠ .ended ∧ Fits op.io sys then some (shuso_io_ev_operation low op interrupted sys) else none
  | .abort => if op.status = .waiting then some (shuso_io_abort op) else none

/-! ## The claim -/

inductive Fn where
  | sendmsg
  | recvmsg

def Fn.opcode : Fn → Opcode
  | sendmsg => .SENDMSG
  | recvmsg => .RECVMSG

def Fn.start : Fn → Op → List Iovec → ℤ → Op
  | sendmsg => shuso_io_sendmsg
  | recvmsg => shuso_io_recvmsg

/-- **The claim**, for the array vs of the caller's header. -/
structure Survives (flags : ℤ) (vs : List Iovec) (op : Op) : Prop where
  sound : op.fault = none
  flags : ∀ f ∈ op.calls, f = flags
  header : op.status = .ended → op.io.msg_iov = ⟨0, 0⟩ ∧ op.io.msg_iovlen = vs.length

/-- a result does not end inside an element, unless there is no memory for a temporary array -/
def Whole (vs : List Iovec) : Act → Prop
  | .call _ (.done n alloc) => alloc = false ∨ ∃ k, total (vs.take k) = n
  | _ => True

/-! ## One call of the update -/

/-- a result that ends inside element k ends at no boundary -/
theorem not_boundary {vs : List Iovec} {k w : ℕ} (hk : k < vs.length) (h0 : 0 < w) (hl : w < vs[k].iov_len) (j : ℕ) :
    total (vs.take j) ≠ total (vs.take k) + w := by
  intro heq
  rcases Nat.lt_or_ge k j with hkj | hjk
  · have hsucc : total (vs.take (k + 1)) = total (vs.take k) + vs[k].iov_len := by
      rw [← List.take_append_getElem hk, total_append]
      simp
    have hsplit := total_take_drop (vs.take j) (k + 1)
    rw [List.take_take, Nat.min_eq_left (show k + 1 ≤ j from hkj)] at hsplit
    omega
  · have hsplit := total_take_drop (vs.take k) j
    rw [List.take_take, Nat.min_eq_left hjk] at hsplit
    omega

variable {fn : Fn} {vs : List Iovec}

theorem fn_vectored : fn.opcode.vectored = true := by cases fn <;> rfl

/-- the update goes by the header -/
theorem new_vectored (alloc : Bool) (n : ℕ) :
    shuso_io_op_update_and_check_completion alloc (Vectored.io_op_run_new fn.opcode vs) n = (do
      let x ← io_iovec_op_update_and_check_completion alloc (Vectored.io_op_run_new fn.opcode vs)
        (Vectored.io_op_run_new fn.opcode vs).vec.1 (Vectored.io_op_run_new fn.opcode vs).vec.2 n
      return (x.1.setVec fn.opcode x.2.1 x.2.2.1, x.2.2.2)) :=
  update_vectored fn_vectored n

/-- what is returned is the same whether the assertion is checked or not -/
theorem assert_then {β : Type} {b q : Prop} [Decidable b] [Decidable q] {z y : β}
    (h : (if b then assert q >>= fun _ => pure z else pure z) = Except.ok y) : z = y := by
  split_ifs at h
  · rw [bind_ok] at h
    obtain ⟨-, -, hy⟩ := h
    exact Except.ok.inj hy
  · exact Except.ok.inj h

/-- with memory, the update does not fail -/
theorem update_op_true {io : Io} {iov : IovPtr} {cnt k w : ℕ} {y : Io × IovPtr × ℕ × Bool}
    (h : io_iovec_update_on_incomplete_op true io iov cnt k w = .ok y) : y.2.2.2 = true := by
  by_cases hw : w = 0
  · simp only [io_iovec_update_on_incomplete_op, if_pos hw, bind_ok] at h
    obtain ⟨-, -, hy⟩ := h
    cases hy
    rfl
  · cases htmp : io.incomplete_temporary_iovec with
    | none =>
      simp only [io_iovec_update_on_incomplete_op, if_neg hw, htmp, bind_ok, Bool.not_true, Bool.false_eq_true, if_false] at h
      obtain ⟨_, -, _, -, _, -, _, -, _, -, _, -, _, -, _, -, hy⟩ := h
      cases hy
      rfl
    | some p =>
      rw [update_again hw htmp h]

/-- without memory, io gets the error -/
theorem update_op_false {io : Io} {iov : IovPtr} {cnt k w : ℕ} (hw : w ≠ 0) (hk : k < cnt)
    (htmp : io.incomplete_temporary_iovec = none) :
    io_iovec_update_on_incomplete_op false io iov cnt k w = .ok ({ io with error := ENOMEM, result := -1 }, iov, cnt, false) := by
  have h1 : 0 < cnt := by omega
  have h3 : 0 < cnt + k := by omega
  simp [io_iovec_update_on_incomplete_op, hw, htmp, assert, h1, hk, h3, Bind.bind, Except.bind, Pure.pure, Except.pure]

/-- **The three ways a first result ends**: at a boundary, which leaves io as it is; inside an element without memory; and inside one
with memory, which puts a temporary array into the header, or faults. -/
theorem new_update (fn : Fn) {n : ℕ} (alloc : Bool) (hn : n ≤ total vs) :
    (∃ k, total (vs.take k) = n) ∧ shuso_io_op_update_and_check_completion alloc (Vectored.io_op_run_new fn.opcode vs) n =
        .ok (Vectored.io_op_run_new fn.opcode vs, true) ∨
      (∀ k, total (vs.take k) ≠ n) ∧ alloc = false ∧
        shuso_io_op_update_and_check_completion alloc (Vectored.io_op_run_new fn.opcode vs) n =
          .ok ({ Vectored.io_op_run_new fn.opcode vs with error := ENOMEM, result := -1 }, true) ∨
      (∀ k, total (vs.take k) ≠ n) ∧ alloc = true ∧
        ∀ io' ret, shuso_io_op_update_and_check_completion alloc (Vectored.io_op_run_new fn.opcode vs) n = .ok (io', ret) →
          ret = false ∧ ∃ es, io' = tmpIo fn.opcode vs es := by
  have hfrom : (Vectored.io_op_run_new fn.opcode vs).mem.from ⟨0, 0⟩ = vs := rfl
  have hacc := account_spec (Vectored.io_op_run_new fn.opcode vs).mem ⟨0, 0⟩ vs.length 0 n (by rw [hfrom]; omega)
    (by simpa [hfrom] using hn)
  simp only [Nat.zero_add, List.drop_zero, hfrom] at hacc
  rcases hacc with ⟨k, w, hk, he, _, h0, hl, ht⟩ | ⟨k, he, -, ht⟩
  · have hnone : ∀ j, total (vs.take j) ≠ n := fun j => ht ▸ not_boundary hk h0 hl j
    cases alloc with
    | false =>
      refine .inr (.inl ⟨hnone, rfl, ?_⟩)
      rw [new_vectored, new_vec, core_middle he, update_op_false h0.ne' hk rfl]
      cases fn <;> rfl
    | true =>
      refine .inr (.inr ⟨hnone, rfl, fun io' ret hok => ?_⟩)
      have hret : ret = false := by
        rw [new_vectored, new_vec, core_middle he, bind_ok] at hok
        obtain ⟨x, hx, hok⟩ := hok
        rw [bind_ok] at hx
        obtain ⟨y, hy, hx⟩ := hx
        rw [← assert_then hx, update_op_true hy] at hok
        cases hok
        rfl
      refine ⟨hret, ?_⟩
      subst hret
      by_cases hfirst : EndsInFirst vs n
      · obtain ⟨hlt, v, hv, hnv⟩ := hfirst
        obtain ⟨rest, rfl⟩ : ∃ rest, vs = v :: rest := List.head?_eq_some_iff.1 hv
        have hpos : 0 < n := by omega
        rw [new_first fn_vectored hpos hnv hlt] at hok
        cases hok
        exact ⟨_, rfl⟩
      · have hlt : n < total vs := by
          refine lt_of_le_of_ne hn fun heq => hnone vs.length ?_
          rw [List.take_length, heq]
        exact (new_short fn_vectored hlt hfirst hok).elim
  · refine .inl ⟨⟨k, ht⟩, ?_⟩
    rw [new_vectored, new_vec, core_done he]
    cases fn <;> rfl

/-- with a temporary array, the header moves on in its array -/
theorem update_op_keeps {alloc : Bool} {io : Io} {p iov : IovPtr} {cnt k w : ℕ} {y : Io × IovPtr × ℕ × Bool}
    (hp : io.incomplete_temporary_iovec = some p) (h : io_iovec_update_on_incomplete_op alloc io iov cnt k w = .ok y) :
    y.1.opcode = io.opcode ∧ y.1.incomplete_temporary_iovec = some p ∧ y.2.1.arr = iov.arr := by
  by_cases hw : w = 0
  · simp only [io_iovec_update_on_incomplete_op, if_pos hw, bind_ok] at h
    obtain ⟨-, -, hy⟩ := h
    cases hy
    exact ⟨rfl, hp, rfl⟩
  · simp only [io_iovec_update_on_incomplete_op, if_neg hw, hp, bind_ok] at h
    obtain ⟨-, -, -, -, -, -, -, -, hy⟩ := h
    cases hy
    exact ⟨rfl, hp, rfl⟩

theorem core_keeps {alloc : Bool} {io : Io} {p iov : IovPtr} {cnt n : ℕ} {y : Io × IovPtr × ℕ × Bool}
    (hp : io.incomplete_temporary_iovec = some p) (h : io_iovec_op_update_and_check_completion alloc io iov cnt n = .ok y) :
    y.1.opcode = io.opcode ∧ y.1.incomplete_temporary_iovec = some p ∧ y.2.1.arr = iov.arr := by
  simp only [io_iovec_op_update_and_check_completion, bind_ok] at h
  obtain ⟨⟨i, w, middle⟩, -, h⟩ := h
  dsimp only at h
  split_ifs at h
  · rw [bind_ok] at h
    obtain ⟨x, hx, hrest⟩ := h
    have hkeeps := update_op_keeps hp hx
    rw [← assert_then hrest]
    exact hkeeps
  · rw [bind_ok] at h
    obtain ⟨x, hx, hrest⟩ := h
    have hkeeps := update_op_keeps hp hx
    rw [← assert_then hrest]
    exact hkeeps
  · cases h
    exact ⟨rfl, hp, rfl⟩

theorem update_keeps {alloc : Bool} {io io' : Io} {p : IovPtr} {n : ℕ} {ret : Bool} (hop : io.opcode = fn.opcode)
    (hp : io.incomplete_temporary_iovec = some p) (h : shuso_io_op_update_and_check_completion alloc io n = .ok (io', ret)) :
    io'.opcode = fn.opcode ∧ io'.incomplete_temporary_iovec = some p ∧ io'.msg_iov.arr = io.msg_iov.arr := by
  rw [update_vectored (by rw [hop]; exact fn_vectored), bind_ok] at h
  obtain ⟨x, hx, hrest⟩ := h
  cases hrest
  obtain ⟨hopcode, htmp, harr⟩ := core_keeps hp hx
  simp only [Io.vec, hop] at harr
  rw [hop]
  cases fn
  · exact ⟨hopcode.trans hop, htmp, harr⟩
  · exact ⟨hopcode.trans hop, htmp, harr⟩

/-! ## Runs -/

variable {low : IovPtr → ℤ} {op t : Op}

/-- nothing has been transferred yet -/
structure Fresh (fn : Fn) (vs : List Iovec) (op : Op) : Prop where
  io : op.io = Vectored.io_op_run_new fn.opcode vs
  set : op.set = none
  live : op.status ≠ .ended
  sound : op.fault = none
  calls : ∀ f ∈ op.calls, f = 0
  called : op.status = .waiting → op.calls ≠ []

/-- ended, with the header of the caller -/
structure Intact (vs : List Iovec) (op : Op) : Prop where
  sound : op.fault = none
  calls : ∀ f ∈ op.calls, f = 0
  called : op.calls ≠ []
  ended : op.status = .ended
  header : op.io.msg_iov = ⟨0, 0⟩ ∧ op.io.msg_iovlen = vs.length

/-- the header is in a temporary array -/
structure Moved (fn : Fn) (op : Op) : Prop where
  opcode : op.io.opcode = fn.opcode
  tmp : op.io.incomplete_temporary_iovec ≠ none
  header : op.io.msg_iov.arr ≠ 0

/-- it will not be the caller's again -/
structure Lost (fn : Fn) (op : Op) : Prop where
  lost : op.fault ≠ none ∨ op.io.msg_iov.arr ≠ 0
  moved : op.status ≠ .ended → Moved fn op

theorem cleanup_header (op : Op) :
    (shuso_io_op_cleanup op).io.msg_iov = op.io.msg_iov ∧ (shuso_io_op_cleanup op).io.msg_iovlen = op.io.msg_iovlen ∧
      (shuso_io_op_cleanup op).fault = op.fault ∧ (shuso_io_op_cleanup op).calls = op.calls := by
  unfold shuso_io_op_cleanup
  split_ifs
  · exact ⟨rfl, rfl, rfl, rfl⟩
  · exact ⟨rfl, rfl, rfl, rfl⟩

/-- the last step of an operation leaves the header -/
theorem cleanup_intact (hsound : op.fault = none) (hcalls : ∀ f ∈ op.calls, f = 0) (hcalled : op.calls ≠ [])
    (hheader : op.io.msg_iov = ⟨0, 0⟩ ∧ op.io.msg_iovlen = vs.length) :
    Intact vs (shuso_io_run_handler (shuso_io_op_cleanup op)) := by
  obtain ⟨h1, h2, h3, h4⟩ := cleanup_header op
  exact ⟨h3.trans hsound, fun f hf => hcalls f (h4 ▸ hf), fun hnil => hcalled (h4 ▸ hnil), rfl, h1.trans hheader.1, h2.trans hheader.2⟩

theorem cleanup_lost (h : op.io.msg_iov.arr ≠ 0) : Lost fn (shuso_io_run_handler (shuso_io_op_cleanup op)) where
  lost := .inr ((cleanup_header op).1 ▸ h)
  moved hlive := absurd rfl hlive

/-- the header of a new operation is the caller's -/
theorem new_header :
    (Vectored.io_op_run_new fn.opcode vs).msg_iov = ⟨0, 0⟩ ∧ (Vectored.io_op_run_new fn.opcode vs).msg_iovlen = vs.length :=
  ⟨rfl, rfl⟩

theorem fresh_flags (h : Fresh fn vs op) : flags low op = 0 := by
  unfold flags
  rw [h.set, h.io]
  rfl

section Operation

variable {interrupted n : ℕ} {alloc : Bool} {io : Io}

/-- the state behind the system calls -/
def called (low : IovPtr → ℤ) (op : Op) (interrupted : ℕ) : Op :=
  { op with calls := op.calls ++ List.replicate (interrupted + 1) (flags low op) }

theorem operation_zero (hn : n = 0) : shuso_io_ev_operation low op interrupted (.done n alloc) =
    shuso_io_run_handler (shuso_io_op_cleanup { called low op interrupted with io := { op.io with result := op.io.result + n } }) := by
  simp [shuso_io_ev_operation, called, hn]

theorem operation_error (hn : n ≠ 0) {f : Fault} (h : shuso_io_op_update_and_check_completion alloc op.io n = .error f) :
    shuso_io_ev_operation low op interrupted (.done n alloc) =
      { called low op interrupted with fault := some f, status := .ended } := by
  simp [shuso_io_ev_operation, called, hn, h]

theorem operation_wait (hn : n ≠ 0) (h : shuso_io_op_update_and_check_completion alloc op.io n = .ok (io, false)) :
    shuso_io_ev_operation low op interrupted (.done n alloc) =
      { called low op interrupted with io := { io with result := io.result + n }, status := .waiting } := by
  simp [shuso_io_ev_operation, called, hn, h]

theorem operation_ended (hn : n ≠ 0) (h : shuso_io_op_update_and_check_completion alloc op.io n = .ok (io, true)) :
    shuso_io_ev_operation low op interrupted (.done n alloc) =
      shuso_io_run_handler (shuso_io_op_cleanup { called low op interrupted with io := { io with result := io.result + n } }) := by
  simp [shuso_io_ev_operation, called, hn, h]

end Operation

theorem tmpIo_moved (fn : Fn) (vs es : List Iovec) : (tmpIo fn.opcode vs es).opcode = fn.opcode ∧
    (tmpIo fn.opcode vs es).incomplete_temporary_iovec ≠ none ∧ (tmpIo fn.opcode vs es).msg_iov.arr ≠ 0 := by
  cases fn <;> exact ⟨rfl, by simp [tmpIo, Io.setVec, Fn.opcode], by simp [tmpIo, Io.setVec, Fn.opcode]⟩

theorem fresh_call {interrupted : ℕ} {sys : Sys} (h : Fresh fn vs op) (hfits : Fits op.io sys) :
    Whole vs (.call interrupted sys) ∧
        (Fresh fn vs (shuso_io_ev_operation low op interrupted sys) ∨ Intact vs (shuso_io_ev_operation low op interrupted sys)) ∨
      ¬Whole vs (.call interrupted sys) ∧ Lost fn (shuso_io_ev_operation low op interrupted sys) := by
  have hcalls : ∀ f ∈ op.calls ++ List.replicate (interrupted + 1) (flags low op), f = 0 := by
    intro f hf
    rcases List.mem_append.1 hf with hf | hf
    · exact h.calls f hf
    · exact (List.eq_of_mem_replicate hf).trans (fresh_flags h)
  have hcalled : op.calls ++ List.replicate (interrupted + 1) (flags low op) ≠ [] := by simp
  cases sys with
  | again => exact .inl ⟨trivial, .inl ⟨h.io, h.set, by simp [shuso_io_ev_operation], h.sound, hcalls, fun _ => hcalled⟩⟩
  | failed errno =>
    refine .inl ⟨trivial, .inr (cleanup_intact h.sound hcalls hcalled ?_)⟩
    dsimp only
    rw [h.io]
    exact new_header
  | done n alloc =>
    have hheader : op.io.msg_iov = ⟨0, 0⟩ ∧ op.io.msg_iovlen = vs.length := by
      rw [h.io]
      exact new_header
    by_cases hn : n = 0
    · rw [operation_zero hn]
      exact .inl ⟨.inr ⟨0, by simp [hn]⟩, .inr (cleanup_intact h.sound hcalls hcalled hheader)⟩
    have hle : n ≤ total vs := by
      refine hfits vs ?_
      rw [h.io, new_described]
      rfl
    rcases new_update fn alloc hle with ⟨hk, hu⟩ | ⟨-, halloc, hu⟩ | ⟨hnone, halloc, hu⟩
    · rw [← h.io] at hu
      rw [operation_ended hn hu]
      exact .inl ⟨.inr hk, .inr (cleanup_intact h.sound hcalls hcalled hheader)⟩
    · rw [← h.io] at hu
      rw [operation_ended hn hu]
      exact .inl ⟨.inl halloc, .inr (cleanup_intact h.sound hcalls hcalled hheader)⟩
    · refine .inr ⟨?_, ?_⟩
      · rintro (hfalse | ⟨k, hk⟩)
        · rw [halloc] at hfalse
          cases hfalse
        · exact hnone k hk
      · rw [← h.io] at hu
        cases hres : shuso_io_op_update_and_check_completion alloc op.io n with
        | error f =>
          rw [operation_error hn hres]
          exact ⟨.inl (by simp), fun hlive => absurd rfl hlive⟩
        | ok x =>
          obtain ⟨hret, es, hes⟩ := hu x.1 x.2 hres
          have hwait : shuso_io_op_update_and_check_completion alloc op.io n = .ok (tmpIo fn.opcode vs es, false) := by
            rw [hres, ← hret, ← hes]
          rw [operation_wait hn hwait]
          obtain ⟨h1, h2, h3⟩ := tmpIo_moved fn vs es
          exact ⟨.inr h3, fun _ => ⟨h1, h2, h3⟩⟩

theorem lost_call {interrupted : ℕ} {sys : Sys} (h : Moved fn op) :
    Lost fn (shuso_io_ev_operation low op interrupted sys) := by
  cases sys with
  | again => exact ⟨.inr h.header, fun _ => ⟨h.opcode, h.tmp, h.header⟩⟩
  | failed errno => exact cleanup_lost h.header
  | done n alloc =>
    by_cases hn : n = 0
    · rw [operation_zero hn]
      exact cleanup_lost h.header
    · cases hres : shuso_io_op_update_and_check_completion alloc op.io n with
      | error f =>
        rw [operation_error hn hres]
        exact ⟨.inl (by simp), fun hlive => absurd rfl hlive⟩
      | ok x =>
        obtain ⟨io, ret⟩ := x
        obtain ⟨p, hp⟩ := Option.ne_none_iff_exists'.1 h.tmp
        obtain ⟨h1, h2, h3⟩ := update_keeps h.opcode hp hres
        have harr : io.msg_iov.arr ≠ 0 := h3 ▸ h.header
        cases ret with
        | false =>
          rw [operation_wait hn hres]
          have htmp : io.incomplete_temporary_iovec ≠ none := by
            rw [h2]
            exact Option.some_ne_none p
          exact ⟨.inr harr, fun _ => ⟨h1, htmp, harr⟩⟩
        | true =>
          rw [operation_ended hn hres]
          exact cleanup_lost harr

/-- **From a new operation**, a step that is not whole loses the header. -/
theorem fresh_step {a : Act} (h : Fresh fn vs op) (hst : step low op a = some t) :
    Whole vs a ∧ (Fresh fn vs t ∨ Intact vs t) ∨ ¬Whole vs a ∧ Lost fn t := by
  cases a with
  | call interrupted sys =>
    rw [step] at hst
    split_ifs at hst with hok
    cases hst
    exact fresh_call h hok.2
  | abort =>
    rw [step] at hst
    split_ifs at hst with hwait
    cases hst
    obtain ⟨h1, h2, h3, h4⟩ := cleanup_header op
    refine .inl ⟨trivial, .inr ⟨h3.trans h.sound, fun f hf => h.calls f (h4 ▸ hf), fun hnil => h.called hwait (h4 ▸ hnil), rfl, ?_⟩⟩
    rw [h.io] at h1 h2
    exact ⟨h1, h2⟩

theorem lost_step {a : Act} (h : Lost fn op) (hst : step low op a = some t) : Lost fn t := by
  cases a with
  | call interrupted sys =>
    rw [step] at hst
    split_ifs at hst with hok
    cases hst
    exact lost_call (h.moved hok.1)
  | abort =>
    rw [step] at hst
    split_ifs at hst with hwait
    cases hst
    have hlive : op.status ≠ .ended := by
      rw [hwait]
      simp
    exact ⟨.inr ((cleanup_header op).1 ▸ (h.moved hlive).header), fun hlive => absurd rfl hlive⟩

theorem ended_step {a : Act} (h : op.status = .ended) : step low op a = none := by
  cases a with
  | call interrupted sys => simp [step, h]
  | abort => simp [step, h]

theorem lost_run {as : List Act} (h : Lost fn op) (he : exec (step low) op as = some t) : Lost fn t := by
  induction as generalizing op with
  | nil =>
    cases he
    exact h
  | cons a as ih =>
    rw [exec_cons, Option.bind_eq_some_iff] at he
    obtain ⟨u, hu, he⟩ := he
    exact ih (lost_step h hu) he

theorem intact_run {as : List Act} (h : Intact vs op) (he : exec (step low) op as = some t) : as = [] ∧ t = op := by
  cases as with
  | nil =>
    cases he
    exact ⟨rfl, rfl⟩
  | cons a as =>
    rw [exec_cons, ended_step h.ended] at he
    cases he

/-- **A run** keeps the header exactly if each step is whole. -/
theorem fresh_run {as : List Act} (h : Fresh fn vs op) (he : exec (step low) op as = some t) :
    (∀ a ∈ as, Whole vs a) ∧ (Fresh fn vs t ∨ Intact vs t) ∨ ¬(∀ a ∈ as, Whole vs a) ∧ Lost fn t := by
  induction as generalizing op with
  | nil =>
    cases he
    exact .inl ⟨fun a ha => absurd ha List.not_mem_nil, .inl h⟩
  | cons a as ih =>
    rw [exec_cons, Option.bind_eq_some_iff] at he
    obtain ⟨u, hu, he⟩ := he
    simp only [List.forall_mem_cons]
    rcases fresh_step h hu with ⟨hwhole, hfresh | hintact⟩ | ⟨hnot, hlost⟩
    · rcases ih hfresh he with ⟨hall, hend⟩ | ⟨hnot, hlost⟩
      · exact .inl ⟨⟨hwhole, hall⟩, hend⟩
      · exact .inr ⟨fun hall => hnot hall.2, hlost⟩
    · obtain ⟨rfl, rfl⟩ := intact_run hintact he
      exact .inl ⟨⟨hwhole, fun a ha => absurd ha List.not_mem_nil⟩, .inr hintact⟩
    · exact .inr ⟨fun hall => hnot hall.1, lost_run hlost he⟩

theorem start_fresh (fn : Fn) (op : Op) (vs : List Iovec) (flags : ℤ) : Fresh fn vs (fn.start op vs flags) := by
  cases fn <;> exact ⟨rfl, rfl, by simp [Fn.start, shuso_io_sendmsg, shuso_io_recvmsg, io_op_run_new], rfl,
    fun f hf => absurd hf List.not_mem_nil, fun h => by cases h⟩

/-- **What survives.** Flags and header survive in every run where the flags are 0 and each result is whole, and they survive no other
one that ends. -/
theorem survives_iff (low : IovPtr → ℤ) (fn : Fn) (op : Op) (vs : List Iovec) (flags : ℤ) {as : List Act} {t : Op}
    (he : exec (step low) (fn.start op vs flags) as = some t) :
    ((flags = 0 ∧ ∀ a ∈ as, Whole vs a) → Survives flags vs t) ∧
      (t.status = .ended → (Survives flags vs t ↔ flags = 0 ∧ ∀ a ∈ as, Whole vs a)) := by
  have hrun := fresh_run (start_fresh fn op vs flags) he
  have hsurvives : (flags = 0 ∧ ∀ a ∈ as, Whole vs a) → Survives flags vs t := by
    rintro ⟨rfl, hall⟩
    rcases hrun with ⟨-, hfresh | hintact⟩ | ⟨hnot, -⟩
    · exact ⟨hfresh.sound, hfresh.calls, fun hended => absurd hended hfresh.live⟩
    · exact ⟨hintact.sound, hintact.calls, fun _ => hintact.header⟩
    · exact absurd hall hnot
  refine ⟨hsurvives, fun hended => ⟨fun h => ?_, hsurvives⟩⟩
  rcases hrun with ⟨hall, hfresh | hintact⟩ | ⟨-, hlost⟩
  · exact absurd hended hfresh.live
  · -- a call was made, with the flags 0
    obtain ⟨f, hf⟩ := List.exists_mem_of_ne_nil t.calls hintact.called
    exact ⟨(h.flags f hf).symm.trans (hintact.calls f hf), hall⟩
  · rcases hlost.lost with hfault | harr
    · exact absurd h.sound hfault
    · exact absurd (congrArg IovPtr.arr (h.header hended).1) harr

/-- an io that nothing was done with -/
def idle : Op := ⟨Vectored.io_op_run_new .NONE [], none, .ended, [], none⟩

/-- a message without flags that is sent as a whole, when it does not block any more -/
theorem survives_whole :
    ∃ t, exec (step fun _ => 1) (shuso_io_sendmsg idle [⟨100, 4⟩, ⟨200, 2⟩] 0) [.call 0 .again, .call 1 (.done 6 true)] = some t ∧
      t.status = .ended ∧ Survives 0 [⟨100, 4⟩, ⟨200, 2⟩] t := by
  have he : exec (step fun _ => 1) (Fn.start .sendmsg idle [⟨100, 4⟩, ⟨200, 2⟩] 0) [.call 0 .again, .call 1 (.done 6 true)] =
      some _ := rfl
  refine ⟨_, he, rfl, (survives_iff _ .sendmsg idle _ 0 he).1 ⟨rfl, fun a ha => ?_⟩⟩
  rcases List.mem_pair.1 ha with rfl | rfl
  · trivial
  · exact .inr ⟨2, rfl⟩

/-- **Neither survives**: a message with `MSG_NOSIGNAL` is sent with no flags, and one that is received in two parts is left with the
pointer to the temporary array. -/
theorem not_survives :
    (∃ t, exec (step fun _ => 1) (shuso_io_sendmsg idle [⟨100, 4⟩] 16384) [.call 0 (.done 4 true)] = some t ∧ t.calls = [0] ∧
        ¬Survives 16384 [⟨100, 4⟩] t) ∧
      ∃ t, exec (step fun _ => 1) (shuso_io_recvmsg idle [⟨100, 4⟩] 0) [.call 0 (.done 2 true), .call 0 (.done 2 true)] = some t ∧
        t.status = .ended ∧ t.io.incomplete_temporary_iovec = none ∧ t.io.msg_iov = ⟨1, 0⟩ ∧ ¬Survives 0 [⟨100, 4⟩] t := by
  refine ⟨⟨_, rfl, rfl, fun h => ?_⟩, ⟨_, rfl, rfl, rfl, rfl, fun h => ?_⟩⟩
  · exact absurd (h.flags 0 List.mem_cons_self) (by decide)
  · exact absurd (congrArg IovPtr.arr (h.header rfl).1) (by decide)

end Shuttlesock.Message
