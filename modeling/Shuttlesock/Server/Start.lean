/-
How the workers announce that they have started, `server.lua` (the `core:worker.start` subscriber and the receivers of
`server:workers_started` and `server:start`) over `lazy_atomics.c`.

Each worker ends its startup with two separate operations on the shared counter: an atomic increment of `done_count`,
then a read of it that is compared with the number of workers. A worker that reads the number of workers sends
`server:workers_started` to the manager, which broadcasts `server:start` for every such message it takes.

Model: `N` workers, each at one place `Pc` of its startup, the shared atomics, the messages on their way to the manager
and the messages sent so far. One action is one operation of one process, so that a run is any interleaving. The worker's
`IPC.send` fails when the worker or the manager is not running, the manager's when any process is not; the action says
whether it does. `N` is any number (`core.c` refuses more than 256 workers, so `done_count`, an int, does not overflow).

Results:
- `announced_once`: in a run where the increment that reaches `N` is made when no other worker is between its increment
  and its read, `server:workers_started` is sent at most once and only after all the increments, exactly once when
  every worker has finished, and `server:start` is broadcast at most once.
- `announced_again`: the condition is exact. Once an increment has reached `N` while another worker was yet to read, a
  state where every worker has finished has two messages or more.
- `announced_twice`: two workers, both of which increment before either reads.
-/
import Shuttlesock.Core.Runs
import Shuttlesock.Core.Procs

namespace Shuttlesock.ServerStart

open Runs

/-! ## The shared atomics -/

/-- `shuso_lua_lazy_atomic_value_t`, as far as integers go -/
structure LazyAtomic where
  typemix : ℕ
  integer : ℤ
deriving DecidableEq

def SHUSO_LUA_SHATOMIC_NIL : ℕ := 0
def SHUSO_LUA_SHATOMIC_INTEGER : ℕ := 3

def get_type (a : LazyAtomic) : ℕ := a.typemix % 16

/-- `Lua_lazy_atomics_value_create` without an argument -/
def value_create : LazyAtomic := ⟨SHUSO_LUA_SHATOMIC_NIL, 0⟩

/-- `Lua_lazy_atomics_value_set` of an integer; the upper bits of typemix count the updates -/
def value_set (a : LazyAtomic) (v : ℤ) : LazyAtomic :=
  ⟨(a.typemix / 256 + 1) * 256 + SHUSO_LUA_SHATOMIC_INTEGER, v⟩

/-- `Lua_lazy_atomics_value_get`; `none` is nil -/
def value_get (a : LazyAtomic) : Option ℤ :=
  if get_type a = SHUSO_LUA_SHATOMIC_INTEGER then some a.integer else none

/-- `Lua_lazy_atomics_value_increment`; what is no integer stays, and the caller does not look at the error -/
def value_increment (a : LazyAtomic) (v : ℤ) : LazyAtomic :=
  if get_type a = SHUSO_LUA_SHATOMIC_INTEGER then { a with integer := a.integer + v } else a

theorem get_type_set (a : LazyAtomic) (v : ℤ) : get_type (value_set a v) = SHUSO_LUA_SHATOMIC_INTEGER := by
  change ((a.typemix / 256 + 1) * 256 + 3) % 16 = 3
  omega

theorem value_get_integer {a : LazyAtomic} (h : get_type a = SHUSO_LUA_SHATOMIC_INTEGER) :
    value_get a = some a.integer := if_pos h

theorem value_increment_integer {a : LazyAtomic} (h : get_type a = SHUSO_LUA_SHATOMIC_INTEGER) (v : ℤ) :
    value_increment a v = { a with integer := a.integer + v } := if_pos h

/-! ## The model -/

/-- where a worker is in its startup -/
inductive Pc where
  /-- its sockets are not there yet -/
  | starting
  /-- its increment is made, its read is not -/
  | incremented
  /-- it has read the counter, and its message is sent if it had to be -/
  | finished
  /-- an error was raised before the increment -/
  | failed
  /-- it read the number of workers and `IPC.send` refused the message -/
  | unsent
deriving DecidableEq

/-- whether the worker's increment is made -/
def Pc.counted : Pc → ℕ
  | .incremented | .finished | .unsent => 1
  | .starting | .failed => 0

/-- whether the worker has a message to send, once the counter stands at the number of workers -/
def Pc.owed : Pc → ℕ
  | .incremented | .unsent => 1
  | .starting | .finished | .failed => 0

/-- the startup of `N` workers -/
structure State (N : ℕ) where
  pc : Fin N → Pc
  done_count : LazyAtomic
  failed_count : LazyAtomic
  aborted : Bool
  /-- `server:workers_started` messages the manager has not taken -/
  inbox : List (Fin N)
  /-- the workers whose message was sent, latest first -/
  sent : List (Fin N)
  /-- broadcasts of `server:start` -/
  starts : ℕ
  /-- broadcasts that `IPC.send` refused -/
  refused : ℕ
deriving DecidableEq

inductive Action (N : ℕ) where
  | increment (i : Fin N)
  | compare (i : Fin N) (running : Bool)
  | fail (i : Fin N)
  | receive (running : Bool)
deriving DecidableEq

variable {N : ℕ}

/-- `Server:initialize` -/
def init (N : ℕ) : State N where
  pc _ := .starting
  done_count := value_set value_create 0
  failed_count := value_set value_create 0
  aborted := false
  inbox := []
  sent := []
  starts := 0
  refused := 0

def State.put (s : State N) (i : Fin N) (pc : Pc) : State N := { s with pc := Function.update s.pc i pc }

/-- the error branch of `finish_server_startup` -/
def State.abort (s : State N) (i : Fin N) (pc : Pc) : State N :=
  { s.put i pc with aborted := true, failed_count := value_increment s.failed_count 1 }

def step (s : State N) : Action N → Option (State N)
  -- Server.shared:increment("done_count", 1)
  | .increment i =>
    if s.pc i = .starting then some { s.put i .incremented with done_count := value_increment s.done_count 1 } else none
  -- if Server.shared.done_count == Process.count_workers() then ipc_try_send("manager", ..) end
  | .compare i running =>
    if s.pc i = .incremented then
      if value_get s.done_count = some (N : ℤ) then
        if running then some { s.put i .finished with inbox := s.inbox ++ [i], sent := i :: s.sent }
        else some (s.abort i .unsent)
      else some (s.put i .finished)
    else none
  | .fail i => if s.pc i = .starting then some (s.abort i .failed) else none
  -- IPC.send("all", "server:start", ok or true), and a warning if it fails
  | .receive running =>
    match s.inbox with
    | [] => none
    | _ :: rest =>
      if running then some { s with inbox := rest, starts := s.starts + 1 }
      else some { s with inbox := rest, refused := s.refused + 1 }

/-- the increment that reaches `N` is made when no other worker is between its increment and its read -/
def Ok (s : State N) : Action N → Prop
  | .increment _ => s.done_count.integer + 1 = N → ∀ j, s.pc j ≠ .incremented
  | _ => True

instance (s : State N) (a : Action N) : Decidable (Ok s a) := by
  cases a <;> unfold Ok <;> infer_instance

/-- **The property.** The start is announced once: by one worker, after all increments, and broadcast once. -/
structure Announced (s : State N) : Prop where
  once : s.sent.length ≤ 1
  after : s.sent ≠ [] → ∀ i, (s.pc i).counted = 1
  exactly : 0 < N → (∀ i, s.pc i = .finished) → ∃ i, s.sent = [i]
  broadcast : s.starts + s.refused + s.inbox.length = s.sent.length
  start : s.starts ≤ 1

/-! ## What every step keeps -/

def State.counted (s : State N) : ℕ := ∑ j, (s.pc j).counted

def State.owed (s : State N) : ℕ := ∑ j, (s.pc j).owed

/-- the messages that were sent, and those that are still to be sent when the counter stands at `N` -/
def State.due (s : State N) : ℕ := s.sent.length + s.owed

structure Inv (s : State N) : Prop where
  integer : get_type s.done_count = SHUSO_LUA_SHATOMIC_INTEGER
  count : s.done_count.integer = s.counted
  early : s.done_count.integer < N → s.sent = [] ∧ ∀ j, s.pc j ≠ .unsent
  passed : s.starts + s.refused + s.inbox.length = s.sent.length

theorem Pc.counted_le (pc : Pc) : pc.counted ≤ 1 := by cases pc <;> simp [Pc.counted]

theorem State.counted_le (s : State N) : s.counted ≤ N := by
  calc s.counted ≤ ∑ _j : Fin N, 1 := Finset.sum_le_sum fun j _ => (s.pc j).counted_le
    _ = N := by simp

/-- the counter stands at `N` only when every worker has incremented it -/
theorem all_counted {s : State N} (h : s.counted = N) (i : Fin N) : (s.pc i).counted = 1 := by
  by_contra hi
  have hlt : (s.pc i).counted < 1 := lt_of_le_of_ne (s.pc i).counted_le hi
  have hsum : s.counted < ∑ _j : Fin N, 1 :=
    Finset.sum_lt_sum (fun j _ => (s.pc j).counted_le) ⟨i, Finset.mem_univ i, hlt⟩
  simp only [Finset.sum_const, Finset.card_univ, Fintype.card_fin, smul_eq_mul, mul_one] at hsum
  omega

/-- what a worker's move does to the two sums -/
theorem put_counted {s : State N} {i : Fin N} {old : Pc} (h : s.pc i = old) (pc : Pc) :
    (s.put i pc).counted + old.counted = s.counted + pc.counted := by
  rw [← h]
  exact Procs.sum_update Pc.counted s.pc i pc

theorem put_owed {s : State N} {i : Fin N} {old : Pc} (h : s.pc i = old) (pc : Pc) :
    (s.put i pc).owed + old.owed = s.owed + pc.owed := by
  rw [← h]
  exact Procs.sum_update Pc.owed s.pc i pc

@[simp] theorem put_pc_self (s : State N) (i : Fin N) (pc : Pc) : (s.put i pc).pc i = pc := Function.update_self ..

theorem put_pc_ne {s : State N} {i j : Fin N} (h : j ≠ i) (pc : Pc) : (s.put i pc).pc j = s.pc j :=
  Function.update_of_ne h ..

theorem put_ne_unsent {s : State N} (h : ∀ j, s.pc j ≠ .unsent) {i : Fin N} {pc : Pc} (hpc : pc ≠ .unsent) (j : Fin N) :
    (s.put i pc).pc j ≠ .unsent := by
  rcases eq_or_ne j i with rfl | hne
  · rwa [put_pc_self]
  · rw [put_pc_ne hne]
    exact h j

theorem init_inv : Inv (init N) where
  integer := get_type_set _ _
  count := by simp [init, State.counted, Pc.counted, value_set]
  early _ := ⟨rfl, fun j => by simp [init]⟩
  passed := rfl

/-- What a step can do. -/
theorem step_cases {s t : State N} {a : Action N} (h : Inv s) (hst : step s a = some t) :
    (∃ i, a = .increment i ∧ s.pc i = .starting ∧
      t = { s.put i .incremented with done_count := { s.done_count with integer := s.done_count.integer + 1 } }) ∨
    (∃ i r, a = .compare i r ∧ s.pc i = .incremented ∧ s.done_count.integer ≠ N ∧ t = s.put i .finished) ∨
    (∃ i, a = .compare i true ∧ s.pc i = .incremented ∧ s.done_count.integer = N ∧
      t = { s.put i .finished with inbox := s.inbox ++ [i], sent := i :: s.sent }) ∨
    (∃ i, a = .compare i false ∧ s.pc i = .incremented ∧ s.done_count.integer = N ∧ t = s.abort i .unsent) ∨
    (∃ i, a = .fail i ∧ s.pc i = .starting ∧ t = s.abort i .failed) ∨
    (∃ m rest r, a = .receive r ∧ s.inbox = m :: rest ∧
      (t = { s with inbox := rest, starts := s.starts + 1 } ∨
        t = { s with inbox := rest, refused := s.refused + 1 })) := by
  cases a with
  | increment i =>
    simp only [step, value_increment_integer h.integer, Option.ite_none_right_eq_some, Option.some.injEq] at hst
    exact .inl ⟨i, rfl, hst.1, hst.2.symm⟩
  | compare i running =>
    simp only [step, value_get_integer h.integer, Option.some.injEq, Option.ite_none_right_eq_some] at hst
    obtain ⟨hpc, hst⟩ := hst
    split at hst
    · rename_i hN
      cases running with
      | true => exact .inr (.inr (.inl ⟨i, rfl, hpc, hN, by simpa using hst.symm⟩))
      | false => exact .inr (.inr (.inr (.inl ⟨i, rfl, hpc, hN, by simpa using hst.symm⟩)))
    · rename_i hN
      exact .inr (.inl ⟨i, running, rfl, hpc, hN, by simpa using hst.symm⟩)
  | fail i =>
    simp only [step, Option.ite_none_right_eq_some, Option.some.injEq] at hst
    exact .inr (.inr (.inr (.inr (.inl ⟨i, rfl, hst.1, hst.2.symm⟩))))
  | receive running =>
    simp only [step] at hst
    split at hst
    · cases hst
    · rename_i m rest hin
      refine .inr (.inr (.inr (.inr (.inr ⟨m, rest, running, rfl, hin, ?_⟩))))
      split at hst
      · exact .inl (Option.some.inj hst).symm
      · exact .inr (Option.some.inj hst).symm

/-- **One step** keeps the invariant, whatever the interleaving. -/
theorem step_inv {s t : State N} {a : Action N} (h : Inv s) (hst : step s a = some t) : Inv t := by
  rcases step_cases h hst with ⟨i, rfl, hpc, rfl⟩ | ⟨i, r, rfl, hpc, hN, rfl⟩ | ⟨i, rfl, hpc, hN, rfl⟩ |
    ⟨i, rfl, hpc, hN, rfl⟩ | ⟨i, rfl, hpc, rfl⟩ | ⟨m, rest, r, rfl, hin, rfl | rfl⟩
  · have hc : (s.put i .incremented).counted + 0 = s.counted + 1 := put_counted hpc .incremented
    refine ⟨h.integer, ?_, fun hlt => ?_, h.passed⟩
    · change s.done_count.integer + 1 = ((s.put i .incremented).counted : ℤ)
      rw [← add_zero (s.put i .incremented).counted, hc, h.count]
      rfl
    · change s.done_count.integer + 1 < N at hlt
      obtain ⟨hsent, hne⟩ := h.early (by omega)
      exact ⟨hsent, put_ne_unsent hne (by decide)⟩
  · have hc : (s.put i .finished).counted + 1 = s.counted + 1 := put_counted hpc .finished
    refine ⟨h.integer, ?_, fun hlt => ?_, h.passed⟩
    · rw [Nat.add_right_cancel hc]
      exact h.count
    · obtain ⟨hsent, hne⟩ := h.early hlt
      exact ⟨hsent, put_ne_unsent hne (by decide)⟩
  · have hc : (s.put i .finished).counted + 1 = s.counted + 1 := put_counted hpc .finished
    refine ⟨h.integer, ?_, fun hlt => absurd hN (ne_of_lt hlt), ?_⟩
    · change s.done_count.integer = ((s.put i .finished).counted : ℤ)
      rw [Nat.add_right_cancel hc]
      exact h.count
    · change s.starts + s.refused + (s.inbox ++ [i]).length = s.sent.length + 1
      rw [List.length_append, ← h.passed]
      rfl
  · have hc : (s.put i .unsent).counted + 1 = s.counted + 1 := put_counted hpc .unsent
    refine ⟨h.integer, ?_, fun hlt => absurd hN (ne_of_lt hlt), h.passed⟩
    change s.done_count.integer = ((s.put i .unsent).counted : ℤ)
    rw [Nat.add_right_cancel hc]
    exact h.count
  · have hc : (s.put i .failed).counted + 0 = s.counted + 0 := put_counted hpc .failed
    refine ⟨h.integer, ?_, fun hlt => ?_, h.passed⟩
    · change s.done_count.integer = ((s.put i .failed).counted : ℤ)
      rw [Nat.add_right_cancel hc]
      exact h.count
    · obtain ⟨hsent, hne⟩ := h.early hlt
      exact ⟨hsent, put_ne_unsent hne (by decide)⟩
  · have hp := h.passed
    rw [hin, List.length_cons] at hp
    exact ⟨h.integer, h.count, h.early, by simp only; omega⟩
  · have hp := h.passed
    rw [hin, List.length_cons] at hp
    exact ⟨h.integer, h.count, h.early, by simp only; omega⟩

theorem reach_inv {ok : State N → Action N → Prop} {s : State N} (h : Reach step ok (init N) s) : Inv s :=
  h.inv init_inv fun _ _ _ hs _ hst => step_inv hs hst

/-! ## The messages that are due -/

/-- once the counter stands at `N`, no step changes how many messages are due -/
theorem step_due {s t : State N} {a : Action N} (h : Inv s) (hN : s.done_count.integer = N)
    (hst : step s a = some t) : t.done_count.integer = N ∧ t.due = s.due := by
  have hall : ∀ i, s.pc i ≠ .starting := by
    intro i hi
    have hcount : s.counted = N := by exact_mod_cast h.count.symm.trans hN
    have hi1 := all_counted hcount i
    rw [hi] at hi1
    exact absurd hi1 (by decide)
  rcases step_cases h hst with ⟨i, -, hpc, -⟩ | ⟨i, r, -, -, hne, -⟩ | ⟨i, rfl, hpc, -, rfl⟩ |
    ⟨i, rfl, hpc, -, rfl⟩ | ⟨i, -, hpc, -⟩ | ⟨m, rest, r, rfl, hin, rfl | rfl⟩
  · exact absurd hpc (hall i)
  · exact absurd hN hne
  · have ho : (s.put i .finished).owed + 1 = s.owed + 0 := put_owed hpc .finished
    refine ⟨hN, ?_⟩
    change s.sent.length + 1 + (s.put i .finished).owed = s.sent.length + s.owed
    omega
  · have ho : (s.put i .unsent).owed + 1 = s.owed + 1 := put_owed hpc .unsent
    refine ⟨hN, ?_⟩
    change s.sent.length + (s.put i .unsent).owed = s.sent.length + s.owed
    omega
  · exact absurd hpc (hall i)
  · exact ⟨hN, rfl⟩
  · exact ⟨hN, rfl⟩

/-- the increment that reaches `N` leaves one message due for each worker that is yet to read -/
theorem increment_due {s t : State N} {i : Fin N} (h : Inv s) (hN : s.done_count.integer + 1 = N)
    (hst : step s (.increment i) = some t) : t.done_count.integer = N ∧ t.due = s.owed + 1 := by
  rcases step_cases h hst with ⟨_, heq, hpc, rfl⟩ | ⟨_, _, heq, -⟩ | ⟨_, heq, -⟩ | ⟨_, heq, -⟩ | ⟨_, heq, -⟩ |
    ⟨_, _, _, heq, -⟩
  · obtain rfl : i = _ := Action.increment.inj heq
    have ho : (s.put i .incremented).owed + 0 = s.owed + 1 := put_owed hpc .incremented
    refine ⟨hN, ?_⟩
    change s.sent.length + (s.put i .incremented).owed = _
    rw [(h.early (by omega)).1, List.length_nil]
    omega
  all_goals cases heq

/-! ## The start is announced once -/

/-- when the counter stands at the number of workers, exactly one message is due -/
structure Good (s : State N) : Prop extends Inv s where
  due : 0 < N → s.done_count.integer = N → s.due = 1

theorem step_good {s t : State N} {a : Action N} (h : Good s) (hok : Ok s a) (hst : step s a = some t) : Good t := by
  refine ⟨step_inv h.toInv hst, fun hpos hN => ?_⟩
  by_cases hs : s.done_count.integer = N
  · rw [(step_due h.toInv hs hst).2]
    exact h.due hpos hs
  -- only the increment moves the counter
  rcases step_cases h.toInv hst with ⟨i, rfl, hpc, rfl⟩ | ⟨i, r, rfl, hpc, hne, rfl⟩ | ⟨i, rfl, hpc, hs', rfl⟩ |
    ⟨i, rfl, hpc, hs', rfl⟩ | ⟨i, rfl, hpc, rfl⟩ | ⟨m, rest, r, rfl, hin, rfl | rfl⟩
  · have hreach : s.done_count.integer + 1 = N := hN
    rw [(increment_due h.toInv hreach hst).2]
    have hnone : s.owed = 0 := by
      apply Finset.sum_eq_zero
      intro j _
      have h1 := hok hreach j
      have h2 := (h.early (by omega)).2 j
      cases hj : s.pc j <;> simp_all [Pc.owed]
    rw [hnone]
  all_goals exact absurd hN hs

theorem owed_of_finished {s : State N} (h : ∀ i, s.pc i = .finished) : s.due = s.sent.length := by
  simp [State.due, State.owed, h, Pc.owed]

/-- a message was sent only after every increment -/
theorem Inv.counter {s : State N} (h : Inv s) (hs : s.sent ≠ []) : s.done_count.integer = N := by
  have hle : s.done_count.integer ≤ N := by
    rw [h.count]
    exact_mod_cast s.counted_le
  rcases lt_or_eq_of_le hle with hlt | heq
  · exact absurd (h.early hlt).1 hs
  · exact heq

theorem all_finished_counter {s : State N} (h : Inv s) (hall : ∀ i, s.pc i = .finished) :
    s.done_count.integer = N := by
  rw [h.count]
  simp [State.counted, hall, Pc.counted]

theorem Good.once {s : State N} (h : Good s) : Announced s := by
  have hpos : ∀ i ∈ s.sent, 0 < N := fun i _ => i.pos
  have honce : s.sent.length ≤ 1 := by
    rcases List.eq_nil_or_concat s.sent with hnil | ⟨l, i, hl⟩
    · rw [hnil]
      exact Nat.zero_le 1
    · have hne : s.sent ≠ [] := by rw [hl]; simp
      have hdue := h.due (hpos i (by rw [hl]; simp)) (h.counter hne)
      unfold State.due at hdue
      omega
  refine ⟨honce, fun hs i => ?_, fun hN hall => ?_, h.passed, ?_⟩
  · have hcount : s.counted = N := by exact_mod_cast h.count.symm.trans (h.counter hs)
    exact all_counted hcount i
  · have hdue := h.due hN (all_finished_counter h.toInv hall)
    rw [owed_of_finished hall] at hdue
    exact List.length_eq_one_iff.1 hdue
  · have hp := h.passed
    omega

theorem init_good : Good (init N) where
  toInv := init_inv
  due hpos hN := by
    have h0 : (0 : ℤ) = N := hN
    omega

/-- **Server start is announced once** in every run whose last increment finds no other worker yet to read. -/
theorem announced_once (N : ℕ) (s : State N) (h : Reach step Ok (init N) s) : Announced s :=
  (h.inv init_good fun _ _ _ hs hok hst => step_good hs hok hst).once

/-- two workers, one after the other -/
theorem announced_once_two :
    ∃ s, Reach step Ok (init 2) s ∧ Announced s ∧ s.sent = [1] ∧ s.starts = 1 := by
  have hrun : (execIf step Ok (init 2)
      [.increment 0, .compare 0 true, .increment 1, .compare 1 true, .receive true]).any
        (fun s => decide (s.sent = [1] ∧ s.starts = 1)) := by decide +kernel
  obtain ⟨s, hs, hsent⟩ := Option.any_eq_true _ _ |>.1 hrun
  have hreach := Reach.of_execIf Reach.init hs
  exact ⟨s, hreach, announced_once 2 s hreach, of_decide_eq_true hsent⟩

/-- **The condition is exact.** When the increment that reaches `N` finds another worker yet to read, at least two
messages are sent by the time every worker has finished. -/
theorem announced_again {s t u : State N} {i j : Fin N} (h : Reach step always (init N) s)
    (hN : s.done_count.integer + 1 = N) (hj : s.pc j = .incremented) (hst : step s (.increment i) = some t)
    (hu : Reach step always t u) (hall : ∀ k, u.pc k = .finished) : 2 ≤ u.sent.length := by
  have hs := reach_inv h
  obtain ⟨htN, htdue⟩ := increment_due hs hN hst
  have hinv : Inv u ∧ u.done_count.integer = N ∧ u.due = t.due := by
    apply hu.inv ⟨step_inv hs hst, htN, rfl⟩
    intro v a w ⟨hv, hvN, hvdue⟩ _ hvw
    obtain ⟨hwN, hwdue⟩ := step_due hv hvN hvw
    exact ⟨step_inv hv hvw, hwN, hwdue.trans hvdue⟩
  have hone : (s.pc j).owed ≤ s.owed :=
    Finset.single_le_sum (f := fun k => (s.pc k).owed) (fun _ _ => Nat.zero_le _) (Finset.mem_univ j)
  rw [hj] at hone
  change 1 ≤ s.owed at hone
  rw [← owed_of_finished hall, hinv.2.2, htdue]
  omega

/-- **Two announcements.** Both workers increment before either reads: both send, and the start is broadcast twice. -/
theorem announced_twice : ∃ s, Reach step always (init 2) s ∧ ¬ Announced s ∧ s.sent = [1, 0] ∧ s.starts = 2 := by
  have hrun : (exec step (init 2)
      [.increment 0, .increment 1, .compare 0 true, .compare 1 true, .receive true, .receive true]).any
        (fun s => decide (s.sent = [1, 0] ∧ s.starts = 2)) := by decide +kernel
  obtain ⟨s, hs, hsent⟩ := Option.any_eq_true _ _ |>.1 hrun
  have hsent := of_decide_eq_true hsent
  refine ⟨s, Reach.of_exec hs, fun hann => ?_, hsent⟩
  have hone := hann.start
  rw [hsent.2] at hone
  exact absurd hone (by decide)

end Shuttlesock.ServerStart
