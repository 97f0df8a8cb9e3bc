/-
How the manager learns that all workers run: `worker_started_handle` of `ipc_commands.c`, and the states of a worker in
`shuso_spawn_worker`, `shuso_run_worker`, `shuso_stop_worker` and `shuso_worker_shutdown` of `shuttlesock.c`.

A worker sends WORKER_STARTED to the manager once it is RUNNING. For each of these messages the manager looks at the states of
all workers. If all are RUNNING and it has not done so before, it sends ALL_WORKERS_STARTED to the master, publishes
`manager.workers_started`, and sends ALL_WORKERS_STARTED to each worker.

Model: `N` workers, any number. One action is one step of a worker, one message, or one operation of the manager: a load of one
worker's state, one message sent, the publishing of the event, or the end of its listeners. The processes interleave in any
order, also while the listeners run, which is code of modules: it may take any time, and may itself send WORKER_STARTED, as
modules may everywhere. It does not run the loop of the manager a second time: that loop has one watcher for its messages,
which raises SIGABRT when it is entered from within its own handler.
- `log`: what the manager has sent and published, each with the states of the workers at that moment.
- `left`: the workers that have left RUNNING since the manager last read their state.

Results:
- `announced`: in every reachable state, nothing was sent or published twice, and all of it in states in which every worker had
  reached RUNNING and only those had left it that did so after the manager, handling this message, had read their state.
- `published_while_stopping`: the event published while a worker stops.
-/
import Shuttlesock.Core.Runs
import Shuttlesock.Process.StopEvent

namespace Shuttlesock.Started

open Runs Stop

/-! ## The model -/

/-- what a worker does next to its state -/
def next_state : RunState → Option RunState
  -- shuso_spawn_worker
  | .nil => some .starting
  -- shuso_run_worker
  | .starting => some .running
  -- shuso_stop_worker
  | .running => some .stopping
  -- shuso_worker_shutdown
  | .stopping => some .stopped
  -- core_manager_try_stop
  | .stopped => some .dead
  | .dead => none

/-- where the manager is in `worker_started_handle` -/
inductive Phase where
  | idle
  /-- the loop over the workers, with `all_workers_running` -/
  | check (i : ℕ) (all_workers_running : Bool)
  | toMaster
  | publish
  /-- the listeners of the event -/
  | listeners
  | toWorker (i : ℕ)
  | finish
deriving DecidableEq

inductive Sent (N : ℕ) where
  /-- ALL_WORKERS_STARTED to the master -/
  | master
  /-- the event `manager.workers_started` -/
  | published
  /-- ALL_WORKERS_STARTED to a worker -/
  | worker (i : Fin N)
deriving DecidableEq

structure Entry (N : ℕ) where
  what : Sent N
  workers : Fin N → RunState
  left : Fin N → Bool

structure State (N : ℕ) where
  worker : Fin N → RunState
  /-- the workers that have sent their WORKER_STARTED -/
  told : Fin N → Bool
  /-- WORKER_STARTED messages that are not handled -/
  inbox : ℕ
  phase : Phase
  /-- `S->common->process.all_workers_running` -/
  all_workers_running : Bool
  left : Fin N → Bool
  /-- oldest first -/
  log : List (Entry N)

inductive Action (N : ℕ) where
  | worker (i : Fin N)
  | started (i : Fin N)
  /-- a module sends WORKER_STARTED -/
  | post
  | handle
  /-- the next operation of the manager -/
  | advance

variable {N : ℕ}

def init (N : ℕ) : State N := ⟨fun _ => .nil, fun _ => false, 0, .idle, false, fun _ => false, []⟩

def State.record (s : State N) (what : Sent N) : List (Entry N) := s.log ++ [⟨what, s.worker, s.left⟩]

/-- `worker_started_handle` -/
def worker_started_handle (s : State N) : Option (State N) :=
  match s.phase with
  | .idle => none
  | .check i false => some { s with phase := if i < N then .check (i + 1) false else .idle }
  | .check i true =>
    if h : i < N then
      some { s with phase := .check (i + 1) (s.worker ⟨i, h⟩ = .running), left := Function.update s.left ⟨i, h⟩ false }
    else if s.all_workers_running then some { s with phase := .finish }
    else some { s with phase := .toMaster }
  | .toMaster => some { s with phase := .publish, log := s.record .master }
  | .publish => some { s with phase := .listeners, log := s.record .published }
  | .listeners => some { s with phase := .toWorker 0 }
  | .toWorker i =>
    if h : i < N then some { s with phase := .toWorker (i + 1), log := s.record (.worker ⟨i, h⟩) }
    else some { s with phase := .finish }
  | .finish => some { s with phase := .idle, all_workers_running := true }

def step (s : State N) : Action N → Option (State N)
  | .worker i => (next_state (s.worker i)).map fun x =>
      { s with worker := Function.update s.worker i x, left := Function.update s.left i (s.left i || s.worker i = .running) }
  | .started i =>
    if s.worker i ≠ .nil ∧ s.worker i ≠ .starting ∧ s.told i = false then
      some { s with told := Function.update s.told i true, inbox := s.inbox + 1 }
    else none
  | .post => some { s with inbox := s.inbox + 1 }
  | .handle =>
    if s.phase = .idle ∧ 0 < s.inbox then some { s with phase := .check 0 true, inbox := s.inbox - 1 } else none
  | .advance => worker_started_handle s

/-- RUNNING, or no more so since the manager saw it RUNNING -/
def Seen (w : RunState) (left : Bool) : Prop := w = .running ∨ left = true ∧ w ≠ .nil ∧ w ≠ .starting

/-- **The property** -/
structure Announced (s : State N) : Prop where
  once : (s.log.map Entry.what).Nodup
  after : ∀ e ∈ s.log, ∀ i, Seen (e.workers i) (e.left i)

/-! ## What the manager has said -/

/-- everything, in its order -/
def everything (N : ℕ) : List (Sent N) := .master :: .published :: (List.finRange N).map .worker

/-- how far it is -/
def Said (flag : Bool) (said : List (Sent N)) : Phase → Prop
  | .idle | .check _ _ => said = if flag then everything N else []
  | .toMaster => flag = false ∧ said = []
  | .publish => flag = false ∧ said = [.master]
  | .listeners => flag = false ∧ said = [.master, .published]
  | .toWorker i => flag = false ∧ said = .master :: .published :: ((List.finRange N).take i).map .worker
  | .finish => said = everything N

theorem everything_nodup : (everything N).Nodup := by
  have hworkers : ((List.finRange N).map Sent.worker).Nodup :=
    (List.nodup_finRange N).map fun i j h => Sent.worker.inj h
  refine List.nodup_cons.2 ⟨?_, List.nodup_cons.2 ⟨?_, hworkers⟩⟩
  · simp
  · simp

/-- what is said is the beginning of everything -/
theorem Said.initial {flag : Bool} {said : List (Sent N)} {phase : Phase} (h : Said flag said phase) :
    said <+: everything N := by
  cases phase with
  | idle | check =>
    change said = _ at h
    rw [h]
    split_ifs
    · exact List.prefix_rfl
    · exact List.nil_prefix
  | toMaster =>
    rw [h.2]
    exact List.nil_prefix
  | publish =>
    rw [h.2]
    exact ⟨_, rfl⟩
  | listeners =>
    rw [h.2]
    exact ⟨_, rfl⟩
  | toWorker i =>
    rw [h.2]
    have htake : ((List.finRange N).take i).map Sent.worker <+: (List.finRange N).map Sent.worker :=
      (List.take_prefix i _).map _
    exact List.cons_prefix_cons.2 ⟨rfl, List.cons_prefix_cons.2 ⟨rfl, htake⟩⟩
  | finish =>
    change said = _ at h
    rw [h]

/-! ## Reading the states -/

/-- how many workers the manager has seen RUNNING for this message -/
def Phase.seen (N : ℕ) : Phase → ℕ
  | .idle | .check _ false | .finish => 0
  | .check i true => i
  | .toMaster | .publish | .listeners | .toWorker _ => N

structure Inv (s : State N) : Prop where
  said : Said s.all_workers_running (s.log.map Entry.what) s.phase
  seen : ∀ i : Fin N, i.val < s.phase.seen N → Seen (s.worker i) (s.left i)
  after : ∀ e ∈ s.log, ∀ i, Seen (e.workers i) (e.left i)

/-- a worker that was seen goes on -/
theorem seen_next {w x : RunState} {left : Bool} (h : Seen w left) (hx : next_state w = some x) :
    Seen x (left || w = .running) := by
  rcases h with rfl | ⟨hleft, hnil, hstarting⟩
  · cases hx
    exact .inr ⟨by simp, by decide, by decide⟩
  · right
    rw [hleft]
    refine ⟨rfl, ?_⟩
    cases w with
    | nil => exact absurd rfl hnil
    | starting => exact absurd rfl hstarting
    | running | stopping | stopped =>
      cases hx
      exact ⟨by decide, by decide⟩
    | dead => cases hx

theorem worker_inv {s : State N} {i : Fin N} {x : RunState} (h : Inv s) (hx : next_state (s.worker i) = some x) :
    Inv { s with
      worker := Function.update s.worker i x
      left := Function.update s.left i (s.left i || s.worker i = .running) } := by
  refine ⟨h.said, fun j hj => ?_, h.after⟩
  have hseen := h.seen j hj
  rcases eq_or_ne j i with rfl | hne
  · dsimp only
    rw [Function.update_self, Function.update_self]
    exact seen_next hseen hx
  · dsimp only
    rw [Function.update_of_ne hne, Function.update_of_ne hne]
    exact hseen

/-- something is said when all workers were seen -/
theorem record_after {s : State N} (h : Inv s) (hN : s.phase.seen N = N) (what : Sent N) :
    ∀ e ∈ s.record what, ∀ i, Seen (e.workers i) (e.left i) := by
  intro e he i
  rcases List.mem_append.1 he with he | he
  · exact h.after e he i
  · rw [List.mem_singleton.1 he]
    exact h.seen i (hN.symm ▸ i.isLt)

theorem record_what (s : State N) (what : Sent N) : (s.record what).map Entry.what = s.log.map Entry.what ++ [what] :=
  List.map_append

/-- **The manager's step** -/
theorem handle_inv {s t : State N} (h : Inv s) (ht : worker_started_handle s = some t) : Inv t := by
  have hsaid := h.said
  have hseen := h.seen
  have hafter := record_after h
  unfold worker_started_handle at ht
  cases hp : s.phase with
  | idle =>
    rw [hp] at ht
    cases ht
  | check i all =>
    rw [hp] at ht hsaid hseen
    cases all with
    | false =>
      cases ht
      refine ⟨?_, fun j hj => ?_, h.after⟩
      · dsimp only
        split_ifs
        · exact hsaid
        · exact hsaid
      · dsimp only at hj
        split_ifs at hj
        · exact absurd hj (Nat.not_lt_zero _)
        · exact absurd hj (Nat.not_lt_zero _)
    | true =>
      dsimp only at ht
      split_ifs at ht with hi hflag
      · cases ht
        refine ⟨hsaid, fun j hj => ?_, h.after⟩
        -- the worker just read is RUNNING, or nothing is seen
        by_cases hrun : s.worker ⟨i, hi⟩ = .running
        · rcases eq_or_ne j ⟨i, hi⟩ with rfl | hne
          · exact .inl hrun
          · have hlt : j.val < i := by
              simp only [hrun, decide_true, Phase.seen] at hj
              have hval : j.val ≠ i := fun he => hne (Fin.ext he)
              omega
            dsimp only
            rw [Function.update_of_ne hne]
            exact hseen j hlt
        · simp only [hrun, decide_false, Phase.seen] at hj
          exact absurd hj (Nat.not_lt_zero _)
      · cases ht
        change _ = if s.all_workers_running then everything N else [] at hsaid
        rw [if_pos hflag] at hsaid
        exact ⟨hsaid, fun j hj => absurd hj (Nat.not_lt_zero _), h.after⟩
      · cases ht
        change _ = if s.all_workers_running then everything N else [] at hsaid
        rw [if_neg hflag] at hsaid
        exact ⟨⟨Bool.eq_false_iff.2 hflag, hsaid⟩, fun j _ => hseen j (lt_of_lt_of_le j.isLt (not_lt.1 hi)), h.after⟩
  | toMaster =>
    rw [hp] at ht hsaid hseen hafter
    cases ht
    refine ⟨⟨hsaid.1, ?_⟩, hseen, hafter rfl _⟩
    rw [record_what, hsaid.2]
    rfl
  | publish =>
    rw [hp] at ht hsaid hseen hafter
    cases ht
    refine ⟨⟨hsaid.1, ?_⟩, hseen, hafter rfl _⟩
    rw [record_what, hsaid.2]
    rfl
  | listeners =>
    rw [hp] at ht hsaid hseen
    cases ht
    exact ⟨hsaid, hseen, h.after⟩
  | toWorker i =>
    rw [hp] at ht hsaid hseen hafter
    dsimp only at ht
    split_ifs at ht with hi
    · cases ht
      refine ⟨⟨hsaid.1, ?_⟩, hseen, hafter rfl _⟩
      have htake : (List.finRange N).take (i + 1) = (List.finRange N).take i ++ [⟨i, hi⟩] := by
        rw [List.take_add_one, List.getElem?_eq_getElem (by simpa using hi), List.getElem_finRange]
        rfl
      rw [record_what, hsaid.2, htake, List.map_append]
      rfl
    · cases ht
      refine ⟨?_, fun j hj => absurd hj (Nat.not_lt_zero _), h.after⟩
      obtain ⟨-, hlog⟩ := hsaid
      rw [List.take_of_length_le (by simpa using hi)] at hlog
      exact hlog
  | finish =>
    rw [hp] at ht hsaid
    cases ht
    exact ⟨hsaid, fun j hj => absurd hj (Nat.not_lt_zero _), h.after⟩

theorem step_inv {s t : State N} {a : Action N} (h : Inv s) (hst : step s a = some t) : Inv t := by
  cases a with
  | worker i =>
    obtain ⟨x, hx, rfl⟩ := Option.map_eq_some_iff.1 hst
    exact worker_inv h hx
  | started i =>
    obtain ⟨-, heq⟩ := Option.ite_none_right_eq_some.1 hst
    cases heq
    exact ⟨h.said, h.seen, h.after⟩
  | post =>
    cases hst
    exact ⟨h.said, h.seen, h.after⟩
  | handle =>
    obtain ⟨hidle, heq⟩ := Option.ite_none_right_eq_some.1 hst
    cases heq
    have hsaid := h.said
    rw [hidle.1] at hsaid
    exact ⟨hsaid, fun j hj => absurd hj (Nat.not_lt_zero _), h.after⟩
  | advance => exact handle_inv h hst

theorem init_inv : Inv (init N) := by
  refine ⟨rfl, fun j hj => absurd hj (Nat.not_lt_zero _), fun e he => ?_⟩
  cases he

/-- **The start of all workers** is announced at most once, when all of them were seen RUNNING. -/
theorem announced (N : ℕ) (s : State N) (h : Reach step always (init N) s) : Announced s := by
  have hinv : Inv s := h.inv init_inv fun _ _ _ hs _ hst => step_inv hs hst
  exact ⟨everything_nodup.sublist hinv.said.initial.sublist, hinv.after⟩

/-- two workers, the second of which is late -/
theorem announced_two : ∃ s : State 2, Reach step always (init 2) s ∧ Announced s ∧
    s.log.map Entry.what = [.master, .published, .worker 0, .worker 1] ∧ ∀ e ∈ s.log, ∀ i, e.workers i = .running := by
  have hrun : (exec step (init 2) [.worker 0, .worker 0, .started 0, .handle, .advance, .advance, .advance, .worker 1,
      .worker 1, .started 1, .handle, .advance, .advance, .advance, .advance, .post, .advance, .advance, .advance, .advance,
      .advance, .advance, .handle, .advance, .advance, .advance, .advance]).any fun s =>
        decide (s.log.map Entry.what = [.master, .published, .worker 0, .worker 1] ∧
          ∀ e ∈ s.log, ∀ i, e.workers i = .running) := by decide +kernel
  obtain ⟨s, hs, hlog⟩ := Option.any_eq_true _ _ |>.1 hrun
  have hreach := Reach.of_exec hs
  exact ⟨s, hreach, announced 2 s hreach, of_decide_eq_true hlog⟩

/-- **A worker that stops in time.** The first worker stops after the manager has read its state, while it reads the other
one's: the event is published, and not all workers are RUNNING. -/
theorem published_while_stopping : ∃ s : State 2, Reach step always (init 2) s ∧
    ∃ e ∈ s.log, e.what = .published ∧ e.workers 0 = .stopping := by
  have hrun : (exec step (init 2) [.worker 0, .worker 0, .started 0, .worker 1, .worker 1, .handle, .advance, .worker 0,
      .advance, .advance, .advance, .advance]).any fun s =>
        decide (∃ e ∈ s.log, e.what = .published ∧ e.workers 0 = .stopping) := by decide +kernel
  obtain ⟨s, hs, hlog⟩ := Option.any_eq_true _ _ |>.1 hrun
  exact ⟨s, Reach.of_exec hs, of_decide_eq_true hlog⟩

end Shuttlesock.Started
