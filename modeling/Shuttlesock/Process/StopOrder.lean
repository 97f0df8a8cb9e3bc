/-
How the three levels of processes stop: `core_master_try_stop`, `core_manager_try_stop` and `core_*_stop` of `core.c`,
`shuso_stop`, `shuso_stop_manager`, `shuso_stop_worker`, `shuso_run` and `shuso_handle_sigchild` of `shuttlesock.c`, and the
SHUTDOWN command of `ipc_commands.c`.

Model: a master, a manager and `N` workers, each with its stop event (`StopEvent.lean`), the SHUTDOWN commands on their way
to each process and its timers of `shutdown_handle_cb`. The numbers of listeners that other modules (`lua_bridge`, `server`)
put before and after `core_*_stop` are any, and so is which of them delays at which call. One action is one callback of a
loop, one call of a listener, or one look of `core_manager_try_stop` at a worker; the processes interleave in any order. A
command may arrive at any process at any time. The manager may end at any point (it returned, or it was killed), and then
the master gets SIGCHLD, but only then: the child watcher does not trace.

Results:
- `ordered`: in every reachable state, a scheduled break of the manager means that every worker is DEAD, one of the
  master that the manager is DEAD, and no process has scheduled its break twice.
- `sound`: no assertion of `core_manager_try_stop` or `shuso_worker_shutdown` fails.
-/
import Shuttlesock.Core.Runs
import Shuttlesock.Process.StopEvent

namespace Shuttlesock.Stop

open Runs

/-! ## The system -/

/-- a process of the system -/
inductive Who (N : ℕ) where
  | master
  | manager
  | worker (j : Fin N)
deriving DecidableEq

/-- the processes that go through `shuso_run` -/
def Who.runs_loop {N : ℕ} : Who N → Bool
  | .worker _ => false
  | _ => true

/-- the stop listeners of other modules, before and after `core_*_stop` -/
structure Modules where
  master : ℕ × ℕ
  manager : ℕ × ℕ
  worker : ℕ × ℕ

variable {N : ℕ}

/-- the listeners of the stop event of a process -/
def Modules.listeners (M : Modules) : Who N → Listeners
  | .master => ⟨true, M.master.1, M.master.2⟩
  | .manager => ⟨true, M.manager.1, M.manager.2⟩
  | .worker _ => ⟨false, M.worker.1, M.worker.2⟩

structure Sys (N : ℕ) where
  proc : Who N → Proc
  /-- SHUTDOWN commands that are sent and not received -/
  inbox : Who N → ℕ
  /-- timers of `shutdown_handle_cb` -/
  shutdowns : Who N → ℕ

inductive Action (N : ℕ) where
  /-- some process sends the SHUTDOWN command: `shuso_stop` outside the master, `shuso_stop_manager` in the master,
  `shuso_stop_worker` for another process, `signal_handle` -/
  | send (w : Who N)
  /-- `shutdown_handle` -/
  | receive (w : Who N)
  /-- `shutdown_handle_cb` -/
  | shutdown (w : Who N)
  /-- the code of a process stops it: `shuso_stop` in the master, `shuso_stop_manager` in the manager,
  `shuso_stop_worker` in the worker -/
  | stop (w : Who N)
  /-- what is next in the stop event; a listener of another module delays or not -/
  | call (w : Who N) (delays : Bool)
  /-- the i-th delay timer fires -/
  | timer (w : Who N) (i : ℕ)
  /-- `stop_thing_callback` -/
  | breakLoop (w : Who N)
  /-- what follows `ev_run` -/
  | exit (w : Who N)
  /-- the master's `shuso_fork_manager` -/
  | fork
  /-- the manager is RUNNING, ahead of its loop -/
  | ready
  /-- `shuso_spawn_worker` -/
  | spawn (j : Fin N)
  /-- `shuso_run_worker`, to its loop -/
  | start (j : Fin N)
  /-- `shuso_run` of the master, or of the manager, comes to its start event; what that calls is taken as part of the
  loop that follows -/
  | enter (w : Who N)
  /-- it fails ahead of the loop -/
  | fail (w : Who N)
  /-- the manager's process ends -/
  | die
  /-- `shuso_handle_sigchild` in the master -/
  | sigchld
deriving DecidableEq

def Sys.set (s : Sys N) (w : Who N) (p : Proc) : Sys N := { s with proc := Function.update s.proc w p }

/-- one more SHUTDOWN command for w -/
def Sys.command (s : Sys N) (w : Who N) : Sys N := { s with inbox := Function.update s.inbox w (s.inbox w + 1) }

/-- `shuso_ipc_send_workers` of SHUTDOWN -/
def Sys.command_workers (s : Sys N) : Sys N :=
  { s with inbox := fun w => match w with
      | .worker j => s.inbox (.worker j) + 1
      | w => s.inbox w }

/-- the master is ahead of its loop, the others are not there -/
def init (N : ℕ) : Sys N where
  proc w := match w with
    | .master => .new .running .boot
    | _ => .new .nil .unborn
  inbox _ := 0
  shutdowns _ := 0

/-- a worker is a thread of the manager -/
def Sys.exists_for (s : Sys N) : Who N → Bool
  | .master => true
  | .manager => true
  | .worker _ => (s.proc .manager).run ≠ .down

/-- `shuso_stop` in the master -/
def shuso_stop (s : Sys N) : Sys N :=
  if (s.proc .master).state = .running then s.set .master (s.proc .master).publish else s

/-- `shuso_stop_manager` in the manager -/
def shuso_stop_manager (s : Sys N) : Sys N :=
  if (s.proc .manager).state = .running then s.set .manager (s.proc .manager).publish else s

/-- `shuso_stop_worker` in the worker -/
def shuso_stop_worker (s : Sys N) (j : Fin N) : Sys N :=
  if (s.proc (.worker j)).state = .running then
    s.set (.worker j) { (s.proc (.worker j)).publish with state := .stopping }
  else s

/-- a process stops itself -/
def Sys.stop (s : Sys N) : Who N → Sys N
  | .master => shuso_stop s
  | .manager => shuso_stop_manager s
  | .worker j => shuso_stop_worker s j

/-- `shutdown_handle_cb` -/
def shutdown_handle_cb (s : Sys N) (w : Who N) : Sys N := if (s.proc w).state = .stopping then s else s.stop w

/-- the state that `core_*_try_stop` leaves -/
def Proc.turned (p : Proc) : Proc := if p.state = .running then { p with state := .stopping } else p

/-- `core_master_try_stop` -/
def core_master_try_stop (s : Sys N) : Sys N :=
  let p := (s.proc .master).turned
  let s := if (s.proc .manager).state = .running then s.command .manager else s
  if (s.proc .manager).state ≠ .dead then s.set .master (p.delay 0) else s.set .master (p.proceed 0)

/-- `core_manager_try_stop`, to its loop over the workers -/
def core_manager_try_stop (s : Sys N) : Sys N :=
  let p := (s.proc .manager).turned
  let s := if (s.proc .manager).state = .running then s.command_workers else s
  if p.state = .stopping then s.set .manager { p with run := .scan 0 true } else s.set .manager p.abort

/-- the next thing `core_manager_try_stop` does when it is at the worker j: a stopped worker is joined, and counts as dead
from there on -/
def scan (s : Sys N) (j : ℕ) (all : Bool) : Sys N :=
  if h : j < N then
    let w := s.proc (.worker ⟨j, h⟩)
    let t := s.set .manager { s.proc .manager with run := .look j all }
    if w.state = .stopped then t.set (.worker ⟨j, h⟩) { w with state := .dead } else t
  else if all then s.set .manager ((s.proc .manager).proceed 0)
  else s.set .manager ((s.proc .manager).delay 0)

/-- whether it is dead decides the flag -/
def look (s : Sys N) (j : ℕ) (all : Bool) : Sys N :=
  if h : j < N then
    s.set .manager { s.proc .manager with
      run := .scan (j + 1) (all && (s.proc (.worker ⟨j, h⟩)).state == .dead) }
  else s

/-- what is next in the stop event of w -/
def call (M : Modules) (s : Sys N) (w : Who N) (delays : Bool) : Option (Sys N) :=
  let L := M.listeners w
  let p := s.proc w
  match p.run with
  | .listener k =>
    if L.tries ∧ k = 0 then
      match w with
      | .master => some (core_master_try_stop s)
      | .manager => some (core_manager_try_stop s)
      | .worker _ => none
    else if k = L.stopAt then some (s.set w (p.stop k))
    else if k < L.count then some (s.set w (p.other k delays))
    else some (s.set w p.finish)
  | .scan j all => if w = .manager then some (scan s j all) else none
  | .look j all => if w = .manager then some (look s j all) else none
  | _ => none

/-- what follows `ev_run`; a worker's `shuso_worker_shutdown` is the end of its thread -/
def exit (s : Sys N) : Who N → Sys N
  | .worker j =>
    let p := s.proc (.worker j)
    if p.state = .stopping then s.set (.worker j) { p with state := .stopped, run := .down }
    else s.set (.worker j) p.abort
  | w => s.set w { s.proc w with state := .stopped, run := .returned }

def step (M : Modules) (s : Sys N) : Action N → Option (Sys N)
  | .send w => some (s.command w)
  | .receive w =>
    if s.exists_for w ∧ (s.proc w).run = .idle ∧ 0 < s.inbox w then
      some { s with inbox := Function.update s.inbox w (s.inbox w - 1),
                    shutdowns := Function.update s.shutdowns w (s.shutdowns w + 1) }
    else none
  | .shutdown w =>
    if s.exists_for w ∧ (s.proc w).run = .idle ∧ 0 < s.shutdowns w then
      some (shutdown_handle_cb { s with shutdowns := Function.update s.shutdowns w (s.shutdowns w - 1) } w)
    else none
  -- within its stop event a process is STOPPING, and this does nothing
  | .stop w => if s.exists_for w ∧ (s.proc w).run = .idle then some (s.stop w) else none
  | .call w delays => if s.exists_for w then call M s w delays else none
  | .timer w i =>
    if s.exists_for w ∧ (s.proc w).run = .idle then ((s.proc w).timer i).map (s.set w) else none
  | .breakLoop w =>
    if s.exists_for w ∧ (s.proc w).run = .idle ∧ 0 < (s.proc w).breaks then
      some (s.set w { s.proc w with run := .left })
    else none
  | .exit w => if s.exists_for w ∧ (s.proc w).run = .left then some (exit s w) else none
  | .fork =>
    if (s.proc .master).run = .boot ∧ (s.proc .manager).run = .unborn then
      some (s.set .manager (.new .starting .boot))
    else none
  | .ready =>
    if (s.proc .manager).run = .boot ∧ (s.proc .manager).state = .starting then
      some (s.set .manager { s.proc .manager with state := .running })
    else none
  | .spawn j =>
    if (s.proc .manager).run = .boot ∧ (s.proc .manager).state = .running ∧ (s.proc (.worker j)).run = .unborn then
      some (s.set (.worker j) (.new .starting .boot))
    else none
  | .start j =>
    if s.exists_for (.worker j) ∧ (s.proc (.worker j)).run = .boot ∧ (s.proc (.worker j)).state = .starting then
      some (s.set (.worker j) { s.proc (.worker j) with state := .running, run := .idle })
    else none
  | .enter w =>
    if w.runs_loop ∧ (s.proc w).run = .boot ∧ (s.proc w).state = .running ∧ (s.proc .manager).run ≠ .unborn then
      some (s.set w { s.proc w with run := .idle })
    else none
  | .fail w =>
    if w.runs_loop ∧ ((s.proc w).run = .boot ∨ (s.proc w).run = .idle) then
      some (s.set w { s.proc w with state := .dead, run := .returned })
    else none
  | .die =>
    if (s.proc .manager).run ≠ .unborn ∧ (s.proc .manager).run ≠ .down then
      some (s.set .manager { s.proc .manager with run := .down })
    else none
  | .sigchld =>
    if (s.proc .master).run = .idle ∧ (s.proc .manager).run = .down then
      some (s.set .manager { s.proc .manager with state := .dead })
    else none

/-- **The property.** The order in which the processes schedule the breaks of their loops. -/
structure Ordered (s : Sys N) : Prop where
  manager : 0 < (s.proc .manager).breaks → ∀ j, (s.proc (.worker j)).state = .dead
  master : 0 < (s.proc .master).breaks → (s.proc .manager).state = .dead
  once : ∀ w, (s.proc w).breaks ≤ 1

/-! ## The invariant -/

/-- how many processes w waits for, and whether the first n of them are DEAD -/
def height : Who N → ℕ
  | .manager => N
  | _ => 0

def below (s : Sys N) : Who N → ℕ → Prop
  | .master => fun _ => (s.proc .manager).state = .dead
  | .manager => fun n => ∀ i : Fin N, i < n → (s.proc (.worker i)).state = .dead
  | .worker _ => fun _ => True

/-- every process is in order -/
def Good (M : Modules) (s : Sys N) : Prop := ∀ w, (s.proc w).Good (M.listeners w) (height w) (below s w)

variable {M : Modules} {s t : Sys N}

@[simp] theorem set_same (s : Sys N) (w : Who N) (p : Proc) : (s.set w p).proc w = p := Function.update_self ..

theorem set_other (s : Sys N) {w v : Who N} (h : v ≠ w) (p : Proc) : (s.set w p).proc v = s.proc v :=
  Function.update_of_ne h ..

/-- what w waits for is DEAD after a step too when the step leaves who is DEAD so -/
theorem below_mono (hdead : ∀ w, (s.proc w).state = .dead → (t.proc w).state = .dead) (w : Who N) (n : ℕ)
    (h : below s w n) : below t w n := by
  cases w with
  | master => exact hdead _ h
  | manager => exact fun i hi => hdead _ (h i hi)
  | worker _ => trivial

/-- **One process moves.** The others keep the invariant as long as who is DEAD stays DEAD. -/
theorem Good.set (h : Good M s) {w : Who N} {p : Proc} (hp : p.Good (M.listeners w) (height w) (below s w))
    (hdead : (s.proc w).state = .dead → p.state = .dead) : Good M (s.set w p) := by
  have hstay : ∀ v, (s.proc v).state = .dead → ((s.set w p).proc v).state = .dead := by
    intro v hv
    rcases eq_or_ne v w with rfl | hne
    · rw [set_same]
      exact hdead hv
    · rw [set_other s hne]
      exact hv
  intro v
  rcases eq_or_ne v w with rfl | hne
  · rw [set_same]
    exact hp.mono (below_mono hstay v)
  · rw [set_other s hne]
    exact (h v).mono (below_mono hstay v)

/-- commands and shutdown timers are not part of the invariant -/
theorem Good.of_proc (h : Good M s) (heq : t.proc = s.proc) : Good M t := by
  intro w
  rw [heq]
  apply (h w).mono
  apply below_mono
  intro v hv
  rw [heq]
  exact hv

theorem init_good : Good M (init N) := by
  intro w
  cases w with
  | master => exact .new _ _ _ trivial trivial (by decide)
  | manager => exact .new _ _ _ trivial trivial (by decide)
  | worker j => exact .new _ _ _ trivial trivial (by decide)

/-! ## Every step keeps it -/

/-- a process whose code is at work is not DEAD -/
theorem Good.not_dead (h : Good M s) {w : Who N} (hrun : ¬ (s.proc w).run.gone) {P : Prop} (hd : (s.proc w).state = .dead) :
    P :=
  absurd ((h w).gone (.inl hd)) hrun

theorem shuso_stop_good (h : Good M s) : Good M (shuso_stop s) := by
  unfold shuso_stop
  split
  · rename_i hs
    exact h.set ((h .master).publish hs rfl rfl rfl rfl (.inr ⟨hs, rfl⟩)) id
  · exact h

theorem shuso_stop_manager_good (h : Good M s) : Good M (shuso_stop_manager s) := by
  unfold shuso_stop_manager
  split
  · rename_i hs
    exact h.set ((h .manager).publish hs rfl rfl rfl rfl (.inr ⟨hs, rfl⟩)) id
  · exact h

theorem shuso_stop_worker_good (h : Good M s) (j : Fin N) : Good M (shuso_stop_worker s j) := by
  unfold shuso_stop_worker
  split
  · rename_i hs
    have hp := (h (.worker j)).publish (q := { (s.proc (.worker j)).publish with state := .stopping })
      hs rfl rfl rfl rfl (.inl rfl)
    apply h.set hp
    intro hd
    rw [hs] at hd
    cases hd
  · exact h

theorem Good.stop (h : Good M s) (w : Who N) : Good M (s.stop w) := by
  cases w with
  | master => exact shuso_stop_good h
  | manager => exact shuso_stop_manager_good h
  | worker j => exact shuso_stop_worker_good h j

theorem shutdown_handle_cb_good (h : Good M s) (w : Who N) : Good M (shutdown_handle_cb s w) := by
  unfold shutdown_handle_cb
  split
  · exact h
  · exact h.stop w

/-- the first listener of a stop event with a `try_stop` turns the process STOPPING -/
theorem turned_good {p : Proc} {L : Listeners} {n : ℕ} {B : ℕ → Prop} (h : p.Good L n B) (hrun : p.run = .listener 0) :
    p.turned.Good L n B ∧ p.turned.state = .stopping ∧ p.turned.run = .listener 0 := by
  unfold Proc.turned
  rcases h.first hrun with hs | hs
  · rw [if_pos hs]
    exact ⟨h.turn, rfl, hrun⟩
  · rw [if_neg (by rw [hs]; decide)]
    exact ⟨h, hs, hrun⟩

theorem core_master_try_stop_good (h : Good M s) (hrun : (s.proc .master).run = .listener 0) :
    Good M (core_master_try_stop s) := by
  obtain ⟨hp, hs, hr⟩ := turned_good (h .master) hrun
  have hahead : (s.proc .master).turned.run.ahead (M.listeners (N := N) .master).stopAt = 1 := by
    rw [hr, Run.ahead_first]
  have hactive : (s.proc .master).state = .dead → (s.proc .master).turned.state = .dead :=
    h.not_dead (by rw [hrun]; exact fun hg => hg)
  unfold core_master_try_stop
  -- the command to the manager is outside of the invariant
  set u := if (s.proc .manager).state = .running then s.command .manager else s with hu
  have hproc : u.proc = s.proc := by
    rw [hu]
    split <;> rfl
  have hgood : Good M u := h.of_proc hproc
  have hbelow : below u .master = below s .master := by
    unfold below
    rw [hproc]
  rw [← hproc] at hactive hp hs hahead ⊢
  rw [← hbelow] at hp
  dsimp only
  split
  · exact hgood.set (hp.wait hs hahead) hactive
  · rename_i hdead
    rw [not_not] at hdead
    exact hgood.set (hp.pass hs hahead rfl hdead) hactive

theorem core_manager_try_stop_good (h : Good M s) (hrun : (s.proc .manager).run = .listener 0) :
    Good M (core_manager_try_stop s) := by
  obtain ⟨hp, hs, hr⟩ := turned_good (h .manager) hrun
  have hahead : (s.proc .manager).turned.run.ahead (M.listeners (N := N) .manager).stopAt = 1 := by
    rw [hr, Run.ahead_first]
  have hactive : (s.proc .manager).state = .dead → (s.proc .manager).turned.state = .dead :=
    h.not_dead (by rw [hrun]; exact fun hg => hg)
  unfold core_manager_try_stop
  set u := if (s.proc .manager).state = .running then s.command_workers else s with hu
  have hproc : u.proc = s.proc := by
    rw [hu]
    split <;> rfl
  have hgood : Good M u := h.of_proc hproc
  have hbelow : below u .manager = below s .manager := by
    unfold below
    rw [hproc]
  rw [← hproc] at hactive hp hs hahead ⊢
  rw [← hbelow] at hp
  dsimp only
  rw [if_pos hs]
  exact hgood.set (hp.within hs hahead (.inl rfl) fun _ i hi => absurd hi (Nat.not_lt_zero _)) hactive

/-- in the loop over the workers the manager is STOPPING -/
theorem scan_stopping (h : Good M s) {j : ℕ} {all : Bool}
    (hrun : (s.proc .manager).run = .scan j all ∨ (s.proc .manager).run = .look j all) :
    (s.proc .manager).state = .stopping ∧
      (s.proc .manager).run.ahead (M.listeners (N := N) .manager).stopAt = 1 := by
  rcases hrun with hrun | hrun
  · refine ⟨(h .manager).stopping ?_ (.inl ?_), ?_⟩ <;> rw [hrun]
    · exact fun hq => hq
    · exact fun heq => by cases heq
    · rfl
  · refine ⟨(h .manager).stopping ?_ (.inl ?_), ?_⟩ <;> rw [hrun]
    · exact fun hq => hq
    · exact fun heq => by cases heq
    · rfl

theorem scan_good (h : Good M s) {j : ℕ} {all : Bool} (hrun : (s.proc .manager).run = .scan j all) :
    Good M (scan s j all) := by
  obtain ⟨hs, hahead⟩ := scan_stopping h (.inl hrun)
  have hall : all = true → below s .manager j := fun ht => (h .manager).scan j (.inl (ht ▸ hrun))
  unfold scan
  split
  · rename_i hj
    have hgood := h.set ((h .manager).within hs hahead (.inr rfl) hall) id
    dsimp only
    split
    · rename_i hstopped
      -- the thread of a stopped worker is at its end, so nothing writes its state again
      have hworker := h (.worker ⟨j, hj⟩)
      have hgone : (s.proc (.worker ⟨j, hj⟩)).run.gone := hworker.gone (.inr hstopped)
      refine hgood.set (hworker.quiet rfl rfl rfl hgone.quiet (fun hf => hf.elim) (fun _ => hgone) fun hl => ?_)
        fun _ => rfl
      change (s.proc (.worker ⟨j, hj⟩)).run = .left at hl
      rw [hl] at hgone
      exact hgone.elim
    · exact hgood
  · rename_i hj
    have hN : N ≤ j := Nat.le_of_not_lt hj
    split
    · rename_i ht
      refine h.set ((h .manager).pass hs hahead rfl fun i _ => ?_) id
      exact hall ht i (lt_of_lt_of_le i.isLt hN)
    · exact h.set ((h .manager).wait hs hahead) id

theorem look_good (h : Good M s) {j : ℕ} {all : Bool} (hrun : (s.proc .manager).run = .look j all) :
    Good M (look s j all) := by
  obtain ⟨hs, hahead⟩ := scan_stopping h (.inr hrun)
  unfold look
  split
  · rename_i hj
    refine h.set ((h .manager).within hs hahead (.inl rfl) fun hboth i hi => ?_) id
    rw [Bool.and_eq_true, beq_iff_eq] at hboth
    obtain ⟨ht, hdead⟩ := hboth
    rcases Nat.lt_succ_iff_lt_or_eq.1 hi with hlt | heq
    · exact (h .manager).scan j (.inr (ht ▸ hrun)) i hlt
    · obtain rfl : i = ⟨j, hj⟩ := Fin.ext heq
      exact hdead
  · exact h

/-- nobody waits below a worker -/
theorem below_worker {w : Who N} (hw : (M.listeners w).tries = false) (n : ℕ) : below s w n := by
  cases w with
  | worker j => trivial
  | _ => cases hw

theorem call_good (h : Good M s) {w : Who N} {d : Bool} (hst : call M s w d = some t) : Good M t := by
  unfold call at hst
  dsimp only at hst
  split at hst
  · rename_i k hrun
    split at hst
    · rename_i hfirst
      obtain ⟨-, rfl⟩ := hfirst
      cases w with
      | master => cases hst; exact core_master_try_stop_good h hrun
      | manager => cases hst; exact core_manager_try_stop_good h hrun
      | worker j => cases hst
    · rename_i hfirst
      split at hst
      · rename_i hk
        cases hst
        rw [hk] at hrun ⊢
        exact h.set ((h w).stop hrun fun ht => below_worker ht _) id
      · rename_i hk
        split at hst
        · cases hst
          have hpos : (M.listeners w).tries = true → 0 < k := fun ht => Nat.pos_of_ne_zero fun h0 => hfirst ⟨ht, h0⟩
          refine h.set ((h w).other hrun hk hpos (fun ht => below_worker ht _) d) fun hd => ?_
          exact h.not_dead (by rw [hrun]; exact fun hg => hg) hd
        · rename_i hcount
          cases hst
          have hlt : (M.listeners w).stopAt < k := by
            unfold Listeners.count at hcount
            omega
          exact h.set ((h w).finish hrun hlt) id
  · rename_i j all hrun
    split at hst
    · rename_i hw
      subst hw
      cases hst
      exact scan_good h hrun
    · cases hst
  · rename_i j all hrun
    split at hst
    · rename_i hw
      subst hw
      cases hst
      exact look_good h hrun
    · cases hst
  · cases hst

theorem exit_good (h : Good M s) {w : Who N} (hrun : (s.proc w).run = .left) : Good M (exit s w) := by
  have hs : (s.proc w).state = .stopping := (h w).left hrun
  have hnot : ∀ {P : Prop}, (s.proc w).state = .dead → P := h.not_dead (by rw [hrun]; exact fun hg => hg)
  cases w with
  | worker j =>
    simp only [exit]
    rw [if_pos hs]
    exact h.set ((h _).quiet rfl rfl rfl trivial (fun hf => hf.elim) (fun _ => trivial) fun hl => by cases hl) hnot
  | master =>
    exact h.set ((h _).quiet rfl rfl rfl trivial (fun hf => hf.elim) (fun _ => trivial) fun hl => by cases hl) hnot
  | manager =>
    exact h.set ((h _).quiet rfl rfl rfl trivial (fun hf => hf.elim) (fun _ => trivial) fun hl => by cases hl) hnot

/-- a process that was STARTING is RUNNING, ahead of its loop or in it -/
theorem booted {p : Proc} {L : Listeners} {n : ℕ} {B : ℕ → Prop} {r : Run} (h : p.Good L n B)
    (hr : r = .boot ∨ r = .idle) (hs : p.state = .starting) :
    ({ p with state := .running, run := r } : Proc).Good L n B := by
  refine h.quiet rfl rfl rfl ?_ (fun _ => hs ▸ trivial) (fun hg => by simp at hg) fun hl => ?_
  · rcases hr with rfl | rfl <;> trivial
  · rcases hr with rfl | rfl <;> cases hl

/-- **One step.** -/
theorem step_good {a : Action N} (h : Good M s) (hst : step M s a = some t) : Good M t := by
  cases a with
  | send w =>
    cases hst
    exact h.of_proc rfl
  | receive w =>
    obtain ⟨-, rfl⟩ := Option.ite_none_right_eq_some.1 hst |>.imp id Option.some.inj
    exact h.of_proc rfl
  | shutdown w =>
    obtain ⟨-, rfl⟩ := Option.ite_none_right_eq_some.1 hst |>.imp id Option.some.inj
    apply shutdown_handle_cb_good
    exact h.of_proc rfl
  | stop w =>
    obtain ⟨-, rfl⟩ := Option.ite_none_right_eq_some.1 hst |>.imp id Option.some.inj
    exact h.stop w
  | call w delays => exact call_good h (Option.ite_none_right_eq_some.1 hst).2
  | timer w i =>
    obtain ⟨⟨-, hrun⟩, hst⟩ := Option.ite_none_right_eq_some.1 hst
    obtain ⟨q, hq, rfl⟩ := Option.map_eq_some_iff.1 hst
    refine h.set ((h w).timer hrun hq) ?_
    exact h.not_dead (by rw [hrun]; exact fun hg => hg)
  | breakLoop w =>
    obtain ⟨⟨-, hrun, hb⟩, rfl⟩ := Option.ite_none_right_eq_some.1 hst |>.imp id Option.some.inj
    have hs := (h w).idle_stopping hrun (.inl hb)
    refine h.set ((h w).quiet rfl rfl rfl trivial id (fun hg => ?_) fun _ => hs) id
    have hgone := (h w).gone hg
    rw [hrun] at hgone
    exact hgone.elim
  | exit w =>
    obtain ⟨⟨-, hrun⟩, rfl⟩ := Option.ite_none_right_eq_some.1 hst |>.imp id Option.some.inj
    exact exit_good h hrun
  | fork =>
    obtain ⟨⟨-, hrun⟩, rfl⟩ := Option.ite_none_right_eq_some.1 hst |>.imp id Option.some.inj
    refine h.set (.new _ _ _ ?_ trivial (by decide)) ?_
    · trivial
    · exact h.not_dead (by rw [hrun]; exact fun hg => hg)
  | ready =>
    obtain ⟨⟨hrun, hs⟩, rfl⟩ := Option.ite_none_right_eq_some.1 hst |>.imp id Option.some.inj
    exact h.set (booted (h .manager) (.inl hrun) hs) fun hd => by rw [hs] at hd; cases hd
  | spawn j =>
    obtain ⟨⟨-, -, hrun⟩, rfl⟩ := Option.ite_none_right_eq_some.1 hst |>.imp id Option.some.inj
    refine h.set (.new _ _ _ ?_ trivial (by decide)) ?_
    · trivial
    · exact h.not_dead (by rw [hrun]; exact fun hg => hg)
  | start j =>
    obtain ⟨⟨-, -, hs⟩, rfl⟩ := Option.ite_none_right_eq_some.1 hst |>.imp id Option.some.inj
    exact h.set (booted (h _) (.inr rfl) hs) fun hd => by rw [hs] at hd; cases hd
  | enter w =>
    obtain ⟨⟨-, hrun, hs, -⟩, rfl⟩ := Option.ite_none_right_eq_some.1 hst |>.imp id Option.some.inj
    refine h.set ((h w).quiet rfl rfl rfl trivial id (fun hg => ?_) fun hl => by cases hl) id
    change (s.proc w).state = _ ∨ (s.proc w).state = _ at hg
    rw [hs] at hg
    simp at hg
  | fail w =>
    obtain ⟨-, rfl⟩ := Option.ite_none_right_eq_some.1 hst |>.imp id Option.some.inj
    exact h.set ((h w).quiet rfl rfl rfl trivial (fun hf => hf.elim) (fun _ => trivial) fun hl => by cases hl)
      fun _ => rfl
  | die =>
    obtain ⟨-, rfl⟩ := Option.ite_none_right_eq_some.1 hst |>.imp id Option.some.inj
    exact h.set ((h .manager).quiet rfl rfl rfl trivial id (fun _ => trivial) fun hl => by cases hl) id
  | sigchld =>
    obtain ⟨⟨-, hrun⟩, rfl⟩ := Option.ite_none_right_eq_some.1 hst |>.imp id Option.some.inj
    refine h.set ((h .manager).quiet rfl rfl rfl ?_ (fun hf => hf.elim) (fun _ => ?_) fun hl => ?_) fun _ => rfl
    · change (s.proc .manager).run.quiet
      rw [hrun]
      trivial
    · change (s.proc .manager).run.gone
      rw [hrun]
      trivial
    · change (s.proc .manager).run = .left at hl
      rw [hrun] at hl
      cases hl

/-! ## The order of the breaks -/

theorem Good.in_order (h : Good M s) : Ordered s where
  manager hb j := (h .manager).passed (.inl hb) j j.isLt
  master hb := (h .master).passed (.inl hb)
  once w := (Nat.le_add_left _ _).trans (h w).ahead

theorem reach_good (h : Reach (step M) always (init N) s) : Good M s :=
  h.inv init_good fun _ _ _ hs _ hst => step_good hs hst

/-- **No assertion fails.** -/
theorem sound (h : Reach (step M) always (init N) s) (w : Who N) : (s.proc w).aborted = false := (reach_good h w).sound

end Shuttlesock.Stop
