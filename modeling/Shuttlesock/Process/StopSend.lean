/-
The SHUTDOWN commands that the manager sends its workers, one by one: `shuso_ipc_send` and `shuso_ipc_send_workers` of `ipc.c`.

`shuso_ipc_send` refuses a process that is not at least STARTING. The loop of `shuso_ipc_send_workers` has
`ret = ret && shuso_ipc_send(..)`, so that it sends nothing more once a worker is refused. The manager calls it when it turns STOPPING,
and does not call it again.

Model: the processes, listeners and timers of `StopOrder.lean`, and of its actions those that send are taken apart here: a command to a
process that is refused is not sent, and the loop over the workers is the manager's next action as long as it is in that loop (`sending`).

Results:
- `Net.reach_fine`: in every reachable state the processes are as `StopOrder.lean` has them, and a process that is STOPPING and has not
  left its loop has exactly one run or timer ahead of `core_*_stop`, or one scheduled break.
-/
import Shuttlesock.Process.StopOrder

namespace Shuttlesock.Stop

open Runs

variable {N : ℕ}

/-! ## The model -/

/-- not `dst_state < SHUSO_STATE_STARTING` -/
def RunState.receives : RunState → Bool
  | .starting | .running | .stopping => true
  | .dead | .stopped | .nil => false

structure Net (N : ℕ) extends Sys N where
  /-- the worker that is next in the loop of `shuso_ipc_send_workers`, when the manager is in it -/
  sending : Option ℕ

namespace Net

def init (N : ℕ) : Net N := ⟨Stop.init N, none⟩

/-- `shuso_ipc_send` of SHUTDOWN, and what it returns -/
def shuso_ipc_send (x : Net N) (w : Who N) : Net N × Bool :=
  if (x.proc w).state.receives then (⟨x.command w, x.sending⟩, true) else (x, false)

/-- one round of `shuso_ipc_send_workers`; behind a refusal its rounds send nothing -/
def shuso_ipc_send_workers (x : Net N) (k : ℕ) : Net N :=
  if h : k < N then
    let (y, ret) := x.shuso_ipc_send (.worker ⟨k, h⟩)
    { y with sending := if ret then some (k + 1) else none }
  else { x with sending := none }

/-- what the manager does next: the loop that sends, or its stop event -/
def call_manager (M : Modules) (x : Net N) (delays : Bool) : Option (Net N) :=
  match x.sending with
  | some k => if (x.proc .manager).run = .scan 0 true then some (x.shuso_ipc_send_workers k) else none
  | none => (Stop.step M x.toSys (.call .manager delays)).map fun s =>
      -- `core_manager_try_stop` has turned it STOPPING
      if (x.proc .manager).run = .listener 0 ∧ (x.proc .manager).state = .running then ⟨{ s with inbox := x.inbox }, some 0⟩
      else ⟨s, none⟩

def step (M : Modules) (x : Net N) (a : Action N) : Option (Net N) :=
  match a with
  | .send w => some (x.shuso_ipc_send w).1
  | .call .manager delays => x.call_manager M delays
  | a => (Stop.step M x.toSys a).map fun s => ⟨s, x.sending⟩

end Net

variable {M : Modules} {s t : Sys N} {x y : Net N} {p q : Proc} {w : Who N} {k stop : ℕ}

/-! ## What it has of the system without the loop -/

theorem Net.shuso_ipc_send_proc (x : Net N) (w : Who N) : (x.shuso_ipc_send w).1.proc = x.proc := by
  unfold Net.shuso_ipc_send
  split <;> rfl

theorem Net.shuso_ipc_send_workers_proc (x : Net N) (k : ℕ) : (x.shuso_ipc_send_workers k).proc = x.proc := by
  unfold Net.shuso_ipc_send_workers
  split
  · exact x.shuso_ipc_send_proc _
  · rfl

/-- **The processes** do what they do in the system without the loop, or nothing. -/
theorem Net.step_proc {a : Action N} (h : x.step M a = some y) :
    y.proc = x.proc ∨ ∃ s, Stop.step M x.toSys a = some s ∧ y.proc = s.proc := by
  unfold Net.step at h
  split at h
  · cases h
    exact .inl (x.shuso_ipc_send_proc _)
  · rename_i delays
    unfold Net.call_manager at h
    split at h
    · obtain ⟨-, rfl⟩ := Option.ite_none_right_eq_some.1 h |>.imp id Option.some.inj
      exact .inl (x.shuso_ipc_send_workers_proc _)
    · obtain ⟨s, hs, rfl⟩ := Option.map_eq_some_iff.1 h
      refine .inr ⟨s, hs, ?_⟩
      split <;> rfl
  · obtain ⟨s, hs, rfl⟩ := Option.map_eq_some_iff.1 h
    exact .inr ⟨s, hs, rfl⟩

/-! ## A stop that is on its way -/

/-- the code of the process is in its loop -/
def Run.active : Run → Prop
  | .idle | .listener _ | .scan _ _ | .look _ _ | .left => True
  | _ => False

/-- one run or timer is ahead of `core_*_stop`, or one break is scheduled -/
def Proc.Stopping (stop : ℕ) (p : Proc) : Prop := p.state = .stopping ∧ p.ahead stop + p.breaks = 1

/-- what the code of the process w is at says of its state -/
def Proc.Live (M : Modules) (w : Who N) (p : Proc) : Prop :=
  match p.run with
  | .unborn => p.state = .nil ∧ w ≠ .master
  | .boot => p.state = .starting ∨ (p.state = .running ∧ w.runs_loop)
  | .idle => p.state = .running ∨ p.Stopping (M.listeners w).stopAt
  | .listener k => (p.state = .running ∧ k = 0) ∨ p.Stopping (M.listeners w).stopAt
  | .scan _ _ => w = .manager ∧ p.Stopping (M.listeners w).stopAt
  | .look k _ => w = .manager ∧ k < N ∧ p.Stopping (M.listeners w).stopAt
  | .left => p.state = .stopping ∧ 0 < p.breaks
  | .returned => (p.state = .stopped ∨ p.state = .dead) ∧ w.runs_loop
  | .down => w = .manager ∨ (w ≠ .master ∧ (p.state = .stopped ∨ p.state = .dead))

structure Live (M : Modules) (s : Sys N) : Prop where
  proc : ∀ w, (s.proc w).Live M w
  born : (s.proc .master).run.active → (s.proc .manager).run ≠ .unborn

/-! ### One process -/

namespace Proc.Stopping

/-- a run at the listener k takes the place of what was ahead -/
theorem listener (h : p.Stopping stop) (hs : q.state = p.state) (hd : q.delays = p.delays)
    (hq : q.run = .listener k) (hb : (if k ≤ stop then 1 else 0) + q.breaks = p.run.ahead stop + p.breaks) : q.Stopping stop := by
  refine ⟨hs.trans h.1, ?_⟩
  have hsum := h.2
  unfold Proc.ahead at hsum ⊢
  rw [hd, hq]
  change _ + (if k ≤ stop then 1 else 0) + _ = 1
  omega

theorem delay (h : p.Stopping stop) (hrun : p.run.ahead stop = if k ≤ stop then 1 else 0) : (p.delay k).Stopping stop := by
  refine ⟨h.1, ?_⟩
  have hsum := h.2
  unfold Proc.ahead at hsum ⊢
  rw [hrun] at hsum
  change (p.delays ++ [k]).countP _ + 0 + p.breaks = 1
  rw [List.countP_append, List.countP_singleton]
  simpa using hsum

theorem timer (h : p.Stopping stop) (hrun : p.run = .idle) {i : ℕ} (hk : p.delays[i]? = some k) :
    ({ p with run := .listener k, delays := p.delays.eraseIdx i } : Proc).Stopping stop := by
  refine ⟨h.1, ?_⟩
  have hperm : p.delays.Perm (k :: p.delays.eraseIdx i) := by
    obtain ⟨hi, rfl⟩ := List.getElem?_eq_some_iff.1 hk
    exact (List.getElem_cons_eraseIdx_perm hi).symm
  have hsum := h.2
  unfold Proc.ahead at hsum ⊢
  rw [hperm.countP_eq, List.countP_cons, hrun] at hsum
  simpa [Run.ahead] using hsum

/-- in the loop over the workers -/
theorem within (h : p.Stopping stop) (hrun : p.run.ahead stop = 1) {r : Run} (hr : r.ahead stop = 1) :
    ({ p with run := r } : Proc).Stopping stop := by
  refine ⟨h.1, ?_⟩
  have hsum := h.2
  unfold Proc.ahead at hsum ⊢
  rw [hrun] at hsum
  rw [hr]
  exact hsum

end Proc.Stopping

/-- a stop event that is published in a process that has not stopped before -/
theorem Proc.Good.published {L : Listeners} {n : ℕ} {below : ℕ → Prop} (h : p.Good L n below) (hs : p.state = .running) :
    ({ p.publish with state := .stopping } : Proc).Stopping L.stopAt := by
  obtain ⟨hd, hb, -⟩ := h.fresh (hs ▸ trivial)
  refine ⟨rfl, ?_⟩
  unfold Proc.ahead
  change p.delays.countP _ + (Run.listener 0).ahead L.stopAt + p.breaks = 1
  rw [hd, hb, Run.ahead_first]
  rfl

/-- the first call of `core_*_try_stop` turns the process -/
theorem Proc.Good.turned_stopping {L : Listeners} {n : ℕ} {below : ℕ → Prop} (h : p.Good L n below) (hrun : p.run = .listener 0)
    (hs : p.state = .running ∨ p.Stopping L.stopAt) : p.turned.Stopping L.stopAt ∧ p.turned.run = .listener 0 := by
  unfold Proc.turned
  rcases hs with hs | hs
  · rw [if_pos hs]
    have hpublished := h.published hs
    unfold Proc.publish at hpublished
    rw [← hrun] at hpublished
    exact ⟨hpublished, hrun⟩
  · rw [if_neg (by rw [hs.1]; decide)]
    exact ⟨hs, hrun⟩

theorem Live.listener (h : Live M s) (hrun : (s.proc w).run = .listener k) :
    ((s.proc w).state = .running ∧ k = 0) ∨ (s.proc w).Stopping (M.listeners w).stopAt := by
  have hp := h.proc w
  unfold Proc.Live at hp
  rwa [hrun] at hp

theorem Live.idle (h : Live M s) (hrun : (s.proc w).run = .idle) :
    (s.proc w).state = .running ∨ (s.proc w).Stopping (M.listeners w).stopAt := by
  have hp := h.proc w
  unfold Proc.Live at hp
  rwa [hrun] at hp

theorem Live.looping (h : Live M s) {j : ℕ} {all : Bool} (hrun : (s.proc w).run = .scan j all ∨ (s.proc w).run = .look j all) :
    (s.proc w).Stopping (M.listeners w).stopAt := by
  have hp := h.proc w
  unfold Proc.Live at hp
  rcases hrun with hrun | hrun
  · rw [hrun] at hp
    exact hp.2
  · rw [hrun] at hp
    exact hp.2.2

/-! ### The system -/

/-- **One process moves.** -/
theorem Live.set (h : Live M s) (hp : p.Live M w) (hborn : w = .master → p.run.active → (s.proc .manager).run ≠ .unborn)
    (hstay : w = .manager → p.run ≠ .unborn) : Live M (s.set w p) where
  proc v := by
    rcases eq_or_ne v w with rfl | hne
    · rwa [set_same]
    · rw [set_other s hne]
      exact h.proc v
  born hact := by
    cases w with
    | master =>
      rw [set_same] at hact
      rw [set_other s (by simp)]
      exact hborn rfl hact
    | manager =>
      rw [set_same]
      exact hstay rfl
    | worker j =>
      rw [set_other s (by simp)] at hact
      rw [set_other s (by simp)]
      exact h.born hact

/-- a process in its loop -/
theorem Live.move (h : Live M s) (hwas : (s.proc w).run.active) (hnow : p.run ≠ .unborn) (hp : p.Live M w) : Live M (s.set w p) := by
  refine h.set hp ?_ fun _ => hnow
  rintro rfl -
  exact h.born hwas

theorem Live.of_proc (h : Live M s) (heq : t.proc = s.proc) : Live M t := by
  constructor
  · intro w
    rw [heq]
    exact h.proc w
  · rw [heq]
    exact h.born

theorem init_live : Live M (init N) := by
  constructor
  · intro w
    cases w with
    | master => exact .inr ⟨rfl, rfl⟩
    | manager => exact ⟨rfl, by simp⟩
    | worker j => exact ⟨rfl, by simp⟩
  · exact fun hact => hact.elim

theorem Live.told (h : Live M s) (hg : Good M s) (w : Who N) (hrun : (s.proc w).run = .idle) : Live M (s.stop w) := by
  have hact : (s.proc w).run.active := by
    rw [hrun]
    trivial
  cases w with
  | master =>
    change Live M (shuso_stop s)
    unfold shuso_stop
    split
    · rename_i hs
      exact h.move hact (by simp [Proc.publish]) (.inl ⟨hs, rfl⟩)
    · exact h
  | manager =>
    change Live M (shuso_stop_manager s)
    unfold shuso_stop_manager
    split
    · rename_i hs
      exact h.move hact (by simp [Proc.publish]) (.inl ⟨hs, rfl⟩)
    · exact h
  | worker j =>
    change Live M (shuso_stop_worker s j)
    unfold shuso_stop_worker
    split
    · rename_i hs
      exact h.move hact (by simp [Proc.publish]) (.inr ((hg (.worker j)).published hs))
    · exact h

theorem shutdown_handle_cb_live (h : Live M s) (hg : Good M s) (w : Who N) (hrun : (s.proc w).run = .idle) :
    Live M (shutdown_handle_cb s w) := by
  unfold shutdown_handle_cb
  split
  · exact h
  · exact h.told hg w hrun

theorem core_master_try_stop_live (h : Live M s) (hg : Good M s) (hrun : (s.proc .master).run = .listener 0) :
    Live M (core_master_try_stop s) := by
  have hact : (s.proc .master).run.active := by
    rw [hrun]
    trivial
  have hs := (h.listener hrun).imp_left And.left
  obtain ⟨hp, hr⟩ := (hg .master).turned_stopping hrun hs
  have hzero : (s.proc .master).turned.run.ahead (M.listeners (N := N) .master).stopAt = 1 := by rw [hr, Run.ahead_first]
  have hpos := (M.listeners (N := N) .master).stopAt_pos rfl
  unfold core_master_try_stop
  set u := if (s.proc .manager).state = .running then s.command .manager else s with hu
  have hproc : u.proc = s.proc := by
    rw [hu]
    split <;> rfl
  have hlive : Live M u := h.of_proc hproc
  rw [← hproc] at hact hp hzero ⊢
  dsimp only
  split
  · exact hlive.move hact (by simp [Proc.delay]) (.inr (hp.delay (by rw [hzero, if_pos (Nat.zero_le _)])))
  · refine hlive.move hact (by simp [Proc.proceed]) (.inr (hp.listener (k := 1) rfl rfl rfl ?_))
    rw [hzero, if_pos (Nat.succ_le_of_lt hpos)]
    rfl

theorem core_manager_try_stop_live (h : Live M s) (hg : Good M s) (hrun : (s.proc .manager).run = .listener 0) :
    Live M (core_manager_try_stop s) := by
  have hact : (s.proc .manager).run.active := by
    rw [hrun]
    trivial
  have hs := (h.listener hrun).imp_left And.left
  obtain ⟨hp, hr⟩ := (hg .manager).turned_stopping hrun hs
  unfold core_manager_try_stop
  set u := if (s.proc .manager).state = .running then s.command_workers else s with hu
  have hproc : u.proc = s.proc := by
    rw [hu]
    split <;> rfl
  have hlive : Live M u := h.of_proc hproc
  rw [← hproc] at hact hp hr ⊢
  dsimp only
  rw [if_pos hp.1]
  exact hlive.move hact (by simp) ⟨rfl, hp.within (by rw [hr, Run.ahead_first]) rfl⟩

theorem scan_live (h : Live M s) (hg : Good M s) {j : ℕ} {all : Bool} (hrun : (s.proc .manager).run = .scan j all) :
    Live M (scan s j all) := by
  have hp := h.looping (.inl hrun)
  have hact : (s.proc .manager).run.active := by
    rw [hrun]
    trivial
  have hone : (s.proc .manager).run.ahead (M.listeners (N := N) .manager).stopAt = 1 := by
    rw [hrun]
    rfl
  have hpos := (M.listeners (N := N) .manager).stopAt_pos rfl
  unfold scan
  split
  · rename_i hj
    have hlive := h.move (p := { s.proc .manager with run := .look j all }) hact (by simp) ⟨rfl, hj, hp.within hone rfl⟩
    dsimp only
    split
    · rename_i hstopped
      have hgone : (s.proc (.worker ⟨j, hj⟩)).run.gone := (hg _).gone (.inr hstopped)
      have hw := h.proc (.worker ⟨j, hj⟩)
      refine hlive.set ?_ (by simp) (by simp)
      unfold Proc.Live at hw ⊢
      cases hr : (s.proc (.worker ⟨j, hj⟩)).run with
      | returned =>
        rw [hr] at hw
        exact ⟨.inr rfl, hw.2⟩
      | down => exact .inr ⟨by simp, .inr rfl⟩
      | _ =>
        rw [hr] at hgone
        exact hgone.elim
    · exact hlive
  · split
    · refine h.move hact (by simp [Proc.proceed]) (.inr (hp.listener (k := 1) rfl rfl rfl ?_))
      rw [hone, if_pos (Nat.succ_le_of_lt hpos)]
      rfl
    · exact h.move hact (by simp [Proc.delay]) (.inr (hp.delay (by rw [hone, if_pos (Nat.zero_le _)])))

theorem look_live (h : Live M s) {j : ℕ} {all : Bool} (hrun : (s.proc .manager).run = .look j all) : Live M (look s j all) := by
  have hp := h.looping (.inr hrun)
  have hact : (s.proc .manager).run.active := by
    rw [hrun]
    trivial
  unfold look
  split
  · exact h.move hact (by simp) ⟨rfl, hp.within (by rw [hrun]; rfl) rfl⟩
  · exact h

/-- **One step of a stop event.** -/
theorem call_live (h : Live M s) (hg : Good M s) {d : Bool} (hst : call M s w d = some t) : Live M t := by
  unfold call at hst
  dsimp only at hst
  split at hst
  · rename_i k hrun
    have hact : (s.proc w).run.active := by
      rw [hrun]
      trivial
    split at hst
    · rename_i hfirst
      obtain ⟨-, rfl⟩ := hfirst
      cases w with
      | master => cases hst; exact core_master_try_stop_live h hg hrun
      | manager => cases hst; exact core_manager_try_stop_live h hg hrun
      | worker j => cases hst
    · rename_i hfirst
      -- past `core_*_try_stop` it is STOPPING
      have hp : (s.proc w).Stopping (M.listeners w).stopAt := by
        rcases h.listener hrun with ⟨hs, rfl⟩ | hp
        · have htries : (M.listeners w).tries = false := Bool.eq_false_iff.2 fun ht => hfirst ⟨ht, rfl⟩
          have hstopping := (hg w).stopping (by rw [hrun]; exact fun hq => hq) (.inr htries)
          rw [hs] at hstopping
          cases hstopping
        · exact hp
      split at hst
      · rename_i hk
        cases hst
        refine h.move hact (by simp [Proc.stop, Proc.proceed]) (.inr (hp.listener (k := k + 1) rfl rfl rfl ?_))
        rw [hrun, if_neg (by omega)]
        change 0 + ((s.proc w).breaks + 1) = (if k ≤ (M.listeners w).stopAt then 1 else 0) + (s.proc w).breaks
        rw [if_pos hk.le]
        omega
      · rename_i hk
        split at hst
        · cases hst
          unfold Proc.other
          split
          · exact h.move hact (by simp [Proc.delay]) (.inr (hp.delay (by rw [hrun]; rfl)))
          · refine h.move hact (by simp [Proc.proceed]) (.inr (hp.listener (k := k + 1) rfl rfl rfl ?_))
            change _ + (s.proc w).breaks = _
            rw [hrun]
            simp only [Run.ahead]
            split_ifs <;> omega
        · rename_i hcount
          cases hst
          refine h.move hact (by simp [Proc.finish]) (.inr ⟨hp.1, ?_⟩)
          have hsum := hp.2
          unfold Listeners.count at hcount
          unfold Proc.ahead at hsum ⊢
          rw [hrun, Run.ahead, if_neg (by omega)] at hsum
          exact hsum
  · rename_i j all hrun
    split at hst
    · rename_i hw
      subst hw
      cases hst
      exact scan_live h hg hrun
    · cases hst
  · rename_i j all hrun
    split at hst
    · rename_i hw
      subst hw
      cases hst
      exact look_live h hrun
    · cases hst
  · cases hst

/-- **One step.** -/
theorem step_live {a : Action N} (h : Live M s) (hg : Good M s) (hst : Stop.step M s a = some t) : Live M t := by
  have hidle : ∀ {w : Who N}, (s.proc w).run = .idle → (s.proc w).run.active := by
    intro w hrun
    rw [hrun]
    trivial
  cases a with
  | send w =>
    cases hst
    exact h.of_proc rfl
  | receive w =>
    obtain ⟨-, rfl⟩ := Option.ite_none_right_eq_some.1 hst |>.imp id Option.some.inj
    exact h.of_proc rfl
  | shutdown w =>
    obtain ⟨⟨-, hrun, -⟩, rfl⟩ := Option.ite_none_right_eq_some.1 hst |>.imp id Option.some.inj
    refine shutdown_handle_cb_live ?_ ?_ w hrun
    · exact h.of_proc rfl
    · exact hg.of_proc rfl
  | stop w =>
    obtain ⟨⟨-, hrun⟩, rfl⟩ := Option.ite_none_right_eq_some.1 hst |>.imp id Option.some.inj
    exact h.told hg w hrun
  | call w delays => exact call_live h hg (Option.ite_none_right_eq_some.1 hst).2
  | timer w i =>
    obtain ⟨⟨-, hrun⟩, hst⟩ := Option.ite_none_right_eq_some.1 hst
    obtain ⟨q, hq, rfl⟩ := Option.map_eq_some_iff.1 hst
    obtain ⟨k, hk, rfl⟩ := Option.map_eq_some_iff.1 hq
    refine h.move (hidle hrun) (by simp) (.inr ?_)
    rcases h.idle hrun with hs | hp
    · have hstopping := (hg w).idle_stopping hrun (.inr (List.ne_nil_of_mem (List.mem_of_getElem? hk)))
      rw [hs] at hstopping
      cases hstopping
    · exact hp.timer hrun hk
  | breakLoop w =>
    obtain ⟨⟨-, hrun, hb⟩, rfl⟩ := Option.ite_none_right_eq_some.1 hst |>.imp id Option.some.inj
    exact h.move (hidle hrun) (by simp) ⟨(hg w).idle_stopping hrun (.inl hb), hb⟩
  | exit w =>
    obtain ⟨⟨-, hrun⟩, rfl⟩ := Option.ite_none_right_eq_some.1 hst |>.imp id Option.some.inj
    have hact : (s.proc w).run.active := by
      rw [hrun]
      trivial
    cases w with
    | worker j =>
      simp only [exit]
      rw [if_pos ((hg _).left hrun)]
      exact h.move hact (by simp) (.inr ⟨by simp, .inl rfl⟩)
    | master => exact h.move hact (by simp) ⟨.inl rfl, rfl⟩
    | manager => exact h.move hact (by simp) ⟨.inl rfl, rfl⟩
  | fork =>
    obtain ⟨-, rfl⟩ := Option.ite_none_right_eq_some.1 hst |>.imp id Option.some.inj
    exact h.set (.inl rfl) (by simp) (by simp [Proc.new])
  | ready =>
    obtain ⟨⟨hrun, -⟩, rfl⟩ := Option.ite_none_right_eq_some.1 hst |>.imp id Option.some.inj
    refine h.set ?_ (by simp) fun _ => by simp [hrun]
    unfold Proc.Live
    rw [hrun]
    exact .inr ⟨rfl, rfl⟩
  | spawn j =>
    obtain ⟨-, rfl⟩ := Option.ite_none_right_eq_some.1 hst |>.imp id Option.some.inj
    exact h.set (.inl rfl) (by simp) (by simp)
  | start j =>
    obtain ⟨-, rfl⟩ := Option.ite_none_right_eq_some.1 hst |>.imp id Option.some.inj
    exact h.set (.inl rfl) (by simp) (by simp)
  | enter w =>
    obtain ⟨⟨-, -, hs, hborn⟩, rfl⟩ := Option.ite_none_right_eq_some.1 hst |>.imp id Option.some.inj
    exact h.set (.inl hs) (fun _ _ => hborn) (by simp)
  | fail w =>
    obtain ⟨⟨hw, -⟩, rfl⟩ := Option.ite_none_right_eq_some.1 hst |>.imp id Option.some.inj
    exact h.set ⟨.inr rfl, hw⟩ (fun _ hact => hact.elim) (by simp)
  | die =>
    obtain ⟨-, rfl⟩ := Option.ite_none_right_eq_some.1 hst |>.imp id Option.some.inj
    exact h.set (.inl rfl) (by simp) (by simp)
  | sigchld =>
    obtain ⟨⟨-, hrun⟩, rfl⟩ := Option.ite_none_right_eq_some.1 hst |>.imp id Option.some.inj
    refine h.set ?_ (by simp) fun _ => by simp [hrun]
    unfold Proc.Live
    rw [hrun]
    exact .inl rfl

/-- what holds of the processes -/
structure Net.Fine (M : Modules) (x : Net N) : Prop where
  good : Good M x.toSys
  live : Live M x.toSys

theorem Net.Fine.step {a : Action N} (h : x.Fine M) (hst : x.step M a = some y) : y.Fine M := by
  rcases Net.step_proc hst with heq | ⟨s, hs, heq⟩
  · exact ⟨h.good.of_proc heq, h.live.of_proc heq⟩
  · exact ⟨(step_good h.good hs).of_proc heq, (step_live h.live h.good hs).of_proc heq⟩

theorem Net.reach_fine {ok : Net N → Action N → Prop} (h : Reach (Net.step M) ok (Net.init N) x) : x.Fine M :=
  h.inv ⟨init_good, init_live⟩ fun _ _ _ hx _ hst => hx.step hst

end Shuttlesock.Stop
