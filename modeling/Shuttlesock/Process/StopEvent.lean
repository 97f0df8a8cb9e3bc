/-
The stop event inside one process: `fire_event` and `shuso_event_delay` of `event.c` for `core:master.stop`,
`core:manager.stop` and `core:worker.stop`.

Master and manager call `core_*_try_stop` first (it has the first priority), then the listeners of the other modules, then
`core_*_stop`, which schedules the break of the loop, then those that were added behind it. A worker has no `try_stop`.
The interrupt handler of the stop events grants every delay. A listener that delays ends the run of the listeners, and its
timer runs them again from that listener on.

Model: a process `Proc` with its run state, what its code is at (`Run`), the listeners its delay timers resume at and the
number of times its break was scheduled. One operation is one call of a listener or one callback of the loop.

Results, as lemmas on the invariant `Proc.Good` that the process system is verified with:
- `Good.publish`, `Good.other`, `Good.stop`, `Good.finish`, `Good.timer`, `Good.pass`, `Good.wait`, `Good.quiet`: each operation
  keeps it. It says that there is at most one run or timer ahead of `core_*_stop` or one scheduled break, none of them before
  the process stops, and that what `core_*_try_stop` waits for holds once it has let a run pass.
-/
import Mathlib.Tactic

namespace Shuttlesock.Stop

/-- `shuso_runstate_t`, those a process takes -/
inductive RunState where
  | dead | stopped | nil | starting | running | stopping
deriving DecidableEq

/-- what the code of a process is at -/
inductive Run where
  /-- it is not started -/
  | unborn
  /-- ahead of its loop -/
  | boot
  /-- its loop waits for a callback -/
  | idle
  /-- in the stop event, the listener with this index is next -/
  | listener (k : ℕ)
  /-- in the loop of `core_manager_try_stop`, about to look whether this worker is stopped -/
  | scan (j : ℕ) (all_workers_dead : Bool)
  /-- there, about to look whether it is dead -/
  | look (j : ℕ) (all_workers_dead : Bool)
  /-- its loop is left -/
  | left
  /-- `shuso_run` has returned -/
  | returned
  /-- it exists no more -/
  | down
deriving DecidableEq

structure Proc where
  state : RunState
  run : Run
  /-- `next_listener_index` of the delay timers -/
  delays : List ℕ
  /-- how often `core_*_stop` has added the timer of `stop_thing_callback` -/
  breaks : ℕ
  /-- an assertion has failed -/
  aborted : Bool
deriving DecidableEq

/-- the listeners of a stop event: whether `core_*_try_stop` is first, and how many others are before and after
`core_*_stop` -/
structure Listeners where
  tries : Bool
  before : ℕ
  after : ℕ

/-- the index of `core_*_stop` -/
def Listeners.stopAt (L : Listeners) : ℕ := (if L.tries then 1 else 0) + L.before

def Listeners.count (L : Listeners) : ℕ := L.stopAt + 1 + L.after

theorem Listeners.stopAt_pos {L : Listeners} (h : L.tries = true) : 0 < L.stopAt := by
  unfold Listeners.stopAt
  rw [if_pos h]
  omega

namespace Proc

/-! ## The operations -/

/-- a process that has not come to its stop event -/
def new (state : RunState) (run : Run) : Proc := ⟨state, run, [], 0, false⟩

/-- `shuso_event_publish` of the stop event -/
def publish (p : Proc) : Proc := { p with run := .listener 0 }

/-- `shuso_event_delay` by the listener k, which ends the run -/
def delay (p : Proc) (k : ℕ) : Proc := { p with run := .idle, delays := p.delays ++ [k] }

/-- the listener k returns without a delay -/
def proceed (p : Proc) (k : ℕ) : Proc := { p with run := .listener (k + 1) }

/-- a listener of another module, which may delay -/
def other (p : Proc) (k : ℕ) (delays : Bool) : Proc := if delays then p.delay k else p.proceed k

/-- `core_master_stop`, `core_manager_stop`, `core_worker_stop` -/
def stop (p : Proc) (k : ℕ) : Proc := { p.proceed k with breaks := p.breaks + 1 }

/-- the end of the listeners -/
def finish (p : Proc) : Proc := { p with run := .idle }

/-- `delayed_event_handler` of the i-th timer -/
def timer (p : Proc) (i : ℕ) : Option Proc :=
  (p.delays[i]?).map fun k => { p with run := .listener k, delays := p.delays.eraseIdx i }

/-- a failed assertion -/
def abort (p : Proc) : Proc := { p with run := .down, aborted := true }

end Proc

/-! ## The invariant -/

/-- the states before a stop -/
def RunState.fresh : RunState → Prop
  | .nil | .starting | .running => True
  | .dead | .stopped | .stopping => False

/-- the stop event is not at work -/
def Run.quiet : Run → Prop
  | .listener _ | .scan _ _ | .look _ _ => False
  | _ => True

/-- the process does not write its state again -/
def Run.gone : Run → Prop
  | .returned | .down => True
  | _ => False

/-- a run that is yet to come to the listener `stop` -/
def Run.ahead (stop : ℕ) : Run → ℕ
  | .listener k => if k ≤ stop then 1 else 0
  | .scan _ _ | .look _ _ => 1
  | _ => 0

theorem Run.gone.quiet {r : Run} (h : r.gone) : r.quiet := by
  cases r <;> trivial

theorem Run.quiet.ahead {r : Run} (h : r.quiet) (stop : ℕ) : r.ahead stop = 0 := by
  cases r <;> first | rfl | exact h.elim

theorem Run.ahead_first (stop : ℕ) : (Run.listener 0).ahead stop = 1 := by
  simp [Run.ahead]

/-- the runs and timers that are yet to come to `core_*_stop` -/
def Proc.ahead (stop : ℕ) (p : Proc) : ℕ := p.delays.countP (fun k => decide (k ≤ stop)) + p.run.ahead stop

/-- `core_*_try_stop` has let the stop event pass -/
def Proc.passed (p : Proc) : Prop := 0 < p.breaks ∨ (∃ k ∈ p.delays, 0 < k) ∨ ∃ k, p.run = .listener (k + 1)

/-- The invariant of a process. `below n` says that the first n of the processes it waits for are DEAD, `N` is their
number. -/
structure Proc.Good (L : Listeners) (N : ℕ) (below : ℕ → Prop) (p : Proc) : Prop where
  fresh : p.state.fresh → p.delays = [] ∧ p.breaks = 0 ∧
    (p.run.quiet ∨ (L.tries = true ∧ p.state = .running ∧ p.run = .listener 0))
  ahead : p.ahead L.stopAt + p.breaks ≤ 1
  gone : p.state = .dead ∨ p.state = .stopped → p.run.gone
  left : p.run = .left → p.state = .stopping
  passed : p.passed → below N
  scan : ∀ j, p.run = .scan j true ∨ p.run = .look j true → below j
  sound : p.aborted = false

namespace Proc.Good

variable {L : Listeners} {N : ℕ} {below below' : ℕ → Prop} {p q : Proc} {k : ℕ}

theorem mono (h : p.Good L N below) (hb : ∀ n, below n → below' n) : p.Good L N below' :=
  ⟨h.fresh, h.ahead, h.gone, h.left, fun hp => hb N (h.passed hp), fun j hj => hb j (h.scan j hj), h.sound⟩

theorem stopping_of (h : p.Good L N below) (hfresh : ¬ p.state.fresh) (hgone : ¬ p.run.gone) : p.state = .stopping := by
  cases hs : p.state with
  | stopping => rfl
  | dead => exact absurd (h.gone (.inl hs)) hgone
  | stopped => exact absurd (h.gone (.inr hs)) hgone
  | nil => rw [hs] at hfresh; exact absurd trivial hfresh
  | starting => rw [hs] at hfresh; exact absurd trivial hfresh
  | running => rw [hs] at hfresh; exact absurd trivial hfresh

/-- a process in its stop event, other than at the first call of `core_*_try_stop`, is STOPPING -/
theorem stopping (h : p.Good L N below) (hrun : ¬ p.run.quiet) (hfirst : p.run ≠ .listener 0 ∨ L.tries = false) :
    p.state = .stopping := by
  have hfresh : ¬ p.state.fresh := by
    intro hf
    obtain ⟨-, -, hquiet | ⟨htries, -, hzero⟩⟩ := h.fresh hf
    · exact hrun hquiet
    · rcases hfirst with hne | hno
      · exact hne hzero
      · rw [htries] at hno
        cases hno
  have hgone : ¬ p.run.gone := fun hg => hrun hg.quiet
  exact h.stopping_of hfresh hgone

/-- **The loop.** A step that calls no listener keeps what the invariant says of timers and breaks. -/
theorem quiet (h : p.Good L N below) (hd : q.delays = p.delays) (hb : q.breaks = p.breaks) (ha : q.aborted = p.aborted)
    (hrun : q.run.quiet) (hfresh : q.state.fresh → p.state.fresh)
    (hgone : q.state = .dead ∨ q.state = .stopped → q.run.gone) (hleft : q.run = .left → q.state = .stopping) :
    q.Good L N below where
  fresh hf := by
    obtain ⟨h1, h2, -⟩ := h.fresh (hfresh hf)
    exact ⟨hd.trans h1, hb.trans h2, .inl hrun⟩
  ahead := by
    have hle := h.ahead
    unfold Proc.ahead at hle ⊢
    rw [hd, hb, hrun.ahead]
    omega
  gone := hgone
  left := hleft
  passed hp := by
    apply h.passed
    rcases hp with hp | ⟨k, hk, h0⟩ | ⟨k, hk⟩
    · exact .inl (hb ▸ hp)
    · exact .inr (.inl ⟨k, hd ▸ hk, h0⟩)
    · rw [hk] at hrun
      exact hrun.elim
  scan j hj := by rcases hj with hj | hj <;> · rw [hj] at hrun; exact hrun.elim
  sound := ha.trans h.sound

/-- **The stop event is published**, by a process that is still RUNNING or that has just turned STOPPING. -/
theorem publish (h : p.Good L N below) (hs : p.state = .running) (hd : q.delays = p.delays) (hb : q.breaks = p.breaks)
    (ha : q.aborted = p.aborted) (hrun : q.run = .listener 0)
    (hst : q.state = .stopping ∨ (q.state = .running ∧ L.tries = true)) : q.Good L N below := by
  obtain ⟨hnil, hzero, -⟩ := h.fresh (hs ▸ trivial)
  rw [hnil] at hd
  rw [hzero] at hb
  refine ⟨fun hf => ⟨hd, hb, .inr ?_⟩, ?_, fun hg => ?_, fun hl => ?_, ?_, ?_, ha.trans h.sound⟩
  · rcases hst with hst | ⟨hst, htries⟩
    · rw [hst] at hf
      exact hf.elim
    · exact ⟨htries, hst, hrun⟩
  · unfold Proc.ahead
    rw [hd, hb, hrun]
    simp [Run.ahead]
  · rcases hst with hst | ⟨hst, -⟩ <;> · rw [hst] at hg; simp at hg
  · rw [hrun] at hl
    cases hl
  · rintro (hp | ⟨k, hk, -⟩ | ⟨k, hk⟩)
    · exact absurd hb (Nat.pos_iff_ne_zero.1 hp)
    · rw [hd] at hk
      cases hk
    · rw [hrun] at hk
      cases hk
  · intro j hj
    rcases hj with hj | hj <;> · rw [hrun] at hj; cases hj

/-- a process that was started anew -/
theorem new (L : Listeners) (N : ℕ) (below : ℕ → Prop) {state : RunState} {run : Run} (hs : state.fresh)
    (hrun : run.quiet) (hleft : run ≠ .left) : (Proc.new state run).Good L N below where
  fresh _ := ⟨rfl, rfl, .inl hrun⟩
  ahead := by
    change 0 + run.ahead L.stopAt + 0 ≤ 1
    rw [hrun.ahead]
    omega
  gone hg := by
    change state = _ ∨ state = _ at hg
    rcases hg with rfl | rfl <;> exact hs.elim
  left hl := absurd hl hleft
  passed hp := by
    rcases hp with hp | ⟨k, hk, -⟩ | ⟨k, hk⟩
    · exact absurd hp (Nat.lt_irrefl 0)
    · cases hk
    · change run = _ at hk
      rw [hk] at hrun
      exact hrun.elim
  scan j hj := by
    change run = _ ∨ run = _ at hj
    rcases hj with rfl | rfl <;> exact hrun.elim
  sound := rfl

/-- a process whose break is scheduled, or that has a timer, is STOPPING in its loop -/
theorem idle_stopping (h : p.Good L N below) (hrun : p.run = .idle) (hat : 0 < p.breaks ∨ p.delays ≠ []) :
    p.state = .stopping := by
  have hfresh : ¬ p.state.fresh := by
    intro hf
    obtain ⟨hd, hb, -⟩ := h.fresh hf
    rcases hat with hat | hat
    · omega
    · exact hat hd
  have hgone : ¬ p.run.gone := by
    rw [hrun]
    exact fun hg => hg
  exact h.stopping_of hfresh hgone

/-- a delay and a return keep the number of runs ahead -/
theorem ahead_delay (hrun : p.run.ahead L.stopAt = if k ≤ L.stopAt then 1 else 0) :
    (p.delay k).ahead L.stopAt = p.ahead L.stopAt := by
  unfold Proc.ahead Proc.delay
  rw [hrun, List.countP_append, List.countP_singleton]
  simp [Run.ahead]

/-- what a delay of a run at the listener k leaves, the process being STOPPING -/
theorem delayed (h : p.Good L N below) (hs : p.state = .stopping)
    (hrun : p.run.ahead L.stopAt = if k ≤ L.stopAt then 1 else 0) (hk : 0 < k → below N) :
    (p.delay k).Good L N below where
  fresh hf := by
    change p.state.fresh at hf
    rw [hs] at hf
    exact hf.elim
  ahead := by
    rw [ahead_delay hrun]
    exact h.ahead
  gone hg := by
    change p.state = _ ∨ p.state = _ at hg
    rw [hs] at hg
    simp at hg
  left hl := by cases hl
  passed hp := by
    rcases hp with hp | ⟨i, hi, h0⟩ | ⟨i, hi⟩
    · exact h.passed (.inl hp)
    · rcases List.mem_append.1 hi with hi | hi
      · exact h.passed (.inr (.inl ⟨i, hi, h0⟩))
      · rw [List.mem_singleton.1 hi] at h0
        exact hk h0
    · cases hi
  scan j hj := by rcases hj with hj | hj <;> cases hj
  sound := h.sound

/-- what a run that goes on at the listener k leaves, the process being STOPPING -/
theorem going (h : p.Good L N below) (hs : p.state = .stopping) (hd : q.delays = p.delays) (hqs : q.state = p.state)
    (hq : q.run = .listener k) (ha : q.aborted = p.aborted) (hahead : q.ahead L.stopAt + q.breaks = p.ahead L.stopAt + p.breaks)
    (hb : 0 < q.breaks → below N) (hk : 0 < k → below N) : q.Good L N below where
  fresh hf := by
    rw [hqs, hs] at hf
    exact hf.elim
  ahead := hahead.le.trans h.ahead
  gone hg := by
    rw [hqs, hs] at hg
    simp at hg
  left hl := by
    rw [hq] at hl
    cases hl
  passed hp := by
    rcases hp with hp | ⟨i, hi, h0⟩ | ⟨i, hi⟩
    · exact hb hp
    · exact h.passed (.inr (.inl ⟨i, hd ▸ hi, h0⟩))
    · rw [hq, Run.listener.injEq] at hi
      exact hk (by omega)
  scan j hj := by rcases hj with hj | hj <;> · rw [hq] at hj; cases hj
  sound := ha.trans h.sound

/-- a listener with an index above 0 is reached by a run that was let pass -/
theorem passed_listener (h : p.Good L N below) (hrun : p.run = .listener k) (hk : 0 < k) : below N := by
  apply h.passed
  refine .inr (.inr ⟨k - 1, ?_⟩)
  rw [hrun, Nat.sub_add_cancel hk]

/-- **A listener of another module** returns, or delays. -/
theorem other (h : p.Good L N below) (hrun : p.run = .listener k) (hne : k ≠ L.stopAt)
    (hfirst : L.tries = true → 0 < k) (hall : L.tries = false → below N) (d : Bool) :
    (p.other k d).Good L N below := by
  have hs : p.state = .stopping := by
    apply h.stopping
    · rw [hrun]
      exact fun hq => hq
    · cases ht : L.tries with
      | false => exact .inr rfl
      | true =>
        left
        rw [hrun]
        intro heq
        exact absurd (Run.listener.inj heq) (Nat.pos_iff_ne_zero.1 (hfirst ht))
  have hbelow : below N := by
    cases ht : L.tries with
    | false => exact hall ht
    | true => exact h.passed_listener hrun (hfirst ht)
  unfold Proc.other
  split
  · apply h.delayed hs _ fun _ => hbelow
    rw [hrun]
    rfl
  · refine going (q := p.proceed k) (k := k + 1) h hs rfl rfl rfl rfl ?_ (fun _ => hbelow) fun _ => hbelow
    have hsame : (Run.listener (k + 1)).ahead L.stopAt = p.run.ahead L.stopAt := by
      rw [hrun]
      simp only [Run.ahead]
      split_ifs <;> omega
    unfold Proc.ahead
    rw [← hsame]
    rfl

/-- **The break is scheduled.** The run that comes to `core_*_stop` is the one that was ahead. -/
theorem stop (h : p.Good L N below) (hrun : p.run = .listener L.stopAt) (hall : L.tries = false → below N) :
    (p.stop L.stopAt).Good L N below := by
  have hs : p.state = .stopping := by
    apply h.stopping
    · rw [hrun]
      exact fun hq => hq
    · cases ht : L.tries with
      | false => exact .inr rfl
      | true =>
        left
        rw [hrun]
        intro heq
        exact absurd (Run.listener.inj heq) (Nat.pos_iff_ne_zero.1 (L.stopAt_pos ht))
  have hbelow : below N := by
    cases ht : L.tries with
    | false => exact hall ht
    | true => exact h.passed_listener hrun (L.stopAt_pos ht)
  refine going (q := p.stop L.stopAt) (k := L.stopAt + 1) h hs rfl rfl rfl rfl ?_ (fun _ => hbelow) fun _ => hbelow
  have hbefore : p.run.ahead L.stopAt = 1 := by
    rw [hrun]
    simp [Run.ahead]
  have hafter : (Run.listener (L.stopAt + 1)).ahead L.stopAt = 0 := by simp [Run.ahead]
  unfold Proc.ahead
  rw [hbefore]
  change _ + (Run.listener (L.stopAt + 1)).ahead L.stopAt + (p.breaks + 1) = _
  rw [hafter]
  change p.delays.countP _ + 0 + (p.breaks + 1) = _
  omega

/-- the listeners are at their end -/
theorem finish (h : p.Good L N below) (hrun : p.run = .listener k) (hk : L.stopAt < k) :
    p.finish.Good L N below := by
  have hs : p.state = .stopping := by
    apply h.stopping
    · rw [hrun]
      exact fun hq => hq
    · left
      rw [hrun]
      intro heq
      have := Run.listener.inj heq
      omega
  refine h.quiet rfl rfl rfl trivial id (fun hg => ?_) fun hl => by cases hl
  change p.state = _ ∨ p.state = _ at hg
  rw [hs] at hg
  simp at hg

/-- **A delay timer fires.** The run takes the place of the timer. -/
theorem timer (h : p.Good L N below) (hrun : p.run = .idle) {i : ℕ} (hq : p.timer i = some q) : q.Good L N below := by
  obtain ⟨k, hk, rfl⟩ := Option.map_eq_some_iff.1 hq
  have hmem : k ∈ p.delays := List.mem_of_getElem? hk
  have hs : p.state = .stopping := h.idle_stopping hrun (.inr (List.ne_nil_of_mem hmem))
  have hperm : p.delays.Perm (k :: p.delays.eraseIdx i) := by
    obtain ⟨hi, rfl⟩ := List.getElem?_eq_some_iff.1 hk
    exact (List.getElem_cons_eraseIdx_perm hi).symm
  have hlisteners : ∀ j ∈ p.delays.eraseIdx i, j ∈ p.delays := fun j hj => List.mem_of_mem_eraseIdx hj
  refine ⟨fun hf => ?_, ?_, fun hg => ?_, (fun hl => by cases hl), fun hp => ?_, ?_, h.sound⟩
  · change p.state.fresh at hf
    rw [hs] at hf
    exact hf.elim
  · have hle := h.ahead
    unfold Proc.ahead at hle ⊢
    rw [hperm.countP_eq, List.countP_cons, hrun] at hle
    simp only [Run.ahead, decide_eq_true_eq] at hle ⊢
    exact hle
  · change p.state = _ ∨ p.state = _ at hg
    rw [hs] at hg
    simp at hg
  · apply h.passed
    rcases hp with hp | ⟨j, hj, h0⟩ | ⟨j, hj⟩
    · exact .inl hp
    · exact .inr (.inl ⟨j, hlisteners j hj, h0⟩)
    · refine .inr (.inl ⟨k, hmem, ?_⟩)
      have := Run.listener.inj hj
      omega
  · intro j hj
    rcases hj with hj | hj <;> cases hj

/-! ## `core_*_try_stop` -/

/-- its assertion holds: the first listener is called in a process that is RUNNING or STOPPING -/
theorem first (h : p.Good L N below) (hrun : p.run = .listener 0) : p.state = .running ∨ p.state = .stopping := by
  have hquiet : ¬ p.run.quiet := by
    rw [hrun]
    exact fun hq => hq
  cases hs : p.state with
  | running => exact .inl rfl
  | stopping => exact .inr rfl
  | dead => have hg := h.gone (.inl hs); rw [hrun] at hg; exact hg.elim
  | stopped => have hg := h.gone (.inr hs); rw [hrun] at hg; exact hg.elim
  | nil =>
    obtain ⟨-, -, hq | ⟨-, hr, -⟩⟩ := h.fresh (hs ▸ trivial)
    · exact absurd hq hquiet
    · rw [hs] at hr; cases hr
  | starting =>
    obtain ⟨-, -, hq | ⟨-, hr, -⟩⟩ := h.fresh (hs ▸ trivial)
    · exact absurd hq hquiet
    · rw [hs] at hr; cases hr

/-- a process may turn STOPPING at any point -/
theorem turn (h : p.Good L N below) :
    ({ p with state := .stopping } : Proc).Good L N below where
  fresh hf := hf.elim
  ahead := h.ahead
  gone hg := by simp at hg
  left _ := rfl
  passed hp := h.passed hp
  scan := h.scan
  sound := h.sound

/-- it is in the loop over the workers, the first j of which are DEAD as far as its flag says -/
theorem within (h : p.Good L N below) (hs : p.state = .stopping) (hrun : p.run.ahead L.stopAt = 1) {j : ℕ} {all : Bool}
    {r : Run} (hr : r = .scan j all ∨ r = .look j all) (hall : all = true → below j) :
    ({ p with run := r } : Proc).Good L N below where
  fresh hf := by
    change p.state.fresh at hf
    rw [hs] at hf
    exact hf.elim
  ahead := by
    have hle := h.ahead
    unfold Proc.ahead at hle ⊢
    rw [hrun] at hle
    rcases hr with rfl | rfl <;> exact hle
  gone hg := by
    change p.state = _ ∨ p.state = _ at hg
    rw [hs] at hg
    simp at hg
  left _ := hs
  passed hp := by
    rcases hp with hp | hp | ⟨k, hk⟩
    · exact h.passed (.inl hp)
    · exact h.passed (.inr (.inl hp))
    · rcases hr with rfl | rfl <;> cases hk
  scan i hi := by
    rcases hr with rfl | rfl
    · rcases hi with hi | hi
      · obtain ⟨rfl, hb⟩ := Run.scan.inj hi
        exact hall hb
      · cases hi
    · rcases hi with hi | hi
      · cases hi
      · obtain ⟨rfl, hb⟩ := Run.look.inj hi
        exact hall hb
  sound := h.sound

/-- it lets the stop event pass when what it waits for is DEAD -/
theorem pass (h : p.Good L N below) (hs : p.state = .stopping) (hrun : p.run.ahead L.stopAt = 1)
    (htries : L.tries = true) (hall : below N) : (p.proceed 0).Good L N below := by
  refine going (q := p.proceed 0) (k := 1) h hs rfl rfl rfl rfl ?_ (fun _ => hall) fun _ => hall
  have hone : (Run.listener 1).ahead L.stopAt = 1 := if_pos (L.stopAt_pos htries)
  unfold Proc.ahead
  rw [hrun, ← hone]
  rfl

/-- it delays the stop event -/
theorem wait (h : p.Good L N below) (hs : p.state = .stopping) (hrun : p.run.ahead L.stopAt = 1) :
    (p.delay 0).Good L N below := by
  apply h.delayed hs _ fun h0 => absurd h0 (Nat.lt_irrefl 0)
  rw [hrun, if_pos (Nat.zero_le _)]

end Proc.Good

end Shuttlesock.Stop
