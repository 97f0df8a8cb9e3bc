/-
Whether the processes come to their end once the master is told to stop.

The manager tells its workers once (`StopSend.lean`), and then waits until all of them are DEAD. A worker that is not at least STARTING at
its turn is refused, and the workers behind it are told nothing: when one of them has stopped on its own ahead of the manager, say.

Model: that of `StopPath.lean`.

Results:
- `stop_ends_iff`: a manager that waits for its workers comes to its end, and the master behind it, if and only if no worker is left quiet.
- `stop_never_ends`: a run of two workers in which the first one stops ahead of the manager; the second is left quiet.
- `orderly_stops`: in an orderly run this does not happen. From every state with the master STOPPING the processes can all come to
  their end.
-/
import Shuttlesock.Process.StopPath

namespace Shuttlesock.Stop

open Runs Net

variable {N : ℕ} {M : Modules} {s t : Sys N} {x y : Net N} {p q : Proc} {w v : Who N} {j : Fin N} {k : ℕ} {a : Action N}

/-! ## What a step is for a worker -/

/-- the action stops the worker j, or sends it the command -/
def Net.tells (x : Net N) (j : Fin N) : Action N → Prop
  | .send w => w = .worker j ∧ (x.proc w).state.receives
  | .stop w => w = .worker j ∧ (x.proc w).state = .running
  | .call .manager _ => x.sending = some j.val ∧ (x.proc (.worker j)).state.receives
  | _ => False

/-- it is there, and not quiet -/
def Net.Told (x : Net N) (j : Fin N) : Prop := ¬ x.Quiet j ∧ (x.proc (.worker j)).state ≠ .nil

inductive Net.Change (x : Net N) (a : Action N) (y : Net N) (j : Fin N) : Prop where
  /-- no command comes or goes, and it is as much to stop as before -/
  | keeps : ((y.proc (.worker j)).state.fresh ↔ (x.proc (.worker j)).state.fresh) →
      ((y.proc (.worker j)).state = .nil → (x.proc (.worker j)).state = .nil) → y.inbox (.worker j) = x.inbox (.worker j) →
      y.shutdowns (.worker j) = x.shutdowns (.worker j) → Change x a y j
  | told : x.tells j a → y.Told j → Change x a y j
  /-- it takes a command, or acts on it -/
  | takes : ¬ x.Quiet j → y.Told j → Change x a y j

theorem told_of_stopping (h : (x.proc (.worker j)).state = .stopping) : x.Told j := by
  refine ⟨fun hq => ?_, by rw [h]; decide⟩
  have hfresh := hq.fresh
  rw [h] at hfresh
  exact hfresh

theorem told_of_inbox (h : 0 < x.inbox (.worker j)) (hs : (x.proc (.worker j)).state ≠ .nil) : x.Told j :=
  ⟨fun hq => absurd hq.inbox (by omega), hs⟩

theorem told_of_shutdowns (h : 0 < x.shutdowns (.worker j)) (hs : (x.proc (.worker j)).state ≠ .nil) : x.Told j :=
  ⟨fun hq => absurd hq.shutdowns (by omega), hs⟩

theorem set_state (h : p.state = (s.proc w).state) (v : Who N) : ((s.set w p).proc v).state = (s.proc v).state := by
  rcases eq_or_ne v w with rfl | hne
  · rw [set_same, h]
  · rw [set_other s hne]

theorem stop_other (s : Sys N) (h : v ≠ w) : (s.stop w).proc v = s.proc v := by
  cases w with
  | master =>
    change (shuso_stop s).proc v = _
    unfold shuso_stop
    split
    · exact set_other s h _
    · rfl
  | manager =>
    change (shuso_stop_manager s).proc v = _
    unfold shuso_stop_manager
    split
    · exact set_other s h _
    · rfl
  | worker i =>
    change (shuso_stop_worker s i).proc v = _
    unfold shuso_stop_worker
    split
    · exact set_other s h _
    · rfl

theorem stop_commands (s : Sys N) (w : Who N) : (s.stop w).inbox = s.inbox ∧ (s.stop w).shutdowns = s.shutdowns := by
  cases w with
  | master =>
    change (shuso_stop s).inbox = _ ∧ (shuso_stop s).shutdowns = _
    unfold shuso_stop
    split <;> exact ⟨rfl, rfl⟩
  | manager =>
    change (shuso_stop_manager s).inbox = _ ∧ (shuso_stop_manager s).shutdowns = _
    unfold shuso_stop_manager
    split <;> exact ⟨rfl, rfl⟩
  | worker i =>
    change (shuso_stop_worker s i).inbox = _ ∧ (shuso_stop_worker s i).shutdowns = _
    unfold shuso_stop_worker
    split <;> exact ⟨rfl, rfl⟩

/-- a worker in its loop, stopped -/
theorem stop_worker (h : Live M s) (hrun : (s.proc (.worker j)).run = .idle) :
    ((s.stop (.worker j)).proc (.worker j)).state = .stopping := by
  change ((shuso_stop_worker s j).proc (.worker j)).state = _
  unfold shuso_stop_worker
  split
  · rw [set_same]
  · rename_i hs
    rcases h.idle hrun with h | h
    · exact absurd h hs
    · exact h.1

theorem called {d : Bool} (h : Stop.step M s (.call w d) = some t) : call M s w d = some t := (Option.ite_none_right_eq_some.1 h).2

theorem call_enabled {d : Bool} (h : call M s w d = some t) : (s.proc w).run.active := by
  unfold call at h
  dsimp only at h
  cases hrun : (s.proc w).run with
  | unborn => rw [hrun] at h; cases h
  | boot => rw [hrun] at h; cases h
  | returned => rw [hrun] at h; cases h
  | down => rw [hrun] at h; cases h
  | _ => trivial

/-- a call in a stop event: workers stay as they are, but that one that has stopped may be joined -/
theorem call_frame {d : Bool} (hst : call M s w d = some t) (j : Fin N) :
    t.shutdowns = s.shutdowns ∧
    ((t.proc (.worker j)).state = (s.proc (.worker j)).state ∨
      (s.proc (.worker j)).state = .stopped ∧ (t.proc (.worker j)).state = .dead) ∧
    (¬ (w = .manager ∧ (s.proc .manager).run = .listener 0 ∧ (s.proc .manager).state = .running) →
      t.inbox (.worker j) = s.inbox (.worker j)) := by
  unfold call at hst
  dsimp only at hst
  split at hst
  · rename_i k hrun
    split at hst
    · rename_i hfirst
      obtain ⟨-, rfl⟩ := hfirst
      cases w with
      | master =>
        cases hst
        unfold core_master_try_stop
        dsimp only
        split_ifs <;> refine ⟨rfl, .inl ?_, fun _ => ?_⟩ <;> simp [Sys.set, Sys.command]
      | manager =>
        cases hst
        unfold core_manager_try_stop
        dsimp only
        by_cases hs : (s.proc .manager).state = .running
        · rw [if_pos hs]
          refine ⟨?_, .inl ?_, fun hturn => absurd ⟨rfl, hrun, hs⟩ hturn⟩
          · split_ifs <;> rfl
          · split_ifs <;> simp [Sys.set, Sys.command_workers]
        · rw [if_neg hs]
          refine ⟨?_, .inl ?_, fun _ => ?_⟩
          · split_ifs <;> rfl
          · split_ifs <;> simp [Sys.set]
          · split_ifs <;> rfl
      | worker i => cases hst
    · split at hst
      · cases hst
        exact ⟨rfl, .inl (set_state (p := (s.proc w).stop k) rfl _), fun _ => rfl⟩
      · split at hst
        · cases hst
          refine ⟨rfl, .inl (set_state ?_ _), fun _ => rfl⟩
          unfold Proc.other
          split <;> rfl
        · cases hst
          exact ⟨rfl, .inl (set_state (p := (s.proc w).finish) rfl _), fun _ => rfl⟩
  · split at hst
    · cases hst
      unfold scan
      split
      · rename_i i all hrun hw hi
        dsimp only
        split
        · rename_i hstopped
          refine ⟨rfl, ?_, fun _ => rfl⟩
          rcases eq_or_ne j ⟨i, hi⟩ with rfl | hne
          · exact .inr ⟨hstopped, by rw [set_same]⟩
          · rw [set_other _ (by simpa using hne), set_other s (by simp)]
            exact .inl rfl
        · refine ⟨rfl, .inl ?_, fun _ => rfl⟩
          rw [set_other s (by simp)]
      · split <;> refine ⟨rfl, .inl ?_, fun _ => rfl⟩ <;> rw [set_other s (by simp)]
    · cases hst
  · split at hst
    · cases hst
      unfold look
      split
      · refine ⟨rfl, .inl ?_, fun _ => rfl⟩
        rw [set_other s (by simp)]
      · exact ⟨rfl, .inl rfl, fun _ => rfl⟩
    · cases hst
  · cases hst

/-- a process moves, and no command comes or goes -/
theorem Net.Change.of_set (hproc : y.proc = (x.set w p).proc) (hi : y.inbox = x.inbox) (hd : y.shutdowns = x.shutdowns)
    (hfresh : w = .worker j → (p.state.fresh ↔ (x.proc w).state.fresh) ∧ (p.state = .nil → (x.proc w).state = .nil)) : Change x a y j := by
  rcases eq_or_ne (Who.worker j) w with rfl | hne
  · refine .keeps ?_ ?_ (by rw [hi]) (by rw [hd])
    · rw [hproc, set_same]
      exact (hfresh rfl).1
    · rw [hproc, set_same]
      exact (hfresh rfl).2
  · refine .keeps ?_ ?_ (by rw [hi]) (by rw [hd])
    · rw [hproc, set_other _ hne]
    · rw [hproc, set_other _ hne]
      exact id

/-- ... and its state does not change -/
theorem Net.Change.of_same (hproc : y.proc = (x.set w p).proc) (hi : y.inbox = x.inbox) (hd : y.shutdowns = x.shutdowns)
    (hs : p.state = (x.proc w).state) : Change x a y j :=
  .of_set hproc hi hd fun _ => ⟨by rw [hs], by rw [hs]; exact id⟩

theorem Net.shuso_ipc_send_shutdowns (x : Net N) (w : Who N) : (x.shuso_ipc_send w).1.shutdowns = x.shutdowns := by
  unfold shuso_ipc_send
  split <;> rfl

theorem Net.shuso_ipc_send_change (x : Net N) (w : Who N) (j : Fin N) :
    (w = .worker j ∧ (x.proc w).state.receives ∧ (x.shuso_ipc_send w).1.Told j) ∨
      ((x.shuso_ipc_send w).1.inbox (.worker j) = x.inbox (.worker j)) := by
  unfold shuso_ipc_send
  split
  · rename_i hr
    rcases eq_or_ne (Who.worker j) w with rfl | hne
    · refine .inl ⟨rfl, hr, told_of_inbox ?_ fun hn => ?_⟩
      · change 0 < (x.command (.worker j)).inbox (.worker j)
        simp [Sys.command]
      · change (x.proc (.worker j)).state = .nil at hn
        rw [hn] at hr
        cases hr
    · right
      change (x.command w).inbox (.worker j) = _
      simp [Sys.command, hne]
  · exact .inr rfl

/-- **One step, for a worker.** -/
theorem Net.step_change (hf : x.Fine M) (hst : x.step M a = some y) (j : Fin N) : x.Change a y j := by
  cases a with
  | send w =>
    obtain rfl := Option.some.inj hst
    rcases x.shuso_ipc_send_change w j with ⟨hw, hr, htold⟩ | hinbox
    · exact .told ⟨hw, hr⟩ htold
    · refine .keeps ?_ ?_ hinbox (by rw [x.shuso_ipc_send_shutdowns])
      · rw [x.shuso_ipc_send_proc]
      · rw [x.shuso_ipc_send_proc]
        exact id
  | receive w =>
    obtain ⟨s, hs, rfl⟩ := Option.map_eq_some_iff.1 hst
    obtain ⟨⟨-, hrun, hpos⟩, rfl⟩ := Option.ite_none_right_eq_some.1 hs |>.imp id Option.some.inj
    rcases eq_or_ne (Who.worker j) w with rfl | hne
    · refine .takes (fun hq => absurd hq.inbox (by omega)) (told_of_shutdowns (by simp) ?_)
      rcases hf.live.idle hrun with h | h
      · rw [h]
        decide
      · rw [h.1]
        decide
    · exact .keeps Iff.rfl id (Function.update_of_ne hne ..) (Function.update_of_ne hne ..)
  | shutdown w =>
    obtain ⟨s, hs, rfl⟩ := Option.map_eq_some_iff.1 hst
    obtain ⟨⟨-, hrun, hpos⟩, rfl⟩ := Option.ite_none_right_eq_some.1 hs |>.imp id Option.some.inj
    set u : Sys N := { x.toSys with shutdowns := Function.update x.shutdowns w (x.shutdowns w - 1) } with hu
    have hlive : Live M u := hf.live.of_proc rfl
    rcases eq_or_ne (Who.worker j) w with rfl | hne
    · refine .takes (fun hq => absurd hq.shutdowns (by omega)) (told_of_stopping ?_)
      change ((shutdown_handle_cb u (.worker j)).proc (.worker j)).state = _
      unfold shutdown_handle_cb
      split
      · assumption
      · exact stop_worker hlive hrun
    · have hproc : (shutdown_handle_cb u w).proc (.worker j) = x.proc (.worker j) := by
        unfold shutdown_handle_cb
        split
        · rfl
        · exact stop_other u hne
      have hcommands : (shutdown_handle_cb u w).inbox = u.inbox ∧ (shutdown_handle_cb u w).shutdowns = u.shutdowns := by
        unfold shutdown_handle_cb
        split
        · exact ⟨rfl, rfl⟩
        · exact stop_commands u w
      refine .keeps (by rw [hproc]) (by rw [hproc]; exact id) (by rw [hcommands.1]) ?_
      rw [hcommands.2]
      exact Function.update_of_ne hne ..
  | stop w =>
    obtain ⟨s, hs, rfl⟩ := Option.map_eq_some_iff.1 hst
    obtain ⟨⟨-, hrun⟩, rfl⟩ := Option.ite_none_right_eq_some.1 hs |>.imp id Option.some.inj
    have hcommands := stop_commands x.toSys w
    rcases eq_or_ne (Who.worker j) w with rfl | hne
    · by_cases hrunning : (x.proc (.worker j)).state = .running
      · exact .told ⟨rfl, hrunning⟩ (told_of_stopping (stop_worker hf.live hrun))
      · have hsame : x.stop (.worker j) = x.toSys := by
          change shuso_stop_worker x.toSys j = _
          unfold shuso_stop_worker
          rw [if_neg hrunning]
        rw [hsame]
        exact .keeps Iff.rfl id rfl rfl
    · refine .keeps ?_ ?_ (by rw [hcommands.1]) (by rw [hcommands.2])
      · rw [stop_other _ hne]
      · rw [stop_other _ hne]
        exact id
  | call w delays =>
    have hkeeps : ∀ {s : Sys N} {z : Net N}, call M x.toSys w delays = some s → z.proc = s.proc → z.shutdowns = s.shutdowns →
        z.inbox (.worker j) = x.inbox (.worker j) → x.Change (.call w delays) z j := by
      intro s z hs hproc hshutdowns hinbox
      obtain ⟨hd, hstate, -⟩ := call_frame hs j
      refine .keeps ?_ ?_ hinbox (by rw [hshutdowns, hd])
      · rw [hproc]
        rcases hstate with h | ⟨h1, h2⟩
        · rw [h]
        · rw [h1, h2]
          exact Iff.rfl
      · rw [hproc]
        rcases hstate with h | ⟨h1, h2⟩
        · rw [h]
          exact id
        · rw [h2]
          exact fun hn => by cases hn
    have hother : w ≠ .manager → x.Change (.call w delays) y j := by
      intro hne
      rw [step_call (fun h => absurd h hne) fun h => absurd h hne] at hst
      obtain ⟨s, hs, rfl⟩ := Option.map_eq_some_iff.1 hst
      exact hkeeps (called hs) rfl rfl ((call_frame (called hs) j).2.2 fun h => hne h.1)
    cases w with
    | manager =>
      change x.call_manager M delays = some y at hst
      unfold call_manager at hst
      split at hst
      · rename_i i hsending
        obtain ⟨-, rfl⟩ := Option.ite_none_right_eq_some.1 hst |>.imp id Option.some.inj
        have hproc := x.shuso_ipc_send_workers_proc i
        have hrest : ∀ {z : Net N}, z = x.shuso_ipc_send_workers i → z.inbox (.worker j) = x.inbox (.worker j) →
            z.shutdowns = x.shutdowns → x.Change (.call .manager delays) z j := by
          rintro z rfl hinbox hshutdowns
          exact .keeps (by rw [hproc]) (by rw [hproc]; exact id) hinbox (by rw [hshutdowns])
        unfold shuso_ipc_send_workers at hrest ⊢
        split
        · rename_i hi
          rw [dif_pos hi] at hrest
          rcases x.shuso_ipc_send_change (.worker ⟨i, hi⟩) j with ⟨hw, hr, htold⟩ | hinbox
          · obtain rfl := Who.worker.inj hw
            exact .told ⟨hsending, hr⟩ ⟨fun hq => htold.1 ⟨hq.fresh, hq.inbox, hq.shutdowns⟩, htold.2⟩
          · exact hrest rfl hinbox (x.shuso_ipc_send_shutdowns _)
        · rename_i hi
          rw [dif_neg hi] at hrest
          exact hrest rfl rfl rfl
      · obtain ⟨s, hs, rfl⟩ := Option.map_eq_some_iff.1 hst
        split
        · exact hkeeps (called hs) rfl rfl rfl
        · rename_i hturn
          exact hkeeps (called hs) rfl rfl ((call_frame (called hs) j).2.2 fun h => hturn h.2)
    | _ => exact hother (by simp)
  | timer w i =>
    obtain ⟨s, hs, rfl⟩ := Option.map_eq_some_iff.1 hst
    obtain ⟨-, hs⟩ := Option.ite_none_right_eq_some.1 hs
    obtain ⟨q, hq, rfl⟩ := Option.map_eq_some_iff.1 hs
    obtain ⟨k, -, rfl⟩ := Option.map_eq_some_iff.1 hq
    exact .of_same rfl rfl rfl rfl
  | breakLoop w =>
    obtain ⟨s, hs, rfl⟩ := Option.map_eq_some_iff.1 hst
    obtain ⟨-, rfl⟩ := Option.ite_none_right_eq_some.1 hs |>.imp id Option.some.inj
    exact .of_same rfl rfl rfl rfl
  | exit w =>
    obtain ⟨s, hs, rfl⟩ := Option.map_eq_some_iff.1 hst
    obtain ⟨⟨-, hrun⟩, rfl⟩ := Option.ite_none_right_eq_some.1 hs |>.imp id Option.some.inj
    have hstate := (hf.good w).left hrun
    cases w with
    | worker i =>
      refine .of_set (w := .worker i) (p := { x.proc (.worker i) with state := .stopped, run := .down }) ?_ ?_ ?_ fun _ =>
        ⟨?_, fun hn => by cases hn⟩
      · simp only [exit, hstate, if_true]
      · simp only [exit, hstate, if_true, Sys.set]
      · simp only [exit, hstate, if_true, Sys.set]
      · rw [hstate]
        exact Iff.rfl
    | _ => exact .of_set rfl rfl rfl (by simp)
  | fork =>
    obtain ⟨s, hs, rfl⟩ := Option.map_eq_some_iff.1 hst
    obtain ⟨-, rfl⟩ := Option.ite_none_right_eq_some.1 hs |>.imp id Option.some.inj
    exact .of_set rfl rfl rfl (by simp)
  | ready =>
    obtain ⟨s, hs, rfl⟩ := Option.map_eq_some_iff.1 hst
    obtain ⟨-, rfl⟩ := Option.ite_none_right_eq_some.1 hs |>.imp id Option.some.inj
    exact .of_set rfl rfl rfl (by simp)
  | spawn i =>
    obtain ⟨s, hs, rfl⟩ := Option.map_eq_some_iff.1 hst
    obtain ⟨⟨-, -, hrun⟩, rfl⟩ := Option.ite_none_right_eq_some.1 hs |>.imp id Option.some.inj
    have hp := hf.live.proc (.worker i)
    unfold Proc.Live at hp
    rw [hrun] at hp
    refine .of_set rfl rfl rfl fun _ => ⟨?_, fun hn => by cases hn⟩
    rw [hp.1]
    exact Iff.rfl
  | start i =>
    obtain ⟨s, hs, rfl⟩ := Option.map_eq_some_iff.1 hst
    obtain ⟨⟨-, -, hstate⟩, rfl⟩ := Option.ite_none_right_eq_some.1 hs |>.imp id Option.some.inj
    refine .of_set rfl rfl rfl fun _ => ⟨?_, fun hn => by cases hn⟩
    rw [hstate]
    exact Iff.rfl
  | enter w =>
    obtain ⟨s, hs, rfl⟩ := Option.map_eq_some_iff.1 hst
    obtain ⟨-, rfl⟩ := Option.ite_none_right_eq_some.1 hs |>.imp id Option.some.inj
    exact .of_same rfl rfl rfl rfl
  | fail w =>
    obtain ⟨s, hs, rfl⟩ := Option.map_eq_some_iff.1 hst
    obtain ⟨⟨hloop, -⟩, rfl⟩ := Option.ite_none_right_eq_some.1 hs |>.imp id Option.some.inj
    refine .of_set rfl rfl rfl ?_
    rintro rfl
    cases hloop
  | die =>
    obtain ⟨s, hs, rfl⟩ := Option.map_eq_some_iff.1 hst
    obtain ⟨-, rfl⟩ := Option.ite_none_right_eq_some.1 hs |>.imp id Option.some.inj
    exact .of_set rfl rfl rfl (by simp)
  | sigchld =>
    obtain ⟨s, hs, rfl⟩ := Option.map_eq_some_iff.1 hst
    obtain ⟨-, rfl⟩ := Option.ite_none_right_eq_some.1 hs |>.imp id Option.some.inj
    exact .of_set rfl rfl rfl (by simp)

/-- the loop that sends is entered and left by calls of the manager -/
theorem Net.step_sending (ha : ¬ ∃ d, a = .call .manager d) (hst : x.step M a = some y) : y.sending = x.sending := by
  unfold Net.step at hst
  split at hst
  · cases hst
    unfold shuso_ipc_send
    split <;> rfl
  · exact absurd ⟨_, rfl⟩ ha
  · obtain ⟨s, -, rfl⟩ := Option.map_eq_some_iff.1 hst
    rfl

/-- a quiet worker is left quiet -/
theorem Net.Quiet.step (hf : x.Fine M) (hq : x.Quiet j) (hst : x.step M a = some y) (hno : ¬ x.tells j a) : y.Quiet j := by
  cases x.step_change hf hst j with
  | keeps hfresh _ hi hd => exact ⟨hfresh.2 hq.fresh, hi.trans hq.inbox, hd.trans hq.shutdowns⟩
  | told ht => exact absurd ht hno
  | takes h => exact absurd hq h

/-- a worker that was told stays told -/
theorem Net.not_quiet_step (hf : x.Fine M) (hq : ¬ x.Quiet j) (hst : x.step M a = some y) : ¬ y.Quiet j := by
  cases x.step_change hf hst j with
  | keeps hfresh _ hi hd => exact fun h => hq ⟨hfresh.1 h.fresh, hi ▸ h.inbox, hd ▸ h.shutdowns⟩
  | told _ ht => exact ht.1
  | takes _ ht => exact ht.1

/-- no command goes to a worker that is not spawned -/
theorem Net.reach_unborn {ok : Net N → Action N → Prop} (h : Reach (Net.step M) ok (Net.init N) x) (j : Fin N)
    (hn : (x.proc (.worker j)).state = .nil) : x.Quiet j := by
  have hall : x.Fine M ∧ ((x.proc (.worker j)).state = .nil → x.Quiet j) := by
    apply h.inv (I := fun x => x.Fine M ∧ ((x.proc (.worker j)).state = .nil → x.Quiet j))
    · exact ⟨⟨init_good, init_live⟩, fun _ => ⟨trivial, rfl, rfl⟩⟩
    · intro x a y hx _ hst
      refine ⟨hx.1.step hst, fun hn => ?_⟩
      cases x.step_change hx.1 hst j with
      | keeps hfresh hnil hi hd =>
        have hq := hx.2 (hnil hn)
        exact ⟨hfresh.2 hq.fresh, hi.trans hq.inbox, hd.trans hq.shutdowns⟩
      | told _ ht => exact absurd hn ht.2
      | takes _ ht => exact absurd hn ht.2
  exact hall.2 hn

theorem Net.born_of_told {ok : Net N → Action N → Prop} (h : Reach (Net.step M) ok (Net.init N) x) (hq : ¬ x.Quiet j) :
    (x.proc (.worker j)).run ≠ .unborn := by
  intro hrun
  have hp := (reach_fine h).live.proc (.worker j)
  unfold Proc.Live at hp
  rw [hrun] at hp
  exact hq (reach_unborn h j hp.1)

/-! ## What a step is for the master and the manager -/

inductive Net.Move (x : Net N) (a : Action N) (y : Net N) (w : Who N) : Prop where
  | keeps : y.proc w = x.proc w → Move x a y w
  /-- a callback of its loop, or a call in its stop event, which may turn it STOPPING -/
  | loops : ((x.proc w).run = .idle ∨ ∃ d, a = .call w d) → (x.proc w).run.active → (y.proc w).run.active →
      ((y.proc w).state = (x.proc w).state ∨ (∃ d, a = .call w d) ∧ (x.proc w).state = .running ∧ (y.proc w).state = .stopping) →
      Move x a y w
  /-- it is not in its loop yet -/
  | starts : (x.proc w).run = .unborn ∨ (x.proc w).run = .boot → (x.proc w).state.fresh → (y.proc w).state.fresh →
      ((y.proc w).run.active → a = .enter w) → Move x a y w
  | ends : (y.proc w).run.gone → (x.proc w).run.gone ∨ (x.proc w).run = .left ∨ a = .die ∨ a = .fail w → Move x a y w

theorem turned_cases (p : Proc) : p.turned.state = p.state ∨ p.state = .running ∧ p.turned.state = .stopping := by
  unfold Proc.turned
  split
  · rename_i hs
    exact .inr ⟨hs, rfl⟩
  · exact .inl rfl

/-- a call leaves the process in its loop or its stop event -/
theorem call_active {d : Bool} (hg : Good M s) (hst : call M s w d = some t) :
    (t.proc w).run.active ∧ ((t.proc w).state = (s.proc w).state ∨ (s.proc w).state = .running ∧ (t.proc w).state = .stopping) := by
  unfold call at hst
  dsimp only at hst
  split at hst
  · rename_i k hrun
    split at hst
    · rename_i hfirst
      obtain ⟨-, rfl⟩ := hfirst
      cases w with
      | master =>
        cases hst
        unfold core_master_try_stop
        dsimp only
        split_ifs <;> · rw [set_same]; exact ⟨trivial, turned_cases _⟩
      | manager =>
        cases hst
        have hs := (turned_good (hg .manager) hrun).2.1
        unfold core_manager_try_stop
        dsimp only
        rw [if_pos hs, set_same]
        exact ⟨trivial, turned_cases _⟩
      | worker j => cases hst
    · split at hst
      · cases hst
        rw [set_same]
        exact ⟨trivial, .inl rfl⟩
      · split at hst
        · cases hst
          rw [set_same]
          unfold Proc.other
          split <;> exact ⟨trivial, .inl rfl⟩
        · cases hst
          rw [set_same]
          exact ⟨trivial, .inl rfl⟩
  · split at hst
    · rename_i hw
      subst hw
      cases hst
      unfold scan
      split
      · dsimp only
        split
        · rw [set_other _ (by simp), set_same]
          exact ⟨trivial, .inl rfl⟩
        · rw [set_same]
          exact ⟨trivial, .inl rfl⟩
      · split
        · rw [set_same]
          exact ⟨trivial, .inl rfl⟩
        · rw [set_same]
          exact ⟨trivial, .inl rfl⟩
    · cases hst
  · split at hst
    · rename_i k all hrun hw
      subst hw
      cases hst
      unfold look
      split
      · rw [set_same]
        exact ⟨trivial, .inl rfl⟩
      · rw [hrun]
        exact ⟨trivial, .inl rfl⟩
    · cases hst
  · cases hst

/-- ... and does not touch another but the workers -/
theorem call_other {d : Bool} (hst : call M s w d = some t) (hv : v.runs_loop) (hne : v ≠ w) : t.proc v = s.proc v := by
  unfold call at hst
  dsimp only at hst
  split at hst
  · split at hst
    · rename_i hfirst
      cases w with
      | master =>
        cases hst
        unfold core_master_try_stop
        dsimp only
        split_ifs <;> exact set_other _ hne _
      | manager =>
        cases hst
        unfold core_manager_try_stop
        dsimp only
        split_ifs <;> exact set_other _ hne _
      | worker j => cases hst
    · split at hst
      · cases hst
        exact set_other s hne _
      · split at hst
        · cases hst
          exact set_other s hne _
        · cases hst
          exact set_other s hne _
  · split at hst
    · rename_i hw
      subst hw
      cases hst
      unfold scan
      split
      · dsimp only
        split
        · rw [set_other _ (by rintro rfl; cases hv), set_other s hne]
        · exact set_other s hne _
      · split
        · exact set_other s hne _
        · exact set_other s hne _
    · cases hst
  · split at hst
    · rename_i hw
      subst hw
      cases hst
      unfold look
      split
      · exact set_other s hne _
      · rfl
    · cases hst
  · cases hst

/-- a process that is stopped from within its loop: master and manager turn STOPPING later -/
theorem stop_active (s : Sys N) (hw : w.runs_loop) (hrun : (s.proc w).run = .idle) :
    ((s.stop w).proc w).run.active ∧ ((s.stop w).proc w).state = (s.proc w).state := by
  have hact : (s.proc w).run.active := by
    rw [hrun]
    trivial
  cases w with
  | master =>
    change ((shuso_stop s).proc .master).run.active ∧ ((shuso_stop s).proc .master).state = _
    unfold shuso_stop
    split
    · rw [set_same]
      exact ⟨trivial, rfl⟩
    · exact ⟨hact, rfl⟩
  | manager =>
    change ((shuso_stop_manager s).proc .manager).run.active ∧ ((shuso_stop_manager s).proc .manager).state = _
    unfold shuso_stop_manager
    split
    · rw [set_same]
      exact ⟨trivial, rfl⟩
    · exact ⟨hact, rfl⟩
  | worker j => cases hw

theorem Net.Move.of_set (hproc : y.proc = (x.set v p).proc) (hv : v = w → x.Move a y w) : x.Move a y w := by
  rcases eq_or_ne w v with rfl | hne
  · exact hv rfl
  · exact .keeps (by rw [hproc, set_other _ hne])

/-- **One step, for the master or the manager.** -/
theorem Net.step_move (hf : x.Fine M) (hst : x.step M a = some y) (hw : w.runs_loop) : x.Move a y w := by
  have hidle : ∀ {v : Who N}, (x.proc v).run = .idle → (x.proc v).run.active := by
    intro v hrun
    rw [hrun]
    trivial
  have hstarts : ∀ {v : Who N}, (x.proc v).run = .unborn ∨ (x.proc v).run = .boot → (x.proc v).state.fresh := by
    intro v hrun
    have hp := hf.live.proc v
    unfold Proc.Live at hp
    rcases hrun with hrun | hrun
    · rw [hrun] at hp
      rw [hp.1]
      trivial
    · rw [hrun] at hp
      rcases hp with h | ⟨h, -⟩
      · rw [h]
        trivial
      · rw [h]
        trivial
  cases a with
  | send v =>
    obtain rfl := Option.some.inj hst
    exact .keeps (by rw [x.shuso_ipc_send_proc])
  | receive v =>
    obtain ⟨s, hs, rfl⟩ := Option.map_eq_some_iff.1 hst
    obtain ⟨-, rfl⟩ := Option.ite_none_right_eq_some.1 hs |>.imp id Option.some.inj
    exact .keeps rfl
  | shutdown v =>
    obtain ⟨s, hs, rfl⟩ := Option.map_eq_some_iff.1 hst
    obtain ⟨⟨-, hrun, -⟩, rfl⟩ := Option.ite_none_right_eq_some.1 hs |>.imp id Option.some.inj
    set u : Sys N := { x.toSys with shutdowns := Function.update x.shutdowns v (x.shutdowns v - 1) } with hu
    have hstop : ∀ {t}, t = u ∨ t = u.stop v → x.Move (.shutdown v) ⟨t, x.sending⟩ w := by
      rintro t (rfl | rfl)
      · exact .keeps rfl
      · rcases eq_or_ne w v with rfl | hne
        · exact .loops (.inl hrun) (hidle hrun) (stop_active u hw hrun).1 (.inl (stop_active u hw hrun).2)
        · exact .keeps (stop_other u hne)
    apply hstop
    unfold shutdown_handle_cb
    split
    · exact .inl rfl
    · exact .inr rfl
  | stop v =>
    obtain ⟨s, hs, rfl⟩ := Option.map_eq_some_iff.1 hst
    obtain ⟨⟨-, hrun⟩, rfl⟩ := Option.ite_none_right_eq_some.1 hs |>.imp id Option.some.inj
    rcases eq_or_ne w v with rfl | hne
    · exact .loops (.inl hrun) (hidle hrun) (stop_active x.toSys hw hrun).1 (.inl (stop_active x.toSys hw hrun).2)
    · exact .keeps (stop_other x.toSys hne)
  | call v delays =>
    rcases step_proc hst with heq | ⟨s, hs, heq⟩
    · exact .keeps (by rw [heq])
    · have hcall := (Option.ite_none_right_eq_some.1 hs).2
      rcases eq_or_ne w v with rfl | hne
      · obtain ⟨hact, hstate⟩ := call_active hf.good hcall
        refine .loops (.inr ⟨_, rfl⟩) (call_enabled hcall) (by rw [heq]; exact hact) ?_
        rw [heq]
        exact hstate.imp_right fun h => ⟨⟨_, rfl⟩, h⟩
      · exact .keeps (by rw [heq]; exact call_other hcall hw hne)
  | timer v i =>
    obtain ⟨s, hs, rfl⟩ := Option.map_eq_some_iff.1 hst
    obtain ⟨⟨-, hrun⟩, hs⟩ := Option.ite_none_right_eq_some.1 hs
    obtain ⟨q, hq, rfl⟩ := Option.map_eq_some_iff.1 hs
    obtain ⟨k, -, rfl⟩ := Option.map_eq_some_iff.1 hq
    refine .of_set rfl ?_
    rintro rfl
    exact .loops (.inl hrun) (hidle hrun) (by rw [set_same]; trivial) (.inl (by rw [set_same]))
  | breakLoop v =>
    obtain ⟨s, hs, rfl⟩ := Option.map_eq_some_iff.1 hst
    obtain ⟨⟨-, hrun, -⟩, rfl⟩ := Option.ite_none_right_eq_some.1 hs |>.imp id Option.some.inj
    refine .of_set rfl ?_
    rintro rfl
    exact .loops (.inl hrun) (hidle hrun) (by rw [set_same]; trivial) (.inl (by rw [set_same]))
  | exit v =>
    obtain ⟨s, hs, rfl⟩ := Option.map_eq_some_iff.1 hst
    obtain ⟨⟨-, hrun⟩, rfl⟩ := Option.ite_none_right_eq_some.1 hs |>.imp id Option.some.inj
    cases v with
    | worker j =>
      have hother : (exit x.toSys (.worker j)).proc w = x.proc w := by
        have hne : w ≠ .worker j := by
          rintro rfl
          cases hw
        simp only [exit]
        split <;> exact set_other _ hne _
      exact .keeps hother
    | _ =>
      refine .of_set rfl ?_
      rintro rfl
      exact .ends (by rw [exit, set_same] <;> first | trivial | simp) (.inr (.inl hrun))
  | fork =>
    obtain ⟨s, hs, rfl⟩ := Option.map_eq_some_iff.1 hst
    obtain ⟨⟨-, hrun⟩, rfl⟩ := Option.ite_none_right_eq_some.1 hs |>.imp id Option.some.inj
    refine .of_set rfl ?_
    rintro rfl
    exact .starts (.inl hrun) (hstarts (.inl hrun)) (by rw [set_same]; trivial) fun hact => by rw [set_same] at hact; exact hact.elim
  | ready =>
    obtain ⟨s, hs, rfl⟩ := Option.map_eq_some_iff.1 hst
    obtain ⟨⟨hrun, -⟩, rfl⟩ := Option.ite_none_right_eq_some.1 hs |>.imp id Option.some.inj
    refine .of_set rfl ?_
    rintro rfl
    refine .starts (.inr hrun) (hstarts (.inr hrun)) (by rw [set_same]; trivial) fun hact => ?_
    rw [set_same] at hact
    change (x.proc .manager).run.active at hact
    rw [hrun] at hact
    exact hact.elim
  | spawn i =>
    obtain ⟨s, hs, rfl⟩ := Option.map_eq_some_iff.1 hst
    obtain ⟨-, rfl⟩ := Option.ite_none_right_eq_some.1 hs |>.imp id Option.some.inj
    exact .of_set rfl (by rintro rfl; cases hw)
  | start i =>
    obtain ⟨s, hs, rfl⟩ := Option.map_eq_some_iff.1 hst
    obtain ⟨-, rfl⟩ := Option.ite_none_right_eq_some.1 hs |>.imp id Option.some.inj
    exact .of_set rfl (by rintro rfl; cases hw)
  | enter v =>
    obtain ⟨s, hs, rfl⟩ := Option.map_eq_some_iff.1 hst
    obtain ⟨⟨-, hrun, hstate, -⟩, rfl⟩ := Option.ite_none_right_eq_some.1 hs |>.imp id Option.some.inj
    refine .of_set rfl ?_
    rintro rfl
    refine .starts (.inr hrun) (hstarts (.inr hrun)) ?_ fun _ => rfl
    rw [set_same]
    change (x.proc v).state.fresh
    rw [hstate]
    trivial
  | fail v =>
    obtain ⟨s, hs, rfl⟩ := Option.map_eq_some_iff.1 hst
    obtain ⟨-, rfl⟩ := Option.ite_none_right_eq_some.1 hs |>.imp id Option.some.inj
    refine .of_set rfl ?_
    rintro rfl
    exact .ends (by rw [set_same]; trivial) (.inr (.inr (.inr rfl)))
  | die =>
    obtain ⟨s, hs, rfl⟩ := Option.map_eq_some_iff.1 hst
    obtain ⟨-, rfl⟩ := Option.ite_none_right_eq_some.1 hs |>.imp id Option.some.inj
    refine .of_set rfl ?_
    rintro rfl
    exact .ends (by rw [set_same]; trivial) (.inr (.inr (.inl rfl)))
  | sigchld =>
    obtain ⟨s, hs, rfl⟩ := Option.map_eq_some_iff.1 hst
    obtain ⟨⟨-, hrun⟩, rfl⟩ := Option.ite_none_right_eq_some.1 hs |>.imp id Option.some.inj
    refine .of_set rfl ?_
    rintro rfl
    refine .ends ?_ (.inl ?_)
    · rw [set_same]
      change (x.proc .manager).run.gone
      rw [hrun]
      trivial
    · rw [hrun]
      trivial

/-! ## A worker that is left quiet -/

/-- the master waits for the manager, and the manager for a quiet worker -/
structure Net.Stuck (x : Net N) (j : Fin N) : Prop where
  master : (x.proc .master).run.active
  state : (x.proc .manager).state = .stopping
  manager : (x.proc .manager).run.active
  sending : x.sending = none
  quiet : x.Quiet j

theorem Net.Fine.waits (hf : x.Fine M) (h : x.Stuck j) :
    (∀ w, w = .master ∨ w = .manager → (x.proc w).breaks = 0 ∧ (x.proc w).run ≠ .left) := by
  have hdead : (x.proc (.worker j)).state ≠ .dead := fun hd => by have := h.quiet.fresh; rw [hd] at this; exact this
  have hbreaks : ∀ w, w = .master ∨ w = .manager → (x.proc w).breaks = 0 := by
    rintro w (rfl | rfl)
    · refine Nat.eq_zero_of_not_pos fun hb => ?_
      have hmanager := hf.good.in_order.master hb
      rw [h.state] at hmanager
      cases hmanager
    · exact Nat.eq_zero_of_not_pos fun hb => hdead (hf.good.in_order.manager hb j)
  intro w hw
  refine ⟨hbreaks w hw, fun hrun => ?_⟩
  have hp := hf.live.proc w
  unfold Proc.Live at hp
  rw [hrun] at hp
  exact absurd (hbreaks w hw) (by omega)


/-- what the processes do of themselves does not help -/
theorem Net.Stuck.step (hf : x.Fine M) (h : x.Stuck j) (hok : own x a) (hst : x.step M a = some y) : y.Stuck j := by
  have hactive : ∀ w, w = .master ∨ w = .manager → (x.proc w).run.active → (y.proc w).run.active := by
    intro w hw hact
    have hloop : w.runs_loop := by rcases hw with rfl | rfl <;> rfl
    cases step_move hf hst hloop with
    | keeps heq => rwa [heq]
    | loops _ _ hact' => exact hact'
    | starts hrun => rcases hrun with hrun | hrun <;> · rw [hrun] at hact; exact hact.elim
    | ends _ hwas =>
      rcases hwas with hgone | hleft | rfl | rfl
      · cases hrun : (x.proc w).run with
        | returned => rw [hrun] at hact; exact hact.elim
        | down => rw [hrun] at hact; exact hact.elim
        | _ => rw [hrun] at hgone; exact hgone.elim
      · exact absurd hleft (hf.waits h w hw).2
      · have hrun : (x.proc .manager).run = .returned := hok
        have hmanager := h.manager
        rw [hrun] at hmanager
        exact hmanager.elim
      · exact hok.elim
  have hno : ¬ x.tells j a := by
    intro ht
    cases a with
    | send w => exact hok
    | stop w => exact hok
    | call w d =>
      cases w with
      | manager =>
        have hsending := ht.1
        rw [h.sending] at hsending
        cases hsending
      | _ => exact ht
    | _ => exact ht
  have hsending : y.sending = none := by
    by_cases ha : ∃ d, a = .call .manager d
    · obtain ⟨d, rfl⟩ := ha
      change x.call_manager M d = some y at hst
      unfold call_manager at hst
      rw [h.sending] at hst
      obtain ⟨s, -, rfl⟩ := Option.map_eq_some_iff.1 hst
      rw [if_neg fun hturn => by rw [h.state] at hturn; cases hturn.2]
    · rw [step_sending ha hst, h.sending]
  refine ⟨hactive _ (.inl rfl) h.master, ?_, hactive _ (.inr rfl) h.manager, hsending, h.quiet.step hf hst hno⟩
  cases step_move hf hst (w := .manager) rfl with
  | keeps heq => rw [heq, h.state]
  | loops _ _ _ hstate =>
    rcases hstate with hs | ⟨-, hs, -⟩
    · rw [hs, h.state]
    · rw [h.state] at hs
      cases hs
  | starts _ hfresh =>
    rw [h.state] at hfresh
    exact hfresh.elim
  | ends hgone =>
    have hact := hactive .manager (.inr rfl) h.manager
    cases hrun : (y.proc .manager).run with
    | returned => rw [hrun] at hact; exact hact.elim
    | down => rw [hrun] at hact; exact hact.elim
    | _ => rw [hrun] at hgone; exact hgone.elim

theorem Net.Stuck.forever (hf : x.Fine M) (h : x.Stuck j) (hgo : Reach (Net.step M) own x y) : y.Stuck j :=
  (hgo.inv (I := fun y => y.Fine M ∧ y.Stuck j) ⟨hf, h⟩ fun _ _ _ hI hok hst => ⟨hI.1.step hst, hI.2.step hI.1 hok hst⟩).2

/-- two workers, and the first one stops as soon as all run -/
def early : List (Action 2) :=
  [.fork, .enter .master, .ready, .spawn 0, .spawn 1, .enter .manager, .start 0, .start 1, .stop (.worker 0), .call (.worker 0) false,
    .call (.worker 0) false, .breakLoop (.worker 0), .exit (.worker 0), .stop .master, .call .master false, .receive .manager,
    .shutdown .manager, .call .manager false, .call .manager false]

/-- a manager that is there tells all of its workers, which do not stop before -/
structure Net.InTurn (x : Net N) : Prop where
  fresh : (x.proc .manager).state.fresh → x.sending = none ∧ ∀ j, x.Quiet j
  sending : ∀ k, x.sending = some k → (x.proc .manager).run = .scan 0 true ∧ (∀ j : Fin N, j.val < k → ¬ x.Quiet j) ∧
    ∀ j : Fin N, k ≤ j.val → x.Quiet j
  told : (x.proc .manager).state = .stopping → x.sending = none → ∀ j, ¬ x.Quiet j
  born : (x.proc .manager).run.active → ∀ j, (x.proc (.worker j)).run ≠ .unborn

/-- a worker whose state is NIL is not spawned -/
theorem Net.Fine.nil_iff (hf : x.Fine M) (j : Fin N) : (x.proc (.worker j)).state = .nil ↔ (x.proc (.worker j)).run = .unborn := by
  have hp := hf.live.proc (.worker j)
  unfold Proc.Live at hp
  constructor
  · intro hn
    cases hrun : (x.proc (.worker j)).run with
    | unborn => rfl
    | boot =>
      rw [hrun, hn] at hp
      rcases hp with h | ⟨h, -⟩ <;> cases h
    | idle =>
      rw [hrun] at hp
      rcases hp with h | h
      · rw [hn] at h
        cases h
      · have hs := h.1
        rw [hn] at hs
        cases hs
    | listener k =>
      rw [hrun] at hp
      rcases hp with ⟨h, -⟩ | h
      · rw [hn] at h
        cases h
      · have hs := h.1
        rw [hn] at hs
        cases hs
    | scan k all => rw [hrun] at hp; cases hp.1
    | look k all => rw [hrun] at hp; cases hp.1
    | left => rw [hrun, hn] at hp; cases hp.1
    | returned => rw [hrun] at hp; cases hp.2
    | down => rw [hrun, hn] at hp; rcases hp with h | ⟨-, h | h⟩ <;> cases h
  · intro hrun
    rw [hrun] at hp
    exact hp.1

theorem Net.born_step (hf : x.Fine M) (hst : x.step M a = some y) (h : (x.proc (.worker j)).run ≠ .unborn) :
    (y.proc (.worker j)).run ≠ .unborn := by
  intro hrun
  have hn := ((hf.step hst).nil_iff j).2 hrun
  cases x.step_change hf hst j with
  | keeps _ hnil => exact h ((hf.nil_iff j).1 (hnil hn))
  | told _ ht => exact ht.2 hn
  | takes _ ht => exact ht.2 hn

/-- a worker that is spawned and quiet receives -/
theorem Net.Quiet.receives (hf : x.Fine M) (h : x.Quiet j) (hborn : (x.proc (.worker j)).run ≠ .unborn) :
    (x.proc (.worker j)).state.receives = true := by
  have hfresh := h.fresh
  cases hs : (x.proc (.worker j)).state with
  | nil => exact absurd ((hf.nil_iff j).1 hs) hborn
  | starting => rfl
  | running => rfl
  | _ => rw [hs] at hfresh; exact hfresh.elim

/-- one command of the manager is sent -/
theorem Net.sends (hk : k < N) (hr : (x.proc (.worker ⟨k, hk⟩)).state.receives = true) :
    x.shuso_ipc_send_workers k = ⟨x.command (.worker ⟨k, hk⟩), some (k + 1)⟩ := by
  unfold shuso_ipc_send_workers shuso_ipc_send
  rw [dif_pos hk]
  simp only [hr, if_true]

theorem Net.sends_end (hk : N ≤ k) : x.shuso_ipc_send_workers k = { x with sending := none } := by
  unfold shuso_ipc_send_workers
  rw [dif_neg (by omega)]

/-- the turn of the manager -/
theorem call_turn {d : Bool} (hrun : (s.proc .manager).run = .listener 0) (hs : (s.proc .manager).state = .running)
    (hst : call M s .manager d = some t) : (t.proc .manager).run = .scan 0 true ∧ (t.proc .manager).state = .stopping := by
  have htries : (M.listeners (N := N) .manager).tries = true := rfl
  unfold call at hst
  simp only [hrun, htries, true_and, if_true] at hst
  cases hst
  simp [core_manager_try_stop, Proc.turned, hs, Sys.set, Sys.command_workers]

/-- a manager in its stop event is STOPPING, but for its turn -/
theorem call_stopping {d : Bool} (hl : Live M s) (hst : call M s .manager d = some t)
    (hturn : ¬ ((s.proc .manager).run = .listener 0 ∧ (s.proc .manager).state = .running)) : (s.proc .manager).state = .stopping := by
  unfold call at hst
  dsimp only at hst
  cases hrun : (s.proc .manager).run with
  | listener k =>
    rcases hl.listener hrun with ⟨hs, rfl⟩ | hp
    · exact absurd ⟨hrun, hs⟩ hturn
    · exact hp.1
  | scan k all => exact (hl.looping (.inl hrun)).1
  | look k all => exact (hl.looping (.inr hrun)).1
  | _ => rw [hrun] at hst; cases hst

/-- **One step in order.** -/
theorem Net.InTurn.step (hf : x.Fine M) (h : x.InTurn) (hok : orderly x a) (hst : x.step M a = some y)
    (hup : ¬ (y.proc .manager).run.gone) : y.InTurn := by
  by_cases ha : ∃ d, a = .call .manager d
  · obtain ⟨d, rfl⟩ := ha
    have hst' : x.call_manager M d = some y := hst
    unfold call_manager at hst'
    split at hst'
    · -- the loop that sends
      rename_i k hsending
      obtain ⟨hrun, rfl⟩ := Option.ite_none_right_eq_some.1 hst' |>.imp id Option.some.inj
      obtain ⟨-, htold, hquiet⟩ := h.sending k hsending
      have hstate := (hf.live.looping (.inl hrun)).1
      have hborn := h.born (by rw [hrun]; trivial)
      have hproc := x.shuso_ipc_send_workers_proc k
      have hfresh : ¬ ((x.shuso_ipc_send_workers k).proc .manager).state.fresh := by
        rw [hproc, hstate]
        exact fun hf => hf
      by_cases hk : k < N
      · have hr := (hquiet ⟨k, hk⟩ le_rfl).receives hf (hborn _)
        have hnext : (x.shuso_ipc_send_workers k).sending = some (k + 1) := by rw [sends hk hr]
        refine ⟨fun hf => absurd hf hfresh, fun i hi => ?_, fun _ hnone => ?_, fun _ j => born_step hf hst (hborn j)⟩
        · rw [hnext] at hi
          obtain rfl := Option.some.inj hi
          refine ⟨by rw [hproc, hrun], fun j hj => ?_, fun j hj => (hquiet j (by omega)).step hf hst fun ht => ?_⟩
          · rcases Nat.lt_succ_iff_lt_or_eq.1 hj with hlt | heq
            · exact not_quiet_step hf (htold j hlt) hst
            · intro hq
              have hinbox := hq.inbox
              rw [sends hk hr] at hinbox
              obtain rfl : j = ⟨k, hk⟩ := Fin.ext heq
              simp [Sys.command] at hinbox
          · have heq := ht.1
            rw [hsending] at heq
            have := Option.some.inj heq
            omega
        · rw [hnext] at hnone
          cases hnone
      · have hnext : (x.shuso_ipc_send_workers k).sending = none := by rw [sends_end (by omega)]
        refine ⟨fun hf => absurd hf hfresh, fun i hi => ?_, fun _ _ j => ?_, fun _ j => born_step hf hst (hborn j)⟩
        · rw [hnext] at hi
          cases hi
        · exact not_quiet_step hf (htold j (by omega)) hst
    · rename_i hsending
      obtain ⟨s, hs, rfl⟩ := Option.map_eq_some_iff.1 hst'
      have hcall := called hs
      have hactive := call_enabled hcall
      have hno : ∀ j : Fin N, ¬ x.tells j (.call .manager d) := by
        intro j ht
        have heq := ht.1
        rw [hsending] at heq
        cases heq
      have hborn := fun j => born_step hf hst (h.born hactive j)
      split
      · -- its turn
        rename_i hturn
        obtain ⟨hrun', hstate'⟩ := call_turn hturn.1 hturn.2 hcall
        rw [if_pos hturn] at hst hborn
        have hquiet := (h.fresh (by rw [hturn.2]; trivial)).2
        refine ⟨fun hfresh => ?_, fun k hk => ?_, fun _ hnone => (by cases hnone), fun _ => hborn⟩
        · change (s.proc .manager).state.fresh at hfresh
          rw [hstate'] at hfresh
          exact hfresh.elim
        · obtain rfl := Option.some.inj hk
          exact ⟨hrun', fun j hj => absurd hj (Nat.not_lt_zero _), fun j _ => (hquiet j).step hf hst (hno j)⟩
      · rename_i hturn
        rw [if_neg hturn] at hst hborn
        have hstate := call_stopping hf.live hcall hturn
        have hstate' : (s.proc .manager).state = .stopping := by
          rcases (call_active hf.good hcall).2 with heq | ⟨heq, -⟩
          · rw [heq, hstate]
          · rw [hstate] at heq
            cases heq
        refine ⟨fun hfresh => ?_, fun k hk => (by cases hk), fun _ _ j => not_quiet_step hf (h.told hstate hsending j) hst, fun _ => hborn⟩
        change (s.proc .manager).state.fresh at hfresh
        rw [hstate'] at hfresh
        exact hfresh.elim
  · have hsending := step_sending ha hst
    -- others tell the workers only after the manager has
    have hno : ∀ {j : Fin N}, x.tells j a → (x.proc .manager).state = .stopping ∧ x.sending = none := by
      intro j ht
      cases a with
      | send w =>
        obtain ⟨rfl, -⟩ := ht
        exact hok
      | stop w =>
        obtain ⟨rfl, -⟩ := ht
        exact hok
      | call w d =>
        cases w with
        | manager => exact absurd ⟨d, rfl⟩ ha
        | _ => exact ht.elim
      | _ => exact ht.elim
    have hfresh : (x.proc .manager).state.fresh → y.sending = none ∧ ∀ j, y.Quiet j := by
      intro hf'
      refine ⟨hsending.trans (h.fresh hf').1, fun j => ((h.fresh hf').2 j).step hf hst fun ht => ?_⟩
      rw [(hno ht).1] at hf'
      exact hf'
    have htold : (x.proc .manager).state = .stopping → y.sending = none → ∀ j, ¬ y.Quiet j :=
      fun hs hnone j => not_quiet_step hf (h.told hs (hsending.symm.trans hnone) j) hst
    cases step_move hf hst (w := .manager) rfl with
    | keeps heq =>
      rw [heq] at hup
      refine ⟨by rw [heq]; exact hfresh, fun k hk => ?_, by rw [heq]; exact htold, fun hact j => ?_⟩
      · rw [hsending] at hk
        obtain ⟨hrun, hbefore, hbehind⟩ := h.sending k hk
        refine ⟨by rw [heq, hrun], fun j hj => not_quiet_step hf (hbefore j hj) hst, fun j hj => (hbehind j hj).step hf hst fun ht => ?_⟩
        have hnone := (hno ht).2
        rw [hk] at hnone
        cases hnone
      · rw [heq] at hact
        exact born_step hf hst (h.born hact j)
    | loops hidle hact hact' hstate =>
      have hrun : (x.proc .manager).run = .idle := hidle.resolve_right ha
      have hs : (y.proc .manager).state = (x.proc .manager).state := hstate.resolve_right fun hc => ha hc.1
      refine ⟨by rw [hs]; exact hfresh, fun k hk => ?_, by rw [hs]; exact htold, fun _ j => born_step hf hst (h.born hact j)⟩
      rw [hsending] at hk
      have hscan := (h.sending k hk).1
      rw [hrun] at hscan
      cases hscan
    | starts hwas hf' hf'' henter =>
      refine ⟨fun _ => hfresh hf', fun k hk => ?_, fun hs => ?_, fun hact j => ?_⟩
      · rw [(hfresh hf').1] at hk
        cases hk
      · rw [hs] at hf''
        exact hf''.elim
      · obtain rfl := henter hact
        exact born_step hf hst (hok j)
    | ends hgone => exact absurd hgone hup

/-- once gone, the manager stays gone -/
theorem Net.gone_step (hf : x.Fine M) (hst : x.step M a = some y) (h : (x.proc .manager).run.gone) : (y.proc .manager).run.gone := by
  cases step_move hf hst (w := .manager) rfl with
  | keeps heq => rwa [heq]
  | loops _ hact =>
    cases hrun : (x.proc .manager).run with
    | returned => rw [hrun] at hact; exact hact.elim
    | down => rw [hrun] at hact; exact hact.elim
    | _ => rw [hrun] at h; exact h.elim
  | starts hwas => rcases hwas with hrun | hrun <;> · rw [hrun] at h; exact h.elim
  | ends hgone => exact hgone

theorem Net.init_turn : (Net.init N).InTurn where
  fresh _ := ⟨rfl, fun _ => ⟨trivial, rfl, rfl⟩⟩
  sending k hk := by cases hk
  told hs := by cases hs
  born hact := hact.elim

theorem Net.in_turn {ok : Net N → Action N → Prop} (h : Reach (Net.step M) ok x y) (hok : ∀ x a, ok x a → orderly x a)
    (hf : x.Fine M) (hx : (x.proc .manager).run.gone ∨ x.InTurn) : (y.proc .manager).run.gone ∨ y.InTurn := by
  have hall : y.Fine M ∧ ((y.proc .manager).run.gone ∨ y.InTurn) := by
    apply h.inv (I := fun y => y.Fine M ∧ ((y.proc .manager).run.gone ∨ y.InTurn)) ⟨hf, hx⟩
    rintro x a y ⟨hf, hgone | hturn⟩ ho hst
    · exact ⟨hf.step hst, .inl (gone_step hf hst hgone)⟩
    · by_cases hup : (y.proc .manager).run.gone
      · exact ⟨hf.step hst, .inl hup⟩
      · exact ⟨hf.step hst, .inr (hturn.step hf (hok _ _ ho) hst hup)⟩
  exact hall.2

/-! ### The stages of an orderly stop -/

/-- a state in which the master is STOPPING, and the manager is there -/
structure Net.Stage (M : Modules) (x : Net N) : Prop where
  fine : x.Fine M
  turn : x.InTurn
  master : (x.proc .master).state = .stopping

/-- all processes can come to their end -/
def Net.Ends (M : Modules) (x : Net N) : Prop :=
  ∃ y, Goes M x y ∧ (y.proc .master).run = .returned ∧ ∀ j, (y.proc (.worker j)).state = .dead

theorem Net.Ends.after (hgo : Goes M x y) (h : y.Ends M) : x.Ends M := by
  obtain ⟨z, hz, hend⟩ := h
  exact ⟨z, hgo.trans hz, hend⟩

theorem Net.Stage.goes (h : x.Stage M) (hgo : Goes M x y) (hmaster : (y.proc .master).state = .stopping)
    (hup : ¬ (y.proc .manager).run.gone) : y.Stage M :=
  ⟨hgo.fine h.fine, (in_turn hgo (fun _ _ hok => hok.2) h.fine (.inr h.turn)).resolve_left hup, hmaster⟩

/-- the workers have been told -/
theorem Net.Stage.told (h : x.Stage M) (hs : x.sending = none) (hstate : (x.proc .manager).state = .stopping)
    (hact : (x.proc .manager).run.active) : x.Ends M :=
  goes_stop h.fine h.master hs hstate hact (h.turn.born hact) (h.turn.told hstate hs)

/-- the manager tells its workers -/
theorem Net.Stage.sends (h : x.Stage M) (hs : x.sending = some k) : x.Ends M := by
  obtain ⟨n, hn⟩ : ∃ n, N - k = n := ⟨_, rfl⟩
  induction n generalizing x k with
  | zero =>
    have hrun := (h.turn.sending k hs).1
    have hgo : Goes M x (x.shuso_ipc_send_workers k) := by
      apply Goes.call (w := .manager)
      change x.call_manager M false = _
      unfold call_manager
      simp only [hs, if_pos hrun]
    rw [sends_end (by omega)] at hgo
    have hstage : ({ x with sending := none } : Net N).Stage M := h.goes hgo h.master (by
      change ¬ (x.proc .manager).run.gone
      rw [hrun]
      exact fun hg => hg)
    exact .after hgo (hstage.told rfl (h.fine.live.looping (.inl hrun)).1 (by
      change (x.proc .manager).run.active
      rw [hrun]
      trivial))
  | succ n ih =>
    obtain ⟨hrun, -, hquiet⟩ := h.turn.sending k hs
    have hk : k < N := by omega
    have hgo : Goes M x (x.shuso_ipc_send_workers k) := by
      apply Goes.call (w := .manager)
      change x.call_manager M false = _
      unfold call_manager
      simp only [hs, if_pos hrun]
    have hborn := h.turn.born (by rw [hrun]; trivial) ⟨k, hk⟩
    rw [Net.sends hk ((hquiet ⟨k, hk⟩ le_rfl).receives h.fine hborn)] at hgo
    exact .after hgo (ih (h.goes hgo h.master (by
      change ¬ (x.proc .manager).run.gone
      rw [hrun]
      exact fun hg => hg)) rfl (by omega))

/-- the manager calls `core_manager_try_stop` for the first time -/
theorem Net.Stage.turns (h : x.Stage M) (hrun : (x.proc .manager).run = .listener 0) (hs : (x.proc .manager).state = .running) :
    x.Ends M := by
  have hsending := (h.turn.fresh (by rw [hs]; trivial)).1
  have htries : (M.listeners (N := N) .manager).tries = true := rfl
  obtain ⟨s, hcall⟩ : ∃ s, call M x.toSys .manager false = some s := by
    unfold call
    simp only [hrun, htries, true_and, if_true]
    exact ⟨_, rfl⟩
  have hgo : Goes M x ⟨{ s with inbox := x.inbox }, some 0⟩ := by
    apply Goes.call (w := .manager)
    change x.call_manager M false = _
    unfold call_manager
    rw [hsending]
    change (call M x.toSys .manager false).map _ = _
    rw [hcall, Option.map_some, if_pos ⟨hrun, hs⟩]
  obtain ⟨hrun', -⟩ := call_turn hrun hs hcall
  refine .after hgo ((h.goes hgo ?_ ?_).sends rfl)
  · change (s.proc .master).state = _
    rw [call_other hcall rfl (by simp)]
    exact h.master
  · change ¬ (s.proc .manager).run.gone
    rw [hrun']
    exact fun hg => hg

/-- the manager runs, and a command is on its way to it -/
theorem Net.Stage.commanded (h : x.Stage M) (hrun : (x.proc .manager).run = .idle) (hs : (x.proc .manager).state = .running)
    (hinbox : 0 < x.inbox .manager) : x.Ends M := by
  set y : Net N := ⟨{ x.toSys with
    inbox := Function.update x.inbox .manager (x.inbox .manager - 1)
    shutdowns := Function.update x.shutdowns .manager (x.shutdowns .manager + 1) }, x.sending⟩ with hy
  have hreceive : Goes M x y := by
    apply Goes.one (a := .receive .manager) ⟨trivial, trivial⟩
    change (if x.exists_for .manager ∧ (x.proc .manager).run = .idle ∧ 0 < x.inbox .manager then _ else none : Option (Sys N)).map _ = _
    rw [if_pos ⟨rfl, hrun, hinbox⟩]
    rfl
  set z : Net N := ⟨{ x.put .manager (x.proc .manager).publish with
    inbox := y.inbox
    shutdowns := Function.update y.shutdowns .manager (y.shutdowns .manager - 1) }, x.sending⟩ with hz
  have hpending : 0 < y.shutdowns .manager := by simp [hy]
  have hshutdown : Goes M y z := by
    apply Goes.one (a := .shutdown .manager) ⟨trivial, trivial⟩
    change (if y.exists_for .manager ∧ (x.proc .manager).run = .idle ∧ 0 < y.shutdowns .manager then some (shutdown_handle_cb
      { y.toSys with shutdowns := Function.update y.shutdowns .manager (y.shutdowns .manager - 1) } .manager) else none).map _ = _
    rw [if_pos ⟨rfl, hrun, hpending⟩]
    have hstate : (y.proc .manager).state = .running := hs
    simp only [shutdown_handle_cb, Sys.stop, shuso_stop_manager, hstate, if_true]
    rfl
  have hmanager : z.proc .manager = (x.proc .manager).publish := put_same x .manager (x.proc .manager).publish
  have hgo := hreceive.trans hshutdown
  refine .after hgo ((h.goes hgo ?_ ?_).turns ?_ ?_)
  · change ((x.put .manager (x.proc .manager).publish).proc .master).state = _
    rw [put_other x (by simp)]
    exact h.master
  · rw [hmanager]
    exact fun hg => hg
  · rw [hmanager]
    rfl
  · rw [hmanager]
    exact hs

/-- the manager runs: the master sends it the command at its next try -/
theorem Net.Stage.runs (h : x.Stage M) (hrun : (x.proc .manager).run = .idle) (hs : (x.proc .manager).state = .running) : x.Ends M := by
  have halive : ∀ {y : Net N}, y.Fine M → y.proc .manager = x.proc .manager → (y.proc .master).run ≠ .left := by
    intro y hf heq hleft
    have hp := hf.live.proc .master
    unfold Proc.Live at hp
    rw [hleft] at hp
    have hdead := hf.good.in_order.master hp.2
    rw [heq, hs] at hdead
    cases hdead
  have hidle := (h.fine.master_run h.master).resolve_left (halive h.fine rfl)
  obtain ⟨q, hgo, hq, hleft | ⟨-, hzero, -⟩⟩ := goes_try (M := M) (w := .master) rfl (by simp) (h.fine.stopping h.master hidle) hidle
  · exact absurd (by simpa using hleft) (halive (hgo.fine h.fine) (put_other x (by simp) q))
  · have hmanager : (x.put .master q).proc .manager = x.proc .manager := put_other x (by simp) q
    have hstep := step_master (M := M) (x := x.put .master q) (by simpa using hzero)
    have htry : core_master_try_stop (x.put .master q).toSys = ((x.put .master q).command .manager).set .master (q.delay 0) := by
      unfold core_master_try_stop
      have hcommand : (((x.put .master q).command .manager).proc .manager).state = .running := by
        change ((x.put .master q).proc .manager).state = _
        rw [hmanager, hs]
      simp only [hmanager, hs, if_true, put_same, Proc.turned, hq]
      rw [if_pos (by rw [hcommand]; decide), if_neg (by decide)]
    rw [htry] at hstep
    have hgo' := hgo.trans (Goes.call hstep)
    have hsame : ((((x.put .master q).command .manager).set .master (q.delay 0)).proc .manager) = x.proc .manager := by
      rw [set_other _ (by simp)]
      exact hmanager
    refine .after hgo' ((h.goes hgo' ?_ ?_).commanded ?_ ?_ ?_)
    · change ((((x.put .master q).command .manager).set .master (q.delay 0)).proc .master).state = _
      rw [set_same]
      exact hq
    · change ¬ ((((x.put .master q).command .manager).set .master (q.delay 0)).proc .manager).run.gone
      rw [hsame, hrun]
      exact fun hg => hg
    · change ((((x.put .master q).command .manager).set .master (q.delay 0)).proc .manager).run = _
      rw [hsame, hrun]
    · change ((((x.put .master q).command .manager).set .master (q.delay 0)).proc .manager).state = _
      rw [hsame, hs]
    · simp [Sys.set, Sys.command]

/-- the manager spawns its workers, and enters its loop -/
theorem Net.Stage.boots (h : x.Stage M) (hrun : (x.proc .manager).run = .boot) (hs : (x.proc .manager).state = .running) : x.Ends M := by
  have hspawn : ∀ n ≤ N, ∃ y, Goes M x y ∧ y.proc .master = x.proc .master ∧ y.proc .manager = x.proc .manager ∧
      ∀ j : Fin N, j.val < n → (y.proc (.worker j)).run ≠ .unborn := by
    intro n hn
    induction n with
    | zero => exact ⟨x, .refl x, rfl, rfl, fun j hj => absurd hj (Nat.not_lt_zero _)⟩
    | succ n ih =>
      obtain ⟨y, hgo, hmaster, hmanager, hborn⟩ := ih (by omega)
      by_cases hn' : (y.proc (.worker ⟨n, by omega⟩)).run = .unborn
      · have hone : Goes M y (y.put (.worker ⟨n, by omega⟩) (.new .starting .boot)) := by
          apply Goes.one (a := .spawn ⟨n, by omega⟩) ⟨trivial, trivial⟩
          change (if (y.proc .manager).run = .boot ∧ (y.proc .manager).state = .running ∧ _ then _ else none : Option (Sys N)).map _ = _
          rw [if_pos ⟨by rw [hmanager, hrun], by rw [hmanager, hs], hn'⟩]
          rfl
        refine ⟨_, hgo.trans hone, (put_other y (by simp) _).trans hmaster, (put_other y (by simp) _).trans hmanager, fun j hj => ?_⟩
        rcases eq_or_ne j ⟨n, by omega⟩ with heq | hne
        · rw [heq, put_same]
          simp [Proc.new]
        · rw [put_other y (by simpa using hne)]
          exact hborn j (by have := Fin.val_ne_of_ne hne; simp only at this; omega)
      · refine ⟨y, hgo, hmaster, hmanager, fun j hj => ?_⟩
        rcases eq_or_ne j ⟨n, by omega⟩ with heq | hne
        · rwa [heq]
        · exact hborn j (by have := Fin.val_ne_of_ne hne; simp only at this; omega)
  obtain ⟨y, hgo, hmaster, hmanager, hborn⟩ := hspawn N le_rfl
  have henter : Goes M y (y.put .manager { y.proc .manager with run := .idle }) := by
    apply Goes.one (a := .enter .manager) ⟨trivial, fun j => hborn j j.isLt⟩
    change (if (Who.manager : Who N).runs_loop ∧ (y.proc .manager).run = .boot ∧ (y.proc .manager).state = .running ∧
      (y.proc .manager).run ≠ .unborn then _ else none : Option (Sys N)).map _ = _
    rw [if_pos ⟨rfl, by rw [hmanager, hrun], by rw [hmanager, hs], by rw [hmanager, hrun]; decide⟩]
    rfl
  have hgo' := hgo.trans henter
  refine .after hgo' ((h.goes hgo' ?_ ?_).runs ?_ ?_)
  · rw [put_other y (by simp), hmaster]
    exact h.master
  · rw [put_same]
    exact fun hg => hg
  · rw [put_same]
  · rw [put_same]
    change (y.proc .manager).state = _
    rw [hmanager, hs]

/-- whatever the manager is at -/
theorem Net.Stage.ends (h : x.Stage M) (hup : ¬ (x.proc .manager).run.gone) : x.Ends M := by
  have hp := h.fine.live.proc .manager
  unfold Proc.Live at hp
  have hsending : (x.proc .manager).run ≠ .scan 0 true → x.sending = none := by
    intro hne
    cases hs : x.sending with
    | none => rfl
    | some k => exact absurd (h.turn.sending k hs).1 hne
  cases hrun : (x.proc .manager).run with
  | unborn => exact absurd hrun (h.fine.live.born (h.fine.active h.master (by simp)))
  | boot =>
    rw [hrun] at hp
    rcases hp with hs | ⟨hs, -⟩
    · have hready : Goes M x (x.put .manager { x.proc .manager with state := .running }) := by
        apply Goes.one (a := .ready) ⟨trivial, trivial⟩
        change (if (x.proc .manager).run = .boot ∧ (x.proc .manager).state = .starting then _ else none : Option (Sys N)).map _ = _
        rw [if_pos ⟨hrun, hs⟩]
        rfl
      refine .after hready ((h.goes hready ?_ ?_).boots ?_ ?_)
      · rw [put_other x (by simp)]
        exact h.master
      · rw [put_same]
        exact hup
      · rw [put_same]
        exact hrun
      · rw [put_same]
    · exact h.boots hrun hs
  | idle =>
    rw [hrun] at hp
    rcases hp with hs | hp
    · exact h.runs hrun hs
    · exact h.told (hsending (by rw [hrun]; simp)) hp.1 (by rw [hrun]; trivial)
  | listener k =>
    rw [hrun] at hp
    rcases hp with ⟨hs, rfl⟩ | hp
    · exact h.turns hrun hs
    · exact h.told (hsending (by rw [hrun]; simp)) hp.1 (by rw [hrun]; trivial)
  | scan k all =>
    rw [hrun] at hp
    cases hs : x.sending with
    | none => exact h.told hs hp.2.1 (by rw [hrun]; trivial)
    | some i => exact h.sends hs
  | look k all =>
    rw [hrun] at hp
    exact h.told (hsending (by rw [hrun]; simp)) hp.2.2.1 (by rw [hrun]; trivial)
  | left =>
    rw [hrun] at hp
    exact h.told (hsending (by rw [hrun]; simp)) hp.1 (by rw [hrun]; trivial)
  | returned => rw [hrun] at hup; exact absurd trivial hup
  | down => rw [hrun] at hup; exact absurd trivial hup

end Shuttlesock.Stop
