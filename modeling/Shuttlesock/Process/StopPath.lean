/-
How the processes come to their end, as far as it is up to them.

Model: that of `StopSend.lean`.
- `own`: what the processes do of themselves. No module stops a process or sends the command, none fails, and the manager's process ends
  only once `shuso_run` has returned there.
- `orderly`: others stop a worker only after the manager has told all of them, and the manager enters its loop with all of them spawned.
- `Net.Quiet`: the worker is yet to stop, and no command is on its way to it.

Results:
- `goes_worker`, `goes_workers`: workers that are not quiet come to their end.
- `goes_manager`: the manager does once they have, `goes_master` the master once the manager is DEAD.
- `goes_stop`: the whole stop, from a manager that waits for workers none of which is quiet.
-/
import Shuttlesock.Process.StopSend

namespace Shuttlesock.Stop

open Runs

variable {N : ℕ}

/-! ## The conditions -/

/-- what the processes do of themselves -/
def own (x : Net N) : Action N → Prop
  | .send _ | .stop _ | .fail _ => False
  | .die => (x.proc .manager).run = .returned
  | _ => True

def orderly (x : Net N) : Action N → Prop
  | .send (.worker _) | .stop (.worker _) => (x.proc .manager).state = .stopping ∧ x.sending = none
  | .enter .manager => ∀ j, (x.proc (.worker j)).run ≠ .unborn
  | _ => True

instance (x : Net N) : (a : Action N) → Decidable (orderly x a)
  | .send (.worker _) | .stop (.worker _) => inferInstanceAs (Decidable ((x.proc .manager).state = .stopping ∧ x.sending = none))
  | .enter .manager => inferInstanceAs (Decidable (∀ j, (x.proc (.worker j)).run ≠ .unborn))
  | .send .master | .send .manager | .stop .master | .stop .manager | .enter .master | .enter (.worker _) | .receive _ | .shutdown _
  | .call _ _ | .timer _ _ | .breakLoop _ | .exit _ | .fork | .ready | .spawn _ | .start _ | .fail _ | .die | .sigchld => .isTrue trivial

/-- no command is on its way to the worker j, which is yet to stop -/
structure Net.Quiet (x : Net N) (j : Fin N) : Prop where
  fresh : (x.proc (.worker j)).state.fresh
  inbox : x.inbox (.worker j) = 0
  shutdowns : x.shutdowns (.worker j) = 0

/-- what the proofs of progress do: own steps, in order -/
def calm (x : Net N) (a : Action N) : Prop := own x a ∧ orderly x a

/-- the processes can come from x to y of themselves -/
def Goes (M : Modules) (x y : Net N) : Prop := Reach (Net.step M) calm x y

variable {M : Modules} {s t : Sys N} {x y z : Net N} {p q : Proc} {w v : Who N} {j : Fin N} {k : ℕ} {a : Action N}

namespace Goes

theorem refl (x : Net N) : Goes M x x := .init

theorem trans (h1 : Goes M x y) (h2 : Goes M y z) : Goes M x z := Reach.trans h1 h2

theorem fine (h : Goes M x y) (hf : x.Fine M) : y.Fine M := Reach.inv h hf fun _ _ _ hx _ hst => hx.step hst

theorem one (hok : calm x a) (h : x.step M a = some y) : Goes M x y := Reach.next .init hok h

/-- no listener delays -/
theorem call (h : x.step M (.call w false) = some y) : Goes M x y := .one (a := .call w false) ⟨trivial, trivial⟩ h

end Goes

/-! ## One process at a time -/

namespace Net

/-- the process w moves to p -/
def put (x : Net N) (w : Who N) (p : Proc) : Net N := { x with toSys := x.set w p }

@[simp] theorem put_same (x : Net N) (w : Who N) (p : Proc) : (x.put w p).proc w = p := set_same ..

theorem put_other (x : Net N) (h : v ≠ w) (p : Proc) : (x.put w p).proc v = x.proc v := set_other _ h _

@[simp] theorem put_sending (x : Net N) (w : Who N) (p : Proc) : (x.put w p).sending = x.sending := rfl

@[simp] theorem put_put (x : Net N) (w : Who N) (p q : Proc) : (x.put w p).put w q = x.put w q := by
  unfold put Sys.set
  simp

@[simp] theorem put_self (x : Net N) (w : Who N) : x.put w (x.proc w) = x := by
  unfold put Sys.set
  simp

theorem put_exists (x : Net N) (w : Who N) (p : Proc) : (x.put w p).exists_for w = x.exists_for w := by
  cases w with
  | worker j =>
    unfold Sys.exists_for
    rw [put_other x (by simp)]
  | _ => rfl

/-- a call in the stop event of w, when it does not turn the manager -/
theorem step_call {delays : Bool} (hw : w = .manager → x.sending = none)
    (hturn : w = .manager → ¬ ((x.proc .manager).run = .listener 0 ∧ (x.proc .manager).state = .running)) :
    x.step M (.call w delays) = (Stop.step M x.toSys (.call w delays)).map fun s => ⟨s, x.sending⟩ := by
  cases w with
  | manager =>
    change x.call_manager M delays = _
    unfold call_manager
    rw [hw rfl]
    simp only [if_neg (hturn rfl)]
  | _ => rfl

/-- a call of another listener -/
theorem step_listener (hex : x.exists_for w) (hw : w = .manager → x.sending = none) (hrun : (x.proc w).run = .listener k)
    (hpast : (M.listeners w).tries = true → 0 < k) :
    x.step M (.call w false) = some (x.put w (if k = (M.listeners w).stopAt then (x.proc w).stop k
      else if k < (M.listeners w).count then (x.proc w).proceed k else (x.proc w).finish)) := by
  have hfirst : ¬ ((M.listeners w).tries = true ∧ k = 0) := fun h => absurd (hpast h.1) (by omega)
  rw [step_call hw]
  · change (if x.exists_for w then call M x.toSys w false else none).map _ = _
    rw [if_pos hex]
    unfold call
    simp only [hrun, if_neg hfirst]
    split_ifs <;> rfl
  · rintro rfl ⟨hzero, -⟩
    rw [hrun] at hzero
    exact hfirst ⟨rfl, Run.listener.inj hzero⟩

end Net

open Net

/-- the listeners behind `core_*_try_stop` are called one by one, and none delays -/
theorem goes_listeners (hex : x.exists_for w) (hw : w = .manager → x.sending = none) (hrun : (x.proc w).run = .listener k)
    (hpast : (M.listeners w).tries = true → 0 < k) :
    Goes M x (x.put w { x.proc w with
      run := .idle, breaks := (x.proc w).breaks + if k ≤ (M.listeners w).stopAt then 1 else 0 }) := by
  obtain ⟨n, hn⟩ : ∃ n, (M.listeners w).count - k = n := ⟨_, rfl⟩
  have hcount : (M.listeners w).stopAt < (M.listeners w).count := by
    unfold Listeners.count
    omega
  induction n generalizing x k with
  | zero =>
    have hstep := step_listener hex hw hrun hpast
    rw [if_neg (by omega), if_neg (by omega)] at hstep
    rw [if_neg (by omega)]
    exact .call hstep
  | succ n ih =>
    have hstep := step_listener hex hw hrun hpast
    split at hstep
    · rename_i hk
      have hrest := ih (x := x.put w ((x.proc w).stop k)) (k := k + 1) (by rwa [put_exists]) (fun h => hw h)
        (by simp [Proc.stop, Proc.proceed]) (fun _ => k.succ_pos) (by omega)
      rw [put_put, put_same, if_neg (by omega)] at hrest
      rw [if_pos hk.le]
      exact (Goes.call hstep).trans hrest
    · rename_i hk
      rw [if_pos (by omega)] at hstep
      have hrest := ih (x := x.put w ((x.proc w).proceed k)) (k := k + 1) (by rwa [put_exists]) (fun h => hw h) (by simp [Proc.proceed])
        (fun _ => k.succ_pos) (by omega)
      rw [put_put, put_same] at hrest
      have hsame : (if k + 1 ≤ (M.listeners w).stopAt then 1 else 0) = if k ≤ (M.listeners w).stopAt then 1 else 0 := by
        split_ifs <;> omega
      rw [hsame] at hrest
      exact (Goes.call hstep).trans hrest

/-- the scheduled break ends the loop -/
theorem goes_left (hex : x.exists_for w) (hrun : (x.proc w).run = .idle) (hb : 0 < (x.proc w).breaks) :
    Goes M x (x.put w { x.proc w with run := .left }) := by
  apply Goes.one (a := .breakLoop w) ⟨trivial, trivial⟩
  change (if x.exists_for w ∧ (x.proc w).run = .idle ∧ 0 < (x.proc w).breaks then _ else none : Option (Sys N)).map _ = _
  rw [if_pos ⟨hex, hrun, hb⟩]
  rfl

/-- a run that is past `core_*_try_stop` and ahead of `core_*_stop` ends the loop -/
theorem goes_past (hex : x.exists_for w) (hw : w = .manager → x.sending = none) (hrun : (x.proc w).run = .listener k)
    (hpast : (M.listeners w).tries = true → 0 < k) (hk : k ≤ (M.listeners w).stopAt) :
    Goes M x (x.put w { x.proc w with run := .left, breaks := (x.proc w).breaks + 1 }) := by
  have hlisteners := goes_listeners hex hw hrun hpast
  rw [if_pos hk] at hlisteners
  have hleft := goes_left (M := M) (x := x.put w { x.proc w with run := .idle, breaks := (x.proc w).breaks + 1 }) (w := w)
    (by rwa [put_exists]) (by simp) (by simp)
  rw [put_put, put_same] at hleft
  exact hlisteners.trans hleft

/-- a timer of a stop event -/
theorem goes_timer {i : ℕ} (hex : x.exists_for w) (hrun : (x.proc w).run = .idle) (hk : (x.proc w).delays[i]? = some k) :
    Goes M x (x.put w { x.proc w with run := .listener k, delays := (x.proc w).delays.eraseIdx i }) := by
  apply Goes.one (a := .timer w i) ⟨trivial, trivial⟩
  change (if x.exists_for w ∧ (x.proc w).run = .idle then ((x.proc w).timer i).map (x.set w) else none : Option (Sys N)).map _ = _
  rw [if_pos ⟨hex, hrun⟩]
  unfold Proc.timer
  rw [hk]
  rfl

/-- **A process that stops** ends its loop, or comes to `core_*_try_stop`. -/
theorem goes_try (hex : x.exists_for w) (hw : w = .manager → x.sending = none) (hp : (x.proc w).Stopping (M.listeners w).stopAt)
    (hrun : (x.proc w).run = .idle ∨ ∃ k, (x.proc w).run = .listener k) :
    ∃ q, Goes M x (x.put w q) ∧ q.state = .stopping ∧
      (q.run = .left ∨ (M.listeners w).tries = true ∧ q.run = .listener 0 ∧ q.Stopping (M.listeners w).stopAt) := by
  have hlistener : ∀ {x : Net N} {k}, x.exists_for w → (w = .manager → x.sending = none) → (x.proc w).Stopping (M.listeners w).stopAt →
      (x.proc w).run = .listener k → k ≤ (M.listeners w).stopAt →
      ∃ q, Goes M x (x.put w q) ∧ q.state = .stopping ∧
        (q.run = .left ∨ (M.listeners w).tries = true ∧ q.run = .listener 0 ∧ q.Stopping (M.listeners w).stopAt) := by
    intro x k hex hw hp hrun hk
    by_cases hfirst : (M.listeners w).tries = true ∧ k = 0
    · obtain ⟨htries, rfl⟩ := hfirst
      exact ⟨x.proc w, by rw [put_self]; exact .refl x, hp.1, .inr ⟨htries, hrun, hp⟩⟩
    · have hpast : (M.listeners w).tries = true → 0 < k := fun ht => Nat.pos_of_ne_zero fun h0 => hfirst ⟨ht, h0⟩
      exact ⟨_, goes_past hex hw hrun hpast hk, hp.1, .inl rfl⟩
  have hidle : ∀ {x : Net N}, x.exists_for w → (w = .manager → x.sending = none) → (x.proc w).Stopping (M.listeners w).stopAt →
      (x.proc w).run = .idle →
      ∃ q, Goes M x (x.put w q) ∧ q.state = .stopping ∧
        (q.run = .left ∨ (M.listeners w).tries = true ∧ q.run = .listener 0 ∧ q.Stopping (M.listeners w).stopAt) := by
    intro x hex hw hp hrun
    rcases Nat.eq_zero_or_pos (x.proc w).breaks with hb | hb
    · -- a timer is ahead of `core_*_stop`
      have hcount := hp.2
      unfold Proc.ahead at hcount
      rw [hrun, hb] at hcount
      change _ + 0 + 0 = 1 at hcount
      have hpos : 0 < (x.proc w).delays.countP fun k => decide (k ≤ (M.listeners w).stopAt) := by omega
      obtain ⟨k, hmem, hk⟩ := List.countP_pos_iff.1 hpos
      obtain ⟨i, hi⟩ := List.mem_iff_getElem?.1 hmem
      have hstopping := hp.timer hrun hi
      obtain ⟨q, hgoes, hq⟩ := hlistener (x := x.put w { x.proc w with run := .listener k, delays := (x.proc w).delays.eraseIdx i })
        (by rwa [put_exists]) hw (by rwa [put_same]) (by simp) (of_decide_eq_true hk)
      rw [put_put] at hgoes
      exact ⟨q, (goes_timer hex hrun hi).trans hgoes, hq⟩
    · exact ⟨_, goes_left hex hrun hb, hp.1, .inl rfl⟩
  rcases hrun with hrun | ⟨k, hrun⟩
  · exact hidle hex hw hp hrun
  · rcases Nat.lt_or_ge (M.listeners w).stopAt k with hk | hk
    · -- a run behind `core_*_stop` ends first
      have hend := goes_listeners (M := M) hex hw hrun fun _ => Nat.zero_lt_of_lt hk
      rw [if_neg (by omega)] at hend
      have hp' : ({ x.proc w with run := .idle, breaks := (x.proc w).breaks + 0 } : Proc).Stopping (M.listeners w).stopAt := by
        refine ⟨hp.1, ?_⟩
        have hsum := hp.2
        unfold Proc.ahead at hsum ⊢
        rw [hrun, Run.ahead, if_neg (by omega)] at hsum
        exact hsum
      obtain ⟨q, hgoes, hq⟩ := hidle (x := x.put w { x.proc w with run := .idle, breaks := (x.proc w).breaks + 0 })
        (by rwa [put_exists]) hw (by rwa [put_same]) (by simp)
      rw [put_put] at hgoes
      exact ⟨q, hend.trans hgoes, hq⟩
    · exact hlistener hex hw hp hrun hk

theorem Net.Fine.active (hf : x.Fine M) (hstate : (x.proc w).state = .stopping) (hw : w ≠ .manager) : (x.proc w).run.active := by
  have hp := hf.live.proc w
  unfold Proc.Live at hp
  cases hrun : (x.proc w).run with
  | unborn => rw [hrun, hstate] at hp; cases hp.1
  | boot => rw [hrun, hstate] at hp; rcases hp with h | ⟨h, -⟩ <;> cases h
  | returned => rw [hrun, hstate] at hp; rcases hp with ⟨h | h, -⟩ <;> cases h
  | down =>
    rw [hrun, hstate] at hp
    rcases hp with h | ⟨-, h | h⟩
    · exact absurd h hw
    · cases h
    · cases h
  | _ => trivial

theorem Net.Fine.stopping (hf : x.Fine M) (hstate : (x.proc w).state = .stopping)
    (hrun : (x.proc w).run = .idle ∨ ∃ k, (x.proc w).run = .listener k) : (x.proc w).Stopping (M.listeners w).stopAt := by
  rcases hrun with hrun | ⟨k, hrun⟩
  · rcases hf.live.idle hrun with h | h
    · rw [hstate] at h
      cases h
    · exact h
  · rcases hf.live.listener hrun with ⟨h, -⟩ | h
    · rw [hstate] at h
      cases h
    · exact h

/-! ## The workers -/

/-- x and y differ in the process w alone -/
structure Net.Only (w : Who N) (x y : Net N) : Prop where
  proc : ∀ v, v ≠ w → y.proc v = x.proc v
  inbox : ∀ v, v ≠ w → y.inbox v = x.inbox v
  shutdowns : ∀ v, v ≠ w → y.shutdowns v = x.shutdowns v
  sending : y.sending = x.sending

theorem Net.Only.trans (h1 : Only w x y) (h2 : Only w y z) : Only w x z where
  proc v hv := (h2.proc v hv).trans (h1.proc v hv)
  inbox v hv := (h2.inbox v hv).trans (h1.inbox v hv)
  shutdowns v hv := (h2.shutdowns v hv).trans (h1.shutdowns v hv)
  sending := h2.sending.trans h1.sending

theorem Net.only_put (x : Net N) (w : Who N) (p : Proc) : Only w x (x.put w p) where
  proc _ hv := put_other x hv p
  inbox _ _ := rfl
  shutdowns _ _ := rfl
  sending := rfl

def Proc.Ended (p : Proc) : Prop := p.state = .stopped ∨ p.state = .dead

theorem worker_exists (hup : (x.proc .manager).run ≠ .down) : x.exists_for (.worker j) := decide_eq_true hup

theorem goes_exit (hup : (x.proc .manager).run ≠ .down) (hrun : (x.proc (.worker j)).run = .left)
    (hs : (x.proc (.worker j)).state = .stopping) :
    Goes M x (x.put (.worker j) { x.proc (.worker j) with state := .stopped, run := .down }) := by
  apply Goes.one (a := .exit (.worker j)) ⟨trivial, trivial⟩
  change (if x.exists_for (.worker j) ∧ (x.proc (.worker j)).run = .left then some (exit x.toSys (.worker j)) else none).map _ = _
  rw [if_pos ⟨worker_exists hup, hrun⟩]
  simp only [exit, hs, if_true]
  rfl

/-- a worker in its stop event -/
theorem goes_stopped (hup : (x.proc .manager).run ≠ .down)
    (hp : (x.proc (.worker j)).Stopping (M.listeners (.worker j)).stopAt)
    (hrun : (x.proc (.worker j)).run = .idle ∨ ∃ k, (x.proc (.worker j)).run = .listener k) :
    ∃ y, Goes M x y ∧ Only (.worker j) x y ∧ (y.proc (.worker j)).Ended := by
  obtain ⟨q, hgoes, hs, hleft | ⟨htries, -⟩⟩ := goes_try (worker_exists hup) (by simp) hp hrun
  · have hup' : ((x.put (.worker j) q).proc .manager).run ≠ .down := by rwa [put_other x (by simp)]
    have hexit := goes_exit (M := M) (x := x.put (.worker j) q) (j := j) hup' (by simpa using hleft) (by simpa using hs)
    rw [put_put, put_same] at hexit
    exact ⟨_, hgoes.trans hexit, only_put x _ _, .inl (by simp)⟩
  · cases htries

/-- `shutdown_handle_cb` in a worker that runs -/
theorem goes_shutdown (hup : (x.proc .manager).run ≠ .down) (hrun : (x.proc (.worker j)).run = .idle)
    (hs : (x.proc (.worker j)).state = .running) (hd : (x.proc (.worker j)).delays = []) (hb : (x.proc (.worker j)).breaks = 0)
    (hpending : 0 < x.shutdowns (.worker j)) : ∃ y, Goes M x y ∧ Only (.worker j) x y ∧ (y.proc (.worker j)).Ended := by
  set z : Net N := ⟨{ x.put (.worker j) { (x.proc (.worker j)).publish with state := .stopping } with
    shutdowns := Function.update x.shutdowns (.worker j) (x.shutdowns (.worker j) - 1) }, x.sending⟩ with hz
  have hproc : z.proc (.worker j) = { (x.proc (.worker j)).publish with state := .stopping } := put_same x _ _
  have hgoes : Goes M x z := by
    apply Goes.one (a := .shutdown (.worker j)) ⟨trivial, trivial⟩
    change (if x.exists_for (.worker j) ∧ (x.proc (.worker j)).run = .idle ∧ 0 < x.shutdowns (.worker j) then some (shutdown_handle_cb
      { x.toSys with shutdowns := Function.update x.shutdowns (.worker j) (x.shutdowns (.worker j) - 1) } (.worker j)) else none).map _ = _
    rw [if_pos ⟨worker_exists hup, hrun, hpending⟩]
    simp only [shutdown_handle_cb, Sys.stop, shuso_stop_worker, hs, if_true]
    rfl
  have honly : Only (.worker j) x z := ⟨fun v hv => put_other x hv _, fun _ _ => rfl, fun v hv => Function.update_of_ne hv .., rfl⟩
  have hp : (z.proc (.worker j)).Stopping (M.listeners (.worker j)).stopAt := by
    rw [hproc]
    refine ⟨rfl, ?_⟩
    unfold Proc.ahead Proc.publish
    simp [hd, hb, Run.ahead]
  have hup' : (z.proc .manager).run ≠ .down := by rwa [honly.proc _ (by simp)]
  obtain ⟨y, hend, honly', hended⟩ := goes_stopped hup' hp (.inr ⟨0, by rw [hproc]; rfl⟩)
  exact ⟨y, hgoes.trans hend, honly.trans honly', hended⟩

/-- a worker that runs, with a command on its way to it -/
theorem goes_told (hup : (x.proc .manager).run ≠ .down) (hrun : (x.proc (.worker j)).run = .idle)
    (hs : (x.proc (.worker j)).state = .running) (hd : (x.proc (.worker j)).delays = []) (hb : (x.proc (.worker j)).breaks = 0)
    (htold : ¬ x.Quiet j) : ∃ y, Goes M x y ∧ Only (.worker j) x y ∧ (y.proc (.worker j)).Ended := by
  rcases Nat.eq_zero_or_pos (x.shutdowns (.worker j)) with hzero | hpending
  · have hinbox : 0 < x.inbox (.worker j) := Nat.pos_of_ne_zero fun h0 => htold ⟨by rw [hs]; trivial, h0, hzero⟩
    set z : Net N := ⟨{ x.toSys with
      inbox := Function.update x.inbox (.worker j) (x.inbox (.worker j) - 1)
      shutdowns := Function.update x.shutdowns (.worker j) (x.shutdowns (.worker j) + 1) }, x.sending⟩ with hz
    have hgoes : Goes M x z := by
      apply Goes.one (a := .receive (.worker j)) ⟨trivial, trivial⟩
      change (if x.exists_for (.worker j) ∧ (x.proc (.worker j)).run = .idle ∧ 0 < x.inbox (.worker j) then _ else none :
        Option (Sys N)).map _ = _
      rw [if_pos ⟨worker_exists hup, hrun, hinbox⟩]
      rfl
    have honly : Only (.worker j) x z :=
      ⟨fun _ _ => rfl, fun v hv => Function.update_of_ne hv .., fun v hv => Function.update_of_ne hv .., rfl⟩
    have hpending : 0 < z.shutdowns (.worker j) := by simp [hz]
    obtain ⟨y, hend, honly', hended⟩ := goes_shutdown (M := M) (x := z) hup hrun hs hd hb hpending
    exact ⟨y, hgoes.trans hend, honly.trans honly', hended⟩
  · exact goes_shutdown hup hrun hs hd hb hpending

/-- **A worker** that is there and not quiet comes to its end. -/
theorem goes_worker (hf : x.Fine M) (hup : (x.proc .manager).run ≠ .down) (hborn : (x.proc (.worker j)).run ≠ .unborn)
    (htold : ¬ x.Quiet j) : ∃ y, Goes M x y ∧ Only (.worker j) x y ∧ (y.proc (.worker j)).Ended := by
  have hp := hf.live.proc (.worker j)
  have hworker := hf.good (.worker j)
  unfold Proc.Live at hp
  cases hrun : (x.proc (.worker j)).run with
  | unborn => exact absurd hrun hborn
  | boot =>
    rw [hrun] at hp
    rcases hp with hs | ⟨-, hloop⟩
    · obtain ⟨hd, hb, -⟩ := hworker.fresh (by rw [hs]; trivial)
      have hgoes : Goes M x (x.put (.worker j) { x.proc (.worker j) with state := .running, run := .idle }) := by
        apply Goes.one (a := .start j) ⟨trivial, trivial⟩
        change (if x.exists_for (.worker j) ∧ (x.proc (.worker j)).run = .boot ∧ (x.proc (.worker j)).state = .starting then _ else none :
          Option (Sys N)).map _ = _
        rw [if_pos ⟨worker_exists hup, hrun, hs⟩]
        rfl
      obtain ⟨y, hend, honly, hended⟩ := goes_told (M := M) (j := j)
        (x := x.put (.worker j) { x.proc (.worker j) with state := .running, run := .idle }) (by rwa [put_other x (by simp)]) (by simp)
        (by simp) (by simpa using hd) (by simpa using hb) fun hq => htold ⟨by rw [hs]; trivial, hq.inbox, hq.shutdowns⟩
      exact ⟨y, hgoes.trans hend, (only_put x _ _).trans honly, hended⟩
    · cases hloop
  | idle =>
    rw [hrun] at hp
    rcases hp with hs | hp
    · obtain ⟨hd, hb, -⟩ := hworker.fresh (by rw [hs]; trivial)
      exact goes_told hup hrun hs hd hb htold
    · exact goes_stopped hup hp (.inl hrun)
  | listener k =>
    rw [hrun] at hp
    rcases hp with ⟨hs, -⟩ | hp
    · have hstopping := hworker.stopping (by rw [hrun]; exact fun hq => hq) (.inr rfl)
      rw [hs] at hstopping
      cases hstopping
    · exact goes_stopped hup hp (.inr ⟨k, hrun⟩)
  | scan i all =>
    rw [hrun] at hp
    cases hp.1
  | look i all =>
    rw [hrun] at hp
    cases hp.1
  | left =>
    rw [hrun] at hp
    exact ⟨_, goes_exit hup hrun hp.1, only_put x _ _, .inl (by simp)⟩
  | returned =>
    rw [hrun] at hp
    cases hp.2
  | down =>
    rw [hrun] at hp
    rcases hp with hm | ⟨-, hended⟩
    · cases hm
    · exact ⟨x, .refl x, ⟨fun _ _ => rfl, fun _ _ => rfl, fun _ _ => rfl, rfl⟩, hended⟩

theorem Net.Only.quiet {i : Fin N} (h : Only (.worker i) x y) (hne : j ≠ i) (hq : y.Quiet j) : x.Quiet j := by
  have hv : (Who.worker j : Who N) ≠ .worker i := by simpa using hne
  exact ⟨h.proc _ hv ▸ hq.fresh, h.inbox _ hv ▸ hq.inbox, h.shutdowns _ hv ▸ hq.shutdowns⟩

/-- **The workers** come to their end, one after the other. -/
theorem goes_workers (hf : x.Fine M) (hup : (x.proc .manager).run ≠ .down) (hborn : ∀ j, (x.proc (.worker j)).run ≠ .unborn)
    (htold : ∀ j, ¬ x.Quiet j) :
    ∃ y, Goes M x y ∧ y.proc .master = x.proc .master ∧ y.proc .manager = x.proc .manager ∧ y.sending = x.sending ∧
      ∀ j, (y.proc (.worker j)).Ended := by
  have hfirst : ∀ n ≤ N, ∃ y, Goes M x y ∧ y.proc .master = x.proc .master ∧ y.proc .manager = x.proc .manager ∧
      y.sending = x.sending ∧ (∀ j : Fin N, j.val < n → (y.proc (.worker j)).Ended) ∧
      ∀ j : Fin N, n ≤ j.val → (y.proc (.worker j)).run ≠ .unborn ∧ ¬ y.Quiet j := by
    intro n hn
    induction n with
    | zero => exact ⟨x, .refl x, rfl, rfl, rfl, fun j hj => absurd hj (Nat.not_lt_zero _), fun j _ => ⟨hborn j, htold j⟩⟩
    | succ n ih =>
      obtain ⟨y, hgoes, hmaster, hmanager, hsending, hended, hrest⟩ := ih (by omega)
      obtain ⟨hborn', htold'⟩ := hrest ⟨n, by omega⟩ le_rfl
      obtain ⟨z, hworker, honly, hlast⟩ := goes_worker (hgoes.fine hf) (by rw [hmanager]; exact hup) hborn' htold'
      refine ⟨z, hgoes.trans hworker, (honly.proc _ (by simp)).trans hmaster, (honly.proc _ (by simp)).trans hmanager,
        honly.sending.trans hsending, fun j hj => ?_, fun j hj => ?_⟩
      · rcases eq_or_ne j ⟨n, by omega⟩ with heq | hne
        · rw [heq]
          exact hlast
        · rw [honly.proc _ (by simpa using hne)]
          exact hended j (by have := Fin.val_ne_of_ne hne; simp only at this; omega)
      · have hne : j ≠ ⟨n, by omega⟩ := fun heq => by rw [heq] at hj; simp only at hj; omega
        rw [honly.proc _ (by simpa using hne)]
        exact ⟨(hrest j (by omega)).1, fun hq => (hrest j (by omega)).2 (honly.quiet hne hq)⟩
  obtain ⟨y, hgoes, hmaster, hmanager, hsending, hended, -⟩ := hfirst N le_rfl
  exact ⟨y, hgoes, hmaster, hmanager, hsending, fun j => hended j j.isLt⟩

/-! ## The manager -/

theorem step_manager (hs : x.sending = none)
    (hturn : ¬ ((x.proc .manager).run = .listener 0 ∧ (x.proc .manager).state = .running)) :
    x.step M (.call .manager false) = (call M x.toSys .manager false).map fun s => ⟨s, none⟩ := by
  rw [step_call (fun _ => hs) (fun _ => hturn), hs]
  rfl

/-- the loop over workers that have all stopped -/
theorem goes_scan {all : Bool} (hs : x.sending = none) (hended : ∀ i, (x.proc (.worker i)).Ended)
    (hrun : (x.proc .manager).run = .scan k all) :
    ∃ y, Goes M x y ∧ y.sending = none ∧ (∀ i, (y.proc (.worker i)).Ended) ∧ y.proc .master = x.proc .master ∧
      y.proc .manager = if all then (x.proc .manager).proceed 0 else (x.proc .manager).delay 0 := by
  obtain ⟨n, hn⟩ : ∃ n, N - k = n := ⟨_, rfl⟩
  induction n generalizing x k with
  | zero =>
    have hstep : x.step M (.call .manager false) =
        some (x.put .manager (if all then (x.proc .manager).proceed 0 else (x.proc .manager).delay 0)) := by
      rw [step_manager hs (by rw [hrun]; simp), call]
      simp only [hrun, if_true, Option.map_some, scan, dif_neg (show ¬ k < N by omega)]
      unfold put
      rw [hs]
      split_ifs <;> rfl
    refine ⟨_, .call hstep, hs, fun i => ?_, put_other x (by simp) _, put_same ..⟩
    rw [put_other x (by simp)]
    exact hended i
  | succ n ih =>
    have hk : k < N := by omega
    -- the worker k is joined, and found dead
    set w : Who N := .worker ⟨k, hk⟩ with hw
    set x₁ := x.put .manager { x.proc .manager with run := .look k all } with hx₁
    set x₂ := x₁.put w { x.proc w with state := .dead } with hx₂
    have hother : x₁.proc w = x.proc w := put_other x (by simp [hw]) _
    have hscan : x.step M (.call .manager false) = some x₂ := by
      rw [step_manager hs (by rw [hrun]; simp), call]
      simp only [hrun, if_true, Option.map_some, scan, dif_pos hk]
      rcases hended ⟨k, hk⟩ with hstopped | hdead
      · rw [if_pos hstopped, hx₂, hx₁]
        unfold put
        rw [hs]
      · have hsame : ({ x.proc w with state := .dead } : Proc) = x₁.proc w := by
          rw [hother, ← hdead]
        rw [if_neg (by rw [hdead]; decide), hx₂, hsame, put_self, hx₁]
        unfold put
        rw [hs]
    have hmanager : x₂.proc .manager = { x.proc .manager with run := .look k all } := by
      rw [hx₂, put_other x₁ (by simp [hw]), hx₁, put_same]
    have hdead : (x₂.proc w).state = .dead := by
      rw [hx₂, put_same]
    have hs₂ : x₂.sending = none := hs
    have hlook : x₂.step M (.call .manager false) =
        some (x₂.put .manager { x₂.proc .manager with run := .scan (k + 1) all }) := by
      rw [step_manager hs₂ (by rw [hmanager]; simp), call]
      simp only [hmanager, if_true, Option.map_some, look, dif_pos hk]
      rw [← hw, hdead]
      unfold put
      simp [hs₂]
    obtain ⟨y, hgoes, hsending, hended', hmaster, hlast⟩ := ih
      (x := x₂.put .manager { x₂.proc .manager with run := .scan (k + 1) all }) (k := k + 1) hs (fun i => by
        rw [put_other x₂ (by simp)]
        rcases eq_or_ne (Who.worker i) w with heq | hne
        · rw [heq]
          exact .inr hdead
        · rw [hx₂, put_other x₁ hne, hx₁, put_other x (by simp)]
          exact hended i) (by simp) (by omega)
    refine ⟨y, (Goes.call hscan).trans ((Goes.call hlook).trans hgoes), hsending, hended', ?_, ?_⟩
    · rw [hmaster, put_other x₂ (by simp), hx₂, put_other x₁ (by simp [hw]), hx₁, put_other x (by simp)]
    · rw [hlast, put_same, hmanager]
      rfl

theorem goes_returned (hrun : (x.proc w).run = .left) (hloop : w.runs_loop) :
    Goes M x (x.put w { x.proc w with state := .stopped, run := .returned }) := by
  have hex : x.exists_for w := by
    cases w with
    | worker j => cases hloop
    | _ => rfl
  apply Goes.one (a := .exit w) ⟨trivial, trivial⟩
  change (if x.exists_for w ∧ (x.proc w).run = .left then some (exit x.toSys w) else none).map _ = _
  rw [if_pos ⟨hex, hrun⟩]
  cases w with
  | worker j => cases hloop
  | _ => rfl

/-- a manager at `core_manager_try_stop`, all of its workers having stopped -/
theorem goes_manager_try (hs : x.sending = none) (hended : ∀ i, (x.proc (.worker i)).Ended)
    (hstate : (x.proc .manager).state = .stopping) (hrun : (x.proc .manager).run = .listener 0) :
    ∃ y, Goes M x y ∧ y.proc .master = x.proc .master ∧ (y.proc .manager).run = .left := by
  have hstep : x.step M (.call .manager false) = some (x.put .manager { x.proc .manager with run := .scan 0 true }) := by
    rw [step_manager hs (by rw [hstate]; simp), call]
    have htries : (M.listeners (N := N) .manager).tries = true := rfl
    simp only [hrun, htries, true_and, if_true, Option.map_some, core_manager_try_stop, Proc.turned, hstate]
    unfold put
    rw [hs]
    simp [hstate]
  obtain ⟨y, hgoes, hsending, -, hmaster, hlast⟩ := goes_scan (M := M) (x := x.put .manager { x.proc .manager with run := .scan 0 true })
    hs (fun i => by rw [put_other x (by simp)]; exact hended i) (by rw [put_same])
  rw [put_same, if_pos rfl] at hlast
  have hpast := goes_past (M := M) (x := y) (w := .manager) (k := 1) rfl (fun _ => hsending) (by rw [hlast]; rfl) (fun _ => Nat.one_pos)
    ((M.listeners (N := N) .manager).stopAt_pos rfl)
  refine ⟨_, (Goes.call hstep).trans (hgoes.trans hpast), ?_, by simp⟩
  rw [put_other y (by simp), hmaster, put_other x (by simp)]

theorem goes_manager_left (hf : x.Fine M) (hs : x.sending = none) (hended : ∀ i, (x.proc (.worker i)).Ended)
    (hstate : (x.proc .manager).state = .stopping) (hrun : (x.proc .manager).run = .idle ∨ ∃ k, (x.proc .manager).run = .listener k) :
    ∃ y, Goes M x y ∧ y.proc .master = x.proc .master ∧ (y.proc .manager).run = .left := by
  obtain ⟨q, hgoes, hq, hleft | ⟨-, hzero, -⟩⟩ := goes_try rfl (fun _ => hs) (hf.stopping hstate hrun) hrun
  · exact ⟨_, hgoes, put_other x (by simp) _, by simpa using hleft⟩
  · obtain ⟨y, htry, hmaster, hleft⟩ := goes_manager_try (M := M) (x := x.put .manager q) hs
      (fun i => by rw [put_other x (by simp)]; exact hended i) (by simpa using hq) (by simpa using hzero)
    exact ⟨y, hgoes.trans htry, hmaster.trans (put_other x (by simp) _), hleft⟩

/-- **The manager** comes to its end once its workers have, and they are all DEAD then. -/
theorem goes_manager (hf : x.Fine M) (hs : x.sending = none) (hended : ∀ i, (x.proc (.worker i)).Ended)
    (hstate : (x.proc .manager).state = .stopping) (hact : (x.proc .manager).run.active) :
    ∃ y, Goes M x y ∧ y.proc .master = x.proc .master ∧ (y.proc .manager).run = .returned ∧
      ∀ j, (y.proc (.worker j)).state = .dead := by
  have hleft : ∃ y, Goes M x y ∧ y.proc .master = x.proc .master ∧ (y.proc .manager).run = .left := by
    have hloop : ∀ {x : Net N} {k all}, x.Fine M → x.sending = none → (∀ i, (x.proc (.worker i)).Ended) →
        (x.proc .manager).state = .stopping → (x.proc .manager).run = .scan k all →
        ∃ y, Goes M x y ∧ y.proc .master = x.proc .master ∧ (y.proc .manager).run = .left := by
      intro x k all hf hs hended hstate hrun
      obtain ⟨y, hgoes, hsending, hended', hmaster, hlast⟩ := goes_scan hs hended hrun
      have hstate' : (y.proc .manager).state = .stopping := by
        rw [hlast]
        split_ifs <;> exact hstate
      have hrun' : (y.proc .manager).run = .idle ∨ ∃ k, (y.proc .manager).run = .listener k := by
        rw [hlast]
        split_ifs
        · exact .inr ⟨1, rfl⟩
        · exact .inl rfl
      obtain ⟨z, hgoes', hmaster', hleft⟩ := goes_manager_left (hgoes.fine hf) hsending hended' hstate' hrun'
      exact ⟨z, hgoes.trans hgoes', hmaster'.trans hmaster, hleft⟩
    cases hrun : (x.proc .manager).run with
    | idle => exact goes_manager_left hf hs hended hstate (.inl hrun)
    | listener k => exact goes_manager_left hf hs hended hstate (.inr ⟨k, hrun⟩)
    | left => exact ⟨x, .refl x, rfl, hrun⟩
    | scan k all => exact hloop hf hs hended hstate hrun
    | look k all =>
      -- one more look
      have hstep : x.step M (.call .manager false) = some ⟨look x.toSys k all, none⟩ := by
        rw [step_manager hs (by rw [hrun]; simp), call]
        simp only [hrun, if_true, Option.map_some]
      have hp := hf.live.proc .manager
      unfold Proc.Live at hp
      rw [hrun] at hp
      have hlook : look x.toSys k all = x.set .manager { x.proc .manager with
          run := .scan (k + 1) (all && (x.proc (.worker ⟨k, hp.2.1⟩)).state == .dead) } := by
        unfold look
        rw [dif_pos hp.2.1]
      rw [hlook] at hstep
      obtain ⟨y, hgoes, hmaster, hleft⟩ := hloop (hf.step hstep) rfl (fun i => by
        change ((x.set .manager _).proc (.worker i)).Ended
        rw [set_other _ (by simp)]
        exact hended i) (by simpa using hstate) (by rw [set_same])
      exact ⟨y, (Goes.call hstep).trans hgoes, hmaster.trans (set_other _ (by simp) _), hleft⟩
    | unborn => rw [hrun] at hact; exact hact.elim
    | boot => rw [hrun] at hact; exact hact.elim
    | returned => rw [hrun] at hact; exact hact.elim
    | down => rw [hrun] at hact; exact hact.elim
  obtain ⟨y, hgoes, hmaster, hrun⟩ := hleft
  have hp := (hgoes.fine hf).live.proc .manager
  unfold Proc.Live at hp
  rw [hrun] at hp
  have hdead := ((hgoes.fine hf).good.in_order).manager hp.2
  refine ⟨_, hgoes.trans (goes_returned hrun rfl), ?_, by simp, fun j => ?_⟩
  · rw [put_other y (by simp), hmaster]
  · rw [put_other y (by simp)]
    exact hdead j

/-! ## The master -/

/-- a master that is STOPPING is in its loop or its stop event -/
theorem Net.Fine.master_run (hf : x.Fine M) (hstate : (x.proc .master).state = .stopping) :
    (x.proc .master).run = .left ∨ (x.proc .master).run = .idle ∨ ∃ k, (x.proc .master).run = .listener k := by
  have hact := hf.active hstate (by simp)
  have hp := hf.live.proc .master
  unfold Proc.Live at hp
  cases hrun : (x.proc .master).run with
  | idle => exact .inr (.inl rfl)
  | listener k => exact .inr (.inr ⟨k, rfl⟩)
  | left => exact .inl rfl
  | scan k all => rw [hrun] at hp; cases hp.1
  | look k all => rw [hrun] at hp; cases hp.1
  | _ => rw [hrun] at hact; exact hact.elim

/-- the master calls `core_master_try_stop` -/
theorem step_master (hrun : (x.proc .master).run = .listener 0) :
    x.step M (.call .master false) = some ⟨core_master_try_stop x.toSys, x.sending⟩ := by
  have htries : (M.listeners (N := N) .master).tries = true := rfl
  change (call M x.toSys .master false).map _ = _
  unfold call
  simp only [hrun, htries, true_and, if_true, Option.map_some]

/-- **The master** comes to its end once the manager is DEAD. -/
theorem goes_master (hf : x.Fine M) (hstate : (x.proc .master).state = .stopping) (hdead : (x.proc .manager).state = .dead) :
    ∃ y, Goes M x y ∧ (y.proc .master).run = .returned ∧ ∀ j, y.proc (.worker j) = x.proc (.worker j) := by
  have hend : ∀ {z : Net N}, Goes M x z → (z.proc .master).run = .left → (∀ j, z.proc (.worker j) = x.proc (.worker j)) →
      ∃ y, Goes M x y ∧ (y.proc .master).run = .returned ∧ ∀ j, y.proc (.worker j) = x.proc (.worker j) := by
    intro z hgoes hrun hworkers
    refine ⟨_, hgoes.trans (goes_returned hrun rfl), by simp, fun j => ?_⟩
    rw [put_other z (by simp), hworkers j]
  rcases hf.master_run hstate with hrun | hrun
  · exact hend (.refl x) hrun fun _ => rfl
  · obtain ⟨q, hgoes, hq, hleft | ⟨-, hzero, -⟩⟩ := goes_try (M := M) (w := .master) rfl (by simp) (hf.stopping hstate hrun) hrun
    · exact hend hgoes (by simpa using hleft) fun j => put_other x (by simp) q
    · have hstep := step_master (M := M) (x := x.put .master q) (by simpa using hzero)
      have hpass : core_master_try_stop (x.put .master q).toSys = (x.put .master (q.proceed 0)).toSys := by
        have hmanager : ((x.put .master q).proc .manager).state = .dead := by
          rw [put_other x (by simp)]
          exact hdead
        unfold core_master_try_stop
        simp only [hmanager, put_same, Proc.turned, hq]
        simp [put, Sys.set, hdead]
      rw [hpass] at hstep
      have hpast := goes_past (M := M) (x := x.put .master (q.proceed 0)) (w := .master) (k := 1) rfl (by simp) (by simp [Proc.proceed])
        (fun _ => Nat.one_pos) ((M.listeners (N := N) .master).stopAt_pos rfl)
      rw [put_put] at hpast
      exact hend (hgoes.trans ((Goes.call hstep).trans hpast)) (by simp) fun j => put_other x (by simp) _

/-- the master learns that the manager is down -/
theorem goes_sigchld (hf : x.Fine M) (hstate : (x.proc .master).state = .stopping) (hdown : (x.proc .manager).run = .down) :
    ∃ y, Goes M x y ∧ (y.proc .master).state = .stopping ∧ (y.proc .manager).state = .dead ∧
      ∀ j, y.proc (.worker j) = x.proc (.worker j) := by
  have hchild : ∀ {z : Net N}, Goes M x z → (z.proc .master).state = .stopping → (z.proc .master).run = .idle →
      (z.proc .manager).run = .down → (∀ j, z.proc (.worker j) = x.proc (.worker j)) →
      ∃ y, Goes M x y ∧ (y.proc .master).state = .stopping ∧ (y.proc .manager).state = .dead ∧
        ∀ j, y.proc (.worker j) = x.proc (.worker j) := by
    intro z hgoes hstate hrun hdown hworkers
    have hone : Goes M z (z.put .manager { z.proc .manager with state := .dead }) := by
      apply Goes.one (a := .sigchld) ⟨trivial, trivial⟩
      change (if (z.proc .master).run = .idle ∧ (z.proc .manager).run = .down then _ else none : Option (Sys N)).map _ = _
      rw [if_pos ⟨hrun, hdown⟩]
      rfl
    refine ⟨_, hgoes.trans hone, by rwa [put_other z (by simp)], by simp, fun j => ?_⟩
    rw [put_other z (by simp), hworkers j]
  by_cases hdead : (x.proc .manager).state = .dead
  · exact ⟨x, .refl x, hstate, hdead, fun _ => rfl⟩
  · have hpassed : ¬ (x.proc .master).passed := fun hp => hdead ((hf.good .master).passed hp)
    rcases hf.master_run hstate with hrun | hrun | ⟨k, hrun⟩
    · have hp := hf.live.proc .master
      unfold Proc.Live at hp
      rw [hrun] at hp
      exact absurd (.inl hp.2) hpassed
    · exact hchild (.refl x) hstate hrun hdown fun _ => rfl
    · cases k with
      | succ k => exact absurd (.inr (.inr ⟨k, hrun⟩)) hpassed
      | zero =>
        -- it waits on
        have hstep := step_master (M := M) hrun
        have hwait : (core_master_try_stop x.toSys).proc = (x.set .master ((x.proc .master).delay 0)).proc := by
          unfold core_master_try_stop
          simp only [Proc.turned, hstate]
          split_ifs <;> first | rfl | contradiction
        refine hchild (.call hstep) ?_ ?_ ?_ fun j => ?_
        · rw [hwait, set_same]
          exact hstate
        · rw [hwait, set_same]
          rfl
        · rw [hwait, set_other _ (by simp)]
          exact hdown
        · rw [hwait, set_other _ (by simp)]

/-- the master comes to its end behind the manager -/
theorem goes_end (hf : x.Fine M) (hstate : (x.proc .master).state = .stopping) (hgone : (x.proc .manager).run.gone) :
    ∃ y, Goes M x y ∧ (y.proc .master).run = .returned ∧ ∀ j, y.proc (.worker j) = x.proc (.worker j) := by
  have hdown : ∀ {z : Net N}, Goes M x z → (z.proc .master).state = .stopping → (z.proc .manager).run = .down →
      (∀ j, z.proc (.worker j) = x.proc (.worker j)) →
      ∃ y, Goes M x y ∧ (y.proc .master).run = .returned ∧ ∀ j, y.proc (.worker j) = x.proc (.worker j) := by
    intro z hz hstate hrun hworkers
    obtain ⟨u, hu, hstate', hdead, hsame⟩ := goes_sigchld (hz.fine hf) hstate hrun
    obtain ⟨y, hy, hreturned, hlast⟩ := goes_master (hu.fine (hz.fine hf)) hstate' hdead
    exact ⟨y, hz.trans (hu.trans hy), hreturned, fun j => (hlast j).trans ((hsame j).trans (hworkers j))⟩
  cases hrun : (x.proc .manager).run with
  | down => exact hdown (.refl x) hstate hrun fun _ => rfl
  | returned =>
    have hdie : Goes M x (x.put .manager { x.proc .manager with run := .down }) := by
      apply Goes.one (a := .die) ⟨hrun, trivial⟩
      change (if (x.proc .manager).run ≠ .unborn ∧ (x.proc .manager).run ≠ .down then _ else none : Option (Sys N)).map _ = _
      rw [if_pos ⟨by rw [hrun]; decide, by rw [hrun]; decide⟩]
      rfl
    exact hdown hdie (by rwa [put_other x (by simp)]) (by simp) fun j => put_other x (by simp) _
  | _ =>
    rw [hrun] at hgone
    exact hgone.elim

/-- **The whole stop**, once the workers have been told. -/
theorem goes_stop (hf : x.Fine M) (hmaster : (x.proc .master).state = .stopping) (hs : x.sending = none)
    (hstate : (x.proc .manager).state = .stopping) (hact : (x.proc .manager).run.active)
    (hborn : ∀ j, (x.proc (.worker j)).run ≠ .unborn) (htold : ∀ j, ¬ x.Quiet j) :
    ∃ y, Goes M x y ∧ (y.proc .master).run = .returned ∧ ∀ j, (y.proc (.worker j)).state = .dead := by
  have hup : (x.proc .manager).run ≠ .down := fun hd => by rw [hd] at hact; exact hact
  obtain ⟨y, hy, hmaster₁, hmanager₁, hs₁, hended⟩ := goes_workers hf hup hborn htold
  obtain ⟨z, hz, hmaster₂, hreturned, hdead⟩ := goes_manager (hy.fine hf) (hs₁.trans hs) hended (by rwa [hmanager₁])
    (by rwa [hmanager₁])
  obtain ⟨u, hu, hlast, hworkers⟩ := goes_end (hz.fine (hy.fine hf)) (by rwa [hmaster₂, hmaster₁]) (by rw [hreturned]; trivial)
  exact ⟨u, hy.trans (hz.trans hu), hlast, fun j => by rw [hworkers j]; exact hdead j⟩

end Shuttlesock.Stop
