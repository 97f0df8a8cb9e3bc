/-
The receivers of file descriptors (`ipc.c`): `shuso_ipc_receive_fd_start`, `shuso_ipc_receive_fd_finish`, `shuso_ipc_receive_fd_cancel`,
`ipc_receive_fd_timeout_cb`, and the last loop of `shuso_ipc_channel_local_stop`.

Model: `slot` are the integer keys of the Lua table "shuttlesock.ipc.fd_receivers", and `timer` is its key "timer". A timer is a userdata
of Lua; `timers` are those that exist. The collector of Lua may free one that the table does not hold (`collect`).
- `Receiver.timer`: history, the timer that was made for the receiver. It is not in its table.
- a call of the null pointer sets `crashed`.
- `called` lists the callbacks that were called.
- not in the model: the descriptions, the error texts, what is received.

Results:
- `right_iff`: in every run, a step does to its receiver, and to no other, what it should, exactly when it meets `Ok`: a receiver is
  finished only while no other timer than its own is the last one started and active, and none is cancelled.
- `not_right`: finishing one receiver stops the timer of another one.
-/
import Mathlib.Tactic
import Shuttlesock.Core.Runs
import Shuttlesock.Core.TableRefs

namespace Shuttlesock.FdReceivers

open Shuttlesock.Runs Shuttlesock.TableRefs

/-! ## Model -/

structure Receiver where
  callback : ℕ
  privdata : ℕ
  timer : Option ℕ
deriving DecidableEq

structure Timer where
  ref : ℤ
  active : Bool
deriving DecidableEq

/-- a call with no file descriptor -/
structure Call where
  callback : ℕ
  ok : Bool
  ref : ℤ
  received_pd : ℕ
deriving DecidableEq

structure St where
  slot : ℤ → Val Receiver
  timer : Option ℕ
  timers : ℕ → Option Timer
  called : List Call
  crashed : Bool

/-- `lua_getfield` on the table of the receivers -/
def getfield (s : St) (key : String) : Option ℕ := if key = "timer" then s.timer else none

/-- `shuso_ev_active` -/
def active (s : St) (i : ℕ) : Bool := (s.timers i).any Timer.active

/-- `shuso_ev_timer_stop` -/
def timer_stop (s : St) (i : ℕ) : St :=
  { s with timers := Function.update s.timers i ((s.timers i).map fun t => { t with active := false }) }

/-- timeout is the new timer, none without a timeout; n is the length of the table -/
def shuso_ipc_receive_fd_start (s : St) (callback pd : ℕ) (timeout : Option ℕ) (n : ℤ) : St :=
  let r := luaL_ref s.slot ⟨callback, pd, timeout⟩ n
  match timeout with
  | none => { s with slot := r.1 }
  | some i => { s with slot := r.1, timer := some i, timers := Function.update s.timers i (some ⟨r.2, true⟩) }

/-- behind the callback -/
def stop_timer (s : St) (ref : ℤ) : St :=
  let s :=
    match getfield s "timer" with
    | none => s
    | some i => if active s i then timer_stop s i else s
  { s with slot := luaL_unref s.slot ref }

def shuso_ipc_receive_fd_stop_generic (s : St) (ref : ℤ) (run_callback : Bool) : St :=
  if (s.slot ref).isnil then s
  else if run_callback then
    -- the entry has been popped: both fields are read from the table of the receivers
    match getfield s "callback" with
    | none => { s with crashed := true }
    | some callback => stop_timer { s with called := s.called ++ [⟨callback, false, ref, (getfield s "privdata").getD 0⟩] } ref
  else stop_timer s ref

def shuso_ipc_receive_fd_finish (s : St) (ref : ℤ) : St := shuso_ipc_receive_fd_stop_generic s ref false

def shuso_ipc_receive_fd_cancel (s : St) (ref : ℤ) : St := shuso_ipc_receive_fd_stop_generic s ref true

/-- a timer that fires is not active any more -/
def ipc_receive_fd_timeout_cb (s : St) (i : ℕ) (t : Timer) : St := shuso_ipc_receive_fd_finish (timer_stop s i) t.ref

inductive Key where
  | int (ref : ℤ)
  | string (key : String)

/-- `lua_istable` of a key -/
def Key.istable : Key → Bool
  | int _ => false
  | string _ => false

/-- the last loop of `shuso_ipc_channel_local_stop`, over the keys of the table in any order; ref is `lua_tointeger` of the value -/
def shuso_ipc_channel_local_stop (s : St) : List Key → St
  | [] => s
  | key :: keys =>
    if ¬key.istable then shuso_ipc_channel_local_stop s keys
    else shuso_ipc_channel_local_stop (shuso_ipc_receive_fd_cancel s 0) keys

inductive Act where
  | start (callback pd : ℕ) (timeout : Option ℕ) (n : ℤ)
  | finish (ref : ℤ)
  | cancel (ref : ℤ)
  | timeout (i : ℕ)
  | collect (i : ℕ)
  | stop (keys : List Key)

instance (slot : ℤ → Val Receiver) (n : ℤ) : Decidable (Border slot n) := by
  unfold Border
  infer_instance

def step (s : St) : Act → Option St
  | .start callback pd timeout n =>
    if Border (opened s.slot) n ∧ ∀ i ∈ timeout, s.timers i = none then
      some (shuso_ipc_receive_fd_start s callback pd timeout n)
    else none
  | .finish ref => some (shuso_ipc_receive_fd_finish s ref)
  | .cancel ref => some (shuso_ipc_receive_fd_cancel s ref)
  | .timeout i =>
    match s.timers i with
    | none => none
    | some t => if t.active then some (ipc_receive_fd_timeout_cb s i t) else none
  | .collect i => if s.timer ≠ some i then some { s with timers := Function.update s.timers i none } else none
  | .stop keys => some (shuso_ipc_channel_local_stop s keys)

def initial : St := ⟨fun _ => .nil, none, fun _ => none, [], false⟩

/-! ## The claim -/

/-- the receiver that is registered under a reference -/
def registered (s : St) : ℤ → Option Receiver := stored s.slot

/-- the receiver e under ref ends: its entry goes, its timer is stopped, and nothing else changes -/
structure Ends (s t : St) (ref : ℤ) (e : Receiver) : Prop where
  entry : registered t = Function.update (registered s) ref none
  own : ∀ i, e.timer = some i → active t i = false
  others : ∀ i, e.timer ≠ some i → t.timers i = s.timers i
  sound : t.crashed = false

/-- the call that a cancelled receiver gets -/
def Receiver.call (e : Receiver) (ref : ℤ) : Call := ⟨e.callback, false, ref, e.privdata⟩

/-- every receiver that is registered is cancelled, each once -/
structure AllCancelled (s t : St) : Prop where
  entry : ∀ ref, registered t ref = none
  once : ∀ ref e, registered s ref = some e → t.called.count (e.call ref) = s.called.count (e.call ref) + 1
  timers : ∀ i, active t i = false
  sound : t.crashed = false

/-- **The claim** for one step, from s to t. -/
def Right (s : St) (t : St) : Act → Prop
  | .start callback pd timeout _ =>
    t.called = s.called ∧ t.crashed = false ∧ (∀ i, timeout ≠ some i → t.timers i = s.timers i) ∧
      ∃ ref, registered s ref = none ∧ registered t = Function.update (registered s) ref (some ⟨callback, pd, timeout⟩) ∧
        ∀ i, timeout = some i → t.timers i = some ⟨ref, true⟩
  | .finish ref =>
    (registered s ref = none → t = s) ∧ ∀ e, registered s ref = some e → Ends s t ref e ∧ t.called = s.called
  | .cancel ref =>
    (registered s ref = none → t = s) ∧
      ∀ e, registered s ref = some e → Ends s t ref e ∧ t.called = s.called ++ [e.call ref]
  | .timeout i =>
    ∀ timer e, s.timers i = some timer → registered s timer.ref = some e → Ends s t timer.ref e ∧ t.called = s.called
  | .collect _ => registered t = registered s ∧ t.called = s.called ∧ t.crashed = false ∧ ∀ i, active t i = active s i
  | .stop _ => AllCancelled s t

/-- a timer that is active is the last one started exactly if it is that of e -/
def Latest (s : St) (e : Receiver) : Prop := ∀ i, active s i = true → (s.timer = some i ↔ e.timer = some i)

/-- a receiver is finished only if its timer is the last one started, as far as these are active; a timer fires only if no other one is
the last one started and active; the collector frees no active timer; and nothing that is registered is cancelled, or left to
`shuso_ipc_channel_local_stop`. A reference that is not registered was not given back before. -/
def Ok (s : St) : Act → Prop
  | .start _ _ _ _ => True
  | .finish ref => (s.slot ref).isnil = true ∨ ∃ e, registered s ref = some e ∧ Latest s e
  | .cancel ref => (s.slot ref).isnil = true
  | .timeout i => ∀ j, active s j = true → s.timer = some j → j = i
  | .collect i => active s i = false
  | .stop _ => ∀ ref, registered s ref = none

/-! ## The invariant -/

variable {s t : St} {ref : ℤ} {e : Receiver} {i : ℕ}

structure Inv (s : St) : Prop where
  wf : Wf s.slot
  /-- the timer of a receiver is active -/
  own : ∀ ref e i, registered s ref = some e → e.timer = some i → s.timers i = some ⟨ref, true⟩
  /-- an active timer is that of a receiver -/
  owned : ∀ i timer, s.timers i = some timer → timer.active = true →
    ∃ e, registered s timer.ref = some e ∧ e.timer = some i
  sound : s.crashed = false

theorem active_iff : active s i = true ↔ ∃ timer, s.timers i = some timer ∧ timer.active = true := by
  unfold active
  cases s.timers i <;> simp

theorem registered_slot (h : registered s ref = some e) : s.slot ref = .obj e := by
  unfold registered stored at h
  cases hs : s.slot ref with
  | nil =>
    rw [hs] at h
    cases h
  | int n =>
    rw [hs] at h
    cases h
  | obj a =>
    rw [hs] at h
    cases h
    rfl

theorem registered_none (h : (s.slot ref).isnil = true) : registered s ref = none := by
  unfold registered stored
  cases hs : s.slot ref with
  | nil => rfl
  | int n => rfl
  | obj a =>
    rw [hs] at h
    cases h

theorem not_nil_cases (h : (s.slot ref).isnil = false) :
    (∃ e, registered s ref = some e) ∨ registered s ref = none ∧ ∃ n, s.slot ref = .int n := by
  unfold registered stored
  cases hs : s.slot ref with
  | nil =>
    rw [hs] at h
    cases h
  | int n => exact .inr ⟨rfl, n, rfl⟩
  | obj a => exact .inl ⟨a, rfl⟩

theorem cancel_nil (h : (s.slot ref).isnil = true) : shuso_ipc_receive_fd_cancel s ref = s := if_pos h

theorem finish_nil (h : (s.slot ref).isnil = true) : shuso_ipc_receive_fd_finish s ref = s := if_pos h

/-- whatever is there is not cancelled -/
theorem cancel_crashes (h : (s.slot ref).isnil = false) : (shuso_ipc_receive_fd_cancel s ref).crashed = true := by
  simp [shuso_ipc_receive_fd_cancel, shuso_ipc_receive_fd_stop_generic, h, getfield]

theorem finish_eq (h : (s.slot ref).isnil = false) : shuso_ipc_receive_fd_finish s ref = stop_timer s ref := by
  simp [shuso_ipc_receive_fd_finish, shuso_ipc_receive_fd_stop_generic, h]

/-- the loop does not cancel anything -/
theorem local_stop_eq (s : St) (keys : List Key) : shuso_ipc_channel_local_stop s keys = s := by
  induction keys with
  | nil => rfl
  | cons key keys ih =>
    have hkey : key.istable = false := by cases key <;> rfl
    simpa [shuso_ipc_channel_local_stop, hkey] using ih

/-! ### Finishing -/

/-- the last timer started, if it is active -/
def stop_last (s : St) : St :=
  match s.timer with
  | none => s
  | some i => if active s i then timer_stop s i else s

theorem stop_timer_eq (s : St) (ref : ℤ) :
    stop_timer s ref = { stop_last s with slot := luaL_unref (stop_last s).slot ref } := by
  unfold stop_timer stop_last getfield
  rw [if_pos rfl]

theorem stop_last_none (h : s.timer = none) : stop_last s = s := by simp [stop_last, h]

theorem stop_last_some (h : s.timer = some i) : stop_last s = if active s i then timer_stop s i else s := by simp [stop_last, h]

theorem stop_last_frame (s : St) :
    (stop_last s).slot = s.slot ∧ (stop_last s).called = s.called ∧ (stop_last s).crashed = s.crashed ∧
      (stop_last s).timer = s.timer := by
  cases h : s.timer with
  | none =>
    rw [stop_last_none h]
    exact ⟨rfl, rfl, rfl, h⟩
  | some i =>
    rw [stop_last_some h]
    split_ifs
    · exact ⟨rfl, rfl, rfl, h⟩
    · exact ⟨rfl, rfl, rfl, h⟩

theorem stop_timer_slot (s : St) (ref : ℤ) : (stop_timer s ref).slot = luaL_unref s.slot ref := by
  rw [stop_timer_eq]
  exact congrArg (luaL_unref · ref) (stop_last_frame s).1

theorem stop_timer_frame (s : St) (ref : ℤ) :
    (stop_timer s ref).called = s.called ∧ (stop_timer s ref).crashed = s.crashed ∧ (stop_timer s ref).timer = s.timer := by
  rw [stop_timer_eq]
  exact (stop_last_frame s).2

/-- a timer that is not active stays as it is -/
theorem map_off (h : active s i = false) : ((s.timers i).map fun t => { t with active := false }) = s.timers i := by
  cases hi : s.timers i with
  | none => rfl
  | some timer =>
    have hoff : timer.active = false := by simpa [active, hi] using h
    rw [Option.map_some, ← hoff]

/-- **What is stopped is the last timer started**, whose ever it is. -/
theorem stop_timer_timers (s : St) (ref : ℤ) (i : ℕ) :
    (stop_timer s ref).timers i =
      if s.timer = some i then (s.timers i).map fun t => { t with active := false } else s.timers i := by
  rw [stop_timer_eq]
  cases hlast : s.timer with
  | none =>
    rw [stop_last_none hlast, if_neg (by simp)]
  | some j =>
    rw [stop_last_some hlast]
    by_cases hij : j = i
    · subst hij
      rw [if_pos rfl]
      cases hact : active s j with
      | true => simp [timer_stop]
      | false => simp [map_off hact]
    · have hne : some j ≠ some i := fun heq => hij (Option.some.inj heq)
      rw [if_neg hne]
      cases hact : active s j with
      | true => simp [timer_stop, Function.update_of_ne (Ne.symm hij)]
      | false => rfl

theorem stop_timer_active (s : St) (ref : ℤ) (i : ℕ) :
    active (stop_timer s ref) i = (active s i && !decide (s.timer = some i)) := by
  unfold active
  rw [stop_timer_timers]
  by_cases hi : s.timer = some i
  · rw [if_pos hi, decide_eq_true hi, Bool.not_true, Bool.and_false]
    cases s.timers i <;> rfl
  · simp [hi]

/-- a timer is changed only if it is active, and the last one started -/
theorem stop_timer_same (s : St) (ref : ℤ) (i : ℕ) :
    (stop_timer s ref).timers i = s.timers i ↔ ¬(active s i = true ∧ s.timer = some i) := by
  rw [stop_timer_timers]
  by_cases hi : s.timer = some i
  · rw [if_pos hi]
    cases hs : s.timers i with
    | none => simp [active, hs]
    | some timer =>
      obtain ⟨r, a⟩ := timer
      cases a <;> simp [active, hs, hi]
  · simp [hi]

theorem stop_timer_entry (h : Wf s.slot) (he : registered s ref = some e) :
    Wf (stop_timer s ref).slot ∧ registered (stop_timer s ref) = Function.update (registered s) ref none := by
  unfold registered
  rw [stop_timer_slot]
  exact unref_spec h (registered_slot he)

/-- **Exactly when the right receiver ends.** -/
theorem ends_iff (h : Inv s) (he : registered s ref = some e) : Ends s (stop_timer s ref) ref e ↔ Latest s e := by
  constructor
  · rintro ⟨-, hown, hothers, -⟩ i hi
    constructor
    · intro hlast
      by_contra hne
      exact (stop_timer_same s ref i).1 (hothers i hne) ⟨hi, hlast⟩
    · intro hi'
      have hoff := hown i hi'
      rw [stop_timer_active, hi, Bool.true_and, Bool.not_eq_false', decide_eq_true_eq] at hoff
      exact hoff
  · intro hlatest
    refine ⟨(stop_timer_entry h.wf he).2, fun i hi => ?_, fun i hi => ?_, (stop_timer_frame s ref).2.1.trans h.sound⟩
    · have hact : active s i = true := active_iff.2 ⟨_, h.own ref e i he hi, rfl⟩
      rw [stop_timer_active, decide_eq_true ((hlatest i hact).2 hi), Bool.not_true, Bool.and_false]
    · rw [stop_timer_same]
      rintro ⟨hact, hlast⟩
      exact hi ((hlatest i hact).1 hlast)

/-- the other receivers keep their timers, and no other timer is active -/
theorem Ends.inv (h : Inv s) (he : registered s ref = some e) (hwf : Wf t.slot) (hends : Ends s t ref e) : Inv t where
  wf := hwf
  own r e' i hr hi := by
    rw [hends.entry] at hr
    by_cases hrr : r = ref
    · rw [hrr, Function.update_self] at hr
      cases hr
    · rw [Function.update_of_ne hrr] at hr
      have hown := h.own r e' i hr hi
      rw [hends.others i, hown]
      intro hei
      rw [h.own ref e i he hei] at hown
      cases hown
      exact hrr rfl
  owned i timer ht hact := by
    have hne : e.timer ≠ some i := by
      intro hei
      have hoff := hends.own i hei
      rw [active, ht, Option.any_some, hact] at hoff
      cases hoff
    rw [hends.others i hne] at ht
    obtain ⟨e', he', hi'⟩ := h.owned i timer ht hact
    refine ⟨e', ?_, hi'⟩
    rw [hends.entry, Function.update_of_ne, he']
    intro heq
    rw [heq, he] at he'
    cases he'
    exact hne hi'
  sound := hends.sound

/-! ### One step -/

theorem finish_right (h : Inv s) (ref : ℤ) :
    Right s (shuso_ipc_receive_fd_finish s ref) (.finish ref) ↔ Ok s (.finish ref) := by
  cases hnil : (s.slot ref).isnil with
  | true =>
    refine ⟨fun _ => .inl hnil, fun _ => ⟨fun _ => finish_nil hnil, fun e he => ?_⟩⟩
    rw [registered_none hnil] at he
    cases he
  | false =>
    rw [finish_eq hnil]
    rcases not_nil_cases hnil with ⟨e, he⟩ | ⟨hnone, n, hint⟩
    · constructor
      · intro hright
        exact .inr ⟨e, he, (ends_iff h he).1 (hright.2 e he).1⟩
      · intro hok
        have hlatest : Latest s e := by
          rcases hok with hok | ⟨e', he', hlatest⟩
          · rw [hnil] at hok
            cases hok
          · rw [he] at he'
            cases he'
            exact hlatest
        refine ⟨fun hnone => ?_, fun e' he' => ?_⟩
        · rw [he] at hnone
          cases hnone
        · rw [he] at he'
          cases he'
          exact ⟨(ends_iff h he).2 hlatest, (stop_timer_frame s ref).1⟩
    · -- the reference was given back before
      constructor
      · intro hright
        have hslot := congrArg St.slot (hright.1 hnone)
        rw [stop_timer_slot] at hslot
        exact absurd hslot (unref_again h.wf hint)
      · intro hok
        rcases hok with hok | ⟨e', he', -⟩
        · rw [hnil] at hok
          cases hok
        · rw [hnone] at he'
          cases he'

theorem cancel_right (h : Inv s) (ref : ℤ) :
    Right s (shuso_ipc_receive_fd_cancel s ref) (.cancel ref) ↔ Ok s (.cancel ref) := by
  show _ ↔ (s.slot ref).isnil = true
  cases hnil : (s.slot ref).isnil with
  | true =>
    refine ⟨fun _ => rfl, fun _ => ⟨fun _ => cancel_nil hnil, fun e he => ?_⟩⟩
    rw [registered_none hnil] at he
    cases he
  | false =>
    refine ⟨fun hright => ?_, fun hfalse => by cases hfalse⟩
    have hcrash := cancel_crashes hnil
    rcases not_nil_cases hnil with ⟨e, he⟩ | ⟨hnone, -⟩
    · rw [(hright.2 e he).1.sound] at hcrash
      cases hcrash
    · rw [hright.1 hnone, h.sound] at hcrash
      cases hcrash

theorem timer_stop_active (s : St) (i j : ℕ) : active (timer_stop s i) j = (active s j && !decide (j = i)) := by
  unfold active timer_stop
  dsimp only
  by_cases hji : j = i
  · rw [hji, Function.update_self]
    cases s.timers i <;> simp
  · simp [hji]

theorem timeout_eq {timer : Timer} (he : registered s timer.ref = some e) :
    ipc_receive_fd_timeout_cb s i timer = stop_timer (timer_stop s i) timer.ref := by
  have hnil : ((timer_stop s i).slot timer.ref).isnil = false := by
    show (s.slot timer.ref).isnil = false
    rw [registered_slot he]
    rfl
  exact finish_eq hnil

/-- **Exactly when a timer ends the right receiver.** -/
theorem timeout_ends_iff {timer : Timer} (h : Inv s) (he : registered s timer.ref = some e) (hei : e.timer = some i) :
    Ends s (ipc_receive_fd_timeout_cb s i timer) timer.ref e ↔ ∀ j, active s j = true → s.timer = some j → j = i := by
  rw [timeout_eq he]
  have hother : ∀ j, j ≠ i → (timer_stop s i).timers j = s.timers j := fun j hj => Function.update_of_ne hj _ _
  constructor
  · intro hends j hj hlast
    by_contra hji
    have hne : e.timer ≠ some j := fun heq => hji (Option.some.inj (heq.symm.trans hei))
    have hsame := hends.others j hne
    rw [← hother j hji, stop_timer_same, timer_stop_active, hj, Bool.true_and] at hsame
    exact hsame ⟨by simpa using hji, hlast⟩
  · intro hok
    have hentry : registered (stop_timer (timer_stop s i) timer.ref) = Function.update (registered s) timer.ref none :=
      (stop_timer_entry (s := timer_stop s i) h.wf he).2
    refine ⟨hentry, fun j hj => ?_, fun j hj => ?_, ?_⟩
    · have hji : j = i := Option.some.inj (hj.symm.trans hei)
      rw [stop_timer_active, timer_stop_active, decide_eq_true hji]
      simp
    · have hji : j ≠ i := fun heq => hj (heq ▸ hei)
      rw [← hother j hji, stop_timer_same, timer_stop_active]
      rintro ⟨hact, hlast⟩
      rw [Bool.and_eq_true] at hact
      exact hji (hok j hact.1 hlast)
    · exact (stop_timer_frame _ _).2.1.trans h.sound

/-- a receiver is added under a free reference, with a new timer -/
structure Begins (s t : St) (ref : ℤ) (e : Receiver) : Prop where
  wf : Wf t.slot
  free : registered s ref = none
  entry : registered t = Function.update (registered s) ref (some e)
  own : ∀ i, e.timer = some i → s.timers i = none ∧ t.timers i = some ⟨ref, true⟩
  others : ∀ i, e.timer ≠ some i → t.timers i = s.timers i
  called : t.called = s.called
  sound : t.crashed = s.crashed

theorem start_begins (h : Inv s) (callback pd : ℕ) {timeout : Option ℕ} {n : ℤ} (hn : Border (opened s.slot) n)
    (hfree : ∀ i ∈ timeout, s.timers i = none) :
    ∃ ref, Begins s (shuso_ipc_receive_fd_start s callback pd timeout n) ref ⟨callback, pd, timeout⟩ := by
  obtain ⟨hwf, hnone, hstored⟩ := ref_spec h.wf ⟨callback, pd, timeout⟩ hn
  refine ⟨_, ?_, hnone, ?_, fun i hi => ?_, fun i hi => ?_, ?_, ?_⟩
  · cases timeout <;> exact hwf
  · cases timeout <;> exact hstored
  · have hi : timeout = some i := hi
    subst hi
    exact ⟨hfree i rfl, Function.update_self i _ s.timers⟩
  · cases timeout with
    | none => rfl
    | some j =>
      have hij : i ≠ j := fun heq => hi (congrArg some heq.symm)
      exact Function.update_of_ne hij _ _
  · cases timeout <;> rfl
  · cases timeout <;> rfl

theorem Begins.inv (h : Inv s) (hbegins : Begins s t ref e) : Inv t where
  wf := hbegins.wf
  own r e' i hr hi := by
    rw [hbegins.entry] at hr
    by_cases hrr : r = ref
    · rw [hrr, Function.update_self] at hr
      cases hr
      rw [hrr]
      exact (hbegins.own i hi).2
    · rw [Function.update_of_ne hrr] at hr
      have hown := h.own r e' i hr hi
      rw [hbegins.others i, hown]
      intro hei
      rw [(hbegins.own i hei).1] at hown
      cases hown
  owned i timer ht hact := by
    rw [hbegins.entry]
    by_cases hei : e.timer = some i
    · rw [(hbegins.own i hei).2] at ht
      cases ht
      exact ⟨e, Function.update_self ref _ _, hei⟩
    · rw [hbegins.others i hei] at ht
      obtain ⟨e', he', hi'⟩ := h.owned i timer ht hact
      refine ⟨e', ?_, hi'⟩
      rw [Function.update_of_ne, he']
      intro heq
      rw [heq, hbegins.free] at he'
      cases he'
  sound := hbegins.sound.trans h.sound

theorem collect_right (h : Inv s) (i : ℕ) :
    Right s { s with timers := Function.update s.timers i none } (.collect i) ↔ Ok s (.collect i) := by
  show _ ↔ active s i = false
  constructor
  · intro hright
    rw [← hright.2.2.2 i]
    simp [active]
  · intro hoff
    refine ⟨rfl, rfl, h.sound, fun j => ?_⟩
    by_cases hji : j = i
    · rw [hji, hoff]
      simp [active]
    · simp [active, hji]

theorem collect_inv (h : Inv s) (hoff : active s i = false) : Inv { s with timers := Function.update s.timers i none } where
  wf := h.wf
  own r e j hr hj := by
    have hown := h.own r e j hr hj
    have hji : j ≠ i := by
      intro heq
      rw [← heq, active, hown] at hoff
      cases hoff
    exact (Function.update_of_ne hji _ _).trans hown
  owned j timer hj hact := by
    dsimp only at hj
    have hji : j ≠ i := by
      intro heq
      rw [heq, Function.update_self] at hj
      cases hj
    rw [Function.update_of_ne hji] at hj
    exact h.owned j timer hj hact
  sound := h.sound

/-- nothing is to be cancelled exactly if no receiver is left -/
theorem stop_right (h : Inv s) (keys : List Key) : Right s s (.stop keys) ↔ Ok s (.stop keys) := by
  constructor
  · intro hright
    exact hright.entry
  · intro hnone
    refine ⟨hnone, fun ref e he => ?_, fun i => ?_, h.sound⟩
    · rw [hnone ref] at he
      cases he
    · by_contra hact
      rw [Bool.not_eq_false, active_iff] at hact
      obtain ⟨timer, hi, hact⟩ := hact
      obtain ⟨e, he, -⟩ := h.owned i timer hi hact
      rw [hnone timer.ref] at he
      cases he

/-! ### Runs -/

theorem initial_inv : Inv initial where
  wf := empty_wf
  own _ _ _ h := by cases h
  owned _ _ h := by cases h
  sound := rfl

/-- a step does what it should to the receivers exactly if it is `Ok`, and then the invariant holds again -/
theorem step_right {a : Act} (h : Inv s) (hst : step s a = some t) : (Right s t a ↔ Ok s a) ∧ (Ok s a → Inv t) := by
  cases a with
  | start callback pd timeout n =>
    rw [step] at hst
    split_ifs at hst with hok
    cases hst
    obtain ⟨ref, hbegins⟩ := start_begins h callback pd hok.1 hok.2
    refine ⟨⟨fun _ => trivial, fun _ => ?_⟩, fun _ => hbegins.inv h⟩
    refine ⟨hbegins.called, hbegins.sound.trans h.sound, fun i hi => hbegins.others i hi, ref, hbegins.free, hbegins.entry, ?_⟩
    exact fun i hi => (hbegins.own i hi).2
  | finish ref =>
    cases hst
    refine ⟨finish_right h ref, fun hok => ?_⟩
    rcases hok with hnil | ⟨e, he, hlatest⟩
    · rw [finish_nil hnil]
      exact h
    · have hnil : (s.slot ref).isnil = false := by
        rw [registered_slot he]
        rfl
      rw [finish_eq hnil]
      exact Ends.inv h he (stop_timer_entry h.wf he).1 ((ends_iff h he).2 hlatest)
  | cancel ref =>
    cases hst
    refine ⟨cancel_right h ref, fun hnil => ?_⟩
    rw [cancel_nil hnil]
    exact h
  | timeout i =>
    rw [step] at hst
    cases hi : s.timers i with
    | none =>
      rw [hi] at hst
      cases hst
    | some timer =>
      simp only [hi] at hst
      split_ifs at hst with hact
      cases hst
      obtain ⟨e, he, hei⟩ := h.owned i timer hi hact
      have hiff := timeout_ends_iff h he hei
      refine ⟨⟨fun hright => hiff.1 (hright timer e hi he).1, fun hok timer' e' hi' he' => ?_⟩, fun hok => ?_⟩
      · rw [hi] at hi'
        cases hi'
        rw [he] at he'
        cases he'
        refine ⟨hiff.2 hok, ?_⟩
        rw [timeout_eq he]
        exact (stop_timer_frame _ _).1
      · refine Ends.inv h he ?_ (hiff.2 hok)
        rw [timeout_eq he]
        exact (stop_timer_entry (s := timer_stop s i) h.wf he).1
  | collect i =>
    rw [step] at hst
    split_ifs at hst with hheld
    cases hst
    exact ⟨collect_right h i, collect_inv h⟩
  | stop keys =>
    cases hst
    rw [local_stop_eq]
    exact ⟨stop_right h keys, fun _ => h⟩

/-- **Exactly the steps that meet `Ok`** do to their receiver, and to no other, what they should. -/
theorem right_iff {a : Act} (h : Reach step Ok initial s) (hst : step s a = some t) : Right s t a ↔ Ok s a := by
  have hinv : Inv s := h.inv initial_inv fun _ _ _ hinv hok hst => (step_right hinv hst).2 hok
  exact (step_right hinv hst).1

/-- a receiver with a timer is finished while it is the only one -/
theorem right_finish : ∃ s t, Reach step Ok initial s ∧ step s (.finish 1) = some t ∧ Right s t (.finish 1) := by
  have hreach : Reach step Ok initial (shuso_ipc_receive_fd_start initial 10 20 (some 0) 0) := by
    have hst : step initial (.start 10 20 (some 0) 0) = some (shuso_ipc_receive_fd_start initial 10 20 (some 0) 0) := rfl
    exact Reach.init.next (a := .start 10 20 (some 0) 0) trivial hst
  refine ⟨_, _, hreach, rfl, (right_iff hreach rfl).2 (.inr ⟨⟨10, 20, some 0⟩, rfl, fun i hi => ?_⟩)⟩
  exact Iff.rfl

/-- the first of two receivers is finished: the timer of the second one is stopped, and that of the first one is not -/
theorem not_right : ∃ s t,
    exec step initial [.start 10 20 (some 0) 0, .start 11 21 (some 1) 1] = some s ∧ step s (.finish 1) = some t ∧
      registered s 1 = some ⟨10, 20, some 0⟩ ∧ registered t 2 = some ⟨11, 21, some 1⟩ ∧ active t 0 = true ∧ active t 1 = false ∧
      ¬Right s t (.finish 1) := by
  refine ⟨_, _, rfl, rfl, rfl, rfl, rfl, rfl, fun hright => ?_⟩
  have hsame := (hright.2 ⟨10, 20, some 0⟩ rfl).1.others 1 (by decide)
  exact absurd hsame (by decide)

end Shuttlesock.FdReceivers
