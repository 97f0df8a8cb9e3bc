/-
Paused and cancelled events, `event.c`: `fire_event`, `shuso_event_pause`, `shuso_event_cancel`, `shuso_event_resume_paused`.

A listener that pauses its event gets a record with the index of the next listener, and a resume calls the listeners from there. The index
is kept in 16 bits.

Model: one publication of an event with `n` listeners and an interrupt handler; other publications share nothing with it. `frames` are the calls of
`fire_event` for it that have not returned, innermost first: a listener may resume its own pause before it returns. A listener can
pause and cancel any number of times in one call, and each record can be resumed once, by anybody and at any time. An interruption that the handler refuses changes
nothing and is left out, as are the event's code and data and the debug build. A call of a listener is known by its place in `trace`.

Results:
- `orderly_of_ok`: in every run in which (1) a resumed record comes from a listener with an index below 2^16 - 1, and (2) the call of a
  listener whose record is resumed has interrupted once and does not interrupt again, the listeners run as they should (`Orderly`).
- `runs_again`: the last of 2^16 listeners pauses, and the resume begins at the first one; a listener pauses twice, and the next one runs
  twice.
-/
import Mathlib.Tactic
import Shuttlesock.Core.Runs

namespace Shuttlesock.Interrupts

open Runs

/-! ## The model -/

/-- `shuso_event_interrupt_t`, without the delay -/
inductive Interrupt where
  | none | pause | cancel
deriving DecidableEq

/-- a call of `fire_event`, in the call of a listener -/
structure Frame where
  cur : ℕ
  interrupt : Interrupt
  call : ℕ
  /-- a listener has interrupted it -/
  interrupted : Bool
deriving DecidableEq

/-- `shuso_event_pause_t`, and whose it is -/
structure Record where
  next_listener_index : ℕ
  index : ℕ
  call : ℕ
  resumed : Bool
deriving DecidableEq

/-- what a call of `fire_event` has returned, whether it came to the end of the list, and whether it was interrupted -/
structure Return where
  value : Bool
  ended : Bool
  interrupted : Bool
deriving DecidableEq

structure State where
  published : Bool
  frames : List Frame
  records : List Record
  /-- the listeners called, in order -/
  trace : List ℕ
  /-- the calls that have cancelled -/
  cancels : List ℕ
  /-- the listener that was the last one to interrupt -/
  last : Option ℕ
  returns : List Return
deriving DecidableEq

def State.empty : State := ⟨false, [], [], [], [], none, []⟩

inductive Action where
  | publish
  /-- the innermost listener pauses, cancels -/
  | pause
  | cancel
  /-- `shuso_event_resume_paused` with the r-th record -/
  | resume (r : ℕ)
  /-- the innermost listener returns -/
  | ret
deriving DecidableEq

/-- `fire_event` from the listener with this index on -/
def fire_event (n listener_start_index : ℕ) (s : State) : State :=
  if listener_start_index < n then
    { s with
      frames := ⟨listener_start_index, .none, s.trace.length, false⟩ :: s.frames
      trace := s.trace ++ [listener_start_index] }
  else { s with returns := s.returns ++ [⟨true, true, false⟩] }

/-- the loop of `fire_event` behind the call of a listener -/
def advance (n : ℕ) (s : State) (f : Frame) (frames : List Frame) : State :=
  if f.interrupt = .none ∧ f.cur + 1 < n then
    { s with
      frames := { f with cur := f.cur + 1, call := s.trace.length } :: frames
      trace := s.trace ++ [f.cur + 1] }
  else { s with
    frames := frames
    returns := s.returns ++ [⟨decide (f.interrupt = .none), decide (f.cur + 1 = n), f.interrupted⟩] }

def step (n : ℕ) (s : State) : Action → Option State
  | .publish => if s.published then none else some (fire_event n 0 { s with published := true })
  | .pause =>
    match s.frames with
    | [] => none
    | f :: frames => some { s with
        frames := { f with interrupt := .pause, interrupted := true } :: frames
        records := s.records ++ [⟨(f.cur + 1) % 2 ^ 16, f.cur, f.call, false⟩]
        last := some f.cur }
  | .cancel =>
    match s.frames with
    | [] => none
    | f :: frames => some { s with
        frames := { f with interrupt := .cancel, interrupted := true } :: frames
        cancels := s.cancels ++ [f.call]
        last := some f.cur }
  | .resume r =>
    s.records[r]?.bind fun paused =>
      if paused.resumed then none
      else some (fire_event n paused.next_listener_index { s with records := s.records.set r { paused with resumed := true } })
  | .ret =>
    match s.frames with
    | [] => none
    | f :: frames => some (advance n s f frames)

/-- **The property** of a state. -/
structure Orderly (n : ℕ) (s : State) : Prop where
  order : s.trace = List.range s.trace.length ∧ s.trace.length ≤ n
  complete : s.published = true → s.frames = [] → s.cancels = [] → (∀ r ∈ s.records, r.resumed = true) → s.trace.length = n
  stopped : s.published = true → s.frames = [] → (s.cancels ≠ [] ∨ ∃ r ∈ s.records, r.resumed = false) →
    ∃ k, s.last = some k ∧ s.trace.length = k + 1
  returns : ∀ r ∈ s.returns, r.value = (r.ended && !r.interrupted)

/-- a record of that call was resumed -/
def State.spent (s : State) (call : ℕ) : Prop := ∃ r ∈ s.records, r.call = call ∧ r.resumed = true

/-- **The condition** on a step. -/
def Once (s : State) : Action → Prop
  | .pause => ∀ f ∈ s.frames.head?, ¬ s.spent f.call
  | .cancel => ∀ f ∈ s.frames.head?, ¬ s.spent f.call
  | .resume r => ∀ paused ∈ s.records[r]?, paused.index + 1 < 2 ^ 16 ∧ paused.call ∉ s.cancels ∧
      ∀ (j : ℕ) (other : Record), s.records[j]? = some other → other.call = paused.call → j = r
  | _ => True

/-! ## The invariant -/

/-- the call of the last listener goes on; when it has not interrupted, it has left nothing -/
structure Live (s : State) (f : Frame) : Prop where
  call : f.call + 1 = s.trace.length
  fresh : ¬ s.spent f.call
  clean : f.interrupt = .none → s.cancels = [] ∧ ∀ r ∈ s.records, r.call ≠ f.call
  marked : f.interrupt ≠ .none → s.last = some f.cur ∧ (s.cancels ≠ [] ∨ ∃ r ∈ s.records, r.call = f.call)

/-- no call goes on: all listeners have run, or the last one that did has interrupted -/
def Halted (n : ℕ) (s : State) : Prop :=
  s.trace.length = n ∧ s.cancels = [] ∧ (∀ r ∈ s.records, r.resumed = true) ∨
    (∃ k, s.last = some k ∧ s.trace.length = k + 1) ∧ (s.cancels ≠ [] ∨ ∃ r ∈ s.records, r.resumed = false)

structure Inv (n : ℕ) (s : State) : Prop where
  trace : s.trace = List.range s.trace.length
  bound : s.trace.length ≤ n
  unborn : s.published = false → s = .empty
  frames : ∀ f ∈ s.frames, f.call = f.cur ∧ f.cur < s.trace.length ∧ (f.interrupted = true ↔ f.interrupt ≠ .none) ∧
    (f.call + 1 < s.trace.length → s.spent f.call) ∧ (s.spent f.call → f.interrupt ≠ .none)
  records : ∀ r ∈ s.records, r.call = r.index ∧ r.index < s.trace.length ∧ r.next_listener_index = (r.index + 1) % 2 ^ 16 ∧
    (r.index + 1 < s.trace.length → r.resumed = true)
  one : ∀ (i j : ℕ) (a b : Record), s.records[i]? = some a → s.records[j]? = some b → a.call = b.call → a.resumed = true →
    i = j
  cancels : ∀ k ∈ s.cancels, k + 1 = s.trace.length ∧ ¬ s.spent k
  phase : s.published = true → (∃ f frames, s.frames = f :: frames ∧ Live s f ∧ ∀ g ∈ frames, s.spent g.call) ∨
    (∀ f ∈ s.frames, s.spent f.call) ∧ Halted n s
  returns : ∀ r ∈ s.returns, r.value = (r.ended && !r.interrupted)

section Steps

variable {n : ℕ} {s s' : State} {a : Action} {f : Frame} {frames : List Frame}

theorem empty_inv (n : ℕ) : Inv n .empty where
  trace := rfl
  bound := Nat.zero_le n
  unborn _ := rfl
  frames _ h := by cases h
  records _ h := by cases h
  one i j a b h := by cases i <;> cases h
  cancels _ h := by cases h
  phase h := by cases h
  returns _ h := by cases h

/-- nothing goes on and nothing is pending: what `fire_event` needs to go on with the next listener -/
structure Ready (n : ℕ) (s : State) : Prop where
  trace : s.trace = List.range s.trace.length
  bound : s.trace.length ≤ n
  published : s.published = true
  frames : ∀ f ∈ s.frames, f.call = f.cur ∧ f.cur < s.trace.length ∧ (f.interrupted = true ↔ f.interrupt ≠ .none) ∧
    s.spent f.call ∧ f.interrupt ≠ .none
  records : ∀ r ∈ s.records, r.call = r.index ∧ r.index < s.trace.length ∧ r.next_listener_index = (r.index + 1) % 2 ^ 16 ∧
    r.resumed = true
  one : ∀ (i j : ℕ) (a b : Record), s.records[i]? = some a → s.records[j]? = some b → a.call = b.call → a.resumed = true →
    i = j
  cancels : s.cancels = []
  returns : ∀ r ∈ s.returns, r.value = (r.ended && !r.interrupted)

/-- the next listener is called, or all have run -/
theorem fire_inv (h : Ready n s) : Inv n (fire_event n s.trace.length s) := by
  have hfresh : ¬ s.spent s.trace.length := by
    rintro ⟨r, hr, hcall, -⟩
    obtain ⟨hindex, hlt, -⟩ := h.records r hr
    omega
  unfold fire_event
  split
  · rename_i hlt
    have hlen : (s.trace ++ [s.trace.length]).length = s.trace.length + 1 := by simp
    refine ⟨?_, ?_, fun hno => ?_, fun f hf => ?_, fun r hr => ?_, h.one, fun k hk => ?_, fun _ => ?_, h.returns⟩
    · dsimp only
      rw [hlen, List.range_succ, ← h.trace]
    · dsimp only
      omega
    · exact absurd (h.published.symm.trans hno) Bool.noConfusion
    · dsimp only
      rw [hlen]
      rcases List.mem_cons.1 hf with rfl | hf
      · exact ⟨rfl, Nat.lt_succ_self _, by simp, fun hlt => absurd hlt (lt_irrefl _), fun hspent => absurd hspent hfresh⟩
      · obtain ⟨hcall, hcur, hmark, hspent, hint⟩ := h.frames f hf
        exact ⟨hcall, by omega, hmark, fun _ => hspent, fun _ => hint⟩
    · dsimp only
      rw [hlen]
      obtain ⟨hcall, hindex, hnext, hres⟩ := h.records r hr
      exact ⟨hcall, by omega, hnext, fun _ => hres⟩
    · change k ∈ s.cancels at hk
      rw [h.cancels] at hk
      cases hk
    · refine .inl ⟨_, s.frames, rfl, ⟨hlen.symm, hfresh, fun _ => ⟨h.cancels, fun r hr hcall => ?_⟩, fun hne => absurd rfl hne⟩,
        fun g hg => (h.frames g hg).2.2.2.1⟩
      obtain ⟨hindex, hlt, -⟩ := h.records r hr
      change r.call = s.trace.length at hcall
      omega
  · rename_i hlt
    have hn : s.trace.length = n := by
      have hle := h.bound
      omega
    refine ⟨h.trace, h.bound, fun hno => ?_, fun f hf => ?_, fun r hr => ?_, h.one, fun k hk => ?_, fun _ => .inr ⟨fun f hf => ?_, ?_⟩,
      fun r hr => ?_⟩
    · exact absurd (h.published.symm.trans hno) Bool.noConfusion
    · obtain ⟨hcall, hcur, hmark, hspent, hint⟩ := h.frames f hf
      exact ⟨hcall, hcur, hmark, fun _ => hspent, fun _ => hint⟩
    · obtain ⟨hcall, hindex, hnext, hres⟩ := h.records r hr
      exact ⟨hcall, hindex, hnext, fun _ => hres⟩
    · change k ∈ s.cancels at hk
      rw [h.cancels] at hk
      cases hk
    · exact (h.frames f hf).2.2.2.1
    · exact .inl ⟨hn, h.cancels, fun r hr => (h.records r hr).2.2.2⟩
    · rcases List.mem_append.1 hr with hr | hr
      · exact h.returns r hr
      · rw [List.mem_singleton.1 hr]
        rfl

theorem ready_published (n : ℕ) : Ready n { State.empty with published := true } where
  trace := rfl
  bound := Nat.zero_le n
  published := rfl
  frames _ hf := by cases hf
  records _ hr := by cases hr
  one i j a b ha := by cases i <;> cases ha
  cancels := rfl
  returns _ hr := by cases hr

theorem publish_inv (h : Inv n s) (hno : s.published = false) : Inv n (fire_event n 0 { s with published := true }) := by
  have heq := h.unborn hno
  subst heq
  exact fire_inv (ready_published n)

theorem published_of_frames (h : Inv n s) (hf : f ∈ s.frames) : s.published = true := by
  by_contra hno
  rw [h.unborn (Bool.eq_false_iff.2 hno)] at hf
  cases hf

/-- the innermost frame, when its listener may interrupt -/
theorem live_of_fresh (h : Inv n s) (hframes : s.frames = f :: frames) (hfresh : ¬ s.spent f.call) :
    Live s f ∧ ∀ g ∈ frames, s.spent g.call := by
  have hf : f ∈ s.frames := hframes ▸ List.mem_cons_self
  rcases h.phase (published_of_frames h hf) with ⟨f', frames', heq, hlive, hspent⟩ | ⟨hspent, -⟩
  · rw [hframes] at heq
    cases heq
    exact ⟨hlive, hspent⟩
  · exact absurd (hspent f hf) hfresh

theorem pause_inv (h : Inv n s) (hframes : s.frames = f :: frames) (hfresh : ¬ s.spent f.call) :
    Inv n { s with
      frames := { f with interrupt := .pause, interrupted := true } :: frames
      records := s.records ++ [⟨(f.cur + 1) % 2 ^ 16, f.cur, f.call, false⟩]
      last := some f.cur } := by
  have hf : f ∈ s.frames := hframes ▸ List.mem_cons_self
  obtain ⟨hlive, houter⟩ := live_of_fresh h hframes hfresh
  obtain ⟨hcall, hcur, -⟩ := h.frames f hf
  have hspent : ∀ k, State.spent { s with
      frames := { f with interrupt := .pause, interrupted := true } :: frames
      records := s.records ++ [⟨(f.cur + 1) % 2 ^ 16, f.cur, f.call, false⟩]
      last := some f.cur } k ↔ s.spent k := by
    intro k
    constructor
    · rintro ⟨r, hr, hk, hres⟩
      rcases List.mem_append.1 hr with hr | hr
      · exact ⟨r, hr, hk, hres⟩
      · rw [List.mem_singleton.1 hr] at hres
        cases hres
    · exact fun ⟨r, hr, hrest⟩ => ⟨r, List.mem_append_left _ hr, hrest⟩
  refine ⟨h.trace, h.bound, fun hno => ?_, fun g hg => ?_, fun r hr => ?_, fun i j a b ha hb hab hres => ?_, fun k hk => ?_,
    fun _ => .inl ⟨_, frames, rfl, ?_, fun g hg => (hspent _).2 (houter g hg)⟩, h.returns⟩
  · exact absurd ((published_of_frames h hf).symm.trans hno) Bool.noConfusion
  · rw [hspent]
    rcases List.mem_cons.1 hg with rfl | hg
    · obtain ⟨-, -, -, hpast, -⟩ := h.frames f hf
      exact ⟨hcall, hcur, by simp, hpast, fun _ => Interrupt.noConfusion⟩
    · exact h.frames g (hframes ▸ List.mem_cons_of_mem _ hg)
  · rcases List.mem_append.1 hr with hr | hr
    · exact h.records r hr
    · rw [List.mem_singleton.1 hr]
      refine ⟨hcall, hcur, rfl, fun hlt => ?_⟩
      have hlast := hlive.call
      change f.cur + 1 < s.trace.length at hlt
      omega
  · -- the new record is the only one of its call that is not resumed
    have hold : ∀ (i : ℕ) (a : Record), (s.records ++ [⟨(f.cur + 1) % 2 ^ 16, f.cur, f.call, false⟩])[i]? = some a →
        s.records[i]? = some a ∨ a.call = f.call ∧ a.resumed = false := by
      intro i a ha
      rcases lt_or_ge i s.records.length with hlt | hge
      · rw [List.getElem?_append_left hlt] at ha
        exact .inl ha
      · rw [List.getElem?_append_right hge] at ha
        obtain rfl := List.mem_singleton.1 (List.mem_of_getElem? ha)
        exact .inr ⟨rfl, rfl⟩
    rcases hold i a ha with ha | ⟨-, hno⟩
    · rcases hold j b hb with hb | ⟨hcall', -⟩
      · exact h.one i j a b ha hb hab hres
      · exact absurd ⟨a, List.mem_of_getElem? ha, hab.trans hcall', hres⟩ hfresh
    · rw [hno] at hres
      cases hres
  · rw [hspent]
    exact h.cancels k hk
  · refine ⟨hlive.call, fun hs => hfresh ((hspent _).1 hs), fun hno => Interrupt.noConfusion hno, fun _ => ⟨rfl, .inr ?_⟩⟩
    exact ⟨_, List.mem_append_right _ (List.mem_singleton_self _), rfl⟩

theorem cancel_inv (h : Inv n s) (hframes : s.frames = f :: frames) (hfresh : ¬ s.spent f.call) :
    Inv n { s with
      frames := { f with interrupt := .cancel, interrupted := true } :: frames
      cancels := s.cancels ++ [f.call]
      last := some f.cur } := by
  have hf : f ∈ s.frames := hframes ▸ List.mem_cons_self
  obtain ⟨hlive, houter⟩ := live_of_fresh h hframes hfresh
  obtain ⟨hcall, hcur, -⟩ := h.frames f hf
  refine ⟨h.trace, h.bound, fun hno => ?_, fun g hg => ?_, h.records, h.one, fun k hk => ?_,
    fun _ => .inl ⟨_, frames, rfl, ?_, houter⟩, h.returns⟩
  · exact absurd ((published_of_frames h hf).symm.trans hno) Bool.noConfusion
  · rcases List.mem_cons.1 hg with rfl | hg
    · obtain ⟨-, -, -, hpast, -⟩ := h.frames f hf
      exact ⟨hcall, hcur, by simp, hpast, fun _ => Interrupt.noConfusion⟩
    · exact h.frames g (hframes ▸ List.mem_cons_of_mem _ hg)
  · rcases List.mem_append.1 hk with hk | hk
    · exact h.cancels k hk
    · rw [List.mem_singleton.1 hk]
      exact ⟨hlive.call, hfresh⟩
  · refine ⟨hlive.call, hfresh, fun hno => Interrupt.noConfusion hno, fun _ => ⟨rfl, .inl ?_⟩⟩
    exact List.append_ne_nil_of_right_ne_nil _ (List.cons_ne_nil _ _)

/-- **A resume** of a record whose call has done nothing else goes on with the next listener. -/
theorem resume_inv (h : Inv n s) {r : ℕ} {paused : Record} (hr : s.records[r]? = some paused) (hres : paused.resumed = false)
    (hok : Once s (.resume r)) :
    Inv n (fire_event n paused.next_listener_index { s with records := s.records.set r { paused with resumed := true } }) := by
  obtain ⟨hsmall, hcancel, honly⟩ := hok paused hr
  have hmem := List.mem_of_getElem? hr
  obtain ⟨hcall, hindex, hnext, hpast⟩ := h.records paused hmem
  have hlast : paused.index + 1 = s.trace.length := by
    by_contra hne
    rw [hpast (by omega)] at hres
    cases hres
  have hstart : paused.next_listener_index = s.trace.length := by
    rw [hnext, Nat.mod_eq_of_lt hsmall, hlast]
  have hpublished : s.published = true := by
    by_contra hno
    rw [h.unborn (Bool.eq_false_iff.2 hno)] at hmem
    cases hmem
  -- an entry of the new list is an old one, or the one that is resumed
  have hold : ∀ (i : ℕ) (a : Record), (s.records.set r { paused with resumed := true })[i]? = some a →
      i ≠ r ∧ s.records[i]? = some a ∨ i = r ∧ a = { paused with resumed := true } := by
    intro i a ha
    rcases eq_or_ne i r with rfl | hne
    · rw [List.getElem?_set_self (List.getElem?_eq_some_iff.1 hr).1] at ha
      exact .inr ⟨rfl, (Option.some.inj ha).symm⟩
    · rw [List.getElem?_set_ne hne.symm] at ha
      exact .inl ⟨hne, ha⟩
  have hset : { paused with resumed := true } ∈ s.records.set r { paused with resumed := true } :=
    List.mem_of_getElem? (List.getElem?_set_self (List.getElem?_eq_some_iff.1 hr).1)
  have hspent : ∀ k, s.spent k ∨ k = paused.call →
      State.spent { s with records := s.records.set r { paused with resumed := true } } k := by
    rintro k (⟨a, ha, hk, hresumed⟩ | rfl)
    · obtain ⟨i, hi⟩ := List.getElem?_of_mem ha
      have hne : i ≠ r := by
        rintro rfl
        rw [hr] at hi
        cases hi
        rw [hres] at hresumed
        cases hresumed
      refine ⟨a, List.mem_of_getElem? (i := i) ?_, hk, hresumed⟩
      rwa [List.getElem?_set_ne hne.symm]
    · exact ⟨_, hset, rfl, rfl⟩
  have hready : Ready n { s with records := s.records.set r { paused with resumed := true } } := by
    refine ⟨h.trace, h.bound, hpublished, fun f hf => ?_, fun a ha => ?_, fun i j a b ha hb hab hresumed => ?_, ?_, h.returns⟩
    · obtain ⟨hfcall, hcur, hmark, -, hint⟩ := h.frames f hf
      have hboth : (s.spent f.call ∨ f.call = paused.call) ∧ f.interrupt ≠ .none := by
        rcases h.phase hpublished with ⟨f', frames', heq, hlive, houter⟩ | ⟨hall, -⟩
        · rw [heq] at hf
          rcases List.mem_cons.1 hf with rfl | hf
          · have hsame : f.call = paused.call := by
              have hlive := hlive.call
              omega
            exact ⟨.inr hsame, fun hno => (hlive.clean hno).2 paused hmem hsame.symm⟩
          · exact ⟨.inl (houter f hf), hint (houter f hf)⟩
        · exact ⟨.inl (hall f hf), hint (hall f hf)⟩
      exact ⟨hfcall, hcur, hmark, hspent _ hboth.1, hboth.2⟩
    · obtain ⟨i, hi⟩ := List.getElem?_of_mem ha
      rcases hold i a hi with ⟨hne, hi'⟩ | ⟨-, rfl⟩
      · obtain ⟨hacall, haindex, hanext, hapast⟩ := h.records a (List.mem_of_getElem? hi')
        refine ⟨hacall, haindex, hanext, hapast ?_⟩
        by_contra hlt
        change ¬ a.index + 1 < s.trace.length at hlt
        exact hne (honly i a hi' (by omega))
      · exact ⟨hcall, hindex, hnext, rfl⟩
    · rcases hold i a ha with ⟨hi, ha'⟩ | ⟨hi, rfl⟩
      · rcases hold j b hb with ⟨-, hb'⟩ | ⟨-, rfl⟩
        · exact h.one i j a b ha' hb' hab hresumed
        · exact absurd (honly i a ha' hab) hi
      · rcases hold j b hb with ⟨hj, hb'⟩ | ⟨hj, -⟩
        · exact absurd (honly j b hb' hab.symm) hj
        · exact hi.trans hj.symm
    · refine List.eq_nil_iff_forall_not_mem.2 fun k hk => hcancel ?_
      have hlen := (h.cancels k hk).1
      obtain rfl : k = paused.call := by omega
      exact hk
  have hinv := fire_inv hready
  rwa [← hstart] at hinv

/-- **A return** of the innermost listener. -/
theorem ret_inv (h : Inv n s) (hframes : s.frames = f :: frames) : Inv n (advance n s f frames) := by
  have hf : f ∈ s.frames := hframes ▸ List.mem_cons_self
  have hpublished := published_of_frames h hf
  obtain ⟨hcall, hcur, hmark, hpast, hint⟩ := h.frames f hf
  have houts : ∀ g ∈ frames, g ∈ s.frames := fun g hg => hframes ▸ List.mem_cons_of_mem f hg
  by_cases hgo : ¬ s.spent f.call ∧ f.interrupt = .none
  · obtain ⟨hfresh, hno⟩ := hgo
    obtain ⟨hlive, houter⟩ := live_of_fresh h hframes hfresh
    obtain ⟨hcancels, hrecords⟩ := hlive.clean hno
    have hlen : f.cur + 1 = s.trace.length := hcall ▸ hlive.call
    have hnot : f.interrupted = false := Bool.eq_false_iff.2 fun hyes => hmark.1 hyes hno
    have hready : Ready n { s with frames := frames } := by
      refine ⟨h.trace, h.bound, hpublished, fun g hg => ?_, fun r hr => ?_, h.one, hcancels, h.returns⟩
      · obtain ⟨hgcall, hgcur, hgmark, -, hgint⟩ := h.frames g (houts g hg)
        exact ⟨hgcall, hgcur, hgmark, houter g hg, hgint (houter g hg)⟩
      · obtain ⟨hrcall, hrindex, hrnext, hrpast⟩ := h.records r hr
        refine ⟨hrcall, hrindex, hrnext, hrpast ?_⟩
        have hne := hrecords r hr
        change r.index < s.trace.length at hrindex
        omega
    have heq : advance n s f frames = fire_event n s.trace.length { s with frames := frames } := by
      unfold advance fire_event
      rw [hlen, hno, hnot]
      by_cases hlt : s.trace.length < n
      · rw [if_pos ⟨rfl, hlt⟩, if_pos hlt]
      · have hle := h.bound
        have hn : s.trace.length = n := by omega
        rw [if_neg fun hand => hlt hand.2, if_neg hlt, decide_eq_true hn]
        rfl
    rw [heq]
    exact fire_inv hready
  · have hstopped : f.interrupt ≠ .none := fun hno => hgo ⟨fun hs => hint hs hno, hno⟩
    unfold advance
    rw [if_neg fun hand => hstopped hand.1]
    refine ⟨h.trace, h.bound, fun hno => ?_, fun g hg => h.frames g (houts g hg), h.records, h.one, h.cancels, fun _ => .inr ?_,
      fun r hr => ?_⟩
    · exact absurd (hpublished.symm.trans hno) Bool.noConfusion
    · rcases h.phase hpublished with ⟨f', frames', heq, hlive, houter⟩ | ⟨hall, hhalted⟩
      · rw [hframes] at heq
        cases heq
        obtain ⟨hlast, hleft⟩ := hlive.marked hstopped
        refine ⟨houter, .inr ⟨⟨f.cur, hlast, ?_⟩, hleft.imp id fun ⟨r, hr, hrcall⟩ => ⟨r, hr, ?_⟩⟩⟩
        · change s.trace.length = f.cur + 1
          rw [← hcall]
          exact hlive.call.symm
        · exact Bool.eq_false_iff.2 fun hyes => hlive.fresh ⟨r, hr, hrcall, hyes⟩
      · exact ⟨fun g hg => hall g (houts g hg), hhalted⟩
    · rcases List.mem_append.1 hr with hr | hr
      · exact h.returns r hr
      · rw [List.mem_singleton.1 hr, decide_eq_false hstopped]
        dsimp only
        rw [hmark.2 hstopped, Bool.not_true, Bool.and_false]

theorem step_inv (h : Inv n s) (hok : Once s a) (heq : step n s a = some s') : Inv n s' := by
  cases a with
  | publish =>
    obtain ⟨hno, heq⟩ := Option.ite_none_left_eq_some.1 heq
    cases heq
    exact publish_inv h (Bool.eq_false_iff.2 hno)
  | pause =>
    cases hframes : s.frames with
    | nil => simp [step, hframes] at heq
    | cons f frames =>
      simp only [step, hframes, Option.some.injEq] at heq
      subst heq
      exact pause_inv h hframes (hok f (by rw [hframes]; rfl))
  | cancel =>
    cases hframes : s.frames with
    | nil => simp [step, hframes] at heq
    | cons f frames =>
      simp only [step, hframes, Option.some.injEq] at heq
      subst heq
      exact cancel_inv h hframes (hok f (by rw [hframes]; rfl))
  | resume r =>
    obtain ⟨paused, hr, heq⟩ := Option.bind_eq_some_iff.1 heq
    obtain ⟨hres, heq⟩ := Option.ite_none_left_eq_some.1 heq
    cases heq
    exact resume_inv h hr (Bool.eq_false_iff.2 hres) hok
  | ret =>
    cases hframes : s.frames with
    | nil => simp [step, hframes] at heq
    | cons f frames =>
      simp only [step, hframes, Option.some.injEq] at heq
      subst heq
      exact ret_inv h hframes

/-- **The main result.** In every run of pauses, resumes and cancels that meets the condition, and in every state of it: the listeners
called are the first ones, each once and in order. When no call is left, they are all of them if nobody cancelled and every pause was resumed, and
otherwise those up to the last one that interrupted. Each call of `fire_event` has returned true if and only if it came to the end of the
list and was not interrupted. -/
theorem orderly_of_ok (n : ℕ) (s : State) (h : Reach (step n) Once .empty s) : Orderly n s := by
  have hinv : Inv n s := h.inv (empty_inv n) fun _ _ _ hi hok heq => step_inv hi hok heq
  have hhalted : s.published = true → s.frames = [] → Halted n s := by
    intro hpub hnil
    rcases hinv.phase hpub with ⟨f, frames, heq, -⟩ | ⟨-, hhalted⟩
    · rw [hnil] at heq
      cases heq
    · exact hhalted
  refine ⟨⟨hinv.trace, hinv.bound⟩, fun hpub hnil hcancels hall => ?_, fun hpub hnil hleft => ?_, hinv.returns⟩
  · rcases hhalted hpub hnil with ⟨hlen, -⟩ | ⟨-, hne | ⟨r, hr, hno⟩⟩
    · exact hlen
    · exact absurd hcancels hne
    · rw [hall r hr] at hno
      cases hno
  · rcases hhalted hpub hnil with ⟨-, hcancels, hall⟩ | ⟨hlast, -⟩
    · rcases hleft with hne | ⟨r, hr, hno⟩
      · exact absurd hcancels hne
      · rw [hall r hr] at hno
        cases hno
    · exact hlast

end Steps

/-- the first of two listeners pauses; later on it is resumed -/
def resumed_run : List Action := [.publish, .pause, .ret, .resume 0, .ret]

theorem orderly_of_ok_resumed : ∃ s, exec (step 2) .empty resumed_run = some s ∧ Orderly 2 s ∧ s.trace = [0, 1] ∧ s.frames = [] ∧
    s.returns = [⟨false, false, true⟩, ⟨true, true, false⟩] := by
  let s₁ : State := ⟨true, [⟨0, .none, 0, false⟩], [], [0], [], none, []⟩
  let s₂ : State := ⟨true, [⟨0, .pause, 0, true⟩], [⟨1, 0, 0, false⟩], [0], [], some 0, []⟩
  let s₃ : State := ⟨true, [], [⟨1, 0, 0, false⟩], [0], [], some 0, [⟨false, false, true⟩]⟩
  let s₄ : State := ⟨true, [⟨1, .none, 1, false⟩], [⟨1, 0, 0, true⟩], [0, 1], [], some 0, [⟨false, false, true⟩]⟩
  let s₅ : State := ⟨true, [], [⟨1, 0, 0, true⟩], [0, 1], [], some 0, [⟨false, false, true⟩, ⟨true, true, false⟩]⟩
  have h₁ : step 2 .empty .publish = some s₁ := rfl
  have h₂ : step 2 s₁ .pause = some s₂ := rfl
  have h₃ : step 2 s₂ .ret = some s₃ := rfl
  have h₄ : step 2 s₃ (.resume 0) = some s₄ := rfl
  have h₅ : step 2 s₄ .ret = some s₅ := rfl
  have hok₁ : Once .empty .publish := trivial
  have hok₂ : Once s₁ .pause := fun f _ ⟨r, hr, _⟩ => absurd hr List.not_mem_nil
  have hok₃ : Once s₂ .ret := trivial
  have hok₅ : Once s₄ .ret := trivial
  have hok₄ : Once s₃ (.resume 0) := by
    intro paused hpaused
    cases hpaused
    refine ⟨by decide, by decide, fun j other hj _ => ?_⟩
    cases j with
    | zero => rfl
    | succ j => cases hj
  have hreach : Reach (step 2) Once .empty s₅ :=
    ((((Reach.init.next hok₁ h₁).next hok₂ h₂).next hok₃ h₃).next hok₄ h₄).next hok₅ h₅
  refine ⟨s₅, ?_, orderly_of_ok 2 s₅ hreach, rfl, rfl, rfl⟩
  unfold resumed_run
  rw [exec_cons, h₁, Option.bind_some, exec_cons, h₂, Option.bind_some, exec_cons, h₃, Option.bind_some, exec_cons, h₄,
    Option.bind_some, exec_cons, h₅]
  rfl

/-! ## Where it goes wrong -/

/-- the listener with this index runs, and nobody has interrupted -/
def running (k : ℕ) : State := ⟨true, [⟨k, .none, k, false⟩], [], List.range (k + 1), [], none, []⟩

theorem exec_running {n k : ℕ} (hk : k < n) : exec (step n) .empty (.publish :: List.replicate k .ret) = some (running k) := by
  induction k with
  | zero =>
    have hfire : fire_event n 0 { State.empty with published := true } = running 0 := if_pos hk
    rw [List.replicate_zero, exec_cons, ← hfire]
    rfl
  | succ k ih =>
    have hret : step n (running k) .ret = some (running (k + 1)) := by
      simp only [running, step, advance, List.length_range, true_and, if_pos hk, List.range_succ (n := k + 1)]
    rw [List.replicate_succ', ← List.cons_append, exec_append, ih (Nat.lt_of_succ_lt hk), Option.bind_some, exec_cons, hret]
    rfl

/-- the last listener pauses, and its pause is resumed -/
theorem exec_last_pauses (k : ℕ) (hwrap : (k + 1) % 2 ^ 16 = 0) :
    ∃ s, exec (step (k + 1)) .empty (.publish :: List.replicate k .ret ++ [.pause, .ret, .resume 0]) = some s ∧
      s.trace = List.range (k + 1) ++ [0] ∧ s.records = [⟨0, k, k, true⟩] := by
  let s₁ : State := ⟨true, [⟨k, .pause, k, true⟩], [⟨0, k, k, false⟩], List.range (k + 1), [], some k, []⟩
  let s₂ : State := ⟨true, [], [⟨0, k, k, false⟩], List.range (k + 1), [], some k, [⟨false, true, true⟩]⟩
  let s₃ : State := ⟨true, [], [⟨0, k, k, true⟩], List.range (k + 1), [], some k, [⟨false, true, true⟩]⟩
  have h₁ : step (k + 1) (running k) .pause = some s₁ := by
    simp only [step, running, List.nil_append, hwrap, s₁]
  have h₂ : step (k + 1) s₁ .ret = some s₂ := by
    simp [step, advance, s₁, s₂]
  have h₃ : step (k + 1) s₂ (.resume 0) = some (fire_event (k + 1) 0 s₃) := rfl
  refine ⟨fire_event (k + 1) 0 s₃, ?_, rfl, rfl⟩
  rw [exec_append, exec_running (Nat.lt_succ_self k), Option.bind_some, exec_cons, h₁, Option.bind_some, exec_cons, h₂,
    Option.bind_some, exec_cons, h₃]
  rfl

/-- Two ways to go wrong, each record resumed once. The last of 2^16 listeners pauses; its record says 0, so the resume runs the
first one again. A listener pauses twice; both records are resumed and run the next one twice. -/
theorem runs_again :
    (∃ s, exec (step (2 ^ 16)) .empty (.publish :: List.replicate (2 ^ 16 - 1) .ret ++ [.pause, .ret, .resume 0]) = some s ∧
      s.trace = List.range (2 ^ 16) ++ [0] ∧ s.records = [⟨0, 2 ^ 16 - 1, 2 ^ 16 - 1, true⟩] ∧ ¬ Orderly (2 ^ 16) s) ∧
    ∃ s, exec (step 2) .empty [.publish, .pause, .pause, .ret, .resume 0, .ret, .resume 1, .ret] = some s ∧
      s.trace = [0, 1, 1] ∧ s.records = [⟨1, 0, 0, true⟩, ⟨1, 0, 0, true⟩] ∧ ¬ Orderly 2 s := by
  refine ⟨?_, ⟨true, [], [⟨1, 0, 0, true⟩, ⟨1, 0, 0, true⟩], [0, 1, 1], [], some 0,
    [⟨false, false, true⟩, ⟨true, true, false⟩, ⟨true, true, false⟩]⟩, rfl, rfl, rfl, fun h => ?_⟩
  · obtain ⟨s, hrun, htrace, hrecords⟩ := exec_last_pauses (2 ^ 16 - 1) (by norm_num)
    have hn : 2 ^ 16 - 1 + 1 = 2 ^ 16 := by norm_num
    rw [hn] at hrun htrace
    refine ⟨s, hrun, htrace, hrecords, fun h => ?_⟩
    have hlen := h.order.2
    rw [htrace, List.length_append, List.length_range, List.length_singleton] at hlen
    omega
  · exact absurd h.order.2 (by decide)

end Shuttlesock.Interrupts
