/-
Delayed events, `event.c`: `fire_event`, `shuso_event_delay`, `clear_delayed_state`, `delayed_event_handler` and
`shuso_event_resume_delayed`.

A listener that delays its event interrupts it; a record of the event and of the index of that listener is referenced from
the Lua registry, and the reference is the id of the delay. The timer of the record and an explicit resume both take the
reference back and call the listeners again, from the one that delayed on. The resume does not stop the timer.

Model: one event with `n` listeners and an interrupt handler (an event without one cannot be delayed), published any number
of times. `frames` are the calls of `fire_event` that have not returned, innermost first: a listener may publish the event
again or resume a delay. The registry is shared with other code, whose references come and go. An id is given to
`shuso_event_resume_delayed` by somebody who holds it; `ref h` is the id of the h-th delay. The resume of an
id that has no userdata goes on to a null pointer, and the run of the process ends there. The model says nothing of the
registry after a reference was given back twice, nor of the memory of a record that Lua has collected.

Results:
- `delays_of_ok`: in every run in which (1) no listener delays twice in one call, nor one with an index from 2^16 on, (2) every resume is of a delay that is
  pending and (3) every timer that fires is that of a delay that is pending, the delays are as they should be (`Delays`).
- `Strand`: what holds for the calls of the listeners that come from one publication; each operation keeps it.
- `delays_fail`: one delay, resumed and then fired by its timer.
-/
import Shuttlesock.Core.Runs
import Shuttlesock.Core.Refs

namespace Shuttlesock.Events

open Runs Refs

/-! ## The calls of one publication -/

/-- For one publication: the listeners called so far, those that delayed, those that pending delays wait at, and those that
are being called and have not delayed. -/
structure Strand (trace delays waiting calling : List ℕ) : Prop where
  one : waiting.length + calling.length ≤ 1
  last : ∀ k ∈ waiting ++ calling, k ∈ trace ∧ ∀ j ∈ trace, j ≤ k
  order : trace.Pairwise (· ≤ ·)
  steps : ∀ k, k + 1 ∈ trace → k ∈ trace
  again : ∀ k ∈ trace, trace.count k + waiting.count k = 1 + delays.count k
  made : ∀ k ∈ delays, k ∈ trace

namespace Strand

variable {trace delays waiting calling waiting' calling' : List ℕ} {k : ℕ}

theorem nil : Strand [] [] [] [] :=
  ⟨Nat.zero_le 1, fun _ h => absurd h List.not_mem_nil, .nil, fun _ h => absurd h List.not_mem_nil,
    fun _ h => absurd h List.not_mem_nil, fun _ h => absurd h List.not_mem_nil⟩

/-- the first listener is called -/
theorem start : Strand [0] [] [] [0] where
  one := le_rfl
  last k hk := by
    obtain rfl := List.mem_singleton.1 hk
    exact ⟨hk, fun j hj => (List.mem_singleton.1 hj).le⟩
  order := List.pairwise_singleton _ _
  steps k hk := absurd (List.mem_singleton.1 hk) (Nat.succ_ne_zero k)
  again k hk := by
    obtain rfl := List.mem_singleton.1 hk
    rfl
  made k hk := absurd hk List.not_mem_nil

/-- only one thing happens to a publication at a time -/
theorem calling_eq (h : Strand trace delays waiting calling) (hk : k ∈ calling) : waiting = [] ∧ calling = [k] := by
  have hone := h.one
  have hpos := List.length_pos_of_mem hk
  obtain ⟨j, rfl⟩ := List.length_eq_one_iff.1 (show calling.length = 1 by omega)
  rw [List.mem_singleton.1 hk]
  exact ⟨List.length_eq_zero_iff.1 (by simpa using hone), rfl⟩

theorem waiting_eq (h : Strand trace delays waiting calling) (hk : k ∈ waiting) : waiting = [k] ∧ calling = [] := by
  have hone := h.one
  have hpos := List.length_pos_of_mem hk
  obtain ⟨j, rfl⟩ := List.length_eq_one_iff.1 (show waiting.length = 1 by omega)
  rw [List.mem_singleton.1 hk]
  exact ⟨rfl, List.length_eq_zero_iff.1 (by simpa using hone)⟩

/-- a publication of which no listener was called -/
theorem unborn (h : Strand [] delays waiting calling) : waiting = [] ∧ calling = [] :=
  ⟨List.eq_nil_iff_forall_not_mem.2 fun k hk => List.not_mem_nil (h.last k (List.mem_append_left _ hk)).1,
    List.eq_nil_iff_forall_not_mem.2 fun k hk => List.not_mem_nil (h.last k (List.mem_append_right _ hk)).1⟩

theorem perm (h : Strand trace delays waiting calling) (hw : waiting.Perm waiting') (hc : calling.Perm calling') :
    Strand trace delays waiting' calling' where
  one := by
    rw [← hw.length_eq, ← hc.length_eq]
    exact h.one
  last k hk := h.last k ((hw.append hc).mem_iff.2 hk)
  order := h.order
  steps := h.steps
  again k hk := by
    rw [← hw.count_eq]
    exact h.again k hk
  made := h.made

/-- the listener that is called returns, and it was the last one, or the event is interrupted -/
theorem leave (h : Strand trace delays [] [k]) : Strand trace delays [] [] :=
  ⟨Nat.zero_le 1, fun _ hj => absurd hj List.not_mem_nil, h.order, h.steps, h.again, h.made⟩

/-- what a call adds to the listeners called so far -/
theorem order_append (h : trace.Pairwise (· ≤ ·)) (hle : ∀ j ∈ trace, j ≤ k) : (trace ++ [k]).Pairwise (· ≤ ·) :=
  List.pairwise_append.2 ⟨h, List.pairwise_singleton _ _, fun j hj _ hi => List.mem_singleton.1 hi ▸ hle j hj⟩

/-- **The next listener** is called. -/
theorem next (h : Strand trace delays [] [k]) : Strand (trace ++ [k + 1]) delays [] [k + 1] := by
  obtain ⟨hmem, hle⟩ := h.last k (List.mem_singleton_self k)
  have hnew : k + 1 ∉ trace := fun hin => absurd (hle _ hin) (Nat.not_succ_le_self k)
  refine ⟨le_rfl, fun i hi => ?_, order_append h.order fun j hj => (hle j hj).trans (Nat.le_succ k), fun i hi => ?_,
    fun i hi => ?_, fun i hi => List.mem_append_left _ (h.made i hi)⟩
  · obtain rfl := List.mem_singleton.1 hi
    refine ⟨List.mem_append_right _ hi, fun j hj => ?_⟩
    rcases List.mem_append.1 hj with hj | hj
    · exact (hle j hj).trans (Nat.le_succ k)
    · exact (List.mem_singleton.1 hj).le
  · rcases List.mem_append.1 hi with hi | hi
    · exact List.mem_append_left _ (h.steps i hi)
    · obtain rfl : i = k := by simpa using hi
      exact List.mem_append_left _ hmem
  · rcases List.mem_append.1 hi with hi | hi
    · have hne : i ≠ k + 1 := fun heq => hnew (heq ▸ hi)
      rw [List.count_append, List.count_singleton, ← h.again i hi]
      simp [hne.symm]
    · obtain rfl := List.mem_singleton.1 hi
      have hnone : delays.count (k + 1) = 0 := List.count_eq_zero.2 fun hin => hnew (h.made _ hin)
      rw [List.count_append, List.count_eq_zero.2 hnew, hnone]
      simp

/-- **A delay** by the listener that is called. -/
theorem delay (h : Strand trace delays [] [k]) : Strand trace (delays ++ [k]) [k] [] := by
  have hlast := h.last k (List.mem_singleton_self k)
  refine ⟨le_rfl, fun i hi => ?_, h.order, h.steps, fun i hi => ?_, fun i hi => ?_⟩
  · rw [List.append_nil] at hi
    obtain rfl := List.mem_singleton.1 hi
    exact hlast
  · have hagain := h.again i hi
    rw [List.count_nil] at hagain
    rw [List.count_append]
    omega
  · rcases List.mem_append.1 hi with hi | hi
    · exact h.made i hi
    · obtain rfl := List.mem_singleton.1 hi
      exact hlast.1

/-- **The end of a delay**: the listener that delayed is called again. -/
theorem resume (h : Strand trace delays [k] []) : Strand (trace ++ [k]) delays [] [k] := by
  obtain ⟨hmem, hle⟩ := h.last k (List.mem_singleton_self k)
  have hsame : ∀ i, i ∈ trace ++ [k] ↔ i ∈ trace := by
    intro i
    refine ⟨fun hi => ?_, List.mem_append_left _⟩
    rcases List.mem_append.1 hi with hi | hi
    · exact hi
    · rw [List.mem_singleton.1 hi]
      exact hmem
  refine ⟨le_rfl, fun i hi => ?_, order_append h.order hle, fun i hi => ?_, fun i hi => ?_, fun i hi => ?_⟩
  · obtain rfl := List.mem_singleton.1 hi
    exact ⟨(hsame i).2 hmem, fun j hj => hle j ((hsame j).1 hj)⟩
  · exact (hsame i).2 (h.steps i ((hsame _).1 hi))
  · rw [List.count_append, List.count_nil]
    exact h.again i ((hsame i).1 hi)
  · exact (hsame i).2 (h.made i hi)

end Strand

/-! ## The model -/

/-- `shuso_event_delay_t`, the serial-th that was made, of one publication -/
structure Delay where
  serial : ℕ
  publication : ℕ
  next_listener_index : ℕ
deriving DecidableEq

/-- a userdata in the registry -/
inductive Entry where
  | delay (d : Delay)
  | foreign
deriving DecidableEq

/-- `shuso_complete_event_state_t` -/
structure Frame where
  publication : ℕ
  cur : ℕ
  interrupt : Bool
  /-- the listener that is called has delayed the event -/
  delayed : Bool
deriving DecidableEq

structure Sys where
  registry : Table Entry
  /-- the timers that run, each in its record -/
  timers : List Delay
  frames : List Frame
  /-- the listeners called for each publication -/
  trace : ℕ → List ℕ
  /-- those that delayed it -/
  delays : ℕ → List ℕ
  publications : ℕ
  serials : ℕ
  /-- the reference of each record, which is the id of the delay -/
  ref : ℕ → ℕ
  /-- the delays whose timer has fired or that were resumed, each time -/
  ended : List ℕ
  /-- a null pointer was followed -/
  crashed : Bool
  /-- a reference was given back twice -/
  corrupt : Bool

inductive Action where
  /-- `shuso_event_publish` -/
  | publish
  /-- `shuso_event_delay` by the listener that is called: whether the interrupt handler grants a delay above 0, and whether
  `find` knows the event -/
  | delay (granted found : Bool)
  /-- the listener that is called returns -/
  | ret
  /-- `delayed_event_handler` of the i-th timer -/
  | timer (i : ℕ)
  /-- `shuso_event_resume_delayed` with the id of the h-th delay -/
  | resume (h : ℕ)
  /-- other code takes a reference -/
  | take
  /-- other code gives one back -/
  | release (r : ℕ)
deriving DecidableEq

def init : Sys where
  registry := ⟨0, fun _ => none, []⟩
  timers := []
  frames := []
  trace _ := []
  delays _ := []
  publications := 0
  serials := 0
  ref _ := 0
  ended := []
  crashed := false
  corrupt := false

/-- the record is the one its reference stands for -/
def Sys.pending (s : Sys) (d : Delay) : Bool := s.registry.slot (s.ref d.serial) == some (.delay d)

/-- the next listener of a publication is called -/
def Sys.invoke (s : Sys) (p k : ℕ) : Sys := { s with trace := Function.update s.trace p (s.trace p ++ [k]) }

/-- `fire_event`, to the call of the first listener -/
def fire_event (n : ℕ) (s : Sys) (p listener_start_index : ℕ) : Sys :=
  if listener_start_index < n then
    { s.invoke p listener_start_index with frames := ⟨p, listener_start_index, false, false⟩ :: s.frames }
  else s

/-- the rest of the loop of `fire_event` when a listener returns -/
def fire_event_next (n : ℕ) (s : Sys) (f : Frame) (rest : List Frame) : Sys :=
  if f.interrupt = false ∧ f.cur + 1 < n then
    { s.invoke f.publication (f.cur + 1) with frames := { f with cur := f.cur + 1 } :: rest }
  else { s with frames := rest }

/-- `shuso_event_delay` -/
def shuso_event_delay (s : Sys) (f : Frame) (rest : List Frame) (granted found : Bool) : Sys :=
  if granted = false then s
  -- the event is interrupted before the event is looked for
  else if found = false then { s with frames := { f with interrupt := true } :: rest }
  else
    -- the index is a uint16_t
    let d : Delay := ⟨s.serials, f.publication, f.cur % 2 ^ 16⟩
    let r := s.registry.ref (.delay d)
    { s with
      registry := r.1
      timers := s.timers ++ [d]
      frames := { f with interrupt := true, delayed := true } :: rest
      delays := Function.update s.delays f.publication (s.delays f.publication ++ [f.cur])
      serials := s.serials + 1
      ref := Function.update s.ref s.serials r.2 }

/-- `clear_delayed_state` -/
def clear_delayed_state (s : Sys) (d : Delay) : Sys :=
  { s with registry := s.registry.unref (s.ref d.serial), corrupt := s.corrupt || !s.pending d }

/-- `delayed_event_handler` -/
def delayed_event_handler (n : ℕ) (s : Sys) (i : ℕ) (d : Delay) : Sys :=
  let s := clear_delayed_state s d
  fire_event n { s with timers := s.timers.eraseIdx i, ended := d.serial :: s.ended } d.publication
    d.next_listener_index

/-- `shuso_event_resume_delayed`; without a userdata `lua_topointer` is a null pointer, which is not checked -/
def shuso_event_resume_delayed (n : ℕ) (s : Sys) (h : ℕ) : Sys :=
  match s.registry.slot (s.ref h) with
  | some (.delay d) =>
    let s := clear_delayed_state s d
    fire_event n { s with ended := h :: s.ended } d.publication d.next_listener_index
  | _ => { s with crashed := true }

/-- timers fire from the loop, when no call of `fire_event` is left -/
def step (n : ℕ) (s : Sys) : Action → Option Sys
  | .publish =>
    if s.crashed then none else some (fire_event n { s with publications := s.publications + 1 } s.publications 0)
  | .delay granted found =>
    match s.frames with
    | [] => none
    | f :: rest => if s.crashed ∨ s.corrupt then none else some (shuso_event_delay s f rest granted found)
  | .ret =>
    match s.frames with
    | [] => none
    | f :: rest => if s.crashed then none else some (fire_event_next n s f rest)
  | .timer i =>
    if s.crashed ∨ s.frames ≠ [] then none else (s.timers[i]?).map (delayed_event_handler n s i)
  | .resume h => if s.crashed ∨ s.serials ≤ h then none else some (shuso_event_resume_delayed n s h)
  | .take => if s.crashed ∨ s.corrupt then none else some { s with registry := (s.registry.ref .foreign).1 }
  | .release r =>
    if s.crashed ∨ s.corrupt ∨ s.registry.slot r ≠ some .foreign then none
    else some { s with registry := s.registry.unref r }

/-- **The condition.** No second delay in one call of a listener and none by a listener whose index is no uint16_t, no
resume and no timer of a delay that is not pending. -/
def Ok (s : Sys) : Action → Prop
  | .delay _ _ => ∀ f ∈ s.frames.head?, f.delayed = false ∧ f.cur < 2 ^ 16
  | .timer i => ∀ d ∈ s.timers[i]?, s.pending d = true
  | .resume h => ∃ d ∈ s.timers, d.serial = h ∧ s.pending d = true
  | _ => True

instance (s : Sys) (a : Action) : Decidable (Ok s a) := by
  cases a <;> unfold Ok <;> infer_instance

/-- the listeners that pending delays of a publication wait at -/
def Sys.waiting (s : Sys) (p : ℕ) : List ℕ :=
  ((s.timers.filter s.pending).filter fun d => d.publication = p).map Delay.next_listener_index

/-- the listeners that are called for a publication and have not delayed -/
def Sys.calling (s : Sys) (p : ℕ) : List ℕ :=
  (s.frames.filter fun f => f.publication = p ∧ f.delayed = false).map Frame.cur

/-- **The property.** -/
structure Delays (s : Sys) : Prop where
  /-- the order of the listeners is preserved, and none is left out -/
  order : ∀ p, (s.trace p).Pairwise (· ≤ ·)
  steps : ∀ p k, k + 1 ∈ s.trace p → k ∈ s.trace p
  /-- a listener is called once for the publication and once for each of its delays that has ended -/
  again : ∀ p, ∀ k ∈ s.trace p, (s.trace p).count k + (s.waiting p).count k = 1 + (s.delays p).count k
  /-- each delay ends once -/
  once : s.ended.Nodup
  sound : s.crashed = false

/-! ## The registry and the timers -/

/-- what a pending delay is: referenced, on a timer, and not ended -/
structure Held (s : Sys) : Prop where
  wf : s.registry.Wf
  live : ∀ r e, s.registry.slot r = some e → s.registry.Live r
  owned : ∀ r d, s.registry.slot r = some (.delay d) → s.ref d.serial = r ∧ d ∈ s.timers
  serial : ∀ d ∈ s.timers, d.serial < s.serials
  apart : (s.timers.map Delay.serial).Nodup
  ended_lt : ∀ h ∈ s.ended, h < s.serials
  once : s.ended.Nodup
  open_ : ∀ d ∈ s.timers, s.pending d = true → d.serial ∉ s.ended
  sound : s.crashed = false
  whole : s.corrupt = false

theorem pending_iff {s : Sys} {d : Delay} : s.pending d = true ↔ s.registry.slot (s.ref d.serial) = some (.delay d) :=
  beq_iff_eq

theorem init_held : Held init where
  wf := ⟨.nil, fun _ h => absurd h List.not_mem_nil⟩
  live _ _ h := by cases h
  owned _ _ h := by cases h
  serial _ h := absurd h List.not_mem_nil
  apart := .nil
  ended_lt _ h := absurd h List.not_mem_nil
  once := .nil
  open_ _ h := absurd h List.not_mem_nil
  sound := rfl
  whole := rfl

namespace Held

variable {s : Sys} {d e : Delay}

/-- giving back the reference of a pending delay makes it, and it alone, not pending -/
theorem pending_clear (hd : s.pending d = true) :
    (clear_delayed_state s d).pending e = true ↔ s.pending e = true ∧ e ≠ d := by
  rw [pending_iff, pending_iff]
  change (s.registry.unref (s.ref d.serial)).slot (s.ref e.serial) = _ ↔ _
  unfold Table.unref
  dsimp only
  by_cases hr : s.ref e.serial = s.ref d.serial
  · rw [hr, Function.update_self]
    refine ⟨fun hn => (by cases hn), fun ⟨he, hne⟩ => ?_⟩
    have heq := he.symm.trans (pending_iff.1 hd)
    rw [Option.some.injEq, Entry.delay.injEq] at heq
    exact absurd heq hne
  · rw [Function.update_of_ne hr]
    refine ⟨fun he => ⟨he, fun hed => hr (by rw [hed])⟩, fun he => he.1⟩

/-- the pending delays, before and after one of them ends -/
theorem wait_clear (h : Held s) (hm : d ∈ s.timers) (hd : s.pending d = true) :
    (s.timers.filter s.pending).Perm (d :: s.timers.filter (clear_delayed_state s d).pending) := by
  have hnd : s.timers.Nodup := h.apart.of_map
  have hfilter : s.timers.filter (clear_delayed_state s d).pending = (s.timers.filter s.pending).erase d := by
    rw [(hnd.filter _).erase_eq_filter, List.filter_filter]
    apply List.filter_congr
    intro e _
    rw [Bool.eq_iff_iff, pending_clear hd]
    simp [and_comm]
  rw [hfilter]
  exact List.perm_cons_erase (List.mem_filter.2 ⟨hm, hd⟩)

/-- **A delay ends**, by its timer or by a resume; a timer that has fired does not run any more. -/
theorem clear (h : Held s) (hm : d ∈ s.timers) (hd : s.pending d = true) {timers : List Delay}
    (hsub : timers.Sublist s.timers) (hkeep : ∀ e ∈ s.timers, e ≠ d → e ∈ timers) :
    Held { clear_delayed_state s d with timers := timers, ended := d.serial :: s.ended } := by
  have hslot := pending_iff.1 hd
  have hlive := h.live _ _ hslot
  have hstay : ∀ r e, (s.registry.unref (s.ref d.serial)).slot r = some e →
      r ≠ s.ref d.serial ∧ s.registry.slot r = some e := by
    intro r e he
    unfold Table.unref at he
    dsimp only at he
    rcases eq_or_ne r (s.ref d.serial) with rfl | hne
    · rw [Function.update_self] at he
      cases he
    · rw [Function.update_of_ne hne] at he
      exact ⟨hne, he⟩
  refine ⟨unref_wf h.wf hlive, fun r e he => ?_, fun r e he => ?_, fun e he => h.serial e (hsub.subset he),
    (hsub.map _).nodup h.apart, fun i hi => ?_, ?_, fun e he hp => ?_, h.sound, ?_⟩
  · obtain ⟨hne, he⟩ := hstay r e he
    exact (unref_keeps hne (h.live r e he)).1
  · obtain ⟨hne, he⟩ := hstay r _ he
    obtain ⟨hr, hmem⟩ := h.owned r e he
    refine ⟨hr, hkeep e hmem fun hed => hne ?_⟩
    rw [← hr, hed]
  · rcases List.mem_cons.1 hi with rfl | hi
    · exact h.serial d hm
    · exact h.ended_lt i hi
  · exact List.nodup_cons.2 ⟨h.open_ d hm hd, h.once⟩
  · obtain ⟨hp, hne⟩ := (pending_clear hd).1 hp
    have hse := hsub.subset he
    rw [List.mem_cons, not_or]
    exact ⟨fun hs => hne (List.inj_on_of_nodup_map h.apart hse hm hs), h.open_ e hse hp⟩
  · change (s.corrupt || !s.pending d) = false
    rw [h.whole, hd]
    rfl

/-- **A delay is made.** Its reference was not in use. -/
theorem make (h : Held s) (p k : ℕ) :
    let d : Delay := ⟨s.serials, p, k⟩
    let r := s.registry.ref (.delay d)
    let t : Sys := { s with registry := r.1, timers := s.timers ++ [d], serials := s.serials + 1,
                            ref := Function.update s.ref s.serials r.2 }
    Held t ∧ (∀ q, t.waiting q = s.waiting q ++ (if p = q then [k] else [])) ∧
      ∀ e ∈ t.timers, t.pending e = true → e = d ∨ e ∈ s.timers ∧ s.pending e = true := by
  intro d r t
  have hslot : r.1.slot r.2 = some (.delay d) := ref_slot ..
  have hstay : ∀ q e, r.1.slot q = some e → (q = r.2 ∧ e = .delay d) ∨ (q ≠ r.2 ∧ s.registry.slot q = some e) := by
    intro q e he
    rcases eq_or_ne q r.2 with rfl | hne
    · rw [hslot] at he
      exact .inl ⟨rfl, (Option.some.inj he).symm⟩
    · exact .inr ⟨hne, ref_slot_ne _ hne ▸ he⟩
  have hkeep : ∀ e ∈ s.timers, t.pending e = s.pending e := by
    intro e he
    have hne : e.serial ≠ s.serials := (h.serial e he).ne
    rw [Bool.eq_iff_iff, pending_iff, pending_iff]
    change r.1.slot (Function.update s.ref s.serials r.2 e.serial) = _ ↔ _
    rw [Function.update_of_ne hne]
    refine ⟨fun hp => ?_, fun hp => ?_⟩
    · rcases hstay _ _ hp with ⟨-, heq⟩ | ⟨-, hp⟩
      · have := congrArg Delay.serial (Entry.delay.inj heq)
        exact absurd this hne
      · exact hp
    · rw [(ref_keeps _ (h.live _ _ hp)).2]
      exact hp
  have hd : t.pending d = true := by
    rw [pending_iff]
    change r.1.slot (Function.update s.ref s.serials r.2 s.serials) = _
    rw [Function.update_self]
    exact hslot
  refine ⟨⟨ref_wf h.wf _, fun q e he => ?_, fun q e he => ?_, fun e he => ?_, ?_, fun i hi => ?_, h.once,
    fun e he hp => ?_, h.sound, h.whole⟩, fun q => ?_, fun e he hp => ?_⟩
  · rcases hstay q e he with ⟨rfl, -⟩ | ⟨-, he⟩
    · exact ref_live h.wf _
    · exact (ref_keeps _ (h.live q e he)).1
  · rcases hstay q _ he with ⟨rfl, heq⟩ | ⟨-, he⟩
    · cases heq
      exact ⟨Function.update_self .., List.mem_append_right _ (List.mem_singleton_self d)⟩
    · obtain ⟨hr, hmem⟩ := h.owned q e he
      refine ⟨?_, List.mem_append_left _ hmem⟩
      rw [← hr]
      exact Function.update_of_ne (h.serial e hmem).ne ..
  · rcases List.mem_append.1 he with he | he
    · exact (h.serial e he).trans (Nat.lt_succ_self _)
    · rw [List.mem_singleton.1 he]
      exact Nat.lt_succ_self _
  · change ((s.timers ++ [d]).map Delay.serial).Nodup
    rw [List.map_append, List.nodup_append]
    refine ⟨h.apart, List.nodup_singleton _, fun i hi j hj => ?_⟩
    obtain ⟨e, he, rfl⟩ := List.mem_map.1 hi
    obtain rfl := List.mem_singleton.1 hj
    exact (h.serial e he).ne
  · exact (h.ended_lt i hi).trans (Nat.lt_succ_self _)
  · rcases List.mem_append.1 he with he | he
    · exact h.open_ e he (hkeep e he ▸ hp)
    · rw [List.mem_singleton.1 he]
      exact fun hin => absurd (h.ended_lt _ hin) (Nat.lt_irrefl _)
  · unfold Sys.waiting
    change ((List.filter t.pending (s.timers ++ [d])).filter _).map _ = _
    have hone : List.filter t.pending [d] = [d] := by simp [hd]
    rw [List.filter_append, List.filter_congr hkeep, hone, List.filter_append, List.map_append]
    congr 1
    by_cases hq : p = q <;> simp [d, hq]
  · rcases List.mem_append.1 he with he | he
    · exact .inr ⟨he, hkeep e he ▸ hp⟩
    · exact .inl (List.mem_singleton.1 he)

/-- the calls of the listeners are not part of it -/
theorem of_calls (h : Held s) (frames : List Frame) (trace delays : ℕ → List ℕ) (publications : ℕ) :
    Held { s with frames := frames, trace := trace, delays := delays, publications := publications } :=
  ⟨h.wf, h.live, h.owned, h.serial, h.apart, h.ended_lt, h.once, h.open_, h.sound, h.whole⟩

/-- **Other code** takes a reference, or gives back its own. -/
theorem take (h : Held s) : Held { s with registry := (s.registry.ref .foreign).1 } ∧
    ∀ e ∈ s.timers, Sys.pending { s with registry := (s.registry.ref .foreign).1 } e = s.pending e := by
  have hstay : ∀ q e, (s.registry.ref .foreign).1.slot q = some (.delay e) ↔ s.registry.slot q = some (.delay e) := by
    intro q e
    rcases eq_or_ne q (s.registry.ref .foreign).2 with rfl | hne
    · rw [ref_slot]
      refine ⟨fun he => (by cases he), fun he => absurd (h.live _ _ he) (ref_fresh _ _)⟩
    · rw [ref_slot_ne _ hne]
  have hpending : ∀ e, Sys.pending { s with registry := (s.registry.ref .foreign).1 } e = s.pending e := by
    intro e
    rw [Bool.eq_iff_iff, pending_iff, pending_iff]
    exact hstay _ _
  refine ⟨⟨ref_wf h.wf _, fun q e he => ?_, fun q e he => h.owned q e ((hstay q e).1 he), h.serial, h.apart, h.ended_lt,
    h.once, fun e he hp => h.open_ e he (hpending e ▸ hp), h.sound, h.whole⟩, fun e _ => hpending e⟩
  rcases eq_or_ne q (s.registry.ref .foreign).2 with rfl | hne
  · exact ref_live h.wf _
  · exact (ref_keeps _ (h.live q e (ref_slot_ne Entry.foreign hne ▸ he))).1

theorem release (h : Held s) {r : ℕ} (hr : s.registry.slot r = some .foreign) :
    Held { s with registry := s.registry.unref r } ∧
      ∀ e ∈ s.timers, Sys.pending { s with registry := s.registry.unref r } e = s.pending e := by
  have hstay : ∀ q e, (s.registry.unref r).slot q = some e → q ≠ r ∧ s.registry.slot q = some e := by
    intro q e he
    unfold Table.unref at he
    dsimp only at he
    rcases eq_or_ne q r with rfl | hne
    · rw [Function.update_self] at he
      cases he
    · rw [Function.update_of_ne hne] at he
      exact ⟨hne, he⟩
  have hpending : ∀ e, Sys.pending { s with registry := s.registry.unref r } e = s.pending e := by
    intro e
    rw [Bool.eq_iff_iff, pending_iff, pending_iff]
    refine ⟨fun he => (hstay _ _ he).2, fun he => ?_⟩
    have hne : s.ref e.serial ≠ r := fun heq => by
      rw [heq, hr] at he
      cases he
    exact (unref_keeps hne (h.live _ _ he)).2.trans he
  refine ⟨⟨unref_wf h.wf (h.live r _ hr), fun q e he => ?_, fun q e he => h.owned q e (hstay q _ he).2, h.serial, h.apart,
    h.ended_lt, h.once, fun e he hp => h.open_ e he (hpending e ▸ hp), h.sound, h.whole⟩, fun e _ => hpending e⟩
  obtain ⟨hne, he⟩ := hstay q e he
  exact (unref_keeps hne (h.live q e he)).1

end Held

/-! ## The calls of the listeners -/

structure Inv (n : ℕ) (s : Sys) : Prop extends Held s where
  strand : ∀ p, Strand (s.trace p) (s.delays p) (s.waiting p) (s.calling p)
  known : ∀ p, s.publications ≤ p → s.trace p = [] ∧ s.delays p = []
  stop : ∀ f ∈ s.frames, f.delayed = true → f.interrupt = true
  within : ∀ f ∈ s.frames, f.cur < n
  below : ∀ d ∈ s.timers, s.pending d = true → d.next_listener_index < n

variable {n : ℕ} {s t : Sys}

theorem init_inv : Inv n init where
  toHeld := init_held
  strand _ := Strand.nil
  known _ _ := ⟨rfl, rfl⟩
  stop _ h := absurd h List.not_mem_nil
  within _ h := absurd h List.not_mem_nil
  below _ h := absurd h List.not_mem_nil

/-- what a frame on top adds to the calls -/
theorem calling_cons (s : Sys) (f : Frame) (rest : List Frame) (p : ℕ) :
    Sys.calling { s with frames := f :: rest } p =
      (if f.publication = p ∧ f.delayed = false then [f.cur] else []) ++ Sys.calling { s with frames := rest } p := by
  unfold Sys.calling
  rw [List.filter_cons]
  split_ifs <;> simp_all

/-- **`fire_event`** for a publication that has nothing pending and nothing called. -/
theorem fire_event_inv {p k : ℕ} (hk : k < n) (h : Held t) (hp : p < t.publications)
    (hknown : ∀ q, t.publications ≤ q → t.trace q = [] ∧ t.delays q = [])
    (hstop : ∀ f ∈ t.frames, f.delayed = true → f.interrupt = true) (hwithin : ∀ f ∈ t.frames, f.cur < n)
    (hbelow : ∀ d ∈ t.timers, t.pending d = true → d.next_listener_index < n)
    (hother : ∀ q, q ≠ p → Strand (t.trace q) (t.delays q) (t.waiting q) (t.calling q))
    (hwait : t.waiting p = []) (hcall : t.calling p = []) (hnew : Strand (t.trace p ++ [k]) (t.delays p) [] [k]) :
    Inv n (fire_event n t p k) := by
  unfold fire_event
  rw [if_pos hk]
  refine ⟨h.of_calls _ _ _ _, fun q => ?_, fun q hq => ?_, ?_, ?_, hbelow⟩
  · have hcons := calling_cons t ⟨p, k, false, false⟩ t.frames q
    change Strand (Function.update t.trace p (t.trace p ++ [k]) q) (t.delays q) (t.waiting q)
      (Sys.calling { t with frames := ⟨p, k, false, false⟩ :: t.frames } q)
    rw [hcons]
    change Strand _ _ _ (_ ++ t.calling q)
    rcases eq_or_ne q p with rfl | hne
    · rw [Function.update_self, if_pos ⟨rfl, rfl⟩, hwait, hcall]
      exact hnew
    · rw [Function.update_of_ne hne, if_neg fun heq => hne heq.1.symm]
      exact hother q hne
  · change Function.update t.trace p (t.trace p ++ [k]) q = [] ∧ t.delays q = []
    have hne : q ≠ p := fun heq => absurd hp (Nat.not_lt.2 (heq ▸ hq))
    rw [Function.update_of_ne hne]
    exact hknown q hq
  · intro f hf hd
    rcases List.mem_cons.1 hf with rfl | hf
    · cases hd
    · exact hstop f hf hd
  · intro f hf
    rcases List.mem_cons.1 hf with rfl | hf
    · exact hk
    · exact hwithin f hf

theorem publish_inv (h : Inv n s) :
    Inv n (fire_event n { s with publications := s.publications + 1 } s.publications 0) := by
  have hknown : ∀ q, s.publications + 1 ≤ q → s.trace q = [] ∧ s.delays q = [] :=
    fun q hq => h.known q (Nat.le_of_succ_le hq)
  obtain ⟨htrace, hdelays⟩ := h.known s.publications le_rfl
  have hempty := h.strand s.publications
  rw [htrace] at hempty
  obtain ⟨hwait, hcall⟩ := hempty.unborn
  rcases Nat.eq_zero_or_pos n with hn | hn
  · -- no listener at all
    unfold fire_event
    rw [if_neg (Nat.not_lt.2 (hn ▸ le_rfl))]
    exact ⟨h.toHeld.of_calls _ _ _ _, h.strand, hknown, h.stop, h.within, h.below⟩
  · refine fire_event_inv hn (h.toHeld.of_calls _ _ _ _) (Nat.lt_succ_self _) hknown h.stop h.within h.below
      (fun q _ => h.strand q) hwait hcall ?_
    change Strand (s.trace s.publications ++ [0]) (s.delays s.publications) [] [0]
    rw [htrace, hdelays]
    exact .start

/-- **The end of a delay.** Its publication has nothing else, so its listeners go on where it was delayed. -/
theorem end_inv (h : Inv n s) {d : Delay} (hm : d ∈ s.timers) (hd : s.pending d = true) {timers : List Delay}
    (hsub : timers.Sublist s.timers) (hperm : s.timers.Perm (d :: timers) ∨ timers = s.timers) :
    Inv n (fire_event n { clear_delayed_state s d with timers := timers, ended := d.serial :: s.ended } d.publication
      d.next_listener_index) := by
  have hkeep : ∀ e ∈ s.timers, e ≠ d → e ∈ timers := by
    intro e he hne
    rcases hperm with hperm | rfl
    · rcases List.mem_cons.1 (hperm.mem_iff.1 he) with heq | he
      · exact absurd heq hne
      · exact he
    · exact he
  have hheld := h.toHeld.clear hm hd hsub hkeep
  set t : Sys := { clear_delayed_state s d with timers := timers, ended := d.serial :: s.ended } with ht
  -- the pending delays are those of before, less this one
  have hgone : t.pending d = false := by
    rw [Bool.eq_false_iff]
    exact fun hp => ((Held.pending_clear hd).1 hp).2 rfl
  have hwaitperm : (s.timers.filter s.pending).Perm (d :: t.timers.filter t.pending) := by
    apply (h.toHeld.wait_clear hm hd).trans
    change (d :: s.timers.filter t.pending).Perm _
    apply List.Perm.cons
    rcases hperm with hperm | heq
    · have hfilter := hperm.filter t.pending
      rwa [List.filter_cons_of_neg (by rw [hgone]; decide)] at hfilter
    · exact List.Perm.of_eq (by rw [← heq])
  have hwait : ∀ q, (s.waiting q).Perm
      ((if d.publication = q then [d.next_listener_index] else []) ++ t.waiting q) := by
    intro q
    have hq := (hwaitperm.filter fun e => decide (e.publication = q)).map Delay.next_listener_index
    rw [List.filter_cons] at hq
    unfold Sys.waiting
    split_ifs with heq <;> simpa [heq] using hq
  have hself := (h.strand d.publication).perm (hwait d.publication) (List.Perm.refl _)
  rw [if_pos rfl] at hself
  obtain ⟨hone, hcall⟩ := hself.waiting_eq List.mem_cons_self
  have hnone : t.waiting d.publication = [] := List.append_cancel_left hone
  rw [hone, hcall] at hself
  have hpub : d.publication < s.publications := by
    by_contra hnot
    obtain ⟨htrace, -⟩ := h.known _ (Nat.le_of_not_lt hnot)
    rw [htrace] at hself
    exact absurd hself.unborn.1 (List.cons_ne_nil _ _)
  refine fire_event_inv (h.below d hm hd) hheld hpub h.known h.stop h.within (fun e he hp => ?_) (fun q hne => ?_)
    hnone hcall hself.resume
  · exact h.below e (hsub.subset he) ((Held.pending_clear hd).1 hp).1
  · have hq := (h.strand q).perm (hwait q) (List.Perm.refl _)
    rwa [if_neg fun heq => hne heq.symm] at hq

/-- the calls, with the innermost one apart -/
theorem calling_eq {f : Frame} {rest : List Frame} (hf : s.frames = f :: rest) (q : ℕ) :
    s.calling q = (if f.publication = q ∧ f.delayed = false then [f.cur] else []) ++
      Sys.calling { s with frames := rest } q := by
  have hcons := calling_cons s f rest q
  rw [← hf] at hcons
  exact hcons

/-- the innermost call of a publication that was not delayed is all that happens to it -/
theorem Inv.innermost (h : Inv n s) {f : Frame} {rest : List Frame} (hf : s.frames = f :: rest)
    (hd : f.delayed = false) :
    Strand (s.trace f.publication) (s.delays f.publication) [] [f.cur] ∧ s.waiting f.publication = [] ∧
      Sys.calling { s with frames := rest } f.publication = [] := by
  have hs := h.strand f.publication
  have hcall := calling_eq hf f.publication
  rw [if_pos ⟨rfl, hd⟩] at hcall
  rw [hcall] at hs
  obtain ⟨hwait, hone⟩ := hs.calling_eq List.mem_cons_self
  rw [hwait, hone] at hs
  exact ⟨hs, hwait, List.append_cancel_left hone⟩

theorem Inv.pub_lt (h : Inv n s) {f : Frame} {rest : List Frame} (hf : s.frames = f :: rest)
    (hd : f.delayed = false) : f.publication < s.publications := by
  by_contra hnot
  obtain ⟨htrace, -⟩ := h.known _ (Nat.le_of_not_lt hnot)
  have hs := (h.innermost hf hd).1
  rw [htrace] at hs
  exact absurd hs.unborn.2 (List.cons_ne_nil _ _)

/-- **A listener delays the event.** -/
theorem delay_inv (h : Inv n s) {f : Frame} {rest : List Frame} (hf : s.frames = f :: rest) (hd : f.delayed = false)
    (h16 : f.cur < 2 ^ 16) (granted found : Bool) : Inv n (shuso_event_delay s f rest granted found) := by
  have hin : f ∈ s.frames := hf ▸ List.mem_cons_self
  have hrest : ∀ g ∈ rest, g ∈ s.frames := fun g hg => hf ▸ List.mem_cons_of_mem f hg
  unfold shuso_event_delay
  split
  · exact h
  split
  · -- the call goes on, but the listeners behind it are not called
    refine ⟨h.toHeld.of_calls _ _ _ _, fun q => ?_, h.known, ?_, ?_, h.below⟩
    · have hcons := calling_cons s { f with interrupt := true } rest q
      change Strand (s.trace q) (s.delays q) (s.waiting q) (Sys.calling { s with frames := _ :: rest } q)
      rw [hcons, ← calling_eq hf q]
      exact h.strand q
    · intro g hg hgd
      rcases List.mem_cons.1 hg with rfl | hg
      · rfl
      · exact h.stop g (hrest g hg) hgd
    · intro g hg
      rcases List.mem_cons.1 hg with rfl | hg
      · exact h.within f hin
      · exact h.within g (hrest g hg)
  · rw [Nat.mod_eq_of_lt h16]
    obtain ⟨hheld, hwait, hpending⟩ := h.toHeld.make f.publication f.cur
    obtain ⟨hs, hnone, hcall⟩ := h.innermost hf hd
    have hpub := h.pub_lt hf hd
    refine ⟨hheld.of_calls _ _ _ _, fun q => ?_, fun q hq => ?_, ?_, ?_, fun e he hp => ?_⟩
    · have hcons := calling_cons s { f with interrupt := true, delayed := true } rest q
      rw [if_neg fun heq => Bool.noConfusion heq.2, List.nil_append] at hcons
      change Strand (s.trace q) (Function.update s.delays f.publication (s.delays f.publication ++ [f.cur]) q) _
        (Sys.calling { s with frames := _ :: rest } q)
      have hq := hwait q
      rw [hcons]
      rcases eq_or_ne q f.publication with rfl | hne
      · rw [if_pos rfl, hnone, List.nil_append] at hq
        rw [Function.update_self, hcall]
        exact hq ▸ hs.delay
      · have hsame := calling_eq hf q
        rw [if_neg fun heq => hne heq.1.symm, List.nil_append] at hsame
        rw [if_neg hne.symm, List.append_nil] at hq
        rw [Function.update_of_ne hne, ← hsame]
        exact hq ▸ h.strand q
    · change s.trace q = [] ∧ Function.update s.delays f.publication _ q = []
      have hne : q ≠ f.publication := fun heq => absurd hpub (Nat.not_lt.2 (heq ▸ hq))
      rw [Function.update_of_ne hne]
      exact h.known q hq
    · intro g hg hgd
      rcases List.mem_cons.1 hg with rfl | hg
      · rfl
      · exact h.stop g (hrest g hg) hgd
    · intro g hg
      rcases List.mem_cons.1 hg with rfl | hg
      · exact h.within f hin
      · exact h.within g (hrest g hg)
    · rcases hpending e he hp with rfl | ⟨he, hp⟩
      · exact h.within f hin
      · exact h.below e he hp

/-- **A listener returns.** -/
theorem ret_inv (h : Inv n s) {f : Frame} {rest : List Frame} (hf : s.frames = f :: rest) :
    Inv n (fire_event_next n s f rest) := by
  have hrest : ∀ g ∈ rest, g ∈ s.frames := fun g hg => hf ▸ List.mem_cons_of_mem f hg
  have hin : f ∈ s.frames := hf ▸ List.mem_cons_self
  unfold fire_event_next
  split
  · rename_i hnext
    obtain ⟨hi, hlt⟩ := hnext
    have hd : f.delayed = false := by
      cases hd : f.delayed with
      | false => rfl
      | true => rw [h.stop f hin hd] at hi; cases hi
    obtain ⟨hs, hwait, hcall⟩ := h.innermost hf hd
    have hpub := h.pub_lt hf hd
    refine ⟨h.toHeld.of_calls _ _ _ _, fun q => ?_, fun q hq => ?_, ?_, ?_, h.below⟩
    · have hcons := calling_cons s { f with cur := f.cur + 1 } rest q
      change Strand (Function.update s.trace f.publication (s.trace f.publication ++ [f.cur + 1]) q) (s.delays q)
        (s.waiting q) (Sys.calling { s with frames := _ :: rest } q)
      rw [hcons]
      rcases eq_or_ne q f.publication with rfl | hne
      · rw [Function.update_self, if_pos ⟨rfl, hd⟩, hwait, hcall]
        exact hs.next
      · have hsame := calling_eq hf q
        rw [if_neg fun heq => hne heq.1.symm] at hsame
        rw [Function.update_of_ne hne, if_neg fun heq => hne heq.1.symm, ← hsame]
        exact h.strand q
    · change Function.update s.trace f.publication _ q = [] ∧ s.delays q = []
      have hne : q ≠ f.publication := fun heq => absurd hpub (Nat.not_lt.2 (heq ▸ hq))
      rw [Function.update_of_ne hne]
      exact h.known q hq
    · intro g hg hgd
      rcases List.mem_cons.1 hg with rfl | hg
      · rw [hd] at hgd
        cases hgd
      · exact h.stop g (hrest g hg) hgd
    · intro g hg
      rcases List.mem_cons.1 hg with rfl | hg
      · exact hlt
      · exact h.within g (hrest g hg)
  · refine ⟨h.toHeld.of_calls _ _ _ _, fun q => ?_, h.known, fun g hg => h.stop g (hrest g hg),
      fun g hg => h.within g (hrest g hg), h.below⟩
    change Strand (s.trace q) (s.delays q) (s.waiting q) (Sys.calling { s with frames := rest } q)
    by_cases hq : f.publication = q ∧ f.delayed = false
    · obtain ⟨rfl, hd⟩ := hq
      obtain ⟨hs, hwait, hcall⟩ := h.innermost hf hd
      rw [hwait, hcall]
      exact hs.leave
    · have hsame := calling_eq hf q
      rw [if_neg hq, List.nil_append] at hsame
      rw [← hsame]
      exact h.strand q

/-- the other users of the registry have nothing to do with the event -/
theorem other_inv (h : Inv n s) {R : Table Entry} (hheld : Held { s with registry := R })
    (hpending : ∀ e ∈ s.timers, Sys.pending { s with registry := R } e = s.pending e) :
    Inv n { s with registry := R } := by
  refine ⟨hheld, fun q => ?_, h.known, h.stop, h.within, fun e he hp => h.below e he (hpending e he ▸ hp)⟩
  have hwait : Sys.waiting { s with registry := R } q = s.waiting q := by
    unfold Sys.waiting
    change ((List.filter _ s.timers).filter _).map _ = _
    rw [List.filter_congr hpending]
  rw [hwait]
  exact h.strand q

/-- **One step.** -/
theorem step_inv {a : Action} (h : Inv n s) (hok : Ok s a) (hst : step n s a = some t) : Inv n t := by
  cases a with
  | publish =>
    obtain ⟨-, rfl⟩ := Option.ite_none_left_eq_some.1 hst |>.imp id Option.some.inj
    exact publish_inv h
  | delay granted found =>
    simp only [step] at hst
    split at hst
    · cases hst
    · rename_i f rest hf
      obtain ⟨-, rfl⟩ := Option.ite_none_left_eq_some.1 hst |>.imp id Option.some.inj
      obtain ⟨hd, h16⟩ := hok f (by rw [hf]; rfl)
      exact delay_inv h hf hd h16 granted found
  | ret =>
    simp only [step] at hst
    split at hst
    · cases hst
    · rename_i f rest hf
      obtain ⟨-, rfl⟩ := Option.ite_none_left_eq_some.1 hst |>.imp id Option.some.inj
      exact ret_inv h hf
  | timer i =>
    obtain ⟨-, hst⟩ := Option.ite_none_left_eq_some.1 hst
    obtain ⟨d, hget, rfl⟩ := Option.map_eq_some_iff.1 hst
    obtain ⟨hi, rfl⟩ := List.getElem?_eq_some_iff.1 hget
    exact end_inv h (List.getElem_mem hi) (hok _ hget) (List.eraseIdx_sublist ..)
      (.inl (List.getElem_cons_eraseIdx_perm hi).symm)
  | resume i =>
    obtain ⟨-, rfl⟩ := Option.ite_none_left_eq_some.1 hst |>.imp id Option.some.inj
    obtain ⟨d, hm, rfl, hd⟩ := hok
    unfold shuso_event_resume_delayed
    rw [pending_iff.1 hd]
    exact end_inv h hm hd (List.Sublist.refl _) (.inr rfl)
  | take =>
    obtain ⟨-, rfl⟩ := Option.ite_none_left_eq_some.1 hst |>.imp id Option.some.inj
    obtain ⟨hheld, hpending⟩ := h.toHeld.take
    exact other_inv h hheld hpending
  | release r =>
    obtain ⟨hguard, rfl⟩ := Option.ite_none_left_eq_some.1 hst |>.imp id Option.some.inj
    simp only [not_or, not_not] at hguard
    obtain ⟨hheld, hpending⟩ := h.toHeld.release hguard.2.2
    exact other_inv h hheld hpending

/-! ## The delays are as they should be -/

theorem Inv.delays (h : Inv n s) : Delays s :=
  ⟨fun p => (h.strand p).order, fun p => (h.strand p).steps, fun p => (h.strand p).again, h.once, h.sound⟩

/-- **Delayed events** in every run that meets the condition. -/
theorem delays_of_ok (n : ℕ) (s : Sys) (h : Reach (step n) Ok init s) : Delays s :=
  (h.inv init_inv fun _ _ _ hs hok hst => step_inv hs hok hst).delays

/-- three listeners: the second delays twice, ended by its timer and then by a resume, and the third delays once -/
theorem delays_of_ok_run : ∃ s, Reach (step 3) Ok init s ∧ Delays s ∧ s.trace 0 = [0, 1, 1, 1, 2, 2] := by
  have hrun : (execIf (step 3) Ok init
      [.publish, .ret, .delay true true, .ret, .timer 0, .delay true true, .ret, .take, .resume 1, .ret,
        .delay true true, .ret, .timer 1, .ret]).any (fun s => decide (s.trace 0 = [0, 1, 1, 1, 2, 2])) := by
    decide +kernel
  obtain ⟨s, hs, htrace⟩ := Option.any_eq_true _ _ |>.1 hrun
  have hreach := Reach.of_execIf Reach.init hs
  exact ⟨s, hreach, delays_of_ok 3 s hreach, of_decide_eq_true htrace⟩

/-- **A delay that ends twice.** The first of two listeners delays, is resumed, and its timer, which still runs, calls both
again. -/
theorem delays_fail : ∃ s, Reach (step 2) always init s ∧ ¬ Delays s ∧ s.trace 0 = [0, 0, 1, 0, 1] := by
  have hrun : (exec (step 2) init
      [.publish, .delay true true, .ret, .resume 0, .ret, .ret, .timer 0, .ret]).any
        (fun s => decide (s.trace 0 = [0, 0, 1, 0, 1] ∧ s.ended = [0, 0])) := by decide +kernel
  obtain ⟨s, hs, htrace⟩ := Option.any_eq_true _ _ |>.1 hrun
  obtain ⟨htrace, hended⟩ := of_decide_eq_true htrace
  refine ⟨s, Reach.of_exec hs, fun hd => ?_, htrace⟩
  have honce := hd.once
  rw [hended] at honce
  exact absurd honce (by decide)

/-- two delays in one call: the second listener is called twice -/
example : (exec (step 2) init
    [.publish, .delay true true, .delay true true, .ret, .timer 0, .ret, .ret, .timer 0, .ret]).map
      (fun s => (s.trace 0, s.delays 0)) = some ([0, 0, 1, 0, 1], [0, 0]) := by decide +kernel

/-- an id that is resumed a second time has been given to the delay of the next publication -/
example : (exec (step 2) init
    [.publish, .delay true true, .ret, .resume 0, .ret, .ret, .publish, .delay true true, .ret, .resume 0]).map
      (fun s => (s.ended, s.trace 1)) = some ([0, 0], [0, 0]) := by decide +kernel

end Shuttlesock.Events
