/-
How a broadcast ends: the counting coroutine of `ipc_broadcast` in `ipc.lua`, `lua_ipc_return_to_caller`,
`lua_ipc_cancel_handler`, `handle_lua_ipc_response` and `luaS_lua_ipc_gc_data` of `ipc_lua_api.c`, and
`lua_module_stop_process_event` of `lua_bridge.c`.

The coroutine is the caller of the packed data. Each answer resumes it, and the last one makes it collect the data and run
the handler.

Model: the broadcasts that one process has begun, with any sets of destinations, and the number of its other messages. The
answers arrive in any order, between those to other broadcasts. No answer is handled while the messages are sent, since that is one piece of
Lua code; what a handler does comes as steps of its own. A message that the core does not take raises an error, behind those that were sent.
The cancel handler of a message that goes through the manager takes the proxy's record for the packed data: nothing of the
broadcast is resumed, and what else happens is left out. `gcs` and `runs` count what the claim is about.

Results:
- `completed_of_ok`: in every run in which each broadcast has a destination and all its messages are taken, and no message that goes
  through the manager is cancelled, the broadcasts end as they should (`Completed`).
- `never_completed`: a broadcast to the workers when there are none.
- `active_eq`: what the counter of messages is in any run.
-/
import Mathlib.Data.List.TakeWhile
import Mathlib.Tactic
import Shuttlesock.Core.Runs
import Shuttlesock.Lua.Broadcast

namespace Shuttlesock.Broadcasts

open Runs

/-! ## The model -/

/-- what is run at the end: nothing, a function, or a coroutine such as the sender that has yielded -/
inductive Handler where
  | none | function | thread
deriving DecidableEq

/-- how often it should be run -/
def Handler.due : Handler → ℕ
  | .none => 0
  | _ => 1

/-- the counting coroutine -/
inductive Coro where
  | created | suspended | dead
deriving DecidableEq

structure Broadcast where
  handler : Handler
  responses_pending : ℤ
  failed_count : ℕ
  coro : Coro
  /-- the entry of the coroutine in `all_waiting_handlers_refcounts` -/
  refcount : ℕ
  /-- to whom there are messages that are not answered -/
  outstanding : List ℤ
  gcs : ℕ
  runs : ℕ
deriving DecidableEq

structure Process where
  broadcasts : List Broadcast
  others : ℕ
  ipc_messages_active : ℤ
deriving DecidableEq

def Process.empty : Process := ⟨[], 0, 0⟩

inductive Action where
  /-- `ipc_broadcast` to these processes, with what the core says to each message -/
  | broadcast (dstprocnums : List ℤ) (handler : Handler) (takes : ℤ → Bool)
  | acknowledge (i : ℕ) (dst : ℤ)
  | cancel (i : ℕ) (dst : ℤ)
  /-- another message is packed -/
  | pack
  /-- and collected -/
  | gc

/-- the messages that are sent, up to one that the core does not take -/
def started (dstprocnums : List ℤ) (handler : Handler) (takes : ℤ → Bool) : Broadcast where
  handler := handler
  responses_pending := dstprocnums.length
  failed_count := 0
  coro := .created
  refcount := 0
  outstanding := dstprocnums.takeWhile takes
  gcs := 0
  runs := 0

/-- the body of the coroutine, from where it is to its next yield or its end -/
def Broadcast.resume (b : Broadcast) (success : Bool) : Broadcast :=
  let refcount := if b.coro = .created then b.refcount + 1 else b.refcount - 1
  let responses_pending := b.responses_pending - 1
  let failed_count := if success then b.failed_count else b.failed_count + 1
  if responses_pending = 0 then
    { b with
      responses_pending := responses_pending
      failed_count := failed_count
      coro := .dead
      refcount := refcount - 1
      gcs := b.gcs + 1
      runs := b.runs + b.handler.due }
  else
    { b with
      responses_pending := responses_pending
      failed_count := failed_count
      coro := .suspended
      refcount := refcount + 1 }

/-- `lua_ipc_return_to_caller`; a coroutine that has ended cannot be resumed, and the error is ignored -/
def Broadcast.return_to_caller (b : Broadcast) (success : Bool) : Broadcast :=
  if b.coro = .dead then b else b.resume success

/-- a broadcast changes, and the counter with what it has collected -/
def Process.put (s : Process) (i : ℕ) (b b' : Broadcast) : Process :=
  { s with
    broadcasts := s.broadcasts.set i b'
    ipc_messages_active := s.ipc_messages_active - (b'.gcs - b.gcs) }

def Broadcast.answered (b : Broadcast) (dst : ℤ) : Broadcast := { b with outstanding := b.outstanding.erase dst }

def step (src : ℤ) (s : Process) : Action → Option Process
  | .broadcast dstprocnums handler takes =>
    some { s with
      broadcasts := s.broadcasts ++ [started dstprocnums handler takes]
      ipc_messages_active := s.ipc_messages_active + 1 }
  | .acknowledge i dst =>
    s.broadcasts[i]?.bind fun b =>
      if b.outstanding.contains dst then some (s.put i b ((b.answered dst).return_to_caller true)) else none
  | .cancel i dst =>
    s.broadcasts[i]?.bind fun b =>
      if !b.outstanding.contains dst then none
      else if proxied src dst then some (s.put i b (b.answered dst))
      else some (s.put i b ((b.answered dst).return_to_caller false))
  | .pack => some { s with others := s.others + 1, ipc_messages_active := s.ipc_messages_active + 1 }
  | .gc => if s.others = 0 then none else
      some { s with others := s.others - 1, ipc_messages_active := s.ipc_messages_active - 1 }

/-- `lua_module_stop_process_event`: whether the stop is delayed, when the event can be -/
def lua_module_stop_process_event (s : Process) : Bool := 0 < s.ipc_messages_active

/-- the broadcasts with messages that are not answered -/
def Process.unanswered (s : Process) : ℕ := s.broadcasts.countP fun b => !b.outstanding.isEmpty

/-- **The property** of a state. -/
structure Completed (s : Process) : Prop where
  before : ∀ b ∈ s.broadcasts, b.outstanding ≠ [] → b.gcs = 0 ∧ b.runs = 0
  after : ∀ b ∈ s.broadcasts, b.outstanding = [] → b.gcs = 1 ∧ b.runs = b.handler.due ∧ b.refcount = 0
  active : s.ipc_messages_active = s.others + s.unanswered
  stop : s.others = 0 → (∀ b ∈ s.broadcasts, b.outstanding = []) → lua_module_stop_process_event s = false

/-- **The condition** on a step. -/
def Sound (src : ℤ) (_ : Process) : Action → Prop
  | .broadcast dstprocnums _ takes => dstprocnums ≠ [] ∧ ∀ dst ∈ dstprocnums, takes dst = true
  | .cancel _ dst => proxied src dst = false
  | _ => True

/-! ## Any run -/

/-- the data is collected by the coroutine, at its end -/
structure Broadcast.Alive (b : Broadcast) : Prop where
  dead : b.coro = .dead → b.gcs = 1
  alive : b.coro ≠ .dead → b.gcs = 0

section Any

variable {src : ℤ} {s s' : Process} {b b' : Broadcast} {i : ℕ} {a : Action}

theorem started_alive (dstprocnums : List ℤ) (handler : Handler) (takes : ℤ → Bool) :
    (started dstprocnums handler takes).Alive :=
  ⟨fun h => (Coro.noConfusion h), fun _ => rfl⟩

theorem return_alive (h : b.Alive) (success : Bool) : (b.return_to_caller success).Alive := by
  unfold Broadcast.return_to_caller
  by_cases hdead : b.coro = .dead
  · rw [if_pos hdead]
    exact h
  · rw [if_neg hdead]
    have hgcs := h.alive hdead
    unfold Broadcast.resume
    dsimp only
    split
    · exact ⟨fun _ => by dsimp only; omega, fun hne => absurd rfl hne⟩
    · exact ⟨fun hd => Coro.noConfusion hd, fun _ => hgcs⟩

/-- what one step does: a broadcast begins, one gets an answer, or something else is sent or collected -/
theorem step_cases (h : step src s a = some s') :
    (∃ dstprocnums handler takes, a = .broadcast dstprocnums handler takes ∧
      s' = { s with
        broadcasts := s.broadcasts ++ [started dstprocnums handler takes]
        ipc_messages_active := s.ipc_messages_active + 1 }) ∨
    (∃ i dst b b', s.broadcasts[i]? = some b ∧ dst ∈ b.outstanding ∧ s' = s.put i b b' ∧
      ((∃ success, b' = (b.answered dst).return_to_caller success) ∨
        a = .cancel i dst ∧ proxied src dst = true ∧ b' = b.answered dst)) ∨
    (a = .pack ∧ s' = { s with others := s.others + 1, ipc_messages_active := s.ipc_messages_active + 1 }) ∨
    (a = .gc ∧ s.others ≠ 0 ∧
      s' = { s with others := s.others - 1, ipc_messages_active := s.ipc_messages_active - 1 }) := by
  cases a with
  | broadcast dstprocnums handler takes => exact .inl ⟨dstprocnums, handler, takes, rfl, (Option.some.inj h).symm⟩
  | acknowledge i dst =>
    obtain ⟨b, hb, h⟩ := Option.bind_eq_some_iff.1 h
    split at h
    · rename_i hmem
      exact .inr (.inl ⟨i, dst, b, _, hb, List.contains_iff_mem.1 hmem, (Option.some.inj h).symm, .inl ⟨true, rfl⟩⟩)
    · cases h
  | cancel i dst =>
    obtain ⟨b, hb, h⟩ := Option.bind_eq_some_iff.1 h
    split at h
    · cases h
    · rename_i hmem
      rw [Bool.not_eq_true', Bool.not_eq_false] at hmem
      have hmem := List.contains_iff_mem.1 hmem
      split at h
      · rename_i hprox
        exact .inr (.inl ⟨i, dst, b, _, hb, hmem, (Option.some.inj h).symm, .inr ⟨rfl, hprox, rfl⟩⟩)
      · exact .inr (.inl ⟨i, dst, b, _, hb, hmem, (Option.some.inj h).symm, .inl ⟨false, rfl⟩⟩)
  | pack => exact .inr (.inr (.inl ⟨rfl, (Option.some.inj h).symm⟩))
  | gc =>
    obtain ⟨hothers, h⟩ := Option.ite_none_left_eq_some.1 h
    exact .inr (.inr (.inr ⟨rfl, hothers, (Option.some.inj h).symm⟩))

/-- how many are counted when one of them changes -/
theorem countP_set {p : Broadcast → Bool} {l : List Broadcast} (h : l[i]? = some b) :
    ((l.set i b').countP p : ℤ) = l.countP p - (if p b then 1 else 0) + if p b' then 1 else 0 := by
  have hmem := List.mem_of_getElem? h
  obtain ⟨hi, hget⟩ := List.getElem?_eq_some_iff.1 h
  rw [List.countP_set hi, hget]
  have hle : (if p b then 1 else 0) ≤ l.countP p := by
    split
    · rename_i hp
      exact List.countP_pos_iff.2 ⟨b, hmem, hp⟩
    · exact Nat.zero_le _
  split_ifs at hle ⊢ <;> omega

/-- what any run keeps -/
structure Counted (s : Process) : Prop where
  alive : ∀ b ∈ s.broadcasts, b.Alive
  active : s.ipc_messages_active = s.others + s.broadcasts.countP (·.gcs = 0)

theorem counted_put (h : Counted s) (hb : s.broadcasts[i]? = some b) (hgcs : b'.gcs = b.gcs ∨ b.gcs = 0 ∧ b'.gcs = 1)
    (halive : b'.Alive) : Counted (s.put i b b') := by
  refine ⟨fun c hc => ?_, ?_⟩
  · rcases List.mem_or_eq_of_mem_set hc with hc | rfl
    · exact h.alive c hc
    · exact halive
  · unfold Process.put
    dsimp only
    rw [countP_set hb, h.active]
    rcases hgcs with heq | ⟨hzero, hone⟩
    · rw [heq]
      omega
    · rw [hzero, hone]
      simp
      omega

theorem step_counted (h : Counted s) (heq : step src s a = some s') : Counted s' := by
  rcases step_cases heq with ⟨dstprocnums, handler, takes, -, rfl⟩ | ⟨i, dst, b, b', hb, -, rfl, hb'⟩ | ⟨-, rfl⟩ | ⟨-, hothers, rfl⟩
  · refine ⟨fun b hb => ?_, ?_⟩
    · rcases List.mem_append.1 hb with hb | hb
      · exact h.alive b hb
      · rw [List.mem_singleton.1 hb]
        exact started_alive ..
    · have hnew : [started dstprocnums handler takes].countP (fun b => decide (b.gcs = 0)) = 1 := rfl
      dsimp only
      rw [List.countP_append, hnew, h.active]
      push_cast
      omega
  · have halive := h.alive b (List.mem_of_getElem? hb)
    have hanswered : (b.answered dst).Alive := ⟨halive.dead, halive.alive⟩
    rcases hb' with ⟨success, rfl⟩ | ⟨-, -, rfl⟩
    · refine counted_put h hb ?_ (return_alive hanswered success)
      unfold Broadcast.return_to_caller
      split
      · exact .inl rfl
      · rename_i hdead
        have hzero := halive.alive hdead
        unfold Broadcast.resume
        dsimp only
        split
        · exact .inr ⟨hzero, congrArg (· + 1) hzero⟩
        · exact .inl rfl
    · exact counted_put h hb (.inl rfl) hanswered
  · refine ⟨h.alive, ?_⟩
    dsimp only
    rw [h.active]
    push_cast
    omega
  · refine ⟨h.alive, ?_⟩
    dsimp only
    rw [h.active]
    omega

/-- in any run the counter is the number of other messages and of broadcasts that have not collected their data -/
theorem active_eq (h : Reach (step src) always .empty s) :
    s.ipc_messages_active = s.others + s.broadcasts.countP (·.gcs = 0) :=
  (h.inv (I := Counted) ⟨fun _ hb => absurd hb List.not_mem_nil, rfl⟩ fun _ _ _ hi _ heq => step_counted hi heq).active

end Any

/-! ## Runs whose steps meet the condition -/

/-- the references to the coroutine: its own, and one while it has yielded -/
def Coro.refs : Coro → ℕ
  | .created => 0
  | .suspended => 2
  | .dead => 0

/-- a broadcast counts the answers that are still to come -/
structure Broadcast.Good (b : Broadcast) : Prop where
  pending : b.responses_pending = b.outstanding.length
  waiting : b.outstanding ≠ [] → b.coro ≠ .dead ∧ b.gcs = 0 ∧ b.runs = 0
  done : b.outstanding = [] → b.coro = .dead ∧ b.gcs = 1 ∧ b.runs = b.handler.due
  refcount : b.refcount = b.coro.refs

section Good

variable {src : ℤ} {s s' : Process} {b : Broadcast} {a : Action} {dst : ℤ}

theorem started_good {dstprocnums : List ℤ} {takes : ℤ → Bool} (hne : dstprocnums ≠ [])
    (htakes : ∀ dst ∈ dstprocnums, takes dst = true) (handler : Handler) : (started dstprocnums handler takes).Good := by
  have hall : (started dstprocnums handler takes).outstanding = dstprocnums := List.takeWhile_eq_self_iff.2 htakes
  refine ⟨?_, fun _ => ⟨Coro.noConfusion, rfl, rfl⟩, fun hnil => ?_, rfl⟩
  · rw [hall]
    rfl
  · rw [hall] at hnil
    exact absurd hnil hne

/-- **One answer.** The last one ends the coroutine, which collects the data and runs the handler; another one is counted. -/
theorem return_good (h : b.Good) (hdst : dst ∈ b.outstanding) (success : Bool) :
    ((b.answered dst).return_to_caller success).Good := by
  obtain ⟨halive, hgcs, hruns⟩ := h.waiting (List.ne_nil_of_mem hdst)
  have hpending := h.pending
  have hrefs := h.refcount
  have hpos := List.length_pos_of_mem hdst
  have herase : ((b.answered dst).outstanding.length : ℤ) = b.outstanding.length - 1 := by
    change ((b.outstanding.erase dst).length : ℤ) = _
    rw [List.length_erase_of_mem hdst]
    omega
  have hcoro : (if b.coro = .created then b.refcount + 1 else b.refcount - 1) = 1 := by
    cases hc : b.coro with
    | created => rw [hrefs, hc]; rfl
    | suspended => rw [hrefs, hc]; rfl
    | dead => exact absurd hc halive
  unfold Broadcast.return_to_caller
  rw [if_neg (show (b.answered dst).coro ≠ .dead from halive)]
  unfold Broadcast.resume
  dsimp only
  split
  · rename_i hzero
    have hnil : (b.answered dst).outstanding = [] := by
      rw [← List.length_eq_zero_iff]
      change b.responses_pending - 1 = 0 at hzero
      omega
    refine ⟨?_, fun hne => absurd hnil hne, fun _ => ⟨rfl, congrArg (· + 1) hgcs, ?_⟩, ?_⟩
    · rw [hzero, hnil]
      rfl
    · change b.runs + b.handler.due = b.handler.due
      rw [hruns, Nat.zero_add]
    · exact congrArg (· - 1) hcoro
  · rename_i hmore
    refine ⟨?_, fun _ => ⟨Coro.noConfusion, hgcs, hruns⟩, fun hnil => absurd ?_ hmore, congrArg (· + 1) hcoro⟩
    · dsimp only
      rw [herase, ← hpending]
      rfl
    · change (b.answered dst).outstanding = [] at hnil
      rw [hnil, List.length_nil] at herase
      change b.responses_pending - 1 = 0
      omega

theorem step_good (h : ∀ b ∈ s.broadcasts, b.Good) (hok : Sound src s a) (heq : step src s a = some s') :
    ∀ b ∈ s'.broadcasts, b.Good := by
  rcases step_cases heq with ⟨dstprocnums, handler, takes, rfl, rfl⟩ | ⟨i, dst, b, b', hb, hdst, rfl, hb'⟩ | ⟨-, rfl⟩ | ⟨-, -, rfl⟩
  · intro b hb
    rcases List.mem_append.1 hb with hb | hb
    · exact h b hb
    · rw [List.mem_singleton.1 hb]
      exact started_good hok.1 hok.2 handler
  · intro c hc
    rcases List.mem_or_eq_of_mem_set hc with hc | rfl
    · exact h c hc
    · rcases hb' with ⟨success, rfl⟩ | ⟨rfl, hprox, -⟩
      · exact return_good (h b (List.mem_of_getElem? hb)) hdst success
      · change proxied src dst = false at hok
        rw [hprox] at hok
        cases hok
  · exact h
  · exact h

/-- the broadcasts that have not collected their data are those that are not answered -/
theorem unanswered_eq (h : ∀ b ∈ s.broadcasts, b.Good) : s.broadcasts.countP (·.gcs = 0) = s.unanswered := by
  unfold Process.unanswered
  apply List.countP_congr
  intro b hb
  rw [decide_eq_true_eq, Bool.not_eq_true', ← Bool.not_eq_true, List.isEmpty_iff]
  constructor
  · intro hzero hnil
    rw [((h b hb).done hnil).2.1] at hzero
    cases hzero
  · exact fun hne => ((h b hb).waiting hne).2.1

/-- **The main result.** In every run whose steps meet the condition, and in every state of it, the handler of a broadcast has been
run once and its data has been collected once when all its messages are answered, and not before; the counter of messages is
the number of other messages and of broadcasts that wait for answers. -/
theorem completed_of_ok (src : ℤ) (s : Process) (h : Reach (step src) (Sound src) .empty s) : Completed s := by
  have hgood : ∀ b ∈ s.broadcasts, b.Good :=
    h.inv (I := fun s => ∀ b ∈ s.broadcasts, b.Good) (fun _ hb => absurd hb List.not_mem_nil) fun _ _ _ hi hok heq =>
      step_good hi hok heq
  have hactive : s.ipc_messages_active = s.others + s.unanswered := by
    rw [active_eq (h.mono fun _ _ _ => trivial), unanswered_eq hgood]
  refine ⟨fun b hb hne => ((hgood b hb).waiting hne).2, fun b hb hnil => ?_, hactive, fun hothers hall => ?_⟩
  · obtain ⟨hdead, hgcs, hruns⟩ := (hgood b hb).done hnil
    refine ⟨hgcs, hruns, ?_⟩
    rw [(hgood b hb).refcount, hdead]
    rfl
  · have hnone : s.unanswered = 0 := by
      unfold Process.unanswered
      rw [List.countP_eq_zero]
      intro b hb
      rw [hall b hb]
      decide
    unfold lua_module_stop_process_event
    rw [hactive, hothers, hnone]
    rfl

end Good

/-- a broadcast to master and manager from the manager, with a handler; master answers, and the message to the manager itself is
cancelled -/
def answered_run : List Action :=
  [.broadcast [-2, -1] .function fun _ => true, .acknowledge 0 (-2), .cancel 0 (-1)]

theorem completed_of_ok_run : ∃ s, exec (step (-1)) .empty answered_run = some s ∧ Completed s ∧
    s.broadcasts = [⟨.function, 0, 1, .dead, 0, [], 1, 1⟩] ∧ s.ipc_messages_active = 0 := by
  let s₁ : Process := ⟨[started [-2, -1] .function fun _ => true], 0, 1⟩
  let s₂ : Process := ⟨[⟨.function, 1, 0, .suspended, 2, [-1], 0, 0⟩], 0, 1⟩
  let s₃ : Process := ⟨[⟨.function, 0, 1, .dead, 0, [], 1, 1⟩], 0, 0⟩
  have h₁ : step (-1) .empty (.broadcast [-2, -1] .function fun _ => true) = some s₁ := rfl
  have h₂ : step (-1) s₁ (.acknowledge 0 (-2)) = some s₂ := by decide
  have h₃ : step (-1) s₂ (.cancel 0 (-1)) = some s₃ := by decide
  have hok₁ : Sound (-1) .empty (.broadcast [-2, -1] .function fun _ => true) := ⟨by decide, fun _ _ => rfl⟩
  have hok₂ : Sound (-1) s₁ (.acknowledge 0 (-2)) := trivial
  have hok₃ : Sound (-1) s₂ (.cancel 0 (-1)) := (rfl : proxied (-1) (-1) = false)
  have hreach : Reach (step (-1)) (Sound (-1)) .empty s₃ := ((Reach.init.next hok₁ h₁).next hok₂ h₂).next hok₃ h₃
  refine ⟨s₃, ?_, completed_of_ok (-1) s₃ hreach, rfl, rfl⟩
  unfold answered_run
  rw [exec_cons, h₁, Option.bind_some, exec_cons, h₂, Option.bind_some, exec_cons, h₃]
  rfl

/-- master and manager before there are workers; the manager sends -/
def no_workers : Processes := ⟨-1, fun _ => .running, 0, 0⟩

/-- a broadcast that waits for nobody stays as it is -/
theorem step_forgets {src : ℤ} {s s' : Process} {b : Broadcast} {i : ℕ} {a : Action} (hb : s.broadcasts[i]? = some b)
    (hnil : b.outstanding = []) (heq : step src s a = some s') : s'.broadcasts[i]? = some b := by
  rcases step_cases heq with ⟨dstprocnums, handler, takes, -, rfl⟩ | ⟨j, dst, c, c', hc, hdst, rfl, -⟩ | ⟨-, rfl⟩ | ⟨-, -, rfl⟩
  · exact List.getElem?_append_left (List.getElem?_eq_some_iff.1 hb).1 ▸ hb
  · have hne : j ≠ i := by
      rintro rfl
      rw [hb] at hc
      cases hc
      rw [hnil] at hdst
      cases hdst
    change (s.broadcasts.set j c')[i]? = some b
    rwa [List.getElem?_set_ne hne]
  · exact hb
  · exact hb

/-- The manager sends to the workers, of whom there is none. Nothing is outstanding, and whatever happens after that, the handler is
not run, the data is not collected, and the stop of the process is delayed. -/
theorem never_completed : ipc_broadcast no_workers true (fun _ => true) .workers = .sent [] ∧
    ∃ s, step (-1) .empty (.broadcast [] .function fun _ => true) = some s ∧ s.unanswered = 0 ∧ ¬ Completed s ∧
      ∀ t, Reach (step (-1)) always s t →
        (∃ b, t.broadcasts[0]? = some b ∧ b.gcs = 0 ∧ b.runs = 0) ∧ lua_module_stop_process_event t = true := by
  let b : Broadcast := started [] .function fun _ => true
  let s : Process := ⟨[b], 0, 1⟩
  refine ⟨by decide, s, rfl, by decide, fun h => ?_, fun t ht => ?_⟩
  · exact absurd (h.after b List.mem_cons_self rfl).1 (by decide)
  · have hstays : t.broadcasts[0]? = some b :=
      ht.inv (I := fun t => t.broadcasts[0]? = some b) rfl fun _ _ _ hi _ heq => step_forgets hi rfl heq
    have hcounted : Counted t :=
      ht.inv (I := Counted) ⟨fun c hc => List.mem_singleton.1 hc ▸ started_alive .., by decide⟩
        fun _ _ _ hi _ heq => step_counted hi heq
    have hpos : 0 < t.broadcasts.countP (·.gcs = 0) :=
      List.countP_pos_iff.2 ⟨b, List.mem_of_getElem? hstays, rfl⟩
    have hactive := hcounted.active
    refine ⟨⟨b, hstays, rfl, rfl⟩, ?_⟩
    unfold lua_module_stop_process_event
    rw [decide_eq_true_eq]
    omega

end Shuttlesock.Broadcasts
