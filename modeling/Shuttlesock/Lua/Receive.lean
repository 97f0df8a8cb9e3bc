/-
Registrations for messages: `IPC.receive`, `IPC.cancel_receive`, `IPC.receive_from_shuttlesock_core` and `run_handler` of
`ipc.lua`.

`receivers[name]` maps functions and coroutines to the source that they take messages from. A message visits all of them, and so
does a cancel; a visited function is called, a visited coroutine is resumed. Nothing is ever taken out of the table.

Model: `keys` and `src` are the table. A message or a cancel is a loop over the keys that were there when it began, in the order of
`pairs`; `loops` has those that have not ended, innermost first. A handler can do anything before its loop goes on, so that any
action may come between two visits, also another cancel; a message comes when no loop is left. The loops do not visit a key that is
new in the table (Lua leaves that open). A coroutine that waits in `IPC.receive` is resumed by these loops only. A coroutine that is
resumed while it runs or after it has ended is not resumed, and an error is logged. Timeouts are an error of the code. `log` has
every delivery with what the receiver was at, `calls` and `answers` count the calls of `IPC.receive` and their returns, and `due` has
the coroutines that wait for the message being delivered.

Results:
- `ended_of_ok`: in every run whose steps meet `Sound`, deliveries go to those who wait for them, every call of `IPC.receive` is answered once,
  and a message reaches everybody who waits for it.
- `not_ended`: a message behind a cancel, and one behind the message that a coroutine has waited for.
-/
import Mathlib.Tactic
import Shuttlesock.Core.Runs

namespace Shuttlesock.Receive

open Runs

/-! ## The model -/

inductive Receiver where
  | fn (f : ℕ)
  | thread (c : ℕ)
deriving DecidableEq

/-- the source of a registration, or one to cancel -/
inductive Src where
  | any
  | procnum (n : ℤ)
deriving DecidableEq

/-- what a coroutine is at -/
inductive Status where
  | running
  /-- it waits in `IPC.receive` -/
  | receiving (name : String) (src : Src)
  /-- it has yielded somewhere else, or has not begun -/
  | elsewhere
  | dead
deriving DecidableEq

def Status.waits : Status → ℕ
  | .receiving _ _ => 1
  | _ => 0

inductive Kind where
  | message (src : ℤ)
  | cancel (src_to_cancel : Src) (receiver_to_cancel : Option Receiver)
deriving DecidableEq

def Kind.is_message : Kind → Bool
  | .message _ => true
  | .cancel _ _ => false

/-- the condition in the loop, for a receiver and the source it is registered with -/
def Kind.hits : Kind → Receiver → Src → Bool
  | .message src, _, srcmatch => srcmatch = .any || srcmatch = .procnum src
  | .cancel src_to_cancel receiver_to_cancel, receiver, src =>
    (src_to_cancel = .any || src_to_cancel = src) && receiver_to_cancel.all (· = receiver)

/-- a loop over `receivers[name]` -/
structure Loop where
  name : String
  kind : Kind
  todo : List Receiver
deriving DecidableEq

/-- a handler is run: what for, and what a coroutine is at or whether a function was cancelled -/
structure Delivery where
  name : String
  kind : Kind
  receiver : Receiver
  status : Status
  cancelled : Bool
deriving DecidableEq

structure State where
  keys : String → List Receiver
  src : String → Receiver → Src
  status : ℕ → Status
  loops : List Loop
  /-- the functions whose last registration was cancelled -/
  cancelled : String → ℕ → Bool
  log : List Delivery
  calls : ℕ → ℕ
  answers : ℕ → ℕ
  due : List ℕ

def State.empty : State :=
  ⟨fun _ => [], fun _ _ => .any, fun _ => .elsewhere, [], fun _ _ => false, [], fun _ => 0, fun _ => 0, []⟩

inductive Action where
  /-- `IPC.receive(name, src, f)` -/
  | receive_function (name : String) (src : Src) (f : ℕ)
  /-- `IPC.receive(name, src, receiver)` in the coroutine c; without a receiver it is c -/
  | receive (c : ℕ) (name : String) (src : Src) (receiver : ℕ)
  /-- `IPC.receive_from_shuttlesock_core(name, src)` begins -/
  | arrive (name : String) (src : ℤ) (order : List Receiver)
  /-- `IPC.cancel_receive(name, src, receiver)` begins -/
  | cancel (name : String) (src : Src) (receiver : Option Receiver) (order : List Receiver)
  /-- the innermost loop goes on -/
  | next
  /-- a coroutine yields elsewhere, is resumed there, ends -/
  | yield (c : ℕ)
  | resume (c : ℕ)
  | finish (c : ℕ)

def set {β γ : Type} [DecidableEq β] (f : String → β → γ) (name : String) (b : β) (v : γ) : String → β → γ :=
  fun name' b' => if name' = name ∧ b' = b then v else f name' b'

/-- `receivers[name][receiver] = src` -/
def State.register (s : State) (name : String) (receiver : Receiver) (src : Src) : State :=
  { s with
    keys := Function.update s.keys name
      (if (s.keys name).contains receiver then s.keys name else s.keys name ++ [receiver])
    src := set s.src name receiver src }

/-- `run_handler` -/
def run_handler (s : State) (name : String) (kind : Kind) : Receiver → State
  | .fn f =>
    { s with
      log := s.log ++ [⟨name, kind, .fn f, .running, s.cancelled name f⟩]
      cancelled := if kind.is_message then s.cancelled else set s.cancelled name f true }
  | .thread c =>
    if s.status c = .running ∨ s.status c = .dead then s
    else
      { s with
        log := s.log ++ [⟨name, kind, .thread c, s.status c, false⟩]
        status := Function.update s.status c .running
        answers := Function.update s.answers c (s.answers c + (s.status c).waits)
        due := s.due.filter (· ≠ c) }

/-- the coroutines among some receivers that wait for a message of this name and source -/
def State.waiting_for (s : State) (name : String) (src : ℤ) : List Receiver → List ℕ
  | [] => []
  | .fn _ :: rest => s.waiting_for name src rest
  | .thread c :: rest =>
    if s.status c = .receiving name (s.src name (.thread c)) && (Kind.message src).hits (.thread c) (s.src name (.thread c))
    then c :: s.waiting_for name src rest
    else s.waiting_for name src rest

def step (s : State) : Action → Option State
  | .receive_function name src f =>
    some { s.register name (.fn f) src with cancelled := set s.cancelled name f false }
  | .receive c name src receiver =>
    if s.status c = .running then
      some { s.register name (.thread receiver) src with
        status := Function.update s.status c (.receiving name src)
        calls := Function.update s.calls c (s.calls c + 1) }
    else none
  | .arrive name src order =>
    if s.loops = [] ∧ order.Perm (s.keys name) then
      some { s with loops := [⟨name, .message src, order⟩], due := s.waiting_for name src (s.keys name) }
    else none
  | .cancel name src receiver order =>
    if order.Perm (s.keys name) then some { s with loops := ⟨name, .cancel src receiver, order⟩ :: s.loops } else none
  | .next =>
    match s.loops with
    | [] => none
    | ⟨_, _, []⟩ :: loops => some { s with loops := loops }
    | ⟨name, kind, r :: rest⟩ :: loops =>
      let s := { s with loops := ⟨name, kind, rest⟩ :: loops }
      some (if kind.hits r (s.src name r) then run_handler s name kind r else s)
  | .yield c => if s.status c = .running then some { s with status := Function.update s.status c .elsewhere } else none
  | .resume c => if s.status c = .elsewhere then some { s with status := Function.update s.status c .running } else none
  | .finish c => if s.status c = .running then some { s with status := Function.update s.status c .dead } else none

/-- a message does not come to a function that was cancelled, and a coroutine is resumed by a message or a cancel when it waits for
it -/
def Delivery.Right (d : Delivery) : Prop :=
  match d.receiver with
  | .fn _ => d.kind.is_message = true → d.cancelled = false
  | .thread c => ∃ src, d.status = .receiving d.name src ∧ d.kind.hits (.thread c) src = true

/-- **The property** of a state. -/
structure Ended (s : State) : Prop where
  right : ∀ d ∈ s.log, d.Right
  answered : ∀ c, s.calls c = s.answers c + (s.status c).waits
  served : s.loops = [] → s.due = []

/-- a registration has not ended -/
def State.live (s : State) (name : String) : Receiver → Prop
  | .fn f => s.cancelled name f = false
  | .thread c => s.status c = .receiving name (s.src name (.thread c))

/-- a coroutine that has ended, which nothing can resume -/
def State.gone (s : State) : Receiver → Prop
  | .fn _ => False
  | .thread c => s.status c = .dead

def Receiver.is_fn : Receiver → Bool
  | .fn _ => true
  | .thread _ => false

/-- **The condition** on a step. A coroutine registers itself, and nobody registers under a name that a loop goes over, but one
that is in the table already and, if it is a coroutine, is not still to be visited. A message comes when all registrations that it
matches have not ended. A cancel comes when all coroutines that it matches wait, and matches nobody whom an outer loop is still to
visit, but for a function that is cancelled twice. -/
def Sound (s : State) : Action → Prop
  | .receive_function name _ f =>
    (∀ l ∈ s.loops, l.name = name → .fn f ∈ s.keys name) ∧
      ∀ l ∈ s.loops, ∀ l' ∈ s.loops, l.name = name → l'.name = name → l.kind.is_message = false →
        l'.kind.is_message = true → .fn f ∈ l.todo → .fn f ∉ l'.todo
  | .receive c name _ receiver =>
    receiver = c ∧ ∀ l ∈ s.loops, l.name = name → .thread c ∈ s.keys name ∧ .thread c ∉ l.todo
  | .arrive name src _ =>
    ∀ r ∈ s.keys name, (Kind.message src).hits r (s.src name r) = true → s.live name r ∨ s.gone r
  | .cancel name src receiver _ =>
    ∀ r ∈ s.keys name, (Kind.cancel src receiver).hits r (s.src name r) = true → s.gone r ∨
      (r.is_fn = false → s.live name r) ∧
        ∀ l ∈ s.loops, l.name = name → r ∈ l.todo → l.kind.hits r (s.src name r) = true →
          r.is_fn = true ∧ l.kind.is_message = false
  | _ => True

/-! ## The invariant -/

/-- a loop is still to visit receivers that are in the table; a coroutine that it matches waits for it or has ended, and a function that
a message matches was not cancelled -/
structure Loop.Ok (s : State) (l : Loop) : Prop where
  nodup : l.todo.Nodup
  keys : ∀ r ∈ l.todo, r ∈ s.keys l.name
  ready : ∀ r ∈ l.todo, l.kind.hits r (s.src l.name r) = true →
    s.gone r ∨ (r.is_fn = false ∨ l.kind.is_message = true → s.live l.name r)

/-- no two loops are to visit the same receiver, unless the outer one cancels a function or the coroutine has ended -/
def Apart (s : State) (l l' : Loop) : Prop :=
  l.name = l'.name → ∀ r ∈ l.todo, r ∈ l'.todo → l.kind.hits r (s.src l.name r) = true →
    l'.kind.hits r (s.src l.name r) = true → s.gone r ∨ r.is_fn = true ∧ l'.kind.is_message = false

structure Inv (s : State) : Prop where
  nodup : ∀ name, (s.keys name).Nodup
  table : ∀ c name src, s.status c = .receiving name src → .thread c ∈ s.keys name ∧ s.src name (.thread c) = src
  loops : ∀ l ∈ s.loops, l.Ok s
  apart : s.loops.Pairwise (Apart s)
  inner : s.loops.Pairwise fun l _ => l.kind.is_message = false
  waiting : ∀ c ∈ s.due, ∃ l ∈ s.loops, .thread c ∈ l.todo ∧ s.live l.name (.thread c) ∧
    l.kind.hits (.thread c) (s.src l.name (.thread c)) = true
  right : ∀ d ∈ s.log, d.Right
  answered : ∀ c, s.calls c = s.answers c + (s.status c).waits

section Lemmas

variable {β γ : Type} [DecidableEq β] {f : String → β → γ} {name name' : String} {b b' : β} {v : γ}

theorem set_self : set f name b v name b = v := if_pos ⟨rfl, rfl⟩

theorem set_other (h : name' = name → b' ≠ b) : set f name b v name' b' = f name' b' :=
  if_neg fun ⟨hn, hb⟩ => h hn hb

variable {s : State} {r receiver : Receiver} {src : Src} {c c' : ℕ} {st : Status}

theorem mem_register : r ∈ (s.register name receiver src).keys name' ↔ r ∈ s.keys name' ∨ name' = name ∧ r = receiver := by
  unfold State.register
  dsimp only
  rcases eq_or_ne name' name with rfl | hne
  · rw [Function.update_self]
    split
    · rename_i hin
      have hin := List.contains_iff_mem.1 hin
      exact ⟨.inl, fun h => h.elim id fun ⟨_, heq⟩ => heq ▸ hin⟩
    · simp
  · rw [Function.update_of_ne hne]
    simp [hne]

theorem register_nodup (h : ∀ name, (s.keys name).Nodup) (name : String) (receiver : Receiver) (src : Src) (name' : String) :
    ((s.register name receiver src).keys name').Nodup := by
  unfold State.register
  dsimp only
  rcases eq_or_ne name' name with rfl | hne
  · rw [Function.update_self]
    split
    · exact h name'
    · rename_i hin
      refine List.nodup_append.2 ⟨h name', List.nodup_singleton _, fun a ha b hb heq => hin ?_⟩
      rw [List.mem_singleton] at hb
      rw [List.contains_iff_mem, ← hb, ← heq]
      exact ha
  · rw [Function.update_of_ne hne]
    exact h name'

/-- what the loops know of a receiver that has not been touched -/
theorem Loop.Ok.mono {s' : State} {l : Loop} (h : l.Ok s) (hkeys : ∀ r ∈ s.keys l.name, r ∈ s'.keys l.name)
    (hready : ∀ r ∈ l.todo, l.kind.hits r (s'.src l.name r) = true → l.kind.hits r (s.src l.name r) = true ∧
        (s.gone r → s'.gone r) ∧ (s.live l.name r → s'.live l.name r) ∨
      (r.is_fn = false ∨ l.kind.is_message = true → s'.live l.name r)) : l.Ok s' := by
  refine ⟨h.nodup, fun r hr => hkeys r (h.keys r hr), fun r hr hhits => ?_⟩
  rcases hready r hr hhits with ⟨hold, hgone, hlive⟩ | hlive
  · exact (h.ready r hr hold).imp hgone fun himp hcase => hlive (himp hcase)
  · exact .inr hlive

theorem mem_waiting_for {srcnum : ℤ} {l : List Receiver} : c ∈ s.waiting_for name srcnum l ↔
    .thread c ∈ l ∧ s.live name (.thread c) ∧ (Kind.message srcnum).hits (.thread c) (s.src name (.thread c)) = true := by
  induction l with
  | nil => simp [State.waiting_for]
  | cons r rest ih =>
    cases r with
    | fn f =>
      unfold State.waiting_for
      rw [ih, List.mem_cons]
      simp
    | thread c' =>
      unfold State.waiting_for
      split
      · rename_i hyes
        rw [Bool.and_eq_true, decide_eq_true_eq] at hyes
        rw [List.mem_cons, List.mem_cons, ih, Receiver.thread.injEq]
        constructor
        · rintro (rfl | ⟨hmem, hrest⟩)
          · exact ⟨.inl rfl, hyes⟩
          · exact ⟨.inr hmem, hrest⟩
        · rintro ⟨heq | hmem, hrest⟩
          · exact .inl heq
          · exact .inr ⟨hmem, hrest⟩
      · rename_i hno
        rw [List.mem_cons, ih, Receiver.thread.injEq]
        constructor
        · exact fun ⟨hmem, hrest⟩ => ⟨.inr hmem, hrest⟩
        · rintro ⟨rfl | hmem, hlive, hhits⟩
          · exact absurd (by rw [Bool.and_eq_true, decide_eq_true_eq]; exact ⟨hlive, hhits⟩) hno
          · exact ⟨hmem, hlive, hhits⟩

end Lemmas

/-! ## One step -/

section Steps

variable {s s' : State} {a : Action} {c : ℕ} {st : Status}

/-- a coroutine that does not wait does something else -/
theorem moved_inv (h : Inv s) (hwas : s.status c = .running ∨ s.status c = .elsewhere)
    (hst : st.waits = 0) : Inv { s with status := Function.update s.status c st } := by
  have hnot : ∀ name src, s.status c ≠ .receiving name src := by
    intro name src heq
    rcases hwas with hwas | hwas <;> rw [hwas] at heq <;> cases heq
  have hother : ∀ c', c' ≠ c → Function.update s.status c st c' = s.status c' := fun c' hne =>
    Function.update_of_ne hne _ _
  have hlive : ∀ name r, s.live name r → State.live { s with status := Function.update s.status c st } name r := by
    intro name r hr
    cases r with
    | fn f => exact hr
    | thread c' =>
      have hne : c' ≠ c := by
        rintro rfl
        exact hnot _ _ hr
      exact (hother c' hne).trans hr
  have hgone : ∀ r, s.gone r → State.gone { s with status := Function.update s.status c st } r := by
    intro r hr
    cases r with
    | fn f => exact hr
    | thread c' =>
      have hne : c' ≠ c := by
        rintro rfl
        change s.status c' = .dead at hr
        rcases hwas with hwas | hwas <;> rw [hwas] at hr <;> cases hr
      exact (hother c' hne).trans hr
  refine ⟨h.nodup, fun c' name src heq => ?_, fun l hl => ?_, ?_, h.inner, fun c' hc' => ?_, h.right, fun c' => ?_⟩
  · rcases eq_or_ne c' c with rfl | hne
    · change Function.update s.status c' st c' = _ at heq
      rw [Function.update_self] at heq
      rw [heq] at hst
      cases hst
    · exact h.table c' name src ((hother c' hne).symm.trans heq)
  · exact (h.loops l hl).mono (fun _ hr => hr) fun r _ hhits => .inl ⟨hhits, hgone r, hlive l.name r⟩
  · exact h.apart.imp fun {l l'} hap hname r hr hr' hhits hhits' => (hap hname r hr hr' hhits hhits').imp (hgone r) id
  · obtain ⟨l, hl, hmem, hl', hhits⟩ := h.waiting c' hc'
    exact ⟨l, hl, hmem, hlive _ _ hl', hhits⟩
  · have hold := h.answered c'
    rcases eq_or_ne c' c with rfl | hne
    · change s.calls c' = s.answers c' + (Function.update s.status c' st c').waits
      rw [Function.update_self, hst]
      rcases hwas with hwas | hwas <;> rw [hwas] at hold <;> exact hold
    · change s.calls c' = s.answers c' + (Function.update s.status c st c').waits
      rw [hother c' hne]
      exact hold

theorem receive_function_inv (h : Inv s) {name : String} {src : Src} {f : ℕ} (hok : Sound s (.receive_function name src f)) :
    Inv { s.register name (.fn f) src with cancelled := set s.cancelled name f false } := by
  obtain ⟨-, hloops⟩ := hok
  have hkeys : ∀ name' r, r ∈ s.keys name' → r ∈ (s.register name (.fn f) src).keys name' := fun _ _ hr =>
    mem_register.2 (.inl hr)
  have hthread : ∀ name' c, (s.register name (.fn f) src).src name' (.thread c) = s.src name' (.thread c) := fun name' c =>
    set_other fun _ => Receiver.noConfusion
  have hfn : ∀ name' f', (name' = name → f' ≠ f) → (s.register name (.fn f) src).src name' (.fn f') = s.src name' (.fn f') :=
    fun name' f' hne => set_other fun hname heq => hne hname (Receiver.fn.inj heq)
  refine ⟨register_nodup h.nodup name (.fn f) src, fun c name' src' heq => ?_, fun l hl => ?_, ?_, h.inner, fun c hc => ?_, h.right, h.answered⟩
  · obtain ⟨hmem, hsrc⟩ := h.table c name' src' heq
    exact ⟨hkeys _ _ hmem, (hthread name' c).trans hsrc⟩
  · refine (h.loops l hl).mono (hkeys l.name) fun r hr hhits => ?_
    cases r with
    | thread c =>
      rw [show State.src _ l.name (.thread c) = _ from hthread l.name c] at hhits
      refine .inl ⟨hhits, id, fun hlive => ?_⟩
      change s.status c = .receiving l.name ((s.register name (.fn f) src).src l.name (.thread c))
      rw [hthread]
      exact hlive
    | fn f' =>
      by_cases hsame : l.name = name ∧ f' = f
      · refine .inr fun _ => ?_
        rw [hsame.1, hsame.2]
        exact set_self
      · have hne : l.name = name → f' ≠ f := fun hname heq => hsame ⟨hname, heq⟩
        rw [show State.src _ l.name (.fn f') = _ from hfn l.name f' hne] at hhits
        exact .inl ⟨hhits, id, fun hlive => (set_other hne).trans hlive⟩
  · have hboth := h.inner.and h.apart
    refine List.Pairwise.imp_of_mem (fun {l l'} hl hl' hpair hname r hr hr' hhits hhits' => ?_) hboth
    obtain ⟨hinner, hap⟩ := hpair
    cases r with
    | thread c =>
      rw [show State.src _ l.name (.thread c) = _ from hthread l.name c] at hhits hhits'
      exact hap hname _ hr hr' hhits hhits'
    | fn f' =>
      by_cases hsame : l.name = name ∧ f' = f
      · obtain ⟨hn, rfl⟩ := hsame
        refine .inr ⟨rfl, ?_⟩
        by_contra hmsg
        rw [Bool.not_eq_false] at hmsg
        exact hloops l hl l' hl' hn (hname.symm.trans hn) hinner hmsg hr hr'
      · have hne : l.name = name → f' ≠ f := fun hname heq => hsame ⟨hname, heq⟩
        rw [show State.src _ l.name (.fn f') = _ from hfn l.name f' hne] at hhits hhits'
        exact hap hname _ hr hr' hhits hhits'
  · obtain ⟨l, hl, hmem, hlive, hhits⟩ := h.waiting c hc
    refine ⟨l, hl, hmem, ?_, ?_⟩
    · change s.status c = .receiving l.name ((s.register name (.fn f) src).src l.name (.thread c))
      rw [hthread]
      exact hlive
    · change l.kind.hits (.thread c) ((s.register name (.fn f) src).src l.name (.thread c)) = true
      rw [hthread]
      exact hhits

theorem receive_inv (h : Inv s) {name : String} {src : Src} (hrun : s.status c = .running)
    (hok : Sound s (.receive c name src c)) : Inv { s.register name (.thread c) src with
      status := Function.update s.status c (.receiving name src)
      calls := Function.update s.calls c (s.calls c + 1) } := by
  obtain ⟨-, hloops⟩ := hok
  have hnot : ∀ name' src', s.status c ≠ .receiving name' src' := by
    intro name' src' heq
    rw [hrun] at heq
    cases heq
  have hkeys : ∀ name' r, r ∈ s.keys name' → r ∈ (s.register name (.thread c) src).keys name' := fun _ _ hr =>
    mem_register.2 (.inl hr)
  have hnew : .thread c ∈ (s.register name (.thread c) src).keys name := mem_register.2 (.inr ⟨rfl, rfl⟩)
  have hsrc : ∀ name' r, (name' = name → r ≠ .thread c) → (s.register name (.thread c) src).src name' r = s.src name' r :=
    fun name' r hne => set_other hne
  have hother : ∀ c', c' ≠ c → Function.update s.status c (.receiving name src) c' = s.status c' := fun c' hne =>
    Function.update_of_ne hne _ _
  -- what a loop is still to visit is not the coroutine that registers, or it does not match it
  have hapart : ∀ l ∈ s.loops, ∀ r ∈ l.todo, l.name = name → r ≠ .thread c := by
    rintro l hl r hr hname rfl
    exact (hloops l hl hname).2 hr
  have hidle : ∀ l ∈ s.loops, .thread c ∈ l.todo → l.kind.hits (.thread c) (s.src l.name (.thread c)) = false := by
    intro l hl hmem
    by_contra hhits
    rw [Bool.not_eq_false] at hhits
    rcases (h.loops l hl).ready _ hmem hhits with hgone | hlive
    · change s.status c = .dead at hgone
      rw [hrun] at hgone
      cases hgone
    · exact hnot _ _ (hlive (.inl rfl))
  have hkeep : ∀ l ∈ s.loops, ∀ r ∈ l.todo, l.kind.hits r (s.src l.name r) = true → r ≠ .thread c := by
    rintro l hl r hr hhits rfl
    rw [hidle l hl hr] at hhits
    cases hhits
  refine ⟨register_nodup h.nodup name (.thread c) src, fun c' name' src' heq => ?_, fun l hl => ?_, ?_, h.inner,
    fun c' hc' => ?_, h.right, fun c' => ?_⟩
  · change Function.update s.status c (.receiving name src) c' = _ at heq
    rcases eq_or_ne c' c with rfl | hne
    · rw [Function.update_self] at heq
      cases heq
      exact ⟨hnew, set_self⟩
    · obtain ⟨hmem, hs⟩ := h.table c' name' src' ((hother c' hne).symm.trans heq)
      refine ⟨hkeys _ _ hmem, ?_⟩
      change (s.register name (.thread c) src).src name' (.thread c') = src'
      rw [hsrc name' _ fun _ heq => hne (Receiver.thread.inj heq)]
      exact hs
  · refine (h.loops l hl).mono (hkeys l.name) fun r hr hhits => ?_
    change l.kind.hits r ((s.register name (.thread c) src).src l.name r) = true at hhits
    rw [hsrc l.name r (hapart l hl r hr)] at hhits
    have hne := hkeep l hl r hr hhits
    refine .inl ⟨hhits, fun hgone => ?_, fun hlive => ?_⟩
    · cases r with
      | fn f => exact hgone
      | thread c' => exact (hother c' fun heq => hne (heq ▸ rfl)).trans hgone
    · cases r with
      | fn f => exact hlive
      | thread c' =>
        change Function.update s.status c (.receiving name src) c' =
          .receiving l.name ((s.register name (.thread c) src).src l.name (.thread c'))
        rw [hother c' fun heq => hne (heq ▸ rfl), hsrc l.name _ fun _ => hne]
        exact hlive
  · refine List.Pairwise.imp_of_mem (fun {l l'} hl hl' hap hname r hr hr' hhits hhits' => ?_) h.apart
    change l.kind.hits r ((s.register name (.thread c) src).src l.name r) = true at hhits
    change l'.kind.hits r ((s.register name (.thread c) src).src l.name r) = true at hhits'
    rw [hsrc l.name r (hapart l hl r hr)] at hhits hhits'
    have hne := hkeep l hl r hr hhits
    refine (hap hname r hr hr' hhits hhits').imp (fun hgone => ?_) id
    cases r with
    | fn f => exact hgone
    | thread c' => exact (hother c' fun heq => hne (heq ▸ rfl)).trans hgone
  · obtain ⟨l, hl, hmem, hlive, hhits⟩ := h.waiting c' hc'
    have hne : c' ≠ c := by
      rintro rfl
      exact hnot _ _ hlive
    have hs := hsrc l.name (.thread c') fun _ heq => hne (Receiver.thread.inj heq)
    refine ⟨l, hl, hmem, ?_, ?_⟩
    · change Function.update s.status c (.receiving name src) c' =
        .receiving l.name ((s.register name (.thread c) src).src l.name (.thread c'))
      rw [hother c' hne, hs]
      exact hlive
    · change l.kind.hits (.thread c') ((s.register name (.thread c) src).src l.name (.thread c')) = true
      rw [hs]
      exact hhits
  · change Function.update s.calls c (s.calls c + 1) c' =
      s.answers c' + (Function.update s.status c (.receiving name src) c').waits
    have hold := h.answered c'
    rcases eq_or_ne c' c with rfl | hne
    · rw [Function.update_self, Function.update_self]
      rw [hrun] at hold
      exact congrArg (· + 1) hold
    · rw [Function.update_of_ne hne, hother c' hne]
      exact hold

theorem arrive_inv (h : Inv s) {name : String} {src : ℤ} {order : List Receiver}
    (hperm : order.Perm (s.keys name)) (hok : Sound s (.arrive name src order)) :
    Inv { s with loops := [⟨name, .message src, order⟩], due := s.waiting_for name src (s.keys name) } := by
  refine ⟨h.nodup, h.table, fun l hl => ?_, List.pairwise_singleton _ _, List.pairwise_singleton _ _, fun c hc => ?_, h.right,
    h.answered⟩
  · obtain rfl := List.mem_singleton.1 hl
    exact ⟨hperm.nodup_iff.2 (h.nodup name), fun r hr => hperm.subset hr, fun r hr hhits =>
      (hok r (hperm.subset hr) hhits).symm.imp id fun hlive _ => hlive⟩
  · obtain ⟨hmem, hlive, hhits⟩ := mem_waiting_for.1 hc
    exact ⟨_, List.mem_singleton_self _, hperm.mem_iff.2 hmem, hlive, hhits⟩

theorem cancel_inv (h : Inv s) {name : String} {src : Src} {receiver : Option Receiver} {order : List Receiver}
    (hperm : order.Perm (s.keys name)) (hok : Sound s (.cancel name src receiver order)) :
    Inv { s with loops := ⟨name, .cancel src receiver, order⟩ :: s.loops } := by
  refine ⟨h.nodup, h.table, fun l hl => ?_, ?_, ?_, fun c hc => ?_, h.right, h.answered⟩
  · rcases List.mem_cons.1 hl with rfl | hl
    · refine ⟨hperm.nodup_iff.2 (h.nodup name), fun r hr => hperm.subset hr, fun r hr hhits => ?_⟩
      refine (hok r (hperm.subset hr) hhits).imp id fun ⟨hlive, _⟩ hcase => ?_
      rcases hcase with hfn | hmsg
      · exact hlive hfn
      · cases hmsg
    · exact ⟨(h.loops l hl).nodup, (h.loops l hl).keys, (h.loops l hl).ready⟩
  · refine List.pairwise_cons.2 ⟨fun l hl hname r hr hr' hhits hhits' => ?_, h.apart⟩
    exact (hok r (hperm.subset hr) hhits).imp id fun ⟨_, houter⟩ => houter l hl hname.symm hr' hhits'
  · exact List.pairwise_cons.2 ⟨fun _ _ => rfl, h.inner⟩
  · obtain ⟨l, hl, hrest⟩ := h.waiting c hc
    exact ⟨l, List.mem_cons_of_mem _ hl, hrest⟩

/-- the innermost loop has come to its end -/
theorem pop_inv (h : Inv s) {name : String} {kind : Kind} {loops : List Loop} (hloops : s.loops = ⟨name, kind, []⟩ :: loops) :
    Inv { s with loops := loops } := by
  have hapart := h.apart
  have hinner := h.inner
  rw [hloops] at hapart hinner
  refine ⟨h.nodup, h.table, fun l hl => ?_, (List.pairwise_cons.1 hapart).2, (List.pairwise_cons.1 hinner).2, fun c hc => ?_,
    h.right, h.answered⟩
  · have hok := h.loops l (hloops ▸ List.mem_cons_of_mem _ hl)
    exact ⟨hok.nodup, hok.keys, hok.ready⟩
  · obtain ⟨l, hl, hmem, hrest⟩ := h.waiting c hc
    rw [hloops] at hl
    rcases List.mem_cons.1 hl with rfl | hl
    · cases hmem
    · exact ⟨l, hl, hmem, hrest⟩

/-- the innermost loop goes past a receiver; those that are due, and not that one, are still to be visited -/
theorem pass_inv (h : Inv s) {name : String} {kind : Kind} {r : Receiver} {rest : List Receiver} {loops : List Loop}
    (hloops : s.loops = ⟨name, kind, r :: rest⟩ :: loops) {due : List ℕ}
    (hdue : ∀ c ∈ due, c ∈ s.due ∧ (r = .thread c → kind.hits r (s.src name r) = false)) :
    Inv { s with loops := ⟨name, kind, rest⟩ :: loops, due := due } := by
  have hapart := h.apart
  have hinner := h.inner
  rw [hloops] at hapart hinner
  obtain ⟨hhead, hapart⟩ := List.pairwise_cons.1 hapart
  obtain ⟨hkind, hinner⟩ := List.pairwise_cons.1 hinner
  have hsub : ∀ x ∈ rest, x ∈ r :: rest := fun x hx => List.mem_cons_of_mem r hx
  refine ⟨h.nodup, h.table, fun l hl => ?_, ?_, ?_, fun c hc => ?_, h.right, h.answered⟩
  · rcases List.mem_cons.1 hl with rfl | hl
    · have hok := h.loops ⟨name, kind, r :: rest⟩ (hloops ▸ List.mem_cons_self)
      exact ⟨(List.nodup_cons.1 hok.nodup).2, fun x hx => hok.keys x (hsub x hx), fun x hx => hok.ready x (hsub x hx)⟩
    · have hok := h.loops l (hloops ▸ List.mem_cons_of_mem _ hl)
      exact ⟨hok.nodup, hok.keys, hok.ready⟩
  · exact List.pairwise_cons.2 ⟨fun l hl hname x hx => hhead l hl hname x (hsub x hx), hapart⟩
  · exact List.pairwise_cons.2 ⟨fun l hl => hkind l hl, hinner⟩
  · obtain ⟨hold, hpast⟩ := hdue c hc
    obtain ⟨l, hl, hmem, hlive, hhits⟩ := h.waiting c hold
    rw [hloops] at hl
    rcases List.mem_cons.1 hl with rfl | hl
    · rcases List.mem_cons.1 hmem with heq | hmem
      · subst heq
        change kind.hits (.thread c) (s.src name (.thread c)) = true at hhits
        rw [hpast rfl] at hhits
        cases hhits
      · exact ⟨_, List.mem_cons_self, hmem, hlive, hhits⟩
    · exact ⟨l, List.mem_cons_of_mem _ hl, hmem, hlive, hhits⟩

/-- a function is called: if for a message, it was not cancelled -/
theorem call_inv (h : Inv s) {name : String} {kind : Kind} {f : ℕ} {rest : List Receiver} {loops : List Loop}
    (hloops : s.loops = ⟨name, kind, .fn f :: rest⟩ :: loops) (hhits : kind.hits (.fn f) (s.src name (.fn f)) = true) :
    Inv ( run_handler { s with loops := ⟨name, kind, rest⟩ :: loops } name kind (.fn f)) := by
  have hpass : Inv { s with loops := ⟨name, kind, rest⟩ :: loops } :=
    pass_inv h hloops fun c hc => ⟨hc, fun heq => Receiver.noConfusion heq⟩
  have hok := h.loops ⟨name, kind, .fn f :: rest⟩ (hloops ▸ List.mem_cons_self)
  have hapart := h.apart
  rw [hloops] at hapart
  have hright : ∀ d ∈ s.log ++ [⟨name, kind, .fn f, .running, s.cancelled name f⟩], d.Right := by
    intro d hd
    rcases List.mem_append.1 hd with hd | hd
    · exact h.right d hd
    · rw [List.mem_singleton.1 hd]
      intro hmsg
      exact ((hok.ready _ List.mem_cons_self hhits).resolve_left id) (.inr hmsg)
  -- no other loop is to call the function for a message
  have hothers : kind.is_message = false → ∀ l ∈ ⟨name, kind, rest⟩ :: loops, ∀ f' : ℕ, .fn f' ∈ l.todo → l.kind.is_message = true →
      l.kind.hits (.fn f') (s.src l.name (.fn f')) = true → l.name = name → f' ≠ f := by
    rintro hkind l hl f' hmem hmsg hhits' hname rfl
    rcases List.mem_cons.1 hl with rfl | hl
    · rw [hkind] at hmsg
      cases hmsg
    · obtain ⟨-, hno⟩ := ((List.pairwise_cons.1 hapart).1 l hl hname.symm _ List.mem_cons_self hmem hhits
        (hname ▸ hhits')).resolve_left id
      rw [hmsg] at hno
      cases hno
  refine ⟨hpass.nodup, hpass.table, fun l hl => ?_, hpass.apart, hpass.inner, hpass.waiting, hright, hpass.answered⟩
  cases hkind : kind.is_message with
  | true =>
    have heq : ( run_handler { s with loops := ⟨name, kind, rest⟩ :: loops } name kind (.fn f)).cancelled = s.cancelled := by
      unfold run_handler
      dsimp only
      rw [hkind]
      rfl
    refine (hpass.loops l hl).mono (fun _ hr => hr) fun r _ hhits => .inl ⟨hhits, id, fun hlive => ?_⟩
    cases r with
    | fn f' =>
      change ( run_handler _ name kind (.fn f)).cancelled l.name f' = false
      rw [heq]
      exact hlive
    | thread c => exact hlive
  | false =>
    have heq : ( run_handler { s with loops := ⟨name, kind, rest⟩ :: loops } name kind (.fn f)).cancelled =
        set s.cancelled name f true := by
      unfold run_handler
      dsimp only
      rw [hkind]
      rfl
    have hl' : l ∈ ⟨name, kind, rest⟩ :: loops := hl
    refine ⟨(hpass.loops l hl').nodup, (hpass.loops l hl').keys, fun r hr hhits' => ?_⟩
    refine ((hpass.loops l hl').ready r hr hhits').imp id fun hlive hcase => ?_
    cases r with
    | fn f' =>
      have hmsg : l.kind.is_message = true := hcase.resolve_left Bool.noConfusion
      change ( run_handler _ name kind (.fn f)).cancelled l.name f' = false
      rw [heq, set_other (hothers hkind l hl' f' hr hmsg hhits')]
      exact hlive hcase
    | thread c => exact hlive hcase

/-- a coroutine is resumed: it waits for this, or it has ended -/
theorem resume_inv (h : Inv s) {name : String} {kind : Kind} {c : ℕ} {rest : List Receiver} {loops : List Loop}
    (hloops : s.loops = ⟨name, kind, .thread c :: rest⟩ :: loops)
    (hhits : kind.hits (.thread c) (s.src name (.thread c)) = true) :
    Inv ( run_handler { s with loops := ⟨name, kind, rest⟩ :: loops } name kind (.thread c)) := by
  have hok := h.loops ⟨name, kind, .thread c :: rest⟩ (hloops ▸ List.mem_cons_self)
  have hapart := h.apart
  rw [hloops] at hapart
  unfold run_handler
  dsimp only
  split
  · rename_i hstatus
    refine pass_inv h hloops fun c' hc' => ⟨hc', fun heq => ?_⟩
    obtain rfl := Receiver.thread.inj heq
    obtain ⟨l, -, -, hlive, -⟩ := h.waiting _ hc'
    change s.status c = _ at hlive
    rcases hstatus with hstatus | hstatus <;> rw [hlive] at hstatus <;> cases hstatus
  · rename_i hstatus
    have hlive : s.status c = .receiving name (s.src name (.thread c)) :=
      ((hok.ready _ List.mem_cons_self hhits).resolve_left fun hdead => hstatus (.inr hdead)) (.inl rfl)
    have hpass : Inv { s with loops := ⟨name, kind, rest⟩ :: loops, due := s.due.filter (· ≠ c) } := by
      refine pass_inv h hloops fun c' hc' => ?_
      rw [List.mem_filter, decide_eq_true_eq] at hc'
      exact ⟨hc'.1, fun heq => absurd (Receiver.thread.inj heq).symm hc'.2⟩
    have hother : ∀ c', c' ≠ c → Function.update s.status c .running c' = s.status c' := fun c' hne =>
      Function.update_of_ne hne _ _
    -- nobody else is to resume it
    have halone : ∀ l ∈ ⟨name, kind, rest⟩ :: loops, .thread c ∈ l.todo →
        l.kind.hits (.thread c) (s.src l.name (.thread c)) = true → False := by
      intro l hl hmem hhits'
      by_cases hname : l.name = name
      · rcases List.mem_cons.1 hl with rfl | hl
        · exact (List.nodup_cons.1 hok.nodup).1 hmem
        · rcases (List.pairwise_cons.1 hapart).1 l hl hname.symm _ List.mem_cons_self hmem hhits (hname ▸ hhits') with
            hdead | ⟨hfn, -⟩
          · exact hstatus (.inr hdead)
          · cases hfn
      · rcases (hpass.loops l hl).ready _ hmem hhits' with hdead | hlive'
        · exact hstatus (.inr hdead)
        · have heq : s.status c = .receiving l.name _ := hlive' (.inl rfl)
          rw [hlive] at heq
          exact hname (Status.receiving.inj heq).1.symm
    refine ⟨hpass.nodup, fun c' name' src heq => ?_, fun l hl => ?_, ?_, hpass.inner, fun c' hc' => ?_, fun d hd => ?_,
      fun c' => ?_⟩
    · change Function.update s.status c .running c' = _ at heq
      rcases eq_or_ne c' c with rfl | hne
      · rw [Function.update_self] at heq
        cases heq
      · exact h.table c' name' src ((hother c' hne).symm.trans heq)
    · refine (hpass.loops l hl).mono (fun _ hr => hr) fun r hr hhits' => .inl ⟨hhits', fun hgone => ?_, fun hl' => ?_⟩ <;>
        cases r with
        | fn f => assumption
        | thread c' =>
          have hne : c' ≠ c := by
            rintro rfl
            exact halone l hl hr hhits'
          first
            | exact (hother c' hne).trans hgone
            | exact (hother c' hne).trans hl'
    · refine List.Pairwise.imp_of_mem (fun {l l'} hl _ hap hname r hr hr' hhits' hhits'' => ?_) hpass.apart
      refine (hap hname r hr hr' hhits' hhits'').imp (fun hgone => ?_) id
      cases r with
      | fn f => exact hgone
      | thread c' =>
        have hne : c' ≠ c := by
          rintro rfl
          exact halone l hl hr hhits'
        exact (hother c' hne).trans hgone
    · obtain ⟨l, hl, hmem, hl', hhits'⟩ := hpass.waiting c' hc'
      have hne : c' ≠ c := of_decide_eq_true (List.mem_filter.1 hc').2
      exact ⟨l, hl, hmem, (hother c' hne).trans hl', hhits'⟩
    · rcases List.mem_append.1 hd with hd | hd
      · exact h.right d hd
      · rw [List.mem_singleton.1 hd]
        exact ⟨_, hlive, hhits⟩
    · have hold := h.answered c'
      change s.calls c' = Function.update s.answers c (s.answers c + (s.status c).waits) c' +
        (Function.update s.status c .running c').waits
      rcases eq_or_ne c' c with rfl | hne
      · rw [Function.update_self, Function.update_self]
        exact hold
      · rw [Function.update_of_ne hne, hother c' hne]
        exact hold

theorem step_inv (h : Inv s) (hok : Sound s a) (heq : step s a = some s') : Inv s' := by
  cases a with
  | receive_function name src f =>
    cases heq
    exact receive_function_inv h hok
  | receive c name src receiver =>
    obtain ⟨hrun, heq⟩ := Option.ite_none_right_eq_some.1 heq
    cases heq
    obtain ⟨rfl, hloops⟩ := hok
    exact receive_inv h hrun ⟨rfl, hloops⟩
  | arrive name src order =>
    obtain ⟨⟨-, hperm⟩, heq⟩ := Option.ite_none_right_eq_some.1 heq
    cases heq
    exact arrive_inv h hperm hok
  | cancel name src receiver order =>
    obtain ⟨hperm, heq⟩ := Option.ite_none_right_eq_some.1 heq
    cases heq
    exact cancel_inv h hperm hok
  | next =>
    unfold step at heq
    dsimp only at heq
    split at heq
    · cases heq
    · rename_i hloops
      cases heq
      exact pop_inv h hloops
    · rename_i name kind r rest loops hloops
      cases heq
      split
      · rename_i hhits
        cases r with
        | fn f => exact call_inv h hloops hhits
        | thread c => exact resume_inv h hloops hhits
      · rename_i hhits
        exact pass_inv h hloops fun c hc => ⟨hc, fun _ => Bool.eq_false_iff.2 hhits⟩
  | yield c =>
    obtain ⟨hrun, heq⟩ := Option.ite_none_right_eq_some.1 heq
    cases heq
    exact moved_inv h (.inl hrun) rfl
  | resume c =>
    obtain ⟨helse, heq⟩ := Option.ite_none_right_eq_some.1 heq
    cases heq
    exact moved_inv h (.inr helse) rfl
  | finish c =>
    obtain ⟨hrun, heq⟩ := Option.ite_none_right_eq_some.1 heq
    cases heq
    exact moved_inv h (.inl hrun) rfl

theorem empty_inv : Inv .empty where
  nodup _ := List.nodup_nil
  table _ _ _ h := by cases h
  loops _ h := by cases h
  apart := .nil
  inner := .nil
  waiting _ h := by cases h
  right _ h := by cases h
  answered _ := rfl

/-- **The main result.** In every run whose steps meet the condition, and in every state of it, no message was delivered to a function
that was cancelled, every coroutine was resumed by messages and cancels that it waited for only, each call of `IPC.receive` was answered
once or waits, and a message has reached all who waited for it. -/
theorem ended_of_ok (s : State) (h : Reach step Sound .empty s) : Ended s := by
  have hinv : Inv s := h.inv empty_inv fun _ _ _ hi hok heq => step_inv hi hok heq
  refine ⟨hinv.right, hinv.answered, fun hnil => List.eq_nil_iff_forall_not_mem.2 fun c hc => ?_⟩
  obtain ⟨l, hl, -⟩ := hinv.waiting c hc
  rw [hnil] at hl
  cases hl

end Steps

/-- a coroutine waits, and a message comes -/
def one_message : List Action :=
  [.resume 0, .receive 0 "m" .any 0, .arrive "m" 1 [.thread 0], .next, .next]

theorem along_one_message : Along step Sound .empty one_message := by
  refine ⟨trivial, ?_⟩
  rintro _ ⟨⟩
  refine ⟨⟨rfl, fun l hl => absurd hl List.not_mem_nil⟩, ?_⟩
  rintro _ ⟨⟩
  refine ⟨fun r hr _ => ?_, ?_⟩
  · obtain rfl : r = .thread 0 := List.mem_singleton.1 hr
    exact .inl rfl
  rintro _ ⟨⟩
  exact ⟨trivial, fun _ _ => ⟨trivial, fun _ _ => trivial⟩⟩

theorem ended_of_ok_one : ∃ s, exec step .empty one_message = some s ∧ Ended s ∧
    s.log.map Delivery.receiver = [.thread 0] ∧ s.calls 0 = 1 ∧ s.answers 0 = 1 := by
  obtain ⟨s, hs⟩ : ∃ s, exec step .empty one_message = some s := ⟨_, rfl⟩
  have hend : (exec step .empty one_message).map (fun s => (s.log.map Delivery.receiver, s.calls 0, s.answers 0)) =
      some ([.thread 0], 1, 1) := by decide
  rw [hs, Option.map_some, Option.some.injEq, Prod.mk.injEq, Prod.mk.injEq] at hend
  exact ⟨s, hs, ended_of_ok s (Reach.init.of_along along_one_message hs), hend⟩

/-- a function is registered and cancelled, and a message comes -/
def cancelled_function : List Action :=
  [.receive_function "m" .any 7, .cancel "m" .any none [.fn 7], .next, .next, .arrive "m" 1 [.fn 7], .next]

/-- a coroutine gets the message that it has waited for and yields elsewhere, and another message comes -/
def second_message : List Action :=
  [.resume 0, .receive 0 "m" .any 0, .arrive "m" 1 [.thread 0], .next, .next, .yield 0, .arrive "m" 1 [.thread 0], .next]

/-- the cancelled function is called, and the coroutine is resumed from where it does not wait for a message -/
theorem not_ended : (∃ s, exec step .empty cancelled_function = some s ∧
      s.log = [⟨"m", .cancel .any none, .fn 7, .running, false⟩, ⟨"m", .message 1, .fn 7, .running, true⟩] ∧ ¬ Ended s) ∧
    ∃ s, exec step .empty second_message = some s ∧
      s.log = [⟨"m", .message 1, .thread 0, .receiving "m" .any, false⟩, ⟨"m", .message 1, .thread 0, .elsewhere, false⟩] ∧
      ¬ Ended s := by
  constructor
  · obtain ⟨s, hs⟩ : ∃ s, exec step .empty cancelled_function = some s := ⟨_, rfl⟩
    have hlog : (exec step .empty cancelled_function).map State.log =
        some [⟨"m", .cancel .any none, .fn 7, .running, false⟩, ⟨"m", .message 1, .fn 7, .running, true⟩] := by decide
    rw [hs, Option.map_some, Option.some.injEq] at hlog
    refine ⟨s, hs, hlog, fun h => ?_⟩
    have hright := h.right ⟨"m", .message 1, .fn 7, .running, true⟩ (by rw [hlog]; simp)
    cases hright rfl
  · obtain ⟨s, hs⟩ : ∃ s, exec step .empty second_message = some s := ⟨_, rfl⟩
    have hlog : (exec step .empty second_message).map State.log =
        some [⟨"m", .message 1, .thread 0, .receiving "m" .any, false⟩,
          ⟨"m", .message 1, .thread 0, .elsewhere, false⟩] := by decide
    rw [hs, Option.map_some, Option.some.injEq] at hlog
    refine ⟨s, hs, hlog, fun h => ?_⟩
    obtain ⟨src, hwaits, -⟩ := h.right ⟨"m", .message 1, .thread 0, .elsewhere, false⟩ (by rw [hlog]; simp)
    cases hwaits

end Shuttlesock.Receive
