/-
Whom `ipc_broadcast` of `ipc.lua` sends to: its filter, `Process.all_procnums` and `Process.share_heap` of `process.lua`, and
`Core.ipc_send_message` of `ipc_lua_api.c` as far as it can fail.

Model: the sender sees the run states of the processes and the range of the workers. `and` and `or` are Lua's, over the values
that the two expressions of the filter can take. Whether the data can be packed and whether the core takes a message for a
process (there may be no memory for it) is part of the input.

`dst == "others" or dst == "other_workers" and Process.procnum()` is `true` for `"others"`, which no procnum equals, and
`dst == ("workers" or dst == "other_workers")` compares with `"workers"` only.

Results:
- `delivers_iff`: a broadcast that is not refused because the sender or a process that it is meant for is not running sends one
  message to each of these processes and to nobody else, if and only if `Ok`.
- `not_delivered`: `"others"` from a worker.
- `broadcast_not_aborted`: messages that go through the manager are in shared memory.
-/
import Mathlib.Tactic

namespace Shuttlesock.Broadcasts

/-! ## The model -/

/-- the destinations that `IPC.send` takes for many processes -/
inductive Destination where
  | all | others | workers | other_workers
deriving DecidableEq

/-- `shuso_runstate_t`, under the names that Lua sees -/
inductive RunState where
  | dead | stopped | misconfigured | configuring | configured | nil | starting | running | stopping
deriving DecidableEq

def RunState.code : RunState → ℤ
  | .dead => -5
  | .stopped => -4
  | .misconfigured => -3
  | .configuring => -2
  | .configured => -1
  | .nil => 0
  | .starting => 1
  | .running => 2
  | .stopping => 3

/-- `luaS_push_runstate`, and `%s` -/
def RunState.to_string : RunState → String
  | .dead => "dead"
  | .stopped => "stopped"
  | .misconfigured => "misconfigured"
  | .configuring => "configuring"
  | .configured => "configured"
  | .nil => "nil"
  | .starting => "starting"
  | .running => "running"
  | .stopping => "stopping"

def PROCNUM_UNKNOWN_PROCESS : ℤ := -404
def PROCNUM_NOPROCESS : ℤ := -3
def PROCNUM_MASTER : ℤ := -2
def PROCNUM_MANAGER : ℤ := -1
def PROCNUM_WORKER : ℤ := 0

/-- the sender, and the processes as it sees them -/
structure Processes where
  procnum : ℤ
  state : ℤ → RunState
  workers_start : ℕ
  workers_end : ℕ

/-- `Process.procnum_to_string` -/
def procnum_to_string (num : ℤ) : String :=
  if num = PROCNUM_UNKNOWN_PROCESS then "unknown process"
  else if num = PROCNUM_NOPROCESS then "no process"
  else if num = PROCNUM_MASTER then "master"
  else if num = PROCNUM_MANAGER then "manager"
  else if PROCNUM_WORKER ≤ num then "worker #" ++ toString num
  else "invalid process number " ++ toString num

/-- `Lua_shuso_procnums_active` -/
def all_procnums (p : Processes) : List ℤ :=
  [PROCNUM_MASTER] ++ (if RunState.starting.code ≤ (p.state PROCNUM_MANAGER).code then [PROCNUM_MANAGER] else []) ++
    (List.range' p.workers_start (p.workers_end - p.workers_start)).map Nat.cast

/-- the values of the filter's expressions -/
inductive Val where
  | boolean (b : Bool)
  | number (n : ℤ)
  /-- `-math.huge` -/
  | minus_huge
  | string (dst : Destination)
deriving DecidableEq

def Val.truthy : Val → Bool
  | .boolean b => b
  | _ => true

def lua_or (a b : Val) : Val := if a.truthy then a else b

def lua_and (a b : Val) : Val := if a.truthy then b else a

def lua_eq (a b : Val) : Val := .boolean (a = b)

def my_procnum (p : Processes) (dst : Destination) : Val :=
  lua_or (lua_eq (.string dst) (.string .others)) (lua_and (lua_eq (.string dst) (.string .other_workers)) (.number p.procnum))

def min_procnum (dst : Destination) : Val :=
  lua_or (lua_and (lua_eq (.string dst) (lua_or (.string .workers) (lua_eq (.string dst) (.string .other_workers)))) (.number 0))
    .minus_huge

/-- `procnum >= v`; other values do not come up -/
def at_least (procnum : ℤ) : Val → Bool
  | .number n => n ≤ procnum
  | .minus_huge => true
  | _ => false

/-- the condition in the loop -/
def passes (p : Processes) (dst : Destination) (procnum : ℤ) : Bool :=
  Val.number procnum ≠ my_procnum p dst && at_least procnum (min_procnum dst)

def state_error (p : Processes) (procnum : ℤ) : String :=
  procnum_to_string procnum ++ " state must be 'running' but is '" ++ (p.state procnum).to_string ++ "'"

/-- the loop that fills `dstprocnums` -/
def collect (p : Processes) (dst : Destination) : List ℤ → Except String (List ℤ)
  | [] => .ok []
  | procnum :: rest =>
    if passes p dst procnum then
      if p.state procnum ≠ .running then .error (state_error p procnum)
      else (collect p dst rest).map (procnum :: ·)
    else collect p dst rest

/-- the loop of `Process.share_heap` -/
def share_heap (have_master have_nonmaster : Bool) : List ℤ → Bool
  | [] => true
  | num :: rest =>
    let have_master := have_master || num = PROCNUM_MASTER
    let have_nonmaster := have_nonmaster || num ≠ PROCNUM_MASTER
    if have_master && have_nonmaster then false else share_heap have_master have_nonmaster rest

/-- master and workers talk through the manager -/
def proxied (src dst : ℤ) : Bool :=
  dst = PROCNUM_MASTER && decide (PROCNUM_WORKER ≤ src) || decide (PROCNUM_WORKER ≤ dst) && src = PROCNUM_MASTER

/-- what a broadcast comes to: nil and a text, an error raised or an assertion of C failed behind messages to some, or a message
to each of the list -/
inductive Outcome where
  | refused (message : String)
  | raised (sent : List ℤ)
  | aborted (sent : List ℤ)
  | sent (dsts : List ℤ)
deriving DecidableEq

/-- the loop that sends -/
def send_each (p : Processes) (in_shared_memory : Bool) (takes : ℤ → Bool) (sent : List ℤ) : List ℤ → Outcome
  | [] => .sent sent
  | procnum :: rest =>
    if proxied p.procnum procnum && !in_shared_memory then .aborted sent
    else if takes procnum then send_each p in_shared_memory takes (sent ++ [procnum]) rest
    else .raised sent

/-- `ipc_broadcast`, to the end of the loop that sends -/
def ipc_broadcast (p : Processes) (packs : Bool) (takes : ℤ → Bool) (dst : Destination) : Outcome :=
  if p.state p.procnum ≠ .running then .refused (state_error p p.procnum)
  else
    match collect p dst (all_procnums p) with
    | .error message => .refused message
    | .ok dstprocnums =>
      let need_shmem := !share_heap false false (p.procnum :: dstprocnums)
      if !packs then .raised [] else send_each p need_shmem takes [] dstprocnums

/-- whether a broadcast is meant for a process -/
def meant (p : Processes) (procnum : ℤ) : Destination → Bool
  | .all => true
  | .others => procnum ≠ p.procnum
  | .workers => PROCNUM_WORKER ≤ procnum
  | .other_workers => decide (PROCNUM_WORKER ≤ procnum) && decide (procnum ≠ p.procnum)

/-- the active processes that a broadcast is meant for -/
def intended (p : Processes) (dst : Destination) : List ℤ := (all_procnums p).filter fun n => meant p n dst

/-- one of the processes that have to run does not -/
def Refusable (p : Processes) (dst : Destination) : Prop :=
  p.state p.procnum ≠ .running ∨ ∃ n ∈ intended p dst, p.state n ≠ .running

/-- **The property** of one broadcast. -/
structure Delivers (p : Processes) (packs : Bool) (takes : ℤ → Bool) (dst : Destination) : Prop where
  sent : ∀ dsts, ipc_broadcast p packs takes dst = .sent dsts → dsts.Nodup ∧ dsts.Perm (intended p dst)
  refused : ∀ message, ipc_broadcast p packs takes dst = .refused message → Refusable p dst
  not_raised : ∀ dsts, ipc_broadcast p packs takes dst ≠ .raised dsts
  not_aborted : ∀ dsts, ipc_broadcast p packs takes dst ≠ .aborted dsts

/-- the populations for which the filter keeps out whom it should -/
def Apart (p : Processes) : Destination → Prop
  | .all => True
  | .others => p.procnum ∉ all_procnums p
  | .workers => True
  | .other_workers => ∀ n ∈ all_procnums p, n < PROCNUM_WORKER → n = p.procnum

/-- **The condition**: a process that has to run does not, or the filter keeps out whom it should and nothing fails. -/
def Ok (p : Processes) (packs : Bool) (takes : ℤ → Bool) (dst : Destination) : Prop :=
  Refusable p dst ∨ Apart p dst ∧ packs = true ∧ ∀ n ∈ intended p dst, takes n = true

/-! ## The filter -/

section Filter

variable {p : Processes} {dst : Destination} {procnum : ℤ}

theorem passes_all : passes p .all procnum = true := by
  unfold passes my_procnum min_procnum
  rfl

theorem passes_others : passes p .others procnum = true := by
  unfold passes my_procnum min_procnum
  rfl

theorem passes_workers : passes p .workers procnum = decide (PROCNUM_WORKER ≤ procnum) := by
  unfold passes my_procnum min_procnum
  exact Bool.true_and _

theorem passes_other_workers : passes p .other_workers procnum = decide (procnum ≠ p.procnum) := by
  unfold passes my_procnum min_procnum
  change (decide (Val.number procnum ≠ Val.number p.procnum) && true) = _
  rw [Bool.and_true]
  simp

/-- nobody is left out -/
theorem passes_of_meant (h : meant p procnum dst = true) : passes p dst procnum = true := by
  cases dst with
  | all => exact passes_all
  | others => exact passes_others
  | workers => rwa [passes_workers]
  | other_workers =>
    rw [passes_other_workers]
    exact (Bool.and_eq_true_iff.1 h).2

theorem all_procnums_nodup (p : Processes) : (all_procnums p).Nodup := by
  have hworkers : ((List.range' p.workers_start (p.workers_end - p.workers_start)).map (Nat.cast : ℕ → ℤ)).Nodup :=
    (List.nodup_range' (h := by decide)).map Nat.cast_injective
  have hfirst : ([PROCNUM_MASTER] ++
      if RunState.starting.code ≤ (p.state PROCNUM_MANAGER).code then [PROCNUM_MANAGER] else []).Nodup := by
    split <;> decide
  refine List.nodup_append.2 ⟨hfirst, hworkers, fun a ha b hb heq => ?_⟩
  obtain ⟨w, -, rfl⟩ := List.mem_map.1 hb
  have hneg : a < 0 := by
    unfold PROCNUM_MASTER PROCNUM_MANAGER at ha
    rcases List.mem_append.1 ha with ha | ha
    · rw [List.mem_singleton.1 ha]
      decide
    · split at ha
      · rw [List.mem_singleton.1 ha]
        decide
      · cases ha
  omega

/-- the processes that come through the filter -/
def recipients (p : Processes) (dst : Destination) : List ℤ := (all_procnums p).filter (passes p dst)

theorem intended_eq : intended p dst = (recipients p dst).filter fun n => meant p n dst := by
  unfold intended recipients
  rw [List.filter_filter]
  congr 1
  funext n
  cases h : meant p n dst with
  | false => rfl
  | true => rw [passes_of_meant h]; rfl

theorem apart_iff : Apart p dst ↔ recipients p dst = intended p dst := by
  have hiff : recipients p dst = intended p dst ↔
      ∀ n ∈ all_procnums p, passes p dst n = true → meant p n dst = true := by
    rw [intended_eq, eq_comm, List.filter_eq_self]
    unfold recipients
    simp only [List.mem_filter, and_imp]
  rw [hiff]
  cases dst with
  | all => exact iff_of_true trivial fun _ _ _ => rfl
  | workers => exact iff_of_true trivial fun n _ h => by rwa [passes_workers] at h
  | others =>
    unfold Apart meant
    simp only [passes_others, decide_eq_true_eq, forall_const]
    exact ⟨fun h n hn heq => h (heq ▸ hn), fun h hin => h _ hin rfl⟩
  | other_workers =>
    unfold Apart meant
    simp only [passes_other_workers, Bool.and_eq_true, decide_eq_true_eq]
    constructor
    · exact fun h n hn hne => ⟨not_lt.1 fun hlt => hne (h n hn hlt), hne⟩
    · intro h n hn hlt
      by_contra hne
      exact not_lt.2 (h n hn hne).1 hlt

end Filter

/-! ## The loops -/

section Loops

variable {p : Processes} {dst : Destination} {takes : ℤ → Bool} {shared : Bool}

/-- the loop finds a process of the filter that does not run, or takes them all -/
theorem collect_spec (p : Processes) (dst : Destination) (l : List ℤ) :
    (∃ n message, n ∈ l.filter (passes p dst) ∧ p.state n ≠ .running ∧ collect p dst l = .error message) ∨
      (∀ n ∈ l.filter (passes p dst), p.state n = .running) ∧ collect p dst l = .ok (l.filter (passes p dst)) := by
  induction l with
  | nil => exact .inr ⟨fun n hn => absurd hn List.not_mem_nil, rfl⟩
  | cons procnum rest ih =>
    unfold collect
    cases hpass : passes p dst procnum with
    | false =>
      rw [List.filter_cons_of_neg (by rw [hpass]; exact Bool.false_ne_true)]
      exact ih
    | true =>
      rw [List.filter_cons_of_pos hpass, if_pos rfl]
      by_cases hrun : p.state procnum = .running
      · rw [if_neg (not_not.2 hrun)]
        rcases ih with ⟨n, message, hn, hstate, heq⟩ | ⟨hall, heq⟩
        · exact .inl ⟨n, message, List.mem_cons_of_mem _ hn, hstate, by rw [heq]; rfl⟩
        · refine .inr ⟨fun n hn => ?_, by rw [heq]; rfl⟩
          rcases List.mem_cons.1 hn with rfl | hn
          · exact hrun
          · exact hall n hn
      · rw [if_pos hrun]
        exact .inl ⟨procnum, _, List.mem_cons_self, hrun, rfl⟩

/-- the processes share a heap when the master is not among others -/
theorem share_heap_eq_false {l : List ℤ} {a b : ℤ} (ha : a ∈ l) (hb : b ∈ l) (hmaster : a = PROCNUM_MASTER)
    (hnot : b ≠ PROCNUM_MASTER) : share_heap false false l = false := by
  have hloop : ∀ (l : List ℤ) (m n : Bool), (m = true ∨ PROCNUM_MASTER ∈ l) → (n = true ∨ ∃ b ∈ l, b ≠ PROCNUM_MASTER) →
      (m && n) = false → share_heap m n l = false := by
    intro l
    induction l with
    | nil =>
      intro m n hm hn hmn
      rcases hm with rfl | hm <;> rcases hn with rfl | ⟨b, hb, -⟩
      · cases hmn
      · cases hb
      · cases hm
      · cases hm
    | cons num rest ih =>
      intro m n hm hn hmn
      unfold share_heap
      dsimp only
      split
      · rfl
      · rename_i hboth
        rw [Bool.not_eq_true] at hboth
        refine ih _ _ ?_ ?_ hboth
        · rcases hm with rfl | hm
          · exact .inl (Bool.true_or _)
          · rcases List.mem_cons.1 hm with rfl | hm
            · exact .inl (by simp)
            · exact .inr hm
        · rcases hn with rfl | ⟨b, hb, hne⟩
          · exact .inl (Bool.true_or _)
          · rcases List.mem_cons.1 hb with rfl | hb
            · exact .inl (by simp [hne])
            · exact .inr ⟨b, hb, hne⟩
  exact hloop l false false (.inr (hmaster ▸ ha)) (.inr ⟨b, hb, hnot⟩) rfl


/-- the loop that sends comes to its end, or to a process for which a message is not taken -/
theorem send_each_spec {l : List ℤ} (hshared : ∀ n ∈ l, proxied p.procnum n = true → shared = true) (sent : List ℤ) :
    (∀ n ∈ l, takes n = true) ∧ send_each p shared takes sent l = .sent (sent ++ l) ∨
      (∃ n ∈ l, takes n = false) ∧ ∃ dsts, send_each p shared takes sent l = .raised dsts := by
  induction l generalizing sent with
  | nil => exact .inl ⟨fun n hn => absurd hn List.not_mem_nil, by rw [List.append_nil]; rfl⟩
  | cons procnum rest ih =>
    have hno : (proxied p.procnum procnum && !shared) = false := by
      cases hprox : proxied p.procnum procnum with
      | false => rfl
      | true => rw [hshared procnum List.mem_cons_self hprox]; rfl
    unfold send_each
    rw [hno, if_neg Bool.false_ne_true]
    cases htake : takes procnum with
    | false => exact .inr ⟨⟨procnum, List.mem_cons_self, htake⟩, sent, rfl⟩
    | true =>
      rw [if_pos rfl]
      rcases ih (fun n hn => hshared n (List.mem_cons_of_mem _ hn)) (sent ++ [procnum]) with ⟨hall, heq⟩ | ⟨⟨n, hn, hf⟩, heq⟩
      · refine .inl ⟨fun n hn => ?_, by rw [heq, List.append_assoc]; rfl⟩
        rcases List.mem_cons.1 hn with rfl | hn
        · exact htake
        · exact hall n hn
      · exact .inr ⟨⟨n, List.mem_cons_of_mem _ hn, hf⟩, heq⟩

/-- what goes through the manager is in shared memory -/
theorem shared_of_proxied {src n : ℤ} {l : List ℤ} (hn : n ∈ l) (h : proxied src n = true) :
    (!share_heap false false (src :: l)) = true := by
  unfold proxied at h
  simp only [Bool.or_eq_true, Bool.and_eq_true, decide_eq_true_eq] at h
  unfold PROCNUM_MASTER PROCNUM_WORKER at h
  rw [Bool.not_eq_true']
  rcases h with ⟨hmaster, hworker⟩ | ⟨hworker, hmaster⟩
  · exact share_heap_eq_false (List.mem_cons_of_mem src hn) List.mem_cons_self hmaster (by unfold PROCNUM_MASTER; omega)
  · exact share_heap_eq_false List.mem_cons_self (List.mem_cons_of_mem src hn) hmaster (by unfold PROCNUM_MASTER; omega)

end Loops

/-! ## The main result -/

section Main

variable {p : Processes} {packs : Bool} {takes : ℤ → Bool} {dst : Destination}

theorem mem_recipients_of_intended {n : ℤ} (h : n ∈ intended p dst) : n ∈ recipients p dst := by
  rw [intended_eq] at h
  exact List.mem_of_mem_filter h

/-- how a broadcast ends -/
theorem ipc_broadcast_cases (p : Processes) (packs : Bool) (takes : ℤ → Bool) (dst : Destination) :
    (∃ message, ipc_broadcast p packs takes dst = .refused message ∧
      (p.state p.procnum ≠ .running ∨ ∃ n ∈ recipients p dst, p.state n ≠ .running)) ∨
    p.state p.procnum = .running ∧ (∀ n ∈ recipients p dst, p.state n = .running) ∧
      (packs = true ∧ (∀ n ∈ recipients p dst, takes n = true) ∧
          ipc_broadcast p packs takes dst = .sent (recipients p dst) ∨
        (packs = false ∨ ∃ n ∈ recipients p dst, takes n = false) ∧
          ∃ dsts, ipc_broadcast p packs takes dst = .raised dsts) := by
  unfold ipc_broadcast
  by_cases hrun : p.state p.procnum = .running
  · rw [if_neg (not_not.2 hrun)]
    rcases collect_spec p dst (all_procnums p) with ⟨n, message, hn, hstate, heq⟩ | ⟨hall, heq⟩
    · rw [heq]
      exact .inl ⟨message, rfl, .inr ⟨n, hn, hstate⟩⟩
    · rw [heq]
      refine .inr ⟨hrun, hall, ?_⟩
      cases packs with
      | false => exact .inr ⟨.inl rfl, [], rfl⟩
      | true =>
        have hshared : ∀ n ∈ recipients p dst, proxied p.procnum n = true →
            (!share_heap false false (p.procnum :: recipients p dst)) = true :=
          fun n hn hprox => shared_of_proxied hn hprox
        rcases send_each_spec hshared [] with ⟨htakes, heq⟩ | ⟨hfails, heq⟩
        · exact .inl ⟨rfl, htakes, heq⟩
        · exact .inr ⟨.inr hfails, heq⟩
  · rw [if_pos hrun]
    exact .inl ⟨_, rfl, .inl hrun⟩

/-- the assertion on proxied messages holds -/
theorem broadcast_not_aborted (p : Processes) (packs : Bool) (takes : ℤ → Bool) (dst : Destination) (dsts : List ℤ) :
    ipc_broadcast p packs takes dst ≠ .aborted dsts := by
  rcases ipc_broadcast_cases p packs takes dst with ⟨message, heq, -⟩ | ⟨-, -, ⟨-, -, heq⟩ | ⟨-, dsts', heq⟩⟩ <;> rw [heq] <;>
    exact Outcome.noConfusion

/-- **The main result.** For all processes, senders and destinations: a broadcast sends exactly one message to each process that it
is meant for, or one of those that have to run does not, if and only if the condition is met. -/
theorem delivers_iff (p : Processes) (packs : Bool) (takes : ℤ → Bool) (dst : Destination) :
    Delivers p packs takes dst ↔ Ok p packs takes dst := by
  constructor
  · intro h
    rcases ipc_broadcast_cases p packs takes dst with
      ⟨message, heq, -⟩ | ⟨hrun, hall, ⟨hpacks, htakes, heq⟩ | ⟨-, dsts, heq⟩⟩
    · exact .inl (h.refused message heq)
    · have hperm := (h.sent _ heq).2
      have hsame : recipients p dst = intended p dst := by
        rw [intended_eq] at hperm ⊢
        exact (List.filter_sublist.eq_of_length hperm.length_eq.symm).symm
      exact .inr ⟨apart_iff.2 hsame, hpacks, fun n hn => htakes n (mem_recipients_of_intended hn)⟩
    · exact absurd heq (h.not_raised dsts)
  · intro h
    have hrefusable : (p.state p.procnum ≠ .running ∨ ∃ n ∈ recipients p dst, p.state n ≠ .running) → Refusable p dst := by
      rintro (hstate | ⟨n, hn, hstate⟩)
      · exact .inl hstate
      · rcases h with h | ⟨hapart, -⟩
        · exact h
        · exact .inr ⟨n, apart_iff.1 hapart ▸ hn, hstate⟩
    rcases ipc_broadcast_cases p packs takes dst with
      ⟨message, heq, hwhy⟩ | ⟨hrun, hall, hrest⟩
    · refine ⟨fun dsts heq' => ?_, fun _ _ => hrefusable hwhy, fun dsts => ?_, broadcast_not_aborted p packs takes dst⟩
      · rw [heq] at heq'
        cases heq'
      · rw [heq]
        exact Outcome.noConfusion
    · have hnot : ¬ Refusable p dst := by
        rintro (hstate | ⟨n, hn, hstate⟩)
        · exact hstate hrun
        · exact hstate (hall n (mem_recipients_of_intended hn))
      obtain ⟨hapart, hpacks, htakes⟩ := h.resolve_left hnot
      have hsame := apart_iff.1 hapart
      rcases hrest with ⟨-, -, heq⟩ | ⟨hfail, -⟩
      · refine ⟨fun dsts heq' => ?_, fun message heq' => ?_, fun dsts => ?_, broadcast_not_aborted p packs takes dst⟩
        · rw [heq, hsame] at heq'
          cases heq'
          exact ⟨(all_procnums_nodup p).filter _, .refl _⟩
        · rw [heq] at heq'
          cases heq'
        · rw [heq]
          exact Outcome.noConfusion
      · rcases hfail with hfail | ⟨n, hn, hfail⟩
        · rw [hpacks] at hfail
          cases hfail
        · rw [htakes n (hsame ▸ hn)] at hfail
          cases hfail

end Main

/-- master, manager and two workers, all running; the first worker sends -/
def two_workers : Processes := ⟨0, fun _ => .running, 0, 2⟩

/-- a broadcast to the others comes back to its sender, and one to the other workers goes to master and manager as well -/
theorem not_delivered : ipc_broadcast two_workers true (fun _ => true) .others = .sent [-2, -1, 0, 1] ∧
    ipc_broadcast two_workers true (fun _ => true) .other_workers = .sent [-2, -1, 1] ∧
    intended two_workers .others = [-2, -1, 1] ∧ intended two_workers .other_workers = [1] ∧
    ¬ Delivers two_workers true (fun _ => true) .others ∧ ¬ Delivers two_workers true (fun _ => true) .other_workers := by
  have hothers : ipc_broadcast two_workers true (fun _ => true) .others = .sent [-2, -1, 0, 1] := by decide
  have hworkers : ipc_broadcast two_workers true (fun _ => true) .other_workers = .sent [-2, -1, 1] := by decide
  refine ⟨hothers, hworkers, by decide, by decide, fun h => ?_, fun h => ?_⟩
  · exact absurd (h.sent _ hothers).2.length_eq (by decide)
  · exact absurd (h.sent _ hworkers).2.length_eq (by decide)

end Shuttlesock.Broadcasts
