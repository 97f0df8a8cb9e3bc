/-
The registry of IPC handlers: `shuso_ipc_add_handler` of `ipc.c`, with `shuso_runstate_check`.

Model: `Table` is `common->ipc_handlers`, none where the name is NULL. A call has with it the run state and the last error at that time.
Code 0 is the one that `ipc.c` takes for no message, and the codes of messages are a byte; neither is checked here.

Results:
- `add_handler_cases`: what a call does.
- `handlers_registered_iff`: the registry is kept as it should be in exactly those runs where the codes are in range.
- `large_not_registered`: code 256.
-/
import Mathlib.Tactic

namespace Shuttlesock.IpcHandlers

/-! ## The model -/

/-- `shuso_runstate_t` -/
inductive Runstate where
  | dead
  | stopped
  | misconfigured
  | nil
  | configuring
  | configured
  | starting
  | running
  | stopping
deriving DecidableEq

inductive Checked where
  | ok
  | failed (error : String)
  /-- `raise(SIGABRT)` -/
  | abort

/-- `shuso_runstate_check` for the state in which the process configures -/
def shuso_runstate_check (state : Runstate) (last_error : Option String) (whatcha_doing : String) : Checked :=
  match state with
  | .configuring => .ok
  | .dead => .failed ("failed to " ++ whatcha_doing ++ ": shuttlesock is already dead")
  | .stopped => .failed ("failed to " ++ whatcha_doing ++ ": shuttlesock is already stopped")
  | .misconfigured => .failed ("failed to " ++ whatcha_doing ++ ": " ++ last_error.getD "shuttlesock is misconfigured")
  | .configured => .abort
  | .nil => .failed ("failed to " ++ whatcha_doing ++ ": shuttlesock is unset")
  | .starting => .failed ("failed to " ++ whatcha_doing ++ ": shuttlesock is starting")
  | .running => .failed ("failed to " ++ whatcha_doing ++ ": shuttlesock is already running")
  | .stopping => .failed ("failed to " ++ whatcha_doing ++ ": shuttlesock is already stopping")

/-- `shuso_ipc_fn *` -/
inductive Fn where
  | do_nothing
  | other (address : ℕ)
deriving DecidableEq

/-- `shuso_ipc_handler_t` -/
structure Handler where
  code : UInt8
  receive : Fn
  cancel : Fn
  name : String
deriving DecidableEq

abbrev Table := Fin 256 → Option Handler

/-- before the first call -/
def empty : Table := fun _ => none

def AUTOMATIC : UInt32 := 65535
def AUTOMATIC_MIN : ℕ := 20
def AUTOMATIC_MAX : ℕ := 255

structure Call where
  state : Runstate
  last_error : Option String
  name : Option String
  code : UInt32
  receive : Fn
  cancel : Option Fn

inductive Result where
  | added (handler : Handler)
  | failed (error : String)
  | abort
  /-- the table is indexed outside -/
  | past
deriving DecidableEq

/-- the codes of the loop -/
def automatic_codes : List (Fin 256) := (List.finRange 256).filter fun i => AUTOMATIC_MIN ≤ i.val ∧ i.val ≤ AUTOMATIC_MAX

/-- the loop over the automatic codes -/
def first_free (t : Table) : Option (Fin 256) := automatic_codes.find? fun i => t i = none

/-- the end of the call, with a code that is in the table -/
def register (t : Table) (c : Call) (code : Fin 256) : Result × Table :=
  match t code with
  | some handler => (.failed ("IPC code " ++ toString code.val ++ " is already in use by " ++ handler.name), t)
  | none =>
    let handler : Handler := ⟨UInt8.ofNat code.val, c.receive, c.cancel.getD .do_nothing, c.name.getD "(unnamed)"⟩
    (.added handler, Function.update t code (some handler))

def shuso_ipc_add_handler (t : Table) (c : Call) : Result × Table :=
  match shuso_runstate_check c.state c.last_error "add IPC handler" with
  | .failed error => (.failed error, t)
  | .abort => (.abort, t)
  | .ok =>
    if c.code = AUTOMATIC then
      match first_free t with
      | none => (.failed ("All " ++ toString (AUTOMATIC_MAX - AUTOMATIC_MIN) ++ " automatic IPC codes are already used."), t)
      | some code => register t c code
    else if h : c.code.toNat < 256 then register t c ⟨c.code.toNat, h⟩
    else (.past, t)

/-! ## Runs -/

def result (t : Table) (c : Call) : Result := (shuso_ipc_add_handler t c).1

/-- the table after a call -/
def after (t : Table) (c : Call) : Table := (shuso_ipc_add_handler t c).2

/-- the table after some calls -/
def run (t : Table) (calls : List Call) : Table := calls.foldl after t

def results (t : Table) : List Call → List Result
  | [] => []
  | c :: calls => result t c :: results (after t c) calls

/-- the code that a call returns -/
def Result.code? : Result → Option UInt8
  | .added handler => some handler.code
  | .failed _ => none
  | .abort => none
  | .past => none

/-- the code is taken, or no automatic code is free -/
def Taken (t : Table) (c : Call) : Prop :=
  if c.code = AUTOMATIC then ∀ i : Fin 256, 20 ≤ i.val → t i ≠ none else ∃ i : Fin 256, i.val = c.code.toNat ∧ t i ≠ none

/-- a reason for a call to fail -/
def Refusable (t : Table) (c : Call) : Prop :=
  Taken t c ∨ c.code ≠ AUTOMATIC ∧ (c.code.toNat = 0 ∨ 255 < c.code.toNat)

/-- **The property** of a sequence of calls. -/
structure Registered (calls : List Call) : Prop where
  /-- the table is never indexed outside -/
  inside : ∀ pre c post, calls = pre ++ c :: post → result (run empty pre) c ≠ .past
  /-- no handler is replaced -/
  kept : ∀ pre post i handler, calls = pre ++ post → run empty pre i = some handler → run empty calls i = some handler
  range : ∀ pre c post handler, calls = pre ++ c :: post → result (run empty pre) c = .added handler →
    1 ≤ handler.code.toNat ∧ handler.code.toNat ≤ 255 ∧ (c.code = AUTOMATIC → 20 ≤ handler.code.toNat)
  distinct : ((results empty calls).filterMap Result.code?).Nodup
  fails : ∀ pre c post, calls = pre ++ c :: post → (∀ handler, result (run empty pre) c ≠ .added handler) → Refusable (run empty pre) c

/-- **The condition** on a call: while the process configures, the code is automatic or in range; at other times the call would have
to fail anyway. -/
def Ok (t : Table) (c : Call) : Prop :=
  if c.state = .configuring then c.code = AUTOMATIC ∨ 1 ≤ c.code.toNat ∧ c.code.toNat ≤ 255 else Refusable t c

/-! ## One call -/

section Step

variable {t : Table} {c : Call}

theorem mem_automatic_codes (i : Fin 256) : i ∈ automatic_codes ↔ 20 ≤ i.val := by
  have hmax : i.val ≤ 255 := Nat.le_of_lt_succ i.isLt
  rw [automatic_codes, List.mem_filter, decide_eq_true_eq, AUTOMATIC_MIN, AUTOMATIC_MAX]
  exact ⟨fun h => h.2.1, fun h => ⟨List.mem_finRange i, h, hmax⟩⟩

theorem first_free_some {i : Fin 256} (h : first_free t = some i) : t i = none ∧ 20 ≤ i.val := by
  have hnone := List.find?_some h
  exact ⟨of_decide_eq_true hnone, (mem_automatic_codes i).1 (List.mem_of_find?_eq_some h)⟩

theorem first_free_none (h : first_free t = none) (i : Fin 256) (hi : 20 ≤ i.val) : t i ≠ none := by
  intro hnone
  have hfind := List.find?_eq_none.1 h i ((mem_automatic_codes i).2 hi)
  simp [hnone] at hfind

/-- what `register` does: the code is free and gets the handler, or it is taken -/
theorem register_cases (t : Table) (c : Call) (code : Fin 256) :
    (∃ handler, register t c code = (.added handler, Function.update t code (some handler)) ∧ t code = none ∧
        handler.code.toNat = code.val) ∨
      ∃ error, register t c code = (.failed error, t) ∧ t code ≠ none := by
  unfold register
  cases ht : t code with
  | none =>
    refine .inl ⟨_, rfl, rfl, ?_⟩
    exact Nat.mod_eq_of_lt code.isLt
  | some handler => exact .inr ⟨_, rfl, by simp⟩

/-- while the process configures -/
theorem add_handler_configuring (hstate : c.state = .configuring) : shuso_ipc_add_handler t c =
    if c.code = AUTOMATIC then
      match first_free t with
      | none => (.failed ("All " ++ toString (AUTOMATIC_MAX - AUTOMATIC_MIN) ++ " automatic IPC codes are already used."), t)
      | some code => register t c code
    else if h : c.code.toNat < 256 then register t c ⟨c.code.toNat, h⟩
    else (.past, t) := by
  rw [shuso_ipc_add_handler, hstate]
  rfl

/-- a handler goes to a free place of the table -/
structure Adds (t : Table) (c : Call) (code : Fin 256) (handler : Handler) : Prop where
  added : result t c = .added handler
  after : after t c = Function.update t code (some handler)
  free : t code = none
  own : handler.code.toNat = code.val
  configuring : c.state = .configuring
  which : if c.code = AUTOMATIC then 20 ≤ code.val else code.val = c.code.toNat

/-- the table is indexed outside -/
structure Leaves (t : Table) (c : Call) : Prop where
  past : result t c = .past
  after : after t c = t
  configuring : c.state = .configuring
  explicit : c.code ≠ AUTOMATIC
  large : 256 ≤ c.code.toNat

structure Fails (t : Table) (c : Call) : Prop where
  not_added : ∀ handler, result t c ≠ .added handler
  not_past : result t c ≠ .past
  after : after t c = t
  taken : c.state = .configuring → Taken t c

/-- **What a call does.** It registers a handler under a free code, or it indexes the table outside, or it fails. -/
theorem add_handler_cases (t : Table) (c : Call) : (∃ code handler, Adds t c code handler) ∨ Leaves t c ∨ Fails t c := by
  by_cases hstate : c.state = .configuring
  · have hadd := add_handler_configuring (t := t) hstate
    by_cases hauto : c.code = AUTOMATIC
    · rw [if_pos hauto] at hadd
      cases hfree : first_free t with
      | none =>
        rw [hfree] at hadd
        refine .inr (.inr ⟨fun handler => by simp [result, hadd], by simp [result, hadd], by rw [after, hadd], fun _ => ?_⟩)
        rw [Taken, if_pos hauto]
        exact first_free_none hfree
      | some code =>
        obtain ⟨hnone, hmin⟩ := first_free_some hfree
        rw [hfree] at hadd
        rcases register_cases t c code with ⟨handler, hreg, -, hcode⟩ | ⟨error, -, htaken⟩
        · replace hadd := hadd.trans hreg
          exact .inl ⟨code, handler, by rw [result, hadd], by rw [after, hadd], hnone, hcode, hstate, by rwa [if_pos hauto]⟩
        · exact absurd hnone htaken
    · rw [if_neg hauto] at hadd
      by_cases hlt : c.code.toNat < 256
      · rw [dif_pos hlt] at hadd
        rcases register_cases t c ⟨c.code.toNat, hlt⟩ with ⟨handler, hreg, hnone, hcode⟩ | ⟨error, hreg, htaken⟩
        · rw [hreg] at hadd
          exact .inl ⟨_, handler, by rw [result, hadd], by rw [after, hadd], hnone, hcode, hstate, by rw [if_neg hauto]⟩
        · rw [hreg] at hadd
          refine .inr (.inr ⟨fun handler => by simp [result, hadd], by simp [result, hadd], by rw [after, hadd], fun _ => ?_⟩)
          rw [Taken, if_neg hauto]
          exact ⟨_, rfl, htaken⟩
      · rw [dif_neg hlt] at hadd
        exact .inr (.inl ⟨by rw [result, hadd], by rw [after, hadd], hstate, hauto, not_lt.1 hlt⟩)
  · -- the run state is checked first
    have hadd : (∃ error, shuso_ipc_add_handler t c = (.failed error, t)) ∨ shuso_ipc_add_handler t c = (.abort, t) := by
      unfold shuso_ipc_add_handler
      cases hc : c.state with
      | configuring => exact absurd hc hstate
      | configured => exact .inr rfl
      | _ => exact .inl ⟨_, rfl⟩
    refine .inr (.inr ?_)
    rcases hadd with ⟨error, hadd⟩ | hadd
    · exact ⟨fun _ => by simp [result, hadd], by simp [result, hadd], by rw [after, hadd], fun h => absurd h hstate⟩
    · exact ⟨fun _ => by simp [result, hadd], by simp [result, hadd], by rw [after, hadd], fun h => absurd h hstate⟩

end Step

/-! ## Every run -/

section Run

variable {t : Table} {c : Call} {calls pre post : List Call} {i : Fin 256} {handler : Handler}

theorem run_concat (t : Table) (pre : List Call) (c : Call) : run t (pre ++ [c]) = after (run t pre) c := by
  rw [run, List.foldl_append]
  rfl

theorem run_append (t : Table) (pre post : List Call) : run t (pre ++ post) = run (run t pre) post := List.foldl_append

/-- a call replaces nothing -/
theorem after_kept (h : t i = some handler) : after t c i = some handler := by
  rcases add_handler_cases t c with ⟨code, new, hadds⟩ | hleaves | hfails
  · have hne : i ≠ code := by
      rintro rfl
      rw [hadds.free] at h
      cases h
    rw [hadds.after, Function.update_of_ne hne]
    exact h
  · rwa [hleaves.after]
  · rwa [hfails.after]

theorem run_kept (h : t i = some handler) : run t post i = some handler := by
  induction post generalizing t with
  | nil => exact h
  | cons c post ih => exact ih (after_kept h)

theorem Fails.code? (h : Fails t c) : (result t c).code? = none := by
  cases hr : result t c with
  | added handler => exact absurd hr (h.not_added handler)
  | failed error => rfl
  | abort => rfl
  | past => rfl

/-- the codes that calls return were free before, and no two are the same -/
theorem codes_distinct (calls : List Call) (t : Table) :
    (∀ code ∈ (results t calls).filterMap Result.code?, ∀ i : Fin 256, i.val = code.toNat → t i = none) ∧
      ((results t calls).filterMap Result.code?).Nodup := by
  induction calls generalizing t with
  | nil => exact ⟨fun _ h => absurd h List.not_mem_nil, List.nodup_nil⟩
  | cons c calls ih =>
    obtain ⟨hfree, hnodup⟩ := ih (after t c)
    rw [results]
    rcases add_handler_cases t c with ⟨code, handler, hadds⟩ | hleaves | hfails
    · rw [List.filterMap_cons_some (b := handler.code) (by rw [hadds.added]; rfl)]
      rw [hadds.after] at hfree hnodup ⊢
      refine ⟨fun k hk i hi => ?_, List.nodup_cons.2 ⟨fun hmem => ?_, hnodup⟩⟩
      · rcases List.mem_cons.1 hk with rfl | hk
        · obtain rfl : i = code := Fin.ext (hi.trans hadds.own)
          exact hadds.free
        · have hnew := hfree k hk i hi
          by_cases hic : i = code
          · rw [hic, Function.update_self] at hnew
            cases hnew
          · rwa [Function.update_of_ne hic] at hnew
      · have hnew := hfree _ hmem code hadds.own.symm
        rw [Function.update_self] at hnew
        cases hnew
    · rw [List.filterMap_cons_none (by rw [hleaves.past]; rfl)]
      rw [hleaves.after] at hfree hnodup ⊢
      exact ⟨hfree, hnodup⟩
    · rw [List.filterMap_cons_none hfails.code?]
      rw [hfails.after] at hfree hnodup ⊢
      exact ⟨hfree, hnodup⟩

/-- a handler in the table was registered by a call, under its own code -/
theorem run_entry (h : run empty pre i = some handler) :
    ∃ pre' c post', pre = pre' ++ c :: post' ∧ result (run empty pre') c = .added handler ∧ handler.code.toNat = i.val := by
  induction pre using List.reverseRecOn with
  | nil => cases h
  | append_singleton pre c ih =>
    rw [run_concat] at h
    have hold (h : run empty pre i = some handler) : ∃ pre' c' post', pre ++ [c] = pre' ++ c' :: post' ∧
        result (run empty pre') c' = .added handler ∧ handler.code.toNat = i.val := by
      obtain ⟨pre', c', post', rfl, hadded⟩ := ih h
      exact ⟨pre', c', post' ++ [c], by rw [List.append_assoc, List.cons_append], hadded⟩
    rcases add_handler_cases (run empty pre) c with ⟨code, new, hadds⟩ | hleaves | hfails
    · rw [hadds.after] at h
      by_cases hic : i = code
      · subst hic
        rw [Function.update_self] at h
        obtain rfl := Option.some.inj h
        exact ⟨pre, c, [], rfl, hadds.added, hadds.own⟩
      · rw [Function.update_of_ne hic] at h
        exact hold h
    · rw [hleaves.after] at h
      exact hold h
    · rw [hfails.after] at h
      exact hold h

/-- a call in range does what it should -/
theorem ok_step (hok : Ok t c) :
    result t c ≠ .past ∧
      (∀ handler, result t c = .added handler → 1 ≤ handler.code.toNat ∧ handler.code.toNat ≤ 255 ∧
        (c.code = AUTOMATIC → 20 ≤ handler.code.toNat)) ∧
      ((∀ handler, result t c ≠ .added handler) → Refusable t c) := by
  rcases add_handler_cases t c with ⟨code, new, hadds⟩ | hleaves | hfails
  · have hwhich := hadds.which
    have hlt := code.isLt
    rw [Ok, if_pos hadds.configuring] at hok
    refine ⟨by rw [hadds.added]; simp, fun handler hhandler => ?_, fun hnot => absurd hadds.added (hnot new)⟩
    obtain rfl : new = handler := Result.added.inj (hadds.added.symm.trans hhandler)
    rw [hadds.own]
    split_ifs at hwhich with hauto
    · exact ⟨by omega, by omega, fun _ => hwhich⟩
    · obtain ⟨hlow, hhigh⟩ := hok.resolve_left hauto
      exact ⟨by omega, by omega, fun h => absurd h hauto⟩
  · rw [Ok, if_pos hleaves.configuring] at hok
    have hhigh := (hok.resolve_left hleaves.explicit).2
    have hlarge := hleaves.large
    omega
  · refine ⟨hfails.not_past, fun handler hadded => absurd hadded (hfails.not_added handler), fun _ => ?_⟩
    by_cases hstate : c.state = .configuring
    · exact .inl (hfails.taken hstate)
    · rwa [Ok, if_neg hstate] at hok

/-- a call that is not in range shows it, as long as code 0 is free -/
theorem ok_of_step (hzero : t 0 = none) (hpast : result t c ≠ .past)
    (hrange : ∀ handler, result t c = .added handler → 1 ≤ handler.code.toNat)
    (hrefused : (∀ handler, result t c ≠ .added handler) → Refusable t c) : Ok t c := by
  unfold Ok
  split_ifs with hstate
  · by_cases hauto : c.code = AUTOMATIC
    · exact .inl hauto
    refine .inr ?_
    rcases add_handler_cases t c with ⟨code, new, hadds⟩ | hleaves | hfails
    · have hwhich := hadds.which
      rw [if_neg hauto] at hwhich
      have hone := hrange new hadds.added
      rw [hadds.own] at hone
      have hlt := code.isLt
      omega
    · exact absurd hleaves.past hpast
    · have htaken := hfails.taken hstate
      rw [Taken, if_neg hauto] at htaken
      obtain ⟨i, hi, hne⟩ := htaken
      have hpos : i.val ≠ 0 := fun h => hne (by rw [show i = 0 from Fin.ext h]; exact hzero)
      have hlt := i.isLt
      omega
  · apply hrefused
    rcases add_handler_cases t c with ⟨code, new, hadds⟩ | hleaves | hfails
    · exact absurd hadds.configuring hstate
    · exact absurd hleaves.configuring hstate
    · exact hfails.not_added

/-- **The registry.** It is kept as it should be if and only if every call of the run is in range. -/
theorem handlers_registered_iff (calls : List Call) :
    Registered calls ↔ ∀ pre c post, calls = pre ++ c :: post → Ok (run empty pre) c := by
  constructor
  · intro h pre c post hcalls
    have hzero : run empty pre 0 = none := by
      cases hentry : run empty pre 0 with
      | none => rfl
      | some handler =>
        -- the call that registered it returned code 0
        obtain ⟨pre', c', post', rfl, hadded, hcode⟩ := run_entry hentry
        have hone := (h.range pre' c' (post' ++ c :: post) handler (by rw [hcalls, List.append_assoc, List.cons_append]) hadded).1
        rw [hcode] at hone
        exact absurd hone (by decide)
    exact ok_of_step hzero (h.inside pre c post hcalls) (fun handler hadded => (h.range pre c post handler hcalls hadded).1)
      (h.fails pre c post hcalls)
  · intro h
    refine ⟨?_, ?_, ?_, (codes_distinct calls empty).2, ?_⟩
    · intro pre c post hcalls
      exact (ok_step (h pre c post hcalls)).1
    · intro pre post i handler hcalls hentry
      rw [hcalls, run_append]
      exact run_kept hentry
    · intro pre c post handler hcalls
      exact (ok_step (h pre c post hcalls)).2.1 handler
    · intro pre c post hcalls
      exact (ok_step (h pre c post hcalls)).2.2

end Run

/-- a call with the first code that is no byte -/
def large : Call := ⟨.configuring, none, none, 256, .do_nothing, none⟩

theorem large_not_registered : ¬∀ calls, Registered calls := by
  intro h
  exact (h [large]).inside [] large [] rfl rfl

end Shuttlesock.IpcHandlers
