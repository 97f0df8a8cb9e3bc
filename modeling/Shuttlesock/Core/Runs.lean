/-
Runs of a guarded transition system. Library: nothing here is about shuttlesock.

A system is `step : σ → α → Option σ`; `none` means that the action is not enabled in that state. A condition
`ok s a` speaks about the state before a step and the action taken there.
- `Reach step ok s₀ s`: some run from `s₀` whose steps all meet `ok` ends in `s`.
- `exec step s as`: the run of one schedule, `none` if an action of it is not enabled; `execIf` also tests the condition.
Rules: `Reach.inv` (an invariant kept by every step that meets `ok` holds in every state reached), `Reach.of_exec`
(a schedule that runs gives a reachable state), `Reach.of_execIf`, `exec_append`.
-/
import Mathlib.Tactic

namespace Shuttlesock.Runs

variable {σ α : Type*}

/-- the states that runs from `s₀` reach when every step meets `ok` -/
inductive Reach (step : σ → α → Option σ) (ok : σ → α → Prop) (s₀ : σ) : σ → Prop where
  | init : Reach step ok s₀ s₀
  | next {s t : σ} {a : α} : Reach step ok s₀ s → ok s a → step s a = some t → Reach step ok s₀ t

/-- no condition on the steps -/
def always : σ → α → Prop := fun _ _ => True

/-- run a schedule -/
def exec (step : σ → α → Option σ) : σ → List α → Option σ
  | s, [] => some s
  | s, a :: as => (step s a).bind fun t => exec step t as

theorem exec_cons (step : σ → α → Option σ) (s : σ) (a : α) (as : List α) :
    exec step s (a :: as) = (step s a).bind fun t => exec step t as := rfl

theorem exec_append (step : σ → α → Option σ) (s : σ) (as bs : List α) :
    exec step s (as ++ bs) = (exec step s as).bind fun t => exec step t bs := by
  induction as generalizing s with
  | nil => rfl
  | cons a as ih =>
    simp only [List.cons_append, exec_cons]
    cases step s a with
    | none => rfl
    | some t => simpa using ih t

theorem exec_trans {step : σ → α → Option σ} {s t u : σ} {as bs : List α} (h1 : exec step s as = some t)
    (h2 : exec step t bs = some u) : exec step s (as ++ bs) = some u := by
  rw [exec_append, h1]; exact h2

/-- **The invariant rule.** What holds at the start and is kept by every step that meets `ok` holds in every state
reached by such steps. -/
theorem Reach.inv {step : σ → α → Option σ} {ok : σ → α → Prop} {s₀ s : σ} {I : σ → Prop}
    (h : Reach step ok s₀ s) (h0 : I s₀) (hstep : ∀ s a t, I s → ok s a → step s a = some t → I t) : I s := by
  induction h with
  | init => exact h0
  | next _ hok hst ih => exact hstep _ _ _ ih hok hst

theorem Reach.trans {step : σ → α → Option σ} {ok : σ → α → Prop} {s t u : σ} (h1 : Reach step ok s t)
    (h2 : Reach step ok t u) : Reach step ok s u := by
  induction h2 with
  | init => exact h1
  | next _ hok hst ih => exact ih.next hok hst

/-- a weaker condition reaches at least as much -/
theorem Reach.mono {step : σ → α → Option σ} {ok ok' : σ → α → Prop} {s₀ s : σ} (h : Reach step ok s₀ s)
    (hok : ∀ s a, ok s a → ok' s a) : Reach step ok' s₀ s := by
  induction h with
  | init => exact .init
  | next _ h1 hst ih => exact ih.next (hok _ _ h1) hst

theorem Reach.exec {step : σ → α → Option σ} {s₀ s t : σ} {as : List α} (h : Reach step always s₀ s)
    (he : exec step s as = some t) : Reach step always s₀ t := by
  induction as generalizing s with
  | nil => cases he; exact h
  | cons a as ih =>
    rw [exec_cons] at he
    cases hs : step s a with
    | none => rw [hs] at he; cases he
    | some u => rw [hs] at he; exact ih (h.next trivial hs) he

theorem Reach.of_exec {step : σ → α → Option σ} {s₀ t : σ} {as : List α} (he : Runs.exec step s₀ as = some t) :
    Reach step always s₀ t :=
  Reach.exec .init he

/-- every step of a schedule meets `ok`, as far as it runs -/
def Along (step : σ → α → Option σ) (ok : σ → α → Prop) : σ → List α → Prop
  | _, [] => True
  | s, a :: as => ok s a ∧ ∀ t, step s a = some t → Along step ok t as

/-- actions that meet `ok` in every state -/
theorem along_of_forall {step : σ → α → Option σ} {ok : σ → α → Prop} {as : List α} (h : ∀ a ∈ as, ∀ s, ok s a) (s : σ) :
    Along step ok s as := by
  induction as generalizing s with
  | nil => trivial
  | cons a as ih =>
    exact ⟨h a List.mem_cons_self s, fun t _ => ih (fun b hb => h b (List.mem_cons_of_mem a hb)) t⟩

theorem Along.append {step : σ → α → Option σ} {ok : σ → α → Prop} {s : σ} {as bs : List α} (h : Along step ok s as)
    (hbs : ∀ t, exec step s as = some t → Along step ok t bs) : Along step ok s (as ++ bs) := by
  induction as generalizing s with
  | nil => exact hbs s rfl
  | cons a as ih =>
    refine ⟨h.1, fun t ht => ih (h.2 t ht) fun u hu => hbs u ?_⟩
    rw [exec_cons, ht]
    exact hu

theorem Reach.of_along {step : σ → α → Option σ} {ok : σ → α → Prop} {s₀ s t : σ} {as : List α}
    (h : Reach step ok s₀ s) (hok : Along step ok s as) (he : Runs.exec step s as = some t) : Reach step ok s₀ t := by
  induction as generalizing s with
  | nil => cases he; exact h
  | cons a as ih =>
    rw [exec_cons] at he
    cases hs : step s a with
    | none => rw [hs] at he; cases he
    | some u => rw [hs] at he; exact ih (h.next hok.1 hs) (hok.2 u hs) he

/-- a schedule that runs from s to t, every step of it meets `ok` -/
def Path (step : σ → α → Option σ) (ok : σ → α → Prop) (s : σ) (as : List α) (t : σ) : Prop :=
  exec step s as = some t ∧ Along step ok s as

theorem Path.nil {step : σ → α → Option σ} {ok : σ → α → Prop} (s : σ) : Path step ok s [] s := ⟨rfl, trivial⟩

theorem Path.cons {step : σ → α → Option σ} {ok : σ → α → Prop} {s t u : σ} {a : α} {as : List α} (hok : ok s a)
    (h : step s a = some t) (hp : Path step ok t as u) : Path step ok s (a :: as) u := by
  refine ⟨?_, hok, fun v hv => ?_⟩
  · rw [exec_cons, h]
    exact hp.1
  · rw [h] at hv
    cases hv
    exact hp.2

theorem Path.append {step : σ → α → Option σ} {ok : σ → α → Prop} {s t u : σ} {as bs : List α}
    (h1 : Path step ok s as t) (h2 : Path step ok t bs u) : Path step ok s (as ++ bs) u := by
  refine ⟨exec_trans h1.1 h2.1, h1.2.append fun v hv => ?_⟩
  obtain rfl := Option.some.inj (h1.1.symm.trans hv)
  exact h2.2

theorem Reach.path {step : σ → α → Option σ} {ok : σ → α → Prop} {s₀ s t : σ} {as : List α} (h : Reach step ok s₀ s)
    (hp : Path step ok s as t) : Reach step ok s₀ t :=
  h.of_along hp.2 hp.1

/-- run a schedule as far as its steps meet `ok` -/
def execIf (step : σ → α → Option σ) (ok : σ → α → Prop) [∀ s a, Decidable (ok s a)] : σ → List α → Option σ
  | s, [] => some s
  | s, a :: as => if ok s a then (step s a).bind fun t => execIf step ok t as else none

theorem Reach.of_execIf {step : σ → α → Option σ} {ok : σ → α → Prop} [∀ s a, Decidable (ok s a)] {s₀ s t : σ}
    {as : List α} (h : Reach step ok s₀ s) (he : execIf step ok s as = some t) : Reach step ok s₀ t := by
  induction as generalizing s with
  | nil => cases he; exact h
  | cons a as ih =>
    rw [execIf] at he
    split at he
    · rename_i hok
      obtain ⟨u, hs, he⟩ := Option.bind_eq_some_iff.1 he
      exact ih (h.next hok hs) he
    · cases he

end Shuttlesock.Runs
