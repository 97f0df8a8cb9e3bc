/-
Searching a graph with marks. Library: nothing here is about shuttlesock.

A node n leads to the nodes `succ n`, unless it is one of those where the search stops. A search marks what it has found.
- `Reach succ stop v n`: n is reached from v, through nodes where the search does not stop.
- `Found succ good M vs M'`: from the marks M, the nodes vs are found and the marks are M'. A node that was marked on the way is good,
  and what it leads to is marked.
- `Settled f a`: with enough fuel, f gives a.

Results:
- `Found.clean`: from no marks but those where the search stops, all that is reached is good.
- `unmarked_enter`, `unmarked_mono`: the nodes without a mark, which become fewer.
-/
import Mathlib.Tactic

namespace Shuttlesock.Search

variable {N : Type*} {succ : N → List N} {stop good : N → Prop}

/-! ## Fuel -/

def Settled {A : Type*} (f : ℕ → A) (a : A) : Prop := ∃ depth, ∀ fuel ≥ depth, f fuel = a

theorem Settled.const {A : Type*} (a : A) : Settled (fun _ => a) a := ⟨0, fun _ _ => rfl⟩

theorem Settled.unique {A : Type*} {f : ℕ → A} {a b : A} (ha : Settled f a) (hb : Settled f b) : a = b := by
  obtain ⟨n, hn⟩ := ha
  obtain ⟨m, hm⟩ := hb
  rw [← hn (max n m) (le_max_left n m), hm (max n m) (le_max_right n m)]

/-- one step more -/
theorem Settled.later {A : Type*} {f : ℕ → A} {a : A} (h : Settled (fun n => f (n + 1)) a) : Settled f a := by
  obtain ⟨n, hn⟩ := h
  refine ⟨n + 1, fun fuel hfuel => ?_⟩
  obtain ⟨k, rfl⟩ := Nat.exists_eq_succ_of_ne_zero (Nat.ne_of_gt (lt_of_lt_of_le (Nat.succ_pos n) hfuel))
  exact hn k (Nat.le_of_succ_le_succ hfuel)

/-! ## What is reached -/

inductive Reach (succ : N → List N) (stop : N → Prop) : N → N → Prop where
  | refl (v : N) : Reach succ stop v v
  | step {v w n : N} : ¬ stop v → w ∈ succ v → Reach succ stop w n → Reach succ stop v n

/-- one node further -/
theorem Reach.tail {v n w : N} (h : Reach succ stop v n) (hn : ¬ stop n) (hw : w ∈ succ n) : Reach succ stop v w := by
  induction h with
  | refl v => exact .step hn hw (.refl w)
  | step hstop hmem _ ih => exact .step hstop hmem (ih hn hw)

/-- a set of nodes that is closed under steps -/
theorem Reach.closed {S : N → Prop} {v n : N} (h : Reach succ stop v n) (hv : S v)
    (hS : ∀ n, S n → ¬ stop n → ∀ w ∈ succ n, S w) : S n := by
  induction h with
  | refl v => exact hv
  | step hnot hw _ ih => exact ih (hS _ hv hnot _ hw)

/-- something that is not good is reached -/
def Hits (succ : N → List N) (stop good : N → Prop) (v : N) : Prop := ∃ n, Reach succ stop v n ∧ ¬ stop n ∧ ¬ good n

theorem Hits.step {v w : N} (hstop : ¬ stop v) (hw : w ∈ succ v) (h : Hits succ stop good w) : Hits succ stop good v := by
  obtain ⟨n, hreach, hn⟩ := h
  exact ⟨n, .step hstop hw hreach, hn⟩

/-! ## What a search finds -/

structure Found (succ : N → List N) (good : N → Prop) (M : N → Prop) (vs : List N) (M' : N → Prop) : Prop where
  mono : ∀ n, M n → M' n
  seen : ∀ v ∈ vs, M' v
  closed : ∀ n, M' n → ¬ M n → good n ∧ ∀ w ∈ succ n, M' w

theorem Found.refl {M : N → Prop} {vs : List N} (h : ∀ v ∈ vs, M v) : Found succ good M vs M :=
  ⟨fun _ hn => hn, h, fun _ hn hnot => absurd hn hnot⟩

theorem Found.append {M M₁ M₂ : N → Prop} {vs ws : List N} (h1 : Found succ good M vs M₁) (h2 : Found succ good M₁ ws M₂) :
    Found succ good M (vs ++ ws) M₂ := by
  refine ⟨fun n hn => h2.mono n (h1.mono n hn), ?_, ?_⟩
  · intro v hv
    rcases List.mem_append.1 hv with hv | hv
    · exact h2.mono v (h1.seen v hv)
    · exact h2.seen v hv
  · intro n hn hnot
    by_cases h : M₁ n
    · obtain ⟨hgood, hsucc⟩ := h1.closed n h hnot
      exact ⟨hgood, fun w hw => h2.mono w (hsucc w hw)⟩
    · exact h2.closed n hn h

theorem Found.subset {M M' : N → Prop} {vs ws : List N} (h : Found succ good M vs M') (hsub : ∀ w ∈ ws, w ∈ vs) :
    Found succ good M ws M' := ⟨h.mono, fun w hw => h.seen w (hsub w hw), h.closed⟩

/-- a node that is marked before what it leads to -/
theorem Found.enter {M M₁ M' : N → Prop} {v : N} (h : Found succ good M₁ (succ v) M') (hM : ∀ n, M₁ n ↔ M n ∨ n = v)
    (hgood : good v) : Found succ good M [v] M' := by
  refine ⟨fun n hn => h.mono n ((hM n).2 (.inl hn)), ?_, ?_⟩
  · intro w hw
    rw [List.mem_singleton.1 hw]
    exact h.mono v ((hM v).2 (.inr rfl))
  · intro n hn hnot
    by_cases hv : n = v
    · rw [hv]
      exact ⟨hgood, h.seen⟩
    · refine h.closed n hn fun h₁ => ?_
      exact ((hM n).1 h₁).elim hnot hv

/-- a node that is marked after what it leads to -/
theorem Found.leave {M M₁ M' : N → Prop} {v : N} (h : Found succ good M (succ v) M₁) (hM : ∀ n, M' n ↔ M₁ n ∨ n = v)
    (hgood : good v) : Found succ good M [v] M' := by
  refine ⟨fun n hn => (hM n).2 (.inl (h.mono n hn)), ?_, ?_⟩
  · intro w hw
    rw [List.mem_singleton.1 hw]
    exact (hM v).2 (.inr rfl)
  · intro n hn hnot
    rcases (hM n).1 hn with h₁ | rfl
    · obtain ⟨hg, hsucc⟩ := h.closed n h₁ hnot
      exact ⟨hg, fun w hw => (hM w).2 (.inl (hsucc w hw))⟩
    · exact ⟨hgood, fun w hw => (hM w).2 (.inl (h.seen w hw))⟩

/-- **All that is reached is good.** -/
theorem Found.clean {M' : N → Prop} {vs : List N} (h : Found succ good stop vs M') {v : N} (hv : v ∈ vs) :
    ¬ Hits succ stop good v := by
  rintro ⟨n, hreach, hstop, hbad⟩
  have hmarked : M' n := hreach.closed (h.seen v hv) fun n hn hnot => (h.closed n hn hnot).2
  exact hbad (h.closed n hmarked hstop).1

/-! ## Nodes without a mark -/

noncomputable def unmarked (M : N → Prop) : ℕ := {n | ¬ M n}.ncard

variable [Finite N]

theorem unmarked_mono {M M' : N → Prop} (h : ∀ n, M n → M' n) : unmarked M' ≤ unmarked M :=
  Set.ncard_le_ncard fun n hn hM => hn (h n hM)

theorem unmarked_enter {M M' : N → Prop} {v : N} (hM : ∀ n, M' n ↔ M n ∨ n = v) (hv : ¬ M v) : unmarked M' < unmarked M := by
  refine Set.ncard_lt_ncard ⟨fun n hn h => hn ((hM n).2 (.inl h)), fun hsub => ?_⟩ (Set.toFinite _)
  exact hsub (show v ∈ {n | ¬ M n} from hv) ((hM v).2 (.inr rfl))

end Shuttlesock.Search
