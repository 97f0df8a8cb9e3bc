/-
Expanding calls in a list from the left: the first element that is a call is replaced by the body of what it calls, over and over,
until there is no call in front of an element that cannot be gone over. Library: nothing here is about shuttlesock.

Model: `role` tells of an element whether it stays, whether it cannot be gone over, or what it calls; `body` is what a call stands for.
`Step` is one replacement, `Visits` any number of them, and `Expands` the full expansion, told by recursion.

Results:
- `expands_iff`: the full expansion is what the replacements come to.
- `ends_iff`: with finitely many names, the replacements come to an end exactly when no call that is come to leads to a call of the
  same name again.
- `ends_of_acyclic`: they do when the bodies do not refer to each other in a circle.
-/
import Mathlib.Tactic

namespace Shuttlesock.Expand

open Relation (ReflTransGen TransGen)

inductive Role (κ : Type*) where
  | keep
  | stuck
  | call (x : κ)

section
variable {α κ : Type*} (role : α → Role κ) (body : κ → List α)

def Kept (l : List α) : Prop := ∀ t ∈ l, role t = .keep

/-- the leftmost call is replaced -/
inductive Step : List α → List α → Prop
  | call {a b : List α} {t : α} {x : κ} : Kept role a → role t = .call x → Step (a ++ t :: b) (a ++ (body x ++ b))

abbrev Visits : List α → List α → Prop := ReflTransGen (Step role body)

/-- there is no infinite run of replacements -/
def Ends (l : List α) : Prop := Acc (fun l' l => Step role body l l') l

/-- a call that is come to -/
def Reaches (l : List α) (x : κ) : Prop := ∃ a t b, Visits role body l (a ++ t :: b) ∧ Kept role a ∧ role t = .call x

/-- every call replaced by the expansion of its body -/
inductive Expands : List α → List α → Prop
  | nil : Expands [] []
  | keep {t : α} {l m : List α} : role t = .keep → Expands l m → Expands (t :: l) (t :: m)
  | call {t : α} {x : κ} {l m n : List α} : role t = .call x → Expands (body x) m → Expands l n → Expands (t :: l) (m ++ n)

def Refers (x y : κ) : Prop := ∃ t ∈ body x, role t = .call y

end

variable {α κ : Type*} {role : α → Role κ} {body : κ → List α} {a b l l' m p : List α} {t u : α} {x y : κ}

/-! ## Splitting at the first call -/

theorem kept_append : Kept role (a ++ b) ↔ Kept role a ∧ Kept role b := List.forall_mem_append

theorem kept_or_split (role : α → Role κ) (l : List α) :
    Kept role l ∨ ∃ a t b, l = a ++ t :: b ∧ Kept role a ∧ role t ≠ .keep := by
  induction l with
  | nil => exact .inl (by simp [Kept])
  | cons t l ih =>
    by_cases ht : role t = .keep
    · rcases ih with h | ⟨a, u, b, rfl, ha, hu⟩
      · exact .inl (List.forall_mem_cons.2 ⟨ht, h⟩)
      · exact .inr ⟨t :: a, u, b, rfl, List.forall_mem_cons.2 ⟨ht, ha⟩, hu⟩
    · exact .inr ⟨[], t, l, rfl, by simp [Kept], ht⟩

/-- an element that does not stay is behind all that is kept in front -/
theorem kept_front (ha : Kept role a) (ht : role t ≠ .keep) (h : a ++ b = l ++ t :: l') :
    ∃ c, l = a ++ c ∧ b = c ++ t :: l' := by
  rcases List.append_eq_append_iff.1 h with ⟨c, rfl, rfl⟩ | ⟨c, rfl, hc⟩
  · exact ⟨c, rfl, rfl⟩
  · cases c with
    | nil => exact ⟨[], by simp, by simpa using hc.symm⟩
    | cons u c =>
      obtain ⟨rfl, -⟩ := List.cons.inj hc
      exact absurd (ha t (by simp)) ht

theorem split_unique (ha : Kept role a) (ht : role t ≠ .keep) (hl : Kept role l) (hu : role u ≠ .keep)
    (h : a ++ t :: b = l ++ u :: l') : a = l ∧ t = u ∧ b = l' := by
  obtain ⟨c, rfl, hc⟩ := kept_front ha hu h
  cases c with
  | nil =>
    obtain ⟨rfl, rfl⟩ := List.cons.inj hc
    exact ⟨by simp, rfl, rfl⟩
  | cons v c =>
    obtain ⟨rfl, -⟩ := List.cons.inj hc
    exact absurd (hl t (by simp)) ht

theorem call_ne_keep (h : role t = .call x) : role t ≠ .keep := by
  simp [h]

/-! ## Replacements -/

theorem Step.unique (h : Step role body l l') (h' : Step role body l m) : l' = m := by
  obtain ⟨ha, ht⟩ := h
  generalize heq : _ ++ _ :: _ = l at h'
  obtain ⟨ha', ht'⟩ := h'
  obtain ⟨rfl, rfl, rfl⟩ := split_unique ha (call_ne_keep ht) ha' (call_ne_keep ht') heq
  rw [ht] at ht'
  cases ht'
  rfl

theorem Step.append (h : Step role body l l') (ha : Kept role a) (b : List α) : Step role body (a ++ (l ++ b)) (a ++ (l' ++ b)) := by
  cases h with
  | @call c d t x hc ht =>
    have hstep : Step role body (a ++ c ++ t :: (d ++ b)) (a ++ c ++ (body x ++ (d ++ b))) :=
      .call (kept_append.2 ⟨ha, hc⟩) ht
    simpa using hstep

theorem visits_append (h : Visits role body l l') (ha : Kept role a) (b : List α) :
    Visits role body (a ++ (l ++ b)) (a ++ (l' ++ b)) := by
  induction h with
  | refl => exact .refl
  | tail _ hstep ih => exact ih.tail (hstep.append ha b)

/-- behind the first replacement -/
theorem visits_step (h : Step role body l l') (hp : Visits role body l p) : p = l ∨ Visits role body l' p := by
  rcases Relation.ReflTransGen.cases_head hp with rfl | ⟨m, hm, hp⟩
  · exact .inl rfl
  · exact .inr (h.unique hm ▸ hp)

theorem kept_no_step (h : Kept role l) : ¬ Step role body l l' := by
  rintro ⟨-, ht⟩
  exact call_ne_keep ht (h _ (by simp))

theorem stuck_no_step (ha : Kept role a) (ht : role t = .stuck) : ¬ Step role body (a ++ t :: b) l' := by
  intro h
  generalize heq : a ++ t :: b = l at h
  obtain ⟨hc, hu⟩ := h
  obtain ⟨-, rfl, -⟩ := split_unique ha (by simp [ht]) hc (call_ne_keep hu) heq
  rw [ht] at hu
  cases hu

theorem reaches_of_visits (h : Visits role body l l') (hr : Reaches role body l' x) : Reaches role body l x := by
  obtain ⟨a, t, b, hv, ha, ht⟩ := hr
  exact ⟨a, t, b, h.trans hv, ha, ht⟩

theorem reaches_append (hr : Reaches role body l x) (ha : Kept role a) (b : List α) : Reaches role body (a ++ (l ++ b)) x := by
  obtain ⟨c, t, d, hv, hc, ht⟩ := hr
  refine ⟨a ++ c, t, d ++ b, ?_, kept_append.2 ⟨ha, hc⟩, ht⟩
  simpa using visits_append hv ha b

/-- what is come to from the body of a call -/
theorem reaches_body (hr : Reaches role body l x) (hx : Reaches role body (body x) y) : Reaches role body l y := by
  obtain ⟨a, t, b, hv, ha, ht⟩ := hr
  exact reaches_of_visits (hv.tail (.call ha ht)) (reaches_append hx ha b)

/-! ## The full expansion -/

theorem expands_append : Expands role body (a ++ b) m ↔
    ∃ m₁ m₂, m = m₁ ++ m₂ ∧ Expands role body a m₁ ∧ Expands role body b m₂ := by
  constructor
  · intro h
    induction a generalizing m with
    | nil => exact ⟨[], m, rfl, .nil, h⟩
    | cons t a ih =>
      cases h with
      | keep ht h =>
        obtain ⟨m₁, m₂, rfl, h₁, h₂⟩ := ih h
        exact ⟨t :: m₁, m₂, rfl, .keep ht h₁, h₂⟩
      | call ht hbody h =>
        obtain ⟨m₁, m₂, rfl, h₁, h₂⟩ := ih h
        exact ⟨_, m₂, (List.append_assoc _ _ _).symm, .call ht hbody h₁, h₂⟩
  · rintro ⟨m₁, m₂, rfl, h₁, h₂⟩
    induction h₁ with
    | nil => exact h₂
    | keep ht _ ih => exact .keep ht ih
    | call ht hbody _ _ ih =>
      rw [List.append_assoc]
      exact .call ht hbody ih

theorem expands_kept (h : Kept role l) : Expands role body l l := by
  induction l with
  | nil => exact .nil
  | cons t l ih =>
    obtain ⟨ht, hl⟩ := List.forall_mem_cons.1 h
    exact .keep ht (ih hl)

/-- a replacement leaves the expansion -/
theorem Step.expands (h : Step role body l l') (hm : Expands role body l' m) : Expands role body l m := by
  obtain ⟨-, ht⟩ := h
  obtain ⟨m₁, m₂, rfl, h₁, h₂⟩ := expands_append.1 hm
  obtain ⟨m₂, m₃, rfl, h₂, h₃⟩ := expands_append.1 h₂
  exact expands_append.2 ⟨m₁, m₂ ++ m₃, rfl, h₁, .call ht h₂ h₃⟩

/-- **The replacements come to the expansion** -/
theorem expands_iff : Expands role body l m ↔ Visits role body l m ∧ Kept role m := by
  constructor
  · intro h
    induction h with
    | nil => exact ⟨.refl, by simp [Kept]⟩
    | @keep t l m ht _ ih =>
      have hv : Visits role body ([t] ++ (l ++ [])) ([t] ++ (m ++ [])) := visits_append ih.1 (by simpa [Kept] using ht) []
      exact ⟨by simpa using hv, List.forall_mem_cons.2 ⟨ht, ih.2⟩⟩
    | @call t x l m n ht _ _ ihm ihn =>
      have hfirst : Visits role body ([] ++ (body x ++ l)) ([] ++ (m ++ l)) := visits_append ihm.1 (by simp [Kept]) l
      have hrest : Visits role body (m ++ (l ++ [])) (m ++ (n ++ [])) := visits_append ihn.1 ihm.2 []
      have hstep : Step role body ([] ++ t :: l) ([] ++ (body x ++ l)) := .call (by simp [Kept]) ht
      refine ⟨.head hstep (hfirst.trans ?_), kept_append.2 ⟨ihm.2, ihn.2⟩⟩
      simpa using hrest
  · rintro ⟨hv, hm⟩
    induction hv using Relation.ReflTransGen.head_induction_on with
    | refl => exact expands_kept hm
    | head hstep _ ih => exact hstep.expands ih

/-- whatever is visited leads to the expansion -/
theorem visits_kept (hm : Visits role body l m) (hk : Kept role m) (h : Visits role body l p) : Visits role body p m := by
  induction h using Relation.ReflTransGen.head_induction_on with
  | refl => exact hm
  | head hstep _ ih =>
    rcases visits_step hstep hm with rfl | hm
    · exact absurd hstep (kept_no_step hk)
    · exact ih hm

/-- on the way to the expansion nothing is stuck -/
theorem expands_not_stuck (h : Expands role body l m) (hv : Visits role body l (a ++ t :: b)) (ha : Kept role a) :
    role t ≠ .stuck := by
  intro ht
  obtain ⟨hm, hk⟩ := expands_iff.1 h
  rcases Relation.ReflTransGen.cases_head (visits_kept hm hk hv) with rfl | ⟨p, hp, -⟩
  · have hkeep := hk t (by simp)
    rw [ht] at hkeep
    cases hkeep
  · exact stuck_no_step ha ht hp

/-! ## Coming to an end -/

theorem ends_of_step (h : Step role body l l') (he : Ends role body l') : Ends role body l :=
  Acc.intro l fun _ hm => h.unique hm ▸ he

theorem Ends.visits (he : Ends role body l) (h : Visits role body l p) : Ends role body p := by
  induction h with
  | refl => exact he
  | tail _ hstep ih => exact ih.inv hstep

theorem ends_kept (ha : Kept role a) (he : Ends role body b) : Ends role body (a ++ b) := by
  induction he with
  | intro b _ ih =>
    refine Acc.intro _ fun l hl => ?_
    generalize heq : a ++ b = l₀ at hl
    cases hl with
    | @call c d t x hc ht =>
      obtain ⟨e, rfl, rfl⟩ := kept_front ha (call_ne_keep ht) heq
      rw [List.append_assoc]
      exact ih _ (.call (kept_append.1 hc).2 ht)

/-- the rest has to end when the front has come to its end without being stuck -/
theorem ends_append (ha : Ends role body a) (h : ∀ m, Visits role body a m → Kept role m → Ends role body b) :
    Ends role body (a ++ b) := by
  induction ha with
  | intro a _ ih =>
    rcases kept_or_split role a with hk | ⟨c, t, d, rfl, hc, ht⟩
    · exact ends_kept hk (h a .refl hk)
    · cases hr : role t with
      | keep => exact absurd hr ht
      | stuck =>
        rw [List.append_assoc]
        exact Acc.intro _ fun l hl => absurd hl (stuck_no_step hc hr)
      | call x =>
        have hstep : Step role body (c ++ t :: d) (c ++ (body x ++ d)) := .call hc hr
        have hnext : Step role body ([] ++ ((c ++ t :: d) ++ b)) ([] ++ ((c ++ (body x ++ d)) ++ b)) :=
          hstep.append (by simp [Kept]) b
        exact ends_of_step hnext (ih _ hstep fun m hm => h m (.head hstep hm))

theorem ends_of_reached (h : ∀ x, Reaches role body l x → Ends role body (body x)) : Ends role body l := by
  induction l with
  | nil => exact Acc.intro _ fun l hl => absurd hl (kept_no_step (by simp [Kept]))
  | cons t l ih =>
    cases ht : role t with
    | keep =>
      have hkept : Kept role [t] := by simpa [Kept] using ht
      refine ends_kept (a := [t]) hkept (ih fun x hx => h x ?_)
      simpa using reaches_append hx hkept []
    | stuck => exact Acc.intro _ fun m hm => absurd hm (stuck_no_step (a := []) (by simp [Kept]) ht)
    | call x =>
      have hnil : Kept role [] := by simp [Kept]
      have hstep : Step role body ([] ++ t :: l) ([] ++ (body x ++ l)) := .call hnil ht
      have hbody : Ends role body (body x) := h x ⟨[], t, l, .refl, hnil, ht⟩
      have hrest : Ends role body (body x ++ l) := ends_append hbody fun m hm hk => ih fun y hy => h y ?_
      · exact ends_of_step hstep hrest
      have hfront : Visits role body ([] ++ (body x ++ l)) ([] ++ (m ++ l)) := visits_append hm hnil l
      refine reaches_of_visits (.head hstep hfront) ?_
      simpa using reaches_append hy hk []

theorem reached_finite (hfin : {x | ∃ t, role t = .call x}.Finite) (l : List α) : {x | Reaches role body l x}.Finite :=
  hfin.subset fun _ ⟨_, t, _, _, _, ht⟩ => ⟨t, ht⟩

/-- the body of a name that does not lead to itself: fewer names are come to from those that are called there -/
theorem ends_body (hfin : {x | ∃ t, role t = .call x}.Finite) (n : ℕ) (hn : {y | Reaches role body (body x) y}.ncard ≤ n)
    (h : ∀ y, Reaches role body (body x) y → ¬ Reaches role body (body y) y) : Ends role body (body x) := by
  induction n using Nat.strong_induction_on generalizing x with
  | _ n ih =>
    refine ends_of_reached fun y hy => ?_
    have hsub : {z | Reaches role body (body y) z} ⊂ {z | Reaches role body (body x) z} := by
      refine ⟨fun z hz => reaches_body hy hz, fun hback => ?_⟩
      exact h y hy (hback hy)
    have hlt := Set.ncard_lt_ncard hsub (reached_finite hfin (body x))
    exact ih _ (hlt.trans_le hn) le_rfl fun z hz => h z (reaches_body hy hz)

/-- a call that leads to a call of the same name is come to again and again -/
theorem not_ends_loop (hx : Reaches role body (body x) x) (ha : Kept role a) (ht : role t = .call x) :
    ¬ Ends role body (a ++ t :: b) := by
  intro he
  obtain ⟨c, u, d, hv, hc, hu⟩ := hx
  have hacc := Acc.transGen he
  clear he
  generalize heq : a ++ t :: b = l at hacc
  induction hacc generalizing a t b with
  | intro l _ ih =>
    have hagain : TransGen (Step role body) (a ++ t :: b) (a ++ ((c ++ u :: d) ++ b)) :=
      TransGen.head' (.call ha ht) (visits_append hv ha b)
    rw [heq] at hagain
    exact ih _ (Relation.transGen_swap.2 hagain) (kept_append.2 ⟨ha, hc⟩) hu (b := d ++ b) (by simp)

/-- **The end of the replacements** -/
theorem ends_iff (hfin : {x | ∃ t, role t = .call x}.Finite) (l : List α) :
    Ends role body l ↔ ∀ x, Reaches role body l x → ¬ Reaches role body (body x) x := by
  constructor
  · rintro he x ⟨a, t, b, hv, ha, ht⟩ hx
    exact not_ends_loop hx ha ht (he.visits hv)
  · intro h
    refine ends_of_reached fun x hx => ends_body hfin _ le_rfl fun y hy => ?_
    exact h y (reaches_body hx hy)

/-! ## Bodies that refer to no circle -/

/-- a call that is come to stands in the list, or in a body that is referred to from there -/
theorem reaches_refers (h : Reaches role body l y) :
    ∃ t ∈ l, ∃ x, role t = .call x ∧ ReflTransGen (Refers role body) x y := by
  obtain ⟨a, t, b, hv, -, ht⟩ := h
  have hmem : t ∈ a ++ t :: b := by simp
  generalize a ++ t :: b = p at hv hmem
  induction hv generalizing t y with
  | refl => exact ⟨t, hmem, y, ht, .refl⟩
  | tail _ hstep ih =>
    obtain ⟨-, hu⟩ := hstep
    simp only [List.mem_append] at hmem
    rcases hmem with hmem | hmem | hmem
    · exact ih t ht (by simp [hmem])
    · obtain ⟨v, hv, x, hx, hr⟩ := ih _ hu (by simp)
      exact ⟨v, hv, x, hx, hr.tail ⟨t, hmem, ht⟩⟩
    · exact ih t ht (by simp [hmem])

theorem ends_of_acyclic (hfin : {x | ∃ t, role t = .call x}.Finite) (h : ∀ x, ¬ TransGen (Refers role body) x x) (l : List α) :
    Ends role body l := by
  refine (ends_iff hfin l).2 fun x _ hx => ?_
  obtain ⟨t, ht, y, hy, hr⟩ := reaches_refers hx
  exact h x (TransGen.head' ⟨t, ht, hy⟩ hr)

end Shuttlesock.Expand
