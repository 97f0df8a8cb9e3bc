/-
Copying a graph depth first, with a memo table. Library: nothing here is about shuttlesock.

A node n has the fields `succ n`. A field v refers to a node (`ref v = some n`) or is a leaf. `leaf v w` says that w is
an acceptable copy of the leaf v, and `point a` is a reference to the copy a. The memo `copied` is filled in before the
fields of a node are copied, so that a cycle meets its own entry.
- `Copies g m vs m' ws`: copying the fields vs from the memo m gives the fields ws and the memo m'. A new node may get any
  copy that is not in use.
- `Copies.spec`: what a copy leaves as it is, and that the nodes that were entered are copied field by field.
- `Copies.iso`: copied from a memo without entries, the two graphs are related by a one-to-one relation on their nodes.
- `todo`: the nodes that have no copy yet; entering one of them makes it smaller, so a copier that recurses only there
  comes to an end.
-/
import Mathlib.Tactic

namespace Shuttlesock.GraphCopy

/-- how nodes, fields and leaves are copied -/
structure Rules (N M V W : Type*) where
  ref : V → Option N
  succ : N → List V
  leaf : V → W → Prop
  point : M → W

structure Memo (N M W : Type*) where
  copied : N → Option M
  out : M → List W

variable {N M V W : Type*}

/-- w is a copy of v: of the leaf, or of the node that v refers to -/
def Rules.Match (g : Rules N M V W) (R : N → M → Prop) (v : V) (w : W) : Prop :=
  match g.ref v with
  | none => g.leaf v w
  | some n => ∃ a, R n a ∧ w = g.point a

/-- related nodes have related fields; the relation is one-to-one -/
structure Rules.Iso (g : Rules N M V W) (out : M → List W) (R : N → M → Prop) : Prop where
  functional : ∀ n a b, R n a → R n b → a = b
  injective : ∀ n n' a, R n a → R n' a → n = n'
  fields : ∀ n a, R n a → List.Forall₂ (g.Match R) (g.succ n) (out a)

theorem Rules.Match.mono {g : Rules N M V W} {R S : N → M → Prop} (h : ∀ n a, R n a → S n a) {v : V} {w : W}
    (hm : g.Match R v w) : g.Match S v w := by
  unfold Rules.Match at hm ⊢
  cases hv : g.ref v with
  | none =>
    rw [hv] at hm
    exact hm
  | some n =>
    rw [hv] at hm
    obtain ⟨a, ha, hw⟩ := hm
    exact ⟨a, h n a ha, hw⟩

/-! ## Lists side by side -/

theorem forall₂_exists_left {α β : Type*} {R : α → β → Prop} {l : List α} {l' : List β} (h : List.Forall₂ R l l') {a : α}
    (ha : a ∈ l) : ∃ b ∈ l', R a b := by
  induction h with
  | nil => cases ha
  | @cons x y l l' hxy _ ih =>
    rcases List.mem_cons.1 ha with rfl | ha
    · exact ⟨y, List.mem_cons_self, hxy⟩
    · obtain ⟨b, hb, hab⟩ := ih ha
      exact ⟨b, List.mem_cons_of_mem y hb, hab⟩

theorem forall₂_exists_right {α β : Type*} {R : α → β → Prop} {l : List α} {l' : List β} (h : List.Forall₂ R l l')
    {b : β} (hb : b ∈ l') : ∃ a ∈ l, R a b :=
  forall₂_exists_left h.flip hb

theorem forall₂_comp {α β γ : Type*} {P : α → β → Prop} {Q : β → γ → Prop} {S : α → γ → Prop} {l : List α}
    {l' : List β} {l'' : List γ} (h1 : List.Forall₂ P l l') (h2 : List.Forall₂ Q l' l'')
    (h : ∀ a ∈ l, ∀ b c, P a b → Q b c → S a c) : List.Forall₂ S l l'' := by
  induction h1 generalizing l'' with
  | nil =>
    cases h2
    exact .nil
  | @cons a b l l' hab _ ih =>
    cases h2 with
    | cons hbc htail =>
      exact .cons (h a List.mem_cons_self b _ hab hbc) (ih htail fun x hx => h x (List.mem_cons_of_mem a hx))

/-! ## Memo tables -/

namespace Memo

/-- the copy of n -/
def Rel (m : Memo N M W) (n : N) (a : M) : Prop := m.copied n = some a

/-- no copy of two nodes -/
def Inj (m : Memo N M W) : Prop := ∀ n n' a, m.Rel n a → m.Rel n' a → n = n'

variable [DecidableEq N] [DecidableEq M]

def enter (m : Memo N M W) (n : N) (a : M) : Memo N M W := { m with copied := Function.update m.copied n (some a) }

def leave (m : Memo N M W) (a : M) (ws : List W) : Memo N M W := { m with out := Function.update m.out a ws }

omit [DecidableEq M] in
theorem enter_rel {m : Memo N M W} {n : N} {a : M} (hn : m.copied n = none) {n' : N} {b : M} :
    (m.enter n a).Rel n' b ↔ (n' = n ∧ b = a) ∨ m.Rel n' b := by
  unfold Rel enter
  by_cases h : n' = n
  · subst h
    simp [hn, eq_comm]
  · simp [h]

omit [DecidableEq M] in
theorem Inj.enter {m : Memo N M W} (h : m.Inj) {n : N} {a : M} (hn : m.copied n = none) (ha : ∀ n', ¬ m.Rel n' a) :
    (m.enter n a).Inj := by
  intro x y b hx hy
  rcases (enter_rel hn).1 hx with ⟨hxn, hba⟩ | hx'
  · rcases (enter_rel hn).1 hy with ⟨hyn, -⟩ | hy'
    · rw [hxn, hyn]
    · exact absurd (hba ▸ hy') (ha y)
  · rcases (enter_rel hn).1 hy with ⟨-, hba⟩ | hy'
    · exact absurd (hba ▸ hx') (ha x)
    · exact h x y b hx' hy'

end Memo

variable [DecidableEq N] [DecidableEq M]

inductive Copies (g : Rules N M V W) : Memo N M W → List V → Memo N M W → List W → Prop where
  | nil (m : Memo N M W) : Copies g m [] m []
  | leaf {m m' : Memo N M W} {v : V} {w : W} {vs : List V} {ws : List W} :
      g.ref v = none → g.leaf v w → Copies g m vs m' ws → Copies g m (v :: vs) m' (w :: ws)
  | seen {m m' : Memo N M W} {v : V} {n : N} {a : M} {vs : List V} {ws : List W} :
      g.ref v = some n → m.Rel n a → Copies g m vs m' ws → Copies g m (v :: vs) m' (g.point a :: ws)
  | new {m m₁ m' : Memo N M W} {v : V} {n : N} {a : M} {us : List W} {vs : List V} {ws : List W} :
      g.ref v = some n → m.copied n = none → (∀ n', ¬ m.Rel n' a) → Copies g (m.enter n a) (g.succ n) m₁ us →
        Copies g (m₁.leave a us) vs m' ws → Copies g m (v :: vs) m' (g.point a :: ws)

theorem Copies.append {g : Rules N M V W} {m m₁ m₂ : Memo N M W} {vs us : List V} {ws xs : List W}
    (h1 : Copies g m vs m₁ ws) (h2 : Copies g m₁ us m₂ xs) : Copies g m (vs ++ us) m₂ (ws ++ xs) := by
  induction h1 with
  | nil m => exact h2
  | leaf hv hl _ ih => exact .leaf hv hl (ih h2)
  | seen hv hr _ ih => exact .seen hv hr (ih h2)
  | new hv hn hfresh hin _ _ ih => exact .new hv hn hfresh hin (ih h2)

/-- what copying some fields does to the memo -/
structure Spec (g : Rules N M V W) (m : Memo N M W) (vs : List V) (m' : Memo N M W) (ws : List W) : Prop where
  keep : ∀ n a, m.Rel n a → m'.Rel n a ∧ m'.out a = m.out a
  inj : m'.Inj
  fields : List.Forall₂ (g.Match m'.Rel) vs ws
  entered : ∀ n a, m.copied n = none → m'.Rel n a → List.Forall₂ (g.Match m'.Rel) (g.succ n) (m'.out a)

omit [DecidableEq N] [DecidableEq M] in
theorem forall₂_mono {g : Rules N M V W} {m m' : Memo N M W} {vs : List V} {ws : List W}
    (h : ∀ n a, m.Rel n a → m'.Rel n a) (hf : List.Forall₂ (g.Match m.Rel) vs ws) :
    List.Forall₂ (g.Match m'.Rel) vs ws :=
  hf.imp fun _ _ hm => hm.mono h

theorem Copies.spec {g : Rules N M V W} {m m' : Memo N M W} {vs : List V} {ws : List W} (h : Copies g m vs m' ws)
    (hinj : m.Inj) : Spec g m vs m' ws := by
  induction h with
  | nil m =>
    refine ⟨fun n a ha => ⟨ha, rfl⟩, hinj, .nil, ?_⟩
    intro n a hn ha
    rw [Memo.Rel, hn] at ha
    cases ha
  | leaf hv hl _ ih =>
    obtain ⟨hkeep, hinj', hf, hent⟩ := ih hinj
    refine ⟨hkeep, hinj', .cons ?_ hf, hent⟩
    rw [Rules.Match, hv]
    exact hl
  | seen hv hr _ ih =>
    obtain ⟨hkeep, hinj', hf, hent⟩ := ih hinj
    refine ⟨hkeep, hinj', .cons ?_ hf, hent⟩
    rw [Rules.Match, hv]
    exact ⟨_, (hkeep _ _ hr).1, rfl⟩
  | @new m m₁ m' v n a us vs ws hv hn hfresh _ _ ih1 ih2 =>
    have hinj1 : (m.enter n a).Inj := hinj.enter hn hfresh
    obtain ⟨hkeep1, hinj1', hf1, hent1⟩ := ih1 hinj1
    have hleave : (m₁.leave a us).Inj := hinj1'
    obtain ⟨hkeep2, hinj2, hf2, hent2⟩ := ih2 hleave
    have hna : m₁.Rel n a := (hkeep1 n a ((Memo.enter_rel hn).2 (Or.inl ⟨rfl, rfl⟩))).1
    have hup : ∀ x b, m₁.Rel x b → m'.Rel x b := fun x b hx => (hkeep2 x b hx).1
    refine ⟨?_, hinj2, .cons ?_ hf2, ?_⟩
    · intro x b hx
      have hne : b ≠ a := by
        rintro rfl
        exact hfresh x hx
      have h1 := hkeep1 x b ((Memo.enter_rel hn).2 (Or.inr hx))
      have h2 := hkeep2 x b h1.1
      exact ⟨h2.1, h2.2.trans ((Function.update_of_ne hne _ _).trans h1.2)⟩
    · rw [Rules.Match, hv]
      exact ⟨a, hup n a hna, rfl⟩
    · intro x b hx hb
      by_cases hxn : x = n
      · -- the node itself: its fields are the ones that were just copied
        subst hxn
        have hba : b = a := Option.some.inj ((show m'.copied x = some b from hb).symm.trans (hup x a hna))
        subst hba
        rw [(hkeep2 x b hna).2]
        simp only [Memo.leave, Function.update_self]
        exact forall₂_mono hup hf1
      · cases hx1 : m₁.copied x with
        | none => exact hent2 x b hx1 hb
        | some c =>
          have hbc : b = c := Option.some.inj ((show m'.copied x = some b from hb).symm.trans (hup x c hx1))
          subst hbc
          have hnone : (m.enter n a).copied x = none := (Function.update_of_ne hxn _ _).trans hx
          have hne : b ≠ a := by
            rintro rfl
            exact hxn (hinj1' x n b hx1 hna)
          rw [(hkeep2 x b hx1).2]
          simp only [Memo.leave, Function.update_of_ne hne]
          exact forall₂_mono hup (hent1 x b hnone hx1)

/-- **The copy is isomorphic to the original.** -/
theorem Copies.iso {g : Rules N M V W} {m m' : Memo N M W} {vs : List V} {ws : List W} (h : Copies g m vs m' ws)
    (hm : ∀ n, m.copied n = none) : g.Iso m'.out m'.Rel ∧ List.Forall₂ (g.Match m'.Rel) vs ws := by
  have hinj : m.Inj := by
    intro n n' a hn _
    unfold Memo.Rel at hn
    rw [hm n] at hn
    cases hn
  have hs := h.spec hinj
  refine ⟨⟨?_, hs.inj, fun n a ha => hs.entered n a (hm n) ha⟩, hs.fields⟩
  intro n a b ha hb
  exact Option.some.inj ((show m'.copied n = some a from ha).symm.trans hb)

/-! ## Nodes without a copy -/

/-- the nodes of P that have no copy yet -/
def todo (P : Finset N) (copied : N → Option M) : Finset N := P.filter fun n => copied n = none

omit [DecidableEq M] in
theorem todo_enter {P : Finset N} {copied : N → Option M} {n : N} {a : M} (hP : n ∈ P) (hn : copied n = none) :
    (todo P (Function.update copied n (some a))).card < (todo P copied).card := by
  apply Finset.card_lt_card
  refine ⟨?_, ?_⟩
  · intro x hx
    obtain ⟨hxP, hx⟩ := Finset.mem_filter.1 hx
    by_cases hxn : x = n
    · subst hxn
      rw [Function.update_self] at hx
      cases hx
    · rw [Function.update_of_ne hxn] at hx
      exact Finset.mem_filter.2 ⟨hxP, hx⟩
  · intro hsub
    have hmem := hsub (Finset.mem_filter.2 ⟨hP, hn⟩)
    have := (Finset.mem_filter.1 hmem).2
    rw [Function.update_self] at this
    cases this

omit [DecidableEq N] [DecidableEq M] in
theorem todo_mono {P : Finset N} {copied copied' : N → Option M} (h : ∀ n a, copied n = some a → copied' n = some a) :
    (todo P copied').card ≤ (todo P copied).card := by
  apply Finset.card_le_card
  intro x hx
  obtain ⟨hxP, hx⟩ := Finset.mem_filter.1 hx
  refine Finset.mem_filter.2 ⟨hxP, ?_⟩
  cases hc : copied x with
  | none => rfl
  | some a =>
    rw [h x a hc] at hx
    cases hx

end Shuttlesock.GraphCopy
