/-
A table of references with a free list, and the owners of its references. Library: nothing here is about shuttlesock.

`ref v` stores v under an integer that is not in use and returns it; `unref r` gives r back. An integer that was given back
is handed out again before a new one is.
- `Live R r`: r was handed out and not given back.
- `Moves R a R' b`: what one owner may do to the table, where a is the reference it holds before and b the one it holds
  after: the other live references keep their values, and b is a or was not in use.
- `Separate R o`: the references o of many owners are live and different.
- `Shift`, `Owners`: the same, where every value in the table is that of an owner.

Results:
- `ref_moves`, `unref_moves`, `Moves.refl`, `Moves.trans`: taking a reference and giving back one's own are moves.
- `Separate.move`: the move of one owner keeps the owners separate, and `Separate.slot` the values of the others.
- `ref_unref_shift`: a reference is replaced. `Owners.move`: no value loses its owner.
-/
import Mathlib.Tactic

namespace Shuttlesock.Refs

structure Table (α : Type*) where
  top : ℕ
  slot : ℕ → Option α
  free : List ℕ

variable {α ι : Type*}

def Table.ref (R : Table α) (v : α) : Table α × ℕ :=
  match R.free with
  | [] => ({ R with top := R.top + 1, slot := Function.update R.slot (R.top + 1) (some v) }, R.top + 1)
  | r :: free => ({ R with slot := Function.update R.slot r (some v), free := free }, r)

def Table.unref (R : Table α) (r : ℕ) : Table α :=
  { R with slot := Function.update R.slot r none, free := r :: R.free }

def Table.Live (R : Table α) (r : ℕ) : Prop := r ≤ R.top ∧ r ∉ R.free

/-- the free list has no integer twice and none that was never handed out -/
structure Table.Wf (R : Table α) : Prop where
  nodup : R.free.Nodup
  le : ∀ r ∈ R.free, r ≤ R.top

/-! ## One operation -/

theorem ref_slot (R : Table α) (v : α) : (R.ref v).1.slot (R.ref v).2 = some v := by
  unfold Table.ref
  split <;> simp

theorem ref_slot_ne {R : Table α} (v : α) {q : ℕ} (hq : q ≠ (R.ref v).2) : (R.ref v).1.slot q = R.slot q := by
  unfold Table.ref at hq ⊢
  split at hq <;> exact Function.update_of_ne hq ..

theorem ref_fresh (R : Table α) (v : α) : ¬ R.Live (R.ref v).2 := by
  unfold Table.ref
  split
  · rintro ⟨hle, -⟩
    exact absurd hle (Nat.not_succ_le_self _)
  · rename_i r free hfree
    rintro ⟨-, hnot⟩
    exact hnot (hfree ▸ List.mem_cons_self)

theorem ref_live {R : Table α} (h : R.Wf) (v : α) : (R.ref v).1.Live (R.ref v).2 := by
  unfold Table.ref
  split
  · rename_i hfree
    exact ⟨le_rfl, by rw [hfree]; exact List.not_mem_nil⟩
  · rename_i r free hfree
    have hnd := h.nodup
    rw [hfree, List.nodup_cons] at hnd
    exact ⟨h.le r (hfree ▸ List.mem_cons_self), hnd.1⟩

theorem ref_wf {R : Table α} (h : R.Wf) (v : α) : (R.ref v).1.Wf := by
  unfold Table.ref
  split
  · exact ⟨h.nodup, fun r hr => (h.le r hr).trans (Nat.le_succ _)⟩
  · rename_i r free hfree
    have hnd := h.nodup
    rw [hfree, List.nodup_cons] at hnd
    exact ⟨hnd.2, fun q hq => h.le q (hfree ▸ List.mem_cons_of_mem r hq)⟩

theorem ref_keeps {R : Table α} (v : α) {q : ℕ} (hq : R.Live q) :
    (R.ref v).1.Live q ∧ (R.ref v).1.slot q = R.slot q := by
  unfold Table.ref
  split
  · have hne : q ≠ R.top + 1 := fun he => absurd (he ▸ hq.1) (Nat.not_succ_le_self _)
    exact ⟨⟨hq.1.trans (Nat.le_succ _), hq.2⟩, Function.update_of_ne hne _ _⟩
  · rename_i r free hfree
    have hnot : q ∉ r :: free := hfree ▸ hq.2
    rw [List.mem_cons, not_or] at hnot
    exact ⟨⟨hq.1, hnot.2⟩, Function.update_of_ne hnot.1 _ _⟩

theorem unref_wf {R : Table α} (h : R.Wf) {r : ℕ} (hr : R.Live r) : (R.unref r).Wf := by
  refine ⟨List.nodup_cons.2 ⟨hr.2, h.nodup⟩, ?_⟩
  intro q hq
  rcases List.mem_cons.1 hq with rfl | hq
  · exact hr.1
  · exact h.le q hq

theorem unref_keeps {R : Table α} {r q : ℕ} (hne : q ≠ r) (hq : R.Live q) :
    (R.unref r).Live q ∧ (R.unref r).slot q = R.slot q :=
  ⟨⟨hq.1, fun hm => (List.mem_cons.1 hm).elim hne hq.2⟩, Function.update_of_ne hne _ _⟩

/-! ## One owner -/

structure Moves (R : Table α) (a : Option ℕ) (R' : Table α) (b : Option ℕ) : Prop where
  wf : R'.Wf
  keeps : ∀ q, R.Live q → a ≠ some q → R'.Live q ∧ R'.slot q = R.slot q
  fresh : ∀ q, b = some q → a = some q ∨ ¬ R.Live q
  live : ∀ q, b = some q → R'.Live q

theorem Moves.refl {R : Table α} {a : Option ℕ} (h : R.Wf) (ha : ∀ q, a = some q → R.Live q) : Moves R a R a :=
  ⟨h, fun _ hq _ => ⟨hq, rfl⟩, fun _ hb => .inl hb, ha⟩

theorem Moves.trans {R R' R'' : Table α} {a b c : Option ℕ} (h1 : Moves R a R' b) (h2 : Moves R' b R'' c) :
    Moves R a R'' c := by
  -- a live reference that is not the one held before is not the one held in between either
  have hmid : ∀ q, R.Live q → a ≠ some q → b ≠ some q := by
    intro q hq ha hb
    rcases h1.fresh q hb with h | h
    · exact ha h
    · exact h hq
  refine ⟨h2.wf, ?_, ?_, h2.live⟩
  · intro q hq ha
    have hk1 := h1.keeps q hq ha
    have hk2 := h2.keeps q hk1.1 (hmid q hq ha)
    exact ⟨hk2.1, hk2.2.trans hk1.2⟩
  · intro q hc
    by_cases ha : a = some q
    · exact .inl ha
    · refine .inr fun hq => ?_
      rcases h2.fresh q hc with h | h
      · exact hmid q hq ha h
      · exact h (h1.keeps q hq ha).1

/-- an owner may forget its reference -/
theorem Moves.drop {R R' : Table α} {a b : Option ℕ} (h : Moves R a R' b) : Moves R a R' none :=
  ⟨h.wf, h.keeps, fun q hq => (by cases hq), fun q hq => by cases hq⟩

theorem ref_moves {R : Table α} (h : R.Wf) (v : α) : Moves R none (R.ref v).1 (some (R.ref v).2) := by
  refine ⟨ref_wf h v, fun q hq _ => ref_keeps v hq, ?_, ?_⟩
  · intro q hq
    cases hq
    exact .inr (ref_fresh R v)
  · intro q hq
    cases hq
    exact ref_live h v

theorem unref_moves {R : Table α} (h : R.Wf) {r : ℕ} (hr : R.Live r) : Moves R (some r) (R.unref r) none := by
  refine ⟨unref_wf h hr, ?_, fun q hq => (by cases hq), fun q hq => by cases hq⟩
  intro q hq hne
  exact unref_keeps (fun he => hne (he ▸ rfl)) hq

/-! ## Many owners -/

structure Separate (R : Table α) (o : ι → Option ℕ) : Prop where
  live : ∀ i r, o i = some r → R.Live r
  inj : ∀ i j r, o i = some r → o j = some r → i = j

theorem Separate.slot {R R' : Table α} {o : ι → Option ℕ} {b : Option ℕ} {i j : ι} (h : Separate R o)
    (hm : Moves R (o i) R' b) (hij : j ≠ i) {r : ℕ} (hr : o j = some r) : R'.slot r = R.slot r :=
  (hm.keeps r (h.live j r hr) fun hi => hij (h.inj j i r hr hi)).2

theorem Separate.move [DecidableEq ι] {R R' : Table α} {o : ι → Option ℕ} {b : Option ℕ} {i : ι} (h : Separate R o)
    (hm : Moves R (o i) R' b) : Separate R' (Function.update o i b) := by
  have hother : ∀ j r, j ≠ i → o j = some r → R'.Live r ∧ b ≠ some r := by
    intro j r hj hr
    have hi : o i ≠ some r := fun hi => hj (h.inj j i r hr hi)
    refine ⟨(hm.keeps r (h.live j r hr) hi).1, fun hb => ?_⟩
    rcases hm.fresh r hb with hfr | hfr
    · exact hi hfr
    · exact hfr (h.live j r hr)
  constructor
  · intro j r hr
    by_cases hj : j = i
    · subst hj
      rw [Function.update_self] at hr
      exact hm.live r hr
    · rw [Function.update_of_ne hj] at hr
      exact (hother j r hj hr).1
  · intro j k r hr hk
    by_cases hj : j = i
    · by_cases hki : k = i
      · rw [hj, hki]
      · subst hj
        rw [Function.update_self] at hr
        rw [Function.update_of_ne hki] at hk
        exact absurd hr (hother k r hki hk).2
    · rw [Function.update_of_ne hj] at hr
      by_cases hki : k = i
      · subst hki
        rw [Function.update_self] at hk
        exact absurd hk (hother j r hj hr).2
      · rw [Function.update_of_ne hki] at hk
        exact h.inj j k r hr hk

/-! ## Every value has an owner -/

/-- the move of one owner, which also leaves no value behind -/
structure Shift (R : Table α) (a : Option ℕ) (R' : Table α) (b : Option ℕ) : Prop extends Moves R a R' b where
  adds : ∀ q v, R'.slot q = some v → b = some q ∨ a ≠ some q ∧ R.slot q = some v

theorem Shift.refl {R : Table α} (h : R.Wf) {a : Option ℕ} (ha : ∀ q, a = some q → R.Live q) : Shift R a R a := by
  refine ⟨Moves.refl h ha, fun q v hv => ?_⟩
  by_cases hq : a = some q
  · exact .inl hq
  · exact .inr ⟨hq, hv⟩

theorem ref_shift {R : Table α} (h : R.Wf) (v : α) : Shift R none (R.ref v).1 (some (R.ref v).2) := by
  refine ⟨ref_moves h v, fun q w hw => ?_⟩
  by_cases hq : q = (R.ref v).2
  · exact .inl (hq ▸ rfl)
  · rw [ref_slot_ne v hq] at hw
    exact .inr ⟨Option.some_ne_none q ∘ Eq.symm, hw⟩

theorem unref_slot (R : Table α) (r : ℕ) : (R.unref r).slot = Function.update R.slot r none := rfl

theorem unref_shift {R : Table α} (h : R.Wf) {r : ℕ} (hr : R.Live r) : Shift R (some r) (R.unref r) none := by
  refine ⟨unref_moves h hr, fun q w hw => ?_⟩
  by_cases hq : q = r
  · rw [unref_slot, hq, Function.update_self] at hw
    cases hw
  · rw [unref_slot, Function.update_of_ne hq] at hw
    exact .inr ⟨fun hn => hq (Option.some.inj hn).symm, hw⟩

theorem Shift.trans {R R' R'' : Table α} {a b c : Option ℕ} (h1 : Shift R a R' b) (h2 : Shift R' b R'' c) :
    Shift R a R'' c := by
  refine ⟨h1.toMoves.trans h2.toMoves, fun q v hv => ?_⟩
  rcases h2.adds q v hv with hc | ⟨hb, hv⟩
  · exact .inl hc
  · exact .inr ((h1.adds q v hv).resolve_left hb)

/-- a new reference is taken before the old one is given back -/
theorem ref_unref_shift {R : Table α} (h : R.Wf) (v : α) {r : ℕ} (hr : R.Live r) :
    Shift R (some r) ((R.ref v).1.unref r) (some (R.ref v).2) := by
  have hne : (R.ref v).2 ≠ r := fun heq => ref_fresh R v (heq ▸ hr)
  have hlive := (ref_keeps v hr).1
  have hun := unref_shift (ref_wf h v) hlive
  refine ⟨⟨hun.wf, ?_, ?_, ?_⟩, ?_⟩
  · intro q hq hqr
    have h1 := ref_keeps v hq
    have h2 := hun.keeps q h1.1 hqr
    exact ⟨h2.1, h2.2.trans h1.2⟩
  · intro q hq
    cases hq
    exact .inr (ref_fresh R v)
  · intro q hq
    cases hq
    exact (unref_keeps hne (ref_live h v)).1
  · intro q w hw
    obtain ⟨hqr, hw⟩ := (hun.adds q w hw).resolve_left fun hn => by cases hn
    by_cases hq : q = (R.ref v).2
    · exact .inl (hq ▸ rfl)
    · rw [ref_slot_ne v hq] at hw
      exact .inr ⟨hqr, hw⟩

structure Owners (R : Table α) (o : ι → Option ℕ) : Prop extends Separate R o where
  cover : ∀ r v, R.slot r = some v → ∃ i, o i = some r

theorem Owners.move [DecidableEq ι] {R R' : Table α} {o : ι → Option ℕ} {b : Option ℕ} {i : ι} (h : Owners R o)
    (hm : Shift R (o i) R' b) : Owners R' (Function.update o i b) := by
  refine ⟨h.toSeparate.move hm.toMoves, fun r v hv => ?_⟩
  rcases hm.adds r v hv with hb | ⟨hi, hv⟩
  · exact ⟨i, by rw [Function.update_self, hb]⟩
  · obtain ⟨j, hj⟩ := h.cover r v hv
    have hji : j ≠ i := fun heq => hi (heq ▸ hj)
    exact ⟨j, by rw [Function.update_of_ne hji, hj]⟩

end Shuttlesock.Refs
