/-
A memo cell for a partial function. Library: nothing here is about shuttlesock.

A cell is a mark and a value. The mark says whether the result of the function is not known, known not to exist, or known;
the value is only meaningful in the last case, and it may be absent even then.
- `Cell.Decided m r`: the mark of m tells the truth about the result r.
- `Cell.Sound m r`: and where the mark says that the result is known, the value is the result.
Rules: `sound_fill`, `sound_miss` (what is stored after a computation), `sound_forget` (a cell whose mark was taken back
says nothing), `Sound.val`.
-/
import Mathlib.Tactic

namespace Shuttlesock.Memo

inductive Mark where
  | unknown | invalid | valid
deriving DecidableEq, Repr

structure Cell (β : Type*) where
  mark : Mark
  val : Option β
deriving DecidableEq, Repr

variable {β : Type*}

/-- take the mark back; the value stays where it is -/
def Cell.forget (m : Cell β) : Cell β := { m with mark := .unknown }

/-- remember that there is no result -/
def Cell.miss (m : Cell β) : Cell β := { m with mark := .invalid }

structure Cell.Decided (m : Cell β) (r : Option β) : Prop where
  invalid : m.mark = .invalid → r = none
  valid : m.mark = .valid → r.isSome

structure Cell.Sound (m : Cell β) (r : Option β) : Prop extends m.Decided r where
  val : m.mark = .valid → m.val = r

@[simp] theorem forget_mark (m : Cell β) : m.forget.mark = .unknown := rfl

@[simp] theorem miss_mark (m : Cell β) : m.miss.mark = .invalid := rfl

theorem sound_of_unknown {m : Cell β} (h : m.mark = .unknown) (r : Option β) : m.Sound r :=
  ⟨⟨fun hi => (by rw [h] at hi; cases hi), fun hv => by rw [h] at hv; cases hv⟩, fun hv => by rw [h] at hv; cases hv⟩

theorem sound_miss (m : Cell β) : m.miss.Sound none :=
  ⟨⟨fun _ => rfl, fun hv => by cases hv⟩, fun hv => by cases hv⟩

theorem sound_fill (b : β) : Cell.Sound ⟨.valid, some b⟩ (some b) :=
  ⟨⟨fun hi => (by cases hi), fun _ => rfl⟩, fun _ => rfl⟩

/-- marked valid with whatever value -/
theorem decided_mark (v : Option β) (b : β) : Cell.Decided ⟨.valid, v⟩ (some b) :=
  ⟨fun hi => (by cases hi), fun _ => rfl⟩

/-- the value matters only under a valid mark -/
theorem Cell.Decided.sound {m : Cell β} {r : Option β} (h : m.Decided r) (hne : m.mark ≠ .valid) : m.Sound r :=
  ⟨h, fun hv => absurd hv hne⟩

end Shuttlesock.Memo
