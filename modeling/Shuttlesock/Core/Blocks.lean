/-
Blocks of memory. Library: nothing here is about shuttlesock.

A block is an address and a size. `Apart`: two blocks do not overlap. `Within`: a block lies inside another one.
`Malloc`: an allocator of fresh blocks: it answers a request for n bytes, given the blocks in use, with an address or not at
all, and what it answers is aligned, not null, below 2^63 and apart from the blocks in use.

Results:
- `Apart.within`: blocks inside blocks that are apart are apart.
- `size_sum_le`: blocks that are apart and below a bound do not have more bytes.
- `eq_of_suffix`: a list without repetition whose head is in a suffix is that suffix.
- `dropWhile_suffix`: dropping up to the head of a suffix gives the suffix.
- `bump`: an allocator that goes upwards.
-/
import Mathlib.Tactic

namespace Shuttlesock.Blocks

structure Block where
  addr : ℕ
  size : ℕ
deriving DecidableEq, Repr

def Block.stop (b : Block) : ℕ := b.addr + b.size

def Apart (a b : Block) : Prop := a.stop ≤ b.addr ∨ b.stop ≤ a.addr

def Within (a b : Block) : Prop := b.addr ≤ a.addr ∧ a.stop ≤ b.stop

theorem Apart.symm {a b : Block} (h : Apart a b) : Apart b a := Or.symm h

theorem Within.refl (a : Block) : Within a a := ⟨le_rfl, le_rfl⟩

theorem Apart.within {a b c d : Block} (h : Apart a b) (hc : Within c a) (hd : Within d b) : Apart c d := by
  rcases h with h | h
  · exact .inl ((hc.2.trans h).trans hd.1)
  · exact .inr ((hd.2.trans h).trans hc.1)

/-- a block with something in it is not apart from itself -/
theorem not_apart_self {a : Block} (h : 0 < a.size) : ¬ Apart a a := by
  intro ha
  have hlt : a.addr < a.stop := Nat.lt_add_of_pos_right h
  rcases ha with ha | ha
  · exact absurd ha (not_le.2 hlt)
  · exact absurd ha (not_le.2 hlt)

/-- the addresses in some of these blocks -/
theorem exists_occupied {l : List Block} (h : l.Pairwise Apart) : ∃ s : Finset ℕ, s.card = (l.map Block.size).sum ∧
    ∀ n, n ∈ s ↔ ∃ b ∈ l, b.addr ≤ n ∧ n < b.stop := by
  induction l with
  | nil => exact ⟨∅, by simp⟩
  | cons b l ih =>
    obtain ⟨hb, hl⟩ := List.pairwise_cons.1 h
    obtain ⟨s, hcard, hs⟩ := ih hl
    have hdisjoint : Disjoint (Finset.Ico b.addr b.stop) s := by
      rw [Finset.disjoint_left]
      intro n hn hns
      obtain ⟨c, hc, h1, h2⟩ := (hs n).1 hns
      obtain ⟨h3, h4⟩ := Finset.mem_Ico.1 hn
      rcases hb c hc with hle | hle <;> omega
    refine ⟨Finset.Ico b.addr b.stop ∪ s, ?_, fun n => ?_⟩
    · rw [Finset.card_union_of_disjoint hdisjoint, Nat.card_Ico, hcard, List.map_cons, List.sum_cons]
      simp [Block.stop]
    · rw [Finset.mem_union, Finset.mem_Ico, hs]
      simp

/-- blocks that are apart have no more bytes than there are addresses -/
theorem size_sum_le {l : List Block} {bound : ℕ} (h : l.Pairwise Apart) (hle : ∀ b ∈ l, b.stop ≤ bound) :
    (l.map Block.size).sum ≤ bound := by
  obtain ⟨s, hcard, hs⟩ := exists_occupied h
  rw [← hcard, ← Finset.card_range bound]
  apply Finset.card_le_card
  intro n hn
  obtain ⟨b, hb, -, hlt⟩ := (hs n).1 hn
  exact Finset.mem_range.2 (hlt.trans_le (hle b hb))

/-! ## Allocators -/

structure Fresh (used : List Block) (n p : ℕ) : Prop where
  aligned : p % 16 = 0
  pos : 0 < p
  bound : p + n ≤ 2 ^ 63
  apart : ∀ b ∈ used, Apart ⟨p, n⟩ b

structure Malloc where
  fn : List Block → ℕ → Option ℕ
  fresh : ∀ used n p, fn used n = some p → Fresh used n p

/-- the first multiple of 16 above all blocks -/
def above (used : List Block) : ℕ := 16 * (used.foldr (fun b n => max b.stop n) 0 / 16 + 1)

theorem stop_le_above {used : List Block} {b : Block} (hb : b ∈ used) : b.stop ≤ above used := by
  have hfold : b.stop ≤ used.foldr (fun b n => max b.stop n) 0 := by
    induction used with
    | nil => cases hb
    | cons c used ih =>
      rcases List.mem_cons.1 hb with rfl | hb
      · exact le_max_left _ _
      · exact (ih hb).trans (le_max_right _ _)
  unfold above
  omega

def bump : Malloc where
  fn used n := if above used + n ≤ 2 ^ 63 then some (above used) else none
  fresh used n p h := by
    split at h
    · rename_i hle
      cases h
      refine ⟨Nat.mul_mod_right _ _, Nat.mul_pos (by decide) (Nat.succ_pos _), hle, ?_⟩
      exact fun b hb => .inr (stop_le_above hb)
    · cases h

/-! ## Suffixes -/

variable {α : Type*}

/-- the head of a list without repetition is not in a proper suffix -/
theorem eq_of_suffix {l k : List α} {a : α} (hs : k <:+ l) (hnd : l.Nodup) (hhead : l.head? = some a) (ha : a ∈ k) :
    k = l := by
  obtain ⟨t, rfl⟩ := hs
  cases t with
  | nil => rfl
  | cons b t =>
    cases hhead
    exact absurd (List.mem_append_right t ha) (List.nodup_cons.1 hnd).1

theorem dropWhile_suffix {l k : List α} {a : α} {p : α → Bool} (hs : k <:+ l) (hhead : k.head? = some a)
    (hp : ∀ b ∈ l, p b = false ↔ b = a) (hnd : l.Nodup) : l.dropWhile p = k := by
  obtain ⟨t, rfl⟩ := hs
  induction t with
  | nil =>
    cases k with
    | nil => rfl
    | cons b k =>
      cases hhead
      rw [List.nil_append, List.dropWhile_cons_of_neg]
      rw [(hp _ List.mem_cons_self).2 rfl]
      exact Bool.false_ne_true
  | cons b t ih =>
    obtain ⟨hb, hnd⟩ := List.nodup_cons.1 hnd
    have hne : p b = true := by
      rw [← Bool.not_eq_false, hp b List.mem_cons_self]
      rintro rfl
      exact hb (List.mem_append_right t (List.mem_of_mem_head? hhead))
    rw [List.cons_append, List.dropWhile_cons_of_pos hne]
    exact ih (fun c hc => hp c (List.mem_cons_of_mem b hc)) hnd

end Shuttlesock.Blocks
