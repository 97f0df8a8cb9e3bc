/-
Segments laid end to end. Library: nothing here is about shuttlesock.

A list of segments, each with a length, is laid out from a place on. `At len i L j s`: when the first segment of `L` starts at `i`, the
segment `s` starts at `j`.
- `at_append`, `at_iff`: where the segments of a list in two parts start, and a segment as a split of the list;
- `At.range`, `At.apart`, `exists_at`: the segments are inside the whole, do not overlap, and leave nothing out;
- `at_swap`: some neighbouring segments replaced by others of the same length in all;
- `At.chain`, `within_one`: neighbours, and when places that follow each other lie in one segment;
- `exists_places`: the places of the segments with a property, counted.
-/
import Mathlib.Tactic

namespace Shuttlesock.Tiling

variable {S : Type*} {len : S → ℕ}

/-- the length of all segments -/
def span (len : S → ℕ) (L : List S) : ℕ := (L.map len).sum

@[simp] theorem span_nil : span len [] = 0 := rfl

@[simp] theorem span_cons (s : S) (L : List S) : span len (s :: L) = len s + span len L := by simp [span]

@[simp] theorem span_append (L M : List S) : span len (L ++ M) = span len L + span len M := by simp [span]

/-- with the first segment at i, the segment s starts at j -/
def At (len : S → ℕ) : ℕ → List S → ℕ → S → Prop
  | _, [], _, _ => False
  | i, s :: L, j, t => j = i ∧ t = s ∨ At len (i + len s) L j t

variable {i j k : ℕ} {L M pre post old mid : List S} {s t : S}

@[simp] theorem at_nil : ¬ At len i [] j s := id

@[simp] theorem at_cons : At len i (s :: L) j t ↔ j = i ∧ t = s ∨ At len (i + len s) L j t := Iff.rfl

@[simp] theorem at_append : At len i (L ++ M) j t ↔ At len i L j t ∨ At len (i + span len L) M j t := by
  induction L generalizing i with
  | nil => simp
  | cons s L ih => simp [ih, or_assoc, Nat.add_assoc]

theorem At.mem (h : At len i L j s) : s ∈ L := by
  induction L generalizing i with
  | nil => exact h.elim
  | cons u L ih =>
    rcases h with ⟨-, rfl⟩ | h
    · exact List.mem_cons_self
    · exact List.mem_cons_of_mem _ (ih h)

theorem at_iff : At len i L j s ↔ ∃ pre post, L = pre ++ s :: post ∧ j = i + span len pre := by
  constructor
  · intro h
    induction L generalizing i with
    | nil => exact h.elim
    | cons u L ih =>
      rcases h with ⟨rfl, rfl⟩ | h
      · exact ⟨[], L, rfl, rfl⟩
      · obtain ⟨pre, post, rfl, rfl⟩ := ih h
        exact ⟨u :: pre, post, rfl, by simp [Nat.add_assoc]⟩
  · rintro ⟨pre, post, rfl, rfl⟩
    simp

theorem exists_at_of_mem (h : s ∈ L) (i : ℕ) : ∃ j, At len i L j s := by
  obtain ⟨pre, post, rfl⟩ := List.append_of_mem h
  exact ⟨i + span len pre, at_iff.2 ⟨pre, post, rfl, rfl⟩⟩

theorem At.range (h : At len i L j s) : i ≤ j ∧ j + len s ≤ i + span len L := by
  obtain ⟨pre, post, rfl, rfl⟩ := at_iff.1 h
  simp only [span_append, span_cons]
  omega

/-- two segments are the same or do not overlap -/
theorem At.apart (h : At len i L j s) (h' : At len i L k t) : j = k ∧ s = t ∨ j + len s ≤ k ∨ k + len t ≤ j := by
  induction L generalizing i with
  | nil => exact h.elim
  | cons u L ih =>
    rcases h with ⟨rfl, rfl⟩ | h <;> rcases h' with ⟨rfl, rfl⟩ | h'
    · exact .inl ⟨rfl, rfl⟩
    · exact .inr (.inl h'.range.1)
    · exact .inr (.inr h.range.1)
    · exact ih h h'

/-- every place is in a segment -/
theorem exists_at (h1 : i ≤ j) (h2 : j < i + span len L) : ∃ k s, At len i L k s ∧ k ≤ j ∧ j < k + len s := by
  induction L generalizing i with
  | nil => simp only [span_nil] at h2; omega
  | cons u L ih =>
    by_cases h : j < i + len u
    · exact ⟨i, u, .inl ⟨rfl, rfl⟩, h1, h⟩
    · simp only [span_cons] at h2
      obtain ⟨k, s, h3, h4⟩ := ih (Nat.le_of_not_lt h) (by omega)
      exact ⟨k, s, .inr h3, h4⟩

/-- a segment of the new list is one of the new segments, or an old one that is not where they are -/
theorem at_swap (h : span len old = span len mid) (ht : 0 < len t) :
    At len i (pre ++ mid ++ post) j t ↔ At len (i + span len pre) mid j t ∨
      At len i (pre ++ old ++ post) j t ∧ (j + len t ≤ i + span len pre ∨ i + span len pre + span len old ≤ j) := by
  simp only [at_append, span_append, h]
  constructor
  · rintro ((hj | hj) | hj)
    · exact .inr ⟨.inl (.inl hj), .inl hj.range.2⟩
    · exact .inl hj
    · exact .inr ⟨.inr hj, .inr (by have := hj.range.1; omega)⟩
  · rintro (hj | ⟨(hj | hj) | hj, hout⟩)
    · exact .inl (.inr hj)
    · exact .inl (.inl hj)
    · have := hj.range
      omega
    · exact .inr hj

/-! ## Neighbours -/

/-- a segment and the one that starts where it ends -/
theorem At.chain {Q : S → S → Prop} (hL : L.IsChain Q) (hpos : ∀ u ∈ L, 0 < len u) (h : At len i L j s)
    (h' : At len i L (j + len s) t) : Q s t := by
  obtain ⟨pre, post, rfl, rfl⟩ := at_iff.1 h
  have hs : 0 < len s := hpos s (by simp)
  have hpost : At len (i + span len pre + len s) post (i + span len pre + len s) t := by
    rcases at_append.1 h' with h1 | ⟨h1, -⟩ | h1
    · have := h1.range
      omega
    · omega
    · exact h1
  cases post with
  | nil => exact hpost.elim
  | cons u post =>
    have hu : 0 < len u := hpos u (by simp)
    have htu : t = u := by
      rcases hpost with ⟨-, h1⟩ | h1
      · exact h1
      · have := h1.range.1
        omega
    subst htu
    exact (List.isChain_append_cons_cons.1 hL).2.1

/-- when no two neighbours have a property, places that follow each other and lie in segments that have it lie in one -/
theorem within_one {p : S → Prop} (hL : L.IsChain fun a b => ¬ (p a ∧ p b)) (hpos : ∀ u ∈ L, 0 < len u) {n : ℕ}
    (hn : ∀ q, j ≤ q → q < j + (n + 1) → ∃ k s, At len i L k s ∧ p s ∧ k ≤ q ∧ q < k + len s) :
    ∃ k s, At len i L k s ∧ p s ∧ k ≤ j ∧ j + (n + 1) ≤ k + len s := by
  induction n with
  | zero =>
    obtain ⟨k, s, h1, h2, h3, h4⟩ := hn j le_rfl (by omega)
    exact ⟨k, s, h1, h2, h3, h4⟩
  | succ n ih =>
    obtain ⟨k, s, h1, h2, h3, h4⟩ := ih fun q hq hq' => hn q hq (by omega)
    obtain ⟨k', s', h5, h6, h7, h8⟩ := hn (j + (n + 1)) (by omega) (by omega)
    refine ⟨k, s, h1, h2, h3, ?_⟩
    rcases h1.apart h5 with ⟨rfl, rfl⟩ | h | h
    · omega
    · obtain rfl : k' = k + len s := by omega
      exact absurd ⟨h2, h6⟩ (At.chain hL hpos h1 h5)
    · omega

/-! ## Counting -/

/-- the places in the segments with a property are as many as the lengths of these segments say -/
theorem exists_places (p : S → Prop) [DecidablePred p] (i : ℕ) (L : List S) :
    ∃ places : Finset ℕ, places.card = span (fun u => if p u then len u else 0) L ∧
      ∀ q, q ∈ places ↔ ∃ j u, At len i L j u ∧ p u ∧ j ≤ q ∧ q < j + len u := by
  induction L generalizing i with
  | nil => exact ⟨∅, rfl, by simp⟩
  | cons u L ih =>
    obtain ⟨places, hcard, hmem⟩ := ih (i + len u)
    by_cases hu : p u
    · refine ⟨Finset.Ico i (i + len u) ∪ places, ?_, fun q => ?_⟩
      · rw [Finset.card_union_of_disjoint, Nat.card_Ico, hcard, span_cons, if_pos hu]
        · omega
        · rw [Finset.disjoint_left]
          intro q hq hq'
          obtain ⟨j, t, hat, -, hj, -⟩ := (hmem q).1 hq'
          have := (Finset.mem_Ico.1 hq).2
          have := hat.range.1
          omega
      · rw [Finset.mem_union, Finset.mem_Ico, hmem]
        constructor
        · rintro (h | ⟨j, t, hat, h⟩)
          · exact ⟨i, u, .inl ⟨rfl, rfl⟩, hu, h⟩
          · exact ⟨j, t, .inr hat, h⟩
        · rintro ⟨j, t, ⟨rfl, rfl⟩ | hat, h⟩
          · exact .inl h.2
          · exact .inr ⟨j, t, hat, h⟩
    · refine ⟨places, by rw [hcard, span_cons, if_neg hu, Nat.zero_add], fun q => ?_⟩
      rw [hmem]
      constructor
      · rintro ⟨j, t, hat, h⟩
        exact ⟨j, t, .inr hat, h⟩
      · rintro ⟨j, t, ⟨rfl, rfl⟩ | hat, h⟩
        · exact absurd h.1 hu
        · exact ⟨j, t, hat, h⟩

end Shuttlesock.Tiling
