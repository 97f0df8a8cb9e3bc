/-
What a call of the slab allocator (`shared_slab.c`) does to a layout of pages.

Results:
- `allocs_settled`, `frees_settled`: what holds between two calls holds again after one.
- `allocs_live`, `allocs_apart`, `frees_live`: the blocks after a call; a new block is apart from the others.
- `free_page_iff`, `fits_iff`: in a settled layout the free pages are those without a block, and a request for k pages is answered
  exactly when there are k such pages in a row.
- `exists_untouched`, `exists_used`, `exists_opened`: the counters `free_pages`, `used_chunks` and `all_chunks` are the numbers of free
  pages, of chunks in use and of chunks on the pages of a slot.
-/
import Mathlib.Tactic
import Shuttlesock.Slab.Layout

namespace Shuttlesock.Slab

open Shuttlesock.Tiling Shuttlesock.Blocks

variable {G : Geometry} {L L' pre post A B : List Seg} {i j k n p size : ℕ} {s t : Seg} {b b' : Block}

@[simp] theorem span_rest (n : ℕ) : span Seg.len (rest n) = n := by
  unfold rest
  split_ifs with h
  · exact h.symm
  · simp

/-! ## Between two calls -/

/-- neither in hand nor a page of chunks that are all free -/
def Seg.Calm : Seg → Prop
  | .held _ => False
  | .chunks _ used => used.Nonempty
  | _ => True

/-- no two runs of free pages are neighbours -/
def Joined (L : List Seg) : Prop := L.IsChain fun a b => ¬ (a.IsFree ∧ b.IsFree)

theorem settled_iff : Settled L ↔ (∀ s ∈ L, s.Calm) ∧ Joined L := by
  constructor
  · refine fun h => ⟨fun s hs => ?_, h.joined⟩
    cases s with
    | held n => exact h.not_held n hs
    | chunks shift used => exact h.nonempty shift used hs
    | _ => trivial
  · rintro ⟨h, hj⟩
    exact ⟨fun n hn => h _ hn, fun shift used hu => h _ hu, hj⟩

theorem not_isFree_iff : ¬ s.IsFree ↔ ∀ n, s ≠ .free n := by
  cases s <;> simp [Seg.IsFree]

theorem endsFree_iff : EndsFree A ↔ ∃ s ∈ A.getLast?, s.IsFree := by
  constructor
  · rintro ⟨pre, n, rfl⟩
    exact ⟨.free n, by simp, trivial⟩
  · rintro ⟨s, hs, hf⟩
    obtain ⟨pre, rfl⟩ := List.getLast?_eq_some_iff.1 hs
    cases s with
    | free n => exact ⟨pre, n, rfl⟩
    | _ => exact hf.elim

theorem startsFree_iff : StartsFree B ↔ ∃ s ∈ B.head?, s.IsFree := by
  constructor
  · rintro ⟨n, post, rfl⟩
    exact ⟨.free n, by simp, trivial⟩
  · rintro ⟨s, hs, hf⟩
    obtain ⟨post, rfl⟩ := List.head?_eq_some_iff.1 hs
    cases s with
    | free n => exact ⟨n, post, rfl⟩
    | _ => exact hf.elim

theorem joined_append : Joined (A ++ B) ↔ Joined A ∧ Joined B ∧ ¬ (EndsFree A ∧ StartsFree B) := by
  unfold Joined
  rw [List.isChain_append, endsFree_iff, startsFree_iff]
  refine and_congr_right fun _ => and_congr_right fun _ => ?_
  constructor
  · rintro h ⟨⟨s, hs, hsf⟩, t, ht, htf⟩
    exact h s hs t ht ⟨hsf, htf⟩
  · rintro h s hs t ht ⟨hsf, htf⟩
    exact h ⟨⟨s, hs, hsf⟩, t, ht, htf⟩

theorem endsFree_concat : EndsFree (A ++ [s]) ↔ s.IsFree := by simp [endsFree_iff]

theorem startsFree_cons : StartsFree (s :: B) ↔ s.IsFree := by simp [startsFree_iff]

/-- a segment between others -/
theorem joined_mid : Joined (pre ++ [s] ++ post) ↔
    Joined pre ∧ Joined post ∧ (s.IsFree → ¬ EndsFree pre ∧ ¬ StartsFree post) := by
  have h1 : Joined [s] := List.isChain_singleton _
  rw [joined_append, joined_append, endsFree_concat, startsFree_cons]
  tauto

theorem joined_cons : Joined (s :: post) ↔ Joined post ∧ (s.IsFree → ¬ StartsFree post) := by
  have h : Joined ([] ++ [s] ++ post) ↔ _ := joined_mid
  simp only [List.nil_append, List.singleton_append] at h
  rw [h]
  have hnil : Joined [] := List.isChain_nil
  have hends : ¬ EndsFree [] := by simp [endsFree_iff]
  tauto

theorem joined_concat : Joined (pre ++ [s]) ↔ Joined pre ∧ (s.IsFree → ¬ EndsFree pre) := by
  have h : Joined (pre ++ [s] ++ []) ↔ _ := joined_mid
  rw [List.append_nil] at h
  rw [h]
  have hnil : Joined [] := List.isChain_nil
  have hstarts : ¬ StartsFree [] := by simp [startsFree_iff]
  tauto

/-- the front of a run of free pages taken -/
theorem joined_taken (hs : ¬ s.IsFree) (h : Joined (pre ++ [.free n] ++ post)) (m : ℕ) : Joined (pre ++ (s :: rest m) ++ post) := by
  obtain ⟨h1, h2, h3⟩ := joined_mid.1 h
  have hpre : Joined (pre ++ [s]) := joined_concat.2 ⟨h1, fun hf => absurd hf hs⟩
  have hassoc : pre ++ (s :: rest m) ++ post = pre ++ [s] ++ (rest m ++ post) := by simp
  rw [hassoc, joined_append, endsFree_concat]
  refine ⟨hpre, ?_, fun hc => hs hc.1⟩
  unfold rest
  split_ifs
  · exact h2
  · exact joined_cons.2 ⟨h2, fun _ => (h3 trivial).2⟩

theorem calm_rest (hs : s ∈ rest n) : s.Calm := by
  unfold rest at hs
  split_ifs at hs
  · cases hs
  · cases List.mem_singleton.1 hs
    trivial

theorem allocs_settled (h : Allocs G size L L' p) (hL : Settled L) : Settled L' := by
  rw [settled_iff] at hL ⊢
  obtain ⟨hcalm, hjoin⟩ := hL
  cases h with
  | @run n pre post _ _ =>
    refine ⟨fun s hs => ?_, joined_taken id hjoin _⟩
    simp only [List.mem_append, List.mem_cons] at hs hcalm
    rcases hs with (hs | rfl | hs) | hs
    · exact hcalm s (.inl (.inl hs))
    · trivial
    · exact calm_rest hs
    · exact hcalm s (.inr hs)
  | @chunk c used pre post _ _ _ _ =>
    refine ⟨fun s hs => ?_, ?_⟩
    · simp only [List.mem_append, List.mem_cons, List.not_mem_nil, or_false] at hs hcalm
      rcases hs with (hs | rfl) | hs
      · exact hcalm s (.inl (.inl hs))
      · exact Finset.insert_nonempty c used
      · exact hcalm s (.inr hs)
    · obtain ⟨h1, h2, -⟩ := joined_mid.1 hjoin
      exact joined_mid.2 ⟨h1, h2, False.elim⟩
  | @fresh n pre post _ _ =>
    refine ⟨fun s hs => ?_, joined_taken id hjoin _⟩
    simp only [List.mem_append, List.mem_cons] at hs hcalm
    rcases hs with (hs | rfl | hs) | hs
    · exact hcalm s (.inl (.inl hs))
    · exact Finset.singleton_nonempty _
    · exact calm_rest hs
    · exact hcalm s (.inr hs)
  | no_run => exact ⟨hcalm, hjoin⟩
  | no_chunk => exact ⟨hcalm, hjoin⟩

theorem joins_settled (h : Joins k pre post L') (hcalm : ∀ s ∈ pre ++ post, s.Calm) (hpre : Joined pre) (hpost : Joined post) :
    Settled L' := by
  rw [settled_iff]
  cases h with
  | alone h1 h2 =>
    refine ⟨fun s hs => ?_, joined_mid.2 ⟨hpre, hpost, fun _ => ⟨h1, h2⟩⟩⟩
    simp only [List.mem_append, List.mem_cons, List.not_mem_nil, or_false] at hs hcalm
    rcases hs with (hs | rfl) | hs
    · exact hcalm s (.inl hs)
    · trivial
    · exact hcalm s (.inr hs)
  | @next n pre post h1 =>
    obtain ⟨h2, h3⟩ := joined_cons.1 hpost
    refine ⟨fun s hs => ?_, joined_mid.2 ⟨hpre, h2, fun _ => ⟨h1, h3 trivial⟩⟩⟩
    simp only [List.mem_append, List.mem_cons, List.not_mem_nil, or_false] at hs hcalm
    rcases hs with (hs | rfl) | hs
    · exact hcalm s (.inl hs)
    · trivial
    · exact hcalm s (.inr (.inr hs))
  | @prev m pre post h1 =>
    obtain ⟨h2, h3⟩ := joined_concat.1 hpre
    refine ⟨fun s hs => ?_, joined_mid.2 ⟨h2, hpost, fun _ => ⟨h3 trivial, h1⟩⟩⟩
    simp only [List.mem_append, List.mem_cons, List.not_mem_nil, or_false] at hs hcalm
    rcases hs with (hs | rfl) | hs
    · exact hcalm s (.inl (.inl hs))
    · trivial
    · exact hcalm s (.inr hs)
  | @both m n pre post =>
    obtain ⟨h2, h3⟩ := joined_concat.1 hpre
    obtain ⟨h4, h5⟩ := joined_cons.1 hpost
    refine ⟨fun s hs => ?_, joined_mid.2 ⟨h2, h4, fun _ => ⟨h3 trivial, h5 trivial⟩⟩⟩
    simp only [List.mem_append, List.mem_cons, List.not_mem_nil, or_false] at hs hcalm
    rcases hs with (hs | rfl) | hs
    · exact hcalm s (.inl (.inl hs))
    · trivial
    · exact hcalm s (.inr (.inr hs))

theorem frees_settled (h : Frees G p L L') (hL : Settled L) : Settled L' := by
  rw [settled_iff] at hL
  obtain ⟨hcalm, hjoin⟩ := hL
  cases h with
  | run h =>
    obtain ⟨h1, h2, -⟩ := joined_mid.1 hjoin
    exact joins_settled h (fun s hs => hcalm s (by simp only [List.mem_append] at hs ⊢; tauto)) h1 h2
  | @chunk shift c used pre post hc hne =>
    obtain ⟨h1, h2, -⟩ := joined_mid.1 hjoin
    refine settled_iff.2 ⟨fun s hs => ?_, joined_mid.2 ⟨h1, h2, False.elim⟩⟩
    simp only [List.mem_append, List.mem_cons, List.not_mem_nil, or_false] at hs hcalm
    rcases hs with (hs | rfl) | hs
    · exact hcalm s (.inl (.inl hs))
    · exact hne
    · exact hcalm s (.inr hs)
  | page h =>
    obtain ⟨h1, h2, -⟩ := joined_mid.1 hjoin
    exact joins_settled h (fun s hs => hcalm s (by simp only [List.mem_append] at hs ⊢; tauto)) h1 h2

/-! ## Blocks -/

/-- the blocks of segments that are laid out from page i on -/
def LiveAt (G : Geometry) (i : ℕ) (L : List Seg) (b : Block) : Prop := ∃ j s, At Seg.len i L j s ∧ s.Has G j b

theorem live_iff : Live G L b ↔ LiveAt G 0 L b := Iff.rfl

@[simp] theorem liveAt_nil : ¬ LiveAt G i [] b := by
  rintro ⟨j, s, h, -⟩
  exact h

@[simp] theorem liveAt_cons : LiveAt G i (s :: L) b ↔ s.Has G i b ∨ LiveAt G (i + s.len) L b := by
  constructor
  · rintro ⟨j, t, ⟨rfl, rfl⟩ | h, hb⟩
    · exact .inl hb
    · exact .inr ⟨j, t, h, hb⟩
  · rintro (hb | ⟨j, t, h, hb⟩)
    · exact ⟨i, s, .inl ⟨rfl, rfl⟩, hb⟩
    · exact ⟨j, t, .inr h, hb⟩

@[simp] theorem liveAt_append : LiveAt G i (A ++ B) b ↔ LiveAt G i A b ∨ LiveAt G (i + span Seg.len A) B b := by
  induction A generalizing i with
  | nil => simp
  | cons s A ih => simp [ih, or_assoc, Nat.add_assoc]

@[simp] theorem liveAt_rest : ¬ LiveAt G i (rest n) b := by
  unfold rest
  split_ifs <;> simp [Seg.Has]

/-- blocks lie where their segments are -/
theorem LiveAt.range (hv : ∀ s ∈ L, s.Valid G) (h : LiveAt G i L b) :
    G.page_addr i ≤ b.addr ∧ b.stop ≤ G.page_addr (i + span Seg.len L) ∧ 0 < b.size := by
  obtain ⟨j, s, hs, hb⟩ := h
  obtain ⟨h1, h2, h3⟩ := hb.within (hv s hs.mem)
  obtain ⟨h4, h5⟩ := hs.range
  exact ⟨(page_addr_mono h4).trans h1, h2.trans (page_addr_mono h5), h3⟩

/-- a block that starts in a segment is one of it -/
theorem has_of_live (hL : Laid G L) (hb : Live G L b) (hs : SegAt L j s) (h1 : G.page_addr j ≤ b.addr)
    (h2 : b.addr < G.page_addr (j + s.len)) : s.Has G j b := by
  obtain ⟨k, t, ht, hb⟩ := hb
  obtain ⟨h3, h4, h5⟩ := hb.within (ht.valid hL)
  have hstop : b.addr < b.stop := Nat.lt_add_of_pos_right h5
  rcases hs.apart ht with ⟨rfl, rfl⟩ | h | h
  · exact hb
  · have := page_addr_mono (G := G) h
    omega
  · have := page_addr_mono (G := G) h
    omega

theorem page_addr_add (j k : ℕ) : G.page_addr (j + k) = G.page_addr j + k * G.page_size := by
  rw [G.page_addr_eq, G.page_addr_eq, Nat.add_mul]
  omega

theorem page_addr_lt (h : 0 < n) : G.page_addr j < G.page_addr (j + n) := by
  rw [page_addr_add]
  exact Nat.lt_add_of_pos_right (Nat.mul_pos h G.page_size_pos)

theorem page_addr_pos (j : ℕ) : 0 < G.page_addr j := by
  rw [G.page_addr_eq]
  have := G.start_pos
  omega

/-- nothing but the new block is new -/
theorem allocs_live (h : Allocs G size L L' p) (hp : p ≠ 0) : Live G L' b ↔ b = ⟨p, capacity G size⟩ ∨ Live G L b := by
  cases h with
  | run h1 h2 =>
    have hn : ∀ i, i + page_count G size + (_ - page_count G size) = i + _ := fun i => by rw [Nat.add_assoc, Nat.add_sub_cancel' h2]
    simp [live_iff, Seg.Has, capacity, h1, hn, or_left_comm]
  | chunk h1 hc =>
    have h1' := Nat.not_lt_of_le h1
    simp [live_iff, Seg.Has, capacity, h1', or_left_comm, or_assoc]
  | fresh h1 h2 =>
    have h1' := Nat.not_lt_of_le h1
    have hn : ∀ i, i + 1 + (_ - 1) = i + _ := fun i => by rw [Nat.add_assoc, Nat.add_sub_cancel' h2]
    simp [live_iff, Seg.Has, capacity, h1', hn, or_left_comm]
  | no_run => exact absurd rfl hp
  | no_chunk => exact absurd rfl hp

theorem allocs_zero (h : Allocs G size L L' 0) : L' = L := by
  generalize hp : (0 : ℕ) = p at h
  cases h with
  | run => exact absurd hp (page_addr_pos _).ne
  | chunk => exact absurd hp (Nat.add_pos_left (page_addr_pos _) _).ne
  | fresh => exact absurd hp (Nat.add_pos_left (page_addr_pos _) _).ne
  | no_run => rfl
  | no_chunk => rfl

/-- a new block is not in the way of the others -/
theorem allocs_apart (hL : Laid G L) (hL' : Laid G L') (h : Allocs G size L L' p) (hp : p ≠ 0) (hb : Live G L b) :
    Apart ⟨p, capacity G size⟩ b := by
  have hnew : Live G L' ⟨p, capacity G size⟩ := (allocs_live h hp).2 (.inl rfl)
  have hold : Live G L' b := (allocs_live h hp).2 (.inr hb)
  rcases live_apart hL' hnew hold with rfl | ha
  · exfalso
    cases h with
    | @run n pre post h1 h2 =>
      have hat : SegAt (pre ++ [.free n] ++ post) (span Seg.len pre) (.free n) := by simp
      exact has_of_live hL hb hat le_rfl (page_addr_lt (hat.len_pos hL))
    | @chunk c used pre post h1 hc h2 h3 =>
      have hat : SegAt (pre ++ [.chunks (chunk_shift size) used] ++ post) (span Seg.len pre) (.chunks (chunk_shift size) used) := by simp
      have hlt := G.chunk_lt (hat.valid hL).2.1.le h3
      have hend : G.page_addr (span Seg.len pre) + c * 2 ^ chunk_shift size < G.page_addr (span Seg.len pre + 1) := by
        rw [page_addr_add]
        omega
      obtain ⟨d, hd, he⟩ := has_of_live hL hb hat (Nat.le_add_right _ _) hend
      have hcd := Nat.eq_of_mul_eq_mul_right (Nat.two_pow_pos _) (Nat.add_left_cancel (congrArg Block.addr he))
      exact hc (hcd ▸ hd)
    | @fresh n pre post h1 h2 =>
      have hat : SegAt (pre ++ [.free n] ++ post) (span Seg.len pre) (.free n) := by simp
      obtain ⟨h3, h4, -⟩ := hL'.valid (.chunks (chunk_shift size) {G.reserved (chunk_shift size)}) (by simp)
      have hroom := G.reserved_room h3 h4
      have hlt := G.chunk_lt h4.le (c := G.reserved (chunk_shift size)) (by omega)
      have hpos := page_addr_add (G := G) (span Seg.len pre) n
      have hmul : 1 * G.page_size ≤ n * G.page_size := Nat.mul_le_mul_right _ h2
      exact has_of_live hL hb hat (Nat.le_add_right _ _) (by simp only [Seg.len_free]; omega)
    | no_run => exact hp rfl
    | no_chunk => exact hp rfl
  · exact ha

/-- joining leaves the other blocks -/
theorem joins_live (h : Joins k pre post L') : Live G L' b ↔ LiveAt G 0 pre b ∨ LiveAt G (span Seg.len pre + k) post b := by
  cases h <;> simp [live_iff, Seg.Has, Nat.add_assoc]

/-- the block is gone, and no other -/
theorem frees_live (hL : Laid G L) (h : Frees G p L L') : Live G L' b ↔ Live G L b ∧ b.addr ≠ p := by
  -- blocks of other segments have other addresses
  have hpre : ∀ {pre post s}, Laid G (pre ++ [s] ++ post) → LiveAt G 0 pre b → b.addr < G.page_addr (span Seg.len pre) := by
    intro pre post s hL hb
    obtain ⟨-, h1, h2⟩ := hb.range fun s hs => hL.valid s (by simp [hs])
    rw [Nat.zero_add] at h1
    exact lt_of_lt_of_le (Nat.lt_add_of_pos_right h2) h1
  have hpost : ∀ {pre post s}, Laid G (pre ++ [s] ++ post) → LiveAt G (span Seg.len pre + s.len) post b →
      G.page_addr (span Seg.len pre + s.len) ≤ b.addr := by
    intro pre post s hL hb
    exact (hb.range fun s hs => hL.valid s (by simp [hs])).1
  cases h with
  | @run n pre post _ h =>
    have hat : SegAt (pre ++ [.run n] ++ post) (span Seg.len pre) (.run n) := by simp
    have hlt := page_addr_lt (G := G) (j := span Seg.len pre) (hat.len_pos hL)
    rw [joins_live h]
    simp only [live_iff, liveAt_append, liveAt_cons, liveAt_nil, Nat.zero_add, or_false, Seg.Has, span_append, span_cons, span_nil]
    constructor
    · rintro (hb | hb)
      · exact ⟨.inl (.inl hb), (hpre hL hb).ne⟩
      · exact ⟨.inr hb, (lt_of_lt_of_le hlt (hpost hL hb)).ne'⟩
    · rintro ⟨(hb | rfl) | hb, hne⟩
      · exact .inl hb
      · exact absurd rfl hne
      · exact .inr hb
  | @chunk shift c used pre post hc hne =>
    have hat : SegAt (pre ++ [.chunks shift used] ++ post) (span Seg.len pre) (.chunks shift used) := by simp
    obtain ⟨-, hs, hu⟩ := hat.valid hL
    have hlt := G.chunk_lt hs.le (hu c hc).2
    have hnext := page_addr_add (G := G) (span Seg.len pre) 1
    simp only [live_iff, liveAt_append, liveAt_cons, liveAt_nil, Nat.zero_add, or_false, Seg.Has, span_append, span_cons, span_nil,
      Finset.mem_erase, Seg.len_chunks]
    constructor
    · rintro ((hb | ⟨d, ⟨hd, hdu⟩, rfl⟩) | hb)
      · exact ⟨.inl (.inl hb), by have := hpre hL hb; omega⟩
      · refine ⟨.inl (.inr ⟨d, hdu, rfl⟩), fun he => hd ?_⟩
        exact Nat.eq_of_mul_eq_mul_right (Nat.two_pow_pos _) (Nat.add_left_cancel he)
      · have := hpost hL hb
        simp only [Seg.len_chunks] at this
        exact ⟨.inr hb, by omega⟩
    · rintro ⟨(hb | ⟨d, hd, rfl⟩) | hb, hne⟩
      · exact .inl (.inl hb)
      · exact .inl (.inr ⟨d, ⟨fun he => hne (by rw [he]), hd⟩, rfl⟩)
      · exact .inr hb
  | @page shift c pre post _ h =>
    have hat : SegAt (pre ++ [.chunks shift {c}] ++ post) (span Seg.len pre) (.chunks shift {c}) := by simp
    obtain ⟨-, hs, hu⟩ := hat.valid hL
    have hlt := G.chunk_lt hs.le (hu c (Finset.mem_singleton_self c)).2
    have hnext := page_addr_add (G := G) (span Seg.len pre) 1
    rw [joins_live h]
    simp only [live_iff, liveAt_append, liveAt_cons, liveAt_nil, Nat.zero_add, or_false, Seg.Has, span_append, span_cons, span_nil,
      Finset.mem_singleton, exists_eq_left, Seg.len_chunks]
    constructor
    · rintro (hb | hb)
      · exact ⟨.inl (.inl hb), by have := hpre hL hb; omega⟩
      · have := hpost (s := .chunks shift {c}) hL hb
        simp only [Seg.len_chunks] at this
        exact ⟨.inr hb, by omega⟩
    · rintro ⟨(hb | rfl) | hb, hne⟩
      · exact .inl hb
      · exact absurd rfl hne
      · exact .inr hb

/-! ## Pages without a block -/

/-- no block has bytes of page t -/
def Untouched (G : Geometry) (L : List Seg) (t : ℕ) : Prop := ∀ b, Live G L b → Apart b ⟨G.page_addr t, G.page_size⟩

/-- a block with bytes of a page -/
theorem not_untouched {q : ℕ} (hb : Live G L b) (h1 : b.addr < G.page_addr (q + 1)) (h2 : G.page_addr q < b.stop) :
    ¬ Untouched G L q := by
  intro h
  have hnext := page_addr_add (G := G) q 1
  rcases h b hb with ha | ha
  · exact absurd ha (not_le.2 h2)
  · simp only [Block.stop] at ha h2
    omega

theorem free_page_iff (hL : Laid G L) (hS : Settled L) {q : ℕ} (hq : q < G.pages) :
    Untouched G L q ↔ ∃ j s, SegAt L j s ∧ s.IsFree ∧ j ≤ q ∧ q < j + s.len := by
  constructor
  · intro h
    have hlt : q < 0 + span Seg.len L := by rwa [Nat.zero_add, hL.total]
    obtain ⟨j, s, hat, h1, h2⟩ := exists_at (Nat.zero_le q) hlt
    refine ⟨j, s, hat, ?_, h1, h2⟩
    have hle := page_addr_mono (G := G) h1
    cases s with
    | free n => trivial
    | held n => exact absurd hat.mem (hS.not_held n)
    | run n =>
      refine absurd h (not_untouched ⟨j, _, hat, rfl⟩ (lt_of_le_of_lt hle (page_addr_lt Nat.one_pos)) ?_)
      have hend := page_addr_add (G := G) j n
      have hlt := page_addr_lt (G := G) (j := q) (n := j + n - q) (by simp only [Seg.len_run] at h2; omega)
      rw [Nat.add_sub_cancel' (by simp only [Seg.len_run] at h2; omega)] at hlt
      simp only [Block.stop]
      omega
    | chunks shift used =>
      obtain ⟨c, hc⟩ := hS.nonempty shift used hat.mem
      obtain ⟨h3, hs, hu⟩ := SegAt.valid hL hat
      obtain rfl : q = j := by simp only [Seg.len_chunks] at h2; omega
      have hlt := G.chunk_lt hs.le (hu c hc).2
      have hnext := page_addr_add (G := G) q 1
      have hpos := Nat.two_pow_pos shift
      refine absurd h (not_untouched ⟨q, _, hat, c, hc, rfl⟩ ?_ ?_)
      · simp only
        omega
      · simp only [Block.stop]
        omega
  · rintro ⟨j, s, hat, hfree, h1, h2⟩ b ⟨k, t, ht, hb⟩
    obtain ⟨h3, h4, -⟩ := hb.within (ht.valid hL)
    have hnext := page_addr_add (G := G) q 1
    rcases ht.apart hat with ⟨rfl, rfl⟩ | h | h
    · cases t with
      | free n => exact hb.elim
      | _ => exact hfree.elim
    · exact .inl (h4.trans (page_addr_mono (h.trans h1)))
    · have h5 := page_addr_mono (G := G) (show q + 1 ≤ k by omega)
      refine .inr ?_
      simp only [Block.stop]
      omega

theorem isFree_iff : s.IsFree ↔ ∃ n, s = .free n := by
  cases s <;> simp [Seg.IsFree]

/-- a run of free pages is long enough exactly when there are pages enough without a block, one behind the other -/
theorem fits_iff (hL : Laid G L) (hS : Settled L) (hk : 0 < k) :
    (∃ n, .free n ∈ L ∧ k ≤ n) ↔ ∃ j, j + k ≤ G.pages ∧ ∀ q, j ≤ q → q < j + k → Untouched G L q := by
  constructor
  · rintro ⟨n, hn, hkn⟩
    obtain ⟨j, hat⟩ : ∃ j, SegAt L j (.free n) := exists_at_of_mem hn 0
    have hle : j + n ≤ G.pages := hat.lt_pages hL
    refine ⟨j, by omega, fun q h1 h2 => (free_page_iff hL hS (by omega)).2 ⟨j, .free n, hat, trivial, h1, ?_⟩⟩
    simp only [Seg.len_free]
    omega
  · rintro ⟨j, hle, h⟩
    obtain ⟨m, rfl⟩ : ∃ m, k = m + 1 := ⟨k - 1, by omega⟩
    obtain ⟨i, s, hat, hfree, h1, h2⟩ := within_one hS.joined hL.len_pos (n := m) fun q hq hq' =>
      (free_page_iff hL hS (by omega)).1 (h q hq hq')
    obtain ⟨n, rfl⟩ := isFree_iff.1 hfree
    exact ⟨n, hat.mem, by simp only [Seg.len_free] at h2; omega⟩

/-! ## Counts -/

instance : DecidablePred Seg.IsFree := fun s => by cases s <;> unfold Seg.IsFree <;> infer_instance

/-- a segment that is a page of chunks of the size of a slot -/
def Seg.OfSlot (k : ℕ) : Seg → Prop
  | .chunks shift _ => shift = k + min_shift
  | _ => False

instance (k : ℕ) : DecidablePred (Seg.OfSlot k) := fun s => by cases s <;> unfold Seg.OfSlot <;> infer_instance

/-- how many chunks of a page are in use -/
def Seg.used : Seg → ℕ
  | .chunks _ used => used.card
  | _ => 0

/-- how many pages are free -/
def free_pages (L : List Seg) : ℕ := span (fun s => if s.IsFree then s.len else 0) L

/-- how many chunks of the size of a slot are in use -/
def used_chunks (k : ℕ) (L : List Seg) : ℕ := span (fun s => if s.OfSlot k then s.used else 0) L

/-- how many chunks of the size of a slot the pages have for requests, in use or not -/
def all_chunks (G : Geometry) (k : ℕ) (L : List Seg) : ℕ :=
  span (fun s => if s.OfSlot k then G.chunks (k + min_shift) - G.reserved (k + min_shift) else 0) L

theorem exists_untouched (hL : Laid G L) (hS : Settled L) :
    ∃ places : Finset ℕ, places.card = free_pages L ∧ ∀ q, q ∈ places ↔ q < G.pages ∧ Untouched G L q := by
  obtain ⟨places, hcard, hmem⟩ := @exists_places _ Seg.len Seg.IsFree _ 0 L
  refine ⟨places, hcard, fun q => ?_⟩
  rw [hmem]
  constructor
  · rintro ⟨j, s, hat, h⟩
    have hle := SegAt.lt_pages hL hat
    have hq : q < G.pages := by omega
    exact ⟨hq, (free_page_iff hL hS hq).2 ⟨j, s, hat, h⟩⟩
  · rintro ⟨hq, h⟩
    exact (free_page_iff hL hS hq).1 h

/-- the blocks of the size of a slot are chunks -/
theorem ofSlot_iff (hv : s.Valid G) (hk : k < G.slots) (hb : s.Has G j b) : b.size = 2 ^ (k + min_shift) ↔ s.OfSlot k := by
  have hk' : k + min_shift < G.page_size_shift := by
    have : k < G.page_size_shift - min_shift := hk
    omega
  cases s with
  | free n => exact hb.elim
  | held n => exact hb.elim
  | run n =>
    obtain rfl : b = _ := hb
    refine iff_of_false (fun he => ?_) id
    -- a page is larger
    have hn : 0 < n := hv
    have h1 : 1 * 2 ^ G.page_size_shift ≤ n * 2 ^ G.page_size_shift := Nat.mul_le_mul_right _ hn
    have h2 := Nat.pow_lt_pow_right (show 1 < 2 by norm_num) hk'
    simp only [Geometry.page_size] at he
    omega
  | chunks shift used =>
    obtain ⟨c, -, rfl⟩ := hb
    exact ⟨fun he => Nat.pow_right_injective le_rfl he, fun he => congrArg (2 ^ ·) he⟩

/-- the blocks of one segment that have the size of a slot -/
theorem seg_used (hv : s.Valid G) (hk : k < G.slots) (j : ℕ) : ∃ blocks : Finset Block,
    blocks.card = (if s.OfSlot k then s.used else 0) ∧ ∀ b, b ∈ blocks ↔ s.Has G j b ∧ b.size = 2 ^ (k + min_shift) := by
  by_cases hs : s.OfSlot k
  · cases s with
    | chunks shift used =>
      refine ⟨used.image fun c => ⟨G.page_addr j + c * 2 ^ shift, 2 ^ shift⟩, ?_, fun b => ?_⟩
      · rw [if_pos hs]
        refine Finset.card_image_of_injective used fun c d he => ?_
        exact Nat.eq_of_mul_eq_mul_right (Nat.two_pow_pos shift) (Nat.add_left_cancel (congrArg Block.addr he))
      · rw [Finset.mem_image]
        constructor
        · rintro ⟨c, hc, rfl⟩
          exact ⟨⟨c, hc, rfl⟩, congrArg (2 ^ ·) hs⟩
        · rintro ⟨⟨c, hc, rfl⟩, -⟩
          exact ⟨c, hc, rfl⟩
    | _ => exact hs.elim
  · refine ⟨∅, by rw [if_neg hs]; rfl, fun b => ?_⟩
    simp only [Finset.notMem_empty, false_iff, not_and]
    exact fun hb he => hs ((ofSlot_iff hv hk hb).1 he)

/-- the counter of a slot is the number of blocks of its size -/
theorem exists_used (hv : ∀ s ∈ L, s.Valid G) (hk : k < G.slots) (i : ℕ) : ∃ blocks : Finset Block,
    blocks.card = used_chunks k L ∧ ∀ b, b ∈ blocks ↔ LiveAt G i L b ∧ b.size = 2 ^ (k + min_shift) := by
  induction L generalizing i with
  | nil => exact ⟨∅, rfl, by simp⟩
  | cons s L ih =>
    obtain ⟨blocks, hcard, hmem⟩ := ih (fun u hu => hv u (List.mem_cons_of_mem s hu)) (i + s.len)
    obtain ⟨own, hown, hownmem⟩ := seg_used (hv s List.mem_cons_self) hk i
    refine ⟨own ∪ blocks, ?_, fun b => ?_⟩
    · rw [Finset.card_union_of_disjoint, hcard, hown]
      · simp [used_chunks]
      · rw [Finset.disjoint_left]
        intro b hb hb'
        obtain ⟨h1, -⟩ := (hownmem b).1 hb
        obtain ⟨h2, -⟩ := (hmem b).1 hb'
        obtain ⟨-, h3, h4⟩ := h1.within (hv s List.mem_cons_self)
        have h5 := (h2.range fun u hu => hv u (List.mem_cons_of_mem s hu)).1
        simp only [Block.stop] at h3
        omega
    · rw [Finset.mem_union, hownmem, hmem, liveAt_cons, or_and_right]

/-- page q has a block of the size of a slot -/
def Opened (G : Geometry) (k : ℕ) (L : List Seg) (q : ℕ) : Prop :=
  ∃ b, Live G L b ∧ b.size = 2 ^ (k + min_shift) ∧ G.page_addr q ≤ b.addr ∧ b.addr < G.page_addr (q + 1)

theorem opened_iff (hL : Laid G L) (hS : Settled L) (hk : k < G.slots) {q : ℕ} :
    Opened G k L q ↔ ∃ s, SegAt L q s ∧ s.OfSlot k := by
  constructor
  · rintro ⟨b, ⟨j, s, hat, hb⟩, hsize, h1, h2⟩
    have hs := (ofSlot_iff (hat.valid hL) hk hb).1 hsize
    obtain ⟨h3, h4, h5⟩ := hb.within (hat.valid hL)
    have hlen : s.len = 1 := by
      cases s with
      | chunks shift used => rfl
      | _ => exact hs.elim
    rw [hlen] at h4
    have hstop : b.addr < b.stop := Nat.lt_add_of_pos_right h5
    obtain rfl : q = j := by
      rcases Nat.lt_trichotomy q j with h | h | h
      · have := page_addr_mono (G := G) (show q + 1 ≤ j from h)
        omega
      · exact h
      · have := page_addr_mono (G := G) (show j + 1 ≤ q from h)
        omega
    exact ⟨s, hat, hs⟩
  · rintro ⟨s, hat, hs⟩
    cases s with
    | chunks shift used =>
      obtain ⟨c, hc⟩ := hS.nonempty shift used hat.mem
      obtain ⟨-, hlt, hu⟩ := hat.valid hL
      have hbound := G.chunk_lt hlt.le (hu c hc).2
      have hnext := page_addr_add (G := G) q 1
      have hb : Live G L ⟨G.page_addr q + c * 2 ^ shift, 2 ^ shift⟩ := ⟨q, _, hat, c, hc, rfl⟩
      refine ⟨_, hb, congrArg (2 ^ ·) hs, Nat.le_add_right _ _, ?_⟩
      simp only
      omega
    | _ => exact hs.elim

/-- the counter of all chunks of a slot is the number of chunks that requests can have, times the number of pages -/
theorem exists_opened (hL : Laid G L) (hS : Settled L) (hk : k < G.slots) :
    ∃ places : Finset ℕ, places.card * (G.chunks (k + min_shift) - G.reserved (k + min_shift)) = all_chunks G k L ∧
      ∀ q, q ∈ places ↔ Opened G k L q := by
  obtain ⟨places, hcard, hmem⟩ := @exists_places _ Seg.len (Seg.OfSlot k) _ 0 L
  have hone : ∀ s : Seg, s.OfSlot k → s.len = 1 := by
    intro s hs
    cases s with
    | chunks shift used => rfl
    | _ => exact hs.elim
  refine ⟨places, ?_, fun q => ?_⟩
  · rw [hcard]
    clear hmem hcard hL hS
    induction L with
    | nil => simp [all_chunks]
    | cons s L ih =>
      simp only [all_chunks, span_cons, Nat.add_mul] at ih ⊢
      rw [ih]
      congr 1
      split_ifs with hs
      · rw [hone s hs, Nat.one_mul]
      · exact Nat.zero_mul _
  · rw [hmem, opened_iff hL hS hk]
    constructor
    · rintro ⟨j, s, hat, hs, h1, h2⟩
      rw [hone s hs] at h2
      obtain rfl : q = j := by omega
      exact ⟨s, hat, hs⟩
    · rintro ⟨s, hat, hs⟩
      exact ⟨q, s, hat, hs, le_rfl, Nat.lt_add_of_pos_right (hat.len_pos hL)⟩

end Shuttlesock.Slab
