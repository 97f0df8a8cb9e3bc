/-
Sizes and bitmaps of the shared memory slab (`shared_slab.c`): the arithmetic of pages and chunks, and what the loops over the bits of a
bitmap find.

Results:
- `exact_shift_eq`, `chunks_eq`, `reserved_bits`, `reserved_room`: sizes as powers of two; the bitmap of a page of small chunks fits into the
  chunks it takes, and leaves room for more than one other chunk.
- `chunk_shift_lt`, `le_chunk`: the chunk for a request is one of the sizes that have a slot, and large enough.
- `clear_bit_some`, `clear_bit_none`: the first bit that is not set.
- `and_bit`, `or_bit`, `and_not_bit`: testing, setting and clearing one bit.
-/
import Mathlib.Tactic
import Shuttlesock.Slab.Pool

namespace Shuttlesock.Slab

variable (G : Geometry)

namespace Geometry

theorem page_size_pos : 0 < G.page_size := Nat.two_pow_pos _

theorem exact_shift_eq : G.exact_shift = G.page_size_shift - 6 := by
  have h := G.shift_ge
  have : G.exact_size = 2 ^ (G.page_size_shift - 6) := by
    unfold exact_size page_size
    rw [show 8 * 8 = 2 ^ 6 by rfl, Nat.pow_div (by omega) (by norm_num)]
  rw [exact_shift, this, Nat.log2_two_pow]

theorem exact_size_eq : G.exact_size = 2 ^ G.exact_shift := by
  rw [exact_shift_eq, exact_size, page_size, show 8 * 8 = 2 ^ 6 by rfl, Nat.pow_div (by have := G.shift_ge; omega) (by norm_num)]

theorem max_size_eq : G.max_size = 2 ^ (G.page_size_shift - 1) := by
  have h := Nat.pow_div (show 1 ≤ G.page_size_shift by have := G.shift_ge; omega) (show 0 < 2 by norm_num)
  rwa [pow_one] at h

theorem chunks_eq {shift : ℕ} (h : shift ≤ G.page_size_shift) : G.chunks shift = 2 ^ (G.page_size_shift - shift) := by
  rw [chunks, Nat.shiftRight_eq_div_pow, page_size, Nat.pow_div h (by norm_num)]

theorem page_addr_eq (i : ℕ) : G.page_addr i = i * G.page_size + G.start := by
  rw [page_addr, Nat.shiftLeft_eq, page_size]

/-- the chunks of a page that hold its bitmap -/
def reserved (shift : ℕ) : ℕ := if shift < G.exact_shift then G.bitmap_chunks shift else 0

/-- a page as chunks -/
theorem chunks_mul {shift : ℕ} (h : shift ≤ G.page_size_shift) : G.chunks shift * 2 ^ shift = G.page_size := by
  rw [chunks_eq G h, ← pow_add, page_size, Nat.sub_add_cancel h]

theorem two_le_chunks {shift : ℕ} (h : shift < G.page_size_shift) : 2 ≤ G.chunks shift := by
  rw [chunks_eq G h.le]
  calc 2 = 2 ^ 1 := rfl
    _ ≤ 2 ^ (G.page_size_shift - shift) := Nat.pow_le_pow_right (by norm_num) (by omega)

/-- the bitmap of a page of small chunks has whole words, at least two -/
theorem chunks_words {shift : ℕ} (h : shift < G.exact_shift) : 64 ∣ G.chunks shift ∧ 128 ≤ G.chunks shift := by
  rw [exact_shift_eq] at h
  rw [chunks_eq G (by omega)]
  refine ⟨⟨2 ^ (G.page_size_shift - shift - 6), ?_⟩, ?_⟩
  · rw [show 64 = 2 ^ 6 by rfl, ← pow_add]
    congr 1
    omega
  · calc 128 = 2 ^ 7 := rfl
      _ ≤ 2 ^ (G.page_size_shift - shift) := Nat.pow_le_pow_right (by norm_num) (by omega)

theorem chunks_le_big {shift : ℕ} (h : G.exact_shift < shift) (hs : shift < G.page_size_shift) : G.chunks shift ≤ 32 := by
  rw [exact_shift_eq] at h
  rw [chunks_eq G hs.le]
  calc 2 ^ (G.page_size_shift - shift) ≤ 2 ^ 5 := Nat.pow_le_pow_right (by norm_num) (by omega)
    _ = 32 := rfl

theorem chunks_exact : G.chunks G.exact_shift = 64 := by
  rw [exact_shift_eq, chunks_eq G (by omega), show G.page_size_shift - (G.page_size_shift - 6) = 6 by have := G.shift_ge; omega]
  rfl

theorem bitmap_chunks_eq (shift : ℕ) : G.bitmap_chunks shift = max 1 (G.chunks shift / (2 ^ shift * 8)) := by
  unfold bitmap_chunks
  rw [Nat.shiftLeft_eq, one_mul]
  generalize G.chunks shift / (2 ^ shift * 8) = n
  rcases Nat.eq_zero_or_pos n with rfl | h
  · rfl
  · rw [max_eq_right h]
    exact if_neg (by omega)

/-- the bits of the bitmap fit into the chunks it takes -/
theorem reserved_bits {shift : ℕ} (h : shift < G.exact_shift) : G.chunks shift ≤ G.reserved shift * 2 ^ shift * 8 := by
  have hx := G.exact_shift_eq
  rw [reserved, if_pos h, bitmap_chunks_eq, chunks_eq G (by omega), mul_assoc, show 2 ^ shift * 8 = 2 ^ (shift + 3) by ring]
  rcases le_total (shift + 3) (G.page_size_shift - shift) with hle | hle
  · rw [Nat.pow_div hle (by norm_num)]
    calc 2 ^ (G.page_size_shift - shift)
        = 2 ^ (G.page_size_shift - shift - (shift + 3)) * 2 ^ (shift + 3) := by rw [← pow_add, Nat.sub_add_cancel hle]
      _ ≤ _ := Nat.mul_le_mul_right _ (le_max_right _ _)
  · calc 2 ^ (G.page_size_shift - shift) ≤ 1 * 2 ^ (shift + 3) := by
          rw [one_mul]; exact Nat.pow_le_pow_right (by norm_num) hle
      _ ≤ _ := Nat.mul_le_mul_right _ (le_max_left _ _)

/-- the bitmap takes at most one chunk for each of its words -/
theorem reserved_le {shift : ℕ} (h3 : min_shift ≤ shift) (h : shift < G.exact_shift) :
    1 ≤ G.reserved shift ∧ G.reserved shift * 64 ≤ G.chunks shift := by
  obtain ⟨-, h128⟩ := G.chunks_words h
  rw [reserved, if_pos h, bitmap_chunks_eq]
  refine ⟨le_max_left _ _, ?_⟩
  have hd : 64 ≤ 2 ^ shift * 8 := by
    calc 64 = 2 ^ 3 * 8 := rfl
      _ ≤ 2 ^ shift * 8 := Nat.mul_le_mul_right _ (Nat.pow_le_pow_right (by norm_num) h3)
  have hq : G.chunks shift / (2 ^ shift * 8) * 64 ≤ G.chunks shift :=
    (Nat.mul_le_mul_left _ hd).trans (Nat.div_mul_le_self _ _)
  rcases le_total 1 (G.chunks shift / (2 ^ shift * 8)) with hm | hm
  · rw [max_eq_right hm]; exact hq
  · rw [max_eq_left hm]; omega

/-- two chunks at least are left for the users of a page -/
theorem reserved_room {shift : ℕ} (h3 : min_shift ≤ shift) (h : shift < G.page_size_shift) :
    G.reserved shift + 2 ≤ G.chunks shift := by
  by_cases hs : shift < G.exact_shift
  · have := G.reserved_le h3 hs
    have := (G.chunks_words hs).2
    omega
  · rw [reserved, if_neg hs]
    have := G.two_le_chunks h
    omega

theorem pages_lt : G.pages < 2 ^ 55 := by
  have h1 := G.room
  have h2 := G.stop_lt
  have h3 : 2 ^ 9 ≤ 2 ^ G.page_size_shift := Nat.pow_le_pow_right (by norm_num) G.shift_ge
  by_contra hc
  have : 2 ^ 55 * 2 ^ 9 ≤ G.pages * 2 ^ G.page_size_shift := Nat.mul_le_mul (Nat.le_of_not_lt hc) h3
  have : (2 : ℕ) ^ 55 * 2 ^ 9 = 2 ^ 64 := by rw [← pow_add]
  omega

/-- the words of a page -/
theorem words_eq : G.page_size / 8 = 2 ^ (G.page_size_shift - 3) := by
  rw [page_size, show 8 = 2 ^ 3 by rfl, Nat.pow_div (by have := G.shift_ge; omega) (by norm_num)]

theorem words_mul : G.page_size / 8 * 8 = G.page_size := by
  rw [words_eq, page_size, show 8 = 2 ^ 3 by rfl, ← pow_add, Nat.sub_add_cancel (by have := G.shift_ge; omega)]

/-- the bitmap words are words of their page -/
theorem bitmap_words_le (shift : ℕ) : G.chunks shift / 64 ≤ G.page_size / 8 := by
  have : G.chunks shift ≤ G.page_size := by
    rw [chunks, Nat.shiftRight_eq_div_pow]
    exact Nat.div_le_self _ _
  omega

end Geometry

theorem min_shift_le_chunk_shift (size : ℕ) : min_shift ≤ chunk_shift size := by
  unfold chunk_shift
  split_ifs with h
  · have h8 : 1 <<< min_shift = 8 := rfl
    rw [h8] at h
    have : 3 ≤ Nat.log2 (size - 1) := by
      rw [Nat.le_log2 (by omega)]
      omega
    exact this.trans (Nat.le_succ _)
  · exact le_rfl

/-- a chunk is large enough -/
theorem le_chunk (size : ℕ) : size ≤ 2 ^ chunk_shift size := by
  unfold chunk_shift
  split_ifs with h
  · have h8 : 1 <<< min_shift = 8 := rfl
    have := Nat.lt_log2_self (n := size - 1)
    omega
  · exact Nat.le_of_not_lt h

theorem chunk_shift_lt {size : ℕ} (h : size ≤ G.max_size) : chunk_shift size < G.page_size_shift := by
  have hg := G.shift_ge
  rw [G.max_size_eq] at h
  unfold chunk_shift
  split_ifs with h1
  · have h8 : 1 <<< min_shift = 8 := rfl
    have : Nat.log2 (size - 1) < G.page_size_shift - 1 := by
      rw [Nat.log2_lt (by omega)]
      omega
    omega
  · have : min_shift = 3 := rfl
    omega

/-! ## Bits -/

theorem getLsbD_one_shiftLeft (i j : ℕ) : (1#64 <<< i).getLsbD j = decide (i < 64 ∧ i = j) := by
  rw [← BitVec.twoPow_eq, BitVec.getLsbD_twoPow, Bool.decide_and]

theorem and_bit (w : Word) (i : ℕ) : w &&& 1#64 <<< i = 0 ↔ w.getLsbD i = false := by
  rw [← BitVec.twoPow_eq, BitVec.and_twoPow]
  cases h : w.getLsbD i with
  | false => simp
  | true =>
    have hi : i < 64 := BitVec.lt_of_getLsbD h
    simp only [if_true, Bool.true_eq_false, iff_false]
    intro e
    have := congrArg (fun v => BitVec.getLsbD v i) e
    simp [hi] at this

theorem or_bit {w : Word} {i : ℕ} (hi : i < 64) (j : ℕ) : (w ||| 1#64 <<< i).getLsbD j = (w.getLsbD j || decide (j = i)) := by
  rw [BitVec.getLsbD_or, getLsbD_one_shiftLeft]
  simp [hi, eq_comm]

theorem and_not_bit (w : Word) (i j : ℕ) : (w &&& ~~~(1#64 <<< i)).getLsbD j = (w.getLsbD j && !decide (j = i)) := by
  rw [BitVec.getLsbD_and, BitVec.getLsbD_not, getLsbD_one_shiftLeft]
  by_cases hj : j < 64
  · by_cases hij : i = j
    · subst hij; simp [hj]
    · simp [hj, hij, Ne.symm hij]
  · simp [BitVec.getLsbD_of_ge w j (by omega)]

/-- a word with every bit set -/
theorem eq_busy_iff (w : Word) : w = NGX_SLAB_BUSY ↔ ∀ i < 64, w.getLsbD i = true := by
  have hb : ∀ i < 64, NGX_SLAB_BUSY.getLsbD i = true := fun i hi => by
    have : NGX_SLAB_BUSY = BitVec.allOnes 64 := rfl
    rw [this, BitVec.getLsbD_allOnes, decide_eq_true hi]
  constructor
  · rintro rfl
    exact hb
  · intro h
    refine BitVec.eq_of_getLsbD_eq fun i hi => ?_
    rw [h i hi, hb i hi]

theorem eq_zero_iff (w : Word) : w = 0 ↔ ∀ i < 64, w.getLsbD i = false := by
  constructor
  · rintro rfl i -
    simp
  · intro h
    refine BitVec.eq_of_getLsbD_eq fun i hi => ?_
    rw [h i hi]
    simp

theorem clear_bit_some {w : Word} {b : ℕ} (h : Pool.clear_bit w = some b) :
    b < 64 ∧ w.getLsbD b = false ∧ ∀ i < b, w.getLsbD i = true := by
  obtain ⟨h1, h2, h3⟩ := List.find?_range_eq_some.1 h
  refine ⟨by simpa using h2, (and_bit w b).1 (by simpa using h1), fun i hi => ?_⟩
  have hw := h3 i hi
  simp only [Bool.not_eq_true', beq_eq_false_iff_ne, ne_eq] at hw
  cases hv : w.getLsbD i with
  | true => rfl
  | false => exact absurd ((and_bit w i).2 hv) hw

theorem clear_bit_none {w : Word} (h : Pool.clear_bit w = none) : w = NGX_SLAB_BUSY := by
  rw [eq_busy_iff]
  intro i hi
  have hw := List.find?_range_eq_none.1 h i hi
  cases hv : w.getLsbD i with
  | true => rfl
  | false =>
    rw [(and_bit w i).2 hv] at hw
    exact absurd hw (by simp)

/-- `(1 << n) - 1` -/
theorem low_mask {n : ℕ} (hn : n < 64) (i : ℕ) : (1#64 <<< n - 1).getLsbD i = decide (i < n) := by
  have h : 1#64 <<< n - 1 = BitVec.ofNat 64 (2 ^ n - 1) := by
    have hlt : 2 ^ n < 2 ^ 64 := Nat.pow_lt_pow_right (by norm_num) hn
    have hpos : 0 < 2 ^ n := Nat.two_pow_pos n
    refine BitVec.eq_of_toNat_eq ?_
    rw [← BitVec.twoPow_eq]
    simp only [BitVec.toNat_sub, BitVec.toNat_twoPow, BitVec.toNat_ofNat]
    have h1 : (1 : BitVec 64).toNat = 1 := rfl
    rw [h1]
    omega
  rw [h, BitVec.getLsbD_ofNat, Nat.testBit_two_pow_sub_one]
  by_cases hi : i < n
  · simp [hi, hi.trans hn]
  · simp [hi]

theorem getLsbD_map_mask (i : ℕ) : NGX_SLAB_MAP_MASK.getLsbD i = decide (32 ≤ i ∧ i < 64) := by
  have h : NGX_SLAB_MAP_MASK = BitVec.allOnes 64 <<< 32 := by decide
  rw [h, BitVec.getLsbD_shiftLeft, BitVec.getLsbD_allOnes, Bool.eq_iff_iff]
  simp only [Bool.and_eq_true, decide_eq_true_eq, Bool.not_eq_true', decide_eq_false_iff_not]
  omega

theorem getLsbD_shift_mask (i : ℕ) : NGX_SLAB_SHIFT_MASK.getLsbD i = decide (i < 4) := by
  have h : NGX_SLAB_SHIFT_MASK = 1#64 <<< 4 - 1 := by decide
  rw [h, low_mask (by norm_num)]

/-- the shift that the low bits of `slab` hold -/
theorem shift_of_slab {w : Word} {shift : ℕ} (h : ∀ b < 32, w.getLsbD b = (BitVec.ofNat 64 shift).getLsbD b) (hs : shift < 16) :
    (w &&& NGX_SLAB_SHIFT_MASK).toNat = shift := by
  have he : w &&& NGX_SLAB_SHIFT_MASK = BitVec.ofNat 64 shift := by
    refine BitVec.eq_of_getLsbD_eq fun i _ => ?_
    rw [BitVec.getLsbD_and, getLsbD_shift_mask]
    by_cases hi : i < 4
    · simp only [hi, decide_true, Bool.and_true]
      exact h i (by omega)
    · have : shift.testBit i = false := Nat.testBit_lt_two_pow (hs.trans_le (by
        calc 16 = 2 ^ 4 := rfl
          _ ≤ 2 ^ i := Nat.pow_le_pow_right (by norm_num) (by omega)))
      simp [hi, BitVec.getLsbD_ofNat, this]
  rw [he, BitVec.toNat_ofNat, Nat.mod_eq_of_lt (by omega)]

variable {G} in
theorem getLsbD_big_mask {shift : ℕ} (h : G.exact_shift < shift) (hs : shift < G.page_size_shift) (i : ℕ) :
    (Pool.big_mask G shift).getLsbD i = decide (32 ≤ i ∧ i < 32 + G.chunks shift) := by
  have hc := G.chunks_le_big h hs
  rw [Pool.big_mask, BitVec.getLsbD_shiftLeft, low_mask (by omega)]
  have h32 : NGX_SLAB_MAP_SHIFT = 32 := rfl
  rw [h32, Bool.eq_iff_iff]
  simp only [Bool.and_eq_true, decide_eq_true_eq, Bool.not_eq_true', decide_eq_false_iff_not]
  omega

/-! ## Addresses -/

namespace Geometry

/-- where an address of the pages is -/
theorem locate {p : ℕ} (h1 : G.start ≤ p) (h2 : p < G.start + G.pages * G.page_size) :
    ∃ i off, i < G.pages ∧ off < G.page_size ∧ p = G.page_addr i + off := by
  have hps := G.page_size_pos
  refine ⟨(p - G.start) / G.page_size, (p - G.start) % G.page_size, ?_, Nat.mod_lt _ hps, ?_⟩
  · rw [Nat.div_lt_iff_lt_mul hps]
    omega
  · have := Nat.div_add_mod' (p - G.start) G.page_size
    rw [page_addr_eq]
    omega

theorem page_of {i off : ℕ} (h : off < G.page_size) : (G.page_addr i + off - G.start) >>> G.page_size_shift = i := by
  have hps : G.page_size = 2 ^ G.page_size_shift := rfl
  rw [Nat.shiftRight_eq_div_pow, page_addr_eq, ← hps, show i * G.page_size + G.start + off - G.start = off + i * G.page_size by omega,
    Nat.add_mul_div_right _ _ G.page_size_pos, Nat.div_eq_of_lt h, zero_add]

theorem offset_of {i off : ℕ} (h : off < G.page_size) : (G.page_addr i + off) &&& (G.page_size - 1) = off := by
  have ha : G.page_size ∣ G.page_addr i := by
    rw [page_addr_eq]
    exact Nat.dvd_add (Nat.dvd_mul_left _ _) G.aligned
  have := Nat.and_two_pow_sub_one_eq_mod (G.page_addr i + off) G.page_size_shift
  rw [page_size] at h ha ⊢
  rw [this, Nat.add_mod, Nat.mod_eq_zero_of_dvd ha, zero_add, Nat.mod_mod, Nat.mod_eq_of_lt h]

/-- whether an address is that of a chunk -/
theorem chunk_offset {i off shift : ℕ} (h : shift ≤ G.page_size_shift) :
    (G.page_addr i + off) &&& (1 <<< shift - 1) = off % 2 ^ shift := by
  have ha : 2 ^ shift ∣ G.page_addr i := by
    rw [page_addr_eq]
    exact (pow_dvd_pow 2 h).trans (Nat.dvd_add (Nat.dvd_mul_left _ _) G.aligned)
  rw [Nat.shiftLeft_eq, one_mul, Nat.and_two_pow_sub_one_eq_mod, Nat.add_mod, Nat.mod_eq_zero_of_dvd ha, zero_add, Nat.mod_mod]

theorem chunk_lt {shift c : ℕ} (h : shift ≤ G.page_size_shift) (hc : c < G.chunks shift) : c * 2 ^ shift < G.page_size := by
  rw [← G.chunks_mul h]
  exact Nat.mul_lt_mul_of_pos_right hc (Nat.two_pow_pos _)

end Geometry

end Shuttlesock.Slab
