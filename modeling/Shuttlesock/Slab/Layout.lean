/-
What the pages of a slab pool are used for, without links and bitmaps: the abstract model of the allocator.

Model: the pages in their order are segments: runs of free pages, runs that are one block, and pages of chunks of one size, each with the
set of its chunks in use. `held` is a run that `ngx_slab_free_pages` or `ngx_slab_alloc_pages` has in hand: neither free nor a block.
`Laid` is what every layout keeps, `Settled` what holds between two calls. `Live` are the blocks that were handed out.

- `Allocs G size L L' p`: a request for `size` bytes answered by `p`, or by 0.
- `Frees G p L L'`: the block at `p` given back; its page, when it becomes empty, joins the free pages next to it.

Results:
- `live_inside`, `live_apart`, `live_aligned`: the blocks are in the pool, aligned, and do not overlap.
-/
import Mathlib.Tactic
import Shuttlesock.Core.Blocks
import Shuttlesock.Core.Tiling
import Shuttlesock.Slab.Sizes

namespace Shuttlesock.Slab

open Shuttlesock.Tiling Shuttlesock.Blocks

inductive Seg where
  | free (n : ℕ)
  | held (n : ℕ)
  | run (n : ℕ)
  | chunks (shift : ℕ) (used : Finset ℕ)
deriving DecidableEq

/-- how many pages a segment has -/
def Seg.len : Seg → ℕ
  | .free n => n
  | .held n => n
  | .run n => n
  | .chunks _ _ => 1

@[simp] theorem Seg.len_free (n : ℕ) : (Seg.free n).len = n := rfl
@[simp] theorem Seg.len_held (n : ℕ) : (Seg.held n).len = n := rfl
@[simp] theorem Seg.len_run (n : ℕ) : (Seg.run n).len = n := rfl
@[simp] theorem Seg.len_chunks (shift : ℕ) (used : Finset ℕ) : (Seg.chunks shift used).len = 1 := rfl

def Seg.IsFree : Seg → Prop
  | .free _ => True
  | _ => False

/-- free pages at the end of the segments -/
def EndsFree (L : List Seg) : Prop := ∃ pre n, L = pre ++ [.free n]

/-- free pages at the start of the segments -/
def StartsFree (L : List Seg) : Prop := ∃ n post, L = .free n :: post

/-- the segment s starts at page j -/
abbrev SegAt (L : List Seg) (j : ℕ) (s : Seg) : Prop := At Seg.len 0 L j s

section

variable (G : Geometry)

/-- no chunk of the page is free -/
def Full (shift : ℕ) (used : Finset ℕ) : Prop := ∀ c < G.chunks shift, c < G.reserved shift ∨ c ∈ used

instance (shift : ℕ) (used : Finset ℕ) : Decidable (Full G shift used) := by unfold Full; infer_instance

def Seg.Valid : Seg → Prop
  | .chunks shift used =>
    min_shift ≤ shift ∧ shift < G.page_size_shift ∧ ∀ c ∈ used, G.reserved shift ≤ c ∧ c < G.chunks shift
  | s => 0 < s.len

structure Laid (L : List Seg) : Prop where
  total : span Seg.len L = G.pages
  valid : ∀ s ∈ L, s.Valid G

structure Settled (L : List Seg) : Prop where
  not_held : ∀ n, Seg.held n ∉ L
  nonempty : ∀ shift used, Seg.chunks shift used ∈ L → used.Nonempty
  /-- no two runs of free pages are neighbours -/
  joined : L.IsChain fun a b => ¬ (a.IsFree ∧ b.IsFree)

/-! ## Blocks -/

/-- the blocks of a segment at page j -/
def Seg.Has (j : ℕ) : Seg → Block → Prop
  | .run n, b => b = ⟨G.page_addr j, n * G.page_size⟩
  | .chunks shift used, b => ∃ c ∈ used, b = ⟨G.page_addr j + c * 2 ^ shift, 2 ^ shift⟩
  | _, _ => False

/-- the blocks that were handed out -/
def Live (L : List Seg) (b : Block) : Prop := ∃ j s, SegAt L j s ∧ s.Has G j b

/-- how many pages a request takes -/
def page_count (size : ℕ) : ℕ := size >>> G.page_size_shift + if size % G.page_size ≠ 0 then 1 else 0

/-- the bytes of the block for a request -/
def capacity (size : ℕ) : ℕ := if G.max_size < size then page_count G size * G.page_size else 2 ^ chunk_shift size

/-- what is left of a run of free pages -/
def rest (n : ℕ) : List Seg := if n = 0 then [] else [.free n]

inductive Allocs : ℕ → List Seg → List Seg → ℕ → Prop where
  | run {size n : ℕ} {pre post : List Seg} : G.max_size < size → page_count G size ≤ n →
      Allocs size (pre ++ [.free n] ++ post) (pre ++ (.run (page_count G size) :: rest (n - page_count G size)) ++ post)
        (G.page_addr (span Seg.len pre))
  | chunk {size c : ℕ} {used : Finset ℕ} {pre post : List Seg} : size ≤ G.max_size → c ∉ used →
      G.reserved (chunk_shift size) ≤ c → c < G.chunks (chunk_shift size) →
      Allocs size (pre ++ [.chunks (chunk_shift size) used] ++ post) (pre ++ [.chunks (chunk_shift size) (insert c used)] ++ post)
        (G.page_addr (span Seg.len pre) + c * 2 ^ chunk_shift size)
  | fresh {size n : ℕ} {pre post : List Seg} : size ≤ G.max_size → 1 ≤ n →
      Allocs size (pre ++ [.free n] ++ post)
        (pre ++ (.chunks (chunk_shift size) {G.reserved (chunk_shift size)} :: rest (n - 1)) ++ post)
        (G.page_addr (span Seg.len pre) + G.reserved (chunk_shift size) * 2 ^ chunk_shift size)
  | no_run {size : ℕ} {L : List Seg} : G.max_size < size → (∀ n, .free n ∈ L → n < page_count G size) → Allocs size L L 0
  | no_chunk {size : ℕ} {L : List Seg} : size ≤ G.max_size → (∀ n, .free n ∉ L) →
      (∀ used, .chunks (chunk_shift size) used ∈ L → Full G (chunk_shift size) used) → Allocs size L L 0

/-- the pages of an empty segment join the free pages in front and behind -/
inductive Joins (k : ℕ) : List Seg → List Seg → List Seg → Prop where
  | alone {pre post : List Seg} : ¬ EndsFree pre → ¬ StartsFree post → Joins k pre post (pre ++ [.free k] ++ post)
  | next {n : ℕ} {pre post : List Seg} : ¬ EndsFree pre → Joins k pre (.free n :: post) (pre ++ [.free (k + n)] ++ post)
  | prev {m : ℕ} {pre post : List Seg} : ¬ StartsFree post → Joins k (pre ++ [.free m]) post (pre ++ [.free (m + k)] ++ post)
  | both {m n : ℕ} {pre post : List Seg} : Joins k (pre ++ [.free m]) (.free n :: post) (pre ++ [.free (m + (k + n))] ++ post)

inductive Frees : ℕ → List Seg → List Seg → Prop where
  | run {n : ℕ} {pre post L' : List Seg} : Joins n pre post L' → Frees (G.page_addr (span Seg.len pre)) (pre ++ [.run n] ++ post) L'
  | chunk {shift c : ℕ} {used : Finset ℕ} {pre post : List Seg} : c ∈ used → (used.erase c).Nonempty →
      Frees (G.page_addr (span Seg.len pre) + c * 2 ^ shift) (pre ++ [.chunks shift used] ++ post)
        (pre ++ [.chunks shift (used.erase c)] ++ post)
  | page {shift c : ℕ} {pre post L' : List Seg} : Joins 1 pre post L' →
      Frees (G.page_addr (span Seg.len pre) + c * 2 ^ shift) (pre ++ [.chunks shift {c}] ++ post) L'

end

variable {G : Geometry} {L L' pre post : List Seg} {j k n : ℕ} {s t : Seg} {b b' : Block}

theorem Laid.len_pos (h : Laid G L) : ∀ s ∈ L, 0 < s.len := by
  intro s hs
  have := h.valid s hs
  cases s with
  | chunks shift used => exact Nat.one_pos
  | _ => exact this

theorem SegAt.lt_pages (h : Laid G L) (hs : SegAt L j s) : j + s.len ≤ G.pages := by
  have hle : j + s.len ≤ 0 + span Seg.len L := hs.range.2
  rwa [zero_add, h.total] at hle

theorem SegAt.len_pos (h : Laid G L) (hs : SegAt L j s) : 0 < s.len := h.len_pos s hs.mem

theorem SegAt.valid (h : Laid G L) (hs : SegAt L j s) : s.Valid G := h.valid s hs.mem

/-- two segments with a page in common are one -/
theorem SegAt.unique (hs : SegAt L j s) (ht : SegAt L k t) {q : ℕ} (h1 : j ≤ q) (h2 : q < j + s.len) (h3 : k ≤ q)
    (h4 : q < k + t.len) : j = k ∧ s = t := by
  rcases hs.apart ht with h | h | h
  · exact h
  · omega
  · omega

/-! ## Blocks of a layout -/

/-- a block lies in the pages of its segment -/
theorem Seg.Has.within (hv : s.Valid G) (hb : s.Has G j b) :
    G.page_addr j ≤ b.addr ∧ b.stop ≤ G.page_addr (j + s.len) ∧ 0 < b.size := by
  cases s with
  | free n => exact hb.elim
  | held n => exact hb.elim
  | run n =>
    obtain rfl : b = _ := hb
    refine ⟨le_rfl, ?_, Nat.mul_pos hv G.page_size_pos⟩
    simp only [Block.stop, Geometry.page_addr_eq, Seg.len_run, Nat.add_mul]
    omega
  | chunks shift used =>
    obtain ⟨c, hc, rfl⟩ := hb
    obtain ⟨-, hs, hu⟩ := hv
    have hmul := G.chunks_mul hs.le
    have : (c + 1) * 2 ^ shift ≤ G.chunks shift * 2 ^ shift := Nat.mul_le_mul_right _ (hu c hc).2
    refine ⟨Nat.le_add_right _ _, ?_, Nat.two_pow_pos _⟩
    simp only [Block.stop, Geometry.page_addr_eq, Seg.len_chunks, Nat.add_mul, one_mul] at this ⊢
    omega

/-- two blocks of one segment are one or do not overlap -/
theorem Seg.Has.apart (hb : s.Has G j b) (hb' : s.Has G j b') : b = b' ∨ Apart b b' := by
  cases s with
  | free n => exact hb.elim
  | held n => exact hb.elim
  | run n =>
    obtain rfl : b = _ := hb
    obtain rfl : b' = _ := hb'
    exact .inl rfl
  | chunks shift used =>
    obtain ⟨c, -, rfl⟩ := hb
    obtain ⟨d, -, rfl⟩ := hb'
    rcases Nat.lt_trichotomy c d with h | rfl | h
    · have : (c + 1) * 2 ^ shift ≤ d * 2 ^ shift := Nat.mul_le_mul_right _ h
      rw [Nat.add_mul, one_mul] at this
      exact .inr (.inl (by simp only [Block.stop]; omega))
    · exact .inl rfl
    · have : (d + 1) * 2 ^ shift ≤ c * 2 ^ shift := Nat.mul_le_mul_right _ h
      rw [Nat.add_mul, one_mul] at this
      exact .inr (.inr (by simp only [Block.stop]; omega))

theorem page_addr_mono (h : j ≤ k) : G.page_addr j ≤ G.page_addr k := by
  rw [G.page_addr_eq, G.page_addr_eq]
  exact Nat.add_le_add_right (Nat.mul_le_mul_right _ h) _

theorem live_inside (hL : Laid G L) (hb : Live G L b) :
    G.start ≤ b.addr ∧ b.stop ≤ G.start + G.pages * G.page_size ∧ 0 < b.size := by
  obtain ⟨j, s, hs, hb⟩ := hb
  obtain ⟨h1, h2, h3⟩ := hb.within (hs.valid hL)
  have h4 := (page_addr_mono (G := G) (hs.lt_pages hL))
  have h5 : G.page_addr G.pages = G.start + G.pages * G.page_size := by rw [G.page_addr_eq, Nat.add_comm]
  have h6 : G.start ≤ G.page_addr j := by rw [G.page_addr_eq]; exact Nat.le_add_left _ _
  omega

theorem live_apart (hL : Laid G L) (hb : Live G L b) (hb' : Live G L b') : b = b' ∨ Apart b b' := by
  obtain ⟨j, s, hs, hb⟩ := hb
  obtain ⟨k, t, ht, hb'⟩ := hb'
  obtain ⟨h1, h2, -⟩ := hb.within (hs.valid hL)
  obtain ⟨h3, h4, -⟩ := hb'.within (ht.valid hL)
  rcases hs.apart ht with ⟨rfl, rfl⟩ | h | h
  · exact hb.apart hb'
  · exact .inr (.inl (h2.trans ((page_addr_mono h).trans h3)))
  · exact .inr (.inr (h4.trans ((page_addr_mono h).trans h1)))

/-- a block is known by its address -/
theorem live_unique (hL : Laid G L) (hb : Live G L b) (hb' : Live G L b') (h : b.addr = b'.addr) : b = b' := by
  rcases live_apart hL hb hb' with he | ha
  · exact he
  · have h1 := (live_inside hL hb).2.2
    have h2 := (live_inside hL hb').2.2
    simp only [Apart, Block.stop] at ha
    omega

/-- the size of a chunk divides its address, and a page the address of a run -/
theorem live_aligned (hL : Laid G L) (hb : Live G L b) :
    (∃ shift, min_shift ≤ shift ∧ b.size = 2 ^ shift ∧ 2 ^ shift ∣ b.addr) ∨ G.page_size ∣ b.size ∧ G.page_size ∣ b.addr := by
  obtain ⟨j, s, hs, hb⟩ := hb
  have hpage : G.page_size ∣ G.page_addr j := by
    rw [G.page_addr_eq]
    exact Nat.dvd_add (Nat.dvd_mul_left _ _) G.aligned
  cases s with
  | free n => exact hb.elim
  | held n => exact hb.elim
  | run n =>
    obtain rfl : b = _ := hb
    exact .inr ⟨Nat.dvd_mul_left _ _, hpage⟩
  | chunks shift used =>
    obtain ⟨c, -, rfl⟩ := hb
    obtain ⟨h3, hs, -⟩ := hs.valid hL
    exact .inl ⟨shift, h3, rfl, Nat.dvd_add ((pow_dvd_pow 2 hs.le).trans hpage) (Nat.dvd_mul_left _ _)⟩

end Shuttlesock.Slab
