/-
What `ngx_slab_free_locked` (`shared_slab.c`) does with an address that is no block.

`Complaint G c p text`: the address p is not in the pool, or not at the start of a chunk or of a page, or at one that is free, or inside
a block of several pages; `text` is what `ngx_slab_error` is called with. `Client.Bitmap`: an address in the bitmap that the allocator keeps
at the start of a page of small chunks.

Results:
- `free_complains`: for each `Complaint` that text is reported and nothing else happens;
- `free_cases`: every address of the pages or outside of the pool is a block, a `Complaint`, or in a bitmap;
- `free_bitmap`: an address in a bitmap is not noticed; its chunk counts as free from then on.
-/
import Mathlib.Tactic
import Shuttlesock.Slab.Client

namespace Shuttlesock.Slab

open Shuttlesock.Tiling Shuttlesock.Blocks Shuttlesock.Runs

inductive Complaint (G : Geometry) (c : Client) : ℕ → String → Prop where
  | outside {p : ℕ} : p < G.start ∨ G.stop < p → Complaint G c p "ngx_slab_free(): outside of pool"
  | in_chunk {k q off : ℕ} : k < G.slots → c.Opened G k q → off < G.page_size → off % 2 ^ (k + min_shift) ≠ 0 →
      Complaint G c (G.page_addr q + off) "ngx_slab_free(): pointer to wrong chunk"
  | free_chunk {k q d : ℕ} : k < G.slots → c.Opened G k q → G.reserved (k + min_shift) ≤ d → d < G.chunks (k + min_shift) →
      (∀ b ∈ c.live, b.addr ≠ G.page_addr q + d * 2 ^ (k + min_shift)) →
      Complaint G c (G.page_addr q + d * 2 ^ (k + min_shift)) "ngx_slab_free(): chunk is already free"
  | in_page {q off : ℕ} : q < G.pages → (∀ k < G.slots, ¬ c.Opened G k q) → off < G.page_size → off ≠ 0 →
      Complaint G c (G.page_addr q + off) "ngx_slab_free(): pointer to wrong chunk"
  | free_page {q : ℕ} : q < G.pages → c.Bare G q → Complaint G c (G.page_addr q) "ngx_slab_free(): page is already free"
  | later_page {q : ℕ} : q < G.pages → (∀ k < G.slots, ¬ c.Opened G k q) → ¬ c.Bare G q →
      (∀ b ∈ c.live, b.addr ≠ G.page_addr q) → Complaint G c (G.page_addr q) "ngx_slab_free(): pointer to wrong page"

/-- an address in the bitmap of a page of small chunks -/
def Client.Bitmap (G : Geometry) (c : Client) (p : ℕ) : Prop :=
  ∃ k q d, k < G.slots ∧ c.Opened G k q ∧ d < G.reserved (k + min_shift) ∧ p = G.page_addr q + d * 2 ^ (k + min_shift)

variable {G : Geometry} {c : Client} {P : Pool} {L : List Seg} {qs : Option ℕ → List Ref} {j k q off shift d p t : ℕ} {used : Finset ℕ}
  {text : String} {s : Seg}

/-! ## Pages of chunks -/

theorem in_chunk_eq (hR : Rep G P L qs) (hat : SegAt L q (.chunks shift used)) (hoff : off < G.page_size) (h : off % 2 ^ shift ≠ 0) :
    P.ngx_slab_free_locked G (G.page_addr q + off) = some (P.error "ngx_slab_free(): pointer to wrong chunk") := by
  obtain ⟨htype, -, hmark⟩ := hR.shown q _ hat
  obtain ⟨h3, hs, -⟩ := hat.valid hR.laid
  have hle := SegAt.lt_pages hR.laid hat
  simp only [Seg.len_chunks] at hle
  rw [free_locked_eq (by omega) hoff, htype]
  rcases Nat.lt_trichotomy shift G.exact_shift with hlt | rfl | hgt
  · rw [kind_small hlt]
    simp only [small_free_eq ((marked_small hlt).1 hmark).1 hs hoff, if_pos h]
    rfl
  · rw [kind_exact]
    simp only [exact_free_eq hoff, if_pos h]
    rfl
  · rw [kind_big hgt]
    simp only [big_free_eq ((marked_big hgt).1 hmark).1 hs hoff, if_pos h]
    rfl

theorem free_chunk_eq (hR : Rep G P L qs) (hat : SegAt L q (.chunks shift used)) (h1 : G.reserved shift ≤ d) (h2 : d < G.chunks shift)
    (hd : d ∉ used) :
    P.ngx_slab_free_locked G (G.page_addr q + d * 2 ^ shift) = some (P.error "ngx_slab_free(): chunk is already free") := by
  obtain ⟨htype, -, hmark⟩ := hR.shown q _ hat
  obtain ⟨h3, hs, -⟩ := hat.valid hR.laid
  have hle := SegAt.lt_pages hR.laid hat
  simp only [Seg.len_chunks] at hle
  have hoff := G.chunk_lt hs.le h2
  have hdiv : d * 2 ^ shift / 2 ^ shift = d := Nat.mul_div_cancel _ (Nat.two_pow_pos _)
  have hmod : ¬ d * 2 ^ shift % 2 ^ shift ≠ 0 := not_not.2 (Nat.mul_mod_left _ _)
  rw [free_locked_eq (by omega) hoff, htype]
  rcases Nat.lt_trichotomy shift G.exact_shift with hlt | rfl | hgt
  · obtain ⟨hslab, hbits⟩ := (marked_small hlt).1 hmark
    have hbit : ¬ (P.mem (G.word q (d / 64))).getLsbD (d % 64) = true := by
      rw [hbits d h2, decide_eq_true_eq]
      exact not_or.2 ⟨Nat.not_lt_of_le h1, hd⟩
    rw [kind_small hlt]
    simp only [small_free_eq hslab hs hoff, if_neg hmod, hdiv, if_neg hbit]
    rfl
  · have hbit : ¬ (P.slab (.page q)).getLsbD d = true := by
      rw [marked_exact.1 hmark d, decide_eq_true_eq]
      exact hd
    rw [kind_exact]
    simp only [exact_free_eq hoff, if_neg hmod, hdiv, if_neg hbit]
    rfl
  · obtain ⟨hlow, hbits⟩ := (marked_big hgt).1 hmark
    have hbit : ¬ (P.slab (.page q)).getLsbD (NGX_SLAB_MAP_SHIFT + d) = true := by
      rw [hbits d, decide_eq_true_eq]
      exact hd
    rw [kind_big hgt]
    simp only [big_free_eq hlow hs hoff, if_neg hmod, hdiv, if_neg hbit]
    rfl

/-! ## Other pages -/

/-- a segment that is not a page of chunks -/
def Seg.Whole : Seg → Prop
  | .chunks _ _ => False
  | _ => True

theorem whole_type (hR : Rep G P L qs) (hS : Settled L) (hat : SegAt L j s) (hs : s.Whole) (h1 : j ≤ t) (h2 : t < j + s.len) :
    (P.prev (.page t)).type = .page := by
  have hshown := hR.shown j s hat
  cases s with
  | chunks shift used => exact hs.elim
  | held n => exact absurd hat.mem (hS.not_held n)
  | free n =>
    obtain ⟨-, -, h3, h4, -⟩ := hshown
    rcases h1.eq_or_lt with rfl | hlt
    · exact h3
    · exact (h4 t hlt h2).type
  | run n =>
    obtain ⟨-, -, h3, h4⟩ := hshown
    rcases h1.eq_or_lt with rfl | hlt
    · exact h3
    · exact (h4 t hlt h2).2.2

theorem in_page_eq (hR : Rep G P L qs) (hS : Settled L) (hat : SegAt L j s) (hs : s.Whole) (h1 : j ≤ t) (h2 : t < j + s.len)
    (hoff : off < G.page_size) (h : off ≠ 0) :
    P.ngx_slab_free_locked G (G.page_addr t + off) = some (P.error "ngx_slab_free(): pointer to wrong chunk") := by
  have hle := hat.lt_pages hR.laid
  rw [free_locked_eq (by omega) hoff, whole_type hR hS hat hs h1 h2]
  simp only [Pool.page_free]
  rw [G.offset_of hoff, if_pos h]
  rfl

/-- the first page of nothing: free, or not the first one of a block -/
theorem page_eq (hR : Rep G P L qs) (hS : Settled L) (hat : SegAt L j s) (h1 : j ≤ t) (h2 : t < j + s.len) :
    (s.IsFree → P.ngx_slab_free_locked G (G.page_addr t) = some (P.error "ngx_slab_free(): page is already free")) ∧
    (∀ n, s = .run n → j < t → P.ngx_slab_free_locked G (G.page_addr t) = some (P.error "ngx_slab_free(): pointer to wrong page")) := by
  have hle := hat.lt_pages hR.laid
  have heq : s.Whole → P.ngx_slab_free_locked G (G.page_addr t) = P.page_free G t (G.page_addr t) := by
    intro hs
    have := free_locked_eq (P := P) (show t < G.pages by omega) G.page_size_pos
    rwa [Nat.add_zero, whole_type hR hS hat hs h1 h2] at this
  have hoff : G.page_addr t &&& (G.page_size - 1) = 0 := G.offset_of G.page_size_pos
  have hshown := hR.shown j s hat
  constructor
  · intro hfree
    obtain ⟨n, rfl⟩ := isFree_iff.1 hfree
    obtain ⟨hslab, -, -, hblank, -⟩ := hshown
    simp only [Seg.len_free] at h2 hle
    have hbit : P.slab (.page t) &&& NGX_SLAB_PAGE_START = 0 := by
      rw [start_bit, and_bit]
      rcases h1.eq_or_lt with rfl | hlt
      · rw [hslab]
        exact ofNat_high (G := G) (by omega) (by norm_num)
      · rw [(hblank t hlt h2).slab]
        simp
    rw [heq trivial]
    simp only [Pool.page_free, hoff, ne_eq, not_true_eq_false, if_false, if_pos hbit]
  · rintro n rfl hlt
    obtain ⟨hslab, -⟩ := hshown.2.2.2 t hlt h2
    have hbit : ¬ NGX_SLAB_PAGE_BUSY &&& NGX_SLAB_PAGE_START = 0 := by decide
    rw [heq trivial]
    simp only [Pool.page_free, hoff, ne_eq, not_true_eq_false, if_false, hslab, if_neg hbit, if_true]

/-! ## In terms of blocks -/

theorem Good.chunks_at (h : Good G c L) (hk : k < G.slots) (ho : c.Opened G k q) : ∃ used, SegAt L q (.chunks (k + min_shift) used) := by
  obtain ⟨s, hat, hs⟩ := (Slab.opened_iff h.inv.laid h.inv.settled hk).1 ((h.opened_iff hk).1 ho)
  cases s with
  | chunks shift used =>
    obtain rfl : shift = k + min_shift := hs
    exact ⟨used, hat⟩
  | _ => exact hs.elim

/-- the segment of a page -/
theorem Good.seg_at (h : Good G c L) (hq : q < G.pages) : ∃ j s, SegAt L j s ∧ j ≤ q ∧ q < j + s.len := by
  have hlt : q < 0 + span Seg.len L := by rwa [Nat.zero_add, h.inv.laid.total]
  exact exists_at (Nat.zero_le q) hlt

theorem Good.whole (h : Good G c L) (hat : SegAt L j s) (h1 : j ≤ q) (h2 : q < j + s.len) (hno : ∀ k < G.slots, ¬ c.Opened G k q) :
    s.Whole := by
  cases s with
  | chunks shift used =>
    obtain ⟨h3, hs, -⟩ := SegAt.valid h.inv.laid hat
    have hk : shift - min_shift < G.slots := by
      show _ < G.page_size_shift - min_shift
      omega
    obtain rfl : j = q := by simp only [Seg.len_chunks] at h2; omega
    refine absurd ?_ (hno _ hk)
    exact (h.opened_iff hk).2 ((Slab.opened_iff h.inv.laid h.inv.settled hk).2 ⟨_, hat, (Nat.sub_add_cancel h3).symm⟩)
  | _ => trivial

/-- a chunk in use is a block of a process -/
theorem Good.chunk_mem (h : Good G c L) (hat : SegAt L q (.chunks shift used)) (hd : d ∈ used) :
    ∃ b ∈ c.live, b.addr = G.page_addr q + d * 2 ^ shift := by
  obtain ⟨a, ha, he⟩ := (h.blocks _).1 ⟨q, _, hat, d, hd, rfl⟩
  exact ⟨a, ha, (congrArg Block.addr he).symm⟩

theorem Good.complains (hgood : Good G c L) (hc : Complaint G c p text) :
    c.pool.ngx_slab_free_locked G p = some (c.pool.error text) := by
  obtain ⟨qs, hR⟩ := hgood.inv.rep
  have hS := hgood.inv.settled
  cases hc with
  | outside hout =>
    have hcond : (decide (p < G.start) || decide (G.stop < p)) = true := by simpa using hout
    rw [Pool.ngx_slab_free_locked, if_pos hcond]
  | in_chunk hk ho hoff hmod =>
    obtain ⟨used, hat⟩ := hgood.chunks_at hk ho
    exact in_chunk_eq hR hat hoff hmod
  | free_chunk hk ho h1 h2 hno =>
    obtain ⟨used, hat⟩ := hgood.chunks_at hk ho
    refine free_chunk_eq hR hat h1 h2 fun hd => ?_
    obtain ⟨b, hb, he⟩ := hgood.chunk_mem hat hd
    exact hno b hb he
  | in_page hq hno hoff hne =>
    obtain ⟨j, s, hat, h1, h2⟩ := hgood.seg_at hq
    exact in_page_eq hR hS hat (hgood.whole hat h1 h2 hno) h1 h2 hoff hne
  | free_page hq hbare =>
    obtain ⟨j, s, hat, hfree, h1, h2⟩ := (free_page_iff hR.laid hS hq).1 (hgood.bare_iff.1 hbare)
    exact (page_eq hR hS hat h1 h2).1 hfree
  | @later_page q hq hno hbare hlive =>
    obtain ⟨j, s, hat, h1, h2⟩ := hgood.seg_at hq
    have hs := hgood.whole hat h1 h2 hno
    cases s with
    | chunks shift used => exact hs.elim
    | held n => exact absurd hat.mem (hS.not_held n)
    | free n => exact absurd (hgood.bare_iff.2 ((free_page_iff hR.laid hS hq).2 ⟨j, _, hat, trivial, h1, h2⟩)) hbare
    | run n =>
      refine (page_eq hR hS hat h1 h2).2 n rfl (lt_of_le_of_ne h1 fun he => ?_)
      subst he
      obtain ⟨b, hb, hbe⟩ := (hgood.blocks _).1 ⟨j, _, hat, rfl⟩
      exact hlive b hb (congrArg Block.addr hbe).symm

/-- an address outside of the pool or in its pages is a block, or is reported, or is in a bitmap -/
theorem free_cases (c : Client) (hp : G.stop < p ∨ p < G.start + G.pages * G.page_size) :
    (∃ b ∈ c.live, b.addr = p) ∨ (∃ text, Complaint G c p text) ∨ c.Bitmap G p := by
  by_cases hout : p < G.start ∨ G.stop < p
  · exact .inr (.inl ⟨_, .outside hout⟩)
  · rw [not_or, not_lt] at hout
    obtain ⟨q, off, hq, hoff, rfl⟩ := G.locate hout.1 (hp.resolve_left hout.2)
    by_cases hopen : ∃ k < G.slots, c.Opened G k q
    · obtain ⟨k, hk, ho⟩ := hopen
      by_cases hmod : off % 2 ^ (k + min_shift) = 0
      · obtain ⟨d, rfl⟩ : ∃ d, off = d * 2 ^ (k + min_shift) := ⟨off / 2 ^ (k + min_shift), (Nat.div_mul_cancel (Nat.dvd_of_mod_eq_zero hmod)).symm⟩
        have hs : k + min_shift ≤ G.page_size_shift := by
          have : k < G.page_size_shift - min_shift := hk
          omega
        have hd : d < G.chunks (k + min_shift) := by
          rw [← G.chunks_mul hs] at hoff
          exact Nat.lt_of_mul_lt_mul_right hoff
        by_cases hres : d < G.reserved (k + min_shift)
        · exact .inr (.inr ⟨k, q, d, hk, ho, hres, rfl⟩)
        · by_cases hlive : ∃ b ∈ c.live, b.addr = G.page_addr q + d * 2 ^ (k + min_shift)
          · exact .inl hlive
          · push Not at hlive
            exact .inr (.inl ⟨_, .free_chunk hk ho (Nat.le_of_not_lt hres) hd hlive⟩)
      · exact .inr (.inl ⟨_, .in_chunk hk ho hoff hmod⟩)
    · push Not at hopen
      by_cases hzero : off = 0
      · subst hzero
        rw [Nat.add_zero]
        by_cases hbare : c.Bare G q
        · exact .inr (.inl ⟨_, .free_page hq hbare⟩)
        · by_cases hlive : ∃ b ∈ c.live, b.addr = G.page_addr q
          · exact .inl hlive
          · push Not at hlive
            exact .inr (.inl ⟨_, .later_page hq hopen hbare hlive⟩)
      · exact .inr (.inl ⟨_, .in_page hq hopen hoff hzero⟩)

/-! ## Bitmaps -/

theorem findSome?_range_first {β : Type*} {f : ℕ → Option β} {n N : ℕ} {y : β} (hn : n < N) (h : f n = some y)
    (hno : ∀ i < n, f i = none) : (List.range N).findSome? f = some y := by
  induction N with
  | zero => omega
  | succ N ih =>
    rw [List.range_succ, List.findSome?_append]
    rcases Nat.lt_succ_iff_lt_or_eq.1 hn with hlt | rfl
    · rw [ih hlt]
      rfl
    · have hnone : (List.range n).findSome? f = none := List.findSome?_eq_none_iff.2 fun i hi => hno i (List.mem_range.1 hi)
      rw [hnone, List.findSome?_cons, h]
      rfl

/-- the first chunk that is free, found -/
theorem small_search_first {n b : ℕ} (hn : n < G.chunks shift / 64) (hb : b < 64) (hbit : (P.mem (G.word q n)).getLsbD b = false)
    (hbits : ∀ i < b, (P.mem (G.word q n)).getLsbD i = true) (hwords : ∀ i < n, P.mem (G.word q i) = NGX_SLAB_BUSY) :
    P.small_search G q shift = some (n, b) := by
  refine findSome?_range_first hn ?_ fun i hi => if_pos (hwords i hi)
  have hbusy : P.mem (G.word q n) ≠ NGX_SLAB_BUSY := fun hc => by
    have := (eq_busy_iff _).1 hc b hb
    rw [hbit] at this
    cases this
  have hclear : Pool.clear_bit (P.mem (G.word q n)) = some b := by
    refine List.find?_range_eq_some.2 ⟨by simpa using (and_bit _ b).2 hbit, by simpa using hb, fun i hi => ?_⟩
    have : ¬ P.mem (G.word q n) &&& 1#64 <<< i = 0 := by
      rw [and_bit, hbits i hi]
      exact Bool.noConfusion
    simpa using this
  rw [if_neg hbusy, hclear]
  rfl

/-- the bit of a chunk that the bitmap takes itself, cleared like that of a block -/
theorem bitmap_free_eq {pre post : List Seg} (hR : Rep G P (pre ++ [.chunks shift used] ++ post) qs) (hne : used.Nonempty)
    (hlt : shift < G.exact_shift) (hd : d < G.reserved shift) :
    ∃ P', P.ngx_slab_free_locked G (G.page_addr (span Seg.len pre) + d * 2 ^ shift) = some P' ∧ P'.errors = P.errors ∧
      P'.mem = Function.update P.mem (G.word (span Seg.len pre) (d / 64))
        (P.mem (G.word (span Seg.len pre) (d / 64)) &&& ~~~(1#64 <<< (d % 64))) := by
  obtain ⟨hat, ⟨htype, hnext, hmark⟩, hv⟩ := hR.at_mid
  obtain ⟨h3, hs, hu⟩ := hv
  have hle := hR.len_le
  simp only [Seg.len_chunks] at hle
  obtain ⟨hslab, hbits⟩ := (marked_small hlt).1 hmark
  obtain ⟨hdvd, h128⟩ := G.chunks_words hlt
  have hrle := G.reserved_le h3 hlt
  have hwords := G.bitmap_words_le shift
  have hdc : d < G.chunks shift := by omega
  have hoff := G.chunk_lt hs.le hdc
  have hdiv : d * 2 ^ shift / 2 ^ shift = d := Nat.mul_div_cancel _ (Nat.two_pow_pos _)
  have hmod : d * 2 ^ shift % 2 ^ shift = 0 := Nat.mul_mod_left _ _
  have hres : G.bitmap_chunks shift = G.reserved shift := (if_pos hlt).symm
  have hv' : (Seg.chunks shift ∅).Valid G := ⟨h3, hs, by simp⟩
  have hnot : ¬ Full G shift ∅ := fun hf => by
    have := list_empty hv'
    rw [list_of_full hf] at this
    cases this
  obtain ⟨P₁, h1, -, haside, -⟩ := hR.unmark hnot hv'
  generalize span Seg.len pre = a at *
  have hbit : (P.mem (G.word a (d / 64))).getLsbD (d % 64) = true := by
    rw [hbits d hdc]
    exact decide_eq_true (.inl hd)
  have hnone : (P.next (.page a)).isNone = true ↔ Full G shift used := by
    rw [Seg.list_chunks] at hnext
    rw [← Option.not_isSome, hnext]
    split_ifs with h
    · simp [h]
    · simp [h]
  have hmem : (P₁.setWord (G.word a (d / 64)) (P₁.mem (G.word a (d / 64)) &&& ~~~(1#64 <<< (d % 64)))).mem =
      Function.update P.mem (G.word a (d / 64)) (P.mem (G.word a (d / 64)) &&& ~~~(1#64 <<< (d % 64))) := by
    rw [Pool.setWord_mem, haside.mem]
  generalize hQ : P₁.setWord (G.word a (d / 64)) (P₁.mem (G.word a (d / 64)) &&& ~~~(1#64 <<< (d % 64))) = Q at hmem
  -- the page is not empty, as the bits of its blocks are set
  have hempty : (Q.mem (G.word a (G.reserved shift / 64)) &&& ~~~(1#64 <<< (G.reserved shift % 64) - 1) == 0 &&
      (List.range (G.chunks shift / 64)).all fun k => k ≤ G.reserved shift / 64 || Q.mem (G.word a k) == 0) = false := by
    obtain ⟨e, he⟩ := hne
    obtain ⟨he1, he2⟩ := hu e he
    have hset : (Q.mem (G.word a (e / 64))).getLsbD (e % 64) = true := by
      rw [hmem]
      by_cases hed : e / 64 = d / 64
      · rw [hed, Function.update_self, and_not_bit, ← hed, hbits e he2, decide_eq_true (.inr he), decide_eq_false (by omega)]
        rfl
      · rw [Function.update_of_ne fun hc => hed (word_inj (by omega) (by omega) hc).2, hbits e he2]
        exact decide_eq_true (.inr he)
    rw [Bool.eq_false_iff]
    intro hc
    simp only [Bool.and_eq_true, beq_iff_eq, List.all_eq_true, List.mem_range, Bool.or_eq_true, decide_eq_true_eq] at hc
    obtain ⟨hc1, hc2⟩ := hc
    by_cases hword : e / 64 = G.reserved shift / 64
    · have hzero := (eq_zero_iff _).1 hc1 (e % 64) (Nat.mod_lt _ (by norm_num))
      rw [BitVec.getLsbD_and, ← hword, hset, BitVec.getLsbD_not, low_mask (Nat.mod_lt _ (by norm_num)),
        decide_eq_true (Nat.mod_lt _ (by norm_num)), decide_eq_false (by omega)] at hzero
      cases hzero
    · rcases hc2 (e / 64) (by omega) with hle' | hzero
      · omega
      · rw [hzero] at hset
        simp at hset
  refine ⟨Q.setStat (shift - min_shift) fun s => { s with used := s.used - 1 }, ?_, ?_, hmem⟩
  · rw [free_locked_eq (by omega) hoff, htype, kind_small hlt]
    rw [kind_small hlt] at h1
    simp only [small_free_eq hslab hs hoff, hmod, hdiv, hbit, if_true, ne_eq, not_true_eq_false, if_false, hnone, hres,
      Option.bind_eq_bind, Option.bind_some]
    rw [ite_bind h1 fun P => Pool.release_page G (P.setWord (G.word a (d / 64)) (P.mem (G.word a (d / 64)) &&& ~~~(1#64 <<< (d % 64))))
      a (shift - min_shift) (G.chunks shift - G.reserved shift) _, hQ, hempty]
    rfl
  · have herrors : Q.errors = P₁.errors := by rw [← hQ]; rfl
    exact herrors.trans haside.errors

theorem Good.bitmap (hgood : Good G c L) (hk : k < G.slots) (ho : c.Opened G k q) (hd : d < G.reserved (k + min_shift)) :
    ∃ P, c.pool.ngx_slab_free_locked G (G.page_addr q + d * 2 ^ (k + min_shift)) = some P ∧ P.errors = [] ∧
      P.small_search G q (k + min_shift) = some (d / 64, d % 64) := by
  obtain ⟨qs, hR⟩ := hgood.inv.rep
  obtain ⟨used, hat⟩ := hgood.chunks_at hk ho
  generalize k + min_shift = shift at *
  have hlt : shift < G.exact_shift := by
    by_contra hc
    rw [reserved_eq_zero (Nat.le_of_not_lt hc)] at hd
    omega
  obtain ⟨-, -, hmark⟩ := hR.shown q _ hat
  have hbits := ((marked_small hlt).1 hmark).2
  obtain ⟨h3, -, -⟩ := SegAt.valid hR.laid hat
  obtain ⟨hdvd, h128⟩ := G.chunks_words hlt
  have hrle := G.reserved_le h3 hlt
  have hwords := G.bitmap_words_le shift
  have hne := hgood.inv.settled.nonempty _ _ hat.mem
  obtain ⟨pre, post, hsplit, hq⟩ := at_iff.1 hat
  rw [Nat.zero_add] at hq
  rw [show pre ++ Seg.chunks shift used :: post = pre ++ [.chunks shift used] ++ post by simp] at hsplit
  rw [hsplit] at hR
  obtain ⟨P', hfree, herrors, hmem⟩ := bitmap_free_eq hR hne hlt hd
  rw [← hq] at hfree hmem
  have hset : ∀ e < d, (c.pool.mem (G.word q (e / 64))).getLsbD (e % 64) = true := by
    intro e he
    rw [hbits e (by omega)]
    exact decide_eq_true (.inl (he.trans hd))
  refine ⟨P', hfree, herrors.trans hgood.errors, small_search_first (by omega) (Nat.mod_lt _ (by norm_num)) ?_ (fun i hi => ?_)
    fun n hn => ?_⟩
  · rw [hmem, Function.update_self, and_not_bit]
    simp
  · have hbit := hset (64 * (d / 64) + i) (by omega)
    rw [show (64 * (d / 64) + i) / 64 = d / 64 by omega, show (64 * (d / 64) + i) % 64 = i by omega] at hbit
    rw [hmem, Function.update_self, and_not_bit, hbit, decide_eq_false (by omega)]
    rfl
  · rw [hmem, Function.update_of_ne fun hc => absurd (word_inj (by omega) (by omega) hc).2 (by omega), eq_busy_iff]
    intro i hi
    have hbit := hset (64 * n + i) (by omega)
    rwa [show (64 * n + i) / 64 = n by omega, show (64 * n + i) % 64 = i by omega] at hbit

/-- **Bitmaps.** The address of a part of a bitmap is not noticed: no error is reported, and the chunk with the bitmap in it is the one that
the page has for the next request. -/
theorem free_bitmap (h : Reach (step G) legal (Client.init G) c) (hk : k < G.slots) (ho : c.Opened G k q)
    (hd : d < G.reserved (k + min_shift)) :
    ∃ P, c.pool.ngx_slab_free_locked G (G.page_addr q + d * 2 ^ (k + min_shift)) = some P ∧ P.errors = [] ∧
      P.small_search G q (k + min_shift) = some (d / 64, d % 64) := by
  obtain ⟨L, hgood⟩ := run_good h
  exact hgood.bitmap hk ho hd

theorem free_bitmap_first : ∃ c P, step four_pages (Client.init four_pages) (.calloc 8) = some c ∧
    c.pool.ngx_slab_free_locked four_pages 4096 = some P ∧ P.small_search four_pages 0 3 = some (0, 0) :=
  have ⟨P, h1, _, h2⟩ := free_bitmap (k := 0) (q := 0) (d := 0) (.next (a := .calloc 8) .init trivial rfl) (by decide)
    ⟨_, List.mem_cons_self, by decide, by decide, by decide⟩ (by decide)
  ⟨_, P, rfl, h1, h2⟩

end Shuttlesock.Slab
