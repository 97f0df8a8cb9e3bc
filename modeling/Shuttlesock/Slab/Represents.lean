/-
How the records, links and bitmaps of a slab pool (`shared_slab.c`) stand for a layout of its pages.

`Rep G P L qs`: the records of the pages of each segment are as the segment says (`Shown`), and every list of pages, that of the free
runs and those of the slots, is a ring that meets exactly the pages that belong on it, `qs o` in order. A list is `none` for the free runs
and `some k` for the slot k.

The rules replace the segments `old` by the segments `mid` in the middle of the layout:
- `Rep.quiet`: none of them is on a list, and only their pages change;
- `Rep.adjust`: the segment stays on its list or off it, and only what its page says changes;
- `Rep.unlink`, `Rep.push`: a segment leaves its list, or goes to the front of one;
- `Rep.carve`: the end of a free run takes the place of the run in the list.
-/
import Mathlib.Tactic
import Shuttlesock.Core.HeadedRing
import Shuttlesock.Slab.Layout

namespace Shuttlesock.Slab

open Shuttlesock.Tiling Shuttlesock.HeadedRing

section

variable (G : Geometry)

/-- the type of a page of chunks -/
def Geometry.kind (shift : ℕ) : PageType :=
  if shift < G.exact_shift then .small else if shift = G.exact_shift then .exact else .big

/-- the list that the first page of a segment is on -/
def Seg.list : Seg → Option (Option ℕ)
  | .free _ => some none
  | .chunks shift used => if Full G shift used then none else some (some (shift - min_shift))
  | _ => none

@[simp] theorem Seg.list_chunks (shift : ℕ) (used : Finset ℕ) :
    Seg.list G (.chunks shift used) = if Full G shift used then none else some (some (shift - min_shift)) := rfl

def head : Option ℕ → Ref
  | none => .free
  | some k => .slot k

/-- the type of the pages of a list -/
def Geometry.type : Option ℕ → PageType
  | none => .page
  | some k => G.kind (k + min_shift)

def Geometry.IsList : Option ℕ → Prop
  | none => True
  | some k => k < G.slots

/-- a backward link -/
def Geometry.back (o : Option ℕ) (r : Ref) : Prev := ⟨some r, G.type o⟩

/-- page j is on the list o -/
def On (L : List Seg) (o : Option ℕ) (j : ℕ) : Prop := ∃ s, SegAt L j s ∧ s.list G = some o

/-- a page of a run but its first one, when the run is free or in hand -/
structure Blank (P : Pool) (t : ℕ) : Prop where
  slab : P.slab (.page t) = 0
  next : P.next (.page t) = none
  type : (P.prev (.page t)).type = .page

/-- the chunks in use, as the bits of the page say -/
def Marked (P : Pool) (j shift : ℕ) (used : Finset ℕ) : Prop :=
  if shift < G.exact_shift then
    P.slab (.page j) = BitVec.ofNat 64 shift ∧
      ∀ c < G.chunks shift, (P.mem (G.word j (c / 64))).getLsbD (c % 64) = decide (c < G.reserved shift ∨ c ∈ used)
  else if shift = G.exact_shift then ∀ c, (P.slab (.page j)).getLsbD c = decide (c ∈ used)
  else (∀ b < 32, (P.slab (.page j)).getLsbD b = (BitVec.ofNat 64 shift).getLsbD b) ∧
    ∀ c, (P.slab (.page j)).getLsbD (NGX_SLAB_MAP_SHIFT + c) = decide (c ∈ used)

/-- the records of the pages of a segment at page j -/
def Shown (P : Pool) (j : ℕ) : Seg → Prop
  | .held n => ∀ t, j < t → t < j + n → Blank P t
  | .free n =>
    P.slab (.page j) = BitVec.ofNat 64 n ∧ (P.next (.page j)).isSome ∧ (P.prev (.page j)).type = .page ∧
      (∀ t, j < t → t < j + n → Blank P t) ∧
      -- the last page leads to the first one, unless no page is behind it
      (1 < n → j + n < G.pages → P.prev (.page (j + n - 1)) = ⟨some (.page j), .page⟩)
  | .run n =>
    P.slab (.page j) = BitVec.ofNat 64 n ||| NGX_SLAB_PAGE_START ∧ P.next (.page j) = none ∧ (P.prev (.page j)).type = .page ∧
      ∀ t, j < t → t < j + n →
        P.slab (.page t) = NGX_SLAB_PAGE_BUSY ∧ P.next (.page t) = none ∧ (P.prev (.page t)).type = .page
  | .chunks shift used =>
    (P.prev (.page j)).type = G.kind shift ∧ (P.next (.page j)).isSome = (Seg.list G (.chunks shift used)).isSome ∧
      Marked G P j shift used

structure Rep (P : Pool) (L : List Seg) (qs : Option ℕ → List Ref) : Prop where
  laid : Laid G L
  shown : ∀ j s, SegAt L j s → Shown G P j s
  ring : ∀ o, G.IsList o → Ring P.next P.prev (G.back o) (head o) (qs o)
  mem : ∀ o, G.IsList o → ∀ r, r ∈ qs o ↔ ∃ j, r = .page j ∧ On G L o j

/-- what a step must leave of the record of page t when its segment does not change -/
structure Frame (P P' : Pool) (t : ℕ) : Prop where
  slab : P'.slab (.page t) = P.slab (.page t)
  next : (P'.next (.page t)).isSome = (P.next (.page t)).isSome
  type : (P'.prev (.page t)).type = (P.prev (.page t)).type
  prev : P.next (.page t) = none → P'.prev (.page t) = P.prev (.page t)
  mem : ∀ n < G.page_size / 8, P'.mem (G.word t n) = P.mem (G.word t n)

end

variable {G : Geometry} {P P' : Pool} {L pre post old mid : List Seg} {qs : Option ℕ → List Ref} {j k n t a : ℕ} {s s' : Seg}
  {o : Option ℕ} {r : Ref}

@[simp] theorem head_ne_page (o : Option ℕ) (j : ℕ) : head o ≠ .page j := by cases o <;> simp [head]

theorem head_injective {o o' : Option ℕ} (h : head o = head o') : o = o' := by
  cases o <;> cases o' <;> simp_all [head]

theorem Frame.next_none (h : Frame G P P' t) (hn : P.next (.page t) = none) : P'.next (.page t) = none := by
  have := h.next
  rw [hn] at this
  exact Option.not_isSome_iff_eq_none.1 (by simp [this])

theorem Blank.frame (h : Blank P t) (hf : Frame G P P' t) : Blank P' t :=
  ⟨hf.slab.trans h.slab, hf.next_none h.next, hf.type.trans h.type⟩

theorem Marked.frame {shift : ℕ} {used : Finset ℕ} (h : Marked G P j shift used) (hf : Frame G P P' j) :
    Marked G P' j shift used := by
  unfold Marked at h ⊢
  rw [hf.slab]
  split_ifs at h ⊢ with h1 h2
  · refine ⟨h.1, fun c hc => ?_⟩
    have hw : c / 64 < G.page_size / 8 := by
      have := G.bitmap_words_le shift
      have := (G.chunks_words h1).1
      omega
    rw [hf.mem _ hw]
    exact h.2 c hc
  · exact h
  · exact h

theorem Shown.frame (h : Shown G P j s) (hv : s.Valid G) (hf : ∀ t, j ≤ t → t < j + s.len → Frame G P P' t) : Shown G P' j s := by
  cases s with
  | held n => exact fun t h1 h2 => (h t h1 h2).frame (hf t h1.le h2)
  | free n =>
    obtain ⟨h1, h2, h3, h4, h5⟩ := h
    have hj := hf j le_rfl (Nat.lt_add_of_pos_right hv)
    refine ⟨hj.slab.trans h1, hj.next.trans h2, hj.type.trans h3, fun t ht ht' => (h4 t ht ht').frame (hf t ht.le ht'), ?_⟩
    intro hn hlast
    rw [(hf (j + n - 1) (by omega) (by simp only [Seg.len_free]; omega)).prev (h4 _ (by omega) (by omega)).next]
    exact h5 hn hlast
  | run n =>
    obtain ⟨h1, h2, h3, h4⟩ := h
    have hj := hf j le_rfl (Nat.lt_add_of_pos_right hv)
    refine ⟨hj.slab.trans h1, hj.next_none h2, hj.type.trans h3, fun t ht ht' => ?_⟩
    obtain ⟨h5, h6, h7⟩ := h4 t ht ht'
    have ht := hf t ht.le ht'
    exact ⟨ht.slab.trans h5, ht.next_none h6, ht.type.trans h7⟩
  | chunks shift used =>
    obtain ⟨h1, h2, h3⟩ := h
    have hj := hf j le_rfl (Nat.lt_succ_self j)
    exact ⟨hj.type.trans h1, hj.next.trans h2, h3.frame hj⟩

/-- the words of different pages are different -/
theorem word_inj {i i' m m' : ℕ} (hm : m < G.page_size / 8) (hm' : m' < G.page_size / 8) (h : G.word i m = G.word i' m') :
    i = i' ∧ m = m' := by
  unfold Geometry.word at h
  rcases Nat.lt_trichotomy i i' with hi | rfl | hi
  · have : (i + 1) * (G.page_size / 8) ≤ i' * (G.page_size / 8) := Nat.mul_le_mul_right _ hi
    rw [Nat.add_mul] at this
    omega
  · exact ⟨rfl, by omega⟩
  · have : (i' + 1) * (G.page_size / 8) ≤ i * (G.page_size / 8) := Nat.mul_le_mul_right _ hi
    rw [Nat.add_mul] at this
    omega

/-! ## Which pages are on which list -/

theorem Seg.list_ok (hv : s.Valid G) (h : s.list G = some o) : G.IsList o := by
  cases s with
  | free n => cases h; trivial
  | held n => cases h
  | run n => cases h
  | chunks shift used =>
    obtain ⟨h3, hs, -⟩ := hv
    rw [Seg.list_chunks] at h
    split_ifs at h
    cases h
    show shift - min_shift < G.page_size_shift - min_shift
    omega

theorem On.unique {o' : Option ℕ} (hL : Laid G L) (h : On G L o j) (h' : On G L o' j) : o = o' := by
  obtain ⟨s, hs, hl⟩ := h
  obtain ⟨t, ht, hl'⟩ := h'
  obtain ⟨-, rfl⟩ := hs.unique ht le_rfl (Nat.lt_add_of_pos_right (hs.len_pos hL)) le_rfl (Nat.lt_add_of_pos_right (ht.len_pos hL))
  rw [hl] at hl'
  exact Option.some.inj hl'

/-- a page inside a segment that is not the first page of one on a list -/
theorem not_on (hL : Laid G L) (hs : SegAt L a s) (h1 : a ≤ t) (h2 : t < a + s.len) (h : t ≠ a ∨ s.list G = none) : ¬ On G L o t := by
  rintro ⟨u, hu, hl⟩
  obtain ⟨rfl, rfl⟩ := hs.unique hu h1 h2 le_rfl (Nat.lt_add_of_pos_right (hu.len_pos hL))
  rcases h with h | h
  · exact h rfl
  · rw [h] at hl; cases hl

theorem Rep.not_mem (hR : Rep G P L qs) (ho : G.IsList o) (hs : SegAt L a s) (h1 : a ≤ t) (h2 : t < a + s.len)
    (h : t ≠ a ∨ s.list G = none) : Ref.page t ∉ head o :: qs o := by
  rw [List.mem_cons, hR.mem o ho]
  rintro (he | ⟨j, hj, hon⟩)
  · exact head_ne_page o t he.symm
  · cases hj
    exact not_on hR.laid hs h1 h2 h hon

/-- different lists have nothing in common -/
theorem Rep.disjoint {o' : Option ℕ} (hR : Rep G P L qs) (ho : G.IsList o) (ho' : G.IsList o') (hne : o ≠ o') (h : r ∈ head o :: qs o) :
    r ∉ head o' :: qs o' := by
  rw [List.mem_cons, hR.mem o ho] at h
  rw [List.mem_cons, hR.mem o' ho']
  rintro (h' | ⟨j', hj', hon'⟩) <;> rcases h with h | ⟨j, hj, hon⟩
  · exact hne (head_injective (h.symm.trans h'))
  · exact head_ne_page o' j (h'.symm.trans hj)
  · exact head_ne_page o j' (h.symm.trans hj')
  · obtain rfl : j = j' := by rw [hj] at hj'; cases hj'; rfl
    exact hne (On.unique hR.laid hon hon')

/-- the first page of a segment is on its list -/
theorem Rep.mem_of (hR : Rep G P L qs) (hs : SegAt L a s) (h : s.list G = some o) : G.IsList o ∧ .page a ∈ qs o := by
  have ho := Seg.list_ok (hs.valid hR.laid) h
  exact ⟨ho, (hR.mem o ho _).2 ⟨a, rfl, s, hs, h⟩⟩

/-- the pages of a list have its type -/
theorem Rep.prev_type (hR : Rep G P L qs) (ho : G.IsList o) (h : r ∈ qs o) : (P.prev r).type = G.type o := by
  obtain ⟨p, -, -, hp⟩ := (hR.ring o ho).prev_back h
  rw [hp]
  rfl

/-! ## Replacing segments -/

theorem on_swap (hL : Laid G (pre ++ old ++ post)) (hL' : Laid G (pre ++ mid ++ post))
    (h : span Seg.len old = span Seg.len mid) :
    On G (pre ++ mid ++ post) o j ↔ (∃ t, At Seg.len (span Seg.len pre) mid j t ∧ t.list G = some o) ∨
      On G (pre ++ old ++ post) o j ∧ (j < span Seg.len pre ∨ span Seg.len pre + span Seg.len old ≤ j) := by
  constructor
  · rintro ⟨t, ht, hl⟩
    have hpos := ht.len_pos hL'
    rcases (at_swap h hpos).1 ht with h1 | ⟨h1, h2⟩
    · rw [zero_add] at h1
      exact .inl ⟨t, h1, hl⟩
    · rw [zero_add] at h2
      exact .inr ⟨⟨t, h1, hl⟩, by omega⟩
  · rintro (⟨t, ht, hl⟩ | ⟨⟨t, ht, hl⟩, hout⟩)
    · refine ⟨t, ?_, hl⟩
      simp only [at_append, zero_add]
      exact .inl (.inr ht)
    · refine ⟨t, (at_swap h (ht.len_pos hL)).2 (.inr ⟨ht, ?_⟩), hl⟩
      rw [zero_add]
      rcases hout with hout | hout
      · have hmid : At Seg.len 0 (pre ++ old ++ post) j t := ht
        simp only [at_append, span_append, zero_add] at hmid
        rcases hmid with (h1 | h1) | h1
        · exact .inl (by have := h1.range.2; omega)
        · have := h1.range.1; omega
        · have := h1.range.1; omega
      · exact .inr hout

/-- the layout after a replacement -/
theorem Laid.swap (hL : Laid G (pre ++ old ++ post)) (h : span Seg.len old = span Seg.len mid) (hv : ∀ s ∈ mid, s.Valid G) :
    Laid G (pre ++ mid ++ post) := by
  refine ⟨?_, fun s hs => ?_⟩
  · have := hL.total
    simp only [span_append] at this ⊢
    omega
  · simp only [List.mem_append] at hs
    rcases hs with (hs | hs) | hs
    · exact hL.valid s (by simp [hs])
    · exact hv s hs
    · exact hL.valid s (by simp [hs])

theorem Rep.edit {qs' : Option ℕ → List Ref} (hR : Rep G P (pre ++ old ++ post) qs) (h : span Seg.len old = span Seg.len mid)
    (hv : ∀ s ∈ mid, s.Valid G) (hmid : ∀ j s, At Seg.len (span Seg.len pre) mid j s → Shown G P' j s)
    (hf : ∀ t, t < G.pages → t < span Seg.len pre ∨ span Seg.len pre + span Seg.len old ≤ t → Frame G P P' t)
    (hring : ∀ o, G.IsList o → Ring P'.next P'.prev (G.back o) (head o) (qs' o))
    (hmem : ∀ o, G.IsList o → ∀ r, r ∈ qs' o ↔ ∃ j, r = .page j ∧ On G (pre ++ mid ++ post) o j) :
    Rep G P' (pre ++ mid ++ post) qs' := by
  have hL := hR.laid
  have hL' := hL.swap h hv
  refine ⟨hL', fun j s hs => ?_, hring, hmem⟩
  rcases (at_swap h (hs.len_pos hL')).1 hs with h1 | ⟨h1, h2⟩
  · rw [zero_add] at h1
    exact hmid j s h1
  · rw [zero_add] at h2
    have hlt := SegAt.lt_pages hL h1
    exact (hR.shown j s h1).frame (SegAt.valid hL h1) fun t ht ht' => hf t (by omega) (by omega)

/-- outside of the n pages from a on nothing is different -/
structure SameOff (G : Geometry) (P P' : Pool) (a n : ℕ) : Prop where
  slab : ∀ t, t < a ∨ a + n ≤ t → P'.slab (.page t) = P.slab (.page t)
  next : ∀ r, (∀ t, a ≤ t → t < a + n → r ≠ .page t) → P'.next r = P.next r
  prev : ∀ r, (∀ t, a ≤ t → t < a + n → r ≠ .page t) → P'.prev r = P.prev r
  mem : ∀ t m, t < a ∨ a + n ≤ t → m < G.page_size / 8 → P'.mem (G.word t m) = P.mem (G.word t m)

theorem SameOff.frame (h : SameOff G P P' a n) (ht : t < a ∨ a + n ≤ t) : Frame G P P' t := by
  have hne : ∀ u, a ≤ u → u < a + n → Ref.page t ≠ .page u := by
    intro u h1 h2 e
    cases e
    omega
  refine ⟨h.slab t ht, ?_, ?_, fun _ => h.prev _ hne, fun m hm => h.mem t m ht hm⟩
  · rw [h.next _ hne]
  · rw [h.prev _ hne]

/-- only records, links and memory are looked at -/
theorem Rep.congr (hR : Rep G P L qs) (hs : P'.slab = P.slab) (hn : P'.next = P.next) (hp : P'.prev = P.prev) (hm : P'.mem = P.mem) :
    Rep G P' L qs := by
  refine ⟨hR.laid, fun j s hat => (hR.shown j s hat).frame (hat.valid hR.laid) fun t _ _ => ⟨by rw [hs], by rw [hn], by rw [hp],
    fun _ => by rw [hp], fun _ _ => by rw [hm]⟩, fun o ho => ?_, hR.mem⟩
  rw [hn, hp]
  exact hR.ring o ho

/-- segments that are on no list, replaced by segments that are on no list -/
theorem Rep.quiet (old mid : List Seg) (hR : Rep G P (pre ++ old ++ post) qs) (h : span Seg.len old = span Seg.len mid) (hv : ∀ s ∈ mid, s.Valid G)
    (hmid : ∀ j s, At Seg.len (span Seg.len pre) mid j s → Shown G P' j s)
    (hsame : SameOff G P P' (span Seg.len pre) (span Seg.len old)) (hold : ∀ s ∈ old, s.list G = none)
    (hnew : ∀ s ∈ mid, s.list G = none) : Rep G P' (pre ++ mid ++ post) qs := by
  have hL := hR.laid
  have hin : ∀ o, G.IsList o → ∀ t, span Seg.len pre ≤ t → t < span Seg.len pre + span Seg.len old → .page t ∉ head o :: qs o := by
    intro o ho t h1 h2
    obtain ⟨k, s, hs, h3, h4⟩ := exists_at h1 h2
    have hs' : SegAt (pre ++ old ++ post) k s := by
      simp only [SegAt, at_append, zero_add]
      exact .inl (.inr hs)
    exact hR.not_mem ho hs' h3 h4 (.inr (hold s hs.mem))
  refine hR.edit h hv hmid (fun t _ ht => hsame.frame ht) (fun o ho => ?_) fun o ho r => ?_
  · refine (hR.ring o ho).congr (fun r hr => hsame.next r fun t h1 h2 e => hin o ho t h1 h2 (e ▸ hr)) fun r hr => ?_
    exact hsame.prev r fun t h1 h2 e => hin o ho t h1 h2 (e ▸ List.mem_cons_of_mem _ hr)
  · rw [hR.mem o ho]
    refine exists_congr fun j => and_congr_right fun hj => ?_
    rw [on_swap hL (hL.swap h hv) h]
    constructor
    · intro hon
      refine .inr ⟨hon, ?_⟩
      by_contra hc
      refine hin o ho j (by omega) (by omega) (List.mem_cons_of_mem _ ?_)
      exact (hR.mem o ho _).2 ⟨j, rfl, hon⟩
    · rintro (⟨u, hu, hl⟩ | ⟨hon, -⟩)
      · rw [hnew u hu.mem] at hl; cases hl
      · exact hon

/-! ## One segment -/

/-- a segment replaced by others of the same length in all -/
theorem on_replace (hL : Laid G (pre ++ [s] ++ post)) (hL' : Laid G (pre ++ mid ++ post)) (h : span Seg.len mid = s.len) :
    On G (pre ++ mid ++ post) o j ↔ (∃ t, At Seg.len (span Seg.len pre) mid j t ∧ t.list G = some o) ∨
      On G (pre ++ [s] ++ post) o j ∧ j ≠ span Seg.len pre := by
  have hs : SegAt (pre ++ [s] ++ post) (span Seg.len pre) s := by simp
  rw [on_swap hL hL' (by simp [h])]
  refine or_congr_right (and_congr_right fun hon => ?_)
  have hpos := hs.len_pos hL
  rw [span_cons, span_nil, add_zero]
  constructor
  · omega
  · intro hne
    by_contra hc
    exact not_on hL hs (by omega) (by omega) (.inl hne) hon

theorem on_replace_one (hL : Laid G (pre ++ [s] ++ post)) (hL' : Laid G (pre ++ [s'] ++ post)) (h : s'.len = s.len) :
    On G (pre ++ [s'] ++ post) o j ↔
      j = span Seg.len pre ∧ s'.list G = some o ∨ On G (pre ++ [s] ++ post) o j ∧ j ≠ span Seg.len pre := by
  rw [on_replace hL hL' (by simpa using h)]
  simp only [at_cons, at_nil, or_false]
  refine or_congr_left ⟨?_, fun h => ⟨s', ⟨h.1, rfl⟩, h.2⟩⟩
  rintro ⟨t, ⟨h1, rfl⟩, h2⟩
  exact ⟨h1, h2⟩

/-- a segment that stays where it is, on its list or off it -/
theorem Rep.adjust (hR : Rep G P (pre ++ [s] ++ post) qs) (hlen : s'.len = s.len) (hv : s'.Valid G)
    (hlist : s'.list G = s.list G) (hshown : Shown G P' (span Seg.len pre) s') (hnext : P'.next = P.next) (hprev : P'.prev = P.prev)
    (hslab : ∀ t, t < span Seg.len pre ∨ span Seg.len pre + s.len ≤ t → P'.slab (.page t) = P.slab (.page t))
    (hmem : ∀ t m, t < span Seg.len pre ∨ span Seg.len pre + s.len ≤ t → m < G.page_size / 8 →
      P'.mem (G.word t m) = P.mem (G.word t m)) : Rep G P' (pre ++ [s'] ++ post) qs := by
  have hL := hR.laid
  have hlen' : span Seg.len [s] = span Seg.len [s'] := by simp [hlen]
  have hvm : ∀ u ∈ [s'], u.Valid G := by simpa using hv
  refine hR.edit hlen' hvm (fun j u hu => ?_) (fun t _ ht => ?_) (fun o ho => ?_) fun o ho r => ?_
  · simp only [at_cons, at_nil, or_false] at hu
    obtain ⟨rfl, rfl⟩ := hu
    exact hshown
  · rw [span_cons, span_nil, add_zero] at ht
    exact ⟨hslab t ht, by rw [hnext], by rw [hprev], fun _ => by rw [hprev], fun m hm => hmem t m ht hm⟩
  · rw [hnext, hprev]
    exact hR.ring o ho
  · rw [hR.mem o ho]
    refine exists_congr fun j => and_congr_right fun _ => ?_
    rw [on_replace_one hL (hL.swap hlen' hvm) hlen, hlist]
    have hs : SegAt (pre ++ [s] ++ post) (span Seg.len pre) s := by simp
    constructor
    · intro hon
      by_cases hj : j = span Seg.len pre
      · subst hj
        obtain ⟨u, hu, hl⟩ := hon
        obtain ⟨-, rfl⟩ := hu.unique hs le_rfl (Nat.lt_add_of_pos_right (hu.len_pos hL)) le_rfl
          (Nat.lt_add_of_pos_right (hs.len_pos hL))
        exact .inl ⟨rfl, hl⟩
      · exact .inr ⟨hon, hj⟩
    · rintro (⟨rfl, hl⟩ | ⟨hon, -⟩)
      · exact ⟨s, hs, hl⟩
      · exact hon

/-! ## Lists -/

/-- nothing but records is different -/
structure Aside (P P' : Pool) : Prop where
  mem : P'.mem = P.mem
  pfree : P'.pfree = P.pfree
  stats : P'.stats = P.stats
  log_nomem : P'.log_nomem = P.log_nomem
  errors : P'.errors = P.errors

theorem Aside.refl (P : Pool) : Aside P P := ⟨rfl, rfl, rfl, rfl, rfl⟩

theorem Aside.trans {P'' : Pool} (h : Aside P P') (h' : Aside P' P'') : Aside P P'' :=
  ⟨h'.mem.trans h.mem, h'.pfree.trans h.pfree, h'.stats.trans h.stats, h'.log_nomem.trans h.log_nomem, h'.errors.trans h.errors⟩

/-- a forward link and a backward link of a list set anew -/
theorem Rep.frame_links (hR : Rep G P L qs) (ho : G.IsList o) {p m x : Ref} {v : Prev} (hp : p ∈ head o :: qs o)
    (hm : m ∈ head o :: qs o) (hv : v.type = G.type o) (hslab : P'.slab (.page t) = P.slab (.page t))
    (hnext : P'.next (.page t) = Function.update P.next p (some x) (.page t))
    (hprev : P'.prev (.page t) = Function.update P.prev m v (.page t))
    (hmem : ∀ n < G.page_size / 8, P'.mem (G.word t n) = P.mem (G.word t n)) : Frame G P P' t := by
  have hring := hR.ring o ho
  have hsome : ∀ r ∈ head o :: qs o, (P.next r).isSome := by
    intro r hr
    obtain ⟨y, -, hy⟩ := hring.next_some hr
    rw [hy]; rfl
  refine ⟨hslab, ?_, ?_, fun hn => ?_, hmem⟩
  · rw [hnext]
    by_cases h : Ref.page t = p
    · rw [h, Function.update_self, hsome p hp]; rfl
    · rw [Function.update_of_ne h]
  · rw [hprev]
    by_cases h : Ref.page t = m
    · rw [h, Function.update_self, hv]
      refine (hR.prev_type ho ?_).symm
      rcases List.mem_cons.1 hm with rfl | hm
      · exact absurd h.symm (head_ne_page o t)
      · exact hm
    · rw [Function.update_of_ne h]
  · rw [hprev]
    refine Function.update_of_ne ?_ _ _
    rintro rfl
    have := hsome _ hm
    rw [hn] at this
    cases this

/-- a segment leaves its list -/
theorem Rep.unlink (hR : Rep G P (pre ++ [s] ++ post) qs) (hl : s.list G = some o)
    (hin : ∀ t, span Seg.len pre < t → t < span Seg.len pre + s.len → Blank P t) :
    ∃ P', P.unlink (P.prev (.page (span Seg.len pre))).ptr (.page (span Seg.len pre)) = some P' ∧
      Rep G P' (pre ++ [.held s.len] ++ post) (Function.update qs o ((qs o).erase (.page (span Seg.len pre)))) ∧
      P'.slab = P.slab ∧ Aside P P' := by
  have hL := hR.laid
  have hs : SegAt (pre ++ [s] ++ post) (span Seg.len pre) s := by simp
  obtain ⟨ho, hx⟩ := hR.mem_of hs hl
  obtain ⟨p, m, hp, hm, hpx, hmx, hback, hnext, hring⟩ := (hR.ring o ho).remove hx
  generalize hP' : (P.setNext p (some m)).setPrev m (G.back o p) = P'
  have hn' : P'.next = Function.update P.next p (some m) := by rw [← hP']; rfl
  have hp' : P'.prev = Function.update P.prev m (G.back o p) := by rw [← hP']; rfl
  have hs' : P'.slab = P.slab := by rw [← hP']; rfl
  have haside : Aside P P' := by rw [← hP']; exact ⟨rfl, rfl, rfl, rfl, rfl⟩
  have hframe : ∀ t, Frame G P P' t := fun t => by
    refine hR.frame_links ho hp hm (v := G.back o p) (x := m) rfl ?_ ?_ ?_ fun n _ => by rw [haside.mem]
    · rw [hs']
    · rw [hn']
    · rw [hp']
  have hlen : span Seg.len [s] = span Seg.len [.held s.len] := by simp
  have hv : ∀ u ∈ [Seg.held s.len], u.Valid G := by simpa [Seg.Valid] using hs.len_pos hL
  refine ⟨P', ?_, ?_, hs', haside⟩
  · rw [Pool.unlink, hback]
    simp only [Geometry.back, Option.bind_eq_bind, Option.bind_some, Pool.setNext_next, hnext]
    rw [Function.update_of_ne hpx.symm, hnext]
    simp only [Option.bind_some, Pool.setNext_prev, hback]
    rw [← hP']
  · refine hR.edit hlen hv (fun j u hu => ?_) (fun t _ _ => hframe t) (fun o' ho' => ?_) fun o' ho' r => ?_
    · simp only [at_cons, at_nil, or_false] at hu
      obtain ⟨rfl, rfl⟩ := hu
      exact fun t h1 h2 => (hin t h1 h2).frame (hframe t)
    · by_cases he : o' = o
      · subst he
        rw [Function.update_self, hn', hp']
        exact hring
      · rw [Function.update_of_ne he]
        refine (hR.ring o' ho').congr (fun r hr => ?_) fun r hr => ?_
        · rw [hn', Function.update_of_ne (ne_of_mem_of_not_mem hp (hR.disjoint ho' ho he hr)).symm]
        · rw [hp', Function.update_of_ne (ne_of_mem_of_not_mem hm (hR.disjoint ho' ho he (List.mem_cons_of_mem _ hr))).symm]
    · have hon : On G (pre ++ [s] ++ post) o (span Seg.len pre) := ⟨s, hs, hl⟩
      have hiff : r ∈ Function.update qs o ((qs o).erase (.page (span Seg.len pre))) o' ↔
          r ∈ qs o' ∧ r ≠ .page (span Seg.len pre) := by
        by_cases he : o' = o
        · subst he
          rw [Function.update_self, (List.nodup_cons.1 (hR.ring o' ho').nodup).2.mem_erase_iff, and_comm]
        · rw [Function.update_of_ne he]
          refine ⟨fun hr => ⟨hr, ?_⟩, And.left⟩
          rintro rfl
          exact hR.disjoint ho' ho he (List.mem_cons_of_mem _ hr) (List.mem_cons_of_mem _ hx)
      rw [hiff, hR.mem o' ho']
      constructor
      · rintro ⟨⟨j, rfl, hj⟩, hne⟩
        refine ⟨j, rfl, (on_replace_one hL (hL.swap hlen hv) rfl).2 (.inr ⟨hj, ?_⟩)⟩
        rintro rfl
        exact hne rfl
      · rintro ⟨j, rfl, hj⟩
        rcases (on_replace_one hL (hL.swap hlen hv) rfl).1 hj with ⟨-, h⟩ | ⟨hj, hne⟩
        · cases h
        · exact ⟨⟨j, rfl, hj⟩, fun e => hne (by cases e; rfl)⟩

/-- a segment that is on no list goes to the front of one -/
theorem Rep.push (hR : Rep G P (pre ++ [s] ++ post) qs) (hs : s.list G = none) (hl : s'.list G = some o) (hlen : s'.len = s.len)
    (hv : s'.Valid G) (hshown : Shown G P' (span Seg.len pre) s') {m : Ref} (hm : P.next (head o) = some m)
    (hxn : P'.next (.page (span Seg.len pre)) = some m) (hh : P'.next (head o) = some (.page (span Seg.len pre)))
    (hne : ∀ r, r ≠ head o → (∀ t, span Seg.len pre ≤ t → t < span Seg.len pre + s.len → r ≠ .page t) → P'.next r = P.next r)
    (hxp : P'.prev (.page (span Seg.len pre)) = G.back o (head o)) (hmp : m ≠ head o → P'.prev m = G.back o (.page (span Seg.len pre)))
    (hpr : ∀ r, r ≠ head o → r ≠ m → (∀ t, span Seg.len pre ≤ t → t < span Seg.len pre + s.len → r ≠ .page t) → P'.prev r = P.prev r)
    (hslab : ∀ t, t < span Seg.len pre ∨ span Seg.len pre + s.len ≤ t → P'.slab (.page t) = P.slab (.page t))
    (hmem : ∀ t n, t < span Seg.len pre ∨ span Seg.len pre + s.len ≤ t → n < G.page_size / 8 →
      P'.mem (G.word t n) = P.mem (G.word t n)) :
    Rep G P' (pre ++ [s'] ++ post) (Function.update qs o (.page (span Seg.len pre) :: qs o)) := by
  have hL := hR.laid
  have hat : SegAt (pre ++ [s] ++ post) (span Seg.len pre) s := by simp
  have ho := Seg.list_ok hv hl
  have hlen' : span Seg.len [s] = span Seg.len [s'] := by simp [hlen]
  have hvm : ∀ u ∈ [s'], u.Valid G := by simpa using hv
  have hL' := hL.swap hlen' hvm
  have hring := hR.ring o ho
  -- the pages of the segment are on no list
  have hoff : ∀ o', G.IsList o' → ∀ r ∈ head o' :: qs o', ∀ t, span Seg.len pre ≤ t → t < span Seg.len pre + s.len → r ≠ .page t := by
    intro o' ho' r hr t h1 h2 e
    exact hR.not_mem ho' hat h1 h2 (.inr hs) (e ▸ hr)
  have hapos := hat.len_pos hL
  have ha : ∀ o', G.IsList o' → Ref.page (span Seg.len pre) ∉ head o' :: qs o' := fun o' ho' h =>
    hoff o' ho' _ h _ le_rfl (Nat.lt_add_of_pos_right hapos) rfl
  have hmq : m ∈ head o :: qs o := by
    obtain ⟨y, hy, hyn⟩ := hring.next_some List.mem_cons_self
    rw [hm] at hyn
    cases hyn
    exact hy
  refine hR.edit hlen' hvm (fun j u hu => ?_) (fun t _ ht => ?_) (fun o' ho' => ?_) fun o' ho' r => ?_
  · simp only [at_cons, at_nil, or_false] at hu
    obtain ⟨rfl, rfl⟩ := hu
    exact hshown
  · rw [span_cons, span_nil, add_zero] at ht
    have hown : ∀ u, span Seg.len pre ≤ u → u < span Seg.len pre + s.len → Ref.page t ≠ .page u := by
      intro u h1 h2 e
      cases e
      omega
    refine hR.frame_links ho (p := head o) (m := m) (x := m) (v := G.back o (.page (span Seg.len pre))) List.mem_cons_self hmq rfl
      (hslab t ht) ?_ ?_ fun n hn => hmem t n ht hn
    · rw [Function.update_of_ne (head_ne_page o t).symm]
      exact hne _ (head_ne_page o t).symm hown
    · by_cases htm : Ref.page t = m
      · rw [htm, Function.update_self]
        exact hmp (htm ▸ (head_ne_page o t).symm)
      · rw [Function.update_of_ne htm]
        exact hpr _ (head_ne_page o t).symm htm hown
  · by_cases he : o' = o
    · subst he
      rw [Function.update_self]
      refine hring.push (ha o' ho) hm hxn hxp hh hmp (fun r hr => ?_) fun r hr hrm => ?_
      · exact hne r (fun e => hring.not_mem (e ▸ hr)) (hoff o' ho r (List.mem_cons_of_mem _ hr))
      · exact hpr r (fun e => hring.not_mem (e ▸ hr)) hrm (hoff o' ho r (List.mem_cons_of_mem _ hr))
    · rw [Function.update_of_ne he]
      refine (hR.ring o' ho').congr (fun r hr => ?_) fun r hr => ?_
      · refine hne r ?_ (hoff o' ho' r hr)
        rintro rfl
        exact hR.disjoint ho' ho he hr List.mem_cons_self
      · have hr' := List.mem_cons_of_mem (head o') hr
        refine hpr r ?_ (ne_of_mem_of_not_mem hmq (hR.disjoint ho' ho he hr')).symm (hoff o' ho' r hr')
        rintro rfl
        exact hR.disjoint ho' ho he hr' List.mem_cons_self
  · have hiff : r ∈ Function.update qs o (.page (span Seg.len pre) :: qs o) o' ↔ (o' = o ∧ r = .page (span Seg.len pre)) ∨ r ∈ qs o' := by
      by_cases he : o' = o
      · subst he
        simp
      · simp [he]
    rw [hiff, hR.mem o' ho']
    constructor
    · rintro (⟨rfl, rfl⟩ | ⟨j, rfl, hj⟩)
      · exact ⟨_, rfl, (on_replace_one hL hL' hlen).2 (.inl ⟨rfl, hl⟩)⟩
      · refine ⟨j, rfl, (on_replace_one hL hL' hlen).2 (.inr ⟨hj, ?_⟩)⟩
        rintro rfl
        exact not_on hL hat le_rfl (Nat.lt_add_of_pos_right hapos) (.inr hs) hj
    · rintro ⟨j, rfl, hj⟩
      rcases (on_replace_one hL hL' hlen).1 hj with ⟨rfl, h⟩ | ⟨hj, -⟩
      · rw [hl] at h
        cases h
        exact .inl ⟨rfl, rfl⟩
      · exact .inr ⟨j, rfl, hj⟩

end Shuttlesock.Slab
