/-
The slab allocator of the code (`shared_slab.c`) refines the abstract one: each call of `ngx_slab_alloc_locked` does one step `Allocs`,
each call of `ngx_slab_free_locked` with the address of a block one step `Frees`.

`Inv G P L`: the pool P stands for the layout L, which is settled, and its counters are right. `Meta` are the words of the pages that the
allocator keeps for itself: the bitmaps of the pages of small chunks.

Results:
- `init_inv`: a new pool has one run of free pages;
- `alloc_refines`, `free_refines`: the two calls, with what they do to memory and counters;
- `Inv.store`: writing to other words than these does no harm.
-/
import Mathlib.Tactic
import Shuttlesock.Slab.Calls
import Shuttlesock.Slab.Chunks

namespace Shuttlesock.Slab

open Shuttlesock.Tiling Shuttlesock.HeadedRing Shuttlesock.Blocks

structure Inv (G : Geometry) (P : Pool) (L : List Seg) : Prop where
  settled : Settled L
  rep : ∃ qs, Rep G P L qs
  pfree : P.pfree = BitVec.ofNat 32 (free_pages L)
  used : ∀ k, (P.stats k).used = BitVec.ofNat 32 (used_chunks k L)
  total : ∀ k, (P.stats k).total = BitVec.ofNat 32 (all_chunks G k L)
  log_nomem : P.log_nomem = false

/-- a word of a bitmap -/
def Meta (G : Geometry) (L : List Seg) (w : ℕ) : Prop := ∃ j shift used, SegAt L j (.chunks shift used) ∧ BitmapOf G j shift w

/-- the request is for the slot k -/
def Asks (G : Geometry) (size k : ℕ) : Prop := size ≤ G.max_size ∧ k = chunk_shift size - min_shift

instance (G : Geometry) (size k : ℕ) : Decidable (Asks G size k) := by unfold Asks; infer_instance

/-- what a request does beside the layout -/
structure Served (G : Geometry) (P P' : Pool) (L' : List Seg) (size p : ℕ) : Prop where
  mem : ∀ w, ¬ Meta G L' w → P'.mem w = P.mem w
  errors : P'.errors = P.errors
  reqs : ∀ k, (P'.stats k).reqs = (P.stats k).reqs + if Asks G size k then 1 else 0
  fails : ∀ k, (P'.stats k).fails = (P.stats k).fails + if Asks G size k ∧ p = 0 then 1 else 0

/-- what giving a block back does beside the layout -/
structure Returned (G : Geometry) (P P' : Pool) (L : List Seg) : Prop where
  mem : ∀ w, ¬ Meta G L w → P'.mem w = P.mem w
  errors : P'.errors = P.errors
  reqs : ∀ k, (P'.stats k).reqs = (P.stats k).reqs
  fails : ∀ k, (P'.stats k).fails = (P.stats k).fails

variable {G : Geometry} {P P' : Pool} {L L' pre post : List Seg} {j k n p size shift c : ℕ} {s : Seg} {b : Block} {used : Finset ℕ}

theorem Inv.laid (h : Inv G P L) : Laid G L := by
  obtain ⟨qs, hR⟩ := h.rep
  exact hR.laid

/-! ## Counters -/

theorem ofNat_add (a b : ℕ) : BitVec.ofNat 32 (a + b) = BitVec.ofNat 32 a + BitVec.ofNat 32 b := BitVec.ofNat_add a b

theorem sub_of_add {a b : ℕ} {x : BitVec 32} (h : x = BitVec.ofNat 32 (a + b)) : x - BitVec.ofNat 32 b = BitVec.ofNat 32 a := by
  rw [h, ofNat_add, BitVec.add_sub_cancel]

theorem add_of_eq {a b c : ℕ} {x : BitVec 32} (h : x = BitVec.ofNat 32 a) (hc : a + b = c) : x + BitVec.ofNat 32 b = BitVec.ofNat 32 c := by
  rw [h, ← hc, ofNat_add]

@[simp] theorem free_pages_append (A B : List Seg) : free_pages (A ++ B) = free_pages A + free_pages B := span_append A B

@[simp] theorem used_chunks_append (A B : List Seg) : used_chunks k (A ++ B) = used_chunks k A + used_chunks k B := span_append A B

@[simp] theorem all_chunks_append (A B : List Seg) : all_chunks G k (A ++ B) = all_chunks G k A + all_chunks G k B := span_append A B

@[simp] theorem free_pages_cons (s : Seg) (A : List Seg) : free_pages (s :: A) = (if s.IsFree then s.len else 0) + free_pages A :=
  span_cons s A

@[simp] theorem used_chunks_cons (s : Seg) (A : List Seg) :
    used_chunks k (s :: A) = (if s.OfSlot k then s.used else 0) + used_chunks k A := span_cons s A

@[simp] theorem all_chunks_cons (s : Seg) (A : List Seg) : all_chunks G k (s :: A) =
    (if s.OfSlot k then G.chunks (k + min_shift) - G.reserved (k + min_shift) else 0) + all_chunks G k A := span_cons s A

@[simp] theorem free_pages_nil : free_pages [] = 0 := rfl

@[simp] theorem used_chunks_nil : used_chunks k [] = 0 := rfl

@[simp] theorem all_chunks_nil : all_chunks G k [] = 0 := rfl

@[simp] theorem free_pages_rest (n : ℕ) : free_pages (rest n) = n := by
  unfold rest
  split_ifs with h
  · exact h.symm
  · simp [Seg.IsFree]

@[simp] theorem used_chunks_rest (n : ℕ) : used_chunks k (rest n) = 0 := by
  unfold rest
  split_ifs <;> simp [Seg.OfSlot]

@[simp] theorem all_chunks_rest (n : ℕ) : all_chunks G k (rest n) = 0 := by
  unfold rest
  split_ifs <;> simp [Seg.OfSlot]

@[simp] theorem ofSlot_chunks : (Seg.chunks shift used).OfSlot k ↔ shift = k + min_shift := Iff.rfl

@[simp] theorem ofSlot_free : ¬ (Seg.free n).OfSlot k := id

@[simp] theorem ofSlot_run : ¬ (Seg.run n).OfSlot k := id

@[simp] theorem isFree_free : (Seg.free n).IsFree := trivial

@[simp] theorem isFree_run : ¬ (Seg.run n).IsFree := id

@[simp] theorem isFree_chunks : ¬ (Seg.chunks shift used).IsFree := id

@[simp] theorem used_chunks_seg : (Seg.chunks shift used).used = used.card := rfl

/-- the slot of a shift -/
theorem slot_iff (h : min_shift ≤ shift) : shift = k + min_shift ↔ k = shift - min_shift := by
  omega

/-! ## A new pool -/

theorem free_alone : At Seg.len 0 [Seg.free n] j s ↔ j = 0 ∧ s = .free n := by simp

theorem init_rep (G : Geometry) : ∃ qs, Rep G (Pool.ngx_slab_init G) [.free G.pages] qs := by
  have hpos := G.pages_pos
  refine ⟨fun o => if o = none then [.page 0] else [], ⟨by simp, fun s hs => ?_⟩, fun j s hat => ?_, fun o ho => ?_, fun o ho r => ?_⟩
  · cases List.mem_singleton.1 hs
    exact hpos
  · obtain ⟨rfl, rfl⟩ := free_alone.1 hat
    refine ⟨rfl, rfl, rfl, fun t h1 h2 => ?_, fun h1 h2 => by omega⟩
    have ht : t ≠ 0 := by omega
    refine ⟨?_, ?_, ?_⟩ <;> simp [Pool.ngx_slab_init, ht]
  · cases o with
    | none =>
      refine ⟨by simp [head], ?_⟩
      simp [HeadedRing.Path, Pool.ngx_slab_init, Geometry.back, head, Geometry.type]
    | some k =>
      have hk : k < G.slots := ho
      refine ⟨by simp [head], ?_⟩
      simp [HeadedRing.Path, Pool.ngx_slab_init, head, hk]
  · cases o with
    | none =>
      simp only [if_true, List.mem_singleton]
      constructor
      · rintro rfl
        exact ⟨0, rfl, .free G.pages, by simp, rfl⟩
      · rintro ⟨j, rfl, s, hat, -⟩
        rw [(free_alone.1 hat).1]
    | some k =>
      simp only [reduceCtorEq, if_false, List.not_mem_nil, false_iff, not_exists, not_and]
      rintro j rfl ⟨s, hat, hl⟩
      obtain ⟨rfl, rfl⟩ := free_alone.1 hat
      cases hl

theorem init_inv (G : Geometry) : Inv G (Pool.ngx_slab_init G) [.free G.pages] := by
  refine ⟨?_, init_rep G, ?_, fun k => ?_, fun k => ?_, rfl⟩
  · exact settled_iff.2 ⟨by simp [Seg.Calm], List.isChain_singleton _⟩
  · simp [Pool.ngx_slab_init]
  · simp [Pool.ngx_slab_init]
  · simp [Pool.ngx_slab_init]

/-! ## Requests -/

theorem not_asks (h : G.max_size < size) (k : ℕ) : ¬ Asks G size k := fun ha => absurd ha.1 (not_le.2 h)

theorem asks_iff (h : size ≤ G.max_size) : Asks G size k ↔ k = chunk_shift size - min_shift := and_iff_right h

theorem page_count_pos (h : G.max_size < size) : 0 < page_count G size := by
  unfold page_count
  split_ifs with hm
  · exact Nat.succ_pos _
  · have hdvd : G.page_size ∣ size := Nat.dvd_of_mod_eq_zero (not_not.1 hm)
    have := Nat.le_of_dvd (by omega) hdvd
    rw [Nat.shiftRight_eq_div_pow, Nat.add_zero]
    exact Nat.div_pos this (Nat.two_pow_pos _)

/-- a request for whole pages -/
theorem alloc_run_refines (h : Inv G P L) (hsize : G.max_size < size) :
    ∃ P' p L', P.ngx_slab_alloc_locked G size = some (P', p) ∧ Allocs G size L L' p ∧ Inv G P' L' ∧ Served G P P' L' size p := by
  obtain ⟨qs, hR⟩ := h.rep
  have heq : ∀ {r}, P.ngx_slab_alloc_pages G (page_count G size) = some r →
      P.ngx_slab_alloc_locked G size = some (r.1, r.2.elim 0 G.page_addr) := by
    intro r hr
    rw [Pool.ngx_slab_alloc_locked, if_pos hsize]
    change (P.ngx_slab_alloc_pages G (page_count G size)).bind _ = _
    obtain ⟨P', l⟩ := r
    rw [hr, Option.bind_some]
    cases l <;> rfl
  rcases alloc_pages_spec hR (page_count_pos hsize) with ⟨pre, n, post, P', l, rfl, hn, hrun, hR', haside⟩ | ⟨hfail, hrun⟩
  · have hallocs : Allocs G size (pre ++ [.free n] ++ post) _ _ := .run hsize hn
    refine ⟨P', _, _, by rw [heq hrun]; rfl, hallocs, ⟨allocs_settled hallocs h.settled, ⟨_, hR'⟩, ?_, fun k => ?_, fun k => ?_, ?_⟩, ?_⟩
    · rw [haside.pfree]
      refine sub_of_add (h.pfree.trans (congrArg _ ?_))
      simp only [free_pages_append, free_pages_cons, free_pages_nil, free_pages_rest, isFree_free, isFree_run, if_true, if_false,
        Seg.len_free]
      omega
    · rw [haside.stats, h.used k]
      simp
    · rw [haside.stats, h.total k]
      simp
    · rw [haside.log_nomem]
      exact h.log_nomem
    · refine ⟨fun w _ => by rw [haside.mem], haside.errors, fun k => ?_, fun k => ?_⟩
      · rw [haside.stats, if_neg (not_asks hsize k)]
        simp
      · rw [haside.stats, if_neg fun hc => not_asks hsize k hc.1]
        simp
  · rw [h.log_nomem] at hrun
    refine ⟨P, 0, L, by rw [heq hrun]; rfl, .no_run hsize hfail, h, fun _ _ => rfl, rfl, fun k => ?_, fun k => ?_⟩
    · rw [if_neg (not_asks hsize k)]
      simp
    · rw [if_neg fun hc => not_asks hsize k hc.1]
      simp

/-- the first page of the list of a slot -/
theorem Rep.slot_cases {qs : Option ℕ → List Ref} (hR : Rep G P L qs) (h3 : min_shift ≤ shift) (hs : shift < G.page_size_shift) :
    (∃ pre used post, L = pre ++ [.chunks shift used] ++ post ∧ ¬ Full G shift used ∧
      P.next (.slot (shift - min_shift)) = some (.page (span Seg.len pre)) ∧
      P.next (.page (span Seg.len pre)) ≠ some (.page (span Seg.len pre))) ∨
    (∀ used, .chunks shift used ∈ L → Full G shift used) ∧
      P.next (.slot (shift - min_shift)) = some (.slot (shift - min_shift)) := by
  have ho : G.IsList (some (shift - min_shift)) := Seg.list_ok (first_valid h3 hs) (list_of_not_full (first_not_full h3 hs))
  have hring := hR.ring _ ho
  have hfirst : P.next (.slot (shift - min_shift)) = _ := hring.first
  cases hq : qs (some (shift - min_shift)) with
  | nil =>
    have hno : ∀ used, .chunks shift used ∈ L → Full G shift used := by
      intro used hu
      by_contra hfull
      obtain ⟨j, hat⟩ : ∃ j, SegAt L j (.chunks shift used) := exists_at_of_mem hu 0
      have := (hR.mem_of hat (list_of_not_full hfull)).2
      rw [hq] at this
      cases this
    exact .inr ⟨hno, hR.slot_empty h3 hs hno⟩
  | cons r q =>
    rw [hq] at hfirst
    have hr : r ∈ qs (some (shift - min_shift)) := by rw [hq]; exact List.mem_cons_self
    have hne := hring.next_ne hr
    obtain ⟨j, rfl, s, hat, hl⟩ := (hR.mem _ ho r).1 hr
    obtain ⟨pre, post, rfl, hj⟩ := at_iff.1 hat
    rw [Nat.zero_add] at hj
    subst hj
    cases s with
    | chunks shift' used =>
      have h3' := (hat.valid hR.laid).1
      rw [Seg.list_chunks] at hl
      split_ifs at hl with hfull
      obtain rfl : shift' = shift := by
        have := Option.some.inj (Option.some.inj hl)
        omega
      exact .inl ⟨pre, used, post, by simp, hfull, hfirst, hne⟩
    | free n => cases hl
    | held n => cases hl
    | run n => cases hl

/-- the bitmap of a page of the layout is its own -/
theorem meta_mid (h : ¬ Meta G (pre ++ [.chunks shift used] ++ post) n) : ¬ BitmapOf G (span Seg.len pre) shift n :=
  fun hb => h ⟨_, _, used, by simp, hb⟩

theorem card_insert_eq (hc : c ∉ used) : (insert c used).card = used.card + 1 := Finset.card_insert_of_notMem hc

/-- a record of the statistics set anew -/
theorem stats_eq {stats stats' : ℕ → Stat} {slot : ℕ} {f : Stat → Stat} (h : stats' = Function.update stats slot (f (stats slot))) (k : ℕ) :
    stats' k = if k = slot then f (stats k) else stats k := by
  rw [h, Function.update_apply]
  split_ifs with hk
  · rw [hk]
  · rfl

/-- a request for a chunk -/
theorem alloc_chunk_refines (h : Inv G P L) (hsize : size ≤ G.max_size) :
    ∃ P' p L', P.ngx_slab_alloc_locked G size = some (P', p) ∧ Allocs G size L L' p ∧ Inv G P' L' ∧ Served G P P' L' size p := by
  obtain ⟨qs, hR⟩ := h.rep
  have h3 := min_shift_le_chunk_shift size
  have hs := chunk_shift_lt G hsize
  generalize hslot : chunk_shift size - min_shift = slot
  have hshift : ∀ k, chunk_shift size = k + min_shift ↔ k = slot := fun k => by rw [← hslot]; exact slot_iff h3
  have hasks : ∀ k, Asks G size k ↔ k = slot := fun k => by rw [← hslot]; exact asks_iff hsize
  generalize hP₀ : P.setStat slot (fun s => { s with reqs := s.reqs + 1 }) = P₀
  have hR₀ : Rep G P₀ L qs := hR.congr (by rw [← hP₀]; rfl) (by rw [← hP₀]; rfl) (by rw [← hP₀]; rfl) (by rw [← hP₀]; rfl)
  have hlog₀ : P₀.log_nomem = false := by rw [← hP₀]; exact h.log_nomem
  have hpfree₀ : P₀.pfree = P.pfree := by rw [← hP₀]; rfl
  have hmem₀ : P₀.mem = P.mem := by rw [← hP₀]; rfl
  have herrors₀ : P₀.errors = P.errors := by rw [← hP₀]; rfl
  have hstats₀ : ∀ k, P₀.stats k = if k = slot then { P.stats k with reqs := (P.stats k).reqs + 1 } else P.stats k :=
    stats_eq (f := fun s => { s with reqs := s.reqs + 1 }) (by rw [← hP₀]; rfl)
  rcases hR₀.slot_cases h3 hs with ⟨pre, used, post, rfl, hfull, hnext, hne⟩ | ⟨hno, hnext⟩
  · -- the first page of the slot has a chunk
    obtain ⟨c, P', qs', htake, hc, hc1, hc2, hR', heffect⟩ := take_chunk_spec hR₀ hfull
    rw [hslot] at hnext htake heffect
    have hallocs : Allocs G size (pre ++ [.chunks (chunk_shift size) used] ++ post) _ _ := .chunk hsize hc hc1 hc2
    have hp : G.page_addr (span Seg.len pre) + c * 2 ^ chunk_shift size ≠ 0 := (Nat.add_pos_left (page_addr_pos _) _).ne'
    have hstats : ∀ k, P'.stats k =
        if k = slot then { P.stats k with used := (P.stats k).used + 1, reqs := (P.stats k).reqs + 1 } else P.stats k := by
      intro k
      rw [stats_eq (f := Stat.taken) heffect.stats k, hstats₀ k]
      split_ifs <;> rfl
    refine ⟨P', _, _, ?_, hallocs, ⟨allocs_settled hallocs h.settled, ⟨_, hR'⟩, ?_, fun k => ?_, fun k => ?_, ?_⟩,
      fun w hw => ?_, ?_, fun k => ?_, fun k => ?_⟩
    · rw [Pool.ngx_slab_alloc_locked, if_neg (Nat.not_lt_of_le hsize)]
      simp only [hslot, hP₀, hnext, Option.bind_eq_bind, Option.bind_some, if_pos hne, htake]
    · rw [heffect.pfree, hpfree₀, h.pfree]
      simp
    · have hu := h.used k
      simp only [used_chunks_append, used_chunks_cons, used_chunks_nil, ofSlot_chunks, hshift, used_chunks_seg, card_insert_eq hc,
        Nat.add_zero] at hu ⊢
      rw [hstats k]
      split_ifs at hu ⊢ with hk
      · exact add_of_eq (b := 1) hu (by omega)
      · exact hu
    · have ht := h.total k
      simp only [all_chunks_append, all_chunks_cons, all_chunks_nil, ofSlot_chunks] at ht ⊢
      rw [hstats k, ← ht]
      split_ifs <;> rfl
    · rw [heffect.log_nomem, hlog₀]
    · rw [heffect.mem w (meta_mid hw), hmem₀]
    · rw [heffect.errors, herrors₀]
    · rw [hstats k]
      simp only [hasks]
      split_ifs <;> simp
    · rw [hstats k]
      simp only [hp, and_false, if_false]
      split_ifs <;> simp
  · rw [hslot] at hnext
    have heq : P.ngx_slab_alloc_locked G size = P₀.fresh_page G (chunk_shift size) slot := by
      rw [Pool.ngx_slab_alloc_locked, if_neg (Nat.not_lt_of_le hsize)]
      simp only [hslot, hP₀, hnext, Option.bind_eq_bind, Option.bind_some, ne_eq, not_true_eq_false, if_false]
    have hfresh := fresh_spec hR₀ h3 hs hno hlog₀
    rw [hslot] at hfresh
    rcases hfresh with ⟨pre, n, post, P', qs', rfl, hn, hfresh, hR', heffect⟩ | ⟨hfree, hfresh⟩
    · -- a new page
      have hallocs : Allocs G size (pre ++ [.free n] ++ post) _ _ := .fresh hsize hn
      have hp : G.page_addr (span Seg.len pre) + G.reserved (chunk_shift size) * 2 ^ chunk_shift size ≠ 0 :=
        (Nat.add_pos_left (page_addr_pos _) _).ne'
      have hstats : ∀ k, P'.stats k = if k = slot then
          { P.stats k with
            total := (P.stats k).total + BitVec.ofNat 32 (G.chunks (chunk_shift size) - G.reserved (chunk_shift size))
            used := (P.stats k).used + 1
            reqs := (P.stats k).reqs + 1 } else P.stats k := by
        intro k
        rw [stats_eq (f := fun s => s.opened (G.chunks (chunk_shift size) - G.reserved (chunk_shift size))) heffect.stats k, hstats₀ k]
        split_ifs <;> rfl
      refine ⟨P', _, _, by rw [heq, hfresh], hallocs, ⟨allocs_settled hallocs h.settled, ⟨_, hR'⟩, ?_, fun k => ?_, fun k => ?_, ?_⟩,
        fun w hw => ?_, ?_, fun k => ?_, fun k => ?_⟩
      · rw [heffect.pfree, hpfree₀]
        refine sub_of_add (b := 1) (h.pfree.trans (congrArg _ ?_))
        simp only [free_pages_append, free_pages_cons, free_pages_nil, free_pages_rest, isFree_free, isFree_chunks, if_true, if_false,
          Seg.len_free]
        omega
      · have hu := h.used k
        simp only [used_chunks_append, used_chunks_cons, used_chunks_nil, used_chunks_rest, ofSlot_chunks, ofSlot_free, hshift, if_false,
          used_chunks_seg, Finset.card_singleton, Nat.add_zero] at hu ⊢
        rw [hstats k]
        split_ifs with hk
        · exact add_of_eq (b := 1) hu (by omega)
        · exact hu
      · have ht := h.total k
        simp only [all_chunks_append, all_chunks_cons, all_chunks_nil, all_chunks_rest, ofSlot_chunks, ofSlot_free, hshift, if_false,
          Nat.add_zero] at ht ⊢
        rw [hstats k]
        split_ifs with hk
        · rw [← (hshift k).2 hk]
          exact add_of_eq ht (by omega)
        · exact ht
      · rw [heffect.log_nomem, hlog₀]
      · have hmeta : ¬ BitmapOf G (span Seg.len pre) (chunk_shift size) w := fun hb =>
          hw ⟨_, _, {G.reserved (chunk_shift size)}, by simp, hb⟩
        rw [heffect.mem w hmeta, hmem₀]
      · rw [heffect.errors, herrors₀]
      · rw [hstats k]
        simp only [hasks]
        split_ifs <;> simp
      · rw [hstats k]
        simp only [hp, and_false, if_false]
        split_ifs <;> simp
    · -- no page
      have hstats : ∀ k, (P₀.setStat slot Stat.failed).stats k = if k = slot then
          { P.stats k with reqs := (P.stats k).reqs + 1, fails := (P.stats k).fails + 1 } else P.stats k := by
        intro k
        rw [show (P₀.setStat slot Stat.failed).stats k = _ from stats_eq (f := Stat.failed) rfl k, hstats₀ k]
        split_ifs <;> rfl
      refine ⟨P₀.setStat slot Stat.failed, 0, L, by rw [heq, hfresh], .no_chunk hsize hfree hno,
        ⟨h.settled, ⟨qs, hR₀.congr rfl rfl rfl rfl⟩, hpfree₀.trans h.pfree, fun k => ?_, fun k => ?_, hlog₀⟩,
        fun w _ => congrFun hmem₀ w, herrors₀, fun k => ?_, fun k => ?_⟩
      · rw [hstats k, ← h.used k]
        split_ifs <;> rfl
      · rw [hstats k, ← h.total k]
        split_ifs <;> rfl
      · rw [hstats k]
        simp only [hasks]
        split_ifs <;> simp
      · rw [hstats k]
        simp only [hasks, and_true]
        split_ifs <;> simp

/-- **Requests.** A request in a pool with the invariant is answered, does one step of the abstract allocator, keeps the invariant and
touches nothing else. -/
theorem alloc_refines (h : Inv G P L) (size : ℕ) :
    ∃ P' p L', P.ngx_slab_alloc_locked G size = some (P', p) ∧ Allocs G size L L' p ∧ Inv G P' L' ∧ Served G P P' L' size p := by
  by_cases hsize : G.max_size < size
  · exact alloc_run_refines h hsize
  · exact alloc_chunk_refines h (Nat.le_of_not_lt hsize)

/-! ## Giving back -/

theorem start_bit : NGX_SLAB_PAGE_START = 1#64 <<< 63 := by decide

theorem ofNat_high {i : ℕ} (h : n ≤ G.pages) (hi : 55 ≤ i) : (BitVec.ofNat 64 n).getLsbD i = false := by
  have hn := G.pages_lt
  have hpow : 2 ^ 55 ≤ 2 ^ i := Nat.pow_le_pow_right (by norm_num) hi
  rw [BitVec.getLsbD_ofNat, Nat.testBit_lt_two_pow (by omega), Bool.and_false]

/-- the word of the first page of a block of pages -/
theorem run_word (h : n ≤ G.pages) : (BitVec.ofNat 64 n ||| NGX_SLAB_PAGE_START) &&& NGX_SLAB_PAGE_START ≠ 0 ∧
    BitVec.ofNat 64 n ||| NGX_SLAB_PAGE_START ≠ NGX_SLAB_PAGE_BUSY ∧
    ((BitVec.ofNat 64 n ||| NGX_SLAB_PAGE_START) &&& ~~~NGX_SLAB_PAGE_START).toNat = n := by
  rw [start_bit]
  refine ⟨fun hc => ?_, fun hc => ?_, ?_⟩
  · rw [and_bit, or_bit (by norm_num)] at hc
    simp at hc
  · have hbit := (eq_busy_iff _).1 hc 62 (by norm_num)
    rw [or_bit (by norm_num), ofNat_high h (by norm_num)] at hbit
    simp at hbit
  · have hword : (BitVec.ofNat 64 n ||| 1#64 <<< 63) &&& ~~~(1#64 <<< 63) = BitVec.ofNat 64 n := by
      refine BitVec.eq_of_getLsbD_eq fun i _ => ?_
      rw [and_not_bit, or_bit (by norm_num)]
      by_cases hi : i = 63
      · rw [hi, ofNat_high h (by norm_num)]
        simp
      · simp [hi]
    rw [hword]
    exact toNat_ofNat_of_le h

theorem run_free_eq {qs : Option ℕ → List Ref} (hR : Rep G P (pre ++ [.run n] ++ post) qs) :
    P.ngx_slab_free_locked G (G.page_addr (span Seg.len pre)) = P.ngx_slab_free_pages G (span Seg.len pre) n := by
  obtain ⟨hat, ⟨hslab, -, htype, -⟩, hv⟩ := hR.at_mid
  have hle := hR.len_le
  simp only [Seg.len_run] at hle
  have hn : 0 < n := hv
  have hfree := free_locked_eq (P := P) (show span Seg.len pre < G.pages by omega) G.page_size_pos
  rw [Nat.add_zero, htype] at hfree
  obtain ⟨h1, h2, h3⟩ := run_word (G := G) (n := n) (by omega)
  have hoff : G.page_addr (span Seg.len pre) &&& (G.page_size - 1) = 0 := G.offset_of G.page_size_pos
  rw [hfree]
  simp only [Pool.page_free, hoff, ne_eq, not_true_eq_false, if_false, hslab, h1, h2, h3]

/-- the layouts that a block can be in -/
theorem live_cases (hb : Live G L b) :
    (∃ pre n post, L = pre ++ [.run n] ++ post ∧ b = ⟨G.page_addr (span Seg.len pre), n * G.page_size⟩) ∨
    ∃ pre shift used post c, L = pre ++ [.chunks shift used] ++ post ∧ c ∈ used ∧
      b = ⟨G.page_addr (span Seg.len pre) + c * 2 ^ shift, 2 ^ shift⟩ := by
  obtain ⟨j, s, hat, hb⟩ := hb
  obtain ⟨pre, post, rfl, rfl⟩ := at_iff.1 hat
  rw [Nat.zero_add] at hb
  cases s with
  | free n => exact hb.elim
  | held n => exact hb.elim
  | run n => exact .inl ⟨pre, n, post, by simp, hb⟩
  | chunks shift used =>
    obtain ⟨c, hc, rfl⟩ := hb
    exact .inr ⟨pre, shift, used, post, c, by simp, hc, rfl⟩

theorem joins_counts (h : Joins k pre post L') : free_pages L' = free_pages pre + k + free_pages post ∧
    (∀ i, used_chunks i L' = used_chunks i pre + used_chunks i post) ∧
    ∀ i, all_chunks G i L' = all_chunks G i pre + all_chunks G i post := by
  cases h <;> refine ⟨?_, fun i => ?_, fun i => ?_⟩ <;> simp <;> omega

/-- **Giving back.** A block given back in a pool with the invariant is one step of the abstract allocator, which keeps the invariant and
touches nothing else. -/
theorem free_refines (h : Inv G P L) (hb : Live G L b) :
    ∃ P' L', P.ngx_slab_free_locked G b.addr = some P' ∧ Frees G b.addr L L' ∧ Inv G P' L' ∧ Returned G P P' L := by
  obtain ⟨qs, hR⟩ := h.rep
  rcases live_cases hb with ⟨pre, n, post, rfl, rfl⟩ | ⟨pre, shift, used, post, c, rfl, hc, rfl⟩
  · have hheld : ∀ m, Seg.held m ∉ pre ++ post := fun m hm => h.settled.not_held m (by simp only [List.mem_append] at hm ⊢; tauto)
    obtain ⟨P', L', qs', hrun, hR', hjoins, haside⟩ := free_pages_spec hR (.inl rfl) hheld
    have hfrees : Frees G (G.page_addr (span Seg.len pre)) (pre ++ [.run n] ++ post) L' := .run hjoins
    obtain ⟨hfree, hused, hall⟩ := joins_counts (G := G) hjoins
    refine ⟨P', L', (run_free_eq hR).trans hrun, hfrees, ⟨frees_settled hfrees h.settled, ⟨_, hR'⟩, ?_, fun k => ?_, fun k => ?_, ?_⟩,
      fun w _ => by rw [haside.mem], haside.errors, fun k => by rw [haside.stats], fun k => by rw [haside.stats]⟩
    · rw [haside.pfree, hfree]
      refine add_of_eq h.pfree ?_
      simp only [free_pages_append, free_pages_cons, free_pages_nil, isFree_run, if_false]
      omega
    · rw [haside.stats, h.used k, hused k]
      simp
    · rw [haside.stats, h.total k, hall k]
      simp
    · rw [haside.log_nomem]
      exact h.log_nomem
  · have hheld : ∀ m, Seg.held m ∉ pre ++ post := fun m hm => h.settled.not_held m (by simp only [List.mem_append] at hm ⊢; tauto)
    obtain ⟨P', L', qs', hrun, hR', hgiven⟩ := chunk_free_spec hR hheld hc
    obtain ⟨hat, -, hv⟩ := hR.at_mid
    have h3 := hv.1
    have hcard := Finset.card_erase_add_one hc
    rcases hgiven with ⟨hne, rfl, heffect⟩ | ⟨hempty, hjoins, heffect⟩
    · have hfrees : Frees G (G.page_addr (span Seg.len pre) + c * 2 ^ shift) (pre ++ [.chunks shift used] ++ post)
          (pre ++ [.chunks shift (used.erase c)] ++ post) := .chunk hc hne
      have hstats := stats_eq (f := Stat.given) heffect.stats
      refine ⟨P', _, hrun, hfrees, ⟨frees_settled hfrees h.settled, ⟨_, hR'⟩, ?_, fun k => ?_, fun k => ?_, ?_⟩,
        fun w hw => heffect.mem w (meta_mid hw), heffect.errors, fun k => ?_, fun k => ?_⟩
      · rw [heffect.pfree, h.pfree]
        simp
      · have hu := h.used k
        simp only [used_chunks_append, used_chunks_cons, used_chunks_nil, ofSlot_chunks, slot_iff h3, used_chunks_seg] at hu ⊢
        rw [hstats k]
        split_ifs at hu ⊢ with hk
        · refine sub_of_add (b := 1) (hu.trans (congrArg _ ?_))
          omega
        · exact hu
      · have ht := h.total k
        simp only [all_chunks_append, all_chunks_cons, all_chunks_nil, ofSlot_chunks] at ht ⊢
        rw [hstats k, ← ht]
        split_ifs <;> rfl
      · rw [heffect.log_nomem]
        exact h.log_nomem
      · rw [hstats k]
        split_ifs <;> rfl
      · rw [hstats k]
        split_ifs <;> rfl
    · obtain rfl : used = {c} := by
        have := Finset.insert_erase hc
        rw [hempty] at this
        exact this.symm
      have hfrees : Frees G (G.page_addr (span Seg.len pre) + c * 2 ^ shift) (pre ++ [.chunks shift {c}] ++ post) L' := .page hjoins
      have hstats := stats_eq (f := fun s => s.closed (G.chunks shift - G.reserved shift)) heffect.stats
      obtain ⟨hfree, hused, hall⟩ := joins_counts (G := G) hjoins
      refine ⟨P', _, hrun, hfrees, ⟨frees_settled hfrees h.settled, ⟨_, hR'⟩, ?_, fun k => ?_, fun k => ?_, ?_⟩,
        fun w hw => heffect.mem w (meta_mid hw), heffect.errors, fun k => ?_, fun k => ?_⟩
      · rw [heffect.pfree, hfree]
        refine add_of_eq (b := 1) h.pfree ?_
        simp only [free_pages_append, free_pages_cons, free_pages_nil, isFree_chunks, if_false]
        omega
      · have hu := h.used k
        simp only [used_chunks_append, used_chunks_cons, used_chunks_nil, ofSlot_chunks, slot_iff h3, used_chunks_seg,
          Finset.card_singleton] at hu
        rw [hstats k, hused k]
        split_ifs at hu ⊢ with hk
        · refine sub_of_add (b := 1) (hu.trans (congrArg _ ?_))
          omega
        · exact hu.trans (congrArg _ (by omega))
      · have ht := h.total k
        simp only [all_chunks_append, all_chunks_cons, all_chunks_nil, ofSlot_chunks, slot_iff h3] at ht
        rw [hstats k, hall k]
        split_ifs at ht ⊢ with hk
        · have hshift : k + min_shift = shift := by omega
          rw [hshift] at ht
          refine sub_of_add (ht.trans (congrArg _ ?_))
          omega
        · exact ht.trans (congrArg _ (by omega))
      · rw [heffect.log_nomem]
        exact h.log_nomem
      · rw [hstats k]
        split_ifs <;> rfl
      · rw [hstats k]
        split_ifs <;> rfl

end Shuttlesock.Slab
