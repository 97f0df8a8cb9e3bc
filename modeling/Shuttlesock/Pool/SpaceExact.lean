/-
The space counters of the pool allocator as numbers.

Model: `PoolSpace`, in runs without a size that overflows with its padding. There a counter never wraps, as the pages are apart.

Results:
- `exact_of_fits`: when each page holds what it counts, the counters add up as numbers.
- `accounting_of_reach`: every state of every run, and of those with such sizes.
-/
import Mathlib.Tactic
import Shuttlesock.Pool.Space

namespace Shuttlesock.PoolSpace

open Shuttlesock.Blocks Shuttlesock.Runs
open Shuttlesock.Pools (Build Cursor current_ret fullCurrent)

/-! ## Sums that do not wrap -/

theorem toNat_sum {l : List size_t} (h : (l.map BitVec.toNat).sum < 2 ^ 64) : l.sum.toNat = (l.map BitVec.toNat).sum := by
  induction l with
  | nil => rfl
  | cons x l ih =>
    rw [List.map_cons, List.sum_cons] at h ⊢
    rw [List.sum_cons, BitVec.toNat_add, ih (by omega), Nat.mod_eq_of_lt h]

/-- the cursor of the page is in it, behind what is counted -/
structure PageExact (b : Build) (size : ℕ) (x : Page) : Prop where
  cursor : Cursor b size x.addr x.space.cur
  filled : x.space.used.toNat + x.space.wasted.toNat + x.space.reserved.toNat + x.addr = x.space.cur

structure Fits (b : Build) (size : ℕ) (pages : List Page) : Prop where
  each : ∀ x ∈ pages, PageExact b size x
  apart : (pages.map fun x => (⟨x.addr, size⟩ : Block)).Pairwise Apart

/-- **The property as numbers** -/
structure Exact (p : SpacePool) : Prop where
  total : p.space.used.toNat + p.space.free.toNat + p.space.wasted.toNat + p.space.reserved.toNat = p.size * p.count.toNat
  free : ∃ last rest, p.pages = last :: rest ∧ p.cur ≤ last.addr + p.size ∧ p.space.free.toNat = last.addr + p.size - p.cur

/-- the sizes of a run -/
def Small (_ : St) : Action → Prop
  | .alloc _ sz _ => sz + 32 ≤ 2 ^ 63
  | _ => True

instance (s : St) : (a : Action) → Decidable (Small s a)
  | .alloc _ sz _ => inferInstanceAs (Decidable (sz + 32 ≤ 2 ^ 63))
  | .mark _ => isTrue trivial
  | .drain _ => isTrue trivial

section Exact

variable {b : Build} {size : ℕ} {pages : List Page} {p q : SpacePool}

theorem PageExact.room {x : Page} (hb : b.valgrind = false) (h : PageExact b size x) :
    (room size x).toNat = x.addr + size - x.space.cur := by
  obtain ⟨-, hpos, hstart, hstop, hbound⟩ := h.cursor
  simp only [Build.rzb, hb, Bool.false_eq_true, if_false, add_zero] at hstart hstop hbound
  unfold PoolSpace.room page_used_space size_t.of
  simp only [BitVec.toNat_sub, BitVec.toNat_ofNat]
  omega

/-- what the pages count, and what they have left -/
theorem Fits.sum (hb : b.valgrind = false) (h : Fits b size pages) :
    (pages.map (·.space.used.toNat)).sum + (pages.map (·.space.wasted.toNat)).sum + (pages.map (·.space.reserved.toNat)).sum +
      (pages.map fun x => (room size x).toNat).sum = size * pages.length := by
  have hpages := h.each
  clear h
  induction pages with
  | nil => simp
  | cons x pages ih =>
    have hx := hpages x List.mem_cons_self
    have hroom := hx.room hb
    have hfilled := hx.filled
    have hstop := hx.cursor.stop
    simp only [Build.rzb, hb, Bool.false_eq_true, if_false, add_zero] at hstop
    have ih := ih fun y hy => hpages y (List.mem_cons_of_mem x hy)
    simp only [List.map_cons, List.sum_cons, List.length_cons, Nat.mul_succ]
    omega

theorem Fits.le (hb : b.valgrind = false) (h : Fits b size pages) : size * pages.length ≤ 2 ^ 63 := by
  have hsum : ((pages.map fun x => (⟨x.addr, size⟩ : Block)).map Block.size).sum ≤ 2 ^ 63 := size_sum_le h.apart ?_
  · rw [List.map_map] at hsum
    have hconst : (pages.map (Block.size ∘ fun x => (⟨x.addr, size⟩ : Block))).sum = size * pages.length := by
      have hmap : pages.map (Block.size ∘ fun x => (⟨x.addr, size⟩ : Block)) = pages.map (Function.const Page size) := rfl
      rw [hmap, List.map_const, List.sum_replicate, smul_eq_mul, mul_comm]
    omega
  · intro c hc
    obtain ⟨x, hx, rfl⟩ := List.mem_map.1 hc
    have hbound := (h.each x hx).cursor.bound
    simp only [Build.rzb, hb, Bool.false_eq_true, if_false, add_zero] at hbound
    exact hbound

/-- **The counters as numbers** -/
theorem exact_of_fits (hb : b.valgrind = false) (hp : PoolInv p) (h : Fits b p.size p.pages) : Exact p := by
  obtain ⟨last, rest, hpages, hcur⟩ := hp.cur
  have hsum := h.sum hb
  have hle := h.le hb
  have hcounted := hp.counted
  rw [hpages] at hcounted hsum hle
  obtain ⟨hused, hreserved, hwasted, hfree⟩ := counted_cons.1 hcounted
  have hlast : PageExact b p.size last := h.each last (hpages ▸ List.mem_cons_self)
  simp only [List.map_cons, List.sum_cons] at hsum
  have hmap : ∀ f : Page → size_t, (rest.map f).map BitVec.toNat = rest.map fun x => (f x).toNat := fun f => List.map_map
  have husedn : p.space.used.toNat = last.space.used.toNat + (rest.map fun x => x.space.used.toNat).sum := by
    have hlt := toNat_sum (l := last.space.used :: rest.map (·.space.used)) (by simp only [List.map_cons, List.sum_cons, hmap]; omega)
    simpa only [List.map_cons, List.sum_cons, hmap, ← hused] using hlt
  have hreservedn : p.space.reserved.toNat = last.space.reserved.toNat + (rest.map fun x => x.space.reserved.toNat).sum := by
    have hlt := toNat_sum (l := last.space.reserved :: rest.map (·.space.reserved))
      (by simp only [List.map_cons, List.sum_cons, hmap]; omega)
    simpa only [List.map_cons, List.sum_cons, hmap, ← hreserved] using hlt
  have hwastedn : p.space.wasted.toNat = last.space.wasted.toNat + (rest.map fun x => x.space.wasted.toNat).sum +
      (rest.map fun x => (PoolSpace.room p.size x).toNat).sum := by
    have hlt := toNat_sum (l := (last.space.wasted :: rest.map (·.space.wasted)) ++ rest.map (PoolSpace.room p.size))
      (by simp only [List.map_append, List.sum_append, List.map_cons, List.sum_cons, hmap]; omega)
    simpa only [List.map_append, List.sum_append, List.map_cons, List.sum_cons, hmap, ← hwasted] using hlt
  have hcount : p.count.toNat = (last :: rest).length := by
    have hpos : 1 * (last :: rest).length ≤ p.size * (last :: rest).length := Nat.mul_le_mul_right _ hp.size.1
    rw [hp.count, hpages, size_t.of, BitVec.toNat_ofNat, Nat.mod_eq_of_lt (by omega)]
  have hroom := hlast.room hb
  have hstop := hlast.cursor.stop
  simp only [Build.rzb, hb, Bool.false_eq_true, if_false, add_zero] at hstop
  rw [hcur] at hroom hstop
  refine ⟨?_, last, rest, hpages, hstop, ?_⟩
  · rw [husedn, hreservedn, hwastedn, hfree, hcount]
    omega
  · rw [hfree, hroom]

/-! ## What keeps it -/

/-- a page with more in it: what is in front of ret is lost -/
theorem PageExact.update (hb : b.valgrind = false) {x : Page} (h : PageExact b size x) {ret sz : ℕ} (hret : x.space.cur ≤ ret)
    (hle : ret + sz ≤ x.addr + size) : PageExact b size ⟨x.addr, { x.space with
      wasted := x.space.wasted + (size_t.of ret - size_t.of x.space.cur + 0)
      used := x.space.used + size_t.of sz
      cur := (ret + sz) % 2 ^ 64 }⟩ := by
  obtain ⟨haligned, hpos, hstart, hstop, hbound⟩ := h.cursor
  have hfilled := h.filled
  simp only [Build.rzb, hb, Bool.false_eq_true, if_false, add_zero] at hstart hstop hbound
  have hcur : (ret + sz) % 2 ^ 64 = ret + sz := Nat.mod_eq_of_lt (by omega)
  have hwasted : (x.space.wasted + (size_t.of ret - size_t.of x.space.cur + 0)).toNat = x.space.wasted.toNat + (ret - x.space.cur) := by
    simp only [size_t.of, add_zero, BitVec.toNat_add, BitVec.toNat_sub, BitVec.toNat_ofNat]
    omega
  have hused : (x.space.used + size_t.of sz).toNat = x.space.used.toNat + sz := by
    simp only [size_t.of, BitVec.toNat_add, BitVec.toNat_ofNat]
    omega
  refine ⟨⟨haligned, hpos, ?_, ?_, ?_⟩, ?_⟩
  · simp only [Build.rzb, hb, Bool.false_eq_true, if_false, add_zero, hcur]
    omega
  · simp only [Build.rzb, hb, Bool.false_eq_true, if_false, add_zero, hcur]
    omega
  · simpa only [Build.rzb, hb, Bool.false_eq_true, if_false, add_zero] using hbound
  · simp only [hcur, hwasted, hused]
    omega

theorem current_fits (hb : b.valgrind = false) (hp : PoolInv p) (h : Fits b p.size p.pages) {sz : ℕ} {align : Bool}
    (hsz : sz + 32 ≤ 2 ^ 63) {ret : Option ℕ} (hq : palloc_in_current_page b p sz align = some (ret, q)) : Fits b q.size q.pages := by
  obtain ⟨last, rest, hpages, hcur⟩ := hp.cur
  unfold palloc_in_current_page at hq
  split_ifs at hq with hfull
  · cases hq
    exact h
  · simp only [hpages] at hq
    obtain ⟨-, rfl⟩ := Prod.mk.inj (Option.some.inj hq)
    have hlast : PageExact b p.size last := h.each last (hpages ▸ List.mem_cons_self)
    have hcursor : Cursor b p.size last.addr p.cur := hcur ▸ hlast.cursor
    have hhead : p.pool.pages.head? = some last.addr := by simp [SpacePool.pool, hpages]
    have hstop := hcursor.stop
    have hbound := hcursor.bound
    have hlt : current_ret b p.pool align < p.pool.cur + b.rzb + 8 := Pools.current_ret_lt
    have hrzb : b.rzb = 0 := by simp [Build.rzb, hb]
    have hpcur : p.pool.cur = p.cur := rfl
    have hle : p.pool.cur + b.rzb ≤ current_ret b p.pool align := Pools.le_current_ret (by omega)
    have hiff : fullCurrent b p.pool sz align ↔ last.addr + p.size < current_ret b p.pool align + sz + b.rzb :=
      Pools.fullCurrent_iff hhead hcursor (by omega)
    have hroom : current_ret b p.pool align + sz ≤ last.addr + p.size := by
      have hnot := not_lt.1 (mt hiff.2 hfull)
      rwa [hrzb] at hnot
    refine ⟨fun x hx => ?_, ?_⟩
    · rcases List.mem_cons.1 hx with rfl | hx
      · rw [← hcur]
        exact hlast.update hb (by omega) hroom
      · exact h.each x (hpages ▸ List.mem_cons_of_mem last hx)
    · have happart := h.apart
      rw [hpages] at happart
      exact happart

theorem add_page_fits (hb : b.valgrind = false) (hp : p.size < 2 ^ 64) (h : Fits b p.size p.pages) (hsize : b.page ≤ p.size)
    {m : Malloc} (hq : add_page b m p = some q) : Fits b q.size q.pages := by
  have hrzb : b.rzb = 0 := by simp [Build.rzb, hb]
  have hpool : Pools.add_page b m p.pool = some q.pool := by rw [← add_page_pool hb, hq, Option.map_some]
  have hbound : p.pool.size + 2 * b.rzb < 2 ^ 64 := by
    rw [hrzb]
    exact hp
  obtain ⟨page, hqpool, -, hcursor, hapart⟩ := Pools.add_page_cursor hsize hbound hpool
  obtain ⟨page', -, rfl⟩ := Option.map_eq_some_iff.1 hq
  obtain ⟨rfl, -⟩ := List.cons.inj (congrArg Pools.Pool.pages hqpool)
  have hcur : Pools.align_native (page' + b.page) = page' + b.page + b.rzb := congrArg Pools.Pool.cur hqpool
  rw [← hcur] at hcursor
  obtain ⟨haligned, hpos, hstart, hstop, hend⟩ := hcursor
  rw [hrzb, add_zero] at hstop hend
  have hreserved : (page_used_space page' (Pools.align_native (page' + b.page))).toNat = Pools.align_native (page' + b.page) - page' := by
    simp only [page_used_space, size_t.of, BitVec.toNat_sub, BitVec.toNat_ofNat]
    omega
  refine ⟨fun x hx => ?_, List.pairwise_cons.2 ⟨fun c hc => ?_, h.apart⟩⟩
  · rcases List.mem_cons.1 hx with rfl | hx
    · refine ⟨⟨haligned, hpos, hstart, ?_, ?_⟩, ?_⟩
      · rw [hrzb]
        exact hstop
      · rw [hrzb]
        exact hend
      · have hzero : (0 : size_t).toNat = 0 := rfl
        simp only [hreserved, hzero]
        omega
    · exact h.each x hx
  · obtain ⟨x, hx, rfl⟩ := List.mem_map.1 hc
    have hblock : ∀ page, Pools.pageBlock b p.size page = ⟨page, p.size⟩ := fun page => by simp [Pools.pageBlock, hrzb]
    have hmem : (⟨x.addr, p.size⟩ : Block) ∈ Pools.blocks b p.pool := by
      refine List.mem_append_left _ (List.mem_map.2 ⟨x.addr, List.mem_map_of_mem hx, ?_⟩)
      exact hblock x.addr
    have hap := hapart _ hmem
    rwa [show p.pool.size = p.size from rfl, hblock] at hap

theorem new_page_fits (hb : b.valgrind = false) (hp : PoolInv p) (h : Fits b p.size p.pages) (hsize : b.page ≤ p.size)
    {m : Malloc} {sz : ℕ} {align : Bool} (hsz : sz + 32 ≤ 2 ^ 63) {ret : Option ℕ}
    (hq : palloc_in_new_page b m p sz align = some (ret, q)) :
    Fits b q.size q.pages := by
  unfold palloc_in_new_page at hq
  split_ifs at hq
  · cases hq
    exact h
  · split at hq
    · cases hq
      exact h
    · rename_i p' hadd
      have h1 := add_page_fits hb hp.size.2 h hsize hadd
      split at hq
      · rename_i hcurrent
        cases hq
        exact current_fits hb (add_page_grows hp hb hadd).1 h1 hsz hcurrent
      · cases hq

theorem malloc_fits {m : Malloc} {sz ret : ℕ} (h : Fits b p.size p.pages) (hq : plain_old_malloc b m p sz = some (ret, q)) :
    Fits b q.size q.pages := by
  obtain ⟨r, -, heq⟩ := Option.map_eq_some_iff.1 hq
  cases heq
  exact h

/-- **An allocation** -/
theorem alloc_fits (hb : b.valgrind = false) (hp : PoolInv p) (h : Fits b p.size p.pages) (hsize : b.page ≤ p.size)
    {m : Malloc} {sz : ℕ} {align : Bool} (hsz : sz + 32 ≤ 2 ^ 63) {ret : Option ℕ}
    (hq : palloc_with_alignment b m p sz align = some (ret, q)) :
    Fits b q.size q.pages := by
  unfold palloc_with_alignment at hq
  split at hq
  · cases hq
  · rename_i hcurrent
    cases hq
    exact current_fits hb hp h hsz hcurrent
  · rename_i p₁ hcurrent
    have hg := current_grows hp hcurrent
    have h1 := current_fits hb hp h hsz hcurrent
    have hsize1 : b.page ≤ p₁.size := hsize.trans hg.2.size.ge
    split at hq
    · cases hq
    · rename_i hnew
      cases hq
      exact new_page_fits hb hg.1 h1 hsize1 hsz hnew
    · rename_i p' hnew
      have h2 := new_page_fits hb hg.1 h1 hsize1 hsz hnew
      split at hq
      · rename_i hmalloc
        cases hq
        exact malloc_fits h2 hmalloc
      · cases hq
        exact h2

end Exact

/-! ## Every run -/

section Run

variable {b : Build} {s s' : St} {a : Action}

/-- the pool and the pools at the marks -/
structure FitInv (b : Build) (s : St) : Prop where
  inv : Inv s
  pool : Fits b s.pool.size s.pool.pages
  live : ∀ l ∈ s.live, Fits b l.2.size l.2.pages
  size : b.page ≤ s.pool.size

theorem level_small (b : Build) : b.level + 32 ≤ 2 ^ 63 := by
  unfold Build.level
  split <;> norm_num

theorem step_fits (hb : b.valgrind = false) (h : FitInv b s) (hok : Small s a) (hs : step b s a = some s') : FitInv b s' := by
  have hinv := step_inv hb h.inv hs
  cases a with
  | alloc m sz align =>
    simp only [step] at hs
    split_ifs at hs
    obtain ⟨r, hr, rfl⟩ := Option.map_eq_some_iff.1 hs
    have hgrows := alloc_grows h.inv.pool hb hr
    exact ⟨hinv, alloc_fits hb h.inv.pool h.pool h.size hok hr, h.live, h.size.trans hgrows.2.size.ge⟩
  | mark m =>
    obtain ⟨⟨n, q⟩, hm, rfl⟩ := Option.map_eq_some_iff.1 hs
    have hq : Fits b q.size q.pages := by
      unfold shuso_pool_mark_level at hm
      split at hm
      · cases hm
      · rename_i halloc
        cases hm
        exact alloc_fits hb h.inv.pool h.pool h.size (level_small b) halloc
      · rename_i halloc
        have hfits := alloc_fits hb h.inv.pool h.pool h.size (level_small b) halloc
        split_ifs at hm
        cases hm
        exact hfits
    have hgrows := (mark_grows h.inv.pool hb hm).1
    refine ⟨hinv, hq, fun l hl => ?_, h.size.trans hgrows.2.size.ge⟩
    dsimp only at hl
    split_ifs at hl
    · exact h.live l hl
    · rcases List.mem_cons.1 hl with rfl | hl
      · exact hq
      · exact h.live l hl
  | drain n =>
    simp only [step] at hs
    split_ifs at hs with hn
    obtain ⟨r, hr, rfl⟩ := Option.map_eq_some_iff.1 hs
    obtain ⟨t, rest, hlive⟩ := newest hn
    have hsuffix : (n, t) :: rest <:+ s.live := hlive ▸ List.dropWhile_suffix _
    have hmem : (n, t) ∈ s.live := hsuffix.subset List.mem_cons_self
    obtain ⟨ht, habove, hrecord⟩ := h.inv.live (n, t) hmem
    obtain ⟨v, hv, -, hgrows, -, hpages⟩ := drain_spec ht h.inv.pool habove hrecord
    obtain rfl := Option.some.inj (hv.symm.trans hr)
    have hsize : v.size = t.size := hgrows.2.size
    refine ⟨hinv, ?_, fun l hl => h.live l ?_, ?_⟩
    · rw [hsize, hpages]
      exact h.live (n, t) hmem
    · rw [hlive] at hl
      exact hsuffix.subset hl
    · rw [hsize, ← habove.size]
      exact h.size

theorem init_fits (hb : b.valgrind = false) {m : Malloc} {size : ℕ} {p : SpacePool} (hsize : b.page ≤ size ∧ size < 2 ^ 64)
    (h : shuso_pool_init b m size = some p) : Fits b p.size p.pages :=
  add_page_fits hb hsize.2 ⟨by simp, List.Pairwise.nil⟩ hsize.1 h

theorem init_size {m : Malloc} {size : ℕ} {p : SpacePool} (h : shuso_pool_init b m size = some p) : p.size = size := by
  obtain ⟨page, -, rfl⟩ := Option.map_eq_some_iff.1 h
  rfl

theorem exact_of_reach (hb : b.valgrind = false) {m : Malloc} {size : ℕ} {p : SpacePool} (hsize : b.page ≤ size ∧ size < 2 ^ 64)
    (hinit : shuso_pool_init b m size = some p) (h : Reach (step b) Small (start p) s) : Exact s.pool := by
  have hpos : 0 < size := by
    have := b.page_mod.2.1
    omega
  have hstart : FitInv b (start p) := by
    refine ⟨⟨init_inv ⟨hpos, hsize.2⟩ hinit, by simp [start], List.Pairwise.nil⟩, init_fits hb hsize hinit, by simp [start], ?_⟩
    rw [start, init_size hinit]
    exact hsize.1
  have hinv : FitInv b s := h.inv hstart fun s a t hi hok hs => step_fits hb hi hok hs
  exact exact_of_fits hb hinv.inv.pool hinv.pool

end Run

/-- pages of 128 bytes -/
def small_pool : SpacePool := ⟨128, 1, [⟨16, ⟨0, 0, 40, 56⟩⟩], 56, [], [], ⟨0, 88, 0, 40, 0⟩⟩

end Shuttlesock.PoolSpace
