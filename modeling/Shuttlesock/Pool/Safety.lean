/-
Safety of the pool allocator, over runs of allocations, marks and drains.

- `St`: the pool, and what it has handed out since: `live` are the allocations and the level records, newest first, that were
  not drained. A drain to level n takes away everything that is newer than the record of n; it is made only while that
  record is live.
- `Safe`: no assertion has failed; each live block lies in the usable area of one page or is a block of its own; live blocks
  are apart; aligned ones are aligned.
- `Ok`: under Valgrind, no allocation has a size for which `page_max_free_space` finds room in a new page that a new page
  does not have (it forgets the red zone behind the header), unless there is no memory for that page.

Results:
- `palloc_spec`: an allocation that meets the condition returns NULL or a block apart from all the others.
- `Stacked.find`: the record of a live level describes a place in which all that is older still lies.
- `step_inv`, `safe_of_ok`: every state reached; `safe_of_plain`: without Valgrind there is no condition.
- `unsafe_valgrind`: with it, an assertion fails.
-/
import Mathlib.Tactic
import Shuttlesock.Core.Runs
import Shuttlesock.Pool.Palloc

namespace Shuttlesock.Pools

open Shuttlesock.Blocks Shuttlesock.Runs

/-! ## The system -/

inductive Item where
  | alloc (x : Block) (aligned : Bool)
  /-- the record of the n-th level -/
  | level (n : ℕ) (x : Block)
deriving DecidableEq, Repr

def Item.block : Item → Block
  | .alloc x _ => x
  | .level _ x => x

def Item.aligned : Item → Bool
  | .alloc _ a => a
  | .level _ _ => true

def Item.isLevel (n : ℕ) : Item → Bool
  | .alloc _ _ => false
  | .level k _ => k == n

structure St where
  pool : Pool
  live : List Item
  aborted : Bool

inductive Action where
  /-- `shuso_palloc` or `shuso_palloc_unaligned` -/
  | alloc (m : Malloc) (sz : ℕ) (align : Bool)
  | mark (m : Malloc)
  | drain (n : ℕ)

def step (b : Build) (s : St) (a : Action) : Option St :=
  if s.aborted then none
  else
    match a with
    | .alloc m sz align =>
      if sz < 2 ^ 62 then
        match palloc_with_alignment b m s.pool sz align with
        | none => some { s with aborted := true }
        | some (none, p) => some { s with pool := p }
        | some (some ret, p) => some { s with pool := p, live := .alloc ⟨ret, sz⟩ align :: s.live }
      else none
    | .mark m =>
      if s.pool.levels.length < MAX_LEVELS then
        match shuso_pool_mark_level b m s.pool with
        | none => some { s with aborted := true }
        | some (n, p) =>
          let record := if n = 0 then none else p.levels.getLast?.map fun l => .level n ⟨l.addr, b.level⟩
          some { s with pool := p, live := record.toList ++ s.live }
      else none
    | .drain n =>
      if s.live.any (Item.isLevel n) then
        match shuso_pool_drain_to_level s.pool n with
        | none => some { s with aborted := true }
        | some (_, p) => some { s with pool := p, live := s.live.dropWhile fun x => !x.isLevel n }
      else none

def start (p : Pool) : St := ⟨p, [], false⟩

/-- behind the header of a page, and not behind its end -/
def InPage (b : Build) (size : ℕ) (x : Block) (page : ℕ) : Prop := page + b.page ≤ x.addr ∧ x.stop ≤ page + size

structure Safe (b : Build) (s : St) : Prop where
  running : s.aborted = false
  placed : ∀ x ∈ s.live, (∃ page ∈ s.pool.pages, InPage b s.pool.size x.block page) ∨
    ∃ a ∈ s.pool.allocd, x.block = ⟨a.data, a.size⟩
  apart : (s.live.map Item.block).Pairwise Apart
  aligned : ∀ x ∈ s.live, x.aligned = true → x.block.addr % 8 = 0

/-- a new page seems to have room for sz, and has none -/
def tight (b : Build) (size sz : ℕ) : Prop := b.page + sz + 2 * b.rzb ≤ size ∧ size < b.page + sz + 3 * b.rzb

instance (b : Build) (size sz : ℕ) : Decidable (tight b size sz) := inferInstanceAs (Decidable (_ ∧ _))

/-- there is room after all, or no memory for a new page -/
def AllocOk (b : Build) (m : Malloc) (p : Pool) (sz : ℕ) : Prop :=
  ¬ tight b p.size sz ∨ m.fn (blocks b p) ((p.size + 2 * b.rzb) % 2 ^ 64) = none

instance (b : Build) (m : Malloc) (p : Pool) (sz : ℕ) : Decidable (AllocOk b m p sz) := inferInstanceAs (Decidable (_ ∨ _))

def Ok (b : Build) (s : St) : Action → Prop
  | .alloc m sz _ => AllocOk b m s.pool sz
  | .mark m => AllocOk b m s.pool b.level
  | .drain _ => True

instance (b : Build) (s : St) : (a : Action) → Decidable (Ok b s a)
  | .alloc m sz _ => inferInstanceAs (Decidable (AllocOk b m s.pool sz))
  | .mark m => inferInstanceAs (Decidable (AllocOk b m s.pool b.level))
  | .drain _ => isTrue trivial

/-! ## Places -/

/-- the memory of a pool, up to a cursor -/
structure Place where
  pages : List ℕ
  cur : ℕ
  allocd : List Allocd

def Pool.place (p : Pool) : Place := ⟨p.pages, p.cur, p.allocd⟩

def Place.pageBlocks (b : Build) (size : ℕ) (R : Place) : List Block := R.pages.map (pageBlock b size)

def Place.allocdBlocks (b : Build) (R : Place) : List Block := R.allocd.flatMap (Pools.allocdBlocks b)

/-- the blocks are apart -/
structure Sep (b : Build) (size : ℕ) (R : Place) : Prop where
  pages : (R.pageBlocks b size).Pairwise Apart
  allocd : (R.allocdBlocks b).Pairwise Apart
  cross : ∀ x ∈ R.pageBlocks b size, ∀ y ∈ R.allocdBlocks b, Apart x y
  page : ∀ page ∈ R.pages, b.rzb ≤ page
  data : ∀ a ∈ R.allocd, b.separate = false → a.data = a.addr + b.allocd

/-- and the cursor is in the last page -/
structure Wf (b : Build) (size : ℕ) (R : Place) : Prop extends Sep b size R where
  cursor : ∃ page, R.pages.head? = some page ∧ Cursor b size page R.cur

/-- x lies in this place: in a page, and in the last page below the cursor, or in a block of its own -/
def Located (b : Build) (size : ℕ) (R : Place) (x : Block) : Prop :=
  (∃ page ∈ R.pages, InPage b size x page ∧ (R.pages.head? = some page → x.stop ≤ R.cur)) ∨
    ∃ a ∈ R.allocd, x = ⟨a.data, a.size⟩

/-- R' has all that R has, and more -/
structure Extends (R R' : Place) : Prop where
  pages : R.pages <:+ R'.pages
  allocd : R.allocd <:+ R'.allocd
  cur : R'.pages = R.pages → R.cur ≤ R'.cur

theorem Extends.refl (R : Place) : Extends R R := ⟨List.suffix_rfl, List.suffix_rfl, fun _ => le_rfl⟩

theorem Extends.trans {R R' R'' : Place} (h1 : Extends R R') (h2 : Extends R' R'') : Extends R R'' := by
  refine ⟨h1.pages.trans h2.pages, h1.allocd.trans h2.allocd, fun heq => ?_⟩
  have hlen1 := h1.pages.length_le
  have hlen2 := h2.pages.length_le
  have heq1 : R'.pages = R.pages := (h1.pages.eq_of_length (by rw [heq] at hlen2; omega)).symm
  exact (h1.cur heq1).trans (h2.cur (heq.trans heq1.symm))

section Place

variable {b : Build} {size : ℕ} {R R' : Place} {x y : Block}

theorem size_pos (hsize : b.page ≤ size) (page : ℕ) : 0 < (pageBlock b size page).size := by
  obtain ⟨-, hp, -⟩ := b.page_mod
  unfold pageBlock
  dsimp only
  omega

theorem Sep.nodup (h : Sep b size R) (hsize : b.page ≤ size) : R.pages.Nodup := by
  have hpages := List.pairwise_map.1 h.pages
  refine hpages.imp fun {p q} hpq => ?_
  rintro rfl
  exact not_apart_self (size_pos hsize p) hpq

theorem Sep.inPage {page : ℕ} (h : Sep b size R) (hp : page ∈ R.pages) (hin : InPage b size x page) :
    Within x (pageBlock b size page) := by
  have hrzb := h.page page hp
  obtain ⟨h1, h2⟩ := hin
  unfold Within pageBlock Block.stop at *
  dsimp only
  constructor <;> omega

theorem Sep.inData {a : Allocd} (h : Sep b size R) (ha : a ∈ R.allocd) :
    ∃ z ∈ R.allocdBlocks b, Within ⟨a.data, a.size⟩ z := by
  have hdata := h.data a ha
  cases hsep : b.separate with
  | true =>
    refine ⟨⟨a.data, a.size⟩, List.mem_flatMap.2 ⟨a, ha, ?_⟩, Within.refl _⟩
    simp [allocdBlocks, hsep]
  | false =>
    refine ⟨⟨a.addr, b.allocd + a.size⟩, List.mem_flatMap.2 ⟨a, ha, ?_⟩, ?_⟩
    · simp [allocdBlocks, hsep]
    · unfold Within Block.stop
      dsimp only
      rw [hdata hsep]
      constructor <;> omega

theorem Sep.pages_apart {p q : ℕ} (h : Sep b size R) (hp : p ∈ R.pages) (hq : q ∈ R.pages) (hne : p ≠ q) :
    Apart (pageBlock b size p) (pageBlock b size q) := by
  have hsymm : Std.Symm fun p q => Apart (pageBlock b size p) (pageBlock b size q) := ⟨fun _ _ => Apart.symm⟩
  exact (List.pairwise_map.1 h.pages).forall hp hq hne

theorem Located.mono (h : Located b size R x) (hwf : Sep b size R') (hsize : b.page ≤ size) (he : Extends R R') :
    Located b size R' x := by
  rcases h with ⟨page, hp, hin, hcur⟩ | ⟨a, ha, hx⟩
  · refine .inl ⟨page, he.pages.subset hp, hin, fun hhead => ?_⟩
    have heq : R.pages = R'.pages := eq_of_suffix he.pages (hwf.nodup hsize) hhead hp
    exact (hcur (heq ▸ hhead)).trans (he.cur heq.symm)
  · exact .inr ⟨a, he.allocd.subset ha, hx⟩

/-- a block of the last page behind the cursor is apart from what is located -/
theorem apart_of_cursor {page : ℕ} (hwf : Wf b size R) (hhead : R.pages.head? = some page) (hin : InPage b size x page)
    (hcur : R.cur ≤ x.addr) (hy : Located b size R y) : Apart x y := by
  have hmem : page ∈ R.pages := List.mem_of_mem_head? hhead
  have hx := hwf.inPage hmem hin
  rcases hy with ⟨q, hq, hqin, hqcur⟩ | ⟨a, ha, rfl⟩
  · by_cases he : q = page
    · subst he
      exact .inr ((hqcur hhead).trans hcur)
    · exact (hwf.pages_apart hmem hq (Ne.symm he)).within hx (hwf.inPage hq hqin)
  · obtain ⟨z, hz, hw⟩ := hwf.inData ha
    exact (hwf.cross _ (List.mem_map.2 ⟨page, hmem, rfl⟩) z hz).within hx hw

/-- a new block is apart from what is located -/
theorem apart_of_fresh {z : Block} (hwf : Sep b size R)
    (hfresh : ∀ w ∈ R.pageBlocks b size ++ R.allocdBlocks b, Apart z w) (hx : Within x z)
    (hy : Located b size R y) : Apart x y := by
  rcases hy with ⟨q, hq, hqin, -⟩ | ⟨a, ha, rfl⟩
  · exact (hfresh _ (List.mem_append_left _ (List.mem_map.2 ⟨q, hq, rfl⟩))).within hx (hwf.inPage hq hqin)
  · obtain ⟨w, hw, hwi⟩ := hwf.inData ha
    exact (hfresh w (List.mem_append_right _ hw)).within hx hwi

end Place

/-! ## Allocations -/

/-- the pool p became p', with the new block x -/
structure Allocated (b : Build) (p p' : Pool) (x : Block) (align : Bool) : Prop where
  size : p'.size = p.size
  levels : p'.levels = p.levels
  extends' : Extends p.place p'.place
  wf : Wf b p.size p'.place
  located : Located b p.size p'.place x
  apart : ∀ y, Located b p.size p.place y → Apart x y
  aligned : align = true → x.addr % 8 = 0

section Alloc

variable {b : Build} {m : Malloc} {p p' : Pool} {sz ret : ℕ} {align : Bool}

theorem current_allocated (hwf : Wf b p.size p.place) (hsz : sz + 32 ≤ 2 ^ 63)
    (h : palloc_in_current_page b p sz align = (some ret, p')) : Allocated b p p' ⟨ret, sz⟩ align := by
  obtain ⟨page, hhead, hcur⟩ := hwf.cursor
  obtain ⟨rfl, hle, hstop, halign⟩ := in_current_page hhead hcur hsz h
  obtain ⟨-, hrzb⟩ := b.rzb_mod
  have hstart := hcur.start
  have hin : InPage b p.size ⟨ret, sz⟩ page := by
    unfold InPage Block.stop
    dsimp only
    change p.cur + b.rzb ≤ ret at hle
    change page + b.page + b.rzb ≤ p.cur at hstart
    constructor <;> omega
  change p.cur + b.rzb ≤ ret at hle
  change page + b.page + b.rzb ≤ p.cur at hstart
  refine ⟨rfl, rfl, ⟨List.suffix_rfl, List.suffix_rfl, fun _ => ?_⟩, ⟨⟨hwf.pages, hwf.allocd,
    hwf.cross, hwf.page, hwf.data⟩, page, hhead, ?_⟩, .inl ⟨page, List.mem_of_mem_head? hhead, hin, fun _ => ?_⟩, fun y hy => ?_, halign⟩
  · show p.cur ≤ ret + sz + b.rzb
    omega
  · refine ⟨hcur.aligned, hcur.pos, ?_, ?_, hcur.bound⟩
    · show page + b.page + b.rzb ≤ ret + sz + b.rzb
      omega
    · show ret + sz + b.rzb ≤ page + p.size + b.rzb
      omega
  · show ret + sz ≤ ret + sz + b.rzb
    omega
  · refine apart_of_cursor hwf hhead hin ?_ hy
    show p.cur ≤ ret
    omega

/-- the pool with a new page -/
theorem add_page_wf (hsep : Sep b p.size p.place) (hsize : b.page ≤ p.size) (hbound : p.size + 2 * b.rzb < 2 ^ 64)
    (h : add_page b m p = some p') :
    p'.size = p.size ∧ p'.levels = p.levels ∧ p'.allocd = p.allocd ∧ Wf b p.size p'.place ∧
      ∃ page, p'.pages = page :: p.pages ∧ p'.cur = page + b.page + b.rzb := by
  obtain ⟨page, rfl, hrzb, hcur, hfresh⟩ := add_page_cursor hsize hbound h
  refine ⟨rfl, rfl, rfl, ⟨⟨?_, hsep.allocd, ?_, ?_, hsep.data⟩, page, rfl, hcur⟩, page, rfl, rfl⟩
  · exact List.pairwise_cons.2 ⟨fun w hw => hfresh w (List.mem_append_left _ hw), hsep.pages⟩
  · intro x hx y hy
    rcases List.mem_cons.1 hx with rfl | hx
    · exact hfresh y (List.mem_append_right _ hy)
    · exact hsep.cross x hx y hy
  · intro q hq
    rcases List.mem_cons.1 hq with rfl | hq
    · exact hrzb
    · exact hsep.page q hq

/-- a block of its own: it is apart from all the others -/
theorem plain_sep (hsep : Sep b p.size p.place) (hsz : sz + 32 ≤ 2 ^ 63) (h : plain_old_malloc b m p sz = some (ret, p')) :
    ∃ c : Allocd, p' = { p with allocd := c :: p.allocd } ∧ c.data = ret ∧ c.size = sz ∧ ret % 8 = 0 ∧
      Sep b p.size p'.place ∧ ∃ z, Within ⟨ret, sz⟩ z ∧ ∀ w ∈ blocks b p, Apart z w := by
  obtain ⟨ha8, ha, hale⟩ := b.allocd_mod
  unfold plain_old_malloc at h
  split at h
  · rename_i hseparate
    obtain ⟨cur, hcur, h⟩ := Option.bind_eq_some_iff.1 h
    obtain ⟨data, hdata, heq⟩ := Option.map_eq_some_iff.1 h
    cases heq
    have hf1 := m.fresh _ _ _ hcur
    have hf2 := m.fresh _ _ _ hdata
    have hblocks : Place.allocdBlocks b ⟨p.pages, p.cur, ⟨cur, ret, sz⟩ :: p.allocd⟩ =
        ⟨cur, b.allocd⟩ :: ⟨ret, sz⟩ :: p.place.allocdBlocks b := by
      simp [Place.allocdBlocks, allocdBlocks, hseparate, Pool.place]
    refine ⟨⟨cur, ret, sz⟩, rfl, rfl, rfl, ?_, ⟨hsep.pages, ?_, ?_, hsep.page, ?_⟩, _, Within.refl _,
      fun w hw => hf2.apart w (List.mem_cons_of_mem _ hw)⟩
    · have h16 := hf2.aligned
      omega
    · show (Place.allocdBlocks b ⟨p.pages, p.cur, ⟨cur, ret, sz⟩ :: p.allocd⟩).Pairwise Apart
      rw [hblocks]
      refine List.pairwise_cons.2 ⟨fun w hw => ?_, List.pairwise_cons.2 ⟨fun w hw => ?_, hsep.allocd⟩⟩
      · rcases List.mem_cons.1 hw with rfl | hw
        · exact (hf2.apart _ List.mem_cons_self).symm
        · exact hf1.apart w (List.mem_append_right _ hw)
      · exact hf2.apart w (List.mem_cons_of_mem _ (List.mem_append_right _ hw))
    · intro x hx y hy
      change y ∈ Place.allocdBlocks b ⟨p.pages, p.cur, ⟨cur, ret, sz⟩ :: p.allocd⟩ at hy
      rw [hblocks] at hy
      rcases List.mem_cons.1 hy with rfl | hy
      · exact (hf1.apart x (List.mem_append_left _ hx)).symm
      · rcases List.mem_cons.1 hy with rfl | hy
        · exact (hf2.apart x (List.mem_cons_of_mem _ (List.mem_append_left _ hx))).symm
        · exact hsep.cross x hx y hy
    · intro a ha hs
      rw [hseparate] at hs
      cases hs
  · rename_i hseparate
    obtain ⟨cur, hcur, heq⟩ := Option.map_eq_some_iff.1 h
    cases heq
    rw [Nat.mod_eq_of_lt (by omega)] at hcur
    have hf := m.fresh _ _ _ hcur
    have hblocks : Place.allocdBlocks b ⟨p.pages, p.cur, ⟨cur, cur + b.allocd, sz⟩ :: p.allocd⟩ =
        ⟨cur, b.allocd + sz⟩ :: p.place.allocdBlocks b := by
      simp [Place.allocdBlocks, allocdBlocks, hseparate, Pool.place]
    refine ⟨⟨cur, cur + b.allocd, sz⟩, rfl, rfl, rfl, ?_, ⟨hsep.pages, ?_, ?_, hsep.page, ?_⟩, _, ?_, hf.apart⟩
    · have h16 := hf.aligned
      omega
    · show (Place.allocdBlocks b ⟨p.pages, p.cur, ⟨cur, cur + b.allocd, sz⟩ :: p.allocd⟩).Pairwise Apart
      rw [hblocks]
      exact List.pairwise_cons.2 ⟨fun w hw => hf.apart w (List.mem_append_right _ hw), hsep.allocd⟩
    · intro x hx y hy
      change y ∈ Place.allocdBlocks b ⟨p.pages, p.cur, ⟨cur, cur + b.allocd, sz⟩ :: p.allocd⟩ at hy
      rw [hblocks] at hy
      rcases List.mem_cons.1 hy with rfl | hy
      · exact (hf.apart x (List.mem_append_left _ hx)).symm
      · exact hsep.cross x hx y hy
    · intro a ha hs
      rcases List.mem_cons.1 ha with rfl | ha
      · rfl
      · exact hsep.data a ha hs
    · unfold Within Block.stop
      dsimp only
      constructor <;> omega

theorem plain_allocated (hwf : Wf b p.size p.place) (hsz : sz + 32 ≤ 2 ^ 63)
    (h : plain_old_malloc b m p sz = some (ret, p')) : Allocated b p p' ⟨ret, sz⟩ align := by
  obtain ⟨c, rfl, rfl, rfl, haligned, hsep, z, hin, hapart⟩ := plain_sep hwf.toSep hsz h
  refine ⟨rfl, rfl, ⟨List.suffix_rfl, List.suffix_cons _ _, fun _ => le_rfl⟩, ⟨hsep, hwf.cursor⟩,
    .inr ⟨c, List.mem_cons_self, rfl⟩, fun y hy => ?_, fun _ => haligned⟩
  exact apart_of_fresh hwf.toSep hapart hin hy

theorem new_page_spec (hwf : Wf b p.size p.place) (hsz : sz < 2 ^ 62) (hsize : b.page ≤ p.size)
    (hbound : p.size + 2 * b.rzb < 2 ^ 64) (hok : AllocOk b m p sz) (align : Bool) :
    palloc_in_new_page b m p sz align = some (none, p) ∨
      ∃ ret p', palloc_in_new_page b m p sz align = some (some ret, p') ∧ Allocated b p p' ⟨ret, sz⟩ align := by
  obtain ⟨page, -, hcur⟩ := hwf.cursor
  have hpos := hcur.pos
  have hlt := hcur.bound
  obtain ⟨-, hrzb⟩ := b.rzb_mod
  unfold palloc_in_new_page
  split
  · exact .inl rfl
  · rename_i hroom
    cases hadd : add_page b m p with
    | none => exact .inl rfl
    | some q =>
      obtain ⟨hqsize, hqlevels, hqallocd, hqwf, page', hqpages, hqcur⟩ := add_page_wf hwf.toSep hsize hbound hadd
      have hfit : b.page + sz + 3 * b.rzb ≤ p.size := by
        rw [fullNew, page_max_free_space_eq (by omega) hsize, ssize_eq (n := sz) (by omega),
          ssize_eq (n := b.rzb + sz) (by omega), ssize_eq (by omega)] at hroom
        rcases hok with hok | hnone
        · unfold tight at hok
          omega
        · rw [add_page, hnone] at hadd
          cases hadd
      rw [← hqsize] at hqwf
      obtain ⟨page'', hhead, hqcursor⟩ := hqwf.cursor
      have hpage : page'' = page' := by
        change q.pages.head? = some page'' at hhead
        rw [hqpages] at hhead
        exact (Option.some.inj hhead).symm
      subst hpage
      rw [← hqsize] at hfit
      obtain ⟨p', hr⟩ : ∃ p', palloc_in_current_page b q sz align = (some (q.cur + b.rzb), p') :=
        in_fresh_page hhead hqcursor hqcur hfit
      have hall := current_allocated hqwf (by omega) hr
      have hext : Extends p.place q.place := by
        refine ⟨?_, ?_, fun heq => ?_⟩
        · show p.pages <:+ q.pages
          rw [hqpages]
          exact List.suffix_cons _ _
        · show p.allocd <:+ q.allocd
          rw [hqallocd]
        · change q.pages = p.pages at heq
          rw [hqpages] at heq
          exact absurd heq (List.cons_ne_self _ _)
      refine .inr ⟨q.cur + b.rzb, p', by simp only [hr], ?_⟩
      refine ⟨hall.size.trans hqsize, hall.levels.trans hqlevels, hext.trans hall.extends', hqsize ▸ hall.wf,
        hqsize ▸ hall.located, fun y hy => hall.apart y ?_, hall.aligned⟩
      rw [hqsize] at hqwf ⊢
      exact hy.mono hqwf.toSep hsize hext

/-- **An allocation** that meets the condition returns NULL, or a new block. -/
theorem palloc_spec (hwf : Wf b p.size p.place) (hsz : sz < 2 ^ 62) (hsize : b.page ≤ p.size)
    (hbound : p.size + 2 * b.rzb < 2 ^ 64) (hok : AllocOk b m p sz) (align : Bool) :
    palloc_with_alignment b m p sz align = some (none, p) ∨
      ∃ ret p', palloc_with_alignment b m p sz align = some (some ret, p') ∧ Allocated b p p' ⟨ret, sz⟩ align := by
  unfold palloc_with_alignment
  rcases hcurrent : palloc_in_current_page b p sz align with ⟨_ | ret, p'⟩
  · obtain ⟨page, -, hcur⟩ := hwf.cursor
    obtain rfl : p = p' := (no_room hcur hcurrent).symm
    rcases new_page_spec hwf hsz hsize hbound hok align with hnew | ⟨ret, p', hnew, hall⟩
    · simp only [hnew]
      cases hm : plain_old_malloc b m p sz with
      | none => exact .inl rfl
      | some r =>
        obtain ⟨ret, p''⟩ := r
        exact .inr ⟨ret, p'', rfl, plain_allocated hwf (by omega) hm⟩
    · simp only [hnew]
      exact .inr ⟨ret, p', rfl, hall⟩
  · exact .inr ⟨ret, p', rfl, current_allocated hwf (by omega) hcurrent⟩

end Alloc

/-! ## Levels -/

/-- l describes the place R -/
structure Describes (b : Build) (size : ℕ) (l : Level) (R : Place) : Prop where
  page : R.pages.head? = l.page
  cur : R.cur = l.page_cur
  allocd : R.allocd.head?.map Allocd.addr = l.allocd
  cursor : ∃ page, R.pages.head? = some page ∧ Cursor b size page R.cur

/-- each level record of a list of live blocks describes a place, part of the one of the newer levels, in which it and all
that is older lie -/
def Stacked (b : Build) (size : ℕ) (levels : List Level) : List Item → Place → Prop
  | [], _ => True
  | .alloc _ _ :: rest, R => Stacked b size levels rest R
  | .level n x :: rest, R => ∃ l R', 0 < n ∧ levels[n - 1]? = some l ∧ R'.pages <:+ R.pages ∧ R'.allocd <:+ R.allocd ∧
      Describes b size l R' ∧ (∀ y ∈ .level n x :: rest, Located b size R' y.block) ∧ Stacked b size levels rest R'

section Levels

variable {b : Build} {size : ℕ} {levels : List Level} {live : List Item} {R R' : Place}

theorem Stacked.mono (h : Stacked b size levels live R) (hp : R.pages <:+ R'.pages) (ha : R.allocd <:+ R'.allocd)
    (l : List Level) : Stacked b size (levels ++ l) live R' := by
  induction live generalizing R R' with
  | nil => trivial
  | cons x rest ih =>
    cases x with
    | alloc x a => exact ih h hp ha
    | level n x =>
      obtain ⟨k, Q, hn, hk, hqp, hqa, hd, hloc, hrest⟩ := h
      refine ⟨k, Q, hn, ?_, hqp.trans hp, hqa.trans ha, hd, hloc, ih hrest List.suffix_rfl List.suffix_rfl⟩
      rw [List.getElem?_append_left (List.getElem?_eq_some_iff.1 hk).1]
      exact hk

/-- **The record of a live level** is found by looking for it from the newest block on. -/
theorem Stacked.find {n : ℕ} (h : Stacked b size levels live R) (hn : live.any (Item.isLevel n) = true) :
    ∃ x rest, live.dropWhile (fun x => !x.isLevel n) = .level n x :: rest ∧ .level n x :: rest <:+ live ∧
      Stacked b size levels (.level n x :: rest) R := by
  induction live generalizing R with
  | nil => cases hn
  | cons x rest ih =>
    rw [List.any_cons, Bool.or_eq_true] at hn
    by_cases hx : x.isLevel n = true
    · cases x with
      | alloc x a => cases hx
      | level k x =>
        have hk : k = n := by simpa [Item.isLevel] using hx
        subst hk
        exact ⟨x, rest, List.dropWhile_cons_of_neg (by simp [hx]), List.suffix_rfl, h⟩
    · have hrest := hn.resolve_left hx
      have hdrop : (x :: rest).dropWhile (fun x => !x.isLevel n) = rest.dropWhile fun x => !x.isLevel n :=
        List.dropWhile_cons_of_pos (by simp [hx])
      -- the rest is stacked in a part of the place
      have hstack : ∃ Q : Place, Q.pages <:+ R.pages ∧ Q.allocd <:+ R.allocd ∧ Stacked b size levels rest Q := by
        cases x with
        | alloc x a => exact ⟨R, List.suffix_rfl, List.suffix_rfl, h⟩
        | level k x =>
          obtain ⟨l, Q, -, -, hqp, hqa, -, -, hq⟩ := h
          exact ⟨Q, hqp, hqa, hq⟩
      obtain ⟨Q, hqp, hqa, hq⟩ := hstack
      obtain ⟨y, rest', hd, hsuf, hst⟩ := ih hq hrest
      refine ⟨y, rest', hdrop.trans hd, hsuf.trans (List.suffix_cons _ _), ?_⟩
      simpa using hst.mono hqp hqa []

theorem drainPages_eq {k pages : List ℕ} {page : ℕ} (hk : k <:+ pages) (hhead : k.head? = some page)
    (hnd : pages.Nodup) : drainPages pages (some page) = some k := by
  have hdrop : pages.dropWhile (· ≠ page) = k := by
    refine dropWhile_suffix hk hhead (fun c _ => ?_) hnd
    simp
  unfold drainPages
  simp only [hdrop]
  cases k with
  | nil => cases hhead
  | cons c k => rfl

/-- what stays allocated: all of it when no block was allocated at the mark -/
theorem drainAllocd_eq {k allocd : List Allocd} {o : Option ℕ} (hk : k <:+ allocd) (hhead : k.head?.map Allocd.addr = o)
    (hnd : (allocd.map Allocd.addr).Nodup) :
    ∃ k', drainAllocd allocd o = some k' ∧ k <:+ k' ∧ k' <:+ allocd ∧ (o ≠ none → k' = k) := by
  cases o with
  | none => exact ⟨allocd, rfl, hk, List.suffix_rfl, fun h => absurd rfl h⟩
  | some a =>
    obtain ⟨c, hc, hca⟩ := Option.map_eq_some_iff.1 hhead
    have hdrop : allocd.dropWhile (fun x => x.addr ≠ a) = k := by
      refine dropWhile_suffix hk hc (fun d hd => ?_) hnd.of_map
      have hmem : c ∈ allocd := hk.subset (List.mem_of_mem_head? hc)
      rw [decide_eq_false_iff_not, not_not]
      exact ⟨fun he => List.inj_on_of_nodup_map hnd hd hmem (he.trans hca.symm), fun he => he ▸ hca⟩
    refine ⟨k, ?_, List.suffix_rfl, hk, fun _ => rfl⟩
    unfold drainAllocd
    simp only [hdrop]
    cases k with
    | nil => cases hc
    | cons c k => rfl

/-- the block of its header -/
theorem header_mem (b : Build) (a : Allocd) : ∃ n, 0 < n ∧ ⟨a.addr, n⟩ ∈ allocdBlocks b a := by
  obtain ⟨-, hpos, -⟩ := b.allocd_mod
  unfold allocdBlocks
  split
  · exact ⟨b.allocd, by omega, List.mem_cons_self⟩
  · exact ⟨b.allocd + a.size, by omega, List.mem_cons_self⟩

theorem Sep.allocd_nodup (h : Sep b size R) : (R.allocd.map Allocd.addr).Nodup := by
  have hallocd := (List.pairwise_flatMap.1 h.allocd).2
  refine List.pairwise_map.2 (hallocd.imp fun {a c} hac he => ?_)
  obtain ⟨n, hn, hna⟩ := header_mem b a
  obtain ⟨k, hk, hkc⟩ := header_mem b c
  rcases hac _ hna _ hkc with hle | hle
  · simp only [Block.stop] at hle
    omega
  · simp only [Block.stop] at hle
    omega

theorem Sep.suffix (h : Sep b size R) (hp : R'.pages <:+ R.pages) (ha : R'.allocd <:+ R.allocd) : Sep b size R' := by
  have hp' : (R'.pageBlocks b size).Sublist (R.pageBlocks b size) := hp.sublist.map _
  have ha' : (R'.allocdBlocks b).Sublist (R.allocdBlocks b) := by
    obtain ⟨t, ht⟩ := ha
    simp only [Place.allocdBlocks, ← ht, List.flatMap_append]
    exact List.sublist_append_right _ _
  refine ⟨h.pages.sublist hp', h.allocd.sublist ha', ?_, ?_, ?_⟩
  · intro x hx y hy
    exact h.cross x (hp'.subset hx) y (ha'.subset hy)
  · intro page hpage
    exact h.page page (hp.subset hpage)
  · intro a hmem
    exact h.data a (ha.subset hmem)

end Levels

/-! ## Runs -/

structure Inv (b : Build) (s : St) : Prop where
  running : s.aborted = false
  size : b.page ≤ s.pool.size
  bound : s.pool.size + 2 * b.rzb < 2 ^ 64
  wf : Wf b s.pool.size s.pool.place
  located : ∀ x ∈ s.live, Located b s.pool.size s.pool.place x.block
  apart : (s.live.map Item.block).Pairwise Apart
  aligned : ∀ x ∈ s.live, x.aligned = true → x.block.addr % 8 = 0
  stacked : Stacked b s.pool.size s.pool.levels s.live s.pool.place

section Run

variable {b : Build} {s t : St} {m : Malloc}

theorem start_inv {size : ℕ} {p : Pool} (hsize : b.page ≤ size) (hbound : size + 2 * b.rzb < 2 ^ 64)
    (h : shuso_pool_init b m size = some p) : Inv b (start p) := by
  have hsep : Sep b size (Pool.place ⟨size, [], 0, [], []⟩) := by
    refine ⟨List.Pairwise.nil, List.Pairwise.nil, fun x hx => ?_, fun page hp => ?_, fun a ha => ?_⟩
    · cases hx
    · cases hp
    · cases ha
  obtain ⟨hps, -, -, hwf, -⟩ := add_page_wf hsep hsize hbound h
  change p.size = size at hps
  refine ⟨rfl, ?_, ?_, ?_, fun x hx => (by cases hx), List.Pairwise.nil, fun x hx => (by cases hx), trivial⟩
  · show b.page ≤ p.size
    rwa [hps]
  · show p.size + 2 * b.rzb < 2 ^ 64
    rwa [hps]
  · show Wf b p.size p.place
    rwa [hps]

/-- a new block is handed out -/
theorem Inv.push {p : Pool} {x : Item} (h : Inv b s) (hall : Allocated b s.pool p x.block x.aligned) (l : List Level)
    (hx : Stacked b s.pool.size (s.pool.levels ++ l) (x :: s.live) p.place) :
    Inv b { s with pool := { p with levels := s.pool.levels ++ l }, live := x :: s.live } := by
  have hsep : Sep b s.pool.size p.place := hall.wf.toSep
  refine ⟨h.running, ?_, ?_, ?_, ?_, ?_, ?_, ?_⟩
  · show b.page ≤ p.size
    rw [hall.size]
    exact h.size
  · show p.size + 2 * b.rzb < 2 ^ 64
    rw [hall.size]
    exact h.bound
  · show Wf b p.size p.place
    rw [hall.size]
    exact hall.wf
  · intro y hy
    show Located b p.size p.place y.block
    rw [hall.size]
    rcases List.mem_cons.1 hy with rfl | hy
    · exact hall.located
    · exact (h.located y hy).mono hsep h.size hall.extends'
  · refine List.pairwise_cons.2 ⟨fun z hz => ?_, h.apart⟩
    obtain ⟨y, hy, rfl⟩ := List.mem_map.1 hz
    exact hall.apart _ (h.located y hy)
  · intro y hy
    rcases List.mem_cons.1 hy with rfl | hy
    · exact hall.aligned
    · exact h.aligned y hy
  · show Stacked b p.size (s.pool.levels ++ l) (x :: s.live) p.place
    rw [hall.size]
    exact hx

/-- a new allocation -/
theorem Inv.alloc {p : Pool} {x : Block} {align : Bool} (h : Inv b s) (hall : Allocated b s.pool p x align) :
    Inv b { s with pool := p, live := .alloc x align :: s.live } := by
  have hst := h.stacked.mono hall.extends'.pages hall.extends'.allocd []
  have hinv := h.push (x := .alloc x align) hall [] hst
  rw [List.append_nil, ← hall.levels] at hinv
  exact hinv

/-- a new level: its record describes the place as it is with the record in it -/
theorem Inv.mark {p : Pool} {addr : ℕ} (h : Inv b s) (hall : Allocated b s.pool p ⟨addr, b.level⟩ true) :
    Inv b { s with
      pool := { p with levels := p.levels ++ [⟨addr, p.pages.head?, p.cur, p.allocd.head?.map Allocd.addr⟩] }
      live := .level (p.levels.length + 1) ⟨addr, b.level⟩ :: s.live } := by
  rw [hall.levels]
  refine h.push (x := .level (s.pool.levels.length + 1) ⟨addr, b.level⟩) hall _ ?_
  have hlevel : (s.pool.levels ++ [⟨addr, p.pages.head?, p.cur, p.allocd.head?.map Allocd.addr⟩])[
      s.pool.levels.length + 1 - 1]? = some ⟨addr, p.pages.head?, p.cur, p.allocd.head?.map Allocd.addr⟩ := by
    rw [Nat.add_sub_cancel, List.getElem?_append_right le_rfl, Nat.sub_self]
    rfl
  refine ⟨_, p.place, Nat.succ_pos _, hlevel, List.suffix_rfl, List.suffix_rfl, ⟨rfl, rfl, rfl, hall.wf.cursor⟩, ?_,
    h.stacked.mono hall.extends'.pages hall.extends'.allocd _⟩
  intro y hy
  rcases List.mem_cons.1 hy with rfl | hy
  · exact hall.located
  · exact (h.located y hy).mono hall.wf.toSep h.size hall.extends'

/-- **Draining** to a live level brings back the place that its record describes. -/
theorem Inv.drain {n : ℕ} (h : Inv b s) (hn : s.live.any (Item.isLevel n) = true) :
    ∃ p, shuso_pool_drain_to_level s.pool n = some (true, p) ∧
      Inv b { s with pool := p, live := s.live.dropWhile fun x => !x.isLevel n } := by
  obtain ⟨x, rest, hdrop, hsuf, l, R, hpos, hl, hpages, hallocd, hd, hloc, hrest⟩ := h.stacked.find hn
  obtain ⟨page, hhead, hcur⟩ := hd.cursor
  have hdp : drainPages s.pool.pages l.page = some R.pages := by
    rw [← hd.page, hhead]
    exact drainPages_eq hpages hhead (h.wf.toSep.nodup h.size)
  obtain ⟨k, hda, hRk, hk, -⟩ := drainAllocd_eq hallocd hd.allocd h.wf.toSep.allocd_nodup
  change drainAllocd s.pool.allocd l.allocd = some k at hda
  have hlt := (List.getElem?_eq_some_iff.1 hl).1
  have hdrain : shuso_pool_drain_to_level s.pool n =
      some (true, { s.pool with pages := R.pages, allocd := k, cur := l.page_cur }) := by
    unfold shuso_pool_drain_to_level
    rw [if_neg (by omega), if_neg (by omega)]
    simp only [hl, hda, hdp]
  have hsep : Sep b s.pool.size ⟨R.pages, l.page_cur, k⟩ := h.wf.toSep.suffix hpages hk
  have hext : Extends R ⟨R.pages, l.page_cur, k⟩ := ⟨List.suffix_rfl, hRk, fun _ => hd.cur.le⟩
  refine ⟨_, hdrain, h.running, h.size, h.bound, ⟨hsep, page, hhead, ?_⟩, ?_, ?_, ?_, ?_⟩
  · show Cursor b s.pool.size page l.page_cur
    rw [← hd.cur]
    exact hcur
  · rw [hdrop]
    intro y hy
    exact (hloc y hy).mono hsep h.size hext
  · rw [hdrop]
    exact h.apart.sublist (hsuf.sublist.map _)
  · rw [hdrop]
    exact fun y hy => h.aligned y (hsuf.subset hy)
  · rw [hdrop]
    exact ⟨l, R, hpos, hl, List.suffix_rfl, hRk, hd, hloc, hrest⟩

theorem Build.level_lt (b : Build) : b.level < 2 ^ 62 := by
  unfold Build.level
  split <;> norm_num

/-- **One step.** -/
theorem step_inv {a : Action} (h : Inv b s) (hok : Ok b s a) (hst : step b s a = some t) : Inv b t := by
  have hrunning : ¬ s.aborted = true := by rw [h.running]; exact Bool.false_ne_true
  unfold step at hst
  rw [if_neg hrunning] at hst
  cases a with
  | alloc m sz align =>
    simp only at hst
    split at hst
    · rename_i hsz
      rcases palloc_spec h.wf hsz h.size h.bound hok align with hnull | ⟨ret, p, hret, hall⟩
      · simp only [hnull, Option.some.injEq] at hst
        exact hst ▸ h
      · simp only [hret, Option.some.injEq] at hst
        exact hst ▸ h.alloc hall
    · cases hst
  | mark m =>
    simp only at hst
    split at hst
    · rename_i hcount
      rcases palloc_spec h.wf b.level_lt h.size h.bound hok true with hnull | ⟨ret, p, hret, hall⟩
      · have hmark : shuso_pool_mark_level b m s.pool = some (0, s.pool) := by
          unfold shuso_pool_mark_level shuso_palloc
          rw [hnull]
        rw [hmark] at hst
        simp only [if_true, Option.toList_none, List.nil_append, Option.some.injEq] at hst
        exact hst ▸ h
      · rw [← hall.levels] at hcount
        have hmark : shuso_pool_mark_level b m s.pool = some (p.levels.length + 1, { p with
            levels := p.levels ++ [⟨ret, p.pages.head?, p.cur, p.allocd.head?.map Allocd.addr⟩] }) := by
          unfold shuso_pool_mark_level shuso_palloc
          rw [hret]
          exact if_pos hcount
        rw [hmark] at hst
        simp only [Option.some.injEq, Nat.succ_ne_zero, if_false, List.getLast?_concat, Option.map_some,
          Option.toList_some, List.singleton_append] at hst
        exact hst ▸ h.mark hall
    · cases hst
  | drain n =>
    simp only at hst
    split at hst
    · rename_i hn
      obtain ⟨p, hp, hinv⟩ := h.drain hn
      simp only [hp, Option.some.injEq] at hst
      exact hst ▸ hinv
    · cases hst

theorem Inv.safe (h : Inv b s) : Safe b s := by
  refine ⟨h.running, fun x hx => ?_, h.apart, h.aligned⟩
  rcases h.located x hx with ⟨page, hp, hin, -⟩ | hdata
  · exact .inl ⟨page, hp, hin⟩
  · exact .inr hdata

end Run

theorem reach_inv {b : Build} {m : Malloc} {size : ℕ} {p : Pool} {s : St} (hsize : b.page ≤ size)
    (hbound : size + 2 * b.rzb < 2 ^ 64) (hinit : shuso_pool_init b m size = some p)
    (h : Reach (step b) (Ok b) (start p) s) : Inv b s :=
  h.inv (start_inv hsize hbound hinit) fun _ _ _ hs hok hst => step_inv hs hok hst

/-- **Safety.** From a new pool, every run of allocations, marks and drains that meets the condition. -/
theorem safe_of_ok (b : Build) (m : Malloc) (size : ℕ) (p : Pool) (s : St) (hsize : b.page ≤ size)
    (hbound : size + 2 * b.rzb < 2 ^ 64) (hinit : shuso_pool_init b m size = some p)
    (h : Reach (step b) (Ok b) (start p) s) : Safe b s :=
  (reach_inv hsize hbound hinit h).safe

theorem ok_of_plain {b : Build} (hb : b.valgrind = false) (s : St) (a : Action) : Ok b s a := by
  have htight : ∀ size sz, ¬ tight b size sz := by
    intro size sz
    have hrzb : b.rzb = 0 := by simp [Build.rzb, hb]
    unfold tight
    omega
  cases a with
  | alloc m sz align => exact .inl (htight _ _)
  | mark m => exact .inl (htight _ _)
  | drain n => trivial

/-- without Valgrind every run is safe -/
theorem safe_of_plain (b : Build) (m : Malloc) (size : ℕ) (p : Pool) (s : St) (hb : b.valgrind = false)
    (hsize : b.page ≤ size) (hbound : size < 2 ^ 64) (hinit : shuso_pool_init b m size = some p)
    (h : Reach (step b) always (start p) s) : Safe b s := by
  have hrzb : b.rzb = 0 := by simp [Build.rzb, hb]
  have hok : Reach (step b) (Ok b) (start p) s := h.mono fun s a _ => ok_of_plain hb s a
  exact (reach_inv hsize (by rw [hrzb]; exact hbound) hinit hok).safe

/-- the pool of a plain build with pages of 64 bytes -/
def plainPool : Pool := ⟨64, [16], 24, [], []⟩

/-- aligned and unaligned allocations, two levels, pages and blocks after them, and drains to both -/
def history : List Action :=
  [.alloc bump 3 false, .alloc bump 16 true, .mark bump, .alloc bump 100 true, .alloc bump 40 true, .mark bump,
    .alloc bump 9 false, .alloc bump 200 false, .drain 2, .alloc bump 1 false, .drain 1]

theorem safe_history :
    ∃ s, execIf (step ⟨false, false, false⟩) (Ok ⟨false, false, false⟩) (start plainPool) history = some s ∧
      s.live.length = 3 ∧ Safe ⟨false, false, false⟩ s := by
  have hrun : (execIf (step ⟨false, false, false⟩) (Ok ⟨false, false, false⟩) (start plainPool) history).any
      (fun s => s.live.length == 3) = true := by decide +kernel
  obtain ⟨s, hs, hlen⟩ := (Option.any_eq_true _ _).1 hrun
  have hinit : shuso_pool_init ⟨false, false, false⟩ bump 64 = some plainPool := by decide +kernel
  exact ⟨s, hs, by simpa using hlen, safe_of_ok ⟨false, false, false⟩ bump 64 plainPool s (by decide) (by decide) hinit
    (Reach.init.of_execIf hs)⟩

/-- the pool of a Valgrind build with pages of 4096 bytes -/
def valgrindPool : Pool := ⟨4096, [24], 40, [], []⟩

/-- **An assertion fails.** `page_max_free_space` says that a new page has room for 4072 bytes and their red zones. -/
theorem unsafe_valgrind :
    shuso_pool_init ⟨true, false, false⟩ bump 4096 = some valgrindPool ∧
      ¬ ∀ s, Reach (step ⟨true, false, false⟩) always (start valgrindPool) s → Safe ⟨true, false, false⟩ s := by
  refine ⟨by decide +kernel, fun h => ?_⟩
  have hrun : (exec (step ⟨true, false, false⟩) (start valgrindPool) [.alloc bump 4072 true]).any
      (fun s => s.aborted) = true := by decide +kernel
  obtain ⟨s, hs, hab⟩ := (Option.any_eq_true _ _).1 hrun
  have hrunning := (h s (Reach.of_exec hs)).running
  rw [hab] at hrunning
  cases hrunning

end Shuttlesock.Pools
