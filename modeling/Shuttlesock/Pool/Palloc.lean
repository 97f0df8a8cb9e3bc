/-
The pool allocator (`pool.c`).

Model: addresses are numbers; `page.last` with its `prev` links is the list of pages, newest first, and `allocd.last` the
list of the blocks that were too large for a page. A level record keeps its content in the array of levels.
- `Build`: the compile-time options that change the layout (`SHUTTLESOCK_DEBUG_VALGRIND`, `SHUTTLESOCK_DEBUG_SANITIZE`,
  `SHUTTLESOCK_POOL_TRACK_SPACE`). Under Valgrind each page and each allocation has a red zone on both sides.
- sizes are numbers below 2^64; sums of `ssize_t` wrap.
- every call of `malloc` is answered by an allocator m of fresh blocks, or not at all.
- a returned pointer is none when it is NULL. Around it, none means that an assertion fails.
- not in the model: the counters of `SHUTTLESOCK_POOL_TRACK_SPACE`, which no address depends on.

Results:
- `align_native_eq`, `align_native_le`, `le_align_native`: alignment without overflow.
- `in_current_page`: where an allocation in the current page lies, and `in_fresh_page`: when a new page has room.
-/
import Mathlib.Tactic
import Shuttlesock.Core.Blocks

namespace Shuttlesock.Pools

open Shuttlesock.Blocks

structure Build where
  valgrind : Bool
  sanitize : Bool
  track : Bool
deriving DecidableEq, Repr

/-- `POOL_VALGRIND_RZB` -/
def Build.rzb (b : Build) : ℕ := if b.valgrind then 8 else 0

/-- `sizeof(shuso_pool_page_t)` -/
def Build.page (b : Build) : ℕ := if b.track then 40 else 8

/-- `sizeof(shuso_pool_level_t)` -/
def Build.level (b : Build) : ℕ := if b.track then 56 else 24

/-- the data of an allocated block is a second allocation -/
def Build.separate (b : Build) : Bool := b.sanitize || b.valgrind

/-- `sizeof(shuso_pool_allocd_t)` -/
def Build.allocd (b : Build) : ℕ := (if b.track then 16 else 8) + if b.separate then 8 else 0

/-- `SHUTTLESOCK_POOL_MAX_LEVELS` -/
def MAX_LEVELS : ℕ := 8

/-- a `size_t`, or a difference, as a `ssize_t` -/
def ssize (n : ℤ) : ℤ := if n < -2 ^ 63 then n + 2 ^ 64 else if 2 ^ 63 ≤ n then n - 2 ^ 64 else n

def align_native (p : ℕ) : ℕ := (p + 7) % 2 ^ 64 / 8 * 8

structure Allocd where
  addr : ℕ
  data : ℕ
  size : ℕ
deriving DecidableEq, Repr

structure Level where
  addr : ℕ
  page : Option ℕ
  page_cur : ℕ
  allocd : Option ℕ
deriving DecidableEq, Repr

structure Pool where
  size : ℕ
  pages : List ℕ
  cur : ℕ
  allocd : List Allocd
  levels : List Level
deriving DecidableEq, Repr

/-! ## The blocks of the pool -/

def pageBlock (b : Build) (size page : ℕ) : Block := ⟨page - b.rzb, size + 2 * b.rzb⟩

def allocdBlocks (b : Build) (a : Allocd) : List Block :=
  if b.separate then [⟨a.addr, b.allocd⟩, ⟨a.data, a.size⟩] else [⟨a.addr, b.allocd + a.size⟩]

def blocks (b : Build) (p : Pool) : List Block :=
  p.pages.map (pageBlock b p.size) ++ p.allocd.flatMap (allocdBlocks b)

/-! ## Allocation -/

def add_page (b : Build) (m : Malloc) (p : Pool) : Option Pool :=
  (m.fn (blocks b p) ((p.size + 2 * b.rzb) % 2 ^ 64)).map fun pagedata =>
    { p with
      pages := (pagedata + b.rzb) :: p.pages
      cur := align_native (pagedata + b.rzb + b.page + b.rzb) }

/-- `shuso_pool_init` with a page size that is not 0 -/
def shuso_pool_init (b : Build) (m : Malloc) (pagesize : ℕ) : Option Pool := add_page b m ⟨pagesize, [], 0, [], []⟩

def plain_old_malloc (b : Build) (m : Malloc) (p : Pool) (sz : ℕ) : Option (ℕ × Pool) :=
  if b.separate then
    (m.fn (blocks b p) b.allocd).bind fun cur =>
      (m.fn (⟨cur, b.allocd⟩ :: blocks b p) sz).map fun data => (data, { p with allocd := ⟨cur, data, sz⟩ :: p.allocd })
  else
    (m.fn (blocks b p) ((b.allocd + sz) % 2 ^ 64)).map fun cur =>
      (cur + b.allocd, { p with allocd := ⟨cur, cur + b.allocd, sz⟩ :: p.allocd })

def page_max_free_space (b : Build) (pagesize : ℕ) : ℤ := ssize (ssize pagesize - align_native b.page)

/-- NULL is none -/
def nonnull (p : ℕ) : Option ℕ := if p = 0 then none else some p

/-- where the next allocation in the current page begins -/
def current_ret (b : Build) (p : Pool) (align : Bool) : ℕ :=
  if align then align_native (p.cur + b.rzb) else p.cur + b.rzb

/-- the comparison of `palloc_in_current_page` -/
def fullCurrent (b : Build) (p : Pool) (sz : ℕ) (align : Bool) : Prop :=
  ssize p.size - ssize ((p.cur : ℤ) - p.pages.headD 0) <
    ssize (ssize (ssize ((current_ret b p align : ℤ) - p.cur) + ssize sz) + b.rzb)

instance (b : Build) (p : Pool) (sz : ℕ) (align : Bool) : Decidable (fullCurrent b p sz align) :=
  inferInstanceAs (Decidable (_ < _))

def palloc_in_current_page (b : Build) (p : Pool) (sz : ℕ) (align : Bool) : Option ℕ × Pool :=
  if fullCurrent b p sz align then (none, p)  -- not enough space in this page
  else (nonnull (current_ret b p align), { p with cur := (current_ret b p align + sz + b.rzb) % 2 ^ 64 })

/-- the comparison of `palloc_in_new_page` -/
def fullNew (b : Build) (size sz : ℕ) : Prop := page_max_free_space b size < ssize (ssize (b.rzb + ssize sz) + b.rzb)

instance (b : Build) (size sz : ℕ) : Decidable (fullNew b size sz) := inferInstanceAs (Decidable (_ < _))

def palloc_in_new_page (b : Build) (m : Malloc) (p : Pool) (sz : ℕ) (align : Bool) : Option (Option ℕ × Pool) :=
  if fullNew b p.size sz then some (none, p)
  else
    match add_page b m p with
    | none => some (none, p)
    | some p' =>
      match palloc_in_current_page b p' sz align with
      | (none, _) => none  -- assert(ret)
      | (some ret, p'') => some (some ret, p'')

def palloc_with_alignment (b : Build) (m : Malloc) (p : Pool) (sz : ℕ) (align : Bool) : Option (Option ℕ × Pool) :=
  match palloc_in_current_page b p sz align with
  | (some ret, p') => some (some ret, p')
  | (none, p₁) =>
    match palloc_in_new_page b m p₁ sz align with
    | none => none
    | some (some ret, p') => some (some ret, p')
    | some (none, p') =>
      match plain_old_malloc b m p' sz with
      | some (ret, p'') => some (some ret, p'')
      | none => some (none, p')

def shuso_palloc (b : Build) (m : Malloc) (p : Pool) (sz : ℕ) := palloc_with_alignment b m p sz true
def shuso_palloc_unaligned (b : Build) (m : Malloc) (p : Pool) (sz : ℕ) := palloc_with_alignment b m p sz false

/-! ## Levels -/

/-- the number of the new level, 0 when there is no memory for its record -/
def shuso_pool_mark_level (b : Build) (m : Malloc) (p : Pool) : Option (ℕ × Pool) :=
  match shuso_palloc b m p b.level with
  | none => none
  | some (none, p') => some (0, p')
  | some (some addr, p') =>
    let level : Level := ⟨addr, p'.pages.head?, p'.cur, p'.allocd.head?.map Allocd.addr⟩
    if p'.levels.length < MAX_LEVELS then some (p'.levels.length + 1, { p' with levels := p'.levels ++ [level] })
    else none  -- assert(pool->levels.count < SHUTTLESOCK_POOL_MAX_LEVELS)

/-- the loop of `plain_old_free_last`; nothing is freed when the level was marked with no allocated block -/
def drainAllocd (allocd : List Allocd) : Option ℕ → Option (List Allocd)
  | none => some allocd
  | some a => match allocd.dropWhile fun x => x.addr ≠ a with
    | [] => none  -- assert(pool->allocd.last != NULL)
    | rest => some rest

/-- the loop of `remove_last_page` -/
def drainPages (pages : List ℕ) : Option ℕ → Option (List ℕ)
  | none => some pages
  | some page => match pages.dropWhile (· ≠ page) with
    | [] => none  -- assert(pool->page.last != NULL)
    | rest => some rest

def shuso_pool_drain_to_level (p : Pool) (levelnum : ℕ) : Option (Bool × Pool) :=
  if p.levels.length < levelnum then some (false, p)
  else if levelnum = 0 then some (true, ⟨0, [], 0, [], []⟩)
  else
    match p.levels[levelnum - 1]? with
    | none => some (false, p)
    | some level =>
      match drainAllocd p.allocd level.allocd with
      | none => none
      | some allocd =>
        match drainPages p.pages level.page with
        | none => none
        | some pages => some (true, { p with pages := pages, allocd := allocd, cur := level.page_cur })

/-! ## Arithmetic -/

theorem ssize_eq {n : ℤ} (h : -2 ^ 63 ≤ n ∧ n < 2 ^ 63) : ssize n = n := by
  unfold ssize
  rw [if_neg (by omega), if_neg (by omega)]

theorem le_align_native {p : ℕ} (h : p < 2 ^ 63 + 100) : p ≤ align_native p := by
  unfold align_native
  omega

theorem align_native_lt (p : ℕ) : align_native p < p + 8 := by
  unfold align_native
  omega

theorem align_native_mod (p : ℕ) : align_native p % 8 = 0 := Nat.mul_mod_left _ _

theorem align_native_eq {p : ℕ} (h : p < 2 ^ 63 + 100) (h8 : p % 8 = 0) : align_native p = p := by
  unfold align_native
  omega

theorem Build.page_mod (b : Build) : b.page % 8 = 0 ∧ 8 ≤ b.page ∧ b.page ≤ 40 := by
  unfold Build.page
  split <;> decide

theorem Build.rzb_mod (b : Build) : b.rzb % 8 = 0 ∧ b.rzb ≤ 8 := by
  unfold Build.rzb
  split <;> decide

theorem Build.allocd_mod (b : Build) : b.allocd % 8 = 0 ∧ 8 ≤ b.allocd ∧ b.allocd ≤ 24 := by
  unfold Build.allocd
  split <;> split <;> decide

theorem page_max_free_space_eq {b : Build} {size : ℕ} (h : size < 2 ^ 63) (hb : b.page ≤ size) :
    page_max_free_space b size = size - b.page := by
  obtain ⟨h8, -, hle⟩ := b.page_mod
  have hs : ssize size = size := ssize_eq (by omega)
  rw [page_max_free_space, align_native_eq (by omega) h8, hs, ssize_eq (by omega)]

/-! ## Where an allocation lies -/

/-- the cursor is in its page, behind the header -/
structure Cursor (b : Build) (size page cur : ℕ) : Prop where
  aligned : page % 8 = 0
  pos : 0 < page
  start : page + b.page + b.rzb ≤ cur
  stop : cur ≤ page + size + b.rzb
  bound : page + size + b.rzb ≤ 2 ^ 63

/-- the sum of a comparison, with its wraps -/
theorem ssize_sum {before sz after : ℕ} (hbefore : before < 16) (hafter : after ≤ 8) (hsz : sz < 2 ^ 64) :
    ssize (ssize (before + ssize sz) + after) = ssize ((before + sz + after : ℕ) : ℤ) := by
  unfold ssize
  split_ifs <;> omega

section Cursor

variable {b : Build} {p p' : Pool} {sz page : ℕ} {align : Bool}

theorem le_current_ret (h : p.cur + b.rzb < 2 ^ 63 + 100) : p.cur + b.rzb ≤ current_ret b p align := by
  unfold current_ret
  split
  · exact le_align_native h
  · exact le_rfl

theorem current_ret_lt : current_ret b p align < p.cur + b.rzb + 8 := by
  unfold current_ret
  split
  · exact align_native_lt _
  · omega

/-- the comparison is of the room left in the page, with a sum that may wrap -/
theorem fullCurrent_wraps (hpage : p.pages.head? = some page) (hcur : Cursor b p.size page p.cur) (hsz : sz < 2 ^ 64) :
    fullCurrent b p sz align ↔
      ((page + p.size : ℕ) : ℤ) - p.cur < ssize ((current_ret b p align - p.cur + sz + b.rzb : ℕ) : ℤ) := by
  obtain ⟨-, hpos, hstart, hstop, hbound⟩ := hcur
  obtain ⟨-, hrzb⟩ := b.rzb_mod
  have hle : p.cur + b.rzb ≤ current_ret b p align := le_current_ret (by omega)
  have hlt : current_ret b p align < p.cur + b.rzb + 8 := current_ret_lt
  unfold fullCurrent
  rw [List.headD_eq_head?_getD, hpage, Option.getD_some]
  generalize current_ret b p align = r at hle hlt
  have hsize : ssize (p.size : ℤ) = p.size := ssize_eq (by omega)
  have hused : ssize ((p.cur : ℤ) - page) = p.cur - page := ssize_eq (by omega)
  have hbefore : ssize ((r : ℤ) - p.cur) = (r - p.cur : ℕ) := by
    rw [ssize_eq (by omega)]
    omega
  rw [hsize, hused, hbefore, ssize_sum (by omega) hrzb hsz]
  constructor <;> intro h <;> omega

/-- the comparison without overflow -/
theorem fullCurrent_iff (hpage : p.pages.head? = some page) (hcur : Cursor b p.size page p.cur)
    (hsz : current_ret b p align - p.cur + sz + b.rzb < 2 ^ 63) :
    fullCurrent b p sz align ↔ page + p.size < current_ret b p align + sz + b.rzb := by
  have hwraps : fullCurrent b p sz align ↔ _ := fullCurrent_wraps hpage hcur (by omega)
  obtain ⟨-, hpos, hstart, hstop, hbound⟩ := hcur
  obtain ⟨-, hrzb⟩ := b.rzb_mod
  have hle : p.cur + b.rzb ≤ current_ret b p align := le_current_ret (by omega)
  rw [hwraps, ssize_eq (by omega)]
  omega

/-- what is handed out, when there is room -/
theorem room (hcur : Cursor b p.size page p.cur) (hfull : ¬ fullCurrent b p sz align)
    (hroom : current_ret b p align + sz + b.rzb ≤ page + p.size) : palloc_in_current_page b p sz align =
      (some (current_ret b p align), { p with cur := current_ret b p align + sz + b.rzb }) := by
  obtain ⟨-, hpos, hstart, hstop, hbound⟩ := hcur
  obtain ⟨-, hrzb⟩ := b.rzb_mod
  have hle : p.cur + b.rzb ≤ current_ret b p align := le_current_ret (by omega)
  unfold palloc_in_current_page nonnull
  rw [if_neg hfull, if_neg (by omega), Nat.mod_eq_of_lt (by omega)]

/-- the pool stays when there is none -/
theorem no_room (hcur : Cursor b p.size page p.cur) (h : palloc_in_current_page b p sz align = (none, p')) : p' = p := by
  obtain ⟨-, hpos, hstart, hstop, hbound⟩ := hcur
  obtain ⟨-, hrzb⟩ := b.rzb_mod
  have hle : p.cur + b.rzb ≤ current_ret b p align := le_current_ret (by omega)
  unfold palloc_in_current_page at h
  split at h
  · cases h
    rfl
  · unfold nonnull at h
    rw [if_neg (by omega)] at h
    cases h

theorem in_current_page {ret : ℕ} (hpage : p.pages.head? = some page) (hcur : Cursor b p.size page p.cur) (hsz : sz + 32 ≤ 2 ^ 63)
    (h : palloc_in_current_page b p sz align = (some ret, p')) :
    p' = { p with cur := ret + sz + b.rzb } ∧ p.cur + b.rzb ≤ ret ∧ ret + sz + b.rzb ≤ page + p.size ∧
      (align = true → ret % 8 = 0) := by
  obtain ⟨-, hrzb⟩ := b.rzb_mod
  have hlt : current_ret b p align < p.cur + b.rzb + 8 := current_ret_lt
  have hiff : fullCurrent b p sz align ↔ _ := fullCurrent_iff hpage hcur (by omega)
  by_cases hfull : fullCurrent b p sz align
  · unfold palloc_in_current_page at h
    rw [if_pos hfull] at h
    cases h
  · have hroom : current_ret b p align + sz + b.rzb ≤ page + p.size := not_lt.1 fun hlt => hfull (hiff.2 hlt)
    rw [room hcur hfull hroom] at h
    cases h
    have hstop := hcur.stop
    have hbound := hcur.bound
    refine ⟨rfl, le_current_ret (by omega), hroom, ?_⟩
    rintro rfl
    exact align_native_mod _

/-- a new page, with the cursor behind its header -/
theorem add_page_cursor {m : Malloc} (hsize : b.page ≤ p.size) (hbound : p.size + 2 * b.rzb < 2 ^ 64)
    (h : add_page b m p = some p') : ∃ page, p' = { p with pages := page :: p.pages, cur := page + b.page + b.rzb } ∧
      b.rzb ≤ page ∧ Cursor b p.size page (page + b.page + b.rzb) ∧
      ∀ x ∈ blocks b p, Apart (pageBlock b p.size page) x := by
  obtain ⟨pagedata, hm, rfl⟩ := Option.map_eq_some_iff.1 h
  rw [Nat.mod_eq_of_lt hbound] at hm
  obtain ⟨h16, hpos, hle, hfresh⟩ := m.fresh _ _ _ hm
  obtain ⟨hp8, -, hp⟩ := b.page_mod
  obtain ⟨hr8, hrzb⟩ := b.rzb_mod
  have hcur : align_native (pagedata + b.rzb + b.page + b.rzb) = pagedata + b.rzb + b.page + b.rzb :=
    align_native_eq (by omega) (by omega)
  refine ⟨pagedata + b.rzb, ?_, Nat.le_add_left _ _, ?_, ?_⟩
  · rw [hcur]
  · constructor <;> omega
  · rw [pageBlock, Nat.add_sub_cancel]
    exact hfresh

/-- where the first allocation of a page begins: its cursor is aligned -/
theorem fresh_ret (hcur : Cursor b p.size page p.cur) (hnew : p.cur = page + b.page + b.rzb) (hsize : b.page ≤ p.size) :
    current_ret b p align = p.cur + b.rzb := by
  obtain ⟨h8, hpos, -, hstop, hbound⟩ := hcur
  obtain ⟨hr8, hrzb⟩ := b.rzb_mod
  obtain ⟨hp8, -, hp⟩ := b.page_mod
  unfold current_ret
  split
  · exact align_native_eq (by omega) (by omega)
  · rfl

/-- the room that a new page has -/
theorem in_fresh_page (hpage : p.pages.head? = some page) (hcur : Cursor b p.size page p.cur)
    (hnew : p.cur = page + b.page + b.rzb) (hroom : b.page + sz + 3 * b.rzb ≤ p.size) :
    ∃ p', palloc_in_current_page b p sz align = (some (p.cur + b.rzb), p') := by
  have hret : current_ret b p align = p.cur + b.rzb := fresh_ret hcur hnew (by omega)
  have hbound := hcur.bound
  have hpos := hcur.pos
  have hiff : fullCurrent b p sz align ↔ _ := fullCurrent_iff hpage hcur (by rw [hret]; omega)
  have hfull : ¬ fullCurrent b p sz align := by
    rw [hiff, hret]
    omega
  rw [room hcur hfull (by rw [hret]; omega), hret]
  exact ⟨_, rfl⟩

end Cursor

end Shuttlesock.Pools
