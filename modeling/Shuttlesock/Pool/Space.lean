/-
The space counters of the pool allocator (`SHUTTLESOCK_POOL_TRACK_SPACE`), without Valgrind.

Model: the pool of `Palloc.lean` with the counters of the pool, of each page and of each level. A counter is a `size_t`, a `BitVec 64`, so
that every size of an allocation is covered, also one with which the cursor goes back. The comparisons and addresses are those of
`Palloc.lean`. A returned pointer is none when it is NULL. Around it, none means that an assertion fails, or a write to the page NULL.
- `St`: the pool, and the levels that were not drained past, newest first, each with the pool as it was when the level was marked.
- `Kept`: what is claimed of a state.

Results:
- `Counted`: the counters as sums over the pages.
- `remove_last_page_counted`, `alloc_inv`, `mark_inv`, `drain_spec`: what keeps them.
- `kept_of_reach`: every state of every run.
-/
import Mathlib.Tactic
import Mathlib.Data.BitVec
import Shuttlesock.Core.Runs
import Shuttlesock.Pool.Palloc

namespace Shuttlesock.PoolSpace

open Shuttlesock.Blocks Shuttlesock.Runs
open Shuttlesock.Pools (Build Allocd Level Pool MAX_LEVELS blocks align_native current_ret fullCurrent fullNew nonnull)

/-! ## The model -/

abbrev size_t := BitVec 64

def size_t.of (n : ℕ) : size_t := BitVec.ofNat 64 n

/-- `shuso_pool_page_space_t` -/
structure PageSpace where
  used : size_t
  wasted : size_t
  reserved : size_t
  cur : ℕ
deriving DecidableEq, Repr

structure Page where
  addr : ℕ
  space : PageSpace
deriving DecidableEq, Repr

/-- `struct shuso_pool_space_s` -/
structure Space where
  wasted : size_t
  free : size_t
  used : size_t
  reserved : size_t
  allocd : size_t
deriving DecidableEq, Repr

structure SpaceLevel where
  level : Level
  page_space : PageSpace
deriving DecidableEq, Repr

structure SpacePool where
  size : ℕ
  count : size_t
  pages : List Page
  cur : ℕ
  allocd : List Allocd
  levels : List SpaceLevel
  space : Space
deriving DecidableEq, Repr

/-- the pool without its counters -/
def SpacePool.pool (p : SpacePool) : Pool := ⟨p.size, p.pages.map Page.addr, p.cur, p.allocd, p.levels.map SpaceLevel.level⟩

def tracked (sanitize : Bool) : Build := ⟨false, sanitize, true⟩

def page_used_space (page cur : ℕ) : size_t := size_t.of cur - size_t.of page

/-- what is left of a page behind its own cursor -/
def room (size : ℕ) (page : Page) : size_t := size_t.of size - page_used_space page.addr page.space.cur

def add_page (b : Build) (m : Malloc) (p : SpacePool) : Option SpacePool :=
  (m.fn (blocks b p.pool) (p.size % 2 ^ 64)).map fun page =>
    let cur := align_native (page + b.page)
    let wasted := match p.pages with
      | [] => 0
      | last :: _ => size_t.of p.size - page_used_space last.addr p.cur
    let reserved := page_used_space page cur
    { p with
      pages := ⟨page, ⟨0, 0, reserved, cur⟩⟩ :: p.pages
      cur := cur
      count := p.count + 1
      space := { p.space with
        free := p.space.free - wasted + (size_t.of p.size - reserved)
        wasted := p.space.wasted + wasted
        reserved := p.space.reserved + reserved } }

def remove_last_page (p : SpacePool) : SpacePool :=
  match p.pages with
  | [] => p
  | page :: rest =>
    let freespace_left := match rest with
      | [] => 0
      | prev :: _ => room p.size prev
    { p with
      pages := rest
      count := p.count - 1
      space := { p.space with
        free := p.space.free - room p.size page + freespace_left
        used := p.space.used - page.space.used
        wasted := p.space.wasted - page.space.wasted - freespace_left
        reserved := p.space.reserved - page.space.reserved } }

/-- `shuso_pool_init` with a page size that is not 0 -/
def shuso_pool_init (b : Build) (m : Malloc) (pagesize : ℕ) : Option SpacePool :=
  add_page b m ⟨pagesize, 0, [], 0, [], [], ⟨0, 0, 0, 0, 0⟩⟩

def plain_old_malloc (b : Build) (m : Malloc) (p : SpacePool) (sz : ℕ) : Option (ℕ × SpacePool) :=
  (Pools.plain_old_malloc b m p.pool sz).map fun (ret, q) =>
    (ret, { p with allocd := q.allocd, space := { p.space with allocd := p.space.allocd + size_t.of sz } })

/-- with the page and the cursor after the allocation -/
def pool_update_space (p : SpacePool) (page : Page) (rest : List Page) (sz before_pad after_pad : size_t) : SpacePool :=
  { p with
    pages := ⟨page.addr, { page.space with
      wasted := page.space.wasted + (before_pad + after_pad)
      used := page.space.used + sz
      cur := p.cur }⟩ :: rest
    space := { p.space with
      wasted := p.space.wasted + (before_pad + after_pad)
      used := p.space.used + sz
      free := p.space.free - (sz + before_pad + after_pad) } }

def palloc_in_current_page (b : Build) (p : SpacePool) (sz : ℕ) (align : Bool) : Option (Option ℕ × SpacePool) :=
  if fullCurrent b p.pool sz align then some (none, p)
  else
    let ret := current_ret b p.pool align
    match p.pages with
    | [] => none
    | page :: rest => some (nonnull ret, pool_update_space { p with cur := (ret + sz) % 2 ^ 64 } page rest (size_t.of sz)
        (size_t.of ret - size_t.of p.cur) 0)

def palloc_in_new_page (b : Build) (m : Malloc) (p : SpacePool) (sz : ℕ) (align : Bool) : Option (Option ℕ × SpacePool) :=
  if fullNew b p.size sz then some (none, p)
  else
    match add_page b m p with
    | none => some (none, p)
    | some p' =>
      match palloc_in_current_page b p' sz align with
      | some (some ret, p'') => some (some ret, p'')
      | _ => none  -- assert(ret)

def palloc_with_alignment (b : Build) (m : Malloc) (p : SpacePool) (sz : ℕ) (align : Bool) : Option (Option ℕ × SpacePool) :=
  match palloc_in_current_page b p sz align with
  | none => none
  | some (some ret, p') => some (some ret, p')
  | some (none, p₁) =>
    match palloc_in_new_page b m p₁ sz align with
    | none => none
    | some (some ret, p') => some (some ret, p')
    | some (none, p') =>
      match plain_old_malloc b m p' sz with
      | some (ret, p'') => some (some ret, p'')
      | none => some (none, p')

/-- `pool->page.last->space`, or zeros -/
def last_space (p : SpacePool) : PageSpace :=
  match p.pages with
  | [] => ⟨0, 0, 0, 0⟩
  | page :: _ => page.space

/-- the level that describes the pool -/
def new_level (p : SpacePool) (addr : ℕ) : SpaceLevel :=
  ⟨⟨addr, p.pages.head?.map Page.addr, p.cur, p.allocd.head?.map Allocd.addr⟩, last_space p⟩

def shuso_pool_mark_level (b : Build) (m : Malloc) (p : SpacePool) : Option (ℕ × SpacePool) :=
  match palloc_with_alignment b m p b.level true with
  | none => none
  | some (none, p') => some (0, p')
  | some (some addr, p') =>
    if p'.levels.length < MAX_LEVELS then some (p'.levels.length + 1, { p' with levels := p'.levels ++ [new_level p' addr] })
    else none  -- assert(pool->levels.count < SHUTTLESOCK_POOL_MAX_LEVELS)

def plain_old_free_last (p : SpacePool) : SpacePool :=
  match p.allocd with
  | [] => p
  | cur :: rest => { p with allocd := rest, space := { p.space with allocd := p.space.allocd - size_t.of cur.size } }

/-- the loop of `plain_old_free_last` -/
def drain_allocd (a : ℕ) : List Allocd → SpacePool → Option SpacePool
  | [], _ => none  -- assert(pool->allocd.last != NULL)
  | x :: allocd, p => if x.addr = a then some p else drain_allocd a allocd (plain_old_free_last p)

/-- the loop of `remove_last_page` -/
def drain_pages (page : ℕ) : List Page → SpacePool → Option SpacePool
  | [], _ => none  -- assert(pool->page.last != NULL)
  | x :: pages, p => if x.addr = page then some p else drain_pages page pages (remove_last_page p)

/-- nothing is freed when the level was marked with no allocated block -/
def free_to (p : SpacePool) : Option ℕ → Option SpacePool
  | none => some p
  | some a => drain_allocd a p.allocd p

def remove_to (p : SpacePool) : Option ℕ → Option SpacePool
  | none => some p
  | some page => drain_pages page p.pages p

/-- the end of `shuso_pool_drain_to_level` -/
def roll_back (p : SpacePool) (level : SpaceLevel) : SpacePool :=
  match level.level.page, p.pages with
  | some _, page :: rest =>
    let used_diff := page.space.used - level.page_space.used
    let wasted_diff := page.space.wasted - level.page_space.wasted
    { p with
      cur := level.level.page_cur
      pages := ⟨page.addr, level.page_space⟩ :: rest
      space := { p.space with
        used := p.space.used - used_diff
        wasted := p.space.wasted - wasted_diff
        free := p.space.free + (used_diff + wasted_diff) } }
  | _, _ => { p with cur := level.level.page_cur }

def shuso_pool_drain_to_level (p : SpacePool) (levelnum : ℕ) : Option (Bool × SpacePool) :=
  if p.levels.length < levelnum then some (false, p)
  else if levelnum = 0 then some (true, ⟨0, 0, [], 0, [], [], ⟨0, 0, 0, 0, 0⟩⟩)
  else
    match p.levels[levelnum - 1]? with
    | none => some (false, p)
    | some level =>
      (free_to p level.level.allocd).bind fun p => (remove_to p level.level.page).map fun p => (true, roll_back p level)

/-! ## The system -/

structure St where
  pool : SpacePool
  /-- the levels that were not drained past, each with the pool when it was marked -/
  live : List (ℕ × SpacePool)

inductive Action where
  /-- `shuso_palloc` or `shuso_palloc_unaligned` -/
  | alloc (m : Malloc) (sz : ℕ) (align : Bool)
  | mark (m : Malloc)
  | drain (n : ℕ)

def step (b : Build) (s : St) : Action → Option St
  | .alloc m sz align =>
    if sz < 2 ^ 64 then (palloc_with_alignment b m s.pool sz align).map fun r => { s with pool := r.2 } else none
  | .mark m => (shuso_pool_mark_level b m s.pool).map fun (n, p) => ⟨p, if n = 0 then s.live else (n, p) :: s.live⟩
  | .drain n =>
    if n ∈ s.live.map Prod.fst then
      (shuso_pool_drain_to_level s.pool n).map fun r => ⟨r.2, s.live.dropWhile fun l => l.1 ≠ n⟩
    else none

def start (p : SpacePool) : St := ⟨p, []⟩

/-- the counters of the pool add up to its pages, and what is free is what the last page has left -/
structure Balanced (p : SpacePool) : Prop where
  total : p.space.used + p.space.free + p.space.wasted + p.space.reserved = size_t.of p.size * p.count
  free : ∃ last rest, p.pages = last :: rest ∧ p.space.free = size_t.of p.size - page_used_space last.addr p.cur

/-- the counters are those of the pool t -/
structure Restored (t v : SpacePool) : Prop where
  used : v.space.used = t.space.used
  wasted : v.space.wasted = t.space.wasted
  free : v.space.free = t.space.free
  reserved : v.space.reserved = t.space.reserved

/-- **The property** of a state: the counters add up, and a drain to a level brings them back. -/
structure Kept (s : St) : Prop where
  balanced : Balanced s.pool
  restored : ∀ n t, (n, t) ∈ s.live → ∃ v, shuso_pool_drain_to_level s.pool n = some (true, v) ∧ Restored t v

/-! ## Without the counters -/

section Pool

variable {b : Build} {p : SpacePool}

theorem add_page_pool (hb : b.valgrind = false) (m : Malloc) (p : SpacePool) :
    (add_page b m p).map SpacePool.pool = Pools.add_page b m p.pool := by
  simp [add_page, Pools.add_page, Build.rzb, hb, SpacePool.pool, Function.comp_def]

theorem palloc_in_current_page_pool (hb : b.valgrind = false) (hp : p.pages ≠ []) (sz : ℕ) (align : Bool) :
    (palloc_in_current_page b p sz align).map (fun r => (r.1, r.2.pool)) = some (Pools.palloc_in_current_page b p.pool sz align) := by
  obtain ⟨page, rest, hpages⟩ := List.exists_cons_of_ne_nil hp
  unfold palloc_in_current_page Pools.palloc_in_current_page
  split_ifs
  · rfl
  · simp [hpages, pool_update_space, SpacePool.pool, Build.rzb, hb]

/-- a malloc'd block changes nothing else -/
theorem malloc_rest {m : Malloc} {p q : Pool} {sz ret : ℕ} (h : Pools.plain_old_malloc b m p sz = some (ret, q)) :
    q = { p with allocd := q.allocd } ∧ p.allocd <:+ q.allocd := by
  unfold Pools.plain_old_malloc at h
  split_ifs at h
  · obtain ⟨cur, -, h⟩ := Option.bind_eq_some_iff.1 h
    obtain ⟨data, -, heq⟩ := Option.map_eq_some_iff.1 h
    cases heq
    exact ⟨rfl, List.suffix_cons _ _⟩
  · obtain ⟨cur, -, heq⟩ := Option.map_eq_some_iff.1 h
    cases heq
    exact ⟨rfl, List.suffix_cons _ _⟩

theorem plain_old_malloc_pool (m : Malloc) (p : SpacePool) (sz : ℕ) :
    (plain_old_malloc b m p sz).map (fun r => (r.1, r.2.pool)) = Pools.plain_old_malloc b m p.pool sz := by
  unfold plain_old_malloc
  cases hm : Pools.plain_old_malloc b m p.pool sz with
  | none => rfl
  | some r =>
    obtain ⟨ret, q⟩ := r
    simp only [Option.map_some, Option.some.injEq, Prod.mk.injEq, true_and]
    exact (malloc_rest hm).1.symm

theorem add_page_pages {m : Malloc} {q : SpacePool} (h : add_page b m p = some q) : q.pages ≠ [] := by
  obtain ⟨page, -, rfl⟩ := Option.map_eq_some_iff.1 h
  exact List.cons_ne_nil _ _

theorem palloc_in_new_page_pool (hb : b.valgrind = false) (m : Malloc) (p : SpacePool) (sz : ℕ) (align : Bool) :
    (palloc_in_new_page b m p sz align).map (fun r => (r.1, r.2.pool)) = Pools.palloc_in_new_page b m p.pool sz align := by
  unfold palloc_in_new_page Pools.palloc_in_new_page
  have hsize : p.pool.size = p.size := rfl
  rw [hsize, ← add_page_pool hb m p]
  split_ifs
  · rfl
  · cases hadd : add_page b m p with
    | none => rfl
    | some q =>
      have hcurrent := palloc_in_current_page_pool hb (add_page_pages hadd) sz align
      simp only [Option.map_some]
      cases hq : palloc_in_current_page b q sz align with
      | none =>
        rw [hq] at hcurrent
        cases hcurrent
      | some r =>
        obtain ⟨ret, r⟩ := r
        rw [hq, Option.map_some, Option.some.injEq] at hcurrent
        rw [← hcurrent]
        cases ret with
        | none => rfl
        | some ret => rfl

/-- **An allocation**, without the counters -/
theorem palloc_pool (hb : b.valgrind = false) (m : Malloc) {p : SpacePool} (hp : p.pages ≠ []) (sz : ℕ) (align : Bool) :
    (palloc_with_alignment b m p sz align).map (fun r => (r.1, r.2.pool)) = Pools.palloc_with_alignment b m p.pool sz align := by
  have hcurrent := palloc_in_current_page_pool hb hp sz align
  unfold palloc_with_alignment Pools.palloc_with_alignment
  cases hq : palloc_in_current_page b p sz align with
  | none =>
    rw [hq] at hcurrent
    cases hcurrent
  | some r =>
    obtain ⟨ret, p₁⟩ := r
    rw [hq, Option.map_some, Option.some.injEq] at hcurrent
    rw [← hcurrent]
    cases ret with
    | some ret => rfl
    | none =>
      simp only
      rw [← palloc_in_new_page_pool hb m p₁ sz align]
      cases hnew : palloc_in_new_page b m p₁ sz align with
      | none => rfl
      | some r =>
        obtain ⟨ret, p'⟩ := r
        cases ret with
        | some ret => rfl
        | none =>
          simp only [Option.map_some]
          rw [← plain_old_malloc_pool m p' sz]
          cases plain_old_malloc b m p' sz with
          | none => rfl
          | some r => rfl

/-- **A mark**, without the counters -/
theorem mark_pool (hb : b.valgrind = false) (m : Malloc) {p : SpacePool} (hp : p.pages ≠ []) :
    (shuso_pool_mark_level b m p).map (fun r => (r.1, r.2.pool)) = Pools.shuso_pool_mark_level b m p.pool := by
  unfold shuso_pool_mark_level Pools.shuso_pool_mark_level Pools.shuso_palloc
  rw [← palloc_pool hb m hp b.level true]
  cases palloc_with_alignment b m p b.level true with
  | none => rfl
  | some r =>
    obtain ⟨ret, p'⟩ := r
    cases ret with
    | none => rfl
    | some addr =>
      have hlen : p'.pool.levels.length = p'.levels.length := List.length_map _
      simp only [Option.map_some, hlen]
      split_ifs
      · simp [SpacePool.pool, new_level]
      · rfl

theorem drain_allocd_pool (a : ℕ) {l : List Allocd} {p : SpacePool} (hl : p.allocd = l) :
    (drain_allocd a l p).map SpacePool.pool = (Pools.drainAllocd l (some a)).map fun allocd => { p.pool with allocd := allocd } := by
  induction l generalizing p with
  | nil => rfl
  | cons x l ih =>
    rw [drain_allocd]
    split_ifs with hx
    · simp [Pools.drainAllocd, hx, SpacePool.pool, hl]
    · have hfree : (plain_old_free_last p).allocd = l := by simp [plain_old_free_last, hl]
      rw [ih hfree]
      simp [Pools.drainAllocd, hx, plain_old_free_last, hl, SpacePool.pool]

theorem drain_pages_pool (page : ℕ) {l : List Page} {p : SpacePool} (hl : p.pages = l) :
    (drain_pages page l p).map SpacePool.pool =
      (Pools.drainPages (l.map Page.addr) (some page)).map fun pages => { p.pool with pages := pages } := by
  induction l generalizing p with
  | nil => rfl
  | cons x l ih =>
    rw [drain_pages]
    split_ifs with hx
    · simp [Pools.drainPages, hx, SpacePool.pool, hl]
    · have hrest : (remove_last_page p).pages = l := by simp [remove_last_page, hl]
      rw [ih hrest]
      simp [Pools.drainPages, hx, remove_last_page, hl, SpacePool.pool]

theorem free_to_pool (p : SpacePool) (a : Option ℕ) :
    (free_to p a).map SpacePool.pool = (Pools.drainAllocd p.allocd a).map fun allocd => { p.pool with allocd := allocd } := by
  cases a with
  | none => rfl
  | some a => exact drain_allocd_pool a rfl

theorem remove_to_pool (p : SpacePool) (page : Option ℕ) :
    (remove_to p page).map SpacePool.pool = (Pools.drainPages p.pool.pages page).map fun pages => { p.pool with pages := pages } := by
  cases page with
  | none => rfl
  | some page => exact drain_pages_pool page rfl

theorem roll_back_pool (p : SpacePool) (level : SpaceLevel) :
    (roll_back p level).pool = { p.pool with cur := level.level.page_cur } := by
  unfold roll_back
  split
  · rename_i hpages
    simp [SpacePool.pool, hpages]
  · rfl

/-- **A drain**, without the counters -/
theorem drain_pool (p : SpacePool) (n : ℕ) :
    (shuso_pool_drain_to_level p n).map (fun r => (r.1, r.2.pool)) = Pools.shuso_pool_drain_to_level p.pool n := by
  have hlen : p.pool.levels.length = p.levels.length := List.length_map _
  have hget : p.pool.levels[n - 1]? = (p.levels[n - 1]?).map SpaceLevel.level := List.getElem?_map
  unfold shuso_pool_drain_to_level Pools.shuso_pool_drain_to_level
  rw [hlen, hget]
  split_ifs
  · rfl
  · rfl
  · cases p.levels[n - 1]? with
    | none => rfl
    | some level =>
      have hfree := free_to_pool p level.level.allocd
      have hallocd : p.pool.allocd = p.allocd := rfl
      simp only [Option.map_some, hallocd]
      cases hq : free_to p level.level.allocd with
      | none =>
        rw [hq, Option.map_none] at hfree
        rw [Option.map_eq_none_iff.1 hfree.symm]
        rfl
      | some q =>
        rw [hq] at hfree
        obtain ⟨allocd, hl, hql⟩ := Option.map_eq_some_iff.1 hfree.symm
        have hremove := remove_to_pool q level.level.page
        rw [← hql] at hremove
        rw [hl]
        simp only [Option.bind_some]
        cases hr : remove_to q level.level.page with
        | none =>
          rw [hr, Option.map_none] at hremove
          rw [Option.map_eq_none_iff.1 hremove.symm]
          rfl
        | some r =>
          rw [hr] at hremove
          obtain ⟨pages, hp, hrp⟩ := Option.map_eq_some_iff.1 hremove.symm
          rw [hp, Option.map_some, Option.map_some, roll_back_pool, ← hrp]

end Pool

/-! ## The counters as sums -/

theorem size_t.of_add (m n : ℕ) : size_t.of (m + n) = size_t.of m + size_t.of n := BitVec.ofNat_add m n

theorem size_t.of_mod (n : ℕ) : size_t.of (n % 2 ^ 64) = size_t.of n := by
  apply BitVec.eq_of_toNat_eq
  simp [size_t.of]

/-- what a page has in use is up to its cursor -/
def Filled (x : Page) : Prop := x.space.used + x.space.wasted + x.space.reserved = page_used_space x.addr x.space.cur

structure Counted (size : ℕ) (pages : List Page) (sp : Space) : Prop where
  used : sp.used = (pages.map (·.space.used)).sum
  reserved : sp.reserved = (pages.map (·.space.reserved)).sum
  wasted : sp.wasted = (pages.map (·.space.wasted)).sum + (pages.tail.map (room size)).sum
  free : sp.free = (pages.head?.map (room size)).getD 0

theorem counted_cons {size : ℕ} {x : Page} {rest : List Page} {sp : Space} : Counted size (x :: rest) sp ↔
    sp.used = x.space.used + (rest.map (·.space.used)).sum ∧ sp.reserved = x.space.reserved + (rest.map (·.space.reserved)).sum ∧
      sp.wasted = x.space.wasted + (rest.map (·.space.wasted)).sum + (rest.map (room size)).sum ∧ sp.free = room size x :=
  ⟨fun h => ⟨h.used, h.reserved, h.wasted, h.free⟩, fun ⟨h1, h2, h3, h4⟩ => ⟨h1, h2, h3, h4⟩⟩

theorem pages_total {size : ℕ} {pages : List Page} (h : ∀ x ∈ pages, Filled x) :
    (pages.map (·.space.used)).sum + (pages.map (·.space.wasted)).sum + (pages.map (·.space.reserved)).sum +
      (pages.map (room size)).sum = size_t.of size * size_t.of pages.length := by
  induction pages with
  | nil => simp [size_t.of]
  | cons x pages ih =>
    have hx : Filled x := h x List.mem_cons_self
    have ih := ih fun y hy => h y (List.mem_cons_of_mem x hy)
    have hone : size_t.of 1 = 1 := rfl
    simp only [List.map_cons, List.sum_cons, List.length_cons, size_t.of_add, hone]
    unfold Filled at hx
    unfold room at ih ⊢
    linear_combination ih + hx

/-- **The counters add up to the pages.** -/
theorem Counted.total {size : ℕ} {pages : List Page} {sp : Space} (h : Counted size pages sp) (hf : ∀ x ∈ pages, Filled x) :
    sp.used + sp.free + sp.wasted + sp.reserved = size_t.of size * size_t.of pages.length := by
  have hrooms : (pages.head?.map (room size)).getD 0 + (pages.tail.map (room size)).sum = (pages.map (room size)).sum := by
    cases pages with
    | nil => simp
    | cons x pages => simp
  rw [← pages_total hf, h.used, h.free, h.wasted, h.reserved]
  linear_combination hrooms

/-- a page that goes takes its counters with it, and the room of the page before it is free again -/
theorem remove_last_page_counted {p : SpacePool} (h : Counted p.size p.pages p.space) :
    Counted p.size (remove_last_page p).pages (remove_last_page p).space := by
  unfold remove_last_page
  split
  · exact h
  · rename_i page rest hpages
    rw [hpages] at h
    obtain ⟨hused, hreserved, hwasted, hfree⟩ := counted_cons.1 h
    cases rest with
    | nil => constructor <;> simp [hused, hreserved, hwasted, hfree]
    | cons prev rest =>
      rw [List.map_cons, List.sum_cons] at hused hreserved
      rw [List.map_cons, List.sum_cons, List.map_cons, List.sum_cons] at hwasted
      refine counted_cons.2 ⟨?_, ?_, ?_, ?_⟩
      · simp only [hused]
        ring
      · simp only [hreserved]
        ring
      · simp only [hwasted]
        ring
      · simp only [hfree]
        ring

/-! ## The pool in every state -/

structure PoolInv (p : SpacePool) : Prop where
  size : 0 < p.size ∧ p.size < 2 ^ 64
  nodup : (p.pages.map Page.addr).Nodup
  cur : ∃ last rest, p.pages = last :: rest ∧ last.space.cur = p.cur
  filled : ∀ x ∈ p.pages, Filled x
  counted : Counted p.size p.pages p.space
  count : p.count = size_t.of p.pages.length

theorem PoolInv.balanced {p : SpacePool} (h : PoolInv p) : Balanced p := by
  obtain ⟨last, rest, hpages, hcur⟩ := h.cur
  refine ⟨?_, last, rest, hpages, ?_⟩
  · rw [h.counted.total h.filled, h.count]
  · rw [h.counted.free, hpages, List.head?_cons, Option.map_some, Option.getD_some, room, hcur]

/-- the pages of t are below those of u, the last of them with more in it -/
structure Above (t u : SpacePool) : Prop where
  size : u.size = t.size
  pages : ∃ extra x y base, t.pages = x :: base ∧ u.pages = extra ++ y :: base ∧ y.addr = x.addr ∧
    y.space.reserved = x.space.reserved
  allocd : t.allocd <:+ u.allocd
  levels : t.levels <+: u.levels

theorem PoolInv.above {p : SpacePool} (h : PoolInv p) : Above p p := by
  obtain ⟨last, rest, hpages, -⟩ := h.cur
  exact ⟨rfl, ⟨[], last, last, rest, hpages, hpages, rfl, rfl⟩, List.suffix_rfl, List.prefix_rfl⟩

theorem Above.trans {t u v : SpacePool} (h1 : Above t u) (h2 : Above u v) : Above t v := by
  obtain ⟨e1, x1, y1, base1, ht1, hu1, haddr1, hres1⟩ := h1.pages
  obtain ⟨e2, x2, y2, base2, ht2, hu2, haddr2, hres2⟩ := h2.pages
  refine ⟨h2.size.trans h1.size, ?_, h1.allocd.trans h2.allocd, h1.levels.trans h2.levels⟩
  rw [ht2] at hu1
  cases e1 with
  | nil =>
    obtain ⟨rfl, rfl⟩ := List.cons.inj hu1
    exact ⟨e2, x1, y2, base2, ht1, hu2, haddr2.trans haddr1, hres2.trans hres1⟩
  | cons z e1 =>
    obtain ⟨rfl, rfl⟩ := List.cons.inj hu1
    exact ⟨e2 ++ y2 :: e1, x1, y1, base1, ht1, by rw [hu2]; simp, haddr1, hres1⟩

/-! ## Allocations -/

section Alloc

variable {b : Build} {m : Malloc} {p q : SpacePool} {sz : ℕ} {align : Bool}

/-- what an operation adds to the pool -/
def Grows (p q : SpacePool) : Prop := PoolInv q ∧ Above p q

theorem Grows.refl (h : PoolInv p) : Grows p p := ⟨h, h.above⟩

theorem Grows.trans {r : SpacePool} (h1 : Grows p q) (h2 : Grows q r) : Grows p r := ⟨h2.1, h1.2.trans h2.2⟩

/-- a new cursor in the last page, with what is before it -/
theorem update_grows (h : PoolInv p) {page : Page} {rest : List Page} (hpages : p.pages = page :: rest) (ret : ℕ) :
    Grows p (pool_update_space { p with cur := (ret + sz) % 2 ^ 64 } page rest (size_t.of sz) (size_t.of ret - size_t.of p.cur) 0) := by
  obtain ⟨last, rest', hlast, hcur⟩ := h.cur
  obtain ⟨rfl, rfl⟩ := List.cons.inj (hlast.symm.trans hpages)
  have hcounted := h.counted
  rw [hpages] at hcounted
  obtain ⟨hused, hreserved, hwasted, hfree⟩ := counted_cons.1 hcounted
  have hfilled : Filled last := h.filled last (hpages ▸ List.mem_cons_self)
  have hnew : size_t.of ((ret + sz) % 2 ^ 64) = size_t.of ret + size_t.of sz := by rw [size_t.of_mod, size_t.of_add]
  unfold Filled page_used_space at hfilled
  unfold room page_used_space at hfree
  rw [hcur] at hfilled hfree
  refine ⟨⟨h.size, ?_, ⟨_, rest', rfl, rfl⟩, ?_, counted_cons.2 ⟨?_, ?_, ?_, ?_⟩, ?_⟩, rfl, ?_, List.suffix_rfl, List.prefix_rfl⟩
  · have := h.nodup
    rw [hpages] at this
    exact this
  · intro x hx
    rcases List.mem_cons.1 hx with rfl | hx
    · unfold Filled page_used_space
      simp only [hnew]
      linear_combination hfilled
    · exact h.filled x (hpages ▸ List.mem_cons_of_mem last hx)
  · simp only [pool_update_space, hused]
    ring
  · simp only [pool_update_space, hreserved]
  · simp only [pool_update_space, hwasted]
    ring
  · simp only [pool_update_space, room, page_used_space, hnew, hfree]
    ring
  · rw [h.count, hpages]
    rfl
  · exact ⟨[], last, _, rest', hpages, rfl, rfl, rfl⟩

theorem current_grows (h : PoolInv p) {ret : Option ℕ} (hp : palloc_in_current_page b p sz align = some (ret, q)) : Grows p q := by
  obtain ⟨last, rest, hpages, -⟩ := h.cur
  unfold palloc_in_current_page at hp
  split_ifs at hp
  · cases hp
    exact .refl h
  · simp only [hpages] at hp
    cases hp
    exact update_grows h hpages _

theorem add_page_grows (h : PoolInv p) (hb : b.valgrind = false) (hp : add_page b m p = some q) : Grows p q := by
  obtain ⟨page, hm, rfl⟩ := Option.map_eq_some_iff.1 hp
  rw [Nat.mod_eq_of_lt h.size.2] at hm
  obtain ⟨last, rest, hpages, hcur⟩ := h.cur
  have hcounted := h.counted
  rw [hpages] at hcounted
  obtain ⟨hused, hreserved, hwasted, hfree⟩ := counted_cons.1 hcounted
  have hone : size_t.of 1 = 1 := rfl
  have hroom : size_t.of p.size - page_used_space last.addr p.cur = room p.size last := by rw [room, hcur]
  -- the new page is apart from the others
  have hfresh : page ∉ p.pages.map Page.addr := by
    intro hmem
    have hblock : (⟨page, p.size⟩ : Block) ∈ blocks b p.pool := by
      refine List.mem_append_left _ (List.mem_map.2 ⟨page, hmem, ?_⟩)
      simp [Pools.pageBlock, Build.rzb, hb, SpacePool.pool]
    exact not_apart_self h.size.1 ((m.fresh _ _ _ hm).apart _ hblock)
  refine ⟨⟨h.size, ?_, ⟨_, _, rfl, rfl⟩, ?_, ?_, ?_⟩, rfl, ?_, List.suffix_rfl, List.prefix_rfl⟩
  · exact List.nodup_cons.2 ⟨hfresh, h.nodup⟩
  · intro x hx
    rcases List.mem_cons.1 hx with rfl | hx
    · simp [Filled]
    · exact h.filled x hx
  · simp only [hpages]
    refine counted_cons.2 ⟨?_, ?_, ?_, ?_⟩
    · simp [hused]
    · simp only [hreserved, List.map_cons, List.sum_cons]
      ring
    · simp only [hwasted, hroom, List.map_cons, List.sum_cons]
      ring
    · simp only [hfree, hroom, room]
      ring
  · simp only [h.count, List.length_cons, size_t.of_add, hone]
  · exact ⟨[_], last, last, rest, hpages, congrArg (List.cons _) hpages, rfl, rfl⟩

theorem new_page_grows (h : PoolInv p) (hb : b.valgrind = false) {ret : Option ℕ}
    (hp : palloc_in_new_page b m p sz align = some (ret, q)) : Grows p q := by
  unfold palloc_in_new_page at hp
  split_ifs at hp
  · cases hp
    exact .refl h
  · split at hp
    · cases hp
      exact .refl h
    · rename_i p' hadd
      have h1 := add_page_grows h hb hadd
      split at hp
      · rename_i hcurrent
        cases hp
        exact h1.trans (current_grows h1.1 hcurrent)
      · cases hp

theorem malloc_grows (h : PoolInv p) {ret : ℕ} (hp : plain_old_malloc b m p sz = some (ret, q)) : Grows p q := by
  obtain ⟨⟨ret', q'⟩, hm, heq⟩ := Option.map_eq_some_iff.1 hp
  cases heq
  have hallocd : p.allocd <:+ q'.allocd := (malloc_rest hm).2
  obtain ⟨hused, hreserved, hwasted, hfree⟩ := h.counted
  exact ⟨⟨h.size, h.nodup, h.cur, h.filled, ⟨hused, hreserved, hwasted, hfree⟩, h.count⟩, rfl, h.above.pages, hallocd, List.prefix_rfl⟩

/-- **An allocation** -/
theorem alloc_grows (h : PoolInv p) (hb : b.valgrind = false) {ret : Option ℕ}
    (hp : palloc_with_alignment b m p sz align = some (ret, q)) : Grows p q := by
  unfold palloc_with_alignment at hp
  split at hp
  · cases hp
  · rename_i hcurrent
    cases hp
    exact current_grows h hcurrent
  · rename_i p₁ hcurrent
    have h1 := current_grows h hcurrent
    split at hp
    · cases hp
    · rename_i hnew
      cases hp
      exact h1.trans (new_page_grows h1.1 hb hnew)
    · rename_i p' hnew
      have h2 := h1.trans (new_page_grows h1.1 hb hnew)
      split at hp
      · rename_i hmalloc
        cases hp
        exact h2.trans (malloc_grows h2.1 hmalloc)
      · cases hp
        exact h2

end Alloc

/-! ## Draining -/

section Drain

variable {t p q : SpacePool}

theorem Restored.trans (h1 : Restored t p) (h2 : Restored p q) : Restored t q :=
  ⟨h2.used.trans h1.used, h2.wasted.trans h1.wasted, h2.free.trans h1.free, h2.reserved.trans h1.reserved⟩

theorem Counted.of_restored {size : ℕ} {pages : List Page} (h : Counted size pages t.space) (hr : Restored t q) :
    Counted size pages q.space :=
  ⟨hr.used.trans h.used, hr.reserved.trans h.reserved, hr.wasted.trans h.wasted, hr.free.trans h.free⟩

/-- malloc'd blocks were freed, nothing else -/
structure Freed (p q : SpacePool) : Prop where
  size : q.size = p.size
  pages : q.pages = p.pages
  levels : q.levels = p.levels
  count : q.count = p.count
  restored : Restored p q

theorem Freed.refl (p : SpacePool) : Freed p p := ⟨rfl, rfl, rfl, rfl, rfl, rfl, rfl, rfl⟩

theorem Freed.trans {r : SpacePool} (h1 : Freed p q) (h2 : Freed q r) : Freed p r :=
  ⟨h2.size.trans h1.size, h2.pages.trans h1.pages, h2.levels.trans h1.levels, h2.count.trans h1.count,
    h1.restored.trans h2.restored⟩

theorem plain_old_free_last_freed (p : SpacePool) : Freed p (plain_old_free_last p) := by
  unfold plain_old_free_last
  split
  · exact .refl p
  · exact ⟨rfl, rfl, rfl, rfl, rfl, rfl, rfl, rfl⟩

/-- the loop over the malloc'd blocks stops at the last one of the level, or before -/
theorem drain_allocd_spec {a : ℕ} {l k : List Allocd} {x : Allocd} (hl : p.allocd = l) (hk : k <:+ l) (hx : k.head? = some x)
    (hxa : x.addr = a) : ∃ q, drain_allocd a l p = some q ∧ Freed p q ∧ k <:+ q.allocd := by
  induction l generalizing p with
  | nil =>
    rw [List.suffix_nil] at hk
    rw [hk] at hx
    cases hx
  | cons y l ih =>
    rw [drain_allocd]
    split_ifs with hy
    · exact ⟨p, rfl, .refl p, hl ▸ hk⟩
    · have hsuffix : k <:+ l := by
        rcases List.suffix_cons_iff.1 hk with rfl | hk
        · cases hx
          exact absurd hxa hy
        · exact hk
      have hfree : (plain_old_free_last p).allocd = l := by simp [plain_old_free_last, hl]
      obtain ⟨q, hq, hfreed, hkq⟩ := ih hfree hsuffix
      exact ⟨q, hq, (plain_old_free_last_freed p).trans hfreed, hkq⟩

/-- the loop over the pages stops at the page of the level -/
theorem drain_pages_spec {l extra base : List Page} {y : Page} (hl : p.pages = l) (hpages : l = extra ++ y :: base)
    (hnodup : (l.map Page.addr).Nodup) (hcounted : Counted p.size l p.space) (hcount : p.count = size_t.of l.length) :
    ∃ q, drain_pages y.addr l p = some q ∧ q.pages = y :: base ∧ Counted p.size (y :: base) q.space ∧
      q.count = size_t.of (y :: base).length ∧ q.size = p.size ∧ q.levels = p.levels ∧ q.allocd = p.allocd := by
  induction l generalizing p extra with
  | nil =>
    have := congrArg List.length hpages
    simp at this
  | cons z l ih =>
    rw [drain_pages]
    cases extra with
    | nil =>
      obtain ⟨rfl, rfl⟩ := List.cons.inj hpages
      rw [if_pos rfl]
      exact ⟨p, rfl, hl, hcounted, hcount, rfl, rfl, rfl⟩
    | cons z' extra =>
      rw [List.cons_append] at hpages
      obtain ⟨-, htail⟩ := List.cons.inj hpages
      obtain ⟨hz, hnodup⟩ := List.nodup_cons.1 hnodup
      have hy : y ∈ l := htail ▸ List.mem_append_right extra List.mem_cons_self
      have hne : z.addr ≠ y.addr := by
        intro heq
        exact hz (heq ▸ List.mem_map_of_mem hy)
      have hrest : (remove_last_page p).pages = l := by simp [remove_last_page, hl]
      have hsize : (remove_last_page p).size = p.size := by simp [remove_last_page, hl]
      have hlevels : (remove_last_page p).levels = p.levels := by simp [remove_last_page, hl]
      have hallocd : (remove_last_page p).allocd = p.allocd := by simp [remove_last_page, hl]
      have hcounted' := remove_last_page_counted (hl ▸ hcounted)
      rw [hrest] at hcounted'
      have hcount' : (remove_last_page p).count = size_t.of l.length := by
        have hone : size_t.of 1 = 1 := rfl
        simp only [remove_last_page, hl, hcount, List.length_cons, size_t.of_add, hone]
        ring
      obtain ⟨q, hq, h1, h2, h3, h4, h5, h6⟩ := ih hrest htail hnodup (hsize ▸ hcounted') hcount'
      rw [if_neg hne]
      exact ⟨q, hq, h1, hsize ▸ h2, h3, h4.trans hsize, h5.trans hlevels, h6.trans hallocd⟩

/-- **The roll back of the last page** -/
theorem roll_back_spec {x y : Page} {base : List Page} (ht : PoolInv t) (hpt : t.pages = x :: base) (hpq : q.pages = y :: base)
    (haddr : y.addr = x.addr) (hreserved : y.space.reserved = x.space.reserved) (hfilled : Filled y)
    (hcounted : Counted t.size (y :: base) q.space) (addr : ℕ) :
    (roll_back q (new_level t addr)).pages = t.pages ∧ (roll_back q (new_level t addr)).cur = t.cur ∧
      Restored t (roll_back q (new_level t addr)) := by
  have hct := ht.counted
  rw [hpt] at hct
  obtain ⟨hu, hr, hw, hf⟩ := counted_cons.1 hct
  obtain ⟨hu', hr', hw', hf'⟩ := counted_cons.1 hcounted
  have hfx : Filled x := ht.filled x (hpt ▸ List.mem_cons_self)
  unfold Filled at hfilled hfx
  unfold room at hf hf'
  rw [haddr] at hfilled hf'
  have hroll : roll_back q (new_level t addr) = { q with
      cur := t.cur
      pages := ⟨y.addr, x.space⟩ :: base
      space := { q.space with
        used := q.space.used - (y.space.used - x.space.used)
        wasted := q.space.wasted - (y.space.wasted - x.space.wasted)
        free := q.space.free + ((y.space.used - x.space.used) + (y.space.wasted - x.space.wasted)) } } := by
    simp [roll_back, new_level, last_space, hpt, hpq]
  rw [hroll]
  refine ⟨?_, rfl, ?_, ?_, ?_, ?_⟩
  · rw [hpt, haddr]
  · simp only [hu, hu']
    ring
  · simp only [hw, hw']
    ring
  · simp only [hf, hf']
    linear_combination hfilled - hfx - hreserved
  · simp only [hr, hr', hreserved]

/-- the level n describes t -/
def Recorded (levels : List SpaceLevel) (n : ℕ) (t : SpacePool) : Prop :=
  n ≠ 0 ∧ ∃ addr, levels[n - 1]? = some (new_level t addr)

/-- the loops of a drain, for a level that describes t -/
theorem drain_loops {u : SpacePool} (hu : PoolInv u) (h : Above t u) : ∃ r q y base,
    free_to u (t.allocd.head?.map Allocd.addr) = some r ∧ remove_to r (t.pages.head?.map Page.addr) = some q ∧
    q.pages = y :: base ∧ Counted t.size (y :: base) q.space ∧
    q.count = size_t.of (y :: base).length ∧ q.size = t.size ∧ q.levels = u.levels ∧ t.allocd <:+ q.allocd ∧ Filled y ∧
    ∃ x, t.pages = x :: base ∧ y.addr = x.addr ∧ y.space.reserved = x.space.reserved := by
  obtain ⟨extra, x, y, base, hpt, hpu, haddr, hreserved⟩ := h.pages
  obtain ⟨r, hr, hfreed, hsuffix⟩ : ∃ r, free_to u (t.allocd.head?.map Allocd.addr) = some r ∧ Freed u r ∧ t.allocd <:+ r.allocd := by
    cases hallocd : t.allocd with
    | nil => exact ⟨u, rfl, .refl u, List.nil_suffix⟩
    | cons c rest => exact drain_allocd_spec rfl (hallocd ▸ h.allocd) rfl rfl
  have hcounted : Counted r.size u.pages r.space := by
    rw [hfreed.size]
    exact hu.counted.of_restored hfreed.restored
  obtain ⟨q, hq, h1, h2, h3, h4, h5, h6⟩ := drain_pages_spec hfreed.pages hpu hu.nodup hcounted (hfreed.count.trans hu.count)
  have hsize : r.size = t.size := hfreed.size.trans h.size
  refine ⟨r, q, y, base, hr, ?_, h1, hsize ▸ h2, h3, h4.trans hsize, h5.trans hfreed.levels, h6 ▸ hsuffix, ?_, x, hpt, haddr, hreserved⟩
  · rw [hpt, List.head?_cons, Option.map_some, ← haddr, remove_to, hfreed.pages]
    exact hq
  · exact hu.filled y (hpu ▸ List.mem_append_right extra List.mem_cons_self)

/-- **A drain to a level** brings its pages and its counters back. -/
theorem drain_spec {u : SpacePool} {n : ℕ} (ht : PoolInv t) (hu : PoolInv u) (h : Above t u) (hn : Recorded u.levels n t) :
    ∃ v, shuso_pool_drain_to_level u n = some (true, v) ∧ Restored t v ∧ Grows t v ∧ v.levels = u.levels ∧ v.pages = t.pages := by
  obtain ⟨r, q, y, base, hr, hq, hpq, hcounted, hcount, hsize, hlevels, hallocd, hfilled, x, hpt, haddr, hreserved⟩ := drain_loops hu h
  obtain ⟨hpos, addr, hlevel⟩ := hn
  obtain ⟨hlt, -⟩ := List.getElem?_eq_some_iff.1 hlevel
  obtain ⟨hpages, hcur, hrestored⟩ := roll_back_spec ht hpt hpq haddr hreserved hfilled hcounted addr
  set v := roll_back q (new_level t addr) with hv
  have hvsame : v.size = q.size ∧ v.count = q.count ∧ v.levels = q.levels ∧ v.allocd = q.allocd := by
    rw [hv]
    simp [roll_back, new_level, hpt, hpq]
  obtain ⟨hv1, hv2, hv3, hv4⟩ := hvsame
  have hvinv : PoolInv v := by
    refine ⟨?_, ?_, ?_, ?_, ?_, ?_⟩
    · rw [hv1, hsize]
      exact ht.size
    · rw [hpages]
      exact ht.nodup
    · rw [hpages, hcur]
      exact ht.cur
    · rw [hpages]
      exact ht.filled
    · rw [hv1, hsize, hpages]
      exact ht.counted.of_restored hrestored
    · rw [hv2, hcount, hpages, hpt]
      rfl
  have hlevels' : v.levels = u.levels := hv3.trans hlevels
  refine ⟨v, ?_, hrestored, ⟨hvinv, hv1.trans hsize, ⟨[], x, x, base, hpt, hpages.trans hpt, rfl, rfl⟩, hv4 ▸ hallocd, ?_⟩,
    hlevels', hpages⟩
  · unfold shuso_pool_drain_to_level
    rw [if_neg (by omega), if_neg hpos]
    simp only [hlevel, new_level] at hv ⊢
    rw [hr, Option.bind_some, hq, Option.map_some, hv]
  · rw [hlevels']
    exact h.levels

end Drain

/-! ## Every run -/

theorem mark_grows {b : Build} {m : Malloc} {p q : SpacePool} {n : ℕ} (h : PoolInv p) (hb : b.valgrind = false)
    (hp : shuso_pool_mark_level b m p = some (n, q)) : Grows p q ∧ (n ≠ 0 → Recorded q.levels n q) := by
  unfold shuso_pool_mark_level at hp
  split at hp
  · cases hp
  · rename_i halloc
    cases hp
    exact ⟨alloc_grows h hb halloc, fun hn => absurd rfl hn⟩
  · rename_i addr p' halloc
    have h1 := alloc_grows h hb halloc
    split_ifs at hp
    cases hp
    have h2 : PoolInv { p' with levels := p'.levels ++ [new_level p' addr] } :=
      ⟨h1.1.size, h1.1.nodup, h1.1.cur, h1.1.filled, h1.1.counted, h1.1.count⟩
    have habove := h1.2
    refine ⟨⟨h2, habove.size, habove.pages, habove.allocd, habove.levels.trans (List.prefix_append _ _)⟩, fun hn => ⟨hn, addr, ?_⟩⟩
    rw [Nat.add_sub_cancel, List.getElem?_append_right le_rfl, Nat.sub_self]
    rfl

/-- the pools at the marks lie one above the other -/
structure Inv (s : St) : Prop where
  pool : PoolInv s.pool
  live : ∀ l ∈ s.live, PoolInv l.2 ∧ Above l.2 s.pool ∧ Recorded s.pool.levels l.1 l.2
  stacked : s.live.Pairwise fun l k => Above k.2 l.2

theorem Recorded.mono {levels levels' : List SpaceLevel} {n : ℕ} {t : SpacePool} (h : Recorded levels n t) (hp : levels <+: levels') :
    Recorded levels' n t := by
  obtain ⟨hn, addr, hlevel⟩ := h
  obtain ⟨l, rfl⟩ := hp
  obtain ⟨hlt, -⟩ := List.getElem?_eq_some_iff.1 hlevel
  exact ⟨hn, addr, by rw [List.getElem?_append_left hlt, hlevel]⟩

/-- the pool grows, and the levels are those that were there -/
theorem Inv.grows {s : St} (h : Inv s) {q : SpacePool} (hq : Grows s.pool q) : Inv { s with pool := q } := by
  refine ⟨hq.1, fun l hl => ?_, h.stacked⟩
  obtain ⟨h1, h2, h3⟩ := h.live l hl
  exact ⟨h1, h2.trans hq.2, h3.mono hq.2.levels⟩

/-- the newest level with a number -/
theorem newest {live : List (ℕ × SpacePool)} {n : ℕ} (h : n ∈ live.map Prod.fst) :
    ∃ t rest, (live.dropWhile fun l => l.1 ≠ n) = (n, t) :: rest := by
  induction live with
  | nil => simp at h
  | cons l live ih =>
    by_cases hl : l.1 = n
    · subst hl
      exact ⟨l.2, live, by simp⟩
    · obtain ⟨t, rest, ht⟩ := ih ((List.mem_cons.1 h).resolve_left (Ne.symm hl))
      exact ⟨t, rest, by rw [List.dropWhile_cons_of_pos (by simpa using hl), ht]⟩

theorem step_inv {b : Build} (hb : b.valgrind = false) {s s' : St} {a : Action} (h : Inv s) (hs : step b s a = some s') : Inv s' := by
  cases a with
  | alloc m sz align =>
    simp only [step] at hs
    split_ifs at hs
    obtain ⟨r, hr, rfl⟩ := Option.map_eq_some_iff.1 hs
    exact h.grows (alloc_grows h.pool hb hr)
  | mark m =>
    obtain ⟨⟨n, q⟩, hm, rfl⟩ := Option.map_eq_some_iff.1 hs
    obtain ⟨hq, hrecord⟩ := mark_grows h.pool hb hm
    have h1 := h.grows hq
    by_cases hn : n = 0
    · simpa only [hn, if_true] using h1
    · simp only [hn, if_false]
      refine ⟨h1.pool, fun l hl => ?_, List.pairwise_cons.2 ⟨fun l hl => (h1.live l hl).2.1, h1.stacked⟩⟩
      rcases List.mem_cons.1 hl with rfl | hl
      · exact ⟨hq.1, hq.1.above, hrecord hn⟩
      · exact h1.live l hl
  | drain n =>
    simp only [step] at hs
    split_ifs at hs with hn
    obtain ⟨r, hr, rfl⟩ := Option.map_eq_some_iff.1 hs
    -- the newest level with this number
    obtain ⟨t, rest, hlive⟩ := newest hn
    have hsuffix : (n, t) :: rest <:+ s.live := hlive ▸ List.dropWhile_suffix _
    obtain ⟨ht, habove, hrecord⟩ := h.live (n, t) (hsuffix.subset List.mem_cons_self)
    obtain ⟨v, hv, -, hgrows, hlevels, -⟩ := drain_spec ht h.pool habove hrecord
    obtain rfl := Option.some.inj (hv.symm.trans hr)
    have hstacked := h.stacked.sublist hsuffix.sublist
    rw [hlive]
    refine ⟨hgrows.1, fun l hl => ?_, hstacked⟩
    obtain ⟨h1, -, h3⟩ := h.live l (hsuffix.subset hl)
    refine ⟨h1, ?_, hlevels ▸ h3⟩
    rcases List.mem_cons.1 hl with rfl | hl
    · exact hgrows.2
    · exact ((List.pairwise_cons.1 hstacked).1 l hl).trans hgrows.2

theorem init_inv {b : Build} {m : Malloc} {size : ℕ} {p : SpacePool} (hsize : 0 < size ∧ size < 2 ^ 64)
    (h : shuso_pool_init b m size = some p) : PoolInv p := by
  obtain ⟨page, -, rfl⟩ := Option.map_eq_some_iff.1 h
  refine ⟨hsize, List.nodup_singleton _, ⟨_, [], rfl, rfl⟩, fun x hx => ?_, ⟨?_, ?_, ?_, ?_⟩, ?_⟩
  · rw [List.mem_singleton.1 hx]
    simp [Filled]
  · simp
  · simp
  · simp
  · simp [room]
  · rfl

/-- **Every run**: the counters add up, and every drain to a level brings back those of its mark. -/
theorem kept_of_reach {sanitize : Bool} {m : Malloc} {size : ℕ} {p : SpacePool} {s : St} (hsize : 0 < size ∧ size < 2 ^ 64)
    (hinit : shuso_pool_init (tracked sanitize) m size = some p) (h : Reach (step (tracked sanitize)) always (start p) s) : Kept s := by
  have hinv : Inv s := by
    refine h.inv ⟨init_inv hsize hinit, fun l hl => by simp [start] at hl, List.Pairwise.nil⟩ fun s a t hi _ hs => ?_
    exact step_inv rfl hi hs
  refine ⟨hinv.pool.balanced, fun n t hl => ?_⟩
  obtain ⟨ht, habove, hrecord⟩ := hinv.live (n, t) hl
  obtain ⟨v, hv, hrestored, -⟩ := drain_spec ht hinv.pool habove hrecord
  exact ⟨v, hv, hrestored⟩

end Shuttlesock.PoolSpace
