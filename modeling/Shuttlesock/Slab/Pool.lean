/-
The shared memory slab allocator (`shared_slab.c`): pages and chunks of a pool that all processes share.

Model: a `shuso_slab_page_t` is known by its place (`Ref`): the head of the list of free pages, the head of a slot, or the record of a page.
Its three fields are the functions `slab`, `next` and `prev` of a `Pool`; the low bits of `prev` are its type. The memory of the pages is
words, numbered from `pool->start` on; the words at the start of a page of small chunks are the bitmap of that page. What is fixed when the
pool is made is its `Geometry`. Pointers into the pool are addresses, 0 is NULL. `unsigned` and `uintptr_t` wrap.

A result `none` is what C has no answer for: a NULL pointer followed, a list that never ends, a list head or a tagged pointer taken for a page.

The functions of the source keep their names; `carve`, `take_first_run`, `clear_pages`, `join_next`, `join_prev` and `push_free` are pieces of
`ngx_slab_alloc_pages` and `ngx_slab_free_pages`, and `small_`, `exact_` and `big_` the branches of the others for their kind of page.
-/
import Mathlib.Tactic

namespace Shuttlesock.Slab

/-- `uintptr_t` -/
abbrev Word := BitVec 64

def NGX_SLAB_PAGE_FREE : Word := 0
def NGX_SLAB_PAGE_BUSY : Word := 0xffffffffffffffff
def NGX_SLAB_PAGE_START : Word := 0x8000000000000000
def NGX_SLAB_SHIFT_MASK : Word := 0x000000000000000f
def NGX_SLAB_MAP_MASK : Word := 0xffffffff00000000
def NGX_SLAB_MAP_SHIFT : ℕ := 32
def NGX_SLAB_BUSY : Word := 0xffffffffffffffff

/-- `sp->min_shift` -/
def min_shift : ℕ := 3

/-- what `shuso_system` and `ngx_slab_init` fix: pages of `2 ^ page_size_shift` bytes from `pool->start` on, up to `pool->last` -/
structure Geometry where
  page_size_shift : ℕ
  start : ℕ
  stop : ℕ
  pages : ℕ
  shift_ge : 9 ≤ page_size_shift
  shift_le : page_size_shift ≤ 16
  start_pos : 0 < start
  aligned : 2 ^ page_size_shift ∣ start
  pages_pos : 0 < pages
  room : start + pages * 2 ^ page_size_shift ≤ stop
  stop_lt : stop < 2 ^ 64

namespace Geometry

variable (G : Geometry)

def page_size : ℕ := 2 ^ G.page_size_shift
def max_size : ℕ := G.page_size / 2
def exact_size : ℕ := G.page_size / (8 * 8)
/-- `for (n = ngx_slab_exact_size; n >>= 1; ngx_slab_exact_shift++)` -/
def exact_shift : ℕ := Nat.log2 G.exact_size
/-- `slots[i]` for `i < n` -/
def slots : ℕ := G.page_size_shift - min_shift

/-- `ngx_slab_page_addr(pool, page)` -/
def page_addr (i : ℕ) : ℕ := (i <<< G.page_size_shift) + G.start

/-- how many chunks a page has: `ngx_pagesize >> shift` -/
def chunks (shift : ℕ) : ℕ := G.page_size >>> shift

/-- `bitmap[n]` of a page -/
def word (i n : ℕ) : ℕ := i * (G.page_size / 8) + n

/-- how many chunks the bitmap of a page of small chunks takes -/
def bitmap_chunks (shift : ℕ) : ℕ :=
  let n := G.chunks shift / ((1 <<< shift) * 8)
  if n = 0 then 1 else n

end Geometry

/-- the shift of the chunks for a request of at most `max_size` bytes -/
def chunk_shift (size : ℕ) : ℕ := if 1 <<< min_shift < size then Nat.log2 (size - 1) + 1 else min_shift

/-- where a `shuso_slab_page_t` is -/
inductive Ref where
  | free
  | slot (k : ℕ)
  | page (i : ℕ)
deriving DecidableEq, Repr

/-- `ngx_slab_page_type(page)` -/
inductive PageType where
  | page
  | big
  | exact
  | small
deriving DecidableEq, Repr

/-- `prev`: a pointer, with a type in its low bits -/
structure Prev where
  ptr : Option Ref
  type : PageType
deriving DecidableEq, Repr

/-- `(shuso_slab_page_t *) page->prev`, with the type bits left in it -/
def Prev.cast (v : Prev) : Option Ref := if v.type = .page then v.ptr else none

structure Stat where
  total : BitVec 32
  used : BitVec 32
  reqs : BitVec 32
  fails : BitVec 32
deriving DecidableEq, Repr

@[ext] structure Pool where
  slab : Ref → Word
  next : Ref → Option Ref
  prev : Ref → Prev
  mem : ℕ → Word
  pfree : BitVec 32
  stats : ℕ → Stat
  log_nomem : Bool
  errors : List String

namespace Pool

/-! ## Assignments -/

@[simps -fullyApplied] def setSlab (P : Pool) (r : Ref) (w : Word) : Pool := { P with slab := Function.update P.slab r w }
@[simps -fullyApplied] def setNext (P : Pool) (r : Ref) (x : Option Ref) : Pool := { P with next := Function.update P.next r x }
@[simps -fullyApplied] def setPrev (P : Pool) (r : Ref) (v : Prev) : Pool := { P with prev := Function.update P.prev r v }
@[simps -fullyApplied] def setWord (P : Pool) (a : ℕ) (w : Word) : Pool := { P with mem := Function.update P.mem a w }
@[simps -fullyApplied] def setStat (P : Pool) (k : ℕ) (f : Stat → Stat) : Pool := { P with stats := Function.update P.stats k (f (P.stats k)) }

/-- `page->slab = slab; page->next = NULL; page->prev = type;` -/
@[simps -fullyApplied] def setRecord (P : Pool) (r : Ref) (slab : Word) (type : PageType) : Pool :=
  { P with
    slab := Function.update P.slab r slab
    next := Function.update P.next r none
    prev := Function.update P.prev r ⟨none, type⟩ }

/-- `ngx_slab_error(pool, level, text)` -/
@[simps -fullyApplied] def error (P : Pool) (text : String) : Pool := { P with errors := P.errors ++ [text] }

/-- `ngx_memzero(&page[1], pages * sizeof(shuso_slab_page_t))` -/
def zeroRecords (P : Pool) (i k : ℕ) : Pool :=
  let hit : Ref → Bool := fun r => match r with
    | .page t => i ≤ t && t < i + k
    | _ => false
  { P with slab := fun r => if hit r then 0 else P.slab r
           next := fun r => if hit r then none else P.next r
           prev := fun r => if hit r then ⟨none, .page⟩ else P.prev r }

/-- `prev->next = page->next; page->next->prev = page->prev;` -/
def unlink (P : Pool) (prev : Option Ref) (page : Ref) : Option Pool := do
  let p ← prev
  let P := P.setNext p (P.next page)
  let n ← P.next page
  some (P.setPrev n (P.prev page))

/-! ## Pages -/

/-- `for (p = page + 1; pages; pages--)` -/
def setBusy : Pool → ℕ → ℕ → Pool
  | P, _, 0 => P
  | P, p, pages + 1 => (P.setRecord (.page p) NGX_SLAB_PAGE_BUSY .page).setBusy (p + 1) pages

/-- `page->slab > pages`: the pages behind the first ones take the place of the run in the list -/
def carve (P : Pool) (i pages : ℕ) : Option Pool := do
  let slab := (P.slab (.page i)).toNat
  let P := P.setPrev (.page (i + slab - 1)) ⟨some (.page (i + pages)), .page⟩
  let P := P.setSlab (.page (i + pages)) (P.slab (.page i) - BitVec.ofNat 64 pages)
  let P := P.setNext (.page (i + pages)) (P.next (.page i))
  let P := P.setPrev (.page (i + pages)) (P.prev (.page i))
  let p ← (P.prev (.page i)).cast
  let P := P.setNext p (some (.page (i + pages)))
  let n ← P.next (.page i)
  some (P.setPrev n ⟨some (.page (i + pages)), .page⟩)

/-- the body of the loop of `ngx_slab_alloc_pages` for the page i that has room -/
def take_first_run (P : Pool) (i pages : ℕ) : Option Pool := do
  let P ← if pages < (P.slab (.page i)).toNat then P.carve i pages else P.unlink (P.prev (.page i)).cast (.page i)
  let P := P.setRecord (.page i) (BitVec.ofNat 64 pages ||| NGX_SLAB_PAGE_START) .page
  let P := { P with pfree := P.pfree - BitVec.ofNat 32 pages }
  some (P.setBusy (i + 1) (pages - 1))

/-- `for (page = ..; page != &pool->free; page = page->next)` -/
def alloc_pages_from (pages : ℕ) : ℕ → Ref → Pool → Option (Pool × Option ℕ)
  | 0, _, _ => none
  | fuel + 1, page, P =>
    if page = .free then
      some (if P.log_nomem then P.error "ngx_slab_alloc() failed: no memory" else P, none)
    else if pages ≤ (P.slab page).toNat then
      match page with
      | .page i => (P.take_first_run i pages).map fun P => (P, some i)
      | _ => none
    else do alloc_pages_from pages fuel (← P.next page) P

/-- `ngx_slab_alloc_pages(pool, pages)` -/
def ngx_slab_alloc_pages (G : Geometry) (P : Pool) (pages : ℕ) : Option (Pool × Option ℕ) := do
  alloc_pages_from pages (G.pages + 1) (← P.next .free) P

/-- the free pages behind: `join = page + page->slab`; `pages` is one less than the length -/
def join_next (G : Geometry) (P : Pool) (i pages : ℕ) : Option (Pool × ℕ) :=
  let j := i + (P.slab (.page i)).toNat
  if j < G.pages && (P.prev (.page j)).type == .page && (P.next (.page j)).isSome then do
    let pages := pages + (P.slab (.page j)).toNat
    let P := P.setSlab (.page i) (P.slab (.page i) + P.slab (.page j))
    let P ← P.unlink (P.prev (.page j)).ptr (.page j)
    some (P.setRecord (.page j) NGX_SLAB_PAGE_FREE .page, pages)
  else some (P, pages)

/-- the free pages in front: `join = page - 1` -/
def join_prev (P : Pool) (i pages : ℕ) : Option (Pool × ℕ × ℕ) :=
  if 0 < i && (P.prev (.page (i - 1))).type == .page then do
    let join ← if P.slab (.page (i - 1)) = NGX_SLAB_PAGE_FREE then (P.prev (.page (i - 1))).ptr else some (.page (i - 1))
    if (P.next join).isSome then
      match join with
      | .page j => do
        let pages := pages + (P.slab (.page j)).toNat
        let P := P.setSlab (.page j) (P.slab (.page j) + P.slab (.page i))
        let P ← P.unlink (P.prev (.page j)).ptr (.page j)
        some (P.setRecord (.page i) NGX_SLAB_PAGE_FREE .page, j, pages)
      | _ => none
    else some (P, i, pages)
  else some (P, i, pages)

/-- the end of `ngx_slab_free_pages`: the last page leads to the first one, which goes to the front of the list -/
def push_free (P : Pool) (i pages : ℕ) : Option Pool := do
  let P := if pages ≠ 0 then P.setPrev (.page (i + pages)) ⟨some (.page i), .page⟩ else P
  let P := P.setPrev (.page i) ⟨some .free, .page⟩
  let P := P.setNext (.page i) (P.next .free)
  let n ← P.next (.page i)
  let P := P.setPrev n ⟨some (.page i), .page⟩
  some (P.setNext .free (some (.page i)))

/-- the start of `ngx_slab_free_pages`: the records of the pages are cleared, and a page of chunks leaves the list of its slot -/
def clear_pages (P : Pool) (i pages : ℕ) : Option Pool :=
  let P := { P with pfree := P.pfree + BitVec.ofNat 32 pages }
  let P := P.setSlab (.page i) (BitVec.ofNat 64 pages)
  let P := P.zeroRecords (i + 1) (pages - 1)
  if (P.next (.page i)).isSome then P.unlink (P.prev (.page i)).ptr (.page i) else some P

/-- `ngx_slab_free_pages(pool, page, pages)` -/
def ngx_slab_free_pages (G : Geometry) (P : Pool) (i pages : ℕ) : Option Pool := do
  let P ← P.clear_pages i pages
  let (P, pages) ← P.join_next G i (pages - 1)
  let (P, i, pages) ← P.join_prev i pages
  P.push_free i pages

/-! ## Chunks -/

/-- `for (m = 1, i = 0; m; m <<= 1, i++) { if (w & m) continue; .. }` -/
def clear_bit (w : Word) : Option ℕ := (List.range 64).find? fun i => w &&& 1#64 <<< i == 0

/-- a page whose last chunk is taken leaves the list of its slot -/
def take_off (P : Pool) (i : ℕ) (type : PageType) : Option Pool := do
  let P ← P.unlink (P.prev (.page i)).ptr (.page i)
  some ((P.setNext (.page i) none).setPrev (.page i) ⟨none, type⟩)

/-- a full page whose first chunk is given back goes to the front of the list of its slot -/
def put_back (P : Pool) (i slot : ℕ) (type : PageType) : Option Pool := do
  let P := P.setNext (.page i) (P.next (.slot slot))
  let P := P.setNext (.slot slot) (some (.page i))
  let P := P.setPrev (.page i) ⟨some (.slot slot), type⟩
  let n ← P.next (.page i)
  some (P.setPrev n ⟨some (.page i), type⟩)

section

variable (G : Geometry)

def small_search (P : Pool) (i shift : ℕ) : Option (ℕ × ℕ) :=
  (List.range (G.chunks shift / 64)).findSome? fun n =>
    if P.mem (G.word i n) = NGX_SLAB_BUSY then none else (clear_bit (P.mem (G.word i n))).map fun b => (n, b)

def small_take (P : Pool) (i shift slot n b : ℕ) : Option (Pool × ℕ) := do
  let P := P.setWord (G.word i n) (P.mem (G.word i n) ||| 1#64 <<< b)
  let p := G.page_addr i + ((n * 64 + b) <<< shift)
  let P := P.setStat slot fun s => { s with used := s.used + 1 }
  let full := (List.range (G.chunks shift / 64)).all fun k => k < n || P.mem (G.word i k) == NGX_SLAB_BUSY
  let P ← if full then P.take_off i .small else some P
  some (P, p)

def exact_take (P : Pool) (i shift slot b : ℕ) : Option (Pool × ℕ) := do
  let P := P.setSlab (.page i) (P.slab (.page i) ||| 1#64 <<< b)
  let P ← if P.slab (.page i) = NGX_SLAB_BUSY then P.take_off i .exact else some P
  let p := G.page_addr i + (b <<< shift)
  some (P.setStat slot fun s => { s with used := s.used + 1 }, p)

/-- the bits of the chunks of a page of big chunks -/
def big_mask (shift : ℕ) : Word := (1#64 <<< G.chunks shift - 1) <<< NGX_SLAB_MAP_SHIFT

def big_search (P : Pool) (i shift : ℕ) : Option ℕ :=
  ((List.range 64).takeWhile fun b => 1#64 <<< (NGX_SLAB_MAP_SHIFT + b) &&& big_mask G shift != 0).find? fun b =>
    P.slab (.page i) &&& 1#64 <<< (NGX_SLAB_MAP_SHIFT + b) == 0

def big_take (P : Pool) (i shift slot b : ℕ) : Option (Pool × ℕ) := do
  let P := P.setSlab (.page i) (P.slab (.page i) ||| 1#64 <<< (NGX_SLAB_MAP_SHIFT + b))
  let P ← if P.slab (.page i) &&& NGX_SLAB_MAP_MASK = big_mask G shift then P.take_off i .big else some P
  let p := G.page_addr i + (b <<< shift)
  some (P.setStat slot fun s => { s with used := s.used + 1 }, p)

/-- a chunk of the first page of the slot; the inner result is `none` where no chunk of the page is free -/
def take_chunk (P : Pool) (i shift slot : ℕ) : Option (Option (Pool × ℕ)) :=
  if shift < G.exact_shift then
    match P.small_search G i shift with
    | some (n, b) => (P.small_take G i shift slot n b).map some
    | none => some none
  else if shift = G.exact_shift then
    match clear_bit (P.slab (.page i)) with
    | some b => (P.exact_take G i shift slot b).map some
    | none => some none
  else
    match P.big_search G i shift with
    | some b => (P.big_take G i shift slot b).map some
    | none => some none

/-- `page->next = &slots[slot]; page->prev = &slots[slot] | type; slots[slot].next = page;` -/
def list_alone (P : Pool) (i slot : ℕ) (type : PageType) : Pool :=
  ((P.setNext (.page i) (some (.slot slot))).setPrev (.page i) ⟨some (.slot slot), type⟩).setNext (.slot slot) (some (.page i))

/-- the bitmap of a new page of small chunks: the chunks that it takes itself and one more are in use -/
def small_bitmap (shift k : ℕ) : Word :=
  let n := G.bitmap_chunks shift
  if k < (n + 1) / 64 then NGX_SLAB_BUSY else if k = (n + 1) / 64 then 1#64 <<< ((n + 1) % 64) - 1 else 0

def small_fresh (P : Pool) (i shift slot : ℕ) : Pool × ℕ :=
  let n := G.bitmap_chunks shift
  -- `bitmap[(n + 1) / 64]` is written in any case
  let P := { P with
    mem := fun a =>
      if G.word i 0 ≤ a ∧ a < G.word i (max (G.chunks shift / 64) ((n + 1) / 64 + 1)) then small_bitmap G shift (a - G.word i 0)
      else P.mem a }
  let P := P.setSlab (.page i) (BitVec.ofNat 64 shift)
  let P := P.list_alone i slot .small
  let P := P.setStat slot fun s => { s with total := s.total + BitVec.ofNat 32 (G.chunks shift - n), used := s.used + 1 }
  (P, G.page_addr i + (n <<< shift))

def exact_fresh (P : Pool) (i slot : ℕ) : Pool × ℕ :=
  let P := P.setSlab (.page i) 1
  let P := P.list_alone i slot .exact
  let P := P.setStat slot fun s => { s with total := s.total + 64, used := s.used + 1 }
  (P, G.page_addr i)

def big_fresh (P : Pool) (i shift slot : ℕ) : Pool × ℕ :=
  let P := P.setSlab (.page i) (1#64 <<< NGX_SLAB_MAP_SHIFT ||| BitVec.ofNat 64 shift)
  let P := P.list_alone i slot .big
  let P := P.setStat slot fun s => { s with total := s.total + BitVec.ofNat 32 (G.chunks shift), used := s.used + 1 }
  (P, G.page_addr i)

/-- `ngx_slab_alloc_locked` from `page = ngx_slab_alloc_pages(pool, 1)` on -/
def fresh_page (P : Pool) (shift slot : ℕ) : Option (Pool × ℕ) := do
  let (P, page) ← P.ngx_slab_alloc_pages G 1
  match page with
  | some i =>
    if shift < G.exact_shift then some (P.small_fresh G i shift slot)
    else if shift = G.exact_shift then some (P.exact_fresh G i slot)
    else some (P.big_fresh G i shift slot)
  | none => some (P.setStat slot fun s => { s with fails := s.fails + 1 }, 0)

/-- `ngx_slab_alloc_locked(pool, size)` -/
def ngx_slab_alloc_locked (P : Pool) (size : ℕ) : Option (Pool × ℕ) := do
  if G.max_size < size then
    let pages := size >>> G.page_size_shift + (if size % G.page_size ≠ 0 then 1 else 0)
    let (P, page) ← P.ngx_slab_alloc_pages G pages
    some (P, match page with
      | some i => G.page_addr i
      | none => 0)
  else
    let shift := chunk_shift size
    let slot := shift - min_shift
    let P := P.setStat slot fun s => { s with reqs := s.reqs + 1 }
    let page ← P.next (.slot slot)
    if P.next page ≠ some page then
      match page with
      | .page i =>
        match ← P.take_chunk G i shift slot with
        | some (P, p) => some (P, p)
        | none => (P.error "ngx_slab_alloc(): page is busy").fresh_page G shift slot
      | _ => none
    else P.fresh_page G shift slot

/-- `memset(p, 0, size)`, bytes in the order of a little endian machine -/
def memzero (P : Pool) (p size : ℕ) : Pool :=
  let w := (p - G.start) / 8
  { P with
    mem := fun a =>
      if w ≤ a ∧ a < w + size / 8 then 0
      else if a = w + size / 8 then P.mem a &&& ~~~(1#64 <<< (8 * (size % 8)) - 1)
      else P.mem a }

/-- `ngx_slab_calloc_locked(pool, size)` -/
def ngx_slab_calloc_locked (P : Pool) (size : ℕ) : Option (Pool × ℕ) := do
  let (P, p) ← P.ngx_slab_alloc_locked G size
  some (if p ≠ 0 then P.memzero G p size else P, p)

/-! ## Giving back -/

/-- the page of a chunk that was given back is given back itself, when no chunk of it is in use -/
def release_page (P : Pool) (i slot chunks : ℕ) (empty : Bool) : Option Pool := do
  let P ← if empty then do
      let P ← P.ngx_slab_free_pages G i 1
      some (P.setStat slot fun s => { s with total := s.total - BitVec.ofNat 32 chunks })
    else some P
  some (P.setStat slot fun s => { s with used := s.used - 1 })

def wrong_chunk (P : Pool) : Option Pool := some (P.error "ngx_slab_free(): pointer to wrong chunk")
def chunk_already_free (P : Pool) : Option Pool := some (P.error "ngx_slab_free(): chunk is already free")

def small_free (P : Pool) (i p : ℕ) : Option Pool :=
  let shift := (P.slab (.page i) &&& NGX_SLAB_SHIFT_MASK).toNat
  let size := 1 <<< shift
  if (p &&& (size - 1)) ≠ 0 then P.wrong_chunk else
  let c := (p &&& (G.page_size - 1)) >>> shift
  let m := 1#64 <<< (c % 64)
  if P.mem (G.word i (c / 64)) &&& m ≠ 0 then do
    let slot := shift - min_shift
    let P ← if (P.next (.page i)).isNone then P.put_back i slot .small else some P
    let P := P.setWord (G.word i (c / 64)) (P.mem (G.word i (c / 64)) &&& ~~~m)
    let n := G.bitmap_chunks shift
    let m := 1#64 <<< (n % 64) - 1
    let empty := P.mem (G.word i (n / 64)) &&& ~~~m == 0 &&
      (List.range (G.chunks shift / 64)).all fun k => k ≤ n / 64 || P.mem (G.word i k) == 0
    P.release_page G i slot (G.chunks shift - n) empty
  else P.chunk_already_free

def exact_free (P : Pool) (i p : ℕ) : Option Pool :=
  let m := 1#64 <<< ((p &&& (G.page_size - 1)) >>> G.exact_shift)
  if (p &&& (G.exact_size - 1)) ≠ 0 then P.wrong_chunk else
  if P.slab (.page i) &&& m ≠ 0 then do
    let slot := G.exact_shift - min_shift
    let P ← if P.slab (.page i) = NGX_SLAB_BUSY then P.put_back i slot .exact else some P
    let P := P.setSlab (.page i) (P.slab (.page i) &&& ~~~m)
    P.release_page G i slot 64 (P.slab (.page i) == 0)
  else P.chunk_already_free

def big_free (P : Pool) (i p : ℕ) : Option Pool :=
  let shift := (P.slab (.page i) &&& NGX_SLAB_SHIFT_MASK).toNat
  let size := 1 <<< shift
  if (p &&& (size - 1)) ≠ 0 then P.wrong_chunk else
  let m := 1#64 <<< ((p &&& (G.page_size - 1)) >>> shift + NGX_SLAB_MAP_SHIFT)
  if P.slab (.page i) &&& m ≠ 0 then do
    let slot := shift - min_shift
    let P ← if (P.next (.page i)).isNone then P.put_back i slot .big else some P
    let P := P.setSlab (.page i) (P.slab (.page i) &&& ~~~m)
    P.release_page G i slot (G.chunks shift) (P.slab (.page i) &&& NGX_SLAB_MAP_MASK == 0)
  else P.chunk_already_free

def page_free (P : Pool) (i p : ℕ) : Option Pool :=
  let slab := P.slab (.page i)
  if (p &&& (G.page_size - 1)) ≠ 0 then P.wrong_chunk
  else if slab &&& NGX_SLAB_PAGE_START = 0 then some (P.error "ngx_slab_free(): page is already free")
  else if slab = NGX_SLAB_PAGE_BUSY then some (P.error "ngx_slab_free(): pointer to wrong page")
  else P.ngx_slab_free_pages G i (slab &&& ~~~NGX_SLAB_PAGE_START).toNat

/-- `ngx_slab_free_locked(pool, p)` -/
def ngx_slab_free_locked (P : Pool) (p : ℕ) : Option Pool :=
  if p < G.start || G.stop < p then some (P.error "ngx_slab_free(): outside of pool") else
  let i := (p - G.start) >>> G.page_size_shift
  match (P.prev (.page i)).type with
  | .small => P.small_free G i p
  | .exact => P.exact_free G i p
  | .big => P.big_free G i p
  | .page => P.page_free G i p

/-! ## A new pool -/

/-- what `ngx_slab_init` leaves in the memory of a new mapping, which is zero -/
def ngx_slab_init : Pool where
  slab r := if r = .page 0 then BitVec.ofNat 64 G.pages else 0
  next r := match r with
    | .free => some (.page 0)
    | .slot k => if k < G.slots then some (.slot k) else none
    | .page i => if i = 0 then some .free else none
  prev r := if r = .page 0 then ⟨some .free, .page⟩ else ⟨none, .page⟩
  mem _ := 0
  pfree := BitVec.ofNat 32 G.pages
  stats _ := ⟨0, 0, 0, 0⟩
  log_nomem := false
  errors := []

end

end Pool

end Shuttlesock.Slab
