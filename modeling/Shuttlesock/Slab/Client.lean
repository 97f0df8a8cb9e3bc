/-
The processes that share a slab pool (`shared_slab.c`): whatever they ask for, give back and write, in any order.

Model: one state for all of them, as every call holds the mutex of the pool. `live` are the blocks that were handed out and not given
back, with the size that was asked for; `bytes` is what their owners know of their memory; `asked` are the requests and the answers.
A step is `legal` when only blocks of `live` are given back and written.

Results, for every state that legal steps reach from a new pool:
- `runs_safe`: every legal call is answered and none reports an error; the blocks are in the pool, aligned and apart;
- `runs_keep`: the owners find in their blocks what they wrote, and zeros after `ngx_slab_calloc_locked`;
- `answered_iff`: a request is refused only when there is no room, in terms of the blocks alone;
- `runs_counters`: `pfree` and the statistics of the slots are right.
-/
import Mathlib.Tactic
import Shuttlesock.Core.Runs
import Shuttlesock.Slab.Bytes

namespace Shuttlesock.Slab

open Shuttlesock.Tiling Shuttlesock.Blocks Shuttlesock.Runs

inductive Op where
  | alloc (size : ℕ)
  | calloc (size : ℕ)
  | free (p : ℕ)
  | write (a : ℕ) (x : BitVec 8)

structure Client where
  pool : Pool
  live : List Block
  bytes : ℕ → Option (BitVec 8)
  asked : List (ℕ × ℕ)

/-- a request for `size` bytes was answered by p -/
def Client.got (c : Client) (P : Pool) (p size : ℕ) (bytes : ℕ → Option (BitVec 8)) : Client :=
  if p = 0 then { c with pool := P, asked := (size, p) :: c.asked }
  else { pool := P, live := ⟨p, size⟩ :: c.live, bytes := bytes, asked := (size, p) :: c.asked }

section

variable (G : Geometry)

def Client.init : Client := ⟨Pool.ngx_slab_init G, [], fun _ => none, []⟩

def step (c : Client) : Op → Option Client
  | .alloc size => (c.pool.ngx_slab_alloc_locked G size).map fun r => c.got r.1 r.2 size c.bytes
  | .calloc size => (c.pool.ngx_slab_calloc_locked G size).map fun r =>
      c.got r.1 r.2 size fun a => if r.2 ≤ a ∧ a < r.2 + size then some 0 else c.bytes a
  | .free p => (c.pool.ngx_slab_free_locked G p).map fun P =>
      let live := c.live.filter fun b => b.addr ≠ p
      -- nobody knows the bytes of the block any more
      { c with
        pool := P
        live := live
        bytes := fun a => if live.any fun b => b.addr ≤ a && a < b.stop then c.bytes a else none }
  | .write a x => some { c with pool := c.pool.store G a x, bytes := Function.update c.bytes a (some x) }

end

def legal (c : Client) : Op → Prop
  | .free p => ∃ b ∈ c.live, b.addr = p
  | .write a _ => ∃ b ∈ c.live, b.addr ≤ a ∧ a < b.stop
  | _ => True

/-- what holds of the pool and the processes between two steps -/
structure Good (G : Geometry) (c : Client) (L : List Seg) : Prop where
  inv : Inv G c.pool L
  blocks : ∀ b, Live G L b ↔ ∃ a ∈ c.live, b = ⟨a.addr, capacity G a.size⟩
  nodup : (c.live.map Block.addr).Nodup
  bytes : ∀ a x, c.bytes a = some x → (∃ b ∈ c.live, b.addr ≤ a ∧ a < b.stop) ∧ c.pool.load G a = x
  errors : c.pool.errors = []
  reqs : ∀ k, (c.pool.stats k).reqs = BitVec.ofNat 32 (c.asked.countP fun r => Asks G r.1 k)
  fails : ∀ k, (c.pool.stats k).fails = BitVec.ofNat 32 (c.asked.countP fun r => Asks G r.1 k ∧ r.2 = 0)

variable {G : Geometry} {c c' : Client} {P P' P'' : Pool} {L L' : List Seg} {a b : Block} {k p q size : ℕ}
  {bytes : ℕ → Option (BitVec 8)} {op : Op}

theorem le_capacity (G : Geometry) (size : ℕ) : size ≤ capacity G size := by
  unfold capacity
  split_ifs
  · have hdiv := Nat.div_add_mod size G.page_size
    have hmod := Nat.mod_lt size G.page_size_pos
    have hshift : size >>> G.page_size_shift = size / G.page_size := Nat.shiftRight_eq_div_pow _ _
    rw [page_count, hshift, Nat.add_mul, Nat.mul_comm (size / G.page_size)]
    split_ifs with h
    · omega
    · rw [not_not] at h
      omega
  · exact le_chunk size

/-- the block that a process has is part of the block of the allocator -/
theorem Good.live (h : Good G c L) (ha : a ∈ c.live) : Live G L ⟨a.addr, capacity G a.size⟩ := (h.blocks _).2 ⟨a, ha, rfl⟩

theorem within_capacity (G : Geometry) (a : Block) : Within a ⟨a.addr, capacity G a.size⟩ :=
  ⟨le_rfl, Nat.add_le_add_left (le_capacity G a.size) _⟩

theorem Good.addr_inj (h : Good G c L) (ha : a ∈ c.live) (hb : b ∈ c.live) (he : a.addr = b.addr) : a = b :=
  List.inj_on_of_nodup_map h.nodup ha hb he

theorem init_good (G : Geometry) : Good G (Client.init G) [.free G.pages] := by
  refine ⟨init_inv G, fun b => ?_, List.nodup_nil, fun a x h => absurd h (by simp [Client.init]), rfl,
    fun k => rfl, fun k => rfl⟩
  simp [live_iff, Seg.Has, Client.init]

/-- an answered request -/
theorem Good.got (h : Good G c L) (hallocs : Allocs G size L L' p) (hinv : Inv G P L')
    (hload : ∀ b a, Live G L b → b.addr ≤ a → a < b.stop → P.load G a = c.pool.load G a) (herrors : P.errors = c.pool.errors)
    (hreqs : ∀ k, (P.stats k).reqs = (c.pool.stats k).reqs + if Asks G size k then 1 else 0)
    (hfails : ∀ k, (P.stats k).fails = (c.pool.stats k).fails + if Asks G size k ∧ p = 0 then 1 else 0)
    (hbytes : ∀ a x, bytes a = some x → p ≤ a ∧ a < p + size ∧ P.load G a = x ∨ c.bytes a = some x) :
    Good G (c.got P p size bytes) L' := by
  have hcount : ∀ n (q : Prop) [Decidable q], BitVec.ofNat 32 n + (if q then 1 else 0) = BitVec.ofNat 32 (n + if q then 1 else 0) := by
    intro n q _
    split_ifs
    · exact (ofNat_add n 1).symm
    · simp
  have hreqs' : ∀ k, (P.stats k).reqs = BitVec.ofNat 32 (((size, p) :: c.asked).countP fun r => Asks G r.1 k) := by
    intro k
    rw [hreqs, h.reqs, List.countP_cons, hcount]
    simp
  have hfails' : ∀ k, (P.stats k).fails = BitVec.ofNat 32 (((size, p) :: c.asked).countP fun r => Asks G r.1 k ∧ r.2 = 0) := by
    intro k
    rw [hfails, h.fails, List.countP_cons, hcount]
    simp
  have hold : ∀ a x, c.bytes a = some x → (∃ b ∈ c.live, b.addr ≤ a ∧ a < b.stop) ∧ P.load G a = x := by
    intro a x hx
    obtain ⟨⟨b, hb, h1, h2⟩, h3⟩ := h.bytes a x hx
    exact ⟨⟨b, hb, h1, h2⟩, (hload _ a (h.live hb) h1 (h2.trans_le (within_capacity G b).2)).trans h3⟩
  unfold Client.got
  split_ifs with hp
  · subst hp
    obtain rfl := allocs_zero hallocs
    exact ⟨hinv, h.blocks, h.nodup, hold, herrors.trans h.errors, hreqs', hfails'⟩
  · have hlive := fun b => allocs_live (b := b) hallocs hp
    refine ⟨hinv, fun b => ?_, ?_, fun a x hx => ?_, herrors.trans h.errors, hreqs', hfails'⟩
    · rw [hlive, h.blocks]
      simp
    · refine List.nodup_cons.2 ⟨fun hmem => ?_, h.nodup⟩
      obtain ⟨a, ha, he⟩ := List.mem_map.1 hmem
      have he' : a.addr = p := he
      have hapart := allocs_apart h.inv.laid hinv.laid hallocs hp (h.live ha)
      have h1 := (live_inside hinv.laid ((hlive _).2 (.inl rfl))).2.2
      have h2 := (live_inside h.inv.laid (h.live ha)).2.2
      simp only [Apart, Block.stop] at hapart h1 h2
      omega
    · rcases hbytes a x hx with ⟨h1, h2, h3⟩ | hx
      · exact ⟨⟨_, List.mem_cons_self, h1, h2⟩, h3⟩
      · obtain ⟨⟨b, hb, hab⟩, h3⟩ := hold a x hx
        exact ⟨⟨b, List.mem_cons_of_mem _ hb, hab⟩, h3⟩

/-- addresses of words are multiples of 8, and so are those of blocks -/
theorem live_words (hL : Laid G L) (hb : Live G L b) : 8 ∣ b.addr - G.start := by
  have hstart : 8 ∣ G.start := (pow_dvd_pow 2 (show 3 ≤ G.page_size_shift by have := G.shift_ge; omega)).trans G.aligned
  refine Nat.dvd_sub ?_ hstart
  rcases live_aligned hL hb with ⟨shift, h3, -, hdvd⟩ | ⟨-, hdvd⟩
  · exact (pow_dvd_pow 2 h3).trans hdvd
  · exact (pow_dvd_pow 2 (show 3 ≤ G.page_size_shift by have := G.shift_ge; omega)).trans hdvd

theorem alloc_good (h : Good G c L) (size : ℕ) : ∃ c' L', step G c (.alloc size) = some c' ∧ Good G c' L' := by
  obtain ⟨P', p, L', hrun, hallocs, hinv, hserved⟩ := alloc_refines h.inv size
  refine ⟨c.got P' p size c.bytes, L', by rw [step, hrun]; rfl, h.got hallocs hinv (fun b a hb h1 h2 => ?_) hserved.errors hserved.reqs
    hserved.fails fun a x hx => .inr hx⟩
  have hb' : Live G L' b := by
    by_cases hp : p = 0
    · subst hp
      rw [allocs_zero hallocs]
      exact hb
    · exact (allocs_live hallocs hp).2 (.inr hb)
  exact hserved.load hinv.laid hb' h1 h2

theorem calloc_good (h : Good G c L) (size : ℕ) : ∃ c' L', step G c (.calloc size) = some c' ∧ Good G c' L' := by
  obtain ⟨P', p, L', hrun, hallocs, hinv, hserved⟩ := alloc_refines h.inv size
  have hstep : step G c (.calloc size) = some (c.got (if p ≠ 0 then P'.memzero G p size else P') p size fun a =>
      if p ≤ a ∧ a < p + size then some 0 else c.bytes a) := by
    simp only [step, Pool.ngx_slab_calloc_locked, hrun, Option.bind_eq_bind, Option.bind_some, Option.map_some]
  refine ⟨_, L', hstep, ?_⟩
  by_cases hp : p = 0
  · subst hp
    rw [if_neg (not_not.2 rfl)]
    obtain rfl := allocs_zero hallocs
    have hgot : Good G (c.got P' 0 size c.bytes) _ := h.got hallocs hinv (fun b a hb h1 h2 => hserved.load hinv.laid hb h1 h2)
      hserved.errors hserved.reqs hserved.fails fun a x hx => .inr hx
    unfold Client.got at hgot ⊢
    simpa using hgot
  · rw [if_pos hp]
    have hnew : Live G L' ⟨p, capacity G size⟩ := (allocs_live hallocs hp).2 (.inl rfl)
    have hstart := (live_inside hinv.laid hnew).1
    have hwords := live_words hinv.laid hnew
    have hw : Writes G P' (P'.memzero G p size) ⟨p, capacity G size⟩ := memzero_writes hstart hwords rfl (le_capacity G size)
    refine h.got hallocs (hinv.writes hnew hw) (fun b a hb h1 h2 => ?_) (hw.errors.trans hserved.errors) (fun k => ?_) (fun k => ?_)
      fun a x hx => ?_
    · have hapart := allocs_apart h.inv.laid hinv.laid hallocs hp hb
      have hin := (live_inside h.inv.laid hb).1
      rw [hw.load a (by omega) (by simp only [Apart, Block.stop] at hapart h2 ⊢; omega)]
      exact hserved.load hinv.laid ((allocs_live hallocs hp).2 (.inr hb)) h1 h2
    · rw [hw.stats]
      exact hserved.reqs k
    · rw [hw.stats]
      exact hserved.fails k
    · simp only at hx hstart
      split_ifs at hx with ha
      · cases hx
        exact .inl ⟨ha.1, ha.2, by rw [memzero_load hstart hwords (by omega), if_pos ha]⟩
      · exact .inr hx

theorem free_good (h : Good G c L) (hok : legal c (.free p)) : ∃ c' L', step G c (.free p) = some c' ∧ Good G c' L' := by
  obtain ⟨b, hb, rfl⟩ := hok
  obtain ⟨P', L', hrun, hfrees, hinv, hreturned⟩ := free_refines h.inv (h.live hb)
  refine ⟨_, L', by rw [step, hrun]; rfl, hinv, fun d => ?_, ?_, fun a x hx => ?_, hreturned.errors.trans h.errors,
    fun k => (hreturned.reqs k).trans (h.reqs k), fun k => (hreturned.fails k).trans (h.fails k)⟩
  · rw [frees_live h.inv.laid hfrees, h.blocks]
    simp only [List.mem_filter, decide_eq_true_eq]
    constructor
    · rintro ⟨⟨a, ha, rfl⟩, hne⟩
      exact ⟨a, ⟨ha, hne⟩, rfl⟩
    · rintro ⟨a, ⟨ha, hne⟩, rfl⟩
      exact ⟨⟨a, ha, rfl⟩, hne⟩
  · exact h.nodup.sublist (List.filter_sublist.map _)
  · simp only at hx
    split_ifs at hx with hany
    obtain ⟨d, hd, hda⟩ := List.any_eq_true.1 hany
    simp only [Bool.and_eq_true, decide_eq_true_eq] at hda
    refine ⟨⟨d, hd, hda⟩, ?_⟩
    have hlive := h.live (List.mem_of_mem_filter hd)
    exact (hreturned.load h.inv.laid hlive hda.1 (hda.2.trans_le (within_capacity G d).2)).trans (h.bytes a x hx).2

theorem write_good {a : ℕ} {x : BitVec 8} (h : Good G c L) (hok : legal c (.write a x)) :
    ∃ c' L', step G c (.write a x) = some c' ∧ Good G c' L' := by
  obtain ⟨b, hb, h1, h2⟩ := hok
  have hlive := h.live hb
  have hstart := (live_inside h.inv.laid hlive).1
  have hw : Writes G c.pool (c.pool.store G a x) ⟨b.addr, capacity G b.size⟩ :=
    store_writes hstart h1 (h2.trans_le (within_capacity G b).2)
  refine ⟨_, L, rfl, h.inv.writes hlive hw, h.blocks, h.nodup, fun a' y hy => ?_, hw.errors.trans h.errors, fun k => ?_, fun k => ?_⟩
  · simp only [Function.update_apply] at hy
    split_ifs at hy with he
    · cases hy
      subst he
      exact ⟨⟨b, hb, h1, h2⟩, load_store _ _ _⟩
    · obtain ⟨⟨d, hd, h3, h4⟩, h5⟩ := h.bytes a' y hy
      have hin := (live_inside h.inv.laid (h.live hd)).1
      simp only at hin hstart
      exact ⟨⟨d, hd, h3, h4⟩, (load_store_ne (by omega) (by omega) he).trans h5⟩
  · rw [hw.stats]
    exact h.reqs k
  · rw [hw.stats]
    exact h.fails k

theorem step_good (h : Good G c L) (hok : legal c op) : ∃ c' L', step G c op = some c' ∧ Good G c' L' := by
  cases op with
  | alloc size => exact alloc_good h size
  | calloc size => exact calloc_good h size
  | free p => exact free_good h hok
  | write a x => exact write_good h hok

theorem run_good (h : Reach (step G) legal (Client.init G) c) : ∃ L, Good G c L := by
  refine h.inv (I := fun c => ∃ L, Good G c L) ⟨_, init_good G⟩ fun s op t ⟨L, hs⟩ hok hst => ?_
  obtain ⟨c', L', hc', hgood⟩ := step_good hs hok
  rw [hst] at hc'
  cases hc'
  exact ⟨L', hgood⟩

/-! ## Results -/

/-- the address of a block for a request is a multiple of the size of its chunks, or of a page -/
theorem capacity_aligned (hL : Laid G L) (hb : Live G L ⟨p, capacity G size⟩) :
    (if G.max_size < size then G.page_size else 2 ^ chunk_shift size) ∣ p := by
  obtain ⟨j, s, hat, hb⟩ := hb
  have hpage : G.page_size ∣ G.page_addr j := by
    rw [G.page_addr_eq]
    exact Nat.dvd_add (Nat.dvd_mul_left _ _) G.aligned
  cases s with
  | free n => exact hb.elim
  | held n => exact hb.elim
  | run n =>
    obtain rfl : p = G.page_addr j := congrArg Block.addr hb
    split_ifs with h
    · exact hpage
    · exact (pow_dvd_pow 2 (chunk_shift_lt G (Nat.le_of_not_lt h)).le).trans hpage
  | chunks shift used =>
    obtain ⟨d, hd, he⟩ := hb
    obtain ⟨h3, hs, hu⟩ := hat.valid hL
    obtain rfl : p = G.page_addr j + d * 2 ^ shift := congrArg Block.addr he
    have hcap : capacity G size = 2 ^ shift := congrArg Block.size he
    unfold capacity at hcap
    split_ifs at hcap ⊢ with h
    · -- a block of pages is larger than a chunk
      have h1 := Nat.mul_le_mul_right G.page_size (page_count_pos h)
      have h2 := Nat.pow_lt_pow_right (show 1 < 2 by norm_num) hs
      have hps : G.page_size = 2 ^ G.page_size_shift := rfl
      omega
    · rw [Nat.pow_right_injective le_rfl hcap]
      exact Nat.dvd_add ((pow_dvd_pow 2 hs.le).trans hpage) (Nat.dvd_mul_left _ _)

/-- **Safety.** Whatever the processes do with their own blocks, in any order, no call fails, no error is reported, and the blocks are in
the pool, aligned, and apart. -/
theorem runs_safe (h : Reach (step G) legal (Client.init G) c) :
    (∀ op, legal c op → (step G c op).isSome) ∧ c.pool.errors = [] ∧
    (∀ b ∈ c.live, G.start ≤ b.addr ∧ b.stop ≤ G.start + G.pages * G.page_size ∧
      (if G.max_size < b.size then G.page_size else 2 ^ chunk_shift b.size) ∣ b.addr) ∧
    c.live.Pairwise Apart := by
  obtain ⟨L, hgood⟩ := run_good h
  refine ⟨fun op hop => ?_, hgood.errors, fun b hb => ?_, ?_⟩
  · obtain ⟨c', -, hc', -⟩ := step_good hgood hop
    rw [hc']
    rfl
  · have hlive := hgood.live hb
    obtain ⟨h1, h2, -⟩ := live_inside hgood.inv.laid hlive
    exact ⟨h1, (within_capacity G b).2.trans h2, capacity_aligned hgood.inv.laid hlive⟩
  · refine (List.pairwise_map.1 hgood.nodup).imp_of_mem fun {a b} ha hb hne => ?_
    rcases live_apart hgood.inv.laid (hgood.live ha) (hgood.live hb) with he | hapart
    · exact absurd (congrArg Block.addr he) hne
    · exact hapart.within (within_capacity G a) (within_capacity G b)

/-- a pool of four pages -/
def four_pages : Geometry where
  page_size_shift := 12
  start := 4096
  stop := 20480
  pages := 4
  shift_ge := by decide
  shift_le := by decide
  start_pos := by decide
  aligned := by decide
  pages_pos := by decide
  room := by decide
  stop_lt := by decide

theorem runs_safe_calloc : ∃ c, step four_pages (Client.init four_pages) (.calloc 8) = some c ∧
    (step four_pages c (.free 4160)).isSome ∧ c.live.Pairwise Apart :=
  have hsafe := runs_safe (.next (a := .calloc 8) .init trivial rfl)
  ⟨_, rfl, hsafe.1 (.free 4160) ⟨_, List.mem_cons_self, rfl⟩, hsafe.2.2.2⟩

/-- **Contents.** A process finds in its blocks what it wrote there. -/
theorem runs_keep {x : BitVec 8} {a : ℕ} (h : Reach (step G) legal (Client.init G) c) (hx : c.bytes a = some x) :
    c.pool.load G a = x := by
  obtain ⟨L, hgood⟩ := run_good h
  exact (hgood.bytes a x hx).2

theorem runs_keep_calloc : ∃ c, step four_pages (Client.init four_pages) (.calloc 8) = some c ∧ c.pool.load four_pages 4160 = 0 :=
  ⟨_, rfl, runs_keep (.next (a := .calloc 8) .init trivial rfl) rfl⟩

/-- no block has bytes of page q -/
def Client.Bare (G : Geometry) (c : Client) (q : ℕ) : Prop :=
  ∀ b ∈ c.live, Apart ⟨b.addr, capacity G b.size⟩ ⟨G.page_addr q, G.page_size⟩

/-- there are pages for the request, or a chunk of its size on a page of such chunks -/
def Client.Room (G : Geometry) (c : Client) (size : ℕ) : Prop :=
  if G.max_size < size then ∃ j, j + page_count G size ≤ G.pages ∧ ∀ q, j ≤ q → q < j + page_count G size → c.Bare G q
  else (∃ q < G.pages, c.Bare G q) ∨
    ∃ q d, (∃ b ∈ c.live, capacity G b.size = 2 ^ chunk_shift size ∧ G.page_addr q ≤ b.addr ∧ b.addr < G.page_addr (q + 1)) ∧
      G.reserved (chunk_shift size) ≤ d ∧ d < G.chunks (chunk_shift size) ∧
      ∀ b ∈ c.live, b.addr ≠ G.page_addr q + d * 2 ^ chunk_shift size

theorem Good.bare_iff (h : Good G c L) : c.Bare G q ↔ Untouched G L q := by
  constructor
  · intro hb b hlive
    obtain ⟨a, ha, rfl⟩ := (h.blocks b).1 hlive
    exact hb a ha
  · exact fun hu b hb => hu _ (h.live hb)

theorem Good.pages_iff (h : Good G c L) (hk : 0 < k) :
    (∃ n, .free n ∈ L ∧ k ≤ n) ↔ ∃ j, j + k ≤ G.pages ∧ ∀ q, j ≤ q → q < j + k → c.Bare G q := by
  rw [fits_iff h.inv.laid h.inv.settled hk]
  simp only [h.bare_iff]

theorem Good.page_iff (h : Good G c L) : (∃ n, .free n ∈ L) ↔ ∃ q < G.pages, c.Bare G q := by
  have hpages := h.pages_iff Nat.one_pos
  constructor
  · rintro ⟨n, hn⟩
    obtain ⟨j, h1, h2⟩ := hpages.1 ⟨n, hn, h.inv.laid.len_pos _ hn⟩
    exact ⟨j, by omega, h2 j le_rfl (by omega)⟩
  · rintro ⟨q, h1, h2⟩
    obtain ⟨n, hn, -⟩ := hpages.2 ⟨q, by omega, fun t ht ht' => by rwa [show t = q by omega]⟩
    exact ⟨n, hn⟩

/-- a page of chunks that is not full, in terms of blocks -/
theorem Good.chunk_iff (h : Good G c L) (hsize : size ≤ G.max_size) :
    (∃ used, .chunks (chunk_shift size) used ∈ L ∧ ¬ Full G (chunk_shift size) used) ↔
      ∃ q d, (∃ b ∈ c.live, capacity G b.size = 2 ^ chunk_shift size ∧ G.page_addr q ≤ b.addr ∧ b.addr < G.page_addr (q + 1)) ∧
        G.reserved (chunk_shift size) ≤ d ∧ d < G.chunks (chunk_shift size) ∧
        ∀ b ∈ c.live, b.addr ≠ G.page_addr q + d * 2 ^ chunk_shift size := by
  have h3 := min_shift_le_chunk_shift size
  have hs := chunk_shift_lt G hsize
  have hlaid := h.inv.laid
  -- a chunk lies in its page
  have hin : ∀ q d, d < G.chunks (chunk_shift size) → G.page_addr q + d * 2 ^ chunk_shift size < G.page_addr (q + 1) := by
    intro q d hd
    have hlt := G.chunk_lt hs.le hd
    rw [page_addr_add]
    omega
  constructor
  · rintro ⟨used, hu, hfull⟩
    obtain ⟨q, hat⟩ : ∃ q, SegAt L q (.chunks (chunk_shift size) used) := exists_at_of_mem hu 0
    obtain ⟨e, he⟩ := h.inv.settled.nonempty _ _ hu
    obtain ⟨a, ha, hae⟩ := (h.blocks _).1 ⟨q, _, hat, e, he, rfl⟩
    obtain ⟨d, hd, hd'⟩ : ∃ d < G.chunks (chunk_shift size), ¬ (d < G.reserved (chunk_shift size) ∨ d ∈ used) := by
      unfold Full at hfull
      push Not at hfull ⊢
      exact hfull
    rw [not_or, not_lt] at hd'
    have haddr : a.addr = G.page_addr q + e * 2 ^ chunk_shift size := (congrArg Block.addr hae).symm
    have hcap : capacity G a.size = 2 ^ chunk_shift size := (congrArg Block.size hae).symm
    refine ⟨q, d, ⟨a, ha, hcap, by omega, haddr ▸ hin q e ((SegAt.valid hlaid hat).2.2 e he).2⟩, hd'.1, hd, fun b hb hbd => hd'.2 ?_⟩
    obtain ⟨f, hf, hfe⟩ := has_of_live hlaid (h.live hb) hat (by simp only; omega) (by simp only [hbd]; exact hin q d hd)
    have hfd : b.addr = G.page_addr q + f * 2 ^ chunk_shift size := congrArg Block.addr hfe
    obtain rfl : f = d := Nat.eq_of_mul_eq_mul_right (Nat.two_pow_pos _) (Nat.add_left_cancel (hfd.symm.trans hbd))
    exact hf
  · rintro ⟨q, d, ⟨a, ha, hcap, h1, h2⟩, hd1, hd2, hno⟩
    have hk : chunk_shift size - min_shift < G.slots := by
      show _ < G.page_size_shift - min_shift
      omega
    have hslot : chunk_shift size - min_shift + min_shift = chunk_shift size := Nat.sub_add_cancel h3
    have hopened : Opened G (chunk_shift size - min_shift) L q := ⟨_, h.live ha, by rw [hslot]; exact hcap, h1, h2⟩
    obtain ⟨s, hat, hof⟩ := (opened_iff hlaid h.inv.settled hk).1 hopened
    cases s with
    | chunks shift used =>
      obtain rfl : shift = chunk_shift size := hof.trans hslot
      refine ⟨used, hat.mem, fun hfull => ?_⟩
      rcases hfull d hd2 with hlt | hmem
      · omega
      · obtain ⟨b, hb, hbe⟩ := (h.blocks _).1 ⟨q, _, hat, d, hmem, rfl⟩
        exact hno b hb (congrArg Block.addr hbe).symm
    | _ => exact hof.elim

/-- **Refusals.** A request is answered exactly when there is room for it. -/
theorem answered_iff (h : Reach (step G) legal (Client.init G) c) (size : ℕ) :
    (∃ P p, c.pool.ngx_slab_alloc_locked G size = some (P, p) ∧ p ≠ 0) ↔ c.Room G size := by
  obtain ⟨L, hgood⟩ := run_good h
  obtain ⟨P', p, L', hrun, hallocs, -, -⟩ := alloc_refines hgood.inv size
  have hanswer : (∃ P p, c.pool.ngx_slab_alloc_locked G size = some (P, p) ∧ p ≠ 0) ↔ p ≠ 0 := by
    rw [hrun]
    simp
  rw [hanswer, Client.Room]
  split_ifs with hsize
  · rw [← hgood.pages_iff (page_count_pos hsize)]
    cases hallocs with
    | run _ hn => exact iff_of_true (page_addr_pos _).ne' ⟨_, by simp, hn⟩
    | chunk hle => exact absurd hsize (Nat.not_lt_of_le hle)
    | fresh hle => exact absurd hsize (Nat.not_lt_of_le hle)
    | no_run _ hno => exact iff_of_false (not_not.2 rfl) fun ⟨n, hn, hle⟩ => absurd (hno n hn) (Nat.not_lt_of_le hle)
    | no_chunk hle => exact absurd hsize (Nat.not_lt_of_le hle)
  · rw [← hgood.page_iff, ← hgood.chunk_iff (Nat.le_of_not_lt hsize)]
    cases hallocs with
    | run hlt => exact absurd hlt hsize
    | @chunk d used pre post _ hd hd1 hd2 =>
      refine iff_of_true (Nat.add_pos_left (page_addr_pos _) _).ne' (.inr ⟨used, by simp, fun hfull => ?_⟩)
      exact (hfull d hd2).elim (Nat.not_lt_of_le hd1) hd
    | @fresh n pre post => exact iff_of_true (Nat.add_pos_left (page_addr_pos _) _).ne' (.inl ⟨n, by simp⟩)
    | no_run hlt => exact absurd hlt hsize
    | no_chunk _ hno hfull =>
      refine iff_of_false (not_not.2 rfl) ?_
      rintro (⟨n, hn⟩ | ⟨used, hu, hnot⟩)
      · exact hno n hn
      · exact hnot (hfull used hu)

theorem answered_all : ∃ P p, (Pool.ngx_slab_init four_pages).ngx_slab_alloc_locked four_pages 16384 = some (P, p) ∧ p ≠ 0 :=
  (answered_iff .init 16384).2 ⟨0, by decide, fun _ _ _ b hb => absurd hb List.not_mem_nil⟩

/-- the blocks of a slot are those for its requests -/
theorem capacity_iff (hk : k < G.slots) : capacity G size = 2 ^ (k + min_shift) ↔ Asks G size k := by
  have hk' : k + min_shift < G.page_size_shift := by
    have : k < G.page_size_shift - min_shift := hk
    omega
  have h3 := min_shift_le_chunk_shift size
  unfold capacity Asks
  split_ifs with h
  · refine iff_of_false (fun he => ?_) fun hc => absurd h (Nat.not_lt_of_le hc.1)
    have h1 := Nat.mul_le_mul_right G.page_size (page_count_pos h)
    have h2 := Nat.pow_lt_pow_right (show 1 < 2 by norm_num) hk'
    have hps : G.page_size = 2 ^ G.page_size_shift := rfl
    omega
  · constructor
    · intro he
      have := Nat.pow_right_injective le_rfl he
      exact ⟨Nat.le_of_not_lt h, by omega⟩
    · rintro ⟨-, rfl⟩
      rw [Nat.sub_add_cancel h3]

/-- page q has a block of the slot k -/
def Client.Opened (G : Geometry) (c : Client) (k q : ℕ) : Prop :=
  ∃ b ∈ c.live, Asks G b.size k ∧ G.page_addr q ≤ b.addr ∧ b.addr < G.page_addr (q + 1)

theorem Good.opened_iff (h : Good G c L) (hk : k < G.slots) : c.Opened G k q ↔ Slab.Opened G k L q := by
  constructor
  · rintro ⟨b, hb, hasks, h1, h2⟩
    exact ⟨_, h.live hb, (capacity_iff hk).2 hasks, h1, h2⟩
  · rintro ⟨b, hlive, hsize, h1, h2⟩
    obtain ⟨a, ha, rfl⟩ := (h.blocks b).1 hlive
    exact ⟨a, ha, (capacity_iff hk).1 hsize, h1, h2⟩

/-- the blocks of a slot, counted -/
theorem Good.used_eq (h : Good G c L) (hk : k < G.slots) : used_chunks k L = c.live.countP fun b => Asks G b.size k := by
  obtain ⟨blocks, hcard, hmem⟩ := exists_used h.inv.laid.valid hk 0
  have hnodup : ((c.live.filter fun b => Asks G b.size k).map fun b => (⟨b.addr, capacity G b.size⟩ : Block)).Nodup := by
    refine List.Nodup.of_map Block.addr ?_
    rw [List.map_map]
    exact h.nodup.sublist (List.filter_sublist.map _)
  rw [← hcard, List.countP_eq_length_filter, ← List.length_map (fun b : Block => (⟨b.addr, capacity G b.size⟩ : Block)),
    ← List.toFinset_card_of_nodup hnodup]
  congr 1
  ext b
  rw [hmem, List.mem_toFinset, List.mem_map, ← live_iff, h.blocks]
  simp only [List.mem_filter, decide_eq_true_eq]
  constructor
  · rintro ⟨⟨a, ha, rfl⟩, hsize⟩
    exact ⟨a, ⟨ha, (capacity_iff hk).1 hsize⟩, rfl⟩
  · rintro ⟨a, ⟨ha, hasks⟩, rfl⟩
    exact ⟨⟨a, ha, rfl⟩, (capacity_iff hk).2 hasks⟩

/-- **Counters.** `pfree` is the number of pages without a block; of a slot, `used` is the number of its blocks, `total` the number of
chunks for requests on its pages, `reqs` and `fails` are the numbers of its requests and of those that were refused. -/
theorem runs_counters (h : Reach (step G) legal (Client.init G) c) :
    (∃ bare : Finset ℕ, (∀ q, q ∈ bare ↔ q < G.pages ∧ c.Bare G q) ∧ c.pool.pfree = BitVec.ofNat 32 bare.card) ∧
    ∀ k < G.slots,
      (c.pool.stats k).used = BitVec.ofNat 32 (c.live.countP fun b => Asks G b.size k) ∧
      (∃ opened : Finset ℕ, (∀ q, q ∈ opened ↔ c.Opened G k q) ∧
        (c.pool.stats k).total = BitVec.ofNat 32 (opened.card * (G.chunks (k + min_shift) - G.reserved (k + min_shift)))) ∧
      (c.pool.stats k).reqs = BitVec.ofNat 32 (c.asked.countP fun r => Asks G r.1 k) ∧
      (c.pool.stats k).fails = BitVec.ofNat 32 (c.asked.countP fun r => Asks G r.1 k ∧ r.2 = 0) := by
  obtain ⟨L, hgood⟩ := run_good h
  refine ⟨?_, fun k hk => ⟨?_, ?_, hgood.reqs k, hgood.fails k⟩⟩
  · obtain ⟨bare, hcard, hmem⟩ := exists_untouched hgood.inv.laid hgood.inv.settled
    exact ⟨bare, fun q => by rw [hmem, hgood.bare_iff], by rw [hcard]; exact hgood.inv.pfree⟩
  · rw [hgood.inv.used k, hgood.used_eq hk]
  · obtain ⟨opened, hcard, hmem⟩ := exists_opened hgood.inv.laid hgood.inv.settled hk
    exact ⟨opened, fun q => by rw [hmem, hgood.opened_iff hk], by rw [hcard]; exact hgood.inv.total k⟩

theorem runs_counters_calloc : ∃ c, step four_pages (Client.init four_pages) (.calloc 8) = some c ∧ (c.pool.stats 0).used = 1 :=
  ⟨_, rfl, ((runs_counters (G := four_pages) (.next (a := .calloc 8) .init trivial rfl)).2 0 (by decide)).1⟩

theorem page_count_le {n : ℕ} (h : size ≤ n * G.page_size) : page_count G size ≤ n := by
  have hshift : size >>> G.page_size_shift = size / G.page_size := Nat.shiftRight_eq_div_pow _ _
  have hdiv := Nat.div_add_mod size G.page_size
  have hps := G.page_size_pos
  rw [page_count, hshift]
  split_ifs with hmod
  · have hlt : size < G.page_size * n := by
      rw [Nat.mul_comm]
      refine lt_of_le_of_ne h fun he => hmod ?_
      rw [he, Nat.mul_mod_left]
    exact Nat.div_lt_of_lt_mul hlt
  · exact Nat.div_le_of_le_mul (by rwa [Nat.mul_comm])

/-- **Nothing leaks.** When every block was given back, all pages are free again, in one run. -/
theorem all_returned (h : Reach (step G) legal (Client.init G) c) (hlive : c.live = []) (hsize : size ≤ G.pages * G.page_size) :
    c.pool.pfree = BitVec.ofNat 32 G.pages ∧ ∃ P p, c.pool.ngx_slab_alloc_locked G size = some (P, p) ∧ p ≠ 0 := by
  obtain ⟨L, hgood⟩ := run_good h
  have hbare : ∀ q, c.Bare G q := fun q b hb => absurd hb (by simp [hlive])
  constructor
  · obtain ⟨bare, hcard, hmem⟩ := exists_untouched hgood.inv.laid hgood.inv.settled
    have hall : bare = Finset.range G.pages := by
      ext q
      rw [hmem, Finset.mem_range, ← hgood.bare_iff]
      exact and_iff_left (hbare q)
    rw [hgood.inv.pfree, ← hcard, hall, Finset.card_range]
  · obtain ⟨P', p, L', hrun, hallocs, -, -⟩ := alloc_refines hgood.inv size
    refine ⟨P', p, hrun, fun hp => ?_⟩
    subst hp
    generalize hz : (0 : ℕ) = z at hallocs
    cases hallocs with
    | no_run hlt hno =>
      obtain ⟨n, hn, hle⟩ := (hgood.pages_iff (page_count_pos hlt)).2 ⟨0, by have := page_count_le hsize; omega, fun q _ _ => hbare q⟩
      exact absurd (hno n hn) (Nat.not_lt_of_le hle)
    | no_chunk _ hno _ =>
      obtain ⟨n, hn⟩ := hgood.page_iff.2 ⟨0, G.pages_pos, hbare 0⟩
      exact hno n hn
    | run => exact absurd hz (page_addr_pos _).ne
    | chunk => exact absurd hz (Nat.add_pos_left (page_addr_pos _) _).ne
    | fresh => exact absurd hz (Nat.add_pos_left (page_addr_pos _) _).ne

theorem all_returned_free : ∃ c c', step four_pages (Client.init four_pages) (.calloc 8) = some c ∧
    step four_pages c (.free 4160) = some c' ∧ c'.pool.pfree = 4 :=
  ⟨_, _, rfl, rfl, (@all_returned four_pages _ 16384 (.next (a := .free 4160) (.next (a := .calloc 8) .init trivial rfl)
    ⟨_, List.mem_cons_self, rfl⟩ rfl) rfl (by decide)).1⟩

end Shuttlesock.Slab
