/-
The memory of the blocks of a slab pool (`shared_slab.c`), byte for byte.

Model: `load` and `store` are what the owner of a block does with it, the bytes of a word in the order of a little endian machine.
`Writes G P P' b`: nothing but bytes of the block b is different.

Results:
- `meta_apart`: the bitmaps that the allocator keeps in the pages are apart from every block;
- `Inv.writes`: so an owner who writes to his block does no harm;
- `memzero_load`: what `ngx_slab_calloc_locked` clears;
- `Served.load`, `Returned.load`: a call changes no byte of a block.
-/
import Mathlib.Tactic
import Shuttlesock.Core.WordBytes
import Shuttlesock.Slab.Refine

namespace Shuttlesock.Slab

open Shuttlesock.Tiling Shuttlesock.Blocks Shuttlesock.WordBytes

namespace Pool

variable (G : Geometry)

/-- the byte at the address a -/
def load (P : Pool) (a : ℕ) : BitVec 8 := byte (P.mem ((a - G.start) / 8)) ((a - G.start) % 8)

/-- `*a = x` -/
def store (P : Pool) (a : ℕ) (x : BitVec 8) : Pool :=
  P.setWord ((a - G.start) / 8) (setByte (P.mem ((a - G.start) / 8)) ((a - G.start) % 8) x)

end Pool

/-- nothing but bytes of a block is different -/
structure Writes (G : Geometry) (P P' : Pool) (b : Block) : Prop where
  slab : P'.slab = P.slab
  next : P'.next = P.next
  prev : P'.prev = P.prev
  pfree : P'.pfree = P.pfree
  stats : P'.stats = P.stats
  log_nomem : P'.log_nomem = P.log_nomem
  errors : P'.errors = P.errors
  load : ∀ a, G.start ≤ a → a < b.addr ∨ b.stop ≤ a → P'.load G a = P.load G a

variable {G : Geometry} {P P' : Pool} {L L' : List Seg} {b : Block} {w p size a a' j shift : ℕ} {x : BitVec 8} {used : Finset ℕ} {s : Seg}

theorem load_store (P : Pool) (a : ℕ) (x : BitVec 8) : (P.store G a x).load G a = x := by
  rw [Pool.load, Pool.store, Pool.setWord_mem, Function.update_self]
  exact byte_setByte (Nat.mod_lt _ (by norm_num))

theorem load_store_ne (ha : G.start ≤ a) (ha' : G.start ≤ a') (hne : a' ≠ a) : (P.store G a x).load G a' = P.load G a' := by
  rw [Pool.load, Pool.load, Pool.store, Pool.setWord_mem]
  by_cases hw : (a' - G.start) / 8 = (a - G.start) / 8
  · rw [hw, Function.update_self]
    exact byte_setByte_ne (Nat.mod_lt _ (by norm_num)) (by omega)
  · rw [Function.update_of_ne hw]

theorem store_writes (ha : G.start ≤ b.addr) (h1 : b.addr ≤ a) (h2 : a < b.stop) : Writes G P (P.store G a x) b :=
  ⟨rfl, rfl, rfl, rfl, rfl, rfl, rfl, fun _ h h' => load_store_ne (ha.trans h1) h (by omega)⟩

/-- the bytes of a block cleared from its start on -/
theorem memzero_load (hp : G.start ≤ p) (h8 : 8 ∣ p - G.start) (ha : G.start ≤ a) :
    (P.memzero G p size).load G a = if p ≤ a ∧ a < p + size then 0 else P.load G a := by
  obtain ⟨k, hk⟩ := h8
  have hw : (p - G.start) / 8 = k := by omega
  rw [Pool.load, Pool.load, Pool.memzero]
  simp only [hw]
  by_cases h1 : k ≤ (a - G.start) / 8 ∧ (a - G.start) / 8 < k + size / 8
  · rw [if_pos h1, if_pos (by omega)]
    exact byte_zero _
  · rw [if_neg h1]
    by_cases h2 : (a - G.start) / 8 = k + size / 8
    · rw [if_pos h2]
      have hbyte := byte_clearLow (w := P.mem ((a - G.start) / 8)) (i := (a - G.start) % 8) (Nat.mod_lt size (show 0 < 8 by norm_num))
      rw [clearLow] at hbyte
      rw [hbyte]
      by_cases h3 : (a - G.start) % 8 < size % 8
      · rw [if_pos h3, if_pos (by omega)]
      · rw [if_neg h3, if_neg (by omega)]
    · rw [if_neg h2, if_neg (by omega)]

theorem memzero_writes (hp : G.start ≤ p) (h8 : 8 ∣ p - G.start) (hb : b.addr = p) (hsize : size ≤ b.size) :
    Writes G P (P.memzero G p size) b := by
  refine ⟨rfl, rfl, rfl, rfl, rfl, rfl, rfl, fun a ha h => ?_⟩
  rw [memzero_load hp h8 ha, if_neg]
  simp only [Block.stop] at h
  omega

/-! ## Blocks and bitmaps -/

/-- a word of a page -/
theorem word_addr (j n : ℕ) : G.start + 8 * G.word j n = G.page_addr j + 8 * n := by
  have h : 8 * (j * (G.page_size / 8)) = j * G.page_size := by
    calc 8 * (j * (G.page_size / 8)) = j * (G.page_size / 8 * 8) := by ring
      _ = j * G.page_size := by rw [G.words_mul]
  rw [G.page_addr_eq, Geometry.word, Nat.mul_add, h]
  omega

/-- a word of a bitmap lies in the part of its page that no chunk for a request has -/
theorem meta_range (hv : (Seg.chunks shift used).Valid G) (h : BitmapOf G j shift w) :
    G.page_addr j ≤ G.start + 8 * w ∧ G.start + 8 * w + 8 ≤ G.page_addr j + G.reserved shift * 2 ^ shift ∧
      G.start + 8 * w + 8 ≤ G.page_addr (j + 1) := by
  obtain ⟨hlt, n, hn, rfl⟩ := h
  obtain ⟨h3, hs, -⟩ := hv
  have hbits := G.reserved_bits hlt
  obtain ⟨hdvd, -⟩ := G.chunks_words hlt
  have hwords := G.bitmap_words_le shift
  have hmul := G.words_mul
  rw [word_addr, page_addr_add]
  omega

theorem meta_apart (hL : Laid G L) (hb : Live G L b) (hw : Meta G L w) :
    b.stop ≤ G.start + 8 * w ∨ G.start + 8 * w + 8 ≤ b.addr := by
  obtain ⟨j, shift, used, hat, hbits⟩ := hw
  obtain ⟨h1, h2, h3⟩ := meta_range (SegAt.valid hL hat) hbits
  obtain ⟨k, t, ht, hb⟩ := hb
  obtain ⟨h4, h5, -⟩ := hb.within (ht.valid hL)
  rcases ht.apart hat with ⟨rfl, rfl⟩ | h | h
  · obtain ⟨c, hc, rfl⟩ := hb
    have hrc := ((ht.valid hL).2.2 c hc).1
    have hmul := Nat.mul_le_mul_right (2 ^ shift) hrc
    exact .inr (by simp only; omega)
  · exact .inl (h5.trans ((page_addr_mono h).trans h1))
  · exact .inr (h3.trans ((page_addr_mono h).trans h4))

/-- equal bytes, equal words -/
theorem word_eq_of_load (h : ∀ i < 8, P'.load G (G.start + 8 * w + i) = P.load G (G.start + 8 * w + i)) : P'.mem w = P.mem w := by
  refine word_ext fun i hi => ?_
  have hload := h i hi
  simp only [Pool.load] at hload
  rwa [show (G.start + 8 * w + i - G.start) / 8 = w by omega, show (G.start + 8 * w + i - G.start) % 8 = i by omega] at hload

theorem blank_iff {t : ℕ} : Blank P t ↔ P.slab (.page t) = 0 ∧ P.next (.page t) = none ∧ (P.prev (.page t)).type = .page :=
  ⟨fun h => ⟨h.slab, h.next, h.type⟩, fun ⟨h1, h2, h3⟩ => ⟨h1, h2, h3⟩⟩

/-- only the bitmaps of the memory are looked at -/
theorem Shown.of_mem (h : Shown G P j s) (hslab : P'.slab = P.slab) (hnext : P'.next = P.next) (hprev : P'.prev = P.prev)
    (hmem : ∀ shift used w, s = .chunks shift used → BitmapOf G j shift w → P'.mem w = P.mem w) : Shown G P' j s := by
  cases s with
  | chunks shift used =>
    obtain ⟨h1, h2, h3⟩ := h
    refine ⟨by rw [hprev]; exact h1, by rw [hnext]; exact h2, ?_⟩
    rcases Nat.lt_trichotomy shift G.exact_shift with hlt | rfl | hgt
    · obtain ⟨h4, h5⟩ := (marked_small hlt).1 h3
      obtain ⟨hdvd, -⟩ := G.chunks_words hlt
      refine (marked_small hlt).2 ⟨by rw [hslab]; exact h4, fun c hc => ?_⟩
      rw [hmem shift used _ rfl ⟨hlt, c / 64, by omega, rfl⟩]
      exact h5 c hc
    · rw [marked_exact] at h3 ⊢
      rw [hslab]
      exact h3
    · rw [marked_big hgt] at h3 ⊢
      rw [hslab]
      exact h3
  | _ =>
    simp only [Shown, blank_iff, hslab, hnext, hprev] at h ⊢
    exact h

theorem Inv.writes (h : Inv G P L) (hb : Live G L b) (hw : Writes G P P' b) : Inv G P' L := by
  obtain ⟨qs, hR⟩ := h.rep
  have hmeta : ∀ w, Meta G L w → P'.mem w = P.mem w := fun w hm => word_eq_of_load fun i hi =>
    hw.load _ (by omega) (by have := meta_apart hR.laid hb hm; omega)
  refine ⟨h.settled, ⟨qs, hR.laid, fun j s hat => ?_, fun o ho => ?_, hR.mem⟩, hw.pfree.trans h.pfree, fun k => ?_, fun k => ?_,
    hw.log_nomem.trans h.log_nomem⟩
  · refine (hR.shown j s hat).of_mem hw.slab hw.next hw.prev fun shift used w hs hbits => ?_
    exact hmeta w ⟨j, shift, used, hs ▸ hat, hbits⟩
  · rw [hw.next, hw.prev]
    exact hR.ring o ho
  · rw [hw.stats]
    exact h.used k
  · rw [hw.stats]
    exact h.total k

/-! ## Calls -/

theorem load_of_mem (h : P'.mem ((a - G.start) / 8) = P.mem ((a - G.start) / 8)) : P'.load G a = P.load G a := by
  rw [Pool.load, Pool.load, h]

/-- an address of a block is in no bitmap -/
theorem not_meta (hL : Laid G L) (hb : Live G L b) (h1 : b.addr ≤ a) (h2 : a < b.stop) : ¬ Meta G L ((a - G.start) / 8) := by
  intro hm
  have hstart := (live_inside hL hb).1
  have := meta_apart hL hb hm
  omega

theorem Served.load (h : Served G P P' L' size p) (hL : Laid G L') (hb : Live G L' b) (h1 : b.addr ≤ a) (h2 : a < b.stop) :
    P'.load G a = P.load G a := load_of_mem (h.mem _ (not_meta hL hb h1 h2))

theorem Returned.load (h : Returned G P P' L) (hL : Laid G L) (hb : Live G L b) (h1 : b.addr ≤ a) (h2 : a < b.stop) :
    P'.load G a = P.load G a := load_of_mem (h.mem _ (not_meta hL hb h1 h2))

end Shuttlesock.Slab
