/-
The arithmetic of the pool allocator with sizes: what `shuso_palloc` does for every size below 2^64.

Sizes are compared as `ssize_t`, and padding is added before the comparison. So a size of 2^63 or more is negative, and one just
below 2^63 becomes negative with its padding.

Model: `Pools.shuso_palloc`, in a pool whose cursor is in its last page, or that has no pages (`Standing`).
- `Placed`: what is handed out lies in a page, or is a block of its own.
- `Sized`: a size that the comparison with the current page lets through fits in it, one that the comparison with a new page
  lets through fits in a page, and the call returns NULL or what is `Placed`, with the cursor not moved back.
- `Represented`: the sum of a comparison is below 2^63, or so close to 2^64 that, negative as it is without the padding, it is
  still greater than the room.

Results:
- `sized_iff`: the exact condition, for every size and every pool; `sized_iff_plain`: without Valgrind it is that the size and its
  padding are below 2^63.
- `standing_of_reach`: the pools of every run are such pools.
- `sized_wraps`: an allocation of 2^64 - 8 bytes that moves the cursor back.
-/
import Mathlib.Tactic
import Shuttlesock.Pool.Palloc
import Shuttlesock.Pool.Safety

namespace Shuttlesock.Pools

open Shuttlesock.Blocks Shuttlesock.Runs

/-- the pool has no pages, or the cursor is in the last one -/
def Standing (b : Build) (p : Pool) : Prop :=
  p.pages = [] ∧ p.size = 0 ∧ p.cur = 0 ∨ ∃ page, p.pages.head? = some page ∧ Cursor b p.size page p.cur

/-- sz bytes at a, in the last page or in a new block -/
def Placed (b : Build) (p p' : Pool) (a sz : ℕ) : Prop :=
  (∃ page, p'.pages.head? = some page ∧ page + b.page ≤ a ∧ a + sz ≤ page + p.size) ∨
    ∃ c, p'.allocd = c :: p.allocd ∧ c.data = a ∧ c.size = sz

/-- **The property** -/
structure Sized (b : Build) (m : Malloc) (p : Pool) (sz : ℕ) : Prop where
  current : ¬ fullCurrent b p sz true → current_ret b p true + sz ≤ p.pages.headD 0 + p.size
  new : ¬ fullNew b p.size sz → b.page + sz ≤ p.size
  returned : ∃ ret p', shuso_palloc b m p sz = some (ret, p') ∧ (p'.pages = p.pages → p.cur ≤ p'.cur) ∧
    ∀ a, ret = some a → Placed b p p' a sz

/-- what is lost in front of an allocation -/
def before_padding (b : Build) (p : Pool) (align : Bool) : ℕ := current_ret b p align - p.cur

/-- what is left of the last page -/
def room_left (p : Pool) : ℤ := ((p.pages.headD 0 + p.size : ℕ) : ℤ) - p.cur

def Represented (b : Build) (before sz : ℕ) (left : ℤ) : Prop :=
  before + sz + b.rzb < 2 ^ 63 ∨ left + 2 ^ 64 < before + sz + b.rzb

/-- **The condition**: there is room in the last page, or both comparisons are right, and what seems to fit in a new page does -/
def SizeOk (b : Build) (m : Malloc) (p : Pool) (sz : ℕ) : Prop :=
  before_padding b p true + sz + b.rzb ≤ room_left p ∨
    Represented b (before_padding b p true) sz (room_left p) ∧ Represented b b.rzb sz (p.size - b.page) ∧ AllocOk b m p sz

/-! ## The comparisons -/

section Sizes

variable {b : Build} {m : Malloc} {p p' : Pool} {sz : ℕ} {align : Bool}

/-- a sum above the room is found to be, unless it is negative and not above it then -/
theorem ssize_lt_iff (n : ℕ) (left : ℤ) : left < ssize (n : ℤ) ↔ left < n ∧ (n < 2 ^ 63 ∨ left + 2 ^ 64 < n) := by
  unfold ssize
  split_ifs <;> omega

theorem before_padding_lt : before_padding b p align < 16 := by
  have hlt : current_ret b p align < p.cur + b.rzb + 8 := current_ret_lt
  obtain ⟨-, hrzb⟩ := b.rzb_mod
  unfold before_padding
  omega

theorem Standing.ret (h : Standing b p) (align : Bool) : p.cur + b.rzb ≤ current_ret b p align := by
  obtain ⟨-, hrzb⟩ := b.rzb_mod
  apply le_current_ret
  rcases h with ⟨-, -, hcur⟩ | ⟨page, -, hcur⟩
  · omega
  · have hstop := hcur.stop
    have hbound := hcur.bound
    omega

theorem Standing.left (h : Standing b p) : 0 ≤ room_left p + b.rzb ∧ room_left p < 2 ^ 63 := by
  obtain ⟨-, hrzb⟩ := b.rzb_mod
  unfold room_left
  rcases h with ⟨hpages, hsize, hcur⟩ | ⟨page, hpage, hcur⟩
  · rw [hpages, List.headD_nil]
    omega
  · obtain ⟨-, hpos, hstart, hstop, hbound⟩ := hcur
    rw [List.headD_eq_head?_getD, hpage, Option.getD_some]
    omega

theorem Standing.size (h : Standing b p) : p.size + 8 + b.rzb ≤ 2 ^ 63 := by
  obtain ⟨-, hrzb⟩ := b.rzb_mod
  rcases h with ⟨-, hsize, -⟩ | ⟨page, -, hcur⟩
  · omega
  · obtain ⟨haligned, hpos, -, -, hbound⟩ := hcur
    omega

/-- the end of the last page -/
theorem Standing.stop (h : Standing b p) : p.pages.headD 0 + p.size < 2 ^ 63 + p.cur - b.rzb := by
  obtain ⟨-, hrzb⟩ := b.rzb_mod
  rcases h with ⟨hpages, hsize, hcur⟩ | ⟨page, hpage, hcur⟩
  · rw [hpages, List.headD_nil]
    omega
  · obtain ⟨-, hpos, hstart, hstop, hbound⟩ := hcur
    rw [List.headD_eq_head?_getD, hpage, Option.getD_some]
    omega

/-- the comparison with the current page -/
theorem Standing.full (h : Standing b p) (hsz : sz < 2 ^ 64) : fullCurrent b p sz align ↔
    room_left p < before_padding b p align + sz + b.rzb ∧ Represented b (before_padding b p align) sz (room_left p) := by
  have hret := h.ret align
  have hroom := h.left
  have hbefore : before_padding b p align < 16 := before_padding_lt
  obtain ⟨-, hrzb⟩ := b.rzb_mod
  have hfull : fullCurrent b p sz align ↔ room_left p < ssize ((before_padding b p align + sz + b.rzb : ℕ) : ℤ) := by
    rcases h with ⟨hpages, hsize, hcur⟩ | ⟨page, hpage, hcur⟩
    · unfold fullCurrent room_left
      rw [hpages, List.headD_nil, hsize, hcur, Nat.cast_zero, sub_zero, sub_zero, ssize_eq (n := 0) (by omega)]
      unfold before_padding at hbefore ⊢
      rw [hcur, Nat.sub_zero] at hbefore
      rw [hcur, Nat.sub_zero, ssize_eq (n := (current_ret b p align : ℤ)) (by omega), ssize_sum hbefore hrzb hsz, sub_zero]
    · rw [fullCurrent_wraps hpage hcur hsz]
      unfold room_left before_padding
      rw [List.headD_eq_head?_getD, hpage, Option.getD_some]
  rw [hfull, ssize_lt_iff]
  unfold Represented
  push_cast
  rfl

/-- the comparison with a new page -/
theorem Standing.fullNew (h : Standing b p) (hsz : sz < 2 ^ 64) : fullNew b p.size sz ↔
    (p.size : ℤ) - b.page < b.rzb + sz + b.rzb ∧ Represented b b.rzb sz (p.size - b.page) := by
  obtain ⟨-, hrzb⟩ := b.rzb_mod
  obtain ⟨h8, -, hle⟩ := b.page_mod
  have hsize := h.size
  have hmax : page_max_free_space b p.size = p.size - b.page := by
    unfold page_max_free_space
    rw [align_native_eq (by omega) h8, ssize_eq (n := (p.size : ℤ)) (by omega), ssize_eq (by omega)]
  unfold Pools.fullNew
  rw [hmax, ssize_sum (by omega) hrzb hsz, ssize_lt_iff]
  unfold Represented
  push_cast
  rfl

/-! ## What is handed out -/

/-- an allocation in the current page -/
theorem Standing.in_current (h : Standing b p) (hroom : before_padding b p true + sz + b.rzb ≤ room_left p)
    (hfull : ¬ fullCurrent b p sz true) (hpages : p.pages ≠ []) :
    ∃ a p', palloc_in_current_page b p sz true = (some a, p') ∧ p'.pages = p.pages ∧ p.cur ≤ p'.cur ∧ Placed b p p' a sz := by
  rcases h with ⟨hnil, -⟩ | ⟨page, hpage, hcur⟩
  · exact absurd hnil hpages
  have hpos := hcur.pos
  have hstart := hcur.start
  have hstop := hcur.stop
  have hbound := hcur.bound
  obtain ⟨-, hrzb⟩ := b.rzb_mod
  have hle : p.cur + b.rzb ≤ current_ret b p true := le_current_ret (by omega)
  unfold before_padding room_left at hroom
  rw [List.headD_eq_head?_getD, hpage, Option.getD_some] at hroom
  have hfits : current_ret b p true + sz + b.rzb ≤ page + p.size := by omega
  refine ⟨_, _, room hcur hfull hfits, rfl, ?_, .inl ⟨page, hpage, ?_, ?_⟩⟩
  · show p.cur ≤ current_ret b p true + sz + b.rzb
    omega
  · omega
  · omega

/-- a block of its own -/
theorem plain_placed {a : ℕ} (h : plain_old_malloc b m p sz = some (a, p')) :
    p'.pages = p.pages ∧ p'.cur = p.cur ∧ Placed b p p' a sz := by
  unfold plain_old_malloc at h
  split at h
  · obtain ⟨cur, -, h⟩ := Option.bind_eq_some_iff.1 h
    obtain ⟨data, -, heq⟩ := Option.map_eq_some_iff.1 h
    cases heq
    exact ⟨rfl, rfl, .inr ⟨_, rfl, rfl, rfl⟩⟩
  · obtain ⟨cur, -, heq⟩ := Option.map_eq_some_iff.1 h
    cases heq
    exact ⟨rfl, rfl, .inr ⟨_, rfl, rfl, rfl⟩⟩

/-- an allocation in a new page, or none -/
theorem Standing.in_new (h : Standing b p) (hsz : sz < 2 ^ 64) (hnew : Represented b b.rzb sz (p.size - b.page))
    (hok : AllocOk b m p sz) : palloc_in_new_page b m p sz true = some (none, p) ∨
      ∃ a p', palloc_in_new_page b m p sz true = some (some a, p') ∧ p'.pages ≠ p.pages ∧ Placed b p p' a sz := by
  obtain ⟨-, hrzb⟩ := b.rzb_mod
  unfold palloc_in_new_page
  by_cases hfull : Pools.fullNew b p.size sz
  · rw [if_pos hfull]
    exact .inl rfl
  rw [if_neg hfull]
  have hfits : b.page + sz + 2 * b.rzb ≤ p.size := by
    rw [h.fullNew hsz] at hfull
    have hle := not_lt.1 fun hlt => hfull ⟨hlt, hnew⟩
    omega
  cases hadd : add_page b m p with
  | none => exact .inl rfl
  | some q =>
    have hsize := h.size
    obtain ⟨page, rfl, -, hcur, -⟩ := add_page_cursor (by omega) (by omega) hadd
    have hroom : b.page + sz + 3 * b.rzb ≤ p.size := by
      rcases hok with hok | hnone
      · unfold tight at hok
        omega
      · unfold add_page at hadd
        rw [hnone] at hadd
        cases hadd
    let q : Pool := { p with pages := page :: p.pages, cur := page + b.page + b.rzb }
    have hstanding : Standing b q := .inr ⟨page, rfl, hcur⟩
    have hret : current_ret b q true = page + b.page + b.rzb + b.rzb := fresh_ret hcur rfl (show b.page ≤ p.size by omega)
    have hleft : before_padding b q true + sz + b.rzb ≤ room_left q := by
      unfold before_padding room_left
      rw [hret]
      show ((page + b.page + b.rzb + b.rzb - (page + b.page + b.rzb) : ℕ) : ℤ) + sz + b.rzb ≤
        ((page + p.size : ℕ) : ℤ) - (page + b.page + b.rzb : ℕ)
      omega
    have hfree : ¬ fullCurrent b q sz true := by
      rw [hstanding.full hsz]
      exact fun hlt => absurd hlt.1 (not_lt.2 hleft)
    obtain ⟨a, p', ha, hpages, -, hplaced⟩ := hstanding.in_current hleft hfree (List.cons_ne_nil _ _)
    right
    refine ⟨a, p', ?_, ?_, ?_⟩
    · simp only [show palloc_in_current_page b { p with pages := page :: p.pages, cur := page + b.page + b.rzb } sz true = _ from ha]
    · rw [hpages]
      exact List.cons_ne_self _ _
    · exact hplaced

theorem full_none (hfull : fullCurrent b p sz true) : palloc_in_current_page b p sz true = (none, p) := by
  unfold palloc_in_current_page
  rw [if_pos hfull]

/-- the pool without pages hands nothing out of its own, and NULL for no bytes -/
theorem nil_none (h : Standing b p) (hpages : p.pages = []) (hroom : before_padding b p true + sz + b.rzb ≤ room_left p) :
    palloc_in_current_page b p sz true = (none, p) ∧ sz = 0 ∧ b.rzb = 0 ∧ p.size = 0 := by
  have hret := h.ret true
  rcases h with ⟨-, hsize, hcur⟩ | ⟨page, hpage, -⟩
  · unfold before_padding room_left at hroom
    rw [hpages, List.headD_nil] at hroom
    have hzero : current_ret b p true = 0 ∧ sz = 0 ∧ b.rzb = 0 := by omega
    obtain ⟨hret, rfl, hrzb⟩ := hzero
    refine ⟨?_, rfl, hrzb, hsize⟩
    unfold palloc_in_current_page nonnull
    split
    · rfl
    · obtain ⟨size, pages, cur, allocd, levels⟩ := p
      change cur = 0 at hcur
      rw [hret, hrzb, hcur]
      rfl
  · rw [hpages] at hpage
    cases hpage

/-- what the call returns when there is no room in the current page -/
theorem Standing.returned (h : Standing b p) (hsz : sz < 2 ^ 64) (hnone : palloc_in_current_page b p sz true = (none, p))
    (hnew : Represented b b.rzb sz (p.size - b.page)) (hok : AllocOk b m p sz) :
    ∃ ret p', shuso_palloc b m p sz = some (ret, p') ∧ (p'.pages = p.pages → p.cur ≤ p'.cur) ∧
      ∀ a, ret = some a → Placed b p p' a sz := by
  unfold shuso_palloc palloc_with_alignment
  simp only [hnone]
  rcases h.in_new hsz hnew hok with hnull | ⟨a, p', ha, hpages, hplaced⟩
  · simp only [hnull]
    cases hm : plain_old_malloc b m p sz with
    | none => exact ⟨none, p, rfl, fun _ => le_rfl, fun a ha => by cases ha⟩
    | some r =>
      obtain ⟨a, p'⟩ := r
      obtain ⟨-, hcur, hplaced⟩ := plain_placed hm
      refine ⟨some a, p', rfl, fun _ => hcur.ge, fun c hc => ?_⟩
      cases hc
      exact hplaced
  · simp only [ha]
    refine ⟨some a, p', rfl, fun heq => absurd heq hpages, fun c hc => ?_⟩
    cases hc
    exact hplaced

/-- **What the call returns** when the condition holds. -/
theorem returned_of_ok (h : Standing b p) (hsz : sz < 2 ^ 64) (hok : SizeOk b m p sz) :
    ∃ ret p', shuso_palloc b m p sz = some (ret, p') ∧ (p'.pages = p.pages → p.cur ≤ p'.cur) ∧
      ∀ a, ret = some a → Placed b p p' a sz := by
  by_cases hroom : before_padding b p true + sz + b.rzb ≤ room_left p
  · by_cases hpages : p.pages = []
    · obtain ⟨hnone, rfl, hrzb, hsize⟩ := nil_none h hpages hroom
      obtain ⟨-, hpos, -⟩ := b.page_mod
      apply h.returned hsz hnone
      · left
        omega
      · left
        unfold tight
        omega
    · have hfree : ¬ fullCurrent b p sz true := by
        rw [h.full hsz]
        exact fun hlt => absurd hlt.1 (not_lt.2 hroom)
      obtain ⟨a, p', ha, -, hcur, hplaced⟩ := h.in_current hroom hfree hpages
      refine ⟨some a, p', ?_, fun _ => hcur, fun c hc => ?_⟩
      · unfold shuso_palloc palloc_with_alignment
        simp only [ha]
      · cases hc
        exact hplaced
  · obtain ⟨hcurrent, hnew, hmalloc⟩ := hok.resolve_left hroom
    have hfull : fullCurrent b p sz true := (h.full hsz).2 ⟨not_le.1 hroom, hcurrent⟩
    exact h.returned hsz (full_none hfull) hnew hmalloc

theorem sized_of_ok (h : Standing b p) (hsz : sz < 2 ^ 64) (hok : SizeOk b m p sz) : Sized b m p sz := by
  have hret := h.ret true
  have hleft := h.left
  obtain ⟨-, hrzb⟩ := b.rzb_mod
  refine ⟨fun hfree => ?_, fun hfree => ?_, returned_of_ok h hsz hok⟩
  · -- the comparison lets the size through for its room only
    have hroom : before_padding b p true + sz + b.rzb ≤ room_left p := by
      rcases hok with hroom | ⟨hcurrent, -⟩
      · exact hroom
      · by_contra hlt
        exact hfree ((h.full hsz).2 ⟨not_le.1 hlt, hcurrent⟩)
    unfold before_padding room_left at hroom
    omega
  · have hnew : Represented b b.rzb sz (p.size - b.page) := by
      rcases hok with hroom | ⟨-, hnew, -⟩
      · left
        unfold before_padding at hroom
        omega
      · exact hnew
    rw [h.fullNew hsz] at hfree
    have hle := not_lt.1 fun hlt => hfree ⟨hlt, hnew⟩
    omega

/-- what seems to fit in a new page, and does not: an assertion fails -/
theorem aborted_of_tight (h : Standing b p) (hsz : sz < 2 ^ 64) (hnone : palloc_in_current_page b p sz true = (none, p))
    (hbad : ¬ AllocOk b m p sz) : shuso_palloc b m p sz = none := by
  obtain ⟨-, hrzb⟩ := b.rzb_mod
  have hsize := h.size
  obtain ⟨htight, hmem⟩ := not_or.1 hbad
  obtain ⟨hseems, hfits⟩ := not_not.1 htight
  obtain ⟨p', hadd⟩ : ∃ p', add_page b m p = some p' := by
    obtain ⟨pagedata, hp⟩ := Option.ne_none_iff_exists'.1 hmem
    unfold add_page
    rw [hp]
    exact ⟨_, rfl⟩
  obtain ⟨page, rfl, -, hcur, -⟩ := add_page_cursor (by omega) (by omega) hadd
  let q : Pool := { p with pages := page :: p.pages, cur := page + b.page + b.rzb }
  have hstanding : Standing b q := .inr ⟨page, rfl, hcur⟩
  have hret : current_ret b q true = page + b.page + b.rzb + b.rzb := fresh_ret hcur rfl (show b.page ≤ p.size by omega)
  have hbefore : before_padding b q true = b.rzb := by
    unfold before_padding
    rw [hret]
    exact Nat.add_sub_cancel_left ..
  have hleft : room_left q = p.size - b.page - b.rzb := by
    unfold room_left
    show ((page + p.size : ℕ) : ℤ) - (page + b.page + b.rzb : ℕ) = _
    omega
  have hfull : fullCurrent b q sz true := by
    rw [hstanding.full hsz, hbefore, hleft]
    refine ⟨by omega, .inl ?_⟩
    omega
  have hnew : ¬ Pools.fullNew b p.size sz := by
    rw [h.fullNew hsz]
    omega
  unfold shuso_palloc palloc_with_alignment
  simp only [hnone]
  unfold palloc_in_new_page
  rw [if_neg hnew]
  simp only [hadd]
  simp only [show palloc_in_current_page b { p with pages := page :: p.pages, cur := page + b.page + b.rzb } sz true = (none, q)
    from full_none hfull]

theorem ok_of_sized (h : Standing b p) (hsz : sz < 2 ^ 64) (hs : Sized b m p sz) : SizeOk b m p sz := by
  have hret := h.ret true
  have hleft := h.left
  have hsize := h.size
  obtain ⟨-, hrzb⟩ := b.rzb_mod
  obtain ⟨-, hpos, -⟩ := b.page_mod
  obtain ⟨hcurrent, hnew, ret, p', hreturned, -⟩ := hs
  by_cases hroom : before_padding b p true + sz + b.rzb ≤ room_left p
  · exact .inl hroom
  right
  have hrepr : Represented b (before_padding b p true) sz (room_left p) := by
    by_contra hbad
    have hfits := hcurrent fun hfull => hbad ((h.full hsz).1 hfull).2
    have hstop := h.stop
    unfold Represented before_padding at hbad
    omega
  have hfull : fullCurrent b p sz true := (h.full hsz).2 ⟨not_le.1 hroom, hrepr⟩
  refine ⟨hrepr, ?_, ?_⟩
  · by_contra hbad
    have hfits := hnew fun hfull => hbad ((h.fullNew hsz).1 hfull).2
    unfold Represented at hbad
    omega
  · by_contra hbad
    rw [aborted_of_tight h hsz (full_none hfull) hbad] at hreturned
    cases hreturned

end Sizes

/-- **Sizes.** For every size and every pool: what the comparisons let through fits, and the call returns NULL or memory of that
size, exactly when the condition holds. -/
theorem sized_iff (b : Build) (m : Malloc) (p : Pool) (sz : ℕ) (hsz : sz < 2 ^ 64) (h : Standing b p) :
    Sized b m p sz ↔ SizeOk b m p sz :=
  ⟨ok_of_sized h hsz, sized_of_ok h hsz⟩

/-- in a new pool with pages of 64 bytes: 40 bytes in the page, and 57 in a block of their own -/
theorem sized_plain : Sized ⟨false, false, false⟩ bump ⟨64, [16], 24, [], []⟩ 40 ∧
    Sized ⟨false, false, false⟩ bump ⟨64, [16], 24, [], []⟩ 57 := by
  have hstanding : Standing ⟨false, false, false⟩ ⟨64, [16], 24, [], []⟩ :=
    .inr ⟨16, rfl, by decide, by decide, by decide, by decide, by decide⟩
  constructor
  · refine (sized_iff ⟨false, false, false⟩ bump _ 40 (by decide) hstanding).2 (.inl ?_)
    decide
  · refine (sized_iff ⟨false, false, false⟩ bump _ 57 (by decide) hstanding).2 (.inr ⟨.inl ?_, .inl ?_, .inl ?_⟩)
    · decide
    · decide
    · decide

/-- without Valgrind -/
theorem sized_iff_plain {b : Build} {m : Malloc} {p : Pool} {sz : ℕ} (hb : b.valgrind = false) (hsz : sz < 2 ^ 64)
    (h : Standing b p) : Sized b m p sz ↔ before_padding b p true + sz < 2 ^ 63 := by
  have hrzb : b.rzb = 0 := by
    unfold Build.rzb
    rw [hb]
    rfl
  have hleft := h.left
  have hbefore : before_padding b p true < 16 := before_padding_lt
  constructor
  · intro hs
    rcases ok_of_sized h hsz hs with hroom | ⟨hcurrent, hnew, -⟩
    · omega
    · rcases h with ⟨hpages, hsize, hcur⟩ | ⟨page, -, hcur⟩
      · have hret : before_padding b p true = 0 := by
          unfold before_padding current_ret
          rw [hcur, hrzb]
          decide
        have hzero : room_left p = 0 := by
          unfold room_left
          rw [hpages, hsize, hcur]
          rfl
        unfold Represented at hcurrent
        omega
      · obtain ⟨-, hpos, hstart, hstop, hbound⟩ := hcur
        unfold Represented at hcurrent hnew
        omega
  · intro hlt
    refine sized_of_ok h hsz (.inr ⟨.inl ?_, .inl ?_, .inl ?_⟩)
    · omega
    · omega
    · unfold tight
      omega

/-- the pools of every run of allocations, marks and drains -/
theorem standing_of_reach {b : Build} {m : Malloc} {size : ℕ} {p : Pool} {s : St} (hsize : b.page ≤ size)
    (hbound : size + 2 * b.rzb < 2 ^ 64) (hinit : shuso_pool_init b m size = some p)
    (h : Reach (step b) (Ok b) (start p) s) : Standing b s.pool :=
  .inr (reach_inv hsize hbound hinit h).wf.cursor

/-- **A negative size.** In a new page, 2^64 - 8 bytes fit, and the cursor is moved back to the header. -/
theorem sized_wraps : Standing ⟨false, false, false⟩ ⟨64, [16], 24, [], []⟩ ∧
    shuso_palloc ⟨false, false, false⟩ bump ⟨64, [16], 24, [], []⟩ (2 ^ 64 - 8) = some (some 24, ⟨64, [16], 16, [], []⟩) ∧
    ¬ Sized ⟨false, false, false⟩ bump ⟨64, [16], 24, [], []⟩ (2 ^ 64 - 8) := by
  have hcall : shuso_palloc ⟨false, false, false⟩ bump ⟨64, [16], 24, [], []⟩ (2 ^ 64 - 8) =
      some (some 24, ⟨64, [16], 16, [], []⟩) := by decide +kernel
  refine ⟨.inr ⟨16, rfl, by decide, by decide, by decide, by decide, by decide⟩, hcall, fun hs => ?_⟩
  obtain ⟨ret, p', hret, hcur, -⟩ := hs.returned
  rw [hcall] at hret
  cases hret
  exact absurd (hcur rfl) (by decide)

end Shuttlesock.Pools
