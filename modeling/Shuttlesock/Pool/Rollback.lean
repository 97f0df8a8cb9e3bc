/-
Rolling a pool back to a level: `shuso_pool_mark_level`, allocations and further marks, `shuso_pool_drain_to_level`.

Model: `Pools`. A mark gives a level, numbered from 1, in a pool that is p before and t after. Then come allocations and further
marks (`later`), from t to u, as long as no assertion fails; then the pool is drained to the level.
- `Ready`: the blocks of the pool are apart, and its cursor is in its last page, or it has no pages.
- sizes are those below 2^63 that do not overflow with their padding.
- `RolledBack`: pages, cursor, malloc'd blocks and levels are as they were at the mark.

Results:
- `later_grown`: what an allocation or a mark adds.
- `drain_eq`: what draining to the level leaves.
- `rolled_back_iff`: the exact condition for a rollback. `ready_of_reach`: it is about the pools of every run.
- `not_rolled_back`: a malloc'd block that stays allocated.
-/
import Mathlib.Tactic
import Shuttlesock.Pool.Sizes

namespace Shuttlesock.Pools

open Shuttlesock.Blocks Shuttlesock.Runs

inductive Later where
  | alloc (m : Malloc) (sz : ℕ) (align : Bool)
  | mark (m : Malloc)

/-- none: an assertion fails, or the size is too large -/
def later (b : Build) (p : Pool) : Later → Option Pool
  | .alloc m sz align => if sz + 32 ≤ 2 ^ 63 then (palloc_with_alignment b m p sz align).map Prod.snd else none
  | .mark m => (shuso_pool_mark_level b m p).map Prod.snd

def Ready (b : Build) (p : Pool) : Prop := Sep b p.size p.place ∧ Standing b p

/-- **The property** -/
structure RolledBack (t v : Pool) : Prop where
  pages : v.pages = t.pages
  cur : v.cur = t.cur
  allocd : v.allocd = t.allocd
  levels : v.levels = t.levels

/-! ## What is added -/

/-- the memory of p is still there, below what was added -/
structure Grown (b : Build) (p u : Pool) : Prop where
  ready : Ready b u
  size : u.size = p.size
  pages : p.pages <:+ u.pages
  allocd : p.allocd <:+ u.allocd
  levels : p.levels <+: u.levels

section Grown

variable {b : Build} {m : Malloc} {p q u : Pool} {sz : ℕ} {align : Bool}

theorem Grown.refl (h : Ready b p) : Grown b p p := ⟨h, rfl, List.suffix_rfl, List.suffix_rfl, List.prefix_rfl⟩

theorem Grown.trans (h1 : Grown b p q) (h2 : Grown b q u) : Grown b p u :=
  ⟨h2.ready, h2.size.trans h1.size, h1.pages.trans h2.pages, h1.allocd.trans h2.allocd, h1.levels.trans h2.levels⟩

/-- a pool with pages -/
theorem ready_of_wf (h : Wf b p.size p.place) : Ready b p := ⟨h.toSep, .inr h.cursor⟩

theorem Allocated.grown {x : Block} (h : Allocated b p q x align) : Grown b p q := by
  refine ⟨ready_of_wf ?_, h.size, h.extends'.pages, h.extends'.allocd, ?_⟩
  · rw [h.size]
    exact h.wf
  · rw [h.levels]

theorem malloc_grown (h : Ready b p) (hsz : sz + 32 ≤ 2 ^ 63) {ret : ℕ} (hm : plain_old_malloc b m p sz = some (ret, q)) :
    Grown b p q := by
  obtain ⟨c, rfl, -, -, -, hsep, -⟩ := plain_sep h.1 hsz hm
  exact ⟨⟨hsep, h.2⟩, rfl, List.suffix_rfl, List.suffix_cons _ _, List.prefix_rfl⟩

/-- without pages nothing is taken from the current one, and no page is added -/
theorem pageless_full (hpages : p.pages = []) (hsize : p.size = 0) (hcur : p.cur = 0) (hsz : sz + 32 ≤ 2 ^ 63) :
    palloc_in_current_page b p sz align = (none, p) ∧ palloc_in_new_page b m p sz align = some (none, p) := by
  have h : Standing b p := .inl ⟨hpages, hsize, hcur⟩
  have hbefore : before_padding b p align < 16 := before_padding_lt
  obtain ⟨-, hrzb⟩ := b.rzb_mod
  obtain ⟨-, hpos, -⟩ := b.page_mod
  constructor
  · unfold palloc_in_current_page
    by_cases hfull : fullCurrent b p sz align
    · rw [if_pos hfull]
    · -- no bytes, at NULL
      have hle : ¬ room_left p < before_padding b p align + sz + b.rzb := by
        intro hlt
        exact hfull ((h.full (by omega)).2 ⟨hlt, .inl (by omega)⟩)
      unfold room_left before_padding at hle
      rw [hpages, hsize, hcur, List.headD_nil] at hle
      have hret : current_ret b p align = 0 := by omega
      have hzero : sz = 0 ∧ b.rzb = 0 := by omega
      obtain ⟨size, pages, cur, allocd, levels⟩ := p
      change cur = 0 at hcur
      rw [if_neg hfull, hret, hzero.1, hzero.2, hcur]
      rfl
  · have hfull : fullNew b p.size sz := by
      rw [h.fullNew (by omega)]
      refine ⟨by omega, .inl ?_⟩
      omega
    unfold palloc_in_new_page
    rw [if_pos hfull]

theorem new_page_grown (hwf : Wf b p.size p.place) (hsz : sz + 32 ≤ 2 ^ 63) {ret : Option ℕ}
    (hp : palloc_in_new_page b m p sz align = some (ret, q)) : Grown b p q ∧ (ret = none → q = p) := by
  obtain ⟨page, hpage, hcur⟩ := hwf.cursor
  have hstart := hcur.start
  have hstop := hcur.stop
  have hbound := hcur.bound
  change page + b.page + b.rzb ≤ p.cur at hstart
  change p.cur ≤ page + p.size + b.rzb at hstop
  obtain ⟨-, hrzb⟩ := b.rzb_mod
  unfold palloc_in_new_page at hp
  split at hp
  · cases hp
    exact ⟨.refl (ready_of_wf hwf), fun _ => rfl⟩
  · cases hadd : add_page b m p with
    | none =>
      rw [hadd] at hp
      cases hp
      exact ⟨.refl (ready_of_wf hwf), fun _ => rfl⟩
    | some r =>
      rw [hadd] at hp
      obtain ⟨hsize, hlevels, hallocd, hr, page', hpages, -⟩ := add_page_wf hwf.toSep (by omega) (by omega) hadd
      rw [← hsize] at hr
      have hpr : Grown b p r := by
        refine ⟨ready_of_wf hr, hsize, ?_, ?_, ?_⟩
        · rw [hpages]
          exact List.suffix_cons _ _
        · rw [hallocd]
        · rw [hlevels]
      rcases hcurrent : palloc_in_current_page b r sz align with ⟨_ | a, q'⟩
      · simp only [hcurrent] at hp
        cases hp
      · simp only [hcurrent] at hp
        cases hp
        exact ⟨hpr.trans (current_allocated hr hsz hcurrent).grown, fun hnone => by cases hnone⟩

/-- **An allocation** adds to the pool, at most. -/
theorem palloc_grown (h : Ready b p) (hsz : sz + 32 ≤ 2 ^ 63) {ret : Option ℕ}
    (hp : palloc_with_alignment b m p sz align = some (ret, q)) : Grown b p q := by
  unfold palloc_with_alignment at hp
  by_cases hmalloc : palloc_in_current_page b p sz align = (none, p) ∧ palloc_in_new_page b m p sz align = some (none, p)
  · simp only [hmalloc.1, hmalloc.2] at hp
    cases hm : plain_old_malloc b m p sz with
    | none =>
      rw [hm] at hp
      cases hp
      exact .refl h
    | some r =>
      rw [hm] at hp
      cases hp
      exact malloc_grown h hsz hm
  · rcases h.2 with ⟨hpages, hsize, hcur⟩ | hcursor
    · exact absurd (pageless_full hpages hsize hcur hsz) hmalloc
    have hwf : Wf b p.size p.place := ⟨h.1, hcursor⟩
    rcases hcurrent : palloc_in_current_page b p sz align with ⟨_ | a, p'⟩
    · obtain ⟨page, -, hcur⟩ := hcursor
      obtain rfl : p = p' := (no_room hcur hcurrent).symm
      simp only [hcurrent] at hp
      cases hnew : palloc_in_new_page b m p sz align with
      | none =>
        rw [hnew] at hp
        cases hp
      | some r =>
        obtain ⟨ret', r⟩ := r
        obtain ⟨hgrown, hnull⟩ := new_page_grown hwf hsz hnew
        cases ret' with
        | none =>
          obtain rfl := hnull rfl
          exact absurd ⟨hcurrent, hnew⟩ hmalloc
        | some a =>
          rw [hnew] at hp
          cases hp
          exact hgrown
    · simp only [hcurrent] at hp
      cases hp
      exact (current_allocated hwf hsz hcurrent).grown

/-- a mark adds its record, which describes the pool with it -/
theorem mark_grown (h : Ready b p) {n : ℕ} (hp : shuso_pool_mark_level b m p = some (n, q)) : Grown b p q ∧
    (n ≠ 0 → ∃ addr, q.levels.length = n ∧
      q.levels[n - 1]? = some ⟨addr, q.pages.head?, q.cur, q.allocd.head?.map Allocd.addr⟩) := by
  have hlevel : b.level + 32 ≤ 2 ^ 63 := by
    have hlt := b.level_lt
    omega
  unfold shuso_pool_mark_level shuso_palloc at hp
  cases halloc : palloc_with_alignment b m p b.level true with
  | none =>
    rw [halloc] at hp
    cases hp
  | some r =>
    obtain ⟨ret, r⟩ := r
    have hgrown := palloc_grown h hlevel halloc
    rw [halloc] at hp
    cases ret with
    | none =>
      cases hp
      exact ⟨hgrown, fun hn => absurd rfl hn⟩
    | some addr =>
      simp only at hp
      split_ifs at hp
      cases hp
      refine ⟨⟨hgrown.ready, hgrown.size, hgrown.pages, hgrown.allocd, ?_⟩, fun _ => ⟨addr, List.length_append, ?_⟩⟩
      · exact hgrown.levels.trans (List.prefix_append _ _)
      · rw [Nat.add_sub_cancel, List.getElem?_append_right le_rfl, Nat.sub_self]
        rfl

theorem later_grown {a : Later} (h : Ready b p) (hp : later b p a = some q) : Grown b p q := by
  cases a with
  | alloc m sz align =>
    obtain ⟨hsz, hp⟩ := Option.ite_none_right_eq_some.1 hp
    obtain ⟨r, hr, rfl⟩ := Option.map_eq_some_iff.1 hp
    exact palloc_grown h hsz hr
  | mark m =>
    obtain ⟨r, hr, rfl⟩ := Option.map_eq_some_iff.1 hp
    exact (mark_grown h hr).1

theorem grown_of_reach (h : Ready b p) (hrun : Reach (later b) always p u) : Grown b p u := by
  refine hrun.inv (.refl h) fun q a r hq _ hstep => ?_
  exact hq.trans (later_grown hq.ready hstep)

end Grown

/-! ## Draining -/

section Drain

variable {b : Build} {t u : Pool}

/-- what is left of the malloc'd blocks -/
def drained (t u : Pool) : List Allocd := if t.allocd = [] then u.allocd else t.allocd

theorem pages_nodup (h : Ready b u) : u.pages.Nodup := by
  rcases h.2 with ⟨hpages, -⟩ | ⟨page, -, hcur⟩
  · rw [hpages]
    exact List.nodup_nil
  · have hstart := hcur.start
    have hstop := hcur.stop
    exact h.1.nodup (by omega)

theorem drainPages_of_grown (h : Grown b t u) (ht : Standing b t) : drainPages u.pages t.pages.head? = some t.pages := by
  cases hpages : t.pages with
  | nil =>
    -- a pool without pages gets none
    have hsize : u.size = 0 := by
      rw [h.size]
      rcases ht with ⟨-, hsize, -⟩ | ⟨page, hpage, -⟩
      · exact hsize
      · rw [hpages] at hpage
        cases hpage
    rcases h.ready.2 with ⟨hnil, -⟩ | ⟨page, -, hcur⟩
    · rw [hnil]
      rfl
    · obtain ⟨-, hpos, -⟩ := b.page_mod
      have hstart := hcur.start
      have hstop := hcur.stop
      omega
  | cons page rest =>
    have hsuffix := h.pages
    rw [hpages] at hsuffix
    exact drainPages_eq hsuffix rfl (pages_nodup h.ready)

theorem drainAllocd_of_grown (h : Grown b t u) :
    drainAllocd u.allocd (t.allocd.head?.map Allocd.addr) = some (drained t u) := by
  unfold drained
  cases hallocd : t.allocd with
  | nil =>
    rw [if_pos rfl]
    rfl
  | cons a rest =>
    rw [if_neg (List.cons_ne_nil _ _)]
    have hsuffix := h.allocd
    rw [hallocd] at hsuffix
    obtain ⟨k, hk, -, -, heq⟩ := drainAllocd_eq hsuffix rfl h.ready.1.allocd_nodup
    rw [heq (Option.some_ne_none _)] at hk
    exact hk

/-- **What draining leaves** -/
theorem drain_eq {n : ℕ} {addr : ℕ} (h : Grown b t u) (ht : Standing b t) (hn : n ≠ 0) (hlen : t.levels.length = n)
    (hlevel : t.levels[n - 1]? = some ⟨addr, t.pages.head?, t.cur, t.allocd.head?.map Allocd.addr⟩) :
    shuso_pool_drain_to_level u n = some (true, { u with pages := t.pages, allocd := drained t u, cur := t.cur }) := by
  obtain ⟨l, hl⟩ := h.levels
  have hlevel' : u.levels[n - 1]? = some ⟨addr, t.pages.head?, t.cur, t.allocd.head?.map Allocd.addr⟩ := by
    rw [← hl, List.getElem?_append_left (by omega)]
    exact hlevel
  have hle : n ≤ u.levels.length := by
    rw [← hl, List.length_append]
    omega
  unfold shuso_pool_drain_to_level
  rw [if_neg (not_lt.2 hle), if_neg hn]
  simp only [hlevel', drainAllocd_of_grown h, drainPages_of_grown h ht]

/-- **Rollback.** After a mark and any allocations and further marks, draining to the level brings everything back exactly when
no block was malloc'd since while there was none at the mark, and no level was marked since. -/
theorem rolled_back_iff (b : Build) (p t u : Pool) (m : Malloc) (n : ℕ) (hp : Ready b p)
    (hmark : shuso_pool_mark_level b m p = some (n, t)) (hn : n ≠ 0) (hrun : Reach (later b) always t u) :
    (∃ v, shuso_pool_drain_to_level u n = some (true, v) ∧ RolledBack t v) ↔
      (t.allocd = [] → u.allocd = []) ∧ u.levels.length = n := by
  obtain ⟨ht, hrecord⟩ := mark_grown hp hmark
  obtain ⟨addr, hlen, hlevel⟩ := hrecord hn
  have hu := grown_of_reach ht.ready hrun
  rw [drain_eq hu ht.ready.2 hn hlen hlevel]
  have hallocd : drained t u = t.allocd ↔ (t.allocd = [] → u.allocd = []) := by
    unfold drained
    split_ifs with hnil
    · rw [hnil]
      exact ⟨fun h _ => h, fun h => h rfl⟩
    · exact ⟨fun _ h => absurd h hnil, fun _ => rfl⟩
  have hlevels : u.levels = t.levels ↔ u.levels.length = n := by
    rw [← hlen]
    exact ⟨fun h => congrArg List.length h, fun h => (hu.levels.eq_of_length h.symm).symm⟩
  rw [← hallocd, ← hlevels]
  constructor
  · rintro ⟨v, hv, hback⟩
    cases hv
    exact ⟨hback.allocd, hback.levels⟩
  · rintro ⟨ha, hl⟩
    exact ⟨_, rfl, rfl, rfl, ha, hl⟩

end Drain

/-- the pools of every run of allocations, marks and drains -/
theorem ready_of_reach {b : Build} {m : Malloc} {size : ℕ} {p : Pool} {s : St} (hsize : b.page ≤ size)
    (hbound : size + 2 * b.rzb < 2 ^ 64) (hinit : shuso_pool_init b m size = some p)
    (h : Reach (step b) (Ok b) (start p) s) : Ready b s.pool :=
  ready_of_wf (reach_inv hsize hbound hinit h).wf

theorem ready_plain : Ready ⟨false, false, false⟩ plainPool := by
  have hinit : shuso_pool_init ⟨false, false, false⟩ bump 64 = some plainPool := by decide +kernel
  exact ready_of_wf (start_inv (by decide) (by decide) hinit).wf

/-- a mark, and allocations in new pages after it -/
theorem rolled_back_pages : ∃ t u v, shuso_pool_mark_level ⟨false, false, false⟩ bump plainPool = some (1, t) ∧
    Reach (later ⟨false, false, false⟩) always t u ∧ u.pages.length = 3 ∧
    shuso_pool_drain_to_level u 1 = some (true, v) ∧ RolledBack t v := by
  let t : Pool := ⟨64, [16], 48, [], [⟨24, some 16, 48, none⟩]⟩
  have hmark : shuso_pool_mark_level ⟨false, false, false⟩ bump plainPool = some (1, t) := by decide +kernel
  have hrun : (exec (later ⟨false, false, false⟩) t [.alloc bump 40 true, .alloc bump 3 false, .alloc bump 50 true]).any
      (fun u => decide (u.pages.length = 3 ∧ u.allocd = [] ∧ u.levels.length = 1)) = true := by decide +kernel
  obtain ⟨u, hu, hdecide⟩ := (Option.any_eq_true _ _).1 hrun
  obtain ⟨hpages, hallocd, hlevels⟩ := of_decide_eq_true hdecide
  have hreach := Reach.of_exec hu
  obtain ⟨v, hv, hback⟩ := (rolled_back_iff ⟨false, false, false⟩ plainPool t u bump 1 ready_plain hmark (by decide) hreach).2
    ⟨fun _ => hallocd, hlevels⟩
  exact ⟨t, u, v, hmark, hreach, hpages, hv, hback⟩

/-- **A block that stays.** No block was malloc'd at the mark: draining to the level leaves the one that was malloc'd since. -/
theorem not_rolled_back : Ready ⟨false, false, false⟩ plainPool ∧ ∃ t u v,
    shuso_pool_mark_level ⟨false, false, false⟩ bump plainPool = some (1, t) ∧
    Reach (later ⟨false, false, false⟩) always t u ∧ shuso_pool_drain_to_level u 1 = some (true, v) ∧
    t.allocd = [] ∧ v.allocd.length = 1 ∧ ¬ RolledBack t v := by
  let t : Pool := ⟨64, [16], 48, [], [⟨24, some 16, 48, none⟩]⟩
  have hmark : shuso_pool_mark_level ⟨false, false, false⟩ bump plainPool = some (1, t) := by decide +kernel
  have hrun : (exec (later ⟨false, false, false⟩) t [.alloc bump 100 true]).any (fun u =>
      (shuso_pool_drain_to_level u 1).any fun r => decide (r.1 = true ∧ r.2.allocd.length = 1)) = true := by decide +kernel
  obtain ⟨u, hu, hany⟩ := (Option.any_eq_true _ _).1 hrun
  obtain ⟨⟨done, v⟩, hv, hdecide⟩ := (Option.any_eq_true _ _).1 hany
  obtain ⟨rfl, hlength⟩ := of_decide_eq_true hdecide
  refine ⟨ready_plain, t, u, v, hmark, Reach.of_exec hu, hv, rfl, hlength, fun hback => ?_⟩
  rw [hback.allocd] at hlength
  cases hlength

end Shuttlesock.Pools
