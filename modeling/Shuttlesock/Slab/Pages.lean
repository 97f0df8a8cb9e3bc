/-
Whole pages of a slab pool (`shared_slab.c`): `ngx_slab_alloc_pages` and `ngx_slab_free_pages` as changes of the layout.

Results:
- `alloc_pages_spec`: the walk over the list of free pages ends; it takes the pages from a run that is long enough, and fails when there
  is none.
- `free_pages_spec`: the pages join the free pages in front and behind, and no NULL pointer is followed.
Steps of `ngx_slab_alloc_pages`: `Rep.carve`, `Rep.take_first_run`. Steps of `ngx_slab_free_pages`: `Rep.join_next`, `Rep.join_prev`,
`Rep.push_free`; between them the pages are in hand (`held`).
-/
import Mathlib.Tactic
import Shuttlesock.Slab.Represents

namespace Shuttlesock.Slab

open Shuttlesock.Tiling Shuttlesock.HeadedRing

variable {G : Geometry} {P P' : Pool} {L pre post old mid : List Seg} {qs : Option ℕ → List Ref} {j k n t a : ℕ} {s s' : Seg}
  {o : Option ℕ} {r : Ref}

/-! ## Loops over records -/

theorem setBusy_off (P : Pool) (i k : ℕ) (h : ∀ t, i ≤ t → t < i + k → r ≠ .page t) :
    (P.setBusy i k).slab r = P.slab r ∧ (P.setBusy i k).next r = P.next r ∧ (P.setBusy i k).prev r = P.prev r := by
  induction k generalizing P i with
  | zero => exact ⟨rfl, rfl, rfl⟩
  | succ k ih =>
    have hr : r ≠ .page i := h i le_rfl (by omega)
    obtain ⟨h1, h2, h3⟩ := ih (P.setRecord (.page i) NGX_SLAB_PAGE_BUSY .page) (i + 1) fun t h1 h2 => h t (by omega) (by omega)
    rw [Pool.setBusy]
    refine ⟨h1.trans ?_, h2.trans ?_, h3.trans ?_⟩ <;> simp [hr]

theorem setBusy_in (P : Pool) {i k : ℕ} (h1 : i ≤ t) (h2 : t < i + k) :
    (P.setBusy i k).slab (.page t) = NGX_SLAB_PAGE_BUSY ∧ (P.setBusy i k).next (.page t) = none ∧
      (P.setBusy i k).prev (.page t) = ⟨none, .page⟩ := by
  induction k generalizing P i with
  | zero => omega
  | succ k ih =>
    rw [Pool.setBusy]
    by_cases h : t = i
    · subst h
      obtain ⟨h3, h4, h5⟩ := setBusy_off (P.setRecord (.page t) NGX_SLAB_PAGE_BUSY .page) (t + 1) k (r := .page t)
        fun u hu _ e => by cases e; omega
      rw [h3, h4, h5]
      simp
    · exact ih _ (by omega) (by omega)

theorem setBusy_aside (P : Pool) (i k : ℕ) : Aside P (P.setBusy i k) := by
  induction k generalizing P i with
  | zero => exact Aside.refl P
  | succ k ih =>
    have h : Aside P (P.setRecord (.page i) NGX_SLAB_PAGE_BUSY .page) := ⟨rfl, rfl, rfl, rfl, rfl⟩
    exact h.trans (ih _ _)

theorem zeroRecords_off (P : Pool) (i k : ℕ) (h : ∀ t, i ≤ t → t < i + k → r ≠ .page t) :
    (P.zeroRecords i k).slab r = P.slab r ∧ (P.zeroRecords i k).next r = P.next r ∧ (P.zeroRecords i k).prev r = P.prev r := by
  cases r with
  | page t =>
    have : ¬ (i ≤ t ∧ t < i + k) := fun ht => h t ht.1 ht.2 rfl
    simp [Pool.zeroRecords, this]
  | _ => simp [Pool.zeroRecords]

theorem zeroRecords_in (P : Pool) {i k : ℕ} (h1 : i ≤ t) (h2 : t < i + k) : Blank (P.zeroRecords i k) t := by
  refine ⟨?_, ?_, ?_⟩ <;> simp [Pool.zeroRecords, h1, h2]

/-! ## Taking pages -/

theorem toNat_ofNat_of_le (h : n ≤ G.pages) : (BitVec.ofNat 64 n).toNat = n := by
  have := G.pages_lt
  rw [BitVec.toNat_ofNat, Nat.mod_eq_of_lt (by omega)]

theorem Rep.len_le (hR : Rep G P (pre ++ [s] ++ post) qs) : span Seg.len pre + s.len ≤ G.pages := by
  have h : SegAt (pre ++ [s] ++ post) (span Seg.len pre) s := by simp
  exact h.lt_pages hR.laid

theorem Rep.at_mid (hR : Rep G P (pre ++ [s] ++ post) qs) :
    SegAt (pre ++ [s] ++ post) (span Seg.len pre) s ∧ Shown G P (span Seg.len pre) s ∧ s.Valid G := by
  have h : SegAt (pre ++ [s] ++ post) (span Seg.len pre) s := by simp
  exact ⟨h, hR.shown _ _ h, h.valid hR.laid⟩

/-- the pages behind the first k ones of a free run take its place in the list -/
theorem Rep.carve (hR : Rep G P (pre ++ [.free n] ++ post) qs) (hk : 0 < k) (hkn : k < n) :
    ∃ P' l, P.carve (span Seg.len pre) k = some P' ∧
      Rep G P' (pre ++ [.held k, .free (n - k)] ++ post) (Function.update qs none l) ∧ Aside P P' := by
  have hL := hR.laid
  obtain ⟨hat, ⟨hslab, -, -, hblank, -⟩, hv⟩ := hR.at_mid
  have hle := hR.len_le
  simp only [Seg.len_free] at hle
  generalize ha : span Seg.len pre = a at *
  obtain ⟨ho, hx⟩ := hR.mem_of hat rfl
  have hoff : ∀ t, a < t → t < a + n → Ref.page t ∉ head none :: qs none := fun t h1 h2 =>
    hR.not_mem trivial hat h1.le h2 (.inl h1.ne')
  obtain ⟨p, m, hp, hm, hpx, hmx, hback, hnext, l, hl, hring⟩ := (hR.ring none ho).replace hx (hoff (a + k) (by omega) (by omega))
  have hnat : (P.slab (.page a)).toNat = n := by rw [hslab]; exact toNat_ofNat_of_le (G := G) (by omega)
  have hpne : ∀ t, a < t → t < a + n → Ref.page t ≠ p := fun t h1 h2 e => hoff t h1 h2 (e ▸ hp)
  have hmne : ∀ t, a < t → t < a + n → Ref.page t ≠ m := fun t h1 h2 e => hoff t h1 h2 (e ▸ hm)
  -- the record after all assignments
  generalize hP' : Pool.mk (Function.update P.slab (.page (a + k)) (P.slab (.page a) - BitVec.ofNat 64 k))
    (Function.update (Function.update P.next (.page (a + k)) (some m)) p (some (.page (a + k))))
    (Function.update (Function.update (Function.update P.prev (.page (a + n - 1)) ⟨some (.page (a + k)), .page⟩)
      (.page (a + k)) (G.back none p)) m ⟨some (.page (a + k)), .page⟩) P.mem P.pfree P.stats P.log_nomem P.errors = P'
  have hs' : P'.slab = Function.update P.slab (.page (a + k)) (P.slab (.page a) - BitVec.ofNat 64 k) := by rw [← hP']
  have hn' : P'.next = Function.update (Function.update P.next (.page (a + k)) (some m)) p (some (.page (a + k))) := by rw [← hP']
  have hp' : P'.prev = Function.update (Function.update (Function.update P.prev (.page (a + n - 1)) ⟨some (.page (a + k)), .page⟩)
      (.page (a + k)) (G.back none p)) m ⟨some (.page (a + k)), .page⟩ := by rw [← hP']
  have haside : Aside P P' := by rw [← hP']; exact ⟨rfl, rfl, rfl, rfl, rfl⟩
  -- the inner pages keep what they have, but the last one leads to the new first one
  have hinner : ∀ t, a < t → t < a + n → t ≠ a + k → P'.slab (.page t) = P.slab (.page t) ∧ P'.next (.page t) = P.next (.page t) ∧
      P'.prev (.page t) = if t = a + n - 1 then ⟨some (.page (a + k)), .page⟩ else P.prev (.page t) := by
    intro t h1 h2 h3
    have hy : Ref.page t ≠ .page (a + k) := by simp [h3]
    rw [hs', hn', hp', Function.update_of_ne hy, Function.update_of_ne (hpne t h1 h2), Function.update_of_ne hy,
      Function.update_of_ne (hmne t h1 h2), Function.update_of_ne hy]
    refine ⟨rfl, rfl, ?_⟩
    by_cases ht : t = a + n - 1
    · rw [ht, if_pos rfl, Function.update_self]
    · rw [if_neg ht, Function.update_of_ne (by simp [ht])]
  have hblank' : ∀ t, a < t → t < a + n → t ≠ a + k → Blank P' t := by
    intro t h1 h2 h3
    obtain ⟨h4, h5, h6⟩ := hinner t h1 h2 h3
    obtain ⟨h7, h8, h9⟩ := hblank t h1 h2
    refine ⟨h4.trans h7, h5.trans h8, ?_⟩
    rw [h6]
    split_ifs
    · rfl
    · exact h9
  have hlen : span Seg.len [.free n] = span Seg.len [.held k, .free (n - k)] := by
    simp only [span_cons, span_nil, Seg.len_free, Seg.len_held]
    omega
  have hvm : ∀ u ∈ [Seg.held k, .free (n - k)], u.Valid G := by
    intro u hu
    simp only [List.mem_cons, List.not_mem_nil, or_false] at hu
    rcases hu with rfl | rfl
    · exact hk
    · exact Nat.sub_pos_of_lt hkn
  refine ⟨P', l, ?_, ?_, haside⟩
  · have hlast : Ref.page a ≠ .page (a + n - 1) := by simp; omega
    have hy : Ref.page a ≠ .page (a + k) := by simp; omega
    simp only [Pool.carve, hnat, Pool.setPrev_slab, Pool.setSlab_next, Pool.setPrev_next, Pool.setNext_prev, Pool.setSlab_prev,
      Pool.setPrev_prev, Function.update_of_ne hlast, Function.update_of_ne hy, hback, hnext, Geometry.back, Prev.cast, Geometry.type,
      if_true, Option.bind_eq_bind, Option.bind_some, Pool.setNext_next, Function.update_of_ne hpx.symm, Option.some.injEq]
    rw [← hP']
    rfl
  · refine hR.edit hlen hvm (fun j u hu => ?_) (fun t _ ht => ?_) (fun o' ho' => ?_) fun o' ho' r => ?_
    · rw [ha] at hu
      simp only [at_cons, at_nil, or_false, Seg.len_held] at hu
      rcases hu with ⟨rfl, rfl⟩ | ⟨rfl, rfl⟩
      · exact fun t h1 h2 => hblank' t h1 (by omega) (by omega)
      · have hyp : Ref.page (a + k) ≠ p := hpne _ (by omega) (by omega)
        have hym : Ref.page (a + k) ≠ m := hmne _ (by omega) (by omega)
        refine ⟨?_, ?_, ?_, fun t h1 h2 => hblank' t (by omega) (by omega) (by omega), fun h1 h2 => ?_⟩
        · have hN := G.pages_lt
          rw [hs', Function.update_self, hslab]
          refine BitVec.eq_of_toNat_eq ?_
          simp only [BitVec.toNat_sub, BitVec.toNat_ofNat]
          omega
        · rw [hn', Function.update_of_ne hyp, Function.update_self]
          rfl
        · rw [hp', Function.update_of_ne hym, Function.update_self]
          rfl
        · have hlast : a + k + (n - k) - 1 = a + n - 1 := by omega
          rw [hlast, (hinner (a + n - 1) (by omega) (by omega) (by omega)).2.2, if_pos rfl]
    · rw [ha] at ht
      simp only [span_cons, span_nil, Seg.len_free, add_zero] at ht
      have hy : Ref.page t ≠ .page (a + k) := by simp only [ne_eq, Ref.page.injEq]; omega
      have hz : Ref.page t ≠ .page (a + n - 1) := by simp only [ne_eq, Ref.page.injEq]; omega
      refine hR.frame_links ho hp hm (x := .page (a + k)) (v := ⟨some (.page (a + k)), .page⟩) rfl ?_ ?_ ?_ fun n _ => by
        rw [haside.mem]
      · rw [hs', Function.update_of_ne hy]
      · rw [hn']
        by_cases h : Ref.page t = p
        · rw [h, Function.update_self, Function.update_self]
        · rw [Function.update_of_ne h, Function.update_of_ne hy, Function.update_of_ne h]
      · rw [hp']
        by_cases h : Ref.page t = m
        · rw [h, Function.update_self, Function.update_self]
        · rw [Function.update_of_ne h, Function.update_of_ne hy, Function.update_of_ne hz, Function.update_of_ne h]
    · by_cases he : o' = none
      · subst he
        rw [Function.update_self]
        refine hring.congr (fun r _ => by rw [hn']) fun r hr => ?_
        rw [hp']
        by_cases h : r = m
        · rw [h, Function.update_self, Function.update_self]; rfl
        · rw [Function.update_of_ne h, Function.update_of_ne h]
          rcases (hl r).1 hr with rfl | ⟨hr, -⟩
          · rw [Function.update_self, Function.update_self]
          · have hrn : r ≠ .page (a + n - 1) := fun e => hoff (a + n - 1) (by omega) (by omega) (e ▸ List.mem_cons_of_mem _ hr)
            have hry : r ≠ .page (a + k) := fun e => hoff (a + k) (by omega) (by omega) (e ▸ List.mem_cons_of_mem _ hr)
            rw [Function.update_of_ne hry, Function.update_of_ne hry, Function.update_of_ne hrn]
      · rw [Function.update_of_ne he]
        have hne : ∀ r ∈ head o' :: qs o', ∀ t, a < t → t < a + n → r ≠ .page t := by
          rintro r hr t h1 h2 rfl
          exact hR.not_mem ho' hat h1.le h2 (.inl h1.ne') hr
        refine (hR.ring o' ho').congr (fun r hr => ?_) fun r hr => ?_
        · rw [hn', Function.update_of_ne (ne_of_mem_of_not_mem hp (hR.disjoint ho' ho he hr)).symm,
            Function.update_of_ne (hne r hr _ (by omega) (by omega))]
        · have hr' := List.mem_cons_of_mem (head o') hr
          rw [hp', Function.update_of_ne (ne_of_mem_of_not_mem hm (hR.disjoint ho' ho he hr')).symm,
            Function.update_of_ne (hne r hr' _ (by omega) (by omega)), Function.update_of_ne (hne r hr' _ (by omega) (by omega))]
    · have hon := fun j => on_replace (o := o') (j := j) hL (hL.swap hlen hvm) (by simp only [span_cons, span_nil, Seg.len_free, Seg.len_held]; omega)
      simp only [ha, at_cons, at_nil, or_false, Seg.len_held] at hon
      by_cases he : o' = none
      · subst he
        rw [Function.update_self, hl, hR.mem none ho]
        constructor
        · rintro (rfl | ⟨⟨j, rfl, hj⟩, hne⟩)
          · exact ⟨a + k, rfl, (hon _).2 (.inl ⟨_, .inr ⟨rfl, rfl⟩, rfl⟩)⟩
          · exact ⟨j, rfl, (hon _).2 (.inr ⟨hj, fun e => hne (by rw [e])⟩)⟩
        · rintro ⟨j, rfl, hj⟩
          rcases (hon _).1 hj with ⟨u, ⟨rfl, rfl⟩ | ⟨rfl, rfl⟩, hu⟩ | ⟨hj, hne⟩
          · cases hu
          · exact .inl rfl
          · exact .inr ⟨⟨j, rfl, hj⟩, fun e => hne (by cases e; rfl)⟩
      · rw [Function.update_of_ne he, hR.mem o' ho']
        refine exists_congr fun j => and_congr_right fun _ => ?_
        constructor
        · intro hj
          refine (hon _).2 (.inr ⟨hj, ?_⟩)
          rintro rfl
          exact he (On.unique hL hj ⟨_, hat, rfl⟩)
        · intro hj
          rcases (hon _).1 hj with ⟨u, ⟨rfl, rfl⟩ | ⟨rfl, rfl⟩, hu⟩ | ⟨hj, -⟩
          · cases hu
          · exact absurd (Option.some.inj hu).symm he
          · exact hj

/-- the pages in hand become a block -/
theorem Rep.busy (hR : Rep G P (pre ++ [.held k] ++ post) qs) (x : BitVec 32) :
    Rep G (Pool.setBusy { P.setRecord (.page (span Seg.len pre)) (BitVec.ofNat 64 k ||| NGX_SLAB_PAGE_START) .page with pfree := x }
      (span Seg.len pre + 1) (k - 1)) (pre ++ [.run k] ++ post) qs := by
  obtain ⟨-, -, hv⟩ := hR.at_mid
  have hk : 0 < k := hv
  generalize hP' : Pool.setBusy _ _ _ = P'
  generalize ha : span Seg.len pre = a at *
  have hoff : ∀ r, (∀ t, a ≤ t → t < a + k → r ≠ .page t) → P'.slab r = P.slab r ∧ P'.next r = P.next r ∧ P'.prev r = P.prev r := by
    intro r hr
    obtain ⟨h1, h2, h3⟩ := setBusy_off { P.setRecord (.page a) (BitVec.ofNat 64 k ||| NGX_SLAB_PAGE_START) .page with pfree := x }
      (a + 1) (k - 1) (r := r) fun t h1 h2 => hr t (by omega) (by omega)
    have hne := hr a le_rfl (by omega)
    rw [← hP', h1, h2, h3]
    simp [hne]
  have hmem : P'.mem = P.mem := by rw [← hP', (setBusy_aside _ _ _).mem]; rfl
  refine hR.quiet [.held k] _ rfl (by simpa using show Seg.Valid G (.run k) from hk) (fun j u hu => ?_)
    ⟨fun t ht => ?_, ?_, ?_, fun t m _ _ => by rw [hmem]⟩ (by simp [Seg.list]) (by simp [Seg.list])
  · simp only [at_cons, at_nil, or_false] at hu
    obtain ⟨rfl, rfl⟩ := hu
    rw [ha]
    obtain ⟨h1, h2, h3⟩ := setBusy_off { P.setRecord (.page a) (BitVec.ofNat 64 k ||| NGX_SLAB_PAGE_START) .page with pfree := x }
      (a + 1) (k - 1) (r := .page a) fun t h1 _ e => by cases e; omega
    rw [hP'] at h1 h2 h3
    refine ⟨?_, ?_, ?_, fun t h4 h5 => ?_⟩
    · rw [h1]; simp
    · rw [h2]; simp
    · rw [h3]; simp
    · obtain ⟨h6, h7, h8⟩ := setBusy_in { P.setRecord (.page a) (BitVec.ofNat 64 k ||| NGX_SLAB_PAGE_START) .page with pfree := x }
        (i := a + 1) (k := k - 1) (t := t) (by omega) (by omega)
      rw [hP'] at h6 h7 h8
      exact ⟨h6, h7, by rw [h8]⟩
  · rw [ha] at ht
    simp only [span_cons, span_nil, Seg.len_held, add_zero] at ht
    exact (hoff _ fun u h1 h2 e => by cases e; omega).1
  · intro r hr
    rw [ha] at hr
    simp only [span_cons, span_nil, Seg.len_held, add_zero] at hr
    exact (hoff r hr).2.1
  · intro r hr
    rw [ha] at hr
    simp only [span_cons, span_nil, Seg.len_held, add_zero] at hr
    exact (hoff r hr).2.2

/-- the first k pages of a free run are taken -/
theorem Rep.take_first_run (hR : Rep G P (pre ++ [.free n] ++ post) qs) (hk : 0 < k) (hkn : k ≤ n) :
    ∃ P' l, P.take_first_run (span Seg.len pre) k = some P' ∧
      Rep G P' (pre ++ (.run k :: rest (n - k)) ++ post) (Function.update qs none l) ∧
      Aside { P with pfree := P.pfree - BitVec.ofNat 32 k } P' := by
  obtain ⟨hat, ⟨hslab, -, htype, hblank, -⟩, -⟩ := hR.at_mid
  have hle := hR.len_le
  simp only [Seg.len_free] at hle
  have hnat : (P.slab (.page (span Seg.len pre))).toNat = n := by rw [hslab]; exact toNat_ofNat_of_le (G := G) (by omega)
  have haside : ∀ {P₁ : Pool}, Aside P P₁ → Aside { P with pfree := P.pfree - BitVec.ofNat 32 k }
      (Pool.setBusy { P₁.setRecord (.page (span Seg.len pre)) (BitVec.ofNat 64 k ||| NGX_SLAB_PAGE_START) .page with
        pfree := P₁.pfree - BitVec.ofNat 32 k } (span Seg.len pre + 1) (k - 1)) := by
    intro P₁ h
    refine Aside.trans ⟨?_, ?_, ?_, ?_, ?_⟩ (setBusy_aside _ _ _)
    · exact h.mem
    · exact congrArg (· - BitVec.ofNat 32 k) h.pfree
    · exact h.stats
    · exact h.log_nomem
    · exact h.errors
  rcases Nat.lt_or_eq_of_le hkn with hlt | rfl
  · obtain ⟨P₁, l, h1, h2, h3⟩ := hR.carve hk hlt
    rw [show pre ++ [.held k, .free (n - k)] ++ post = pre ++ [.held k] ++ (.free (n - k) :: post) by simp] at h2
    refine ⟨_, l, ?_, ?_, haside h3⟩
    · rw [Pool.take_first_run, hnat, if_pos hlt, h1]
      rfl
    · have h4 := h2.busy (P₁.pfree - BitVec.ofNat 32 k)
      rw [rest, if_neg (by omega)]
      simpa using h4
  · obtain ⟨P₁, h1, h2, h3, h4⟩ := hR.unlink (o := none) rfl hblank
    refine ⟨_, (qs none).erase (.page (span Seg.len pre)), ?_, ?_, haside h4⟩
    · rw [Pool.take_first_run, hnat, if_neg (lt_irrefl k), Prev.cast, if_pos htype, h1]
      rfl
    · have h5 := h2.busy (P₁.pfree - BitVec.ofNat 32 k)
      rw [rest, if_pos (Nat.sub_self k)]
      simpa using h5

/-- the walk over the free runs finds the first one that is long enough -/
theorem alloc_pages_from_eq {fuel : ℕ} {z : Ref} {l : List Ref} (hz : z = .free) (hpath : ∃ b, Path P.next P.prev (G.back none) b l z)
    (hl : ∀ r ∈ l, ∃ j, r = .page j) (hfuel : l.length < fuel) :
    Pool.alloc_pages_from k fuel (l.headD z) P = match l.find? fun r => k ≤ (P.slab r).toNat with
      | some (.page i) => (P.take_first_run i k).map fun P => (P, some i)
      | some _ => none
      | none => some (if P.log_nomem then P.error "ngx_slab_alloc() failed: no memory" else P, none) := by
  obtain ⟨b, hpath⟩ := hpath
  induction l generalizing fuel b with
  | nil =>
    obtain ⟨fuel, rfl⟩ := Nat.exists_eq_succ_of_ne_zero (Nat.ne_of_gt hfuel)
    simp [Pool.alloc_pages_from, hz]
  | cons r l ih =>
    obtain ⟨fuel, rfl⟩ := Nat.exists_eq_succ_of_ne_zero (Nat.ne_of_gt (Nat.zero_lt_of_lt hfuel))
    obtain ⟨j, rfl⟩ := hl r List.mem_cons_self
    obtain ⟨-, -, h3⟩ := hpath
    rw [List.headD_cons, Pool.alloc_pages_from, if_neg (by simp), List.find?_cons]
    by_cases hk : k ≤ (P.slab (.page j)).toNat
    · simp [hk]
    · rw [if_neg hk, h3.next_head]
      simp only [hk, decide_false, Option.bind_eq_bind, Option.bind_some]
      exact ih (fun r hr => hl r (List.mem_cons_of_mem _ hr)) (by simpa using hfuel) (.page j) h3

/-- the free runs are not more than the pages -/
theorem Rep.length_le (hR : Rep G P L qs) : (qs none).length ≤ G.pages := by
  have hsub : qs none ⊆ (List.range G.pages).map Ref.page := by
    intro r hr
    obtain ⟨j, rfl, s, hs, -⟩ := (hR.mem none trivial r).1 hr
    have := hs.lt_pages hR.laid
    have := hs.len_pos hR.laid
    exact List.mem_map.2 ⟨j, List.mem_range.2 (by omega), rfl⟩
  have := ((List.nodup_cons.1 (hR.ring none trivial).nodup).2.subperm hsub).length_le
  simpa using this

theorem alloc_pages_spec (hR : Rep G P L qs) (hk : 0 < k) :
    (∃ pre n post P' l, L = pre ++ [.free n] ++ post ∧ k ≤ n ∧ P.ngx_slab_alloc_pages G k = some (P', some (span Seg.len pre)) ∧
      Rep G P' (pre ++ (.run k :: rest (n - k)) ++ post) (Function.update qs none l) ∧
      Aside { P with pfree := P.pfree - BitVec.ofNat 32 k } P') ∨
    (∀ n, .free n ∈ L → n < k) ∧
      P.ngx_slab_alloc_pages G k =
        some (if P.log_nomem then P.error "ngx_slab_alloc() failed: no memory" else P, none) := by
  have hring := hR.ring none trivial
  have hpages : ∀ r ∈ qs none, ∃ j, r = .page j := fun r hr => by
    obtain ⟨j, hj, -⟩ := (hR.mem none trivial r).1 hr
    exact ⟨j, hj⟩
  have heq := alloc_pages_from_eq (k := k) (z := .free) rfl ⟨_, hring.path⟩ hpages (Nat.lt_succ_of_le hR.length_le)
  have hrun : P.ngx_slab_alloc_pages G k = Pool.alloc_pages_from k (G.pages + 1) ((qs none).headD .free) P := by
    have hfirst : P.next .free = some ((qs none).headD .free) := hring.first
    rw [Pool.ngx_slab_alloc_pages, hfirst]
    rfl
  -- what a page of the list says about its run
  have hfree : ∀ j, .page j ∈ qs none → ∃ n, SegAt L j (.free n) ∧ (P.slab (.page j)).toNat = n := by
    intro j hj
    obtain ⟨i, hi, s, hs, hl⟩ := (hR.mem none trivial _).1 hj
    cases hi
    cases s with
    | free n =>
      refine ⟨n, hs, ?_⟩
      have hle := hs.lt_pages hR.laid
      rw [(hR.shown j _ hs).1]
      exact toNat_ofNat_of_le (G := G) (by simp only [Seg.len_free] at hle; omega)
    | chunks shift used =>
      rw [Seg.list_chunks] at hl
      split_ifs at hl
      cases hl
    | held n => cases hl
    | run n => cases hl
  cases hfind : (qs none).find? fun r => k ≤ (P.slab r).toNat with
  | none =>
    refine .inr ⟨fun n hn => ?_, by rw [hrun, heq, hfind]⟩
    obtain ⟨j, hj⟩ : ∃ j, SegAt L j (.free n) := exists_at_of_mem hn 0
    have hmem := (hR.mem_of hj (o := none) rfl).2
    obtain ⟨n', hs, hnat⟩ := hfree j hmem
    obtain ⟨-, hnn⟩ := SegAt.unique hj hs le_rfl (Nat.lt_add_of_pos_right (SegAt.len_pos hR.laid hj)) le_rfl
      (Nat.lt_add_of_pos_right (hs.len_pos hR.laid))
    cases hnn
    have := List.find?_eq_none.1 hfind _ hmem
    simp only [decide_eq_true_eq, hnat] at this
    omega
  | some r =>
    have hmem := List.mem_of_find?_eq_some hfind
    have hle := List.find?_some hfind
    obtain ⟨j, rfl⟩ := hpages r hmem
    obtain ⟨n, hs, hnat⟩ := hfree j hmem
    obtain ⟨pre, post, rfl, rfl⟩ := at_iff.1 hs
    rw [zero_add] at *
    rw [List.append_cons] at hR
    simp only [hnat, decide_eq_true_eq] at hle
    obtain ⟨P', l, h1, h2, h3⟩ := hR.take_first_run hk hle
    refine .inl ⟨pre, n, post, P', l, by simp, hle, ?_, h2, h3⟩
    rw [hrun, heq, hfind]
    simp only [h1, Option.map_some]

/-! ## Giving pages back -/

theorem kind_ne_page (shift : ℕ) : G.kind shift ≠ .page := by
  unfold Geometry.kind
  split_ifs <;> simp

/-- an unlink does not look at `slab` -/
theorem unlink_setSlab (P : Pool) (r x : Ref) (w : Word) (p : Option Ref) :
    (P.setSlab r w).unlink p x = (P.unlink p x).map fun P => P.setSlab r w := by
  cases p with
  | none => rfl
  | some p =>
    simp only [Pool.unlink, Option.bind_eq_bind, Option.bind_some, Pool.setNext_next, Pool.setSlab_next]
    cases Function.update P.next p (P.next x) x <;> rfl

theorem unlink_pfree (P : Pool) (x : Ref) (n : BitVec 32) (p : Option Ref) :
    Pool.unlink { P with pfree := n } p x = (P.unlink p x).map fun P => { P with pfree := n } := by
  cases p with
  | none => rfl
  | some p =>
    simp only [Pool.unlink, Option.bind_eq_bind, Option.bind_some, Pool.setNext_next]
    cases Function.update P.next p (P.next x) x <;> rfl

/-- the record of a page that is no first page of anything -/
theorem Rep.of_slab (hR : Rep G P (pre ++ [.held k] ++ post) qs) (P' : Pool) (hnext : P'.next = P.next) (hprev : P'.prev = P.prev)
    (hmem : P'.mem = P.mem) (hslab : ∀ r, r ≠ .page (span Seg.len pre) → P'.slab r = P.slab r) :
    Rep G P' (pre ++ [.held k] ++ post) qs := by
  obtain ⟨-, hshown, hv⟩ := hR.at_mid
  have hk : 0 < k := hv
  refine hR.adjust rfl hv rfl (fun t h1 h2 => ?_) hnext hprev (fun t ht => hslab _ ?_) fun t m _ _ => by rw [hmem]
  · obtain ⟨h3, h4, h5⟩ := hshown t h1 h2
    exact ⟨(hslab _ (by simp only [ne_eq, Ref.page.injEq]; omega)).trans h3, by rw [hnext, h4], by rw [hprev, h5]⟩
  · simp only [Seg.len_held] at ht
    simp only [ne_eq, Ref.page.injEq]
    omega

/-- two runs in hand that are neighbours are one, when the first page of the second says so -/
theorem Rep.merge (hR : Rep G P (pre ++ [.held j] ++ (.held k :: post)) qs) :
    Rep G (P.setRecord (.page (span Seg.len pre + j)) NGX_SLAB_PAGE_FREE .page) (pre ++ [.held (j + k)] ++ post) qs := by
  have hR' : Rep G P (pre ++ [.held j, .held k] ++ post) qs := by simpa using hR
  obtain ⟨hat, h1, hj⟩ := hR.at_mid
  have hk : 0 < k := hR.laid.valid (.held k) (by simp)
  have hat2 : SegAt (pre ++ [.held j] ++ (.held k :: post)) (span Seg.len pre + j) (.held k) := by simp
  have h2 := hR.shown _ _ hat2
  refine hR'.quiet [.held j, .held k] _ (by simp) (fun u hu => ?_) (fun i u hu => ?_) ?_ (by simp [Seg.list]) (by simp [Seg.list])
  · rw [List.mem_singleton.1 hu]
    exact Nat.add_pos_left hj k
  · simp only [at_cons, at_nil, or_false] at hu
    obtain ⟨rfl, rfl⟩ := hu
    intro t h3 h4
    by_cases ht : t = span Seg.len pre + j
    · subst ht
      exact ⟨by simp [NGX_SLAB_PAGE_FREE], by simp, by simp⟩
    · have hblank : Blank P t := by
        rcases Nat.lt_or_gt_of_ne ht with hlt | hgt
        · exact h1 t h3 hlt
        · exact h2 t hgt (by omega)
      exact ⟨by simp [ht, hblank.slab], by simp [ht, hblank.next], by simp [ht, hblank.type]⟩
  · simp only [span_cons, span_nil, Seg.len_held, add_zero]
    refine ⟨fun t ht => ?_, fun r hr => ?_, fun r hr => ?_, fun t m _ _ => rfl⟩
    · rw [Pool.setRecord_slab, Function.update_of_ne (by simp only [ne_eq, Ref.page.injEq]; omega)]
    · rw [Pool.setRecord_next, Function.update_of_ne (hr _ (by omega) (by omega))]
    · rw [Pool.setRecord_prev, Function.update_of_ne (hr _ (by omega) (by omega))]

/-- `join_next`: free pages behind the pages in hand come into the hand -/
theorem Rep.join_next (hR : Rep G P (pre ++ [.held k] ++ post) qs) (hpost : ∀ n, Seg.held n ∉ post)
    (hslab : P.slab (.page (span Seg.len pre)) = BitVec.ofNat 64 k) :
    ∃ P' n post' qs', P.join_next G (span Seg.len pre) (k - 1) = some (P', k - 1 + n) ∧
      Rep G P' (pre ++ [.held (k + n)] ++ post') qs' ∧ P'.slab (.page (span Seg.len pre)) = BitVec.ofNat 64 (k + n) ∧
      Aside P P' ∧ (post = .free n :: post' ∨ n = 0 ∧ post = post' ∧ ¬ StartsFree post) := by
  obtain ⟨-, -, hk⟩ := hR.at_mid
  have hle := hR.len_le
  simp only [Seg.len_held] at hle
  have hnat : (P.slab (.page (span Seg.len pre))).toNat = k := by rw [hslab]; exact toNat_ofNat_of_le (G := G) (by omega)
  have htotal := hR.laid.total
  simp only [span_append, span_cons, span_nil, Seg.len_held, add_zero] at htotal
  -- nothing to join
  have hskip : ¬ StartsFree post → (decide (span Seg.len pre + k < G.pages) &&
      (P.prev (.page (span Seg.len pre + k))).type == .page && (P.next (.page (span Seg.len pre + k))).isSome) = false →
      ∃ P' n post' qs', P.join_next G (span Seg.len pre) (k - 1) = some (P', k - 1 + n) ∧
      Rep G P' (pre ++ [.held (k + n)] ++ post') qs' ∧ P'.slab (.page (span Seg.len pre)) = BitVec.ofNat 64 (k + n) ∧
      Aside P P' ∧ (post = .free n :: post' ∨ n = 0 ∧ post = post' ∧ ¬ StartsFree post) := by
    intro hpost' hcond
    refine ⟨P, 0, post, qs, ?_, hR, hslab, Aside.refl P, .inr ⟨rfl, rfl, hpost'⟩⟩
    simp only [Pool.join_next, hnat, hcond, Bool.false_eq_true, if_false, add_zero]
  cases post with
  | nil =>
    refine hskip (by rintro ⟨n, post, h⟩; cases h) ?_
    simp only [span_nil, add_zero] at htotal
    simp [htotal]
  | cons s post =>
    have hL2 : pre ++ [.held k] ++ (s :: post) = (pre ++ [.held k]) ++ [s] ++ post := by simp
    have hspan : span Seg.len (pre ++ [.held k]) = span Seg.len pre + k := by simp
    have hR2 := hR
    rw [hL2] at hR2
    obtain ⟨-, hs, hv⟩ := hR2.at_mid
    rw [hspan] at hs
    cases s with
    | held n => exact absurd List.mem_cons_self (hpost n)
    | run n =>
      refine hskip (by rintro ⟨m, post', h⟩; cases h) ?_
      rw [hs.2.1]
      simp
    | chunks shift used =>
      refine hskip (by rintro ⟨m, post', h⟩; cases h) ?_
      rw [hs.1]
      simp [kind_ne_page]
    | free n =>
      obtain ⟨hslab2, hnext2, htype2, hblank, -⟩ := hs
      have hn : 0 < n := hv
      simp only [span_cons, Seg.len_free] at htotal
      have hnat2 : (P.slab (.page (span Seg.len pre + k))).toNat = n := by
        rw [hslab2]; exact toNat_ofNat_of_le (G := G) (by omega)
      have hne : Ref.page (span Seg.len pre + k) ≠ .page (span Seg.len pre) := by
        have : 0 < k := hk
        simp only [ne_eq, Ref.page.injEq]
        omega
      -- the length of both, then the second one off its list, then its first page
      have hR3 := hR.of_slab (P.setSlab (.page (span Seg.len pre)) (BitVec.ofNat 64 (k + n))) rfl rfl rfl fun r hr => by simp [hr]
      rw [hL2] at hR3
      obtain ⟨P₂, h1, h2, h3, h4⟩ := hR3.unlink (o := none) rfl (by
        rw [hspan]
        intro t ht1 ht2
        obtain ⟨h5, h6, h7⟩ := hblank t ht1 ht2
        refine ⟨?_, h6, h7⟩
        rw [Pool.setSlab_slab, Function.update_of_ne (by simp only [ne_eq, Ref.page.injEq]; omega)]
        exact h5)
      rw [hspan] at h1
      rw [Seg.len_free, show pre ++ [.held k] ++ [.held n] ++ post = pre ++ [.held k] ++ (.held n :: post) by simp] at h2
      refine ⟨_, n, post, _, ?_, h2.merge, ?_, ⟨h4.mem, h4.pfree, h4.stats, h4.log_nomem, h4.errors⟩, .inl rfl⟩
      · have hlt : span Seg.len pre + k < G.pages := by omega
        have hadd : P.slab (.page (span Seg.len pre)) + P.slab (.page (span Seg.len pre + k)) = BitVec.ofNat 64 (k + n) := by
          rw [hslab, hslab2, ← BitVec.ofNat_add]
        simp only [Pool.join_next, hnat, hlt, htype2, hnext2, decide_true, BEq.rfl, Bool.and_self, if_true, hnat2, hadd, h1,
          Option.bind_eq_bind, Option.bind_some]
      · rw [Pool.setRecord_slab, Function.update_of_ne hne.symm, h3, Pool.setSlab_slab, Function.update_self]

/-- `join_prev`: free pages in front of the pages in hand come into the hand -/
theorem Rep.join_prev (hR : Rep G P (pre ++ [.held k] ++ post) qs) (hpre : ∀ n, Seg.held n ∉ pre)
    (hslab : P.slab (.page (span Seg.len pre)) = BitVec.ofNat 64 k) (c : ℕ) :
    ∃ P' m pre' qs', P.join_prev (span Seg.len pre) c = some (P', span Seg.len pre', c + m) ∧
      Rep G P' (pre' ++ [.held (m + k)] ++ post) qs' ∧ P'.slab (.page (span Seg.len pre')) = BitVec.ofNat 64 (m + k) ∧
      Aside P P' ∧ (pre = pre' ++ [.free m] ∨ m = 0 ∧ pre = pre' ∧ ¬ EndsFree pre) := by
  obtain ⟨-, -, hk⟩ := hR.at_mid
  have hle := hR.len_le
  simp only [Seg.len_held] at hle
  have hskip : ¬ EndsFree pre → P.join_prev (span Seg.len pre) c = some (P, span Seg.len pre, c) →
      ∃ P' m pre' qs', P.join_prev (span Seg.len pre) c = some (P', span Seg.len pre', c + m) ∧
      Rep G P' (pre' ++ [.held (m + k)] ++ post) qs' ∧ P'.slab (.page (span Seg.len pre')) = BitVec.ofNat 64 (m + k) ∧
      Aside P P' ∧ (pre = pre' ++ [.free m] ∨ m = 0 ∧ pre = pre' ∧ ¬ EndsFree pre) := by
    intro hpre' hrun
    refine ⟨P, 0, pre, qs, hrun, ?_, ?_, Aside.refl P, .inr ⟨rfl, rfl, hpre'⟩⟩
    · rwa [zero_add]
    · rwa [zero_add]
  rcases List.eq_nil_or_concat pre with rfl | ⟨pre, s, rfl⟩
  · exact hskip (by rintro ⟨pre, n, h⟩; simp at h) (by simp [Pool.join_prev])
  · simp only [List.concat_eq_append] at *
    have hends : EndsFree (pre ++ [s]) ↔ ∃ n, s = .free n := by
      constructor
      · rintro ⟨pre', n, h⟩
        exact ⟨n, by simpa using (List.append_inj' h rfl).2⟩
      · rintro ⟨n, rfl⟩
        exact ⟨pre, n, rfl⟩
    have hR2 := hR
    rw [show pre ++ [s] ++ [.held k] ++ post = pre ++ [s] ++ (.held k :: post) by simp] at hR2
    obtain ⟨hat, hs, hv⟩ := hR2.at_mid
    have hlen := hat.len_pos hR2.laid
    have hspan : span Seg.len (pre ++ [s]) = span Seg.len pre + s.len := by simp
    rw [hspan] at hslab hle ⊢
    have hpos : 0 < span Seg.len pre + s.len := by omega
    cases s with
    | held n => exact absurd (by simp) (hpre n)
    | chunks shift used =>
      refine hspan ▸ hskip (by simp [hends]) ?_
      have htype : (P.prev (.page (span Seg.len pre + 1 - 1))).type = G.kind shift := hs.1
      simp only [Pool.join_prev, hspan, Seg.len_chunks, htype]
      simp [kind_ne_page]
    | run n =>
      -- the last page of a block is on no list
      have hn : 0 < n := hlen
      have hlast : P.slab (.page (span Seg.len pre + n - 1)) ≠ NGX_SLAB_PAGE_FREE ∧
          P.next (.page (span Seg.len pre + n - 1)) = none ∧ (P.prev (.page (span Seg.len pre + n - 1))).type = .page := by
        obtain ⟨h1, h2, h3, h4⟩ := hs
        by_cases h : n = 1
        · subst h
          refine ⟨?_, h2, h3⟩
          rw [show span Seg.len pre + 1 - 1 = span Seg.len pre by omega, h1]
          decide
        · obtain ⟨h5, h6, h7⟩ := h4 (span Seg.len pre + n - 1) (by omega) (by omega)
          refine ⟨?_, h6, h7⟩
          rw [h5]
          decide
      refine hspan ▸ hskip (by simp [hends]) ?_
      rw [hspan, Seg.len_run]
      simp only [Pool.join_prev, hlast.2.2, hlast.1, if_false, Option.bind_eq_bind, Option.bind_some, hlast.2.1]
      simp
    | free n =>
      obtain ⟨hslab2, hnext2, htype2, hblank, hlink⟩ := hs
      have hn : 0 < n := hlen
      simp only [Seg.len_free] at *
      have hnat2 : (P.slab (.page (span Seg.len pre))).toNat = n := by
        rw [hslab2]; exact toNat_ofNat_of_le (G := G) (by omega)
      have hk' : 0 < k := hk
      have hne : Ref.page (span Seg.len pre + n) ≠ .page (span Seg.len pre) := by
        simp only [ne_eq, Ref.page.injEq]
        omega
      -- the last page of the free run leads to its first one, or is the first one
      have hlast : (P.prev (.page (span Seg.len pre + n - 1))).type = .page ∧
          (P.slab (.page (span Seg.len pre + n - 1)) = NGX_SLAB_PAGE_FREE ∧
              (P.prev (.page (span Seg.len pre + n - 1))).ptr = some (.page (span Seg.len pre)) ∨
            P.slab (.page (span Seg.len pre + n - 1)) ≠ NGX_SLAB_PAGE_FREE ∧ span Seg.len pre + n - 1 = span Seg.len pre) := by
        by_cases h : n = 1
        · subst h
          have he : span Seg.len pre + 1 - 1 = span Seg.len pre := by omega
          rw [he, hslab2]
          exact ⟨htype2, .inr ⟨by decide, rfl⟩⟩
        · obtain ⟨h5, -, h7⟩ := hblank (span Seg.len pre + n - 1) (by omega) (by omega)
          exact ⟨h7, .inl ⟨h5, by rw [hlink (by omega) (by omega)]⟩⟩
      obtain ⟨P₂, h1, h2, h3, h4⟩ := hR2.unlink (o := none) rfl hblank
      rw [Seg.len_free] at h2
      have h5 := h2.of_slab (P₂.setSlab (.page (span Seg.len pre)) (BitVec.ofNat 64 (n + k))) rfl rfl rfl fun r hr => by
        simp [hr]
      have h6 : (P.setSlab (.page (span Seg.len pre)) (BitVec.ofNat 64 (n + k))).unlink
          ((P.setSlab (.page (span Seg.len pre)) (BitVec.ofNat 64 (n + k))).prev (.page (span Seg.len pre))).ptr
          (.page (span Seg.len pre)) = some (P₂.setSlab (.page (span Seg.len pre)) (BitVec.ofNat 64 (n + k))) := by
        rw [unlink_setSlab, Pool.setSlab_prev, h1, Option.map_some]
      refine ⟨_, n, pre, _, ?_, h5.merge, ?_, ⟨h4.mem, h4.pfree, h4.stats, h4.log_nomem, h4.errors⟩, .inl rfl⟩
      · have hadd : P.slab (.page (span Seg.len pre)) + P.slab (.page (span Seg.len pre + n)) = BitVec.ofNat 64 (n + k) := by
          rw [hslab, hslab2, ← BitVec.ofNat_add]
        obtain ⟨htype, ⟨hfree, hptr⟩ | ⟨hfree, he⟩⟩ := hlast
        · simp only [Pool.join_prev, hpos, htype, hfree, hptr, decide_true, BEq.rfl, Bool.and_self, if_true, Option.bind_eq_bind,
            Option.bind_some, hnext2, hnat2, hadd, h6]
        · rw [he] at htype hfree
          simp only [Pool.join_prev, hpos, he, htype, hfree, decide_true, BEq.rfl, Bool.and_self, if_true, if_false, Option.bind_eq_bind,
            Option.bind_some, hnext2, hnat2, hadd, h6]
      · rw [Pool.setRecord_slab, Function.update_of_ne hne.symm, Pool.setSlab_slab, Function.update_self]

/-- `push_free`: the pages in hand go to the front of the list of free pages -/
theorem Rep.push_free (hR : Rep G P (pre ++ [.held k] ++ post) qs) (hslab : P.slab (.page (span Seg.len pre)) = BitVec.ofNat 64 k) :
    ∃ P', P.push_free (span Seg.len pre) (k - 1) = some P' ∧
      Rep G P' (pre ++ [.free k] ++ post) (Function.update qs none (.page (span Seg.len pre) :: qs none)) ∧ Aside P P' := by
  obtain ⟨hat, hblank, hk⟩ := hR.at_mid
  have hk' : 0 < k := hk
  have hring := hR.ring none trivial
  have hoff : ∀ t, span Seg.len pre ≤ t → t < span Seg.len pre + k → Ref.page t ∉ head none :: qs none := fun t h1 h2 =>
    hR.not_mem trivial hat h1 h2 (.inr rfl)
  obtain ⟨m, hm, hfirst⟩ := hring.next_some (List.mem_cons_self (a := head none))
  have hmne : ∀ t, span Seg.len pre ≤ t → t < span Seg.len pre + k → Ref.page t ≠ m := fun t h1 h2 =>
    (ne_of_mem_of_not_mem hm (hoff t h1 h2)).symm
  have hfirst' : P.next .free = some m := hfirst
  generalize ha : span Seg.len pre = a at *
  generalize hprev : (if k - 1 ≠ 0 then P.setPrev (.page (a + (k - 1))) ⟨some (.page a), .page⟩ else P) = P₁
  have hP₁ : P₁.slab = P.slab ∧ P₁.next = P.next ∧ Aside P P₁ := by
    rw [← hprev]
    split_ifs
    · exact ⟨rfl, rfl, rfl, rfl, rfl, rfl, rfl⟩
    · exact ⟨rfl, rfl, Aside.refl P⟩
  have hlast : ∀ r, P₁.prev r = if r = .page (a + (k - 1)) ∧ k - 1 ≠ 0 then ⟨some (.page a), .page⟩ else P.prev r := by
    intro r
    rw [← hprev]
    by_cases h : k - 1 ≠ 0
    · by_cases hr : r = .page (a + (k - 1))
      · rw [if_pos h, hr, if_pos ⟨rfl, h⟩, Pool.setPrev_prev, Function.update_self]
      · rw [if_pos h, if_neg fun hc => hr hc.1, Pool.setPrev_prev, Function.update_of_ne hr]
    · rw [if_neg h, if_neg fun hc => h hc.2]
  refine ⟨(((P₁.setPrev (.page a) ⟨some .free, .page⟩).setNext (.page a) (some m)).setPrev m ⟨some (.page a), .page⟩).setNext .free
    (some (.page a)), ?_, ?_, hP₁.2.2.trans ⟨rfl, rfl, rfl, rfl, rfl⟩⟩
  · rw [Pool.push_free, hprev]
    simp only [Pool.setPrev_next, hP₁.2.1, hfirst', Pool.setNext_next, Function.update_self, Option.bind_eq_bind, Option.bind_some]
  · rw [← ha]
    have hma : Ref.page a ≠ m := hmne a le_rfl (by omega)
    refine hR.push rfl rfl rfl hk ?_ hfirst ?_ ?_ (fun r hr hrt => ?_) ?_ (fun _ => ?_) (fun r hr hrm hrt => ?_) (fun t _ => ?_)
      fun t n _ _ => ?_
    · rw [ha]
      refine ⟨?_, ?_, ?_, fun t h1 h2 => ?_, fun h1 h2 => ?_⟩
      · simpa [hP₁.1] using hslab
      · simp
      · simp [hma]
      · obtain ⟨h3, h4, h5⟩ := hblank t h1 h2
        have hta : Ref.page t ≠ .page a := by simp only [ne_eq, Ref.page.injEq]; omega
        have htm := hmne t h1.le h2
        refine ⟨by simpa [hP₁.1] using h3, by simp [hta, hP₁.2.1, h4], ?_⟩
        simp only [Pool.setNext_prev, Pool.setPrev_prev, Function.update_of_ne htm, Function.update_of_ne hta, hlast]
        split_ifs
        · rfl
        · exact h5
      · have he : a + k - 1 = a + (k - 1) := by omega
        have hta : Ref.page (a + (k - 1)) ≠ .page a := by simp only [ne_eq, Ref.page.injEq]; omega
        have htm := hmne (a + (k - 1)) (by omega) (by omega)
        rw [he]
        simp only [Pool.setNext_prev, Pool.setPrev_prev, Function.update_of_ne htm, Function.update_of_ne hta, hlast, true_and]
        rw [if_pos (by omega)]
    · rw [ha]; simp
    · rw [ha]; simp [head]
    · have hra : r ≠ .page a := hrt a (by omega) (by simp only [Seg.len_held]; omega)
      have hrf : r ≠ .free := hr
      rw [ha]
      simp [hra, hrf, hP₁.2.1]
    · rw [ha]; simp [hma, Geometry.back, head, Geometry.type]
    · rw [ha]; simp [Geometry.back, Geometry.type]
    · have hra : r ≠ .page a := hrt a (by omega) (by simp only [Seg.len_held]; omega)
      have hrl : r ≠ .page (a + (k - 1)) := hrt _ (by omega) (by simp only [Seg.len_held]; omega)
      rw [ha]
      simp [hra, hrm, hlast, hrl]
    · simp [hP₁.1]
    · simp [hP₁.2.2.mem]

/-- a page without chunks in use is on a list -/
theorem list_empty {shift : ℕ} (hv : (Seg.chunks shift ∅).Valid G) : Seg.list G (.chunks shift ∅) = some (some (shift - min_shift)) := by
  obtain ⟨h3, hs, -⟩ := hv
  rw [Seg.list_chunks, if_neg]
  intro hfull
  have hroom := G.reserved_room h3 hs
  rcases hfull (G.reserved shift) (by omega) with h | h
  · exact lt_irrefl _ h
  · simp at h

theorem zeroRecords_zero (P : Pool) (i : ℕ) : P.zeroRecords i 0 = P := by
  have h : ∀ r : Ref, ∀ t, i ≤ t → t < i + 0 → r ≠ .page t := fun r t h1 h2 => by omega
  ext1
  · exact funext fun r => (zeroRecords_off P i 0 (h r)).1
  · exact funext fun r => (zeroRecords_off P i 0 (h r)).2.1
  · exact funext fun r => (zeroRecords_off P i 0 (h r)).2.2
  all_goals rfl

/-- `clear_pages`: the pages come into the hand -/
theorem Rep.clear_pages (hR : Rep G P (pre ++ [s] ++ post) qs) (hs : s = .run k ∨ ∃ shift, s = .chunks shift ∅ ∧ k = 1) :
    ∃ P' qs', P.clear_pages (span Seg.len pre) k = some P' ∧
      Rep G P' (pre ++ [.held k] ++ post) qs' ∧ P'.slab (.page (span Seg.len pre)) = BitVec.ofNat 64 k ∧
      Aside { P with pfree := P.pfree + BitVec.ofNat 32 k } P' := by
  obtain ⟨hat, hshown, hv⟩ := hR.at_mid
  generalize ha : span Seg.len pre = a at *
  rcases hs with rfl | ⟨shift, rfl, rfl⟩
  · -- a block: it is on no list
    obtain ⟨h1, h2, h3, h4⟩ := hshown
    have hk : 0 < k := hv
    generalize hP' : (Pool.setSlab { P with pfree := P.pfree + BitVec.ofNat 32 k } (.page a) (BitVec.ofNat 64 k)).zeroRecords (a + 1)
      (k - 1) = P'
    have hoff : ∀ r, (∀ t, a < t → t < a + k → r ≠ .page t) → P'.slab r = Function.update P.slab (.page a) (BitVec.ofNat 64 k) r ∧
        P'.next r = P.next r ∧ P'.prev r = P.prev r := by
      intro r hr
      obtain ⟨h5, h6, h7⟩ := zeroRecords_off
        (Pool.setSlab { P with pfree := P.pfree + BitVec.ofNat 32 k } (.page a) (BitVec.ofNat 64 k)) (a + 1) (k - 1) (r := r)
        fun t h1 h2 => hr t (by omega) (by omega)
      rw [hP'] at h5 h6 h7
      exact ⟨h5, h6, h7⟩
    have haside : Aside { P with pfree := P.pfree + BitVec.ofNat 32 k } P' := by rw [← hP']; exact ⟨rfl, rfl, rfl, rfl, rfl⟩
    obtain ⟨h5, h6, -⟩ := hoff (.page a) fun t h1 _ e => by cases e; omega
    refine ⟨P', qs, ?_, ?_, ?_, haside⟩
    · simp only [Pool.clear_pages, hP', h6, h2]
      rfl
    · refine hR.quiet [.run k] _ rfl (by simpa using show Seg.Valid G (.held k) from hk) (fun j u hu => ?_) ?_
        (by simp [Seg.list]) (by simp [Seg.list])
      · rw [ha] at hu
        simp only [at_cons, at_nil, or_false] at hu
        obtain ⟨rfl, rfl⟩ := hu
        intro t h7 h8
        rw [← hP']
        exact zeroRecords_in _ (by omega) (by omega)
      · rw [ha]
        simp only [span_cons, span_nil, Seg.len_run, add_zero]
        refine ⟨fun t ht => ?_, fun r hr => ?_, fun r hr => ?_, fun t m _ _ => by rw [haside.mem]⟩
        · rw [(hoff (.page t) fun u h1 h2 e => by cases e; omega).1,
            Function.update_of_ne (by simp only [ne_eq, Ref.page.injEq]; omega)]
        · exact (hoff r fun t h1 h2 => hr t h1.le h2).2.1
        · exact (hoff r fun t h1 h2 => hr t h1.le h2).2.2
    · rw [h5, Function.update_self]
  · -- a page of chunks leaves the list of its slot
    have hl := list_empty hv
    obtain ⟨P₁, h1, h2, h3, h4⟩ := hR.unlink hl fun t h1 h2 => by simp only [Seg.len_chunks] at h2; omega
    have hsome : (P.next (.page a)).isSome := by rw [hshown.2.1, hl]; rfl
    rw [ha] at h1
    have hR' := h2.of_slab ({ P₁.setSlab (.page a) (BitVec.ofNat 64 1) with pfree := P.pfree + BitVec.ofNat 32 1 }) rfl rfl rfl
      fun r hr => by rw [ha] at hr; simp [hr]
    refine ⟨_, _, ?_, hR', ?_, ⟨h4.mem, rfl, h4.stats, h4.log_nomem, h4.errors⟩⟩
    · simp only [Pool.clear_pages, Nat.sub_self, zeroRecords_zero, Pool.setSlab_next, hsome, if_true, unlink_setSlab, unlink_pfree,
        Pool.setSlab_prev, h1, Option.map_some]
      rfl
    · simp

theorem free_pages_spec (hR : Rep G P (pre ++ [s] ++ post) qs) (hs : s = .run k ∨ ∃ shift, s = .chunks shift ∅ ∧ k = 1)
    (hheld : ∀ n, Seg.held n ∉ pre ++ post) :
    ∃ P' L' qs', P.ngx_slab_free_pages G (span Seg.len pre) k = some P' ∧ Rep G P' L' qs' ∧ Joins k pre post L' ∧
      Aside { P with pfree := P.pfree + BitVec.ofNat 32 k } P' := by
  obtain ⟨P₁, qs₁, h1, hR₁, hslab₁, haside₁⟩ := hR.clear_pages hs
  obtain ⟨P₂, n, post₂, qs₂, h2, hR₂, hslab₂, haside₂, hpost⟩ :=
    hR₁.join_next (fun n hn => hheld n (List.mem_append_right _ hn)) hslab₁
  obtain ⟨P₃, m, pre₃, qs₃, h3, hR₃, hslab₃, haside₃, hpre⟩ :=
    hR₂.join_prev (fun n hn => hheld n (List.mem_append_left _ hn)) hslab₂ (k - 1 + n)
  obtain ⟨P₄, h4, hR₄, haside₄⟩ := hR₃.push_free hslab₃
  have hk : 0 < k := by
    have := hR₁.at_mid.2.2
    exact this
  refine ⟨P₄, _, _, ?_, hR₄, ?_, haside₁.trans (haside₂.trans (haside₃.trans haside₄))⟩
  · have hlen : k - 1 + n + m = m + (k + n) - 1 := by omega
    rw [Pool.ngx_slab_free_pages, h1]
    simp only [Option.bind_eq_bind, Option.bind_some, h2, h3, hlen, h4]
  · rcases hpost with rfl | ⟨rfl, rfl, hpost⟩ <;> rcases hpre with rfl | ⟨rfl, rfl, hpre⟩
    · exact Joins.both
    · rw [zero_add]
      exact Joins.next hpre
    · exact Joins.prev hpost
    · rw [zero_add]
      exact Joins.alone hpre hpost

end Shuttlesock.Slab
