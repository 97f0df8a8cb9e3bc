/-
Circular lists with a head, doubly linked but for the head: of the head only the forward link is kept. Library: nothing here
is about shuttlesock.

`next a` is where the forward link of `a` points and `prev a` what its backward link holds; a backward link to `a` is the value
`back a`. `Path a l z`: from `a` the forward links lead through `l`, in order, to `z`, and every element of `l` has a backward link to
the one before it. `Ring h l`: a path from `h` through `l` to `h` itself, that meets nothing twice.
- `Path.congr`, `Ring.congr`: only the links of the elements matter, and the forward link of the head;
- `path_append`: a path splits at each of its elements;
- `Ring.edges`: the two neighbours of an element;
- `Ring.remove`, `Ring.push`, `Ring.replace`: what the assignments of an unlink, of a push at the front and of putting one element in
  the place of another do to a ring.
-/
import Mathlib.Tactic

namespace Shuttlesock.HeadedRing

variable {R V : Type*} {next next' : R → Option R} {prev prev' : R → V} {back : R → V}

/-- from a through the elements of the list to z -/
def Path (next : R → Option R) (prev back : R → V) : R → List R → R → Prop
  | a, [], z => next a = some z
  | a, x :: l, z => next a = some x ∧ prev x = back a ∧ Path next prev back x l z

/-- the last element of a path before its end -/
def final (a : R) (l : List R) : R := l.getLastD a

theorem final_cons (a x : R) (l : List R) : final a (x :: l) = final x l := by
  cases l <;> simp [final, List.getLastD]

theorem final_mem (a : R) (l : List R) : final a l ∈ a :: l := by
  induction l generalizing a with
  | nil => simp [final]
  | cons x l ih => rw [final_cons]; exact List.mem_cons_of_mem _ (ih x)

theorem path_append {a x z : R} {l l' : List R} :
    Path next prev back a (l ++ x :: l') z ↔
      Path next prev back a l x ∧ prev x = back (final a l) ∧ Path next prev back x l' z := by
  induction l generalizing a with
  | nil => simp [Path, final]
  | cons y l ih => simp only [List.cons_append, Path, ih, final_cons]; tauto

theorem Path.congr {a z : R} {l : List R} (h : Path next prev back a l z) (hn : ∀ r ∈ a :: l, next' r = next r)
    (hp : ∀ r ∈ l, prev' r = prev r) : Path next' prev' back a l z := by
  induction l generalizing a with
  | nil => exact (hn a (by simp)).trans h
  | cons x l ih =>
    obtain ⟨h1, h2, h3⟩ := h
    refine ⟨(hn a (by simp)).trans h1, (hp x (by simp)).trans h2, ?_⟩
    exact ih h3 (fun r hr => hn r (List.mem_cons_of_mem _ hr)) (fun r hr => hp r (List.mem_cons_of_mem _ hr))

theorem Path.next_final {a z : R} {l : List R} (h : Path next prev back a l z) : next (final a l) = some z := by
  induction l generalizing a with
  | nil => exact h
  | cons x l ih => rw [final_cons]; exact ih h.2.2

/-- the first element of a path -/
theorem Path.next_head {a z : R} {l : List R} (h : Path next prev back a l z) : next a = some (l.headD z) := by
  cases l with
  | nil => exact h
  | cons x l => exact h.1

theorem Path.next_some {a z : R} {l : List R} (h : Path next prev back a l z) {r : R} (hr : r ∈ a :: l) :
    ∃ b ∈ l ++ [z], next r = some b := by
  induction l generalizing a with
  | nil =>
    obtain rfl : r = a := by simpa using hr
    exact ⟨z, by simp, h⟩
  | cons x l ih =>
    rcases List.mem_cons.1 hr with rfl | hr
    · exact ⟨x, by simp, h.1⟩
    · obtain ⟨b, hb, hbr⟩ := ih h.2.2 hr
      exact ⟨b, List.mem_cons_of_mem _ hb, hbr⟩

section Update

variable [DecidableEq R]

/-- the end of a path is what the last forward link says -/
theorem Path.retarget {a z : R} {l : List R} (h : Path next prev back a l z) (hl : (a :: l).Nodup) (z' : R) :
    Path (Function.update next (final a l) (some z')) prev back a l z' := by
  induction l generalizing a with
  | nil => exact Function.update_self _ _ _
  | cons x l ih =>
    have hx : a ∉ x :: l := (List.nodup_cons.1 hl).1
    have hne : a ≠ final x l := fun e => hx (e ▸ final_mem x l)
    rw [final_cons]
    exact ⟨by rw [Function.update_of_ne hne]; exact h.1, h.2.1, ih h.2.2 (List.nodup_cons.1 hl).2⟩

end Update

/-! ## Rings -/

structure Ring (next : R → Option R) (prev back : R → V) (h : R) (l : List R) : Prop where
  nodup : (h :: l).Nodup
  path : Path next prev back h l h

variable {h x : R} {l : List R}

theorem Ring.congr (hr : Ring next prev back h l) (hn : ∀ r ∈ h :: l, next' r = next r) (hp : ∀ r ∈ l, prev' r = prev r) :
    Ring next' prev' back h l :=
  ⟨hr.nodup, hr.path.congr hn hp⟩

theorem Ring.not_mem (hr : Ring next prev back h l) : h ∉ l := (List.nodup_cons.1 hr.nodup).1

theorem Ring.first (hr : Ring next prev back h l) : next h = some (l.headD h) := hr.path.next_head

/-- an element of the ring does not lead to itself -/
theorem Ring.next_ne (hr : Ring next prev back h l) (hx : x ∈ l) : next x ≠ some x := by
  obtain ⟨pre, post, rfl⟩ := List.append_of_mem hx
  have h1 := (path_append.1 hr.path).2.2.next_head
  have hnd := hr.nodup
  intro e
  rw [e, Option.some.injEq] at h1
  cases post with
  | nil => simp only [List.headD_nil] at h1; subst h1; simp at hnd
  | cons y post => simp only [List.headD_cons] at h1; subst h1; simp [List.nodup_append] at hnd

theorem Ring.next_some (hr : Ring next prev back h l) (hx : x ∈ h :: l) : ∃ y ∈ h :: l, next x = some y := by
  obtain ⟨y, hy, hxy⟩ := hr.path.next_some hx
  refine ⟨y, ?_, hxy⟩
  rcases List.mem_append.1 hy with hy | hy
  · exact List.mem_cons_of_mem _ hy
  · rw [List.mem_singleton.1 hy]
    exact List.mem_cons_self

theorem Ring.prev_back (hr : Ring next prev back h l) (hx : x ∈ l) : ∃ p ∈ h :: l, p ≠ x ∧ prev x = back p := by
  obtain ⟨pre, post, rfl⟩ := List.append_of_mem hx
  have hm := final_mem h pre
  have hnd := hr.nodup
  rw [← List.cons_append, List.nodup_append] at hnd
  refine ⟨final h pre, ?_, ?_, (path_append.1 hr.path).2.1⟩
  · rw [← List.cons_append]
    exact List.mem_append_left _ hm
  · exact hnd.2.2 _ hm _ List.mem_cons_self

/-- the ring of a head that leads to itself is empty -/
theorem Ring.eq_nil_iff (hr : Ring next prev back h l) : next h = some h ↔ l = [] := by
  rw [hr.first, Option.some.injEq]
  cases l with
  | nil => simp
  | cons y l =>
    have : h ∉ y :: l := hr.not_mem
    simp only [List.headD_cons, List.cons_ne_nil, iff_false]
    rintro rfl
    exact this List.mem_cons_self

/-- a new element at the front: it leads to the old first one, and back to the head -/
theorem Ring.push (hr : Ring next prev back h l) (hx : x ∉ h :: l) {n : R} (hn : next h = some n) (hxn : next' x = some n)
    (hxp : prev' x = back h) (hh : next' h = some x) (hnp : n ≠ h → prev' n = back x) (hne : ∀ r ∈ l, next' r = next r)
    (hpr : ∀ r ∈ l, r ≠ n → prev' r = prev r) : Ring next' prev' back h (x :: l) := by
  have hx' : x ≠ h ∧ x ∉ l := by simpa using hx
  refine ⟨?_, hh, hxp, ?_⟩
  · rw [List.nodup_cons, List.mem_cons]
    exact ⟨fun e => e.elim (fun e => hx'.1 e.symm) hr.not_mem, List.nodup_cons.2 ⟨hx'.2, (List.nodup_cons.1 hr.nodup).2⟩⟩
  · cases l with
    | nil =>
      obtain rfl : h = n := Option.some.inj (hr.path.symm.trans hn)
      exact hxn
    | cons y l =>
      obtain ⟨h1, h2, h3⟩ := hr.path
      obtain rfl : y = n := Option.some.inj (h1.symm.trans hn)
      have hyh : y ≠ h := fun e => hr.not_mem (by simp [e])
      have hyl : y ∉ l := (List.nodup_cons.1 (List.nodup_cons.1 hr.nodup).2).1
      refine ⟨hxn, hnp hyh, h3.congr hne fun r hrm => hpr r (List.mem_cons_of_mem _ hrm) ?_⟩
      rintro rfl
      exact hyl hrm

section Update

variable [DecidableEq R]

/-- an element taken out: its neighbours are linked -/
theorem Ring.remove (hr : Ring next prev back h l) (hx : x ∈ l) :
    ∃ p n, p ∈ h :: l ∧ n ∈ h :: l ∧ p ≠ x ∧ n ≠ x ∧ prev x = back p ∧ next x = some n ∧
      Ring (Function.update next p (some n)) (Function.update prev n (back p)) back h (l.erase x) := by
  obtain ⟨pre, post, rfl⟩ := List.append_of_mem hx
  have hnd := hr.nodup
  obtain ⟨h1, h2, h3⟩ := path_append.1 hr.path
  have hxpre : x ∉ h :: pre := by
    intro hm
    rw [← List.cons_append, List.nodup_append] at hnd
    exact hnd.2.2 x hm x List.mem_cons_self rfl
  have hlist : (pre ++ x :: post).erase x = pre ++ post := by
    rw [List.erase_append_right _ fun hm => hxpre (List.mem_cons_of_mem _ hm), List.erase_cons_head]
  have hnd' : (h :: (pre ++ post)).Nodup := by
    rw [← hlist]
    exact hnd.sublist (List.Sublist.cons_cons _ List.erase_sublist)
  have hp := final_mem h pre
  have hpx : final h pre ≠ x := fun e => hxpre (e ▸ hp)
  have hhead : (h :: pre).Nodup := hnd'.sublist (List.Sublist.cons_cons _ (List.sublist_append_left _ _))
  refine ⟨final h pre, post.headD h, ?_, ?_, hpx, ?_, h2, h3.next_head, ?_⟩
  · rw [← List.cons_append]; exact List.mem_append_left _ hp
  · cases post <;> simp
  · cases post with
    | nil => exact fun e => hxpre (by simp only [List.headD_nil] at e; simp [e])
    | cons y post => intro e; simp only [List.headD_cons] at e; subst e; simp [List.nodup_append] at hnd
  · rw [hlist]
    refine ⟨hnd', ?_⟩
    cases post with
    | nil =>
      rw [List.append_nil, List.headD_nil]
      refine (h1.retarget hhead h).congr (fun _ _ => rfl) fun r hrm => Function.update_of_ne ?_ _ _
      rintro rfl
      exact (List.nodup_cons.1 hhead).1 hrm
    | cons y post =>
      obtain ⟨h4, h5, h6⟩ := h3
      simp only [List.headD_cons]
      have hdis := hnd'
      rw [← List.cons_append, List.nodup_append] at hdis
      rw [path_append]
      refine ⟨?_, by rw [Function.update_self], ?_⟩
      · refine (h1.retarget hhead y).congr (fun _ _ => rfl) fun r hrm => Function.update_of_ne ?_ _ _
        exact fun e => hdis.2.2 r (List.mem_cons_of_mem _ hrm) y List.mem_cons_self e
      · refine h6.congr (fun r hrm => Function.update_of_ne ?_ _ _) fun r hrm => Function.update_of_ne ?_ _ _
        · exact fun e => hdis.2.2 _ hp r hrm e.symm
        · rintro rfl
          exact (List.nodup_cons.1 hdis.2.1).1 hrm

/-- a new element in the place of one that is taken out -/
theorem Ring.replace (hr : Ring next prev back h l) (hx : x ∈ l) {y : R} (hy : y ∉ h :: l) :
    ∃ p n, p ∈ h :: l ∧ n ∈ h :: l ∧ p ≠ x ∧ n ≠ x ∧ prev x = back p ∧ next x = some n ∧
      ∃ l', (∀ r, r ∈ l' ↔ r = y ∨ r ∈ l ∧ r ≠ x) ∧
        Ring (Function.update (Function.update next y (some n)) p (some y))
          (Function.update (Function.update prev y (back p)) n (back y)) back h l' := by
  obtain ⟨pre, post, rfl⟩ := List.append_of_mem hx
  have hnd := hr.nodup
  obtain ⟨h1, h2, h3⟩ := path_append.1 hr.path
  have hcut := hnd
  rw [← List.cons_append, List.nodup_append] at hcut
  obtain ⟨hhead, htail, hdis⟩ := hcut
  have hp := final_mem h pre
  have hy' : y ∉ h :: pre ∧ y ≠ x ∧ y ∉ post := by
    simp only [List.mem_cons, List.mem_append, not_or] at hy ⊢
    tauto
  have hxpost : x ∉ post := (List.nodup_cons.1 htail).1
  have hxpre : x ∉ h :: pre := fun hm => hdis x hm x List.mem_cons_self rfl
  have hyp : y ≠ final h pre := fun e => hy'.1 (e ▸ hp)
  refine ⟨final h pre, post.headD h, ?_, ?_, fun e => hxpre (e ▸ hp), ?_, h2, h3.next_head, pre ++ y :: post, ?_, ?_, ?_⟩
  · rw [← List.cons_append]; exact List.mem_append_left _ hp
  · cases post <;> simp
  · cases post with
    | nil => exact fun e => hxpre (by simp only [List.headD_nil] at e; simp [e])
    | cons w post => exact fun e => hxpost (by simp only [List.headD_cons] at e; simp [e])
  · intro r
    have hrpre : r ∈ pre → r ≠ x := fun hm e => hxpre (e ▸ List.mem_cons_of_mem _ hm)
    have hrpost : r ∈ post → r ≠ x := fun hm e => hxpost (e ▸ hm)
    simp only [List.mem_append, List.mem_cons]
    tauto
  · rw [← List.cons_append, List.nodup_append]
    refine ⟨hhead, List.nodup_cons.2 ⟨hy'.2.2, (List.nodup_cons.1 htail).2⟩, fun a ha b hb => ?_⟩
    rcases List.mem_cons.1 hb with rfl | hb
    · exact fun e => hy'.1 (e ▸ ha)
    · exact hdis a ha b (List.mem_cons_of_mem _ hb)
  · rw [path_append]
    refine ⟨?_, ?_, ?_⟩
    · refine (h1.retarget hhead y).congr (fun r hm => ?_) fun r hm => ?_
      · rw [Function.update_comm hyp, Function.update_of_ne (ne_of_mem_of_not_mem hm hy'.1)]
      · have hn : r ≠ post.headD h := by
          cases post with
          | nil => exact fun e => (List.nodup_cons.1 hhead).1 (by simp only [List.headD_nil] at e; exact e ▸ hm)
          | cons w post => exact hdis r (List.mem_cons_of_mem _ hm) w (by simp)
        rw [Function.update_of_ne hn, Function.update_of_ne (ne_of_mem_of_not_mem (List.mem_cons_of_mem _ hm) hy'.1)]
    · have hn : y ≠ post.headD h := by
        cases post with
        | nil => exact fun e => hy'.1 (by simp only [List.headD_nil] at e; simp [e])
        | cons w post => exact fun e => hy'.2.2 (by simp only [List.headD_cons] at e; simp [e])
      rw [Function.update_of_ne hn, Function.update_self]
    · cases post with
      | nil =>
        show Function.update _ _ _ y = _
        rw [Function.update_of_ne hyp, Function.update_self, List.headD_nil]
      | cons w post =>
        obtain ⟨-, -, h6⟩ := h3
        refine ⟨by rw [Function.update_of_ne hyp, Function.update_self, List.headD_cons], by simp, ?_⟩
        refine h6.congr (fun r hm => ?_) fun r hm => ?_
        · rw [Function.update_of_ne fun e => hdis _ hp r (List.mem_cons_of_mem _ hm) e.symm,
            Function.update_of_ne (ne_of_mem_of_not_mem hm hy'.2.2)]
        · have hwr : r ≠ w := fun e => (List.nodup_cons.1 (List.nodup_cons.1 htail).2).1 (e ▸ hm)
          rw [List.headD_cons, Function.update_of_ne hwr,
            Function.update_of_ne (ne_of_mem_of_not_mem (List.mem_cons_of_mem _ hm) hy'.2.2)]

end Update

end Shuttlesock.HeadedRing
