/-
The intrusive doubly linked list of `include/shuttlesock/llist.h`, as `shuso_add_timer_watcher` and
`shuso_remove_timer_watcher` use it for the timer watchers (`watchers.c`).

Model: `St E` is the list header (`head`, `tail`, `count`) and the link fields of all elements; elements are
addresses `E`, `none` is NULL. `llist_init`, `llist_prepend`, `llist_append`, `llist_remove` are the macros, one
record update for each assignment, in the order of the assignments. `apply` runs them and `applyLive` follows with the
list of live elements that a user of the list has in mind: appended at the end, prepended at the front, removed
elements gone. An operation is legal when it adds an element that is not in the list or removes one that is.

`Good s live`: next from head gives exactly `live`, prev from tail the reverse, `count` is its length and no link
leads out of it.

Results:
- `append_good`, `prepend_empty_good`, `remove_head_good`: the steps that keep the list good.
- `prepend_nonempty_bad`, `remove_inner_bad`: `llist_prepend` never moves `head` of a non-empty list, and
  `llist_remove` always moves it, so the other steps break a good list at once.
- `llist_good_iff`: a legal sequence of operations keeps the list good throughout if and only if every prepend meets
  an empty list and every removal takes the first element.
- `llist_not_good`: removing the second of two appended elements leaves `head` NULL, the first one lost.
-/
import Mathlib.Tactic
import Shuttlesock.Core.Links

namespace Shuttlesock.LList

open Shuttlesock.Links

/-! ## Model -/

/-- a list header and the link fields of the elements -/
structure St (E : Type*) where
  head : Option E
  tail : Option E
  count : ℕ
  next : E → Option E
  prev : E → Option E

variable {E : Type*}

/-! ## What a good list is -/

structure Good (ll : St E) (live : List E) : Prop where
  fwd : Follows ll.next ll.head live
  bwd : Follows ll.prev ll.tail live.reverse
  len : ll.count = live.length
  /-- no link of the list leads to an element that is not in it -/
  closed : ∀ e ∈ live, ∀ x, ll.next e = some x ∨ ll.prev e = some x → x ∈ live

theorem good_of_chains {ll : St E} {live : List E} (hf : Follows ll.next ll.head live)
    (hb : Follows ll.prev ll.tail live.reverse) (hl : ll.count = live.length) : Good ll live := by
  refine ⟨hf, hb, hl, fun e he x hx => ?_⟩
  rcases hx with hx | hx
  · exact hf.link_mem he hx
  · exact List.mem_reverse.1 (hb.link_mem (List.mem_reverse.2 he) hx)

theorem Good.head_eq {ll : St E} {live : List E} (h : Good ll live) : ll.head = live.head? := h.fwd.start

theorem Good.tail_eq {ll : St E} {live : List E} (h : Good ll live) : ll.tail = live.getLast? := by
  rw [h.bwd.start, List.head?_reverse]

/-! ## The macros -/

variable [DecidableEq E]

/-- `llist_init(ll)` -/
def llist_init (ll : St E) : St E := { ll with head := none, tail := none, count := 0 }

/-- `llist_prepend(ll, el)` -/
def llist_prepend (ll : St E) (el : E) : St E :=
  let ll := match ll.head with
    | none => { ll with head := some el, next := Function.update ll.next el none }
    | some h =>
      -- `(ll).head->prev = el; (el)->next = (ll).head;` and head stays as it is
      { ll with prev := Function.update ll.prev h (some el), next := Function.update ll.next el (some h) }
  let ll := if ll.tail = none then { ll with tail := some el } else ll
  { ll with count := ll.count + 1, prev := Function.update ll.prev el none }

/-- `llist_append(ll, el)` -/
def llist_append (ll : St E) (el : E) : St E :=
  let ll := match ll.tail with
    | none => { ll with tail := some el, head := some el, prev := Function.update ll.prev el none }
    | some t =>
      { ll with next := Function.update ll.next t (some el), prev := Function.update ll.prev el (some t),
                tail := some el }
  { ll with count := ll.count + 1, next := Function.update ll.next el none }

/-- `llist_remove(ll, el)` -/
def llist_remove (ll : St E) (el : E) : St E :=
  let ll := if ll.tail = some el then { ll with tail := ll.prev el } else ll
  -- the test is on `(ll).head`, not on `(ll).head == el`
  let ll := if ll.head ≠ none then { ll with head := ll.next el } else ll
  let ll := match ll.next el with
    | none => ll
    | some n => { ll with prev := Function.update ll.prev n ((ll.prev el).bind ll.next) }
  let ll := match ll.prev el with
    | none => ll
    | some p => { ll with next := Function.update ll.next p ((ll.next el).bind ll.prev) }
  { ll with count := ll.count - 1, next := Function.update ll.next el none,
            prev := Function.update ll.prev el none }

inductive Op (E : Type*) where
  | init
  | append (el : E)
  | prepend (el : E)
  | remove (el : E)
deriving DecidableEq, Repr

/-- the macros -/
def apply (ll : St E) : Op E → St E
  | .init => llist_init ll
  | .append el => llist_append ll el
  | .prepend el => llist_prepend ll el
  | .remove el => llist_remove ll el

/-- the elements that are in the list after an operation, in order -/
def applyLive (live : List E) : Op E → List E
  | .init => []
  | .append el => live ++ [el]
  | .prepend el => el :: live
  | .remove el => live.erase el

/-- an added element is fresh, a removed one is in the list -/
def legal (live : List E) : Op E → Prop
  | .init => True
  | .append el => el ∉ live
  | .prepend el => el ∉ live
  | .remove el => el ∈ live

/-- the list after a sequence of operations -/
def run (ll : St E) (ops : List (Op E)) : St E := ops.foldl apply ll

def runLive (live : List E) (ops : List (Op E)) : List E := ops.foldl applyLive live

/-- every operation of the sequence is legal where it is done -/
def Legal (live : List E) : List (Op E) → Prop
  | [] => True
  | op :: ops => legal live op ∧ Legal (applyLive live op) ops

/-! ## The steps that keep a good list good -/

omit [DecidableEq E] in
theorem init_good (ll : St E) : Good (llist_init ll) [] :=
  good_of_chains rfl rfl rfl

theorem append_good {ll : St E} {live : List E} {el : E} (h : Good ll live) (hel : el ∉ live) :
    Good (llist_append ll el) (live ++ [el]) := by
  rcases List.eq_nil_or_concat live with rfl | ⟨l, t, rfl⟩
  · have ht : ll.tail = none := h.tail_eq
    refine good_of_chains ?_ ?_ ?_
    · simp [llist_append, ht]
    · simp [llist_append, ht]
    · simpa [llist_append, ht] using h.len
  · have ht : ll.tail = some t := by simp [h.tail_eq]
    have hfwd : Follows ll.next ll.head (l ++ [t]) := by simpa using h.fwd
    have hbwd : Follows ll.prev (some t) (l.concat t).reverse := ht ▸ h.bwd
    refine good_of_chains ?_ ?_ ?_
    · simpa [llist_append, ht] using hfwd.snoc (x := el) (by simpa using hel)
    · rw [List.reverse_append, List.reverse_singleton, List.singleton_append]
      refine ⟨by simp [llist_append, ht], ?_⟩
      simpa [llist_append, ht] using hbwd.update (v := some t) (x := el) (by simpa [and_comm] using hel)
    · simp [llist_append, ht, h.len]

theorem prepend_empty_good {ll : St E} {el : E} (h : Good ll []) : Good (llist_prepend ll el) [el] := by
  have hh : ll.head = none := h.head_eq
  have ht : ll.tail = none := h.tail_eq
  refine good_of_chains ?_ ?_ ?_
  · simp [llist_prepend, hh, ht]
  · simp [llist_prepend, hh, ht]
  · simpa [llist_prepend, hh, ht] using h.len

theorem remove_head_good {ll : St E} {live : List E} {el : E} (h : Good ll (el :: live)) :
    Good (llist_remove ll el) live := by
  have hh : ll.head = some el := h.head_eq
  have hnd := h.fwd.nodup
  have hel : el ∉ live := (List.nodup_cons.1 hnd).1
  have hfwd : Follows ll.next (ll.next el) live := h.fwd.2
  have hprev : ll.prev el = none := by
    have hb := h.bwd
    rw [List.reverse_cons] at hb
    exact hb.link_eq
  cases live with
  | nil =>
    have ht : ll.tail = some el := h.tail_eq
    have hn : ll.next el = none := hfwd
    refine good_of_chains ?_ ?_ ?_
    · simp [llist_remove, hh, ht, hn, hprev]
    · simp [llist_remove, hh, ht, hn, hprev]
    · simp [llist_remove, hh, ht, hn, hprev, h.len]
  | cons n l =>
    have hn : ll.next el = some n := hfwd.1
    have ht : ll.tail ≠ some el := by
      intro he
      rw [h.tail_eq, List.getLast?_cons_cons] at he
      exact hel (List.mem_of_getLast? he)
    have hne : el ≠ n := fun he => hel (by simp [he])
    have hbwd : Follows ll.prev ll.tail (l.reverse ++ [n, el]) := by simpa using h.bwd
    refine good_of_chains ?_ ?_ ?_
    · have := hfwd.update (v := none) (x := el) hel
      simpa [llist_remove, hh, ht, hn, hprev, hne, Function.update_of_ne] using this
    · -- the chain back from the tail now ends at `n`, whose prev is set to NULL
      simpa [llist_remove, hh, ht, hn, hprev, Function.update_of_ne hne] using hbwd.cut
    · simp [llist_remove, hh, ht, hn, hprev, h.len, Function.update_of_ne hne]

/-! ## The steps that break a good list -/

theorem prepend_nonempty_bad {ll : St E} {live : List E} {el : E} (h : Good ll live) (hl : live ≠ [])
    (hel : el ∉ live) : ¬ Good (llist_prepend ll el) (el :: live) := by
  intro hg
  obtain ⟨f, l, rfl⟩ := List.exists_cons_of_ne_nil hl
  have hh : ll.head = some f := h.head_eq
  have hhead : (llist_prepend ll el).head = some f := by
    simp only [llist_prepend, hh]; split_ifs <;> rfl
  rw [hg.head_eq, List.head?_cons, Option.some.injEq] at hhead
  exact hel (by simp [hhead])

theorem remove_head {ll : St E} {el : E} (hh : ll.head ≠ none) : (llist_remove ll el).head = ll.next el := by
  unfold llist_remove
  simp only [apply_ite St.head, apply_ite St.next, ite_self]
  split <;> split <;> simp [hh]

theorem remove_inner_bad {ll : St E} {live : List E} {f el : E} (h : Good ll (f :: live)) (hel : el ∈ live)
    (hne : el ≠ f) : ¬ Good (llist_remove ll el) ((f :: live).erase el) := by
  intro hg
  have hh : ll.head = some f := h.head_eq
  have hhead := hg.head_eq
  rw [remove_head (by simp [hh]), List.erase_cons_tail (by simpa using hne.symm), List.head?_cons] at hhead
  exact h.fwd.link_ne_first (List.mem_cons_of_mem f hel) hhead

/-! ## Runs -/

/-- a prepend meets an empty list, a removal takes the first element -/
def OkOp (live : List E) : Op E → Prop
  | .prepend _ => live = []
  | .remove el => live.head? = some el
  | _ => True

theorem step_good_iff {ll : St E} {live : List E} (h : Good ll live) {op : Op E} (hl : legal live op) :
    Good (apply ll op) (applyLive live op) ↔ OkOp live op := by
  cases op with
  | init => exact iff_of_true (init_good ll) trivial
  | append el => exact iff_of_true (append_good h hl) trivial
  | prepend el =>
    refine ⟨fun hg => ?_, fun hok => ?_⟩
    · by_contra hne
      exact prepend_nonempty_bad h hne hl hg
    · simp only [OkOp] at hok
      subst hok
      exact prepend_empty_good h
  | remove el =>
    simp only [legal] at hl
    obtain ⟨f, l, rfl⟩ := List.exists_cons_of_ne_nil (List.ne_nil_of_mem hl)
    simp only [OkOp, List.head?_cons, Option.some.injEq, apply, applyLive]
    by_cases hfe : f = el
    · subst hfe
      simp only [List.erase_cons_head, iff_true]
      exact remove_head_good h
    · refine iff_of_false (remove_inner_bad h ?_ (Ne.symm hfe)) hfe
      exact (List.mem_cons.1 hl).resolve_left (Ne.symm hfe)

/-- every operation of the sequence is such a one -/
def OkRun (live : List E) : List (Op E) → Prop
  | [] => True
  | op :: ops => OkOp live op ∧ OkRun (applyLive live op) ops

theorem run_good_iff {ll : St E} {live : List E} (h : Good ll live) {ops : List (Op E)} (hl : Legal live ops) :
    (∀ pre, pre <+: ops → Good (run ll pre) (runLive live pre)) ↔ OkRun live ops := by
  induction ops generalizing ll live with
  | nil =>
    refine iff_of_true (fun pre hp => ?_) trivial
    rw [List.prefix_nil.1 hp]
    exact h
  | cons op ops ih =>
    refine ⟨fun hg => ?_, fun hok pre hp => ?_⟩
    · have h1 : Good (apply ll op) (applyLive live op) := hg [op] (by simp)
      refine ⟨(step_good_iff h hl.1).1 h1, (ih h1 hl.2).1 fun pre hp => ?_⟩
      exact hg (op :: pre) (List.cons_prefix_cons.2 ⟨rfl, hp⟩)
    · rcases List.prefix_cons_iff.1 hp with rfl | ⟨pre', rfl, hp'⟩
      · exact h
      · exact (ih ((step_good_iff h hl.1).2 hok.1) hl.2).2 hok.2 pre' hp'

/-- **When the timer list stays good.** From `llist_init` on, a legal sequence of operations leaves a good list after
each of them if and only if every prepend meets an empty list and every removal takes the first element. -/
theorem llist_good_iff (mem : St E) (ops : List (Op E)) (hl : Legal [] ops) :
    (∀ pre, pre <+: ops → Good (run (llist_init mem) pre) (runLive [] pre)) ↔ OkRun [] ops :=
  run_good_iff (init_good mem) hl

/-- a first-in-first-out use of the list meets the condition -/
theorem llist_good_fifo :
    (∀ pre, pre <+: [Op.append 0, .append 1, .remove 0, .remove 1] →
      Good (run (llist_init (⟨none, none, 0, fun _ => none, fun _ => none⟩ : St ℕ)) pre) (runLive [] pre)) ↔
        OkRun [] [Op.append 0, .append 1, .remove 0, .remove 1] :=
  llist_good_iff ⟨none, none, 0, fun _ => none, fun _ => none⟩ _ (by simp [Legal, legal, applyLive])

/-- **Removing the second of two timers loses the first.** The list says that it has one element and reaches none. -/
theorem llist_not_good :
    ¬ ∀ (mem : St ℕ) (ops : List (Op ℕ)), Legal [] ops → Good (run (llist_init mem) ops) (runLive [] ops) := by
  intro h
  have hg := h ⟨none, none, 0, fun _ => none, fun _ => none⟩ [.append 0, .append 1, .remove 1]
    (by simp [Legal, legal, applyLive])
  have hhead : (none : Option ℕ) = some 0 := hg.head_eq
  exact absurd hhead (by decide)

end Shuttlesock.LList
