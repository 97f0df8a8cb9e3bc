/-
The common parent of configuration blocks (`common_parent_block` of `server.lua`).

Model: `Config` has the blocks with what the code reads of them: the parent, and whether the name is `::ROOT`. A configuration is finite,
so that a block has a depth. A list of blocks is an array, which `pairs` visits in its order. A position in a chain is none for nil.

What goes wrong: where a chain has ended, `common` is nil and the next chain sets it; and after the last position nil is returned, not
`last_common`.

Results:
- `level_none`, `level_some`: when the chains are seen to differ at a position.
- `common_parent_iff`: the exact condition under which the deepest common parent is returned.
- `not_common_parent`: a block listed before one inside it, and a block listed twice.
-/
import Mathlib.Tactic
import Shuttlesock.Core.Ancestors

namespace Shuttlesock.CommonParent

open Shuttlesock.Ancestors

structure Config (B : Type*) where
  parent_block : B → Option B
  /-- `name == "::ROOT"` -/
  root : B → Bool
  depth : B → ℕ
  depth_lt : ∀ b p, parent_block b = some p → root p = false → depth p < depth b
  /-- nothing is above the root but the root -/
  root_top : ∀ b p, root b = true → parent_block b = some p → root p = true

variable {B : Type*} (c : Config B)

/-! ## The model -/

/-- the parent, below the root -/
def Config.above (b : B) : Option B := (c.parent_block b).filter fun p => !c.root p

/-- the `repeat` loop: n is at least the number of parents -/
def Config.chainFrom : ℕ → B → List B → List B
  | 0, cur, pchain => cur :: pchain
  | n + 1, cur, pchain =>
    match c.above cur with
    | none => cur :: pchain
    | some p => Config.chainFrom n p (cur :: pchain)

def Config.pchain (b : B) : List B := c.chainFrom (c.depth b) b []

/-- `pchain[i]` -/
def at_position (pchain : List B) : ℕ → Option B
  | 0 => none
  | i + 1 => pchain[i]?

section Loops

variable [DecidableEq B]

/-- the loop over the chains at a position: the last `cur`, or none when `last_common` is returned -/
def level (i : ℕ) : List (List B) → Option B → Option B → Option (Option B)
  | [], _, cur => some cur
  | pchain :: parents, common, _ =>
    let cur := at_position pchain i
    match common with
    | none => level i parents cur cur
    | some x => if cur = none ∨ cur ≠ some x then none else level i parents (some x) cur

/-- the loop over the positions, n of them from i on -/
def scan (parents : List (List B)) : ℕ → ℕ → Option B → Option B
  | 0, _, _ => none
  | n + 1, i, last_common =>
    match level i parents none none with
    | none => last_common
    | some cur => scan parents n (i + 1) cur

def common_parent_block (blocks : List B) : Option B :=
  match blocks with
  | [b] => some b
  | blocks =>
    let parents := blocks.map c.pchain
    scan parents ((parents.map List.length).foldl max 0 + 1) 0 none

end Loops

/-! ## The property -/

/-- the blocks as a tree without the root -/
def Config.tree : Ancestors.Tree B where
  parent := c.above
  depth := c.depth
  depth_lt := by
    intro b p h
    obtain ⟨hp, hroot⟩ := Option.filter_eq_some_iff.1 h
    exact c.depth_lt b p hp (by simpa using hroot)

/-- a block below the root that is an ancestor of all blocks of the list, or one of them -/
def Common (blocks : List B) (a : B) : Prop :=
  c.root a = false ∧ (∃ b ∈ blocks, c.tree.Anc a b) ∧ ∀ b ∈ blocks, c.tree.Anc a b

/-- **The property**: the deepest such block is returned, and nil if there is none. -/
structure Right [DecidableEq B] (blocks : List B) : Prop where
  found : ∀ a, common_parent_block c blocks = some a → Common c blocks a ∧ ∀ a', Common c blocks a' → c.tree.Anc a' a
  missing : common_parent_block c blocks = none → ∀ a, ¬ Common c blocks a

/-- the list is a block again and again, then only blocks inside one of its children; or it is the root alone -/
def Misled (blocks : List B) : Prop :=
  (∃ r, blocks = [r] ∧ c.root r = true) ∨
    (2 ≤ blocks.length ∧ ∃ b as bs, c.root b = false ∧ as ≠ [] ∧ blocks = as ++ bs ∧ (∀ a ∈ as, a = b) ∧
      ∃ x, ∀ a ∈ bs, c.above x = some b ∧ c.tree.Anc x a)

/-! ## A position -/

section Level

variable [DecidableEq B] {i : ℕ} {parents as bs : List (List B)} {x : B}

/-- once `common` is set, all the others must have the same -/
theorem level_common : level i parents (some x) (some x) =
    if ∀ pchain ∈ parents, at_position pchain i = some x then some (some x) else none := by
  induction parents with
  | nil => exact (if_pos fun _ h => absurd h List.not_mem_nil).symm
  | cons pchain parents ih =>
    rw [level]
    by_cases hx : at_position pchain i = some x
    · simp only [hx, reduceCtorEq, ne_eq, not_true_eq_false, or_self, if_false, ih, List.forall_mem_cons, true_and]
    · rw [if_pos (Or.inr hx), if_neg fun h => hx (h pchain List.mem_cons_self)]

/-- chains that have ended leave `common` unset -/
theorem level_ended (as bs : List (List B)) (has : ∀ pchain ∈ as, at_position pchain i = none) :
    level i (as ++ bs) none none = level i bs none none := by
  induction as with
  | nil => rfl
  | cons pchain as ih =>
    obtain ⟨hend, has⟩ := List.forall_mem_cons.1 has
    rw [List.cons_append, level]
    simp only [hend]
    exact ih has

/-- the chains that ended, and then the same block in all the others -/
theorem level_of_same (as : List (List B)) (has : ∀ pchain ∈ as, at_position pchain i = none) (hne : bs ≠ [])
    (hbs : ∀ pchain ∈ bs, at_position pchain i = some x) : level i (as ++ bs) none none = some (some x) := by
  rw [level_ended as bs has]
  cases bs with
  | nil => exact absurd rfl hne
  | cons pchain bs =>
    obtain ⟨hfirst, hbs⟩ := List.forall_mem_cons.1 hbs
    rw [level]
    simp only [hfirst]
    rw [level_common, if_pos hbs]

theorem level_some {cur : Option B} (h : level i parents none none = some cur) : ∃ as bs, parents = as ++ bs ∧
    (∀ pchain ∈ as, at_position pchain i = none) ∧
      (bs = [] ∧ cur = none ∨ ∃ x, bs ≠ [] ∧ cur = some x ∧ ∀ pchain ∈ bs, at_position pchain i = some x) := by
  induction parents with
  | nil =>
    cases h
    exact ⟨[], [], rfl, fun _ h => absurd h List.not_mem_nil, Or.inl ⟨rfl, rfl⟩⟩
  | cons pchain parents ih =>
    rw [level] at h
    cases hcur : at_position pchain i with
    | none =>
      simp only [hcur] at h
      obtain ⟨as, bs, rfl, has, hbs⟩ := ih h
      exact ⟨pchain :: as, bs, rfl, List.forall_mem_cons.2 ⟨hcur, has⟩, hbs⟩
    | some x =>
      simp only [hcur] at h
      rw [level_common] at h
      split_ifs at h with hall
      cases h
      exact ⟨[], pchain :: parents, rfl, fun _ h => absurd h List.not_mem_nil,
        Or.inr ⟨x, List.cons_ne_nil _ _, rfl, List.forall_mem_cons.2 ⟨hcur, hall⟩⟩⟩

end Level

/-! ## Chains -/

section Chains

variable {c} {a b : B} {blocks : List B}

theorem pchain_eq (b : B) : c.pchain b = c.tree.chain b := by
  have h : ∀ n (b : B) (below : List B), c.chainFrom n b below = c.tree.chainFrom n b below := by
    intro n
    induction n with
    | zero => exact fun _ _ => rfl
    | succ n ih =>
      intro b below
      rw [Config.chainFrom, Tree.chainFrom]
      change _ = match c.above b with | none => b :: below | some p => _
      cases c.above b with
      | none => rfl
      | some p => exact ih p (b :: below)
  exact h _ b []

theorem above_root (h : c.above a = some b) : c.root b = false := by
  simpa using (Option.filter_eq_some_iff.1 h).2

/-- nothing is below the root -/
theorem root_anc (hroot : c.root a = true) (h : c.tree.Anc a b) : b = a := by
  induction h with
  | refl => rfl
  | tail _ hp ih =>
    subst ih
    rw [above_root hp] at hroot
    cases hroot

/-- what follows a common start of the chains -/
theorem at_position_append {p pchain : List B} (hp : p <+: pchain) :
    (at_position pchain (p.length + 1) = none → pchain = p) ∧
      ∀ x, at_position pchain (p.length + 1) = some x → p ++ [x] <+: pchain := by
  obtain ⟨rest, rfl⟩ := hp
  have hat : at_position (p ++ rest) (p.length + 1) = rest[0]? := by
    rw [at_position, List.getElem?_append_right le_rfl, Nat.sub_self]
  rw [hat]
  cases rest with
  | nil => exact ⟨fun _ => List.append_nil p, fun x h => (by cases h)⟩
  | cons y rest =>
    refine ⟨fun h => (by cases h), fun x h => ?_⟩
    cases h
    exact ⟨rest, by rw [List.append_assoc]; rfl⟩

/-- a child of the last block of a chain -/
theorem child_of_prefix {p : List B} {x : B} (h : p ++ [b] ++ [x] <+: c.tree.chain a) :
    c.above x = some b ∧ c.tree.Anc x a := by
  obtain ⟨hanc, hchain⟩ := anc_of_initial h
  refine ⟨?_, hanc⟩
  cases hx : c.above x with
  | none =>
    rw [chain_top (t := c.tree) hx] at hchain
    have := congrArg List.length hchain
    simp at this
  | some y =>
    rw [chain_child (t := c.tree) hx] at hchain
    have hy := chain_getLast (t := c.tree) y
    rw [List.append_cancel_right hchain, List.getLast?_concat] at hy
    exact hy.symm

end Chains

/-! ## The scan -/

section Scan

variable {c} [DecidableEq B] {b : B} {blocks : List B} {parents : List (List B)}

/-- the chains agree up to p: what the scan finds from there on is the last block that all of them share -/
theorem scan_right (parents : List (List B)) (hne : parents ≠ []) (hchain : ∀ pchain ∈ parents, ∃ b, pchain = c.tree.chain b)
    (hsame : ¬ ∃ p, ∀ pchain ∈ parents, pchain = p)
    (hmisled : ∀ b x as bs, parents = as ++ bs → as ≠ [] → (∀ pchain ∈ as, pchain = c.tree.chain b) →
      ¬ ∀ pchain ∈ bs, c.tree.chain b ++ [x] <+: pchain)
    (n : ℕ) (p : List B) (hp : ∀ pchain ∈ parents, p <+: pchain) (hmax : ∀ pchain ∈ parents, pchain.length ≤ n + p.length) :
    ∃ q, (∀ pchain ∈ parents, q <+: pchain) ∧ (∀ q', (∀ pchain ∈ parents, q' <+: pchain) → q' <+: q) ∧
      scan parents n (p.length + 1) p.getLast? = q.getLast? := by
  induction n generalizing p with
  | zero =>
    refine absurd ⟨p, fun pchain h => ?_⟩ hsame
    have := hmax pchain h
    exact ((hp pchain h).eq_of_length_le (by omega)).symm
  | succ n ih =>
    rw [scan]
    cases hlevel : level (p.length + 1) parents none none with
    | none =>
      refine ⟨p, hp, fun q' hq' => ?_, rfl⟩
      obtain ⟨pchain, hmem⟩ := List.exists_mem_of_ne_nil _ hne
      refine List.prefix_of_prefix_length_le (hq' pchain hmem) (hp pchain hmem) (not_lt.1 fun hlonger => ?_)
      -- the chains agree at one more position
      have hsome : ∀ pchain ∈ parents, at_position pchain (p.length + 1) = some q'[p.length] := by
        intro pchain hmem
        obtain ⟨rest, rfl⟩ := hq' pchain hmem
        rw [at_position, List.getElem?_append_left hlonger, List.getElem?_eq_getElem hlonger]
      have hpass := level_of_same [] (fun _ h => absurd h List.not_mem_nil) hne hsome
      rw [List.nil_append, hlevel] at hpass
      cases hpass
    | some cur =>
      obtain ⟨as, bs, rfl, has, hbs⟩ := level_some hlevel
      have hended : ∀ pchain ∈ as, pchain = p := fun pchain h =>
        (at_position_append (hp pchain (List.mem_append_left _ h))).1 (has pchain h)
      obtain ⟨rfl, -⟩ | ⟨x, -, rfl, hbs⟩ := hbs
      · refine absurd ⟨p, fun pchain h => hended pchain ?_⟩ hsame
        rwa [List.append_nil] at h
      have hmore : ∀ pchain ∈ bs, p ++ [x] <+: pchain := fun pchain h =>
        (at_position_append (hp pchain (List.mem_append_right _ h))).2 x (hbs pchain h)
      cases as with
      | nil =>
        have hlen : (p ++ [x]).length = p.length + 1 := List.length_append
        have := ih (p ++ [x]) hmore fun pchain h => by
          have := hmax pchain h
          omega
        rw [hlen, List.getLast?_concat] at this
        exact this
      | cons first as =>
        obtain ⟨b, hb⟩ := hchain first (List.mem_append_left _ List.mem_cons_self)
        have hpb : p = c.tree.chain b := (hended first List.mem_cons_self).symm.trans hb
        rw [hpb] at hended hmore
        exact absurd hmore (hmisled b x (first :: as) bs rfl (List.cons_ne_nil _ _) hended)

/-- over what the chains agree on -/
theorem scan_agree (parents : List (List B)) (hne : parents ≠ []) (n : ℕ) (p : List B) (hp : ∀ pchain ∈ parents, p <+: pchain) :
    scan parents (n + p.length) 1 none = scan parents n (p.length + 1) p.getLast? := by
  induction p using List.reverseRecOn generalizing n with
  | nil => rfl
  | append_singleton p x ih =>
    have hp' : ∀ pchain ∈ parents, p <+: pchain := fun pchain h => (List.prefix_append p [x]).trans (hp pchain h)
    have hat : ∀ pchain ∈ parents, at_position pchain (p.length + 1) = some x := by
      intro pchain h
      obtain ⟨rest, rfl⟩ := hp pchain h
      rw [at_position, List.append_assoc, List.getElem?_append_right le_rfl, Nat.sub_self]
      rfl
    have hpass := level_of_same [] (fun _ h => absurd h List.not_mem_nil) hne hat
    have hlen : (p ++ [x]).length = p.length + 1 := List.length_append
    rw [List.nil_append] at hpass
    rw [hlen, List.getLast?_concat, ← Nat.add_assoc, Nat.add_right_comm, ih (n + 1) hp', scan]
    simp only [hpass]

/-- a block that is at no position from i on is not found any more -/
theorem scan_ne (n i : ℕ) (last_common : Option B) (hlast : last_common ≠ some b)
    (hb : ∀ pchain ∈ parents, ∀ j, i ≤ j → at_position pchain j ≠ some b) : scan parents n i last_common ≠ some b := by
  induction n generalizing i last_common with
  | zero => exact fun h => by cases h
  | succ n ih =>
    rw [scan]
    cases hlevel : level i parents none none with
    | none => exact hlast
    | some cur =>
      refine ih (i + 1) cur ?_ fun pchain h j hj => hb pchain h j (by omega)
      obtain ⟨as, bs, rfl, -, ⟨-, rfl⟩ | ⟨x, hne, rfl, hx⟩⟩ := level_some hlevel
      · exact fun h => by cases h
      · obtain ⟨pchain, hmem⟩ := List.exists_mem_of_ne_nil _ hne
        rw [← hx pchain hmem]
        exact hb pchain (List.mem_append_right _ hmem) i le_rfl

/-- behind all the ends nil is returned -/
theorem scan_ended (n i : ℕ) (last_common : Option B) (h : ∀ pchain ∈ parents, pchain.length < i) :
    scan parents n i last_common = none := by
  induction n generalizing i last_common with
  | zero => rfl
  | succ n ih =>
    have hpass : level i parents none none = some none := by
      have := level_ended (i := i) parents [] fun pchain hp => by
        have := h pchain hp
        cases i with
        | zero => rfl
        | succ i => exact List.getElem?_eq_none (by omega)
      rwa [List.append_nil] at this
    rw [scan]
    simp only [hpass]
    exact ih (i + 1) none fun pchain hp => (h pchain hp).trans (Nat.lt_succ_self i)

theorem le_maxlen {l : List ℕ} {n : ℕ} (h : n ∈ l) (m : ℕ) : n ≤ l.foldl max m := by
  have hstart : ∀ (l : List ℕ) m, m ≤ l.foldl max m := by
    intro l
    induction l with
    | nil => exact fun m => le_rfl
    | cons k l ih => exact fun m => (le_max_left m k).trans (ih _)
  induction l generalizing m with
  | nil => exact absurd h List.not_mem_nil
  | cons k l ih =>
    rcases List.mem_cons.1 h with rfl | h
    · exact (le_max_right m n).trans (hstart l _)
    · exact ih h _

/-- two blocks or more are scanned from the first position on -/
theorem common_eq (h : 2 ≤ blocks.length) : ∃ maxlen, (∀ b ∈ blocks, (c.tree.chain b).length ≤ maxlen) ∧
    common_parent_block c blocks = scan (blocks.map c.tree.chain) maxlen 1 none := by
  have hmap : blocks.map c.pchain = blocks.map c.tree.chain := List.map_congr_left fun b _ => pchain_eq b
  refine ⟨((blocks.map c.tree.chain).map List.length).foldl max 0, fun b hb => ?_, ?_⟩
  · exact le_maxlen (List.mem_map_of_mem (List.mem_map_of_mem hb)) 0
  · have hzero : level 0 (blocks.map c.tree.chain) none none = some none := by
      have := level_ended (i := 0) (blocks.map c.tree.chain) [] fun _ _ => rfl
      rwa [List.append_nil] at this
    unfold common_parent_block
    split
    · simp at h
    · rw [hmap, scan]
      simp only [hzero]

end Scan

/-! ## When the answer is right -/

section Right

variable {c} [DecidableEq B] {blocks : List B}

omit [DecidableEq B] in
/-- nothing is above the root -/
theorem anc_root {a r : B} (hroot : c.root r = true) (h : c.tree.Anc a r) : a = r := by
  rcases h.cases_tail with rfl | ⟨p, -, hp⟩
  · rfl
  · have htop := c.root_top r p hroot (Option.filter_eq_some_iff.1 hp).1
    rw [above_root hp] at htop
    cases htop

theorem right_of_one {b : B} (hroot : c.root b = false) : Right c [b] where
  found := by
    intro a ha
    cases ha
    refine ⟨⟨hroot, ⟨b, List.mem_singleton_self b, .refl⟩, fun a ha => ?_⟩, fun a ha => ha.2.2 b (List.mem_singleton_self b)⟩
    rw [List.mem_singleton.1 ha]
    exact .refl
  missing h := by cases h

/-- the same block again and again: nil is right for the root only -/
theorem right_of_root {r : B} (hroot : c.root r = true) (hall : ∀ b ∈ blocks, b = r) (h : common_parent_block c blocks = none) :
    Right c blocks where
  found a ha := by
    rw [h] at ha
    cases ha
  missing := by
    rintro - a ⟨ha, ⟨b, hb, hanc⟩, -⟩
    obtain rfl := hall b hb
    rw [anc_root hroot hanc, hroot] at ha
    cases ha

theorem right_of_scan {q : List B} (hne : blocks ≠ []) (hsame : ¬ ∃ b, ∀ a ∈ blocks, a = b)
    (hq : ∀ b ∈ blocks, q <+: c.tree.chain b) (hmax : ∀ q', (∀ b ∈ blocks, q' <+: c.tree.chain b) → q' <+: q)
    (h : common_parent_block c blocks = q.getLast?) : Right c blocks := by
  have hcommon : ∀ a, Common c blocks a → c.tree.chain a <+: q := fun a ha =>
    hmax _ fun b hb => anc_iff_initial.1 (ha.2.2 b hb)
  constructor
  · intro a ha
    rw [h] at ha
    have hqa := (List.dropLast_append_getLast? a ha).symm
    have hanc : ∀ b ∈ blocks, c.tree.Anc a b := by
      intro b hb
      have := hq b hb
      rw [hqa] at this
      exact (anc_of_initial this).1
    obtain ⟨b, hb⟩ := List.exists_mem_of_ne_nil _ hne
    have hchain : c.tree.chain a = q := by
      have := hq b hb
      rw [hqa] at this
      rw [(anc_of_initial this).2, ← hqa]
    refine ⟨⟨?_, ⟨b, hb, hanc b hb⟩, hanc⟩, fun a' ha' => ?_⟩
    · by_contra hroot
      exact hsame ⟨a, fun b hb => root_anc (by simpa using hroot) (hanc b hb)⟩
    · rw [anc_iff_initial, hchain]
      exact hcommon a' ha'
  · intro hnone a ha
    rw [h, List.getLast?_eq_none_iff] at hnone
    have := hcommon a ha
    rw [hnone, List.prefix_nil] at this
    exact chain_ne_nil a this

/-- a list that does not mislead the scan -/
theorem right_of_not_misled (hlen : 2 ≤ blocks.length) (h : ¬ Misled c blocks) : Right c blocks := by
  have hne : blocks ≠ [] := by
    rintro rfl
    simp at hlen
  obtain ⟨maxlen, hmax, heq⟩ := common_eq (c := c) hlen
  by_cases hsame : ∃ b, ∀ a ∈ blocks, a = b
  · obtain ⟨b, hall⟩ := hsame
    by_cases hroot : c.root b = true
    · refine right_of_root hroot hall ?_
      obtain ⟨a, ha⟩ := List.exists_mem_of_ne_nil _ hne
      have htop : c.tree.chain b = [b] := by
        cases hb : c.above b with
        | none => exact chain_top (t := c.tree) hb
        | some p =>
          have hp := anc_root hroot (.single hb)
          rw [← hp, above_root hb] at hroot
          cases hroot
      have hchains : ∀ pchain ∈ blocks.map c.tree.chain, pchain = [b] := by
        intro pchain hp
        obtain ⟨a, ha, rfl⟩ := List.mem_map.1 hp
        rw [hall a ha, htop]
      obtain ⟨n, rfl⟩ : ∃ n, maxlen = n + 1 := by
        have := hmax a ha
        rw [hall a ha, htop, List.length_singleton] at this
        exact ⟨maxlen - 1, by omega⟩
      have hagree := scan_agree (blocks.map c.tree.chain) (by simpa using hne) n [b] fun pchain hp => by
        rw [hchains pchain hp]
      rw [heq, show n + 1 = n + [b].length from rfl, hagree]
      refine scan_ended _ _ _ fun pchain hp => ?_
      rw [hchains pchain hp]
      exact Nat.lt_succ_self 1
    · exact absurd (.inr ⟨hlen, b, blocks, [], by simpa using hroot, hne, (List.append_nil _).symm, hall, b,
        fun _ h => absurd h List.not_mem_nil⟩) h
  · have hmem : ∀ {pchain}, pchain ∈ blocks.map c.tree.chain → ∃ b ∈ blocks, c.tree.chain b = pchain := List.mem_map.1
    have hdiffer : ¬ ∃ p, ∀ pchain ∈ blocks.map c.tree.chain, pchain = p := by
      rintro ⟨p, hp⟩
      obtain ⟨b, hb⟩ := List.exists_mem_of_ne_nil _ hne
      refine hsame ⟨b, fun a ha => chain_injective (t := c.tree) ?_⟩
      rw [hp _ (List.mem_map_of_mem ha), hp _ (List.mem_map_of_mem hb)]
    have hsplits : ∀ b x as' bs', blocks.map c.tree.chain = as' ++ bs' → as' ≠ [] →
        (∀ pchain ∈ as', pchain = c.tree.chain b) → ¬ ∀ pchain ∈ bs', c.tree.chain b ++ [x] <+: pchain := by
      rintro b x as' bs' hsplit hasne has hbs
      obtain ⟨as, bs, rfl, rfl, rfl⟩ := List.map_eq_append_iff.1 hsplit
      have hchain : c.tree.chain b = (c.tree.chain b).dropLast ++ [b] :=
        (List.dropLast_append_getLast? b (chain_getLast b)).symm
      have hchild : ∀ a ∈ bs, c.above x = some b ∧ c.tree.Anc x a := by
        intro a ha
        have := hbs _ (List.mem_map_of_mem ha)
        rw [hchain] at this
        exact child_of_prefix this
      have hall : ∀ a ∈ as, a = b := fun a ha => chain_injective (t := c.tree) (has _ (List.mem_map_of_mem ha))
      refine h (.inr ⟨hlen, b, as, bs, ?_, by simpa using hasne, rfl, hall, x, hchild⟩)
      cases bs with
      | nil => exact absurd ⟨b, by rwa [List.append_nil]⟩ hsame
      | cons a bs => exact above_root (hchild a List.mem_cons_self).1
    obtain ⟨q, hq, hqmax, hscan⟩ := scan_right (c := c) (blocks.map c.tree.chain) (by simpa using hne)
      (fun pchain hp => (hmem hp).imp fun b hb => hb.2.symm) hdiffer hsplits maxlen [] (fun _ _ => List.nil_prefix)
      fun pchain hp => by
        obtain ⟨b, hb, rfl⟩ := hmem hp
        exact hmax b hb
    refine right_of_scan hne hsame (fun b hb => hq _ (List.mem_map_of_mem hb)) (fun q' hq' => hqmax q' fun pchain hp => ?_) ?_
    · obtain ⟨b, hb, rfl⟩ := hmem hp
      exact hq' b hb
    · rw [heq, ← hscan]
      rfl

/-- a block again and again, then blocks inside one of its children: the scan goes past it -/
theorem not_right_of_misled (hlen : 2 ≤ blocks.length) (h : Misled c blocks) : ¬ Right c blocks := by
  rcases h with ⟨r, rfl, -⟩ | ⟨-, b, as, bs, hroot, hne, rfl, has, x, hx⟩
  · simp at hlen
  intro hright
  obtain ⟨maxlen, hmax, heq⟩ := common_eq (c := c) hlen
  obtain ⟨first, hfirst⟩ := List.exists_mem_of_ne_nil _ hne
  have hb : b ∈ as ++ bs := List.mem_append_left _ (has first hfirst ▸ hfirst)
  have hanc : ∀ a ∈ as ++ bs, c.tree.Anc b a := by
    intro a ha
    rcases List.mem_append.1 ha with ha | ha
    · rw [has a ha]
      exact .refl
    · obtain ⟨habove, hanc⟩ := hx a ha
      exact .head habove hanc
  have hcommon : Common c (as ++ bs) b := ⟨hroot, ⟨b, hb, .refl⟩, hanc⟩
  -- the answer would have to be b
  have hanswer : common_parent_block c (as ++ bs) = some b := by
    cases hres : common_parent_block c (as ++ bs) with
    | none => exact absurd hcommon (hright.missing hres b)
    | some a =>
      obtain ⟨ha, hdeep⟩ := hright.found a hres
      have h1 := anc_iff_initial.1 (hdeep b hcommon)
      have h2 := anc_iff_initial.1 (ha.2.2 b hb)
      rw [chain_injective (t := c.tree) (h2.eq_of_length_le h1.length_le)]
  have hagree : ∀ pchain ∈ (as ++ bs).map c.tree.chain, c.tree.chain b <+: pchain := by
    intro pchain hp
    obtain ⟨a, ha, rfl⟩ := List.mem_map.1 hp
    exact anc_iff_initial.1 (hanc a ha)
  obtain ⟨n, rfl⟩ : ∃ n, maxlen = n + (c.tree.chain b).length := by
    have := hmax b hb
    exact ⟨maxlen - (c.tree.chain b).length, by omega⟩
  rw [heq, scan_agree _ (by simp [hne]) n _ hagree, chain_getLast] at hanswer
  cases n with
  | zero => cases hanswer
  | succ n =>
    have has' : ∀ pchain ∈ as.map c.tree.chain, at_position pchain ((c.tree.chain b).length + 1) = none := by
      intro pchain hp
      obtain ⟨a, ha, rfl⟩ := List.mem_map.1 hp
      rw [has a ha]
      exact List.getElem?_eq_none le_rfl
    have hbs' : ∀ pchain ∈ bs.map c.tree.chain, at_position pchain ((c.tree.chain b).length + 1) = some x := by
      intro pchain hp
      obtain ⟨a, ha, rfl⟩ := List.mem_map.1 hp
      obtain ⟨habove, hxa⟩ := hx a ha
      obtain ⟨rest, hrest⟩ := anc_iff_initial.1 hxa
      rw [at_position, ← hrest, chain_child (t := c.tree) habove, List.append_assoc, List.getElem?_append_right le_rfl,
        Nat.sub_self]
      rfl
    -- no later position has b
    have hlater : ∀ pchain ∈ (as ++ bs).map c.tree.chain, ∀ j, (c.tree.chain b).length + 2 ≤ j →
        at_position pchain j ≠ some b := by
      intro pchain hp j hj hat
      obtain ⟨a, -, rfl⟩ := List.mem_map.1 hp
      obtain ⟨k, rfl⟩ : ∃ k, j = k + 1 := ⟨j - 1, by omega⟩
      have hlen := congrArg List.length (anc_of_index (t := c.tree) hat).2
      have hlt := (List.getElem?_eq_some_iff.1 hat).1
      rw [List.length_take] at hlen
      omega
    rw [List.map_append] at hanswer hlater
    rw [scan] at hanswer
    cases hbs : bs with
    | nil =>
      subst hbs
      rw [List.map_nil, level_ended _ _ has'] at hanswer
      exact scan_ne n _ none (fun h => by cases h) hlater hanswer
    | cons a bs =>
      rw [level_of_same _ has' (by simp [hbs]) hbs'] at hanswer
      refine scan_ne n _ (some x) (fun h => ?_) hlater hanswer
      cases h
      have hself := (hx a (by rw [hbs]; exact List.mem_cons_self)).1
      exact absurd (c.tree.depth_lt _ _ hself) (lt_irrefl _)

/-- **The common parent** is found exactly when the list does not mislead the scan. -/
theorem common_parent_iff (c : Config B) (blocks : List B) : Right c blocks ↔ ¬ Misled c blocks := by
  rcases Nat.lt_or_ge blocks.length 2 with hlen | hlen
  · match blocks, hlen with
    | [], _ =>
      refine ⟨fun _ => ?_, fun _ => ⟨fun a ha => (by cases ha), fun _ a ⟨_, ⟨b, hb, _⟩, _⟩ => absurd hb List.not_mem_nil⟩⟩
      rintro (⟨r, hr, -⟩ | ⟨hlen, -⟩)
      · cases hr
      · simp at hlen
    | [b], _ =>
      constructor
      · rintro hright (⟨r, hr, hroot⟩ | ⟨hlen, -⟩)
        · cases hr
          have := (hright.found b rfl).1.1
          rw [hroot] at this
          cases this
        · simp at hlen
      · intro h
        refine right_of_one ?_
        by_contra hroot
        exact h (.inl ⟨b, rfl, by simpa using hroot⟩)
  · exact ⟨fun hright h => not_right_of_misled hlen h hright, right_of_not_misled hlen⟩

/-- the root 0, an `http` block 1 in it, a `server` block 2 in that, and a block 3 in the `server` block -/
def nested : Config ℕ where
  parent_block b := if b = 0 then none else some (b - 1)
  root b := b == 0
  depth b := b
  depth_lt := by
    intro b p hp _
    split_ifs at hp
    cases hp
    omega
  root_top := by
    intro b p hb hp
    rw [if_pos (by simpa using hb)] at hp
    cases hp

/-- **Repeats and nested blocks.** The `server` block listed twice gives nil, and listed before the block inside it as well; the other
way round it is found. -/
theorem not_common_parent : ¬ Right nested [2, 2] ∧ ¬ Right nested [2, 3] ∧ Right nested [3, 2] := by
  have hserver : nested.above 3 = some 2 := by decide
  refine ⟨not_right_of_misled le_rfl ?_, not_right_of_misled le_rfl ?_, right_of_not_misled le_rfl ?_⟩
  · exact .inr ⟨le_rfl, 2, [2, 2], [], by decide, by decide, rfl, by simp, 2, by simp⟩
  · refine .inr ⟨le_rfl, 2, [2], [3], by decide, by decide, rfl, by simp, 3, ?_⟩
    intro a ha
    rw [List.mem_singleton.1 ha]
    exact ⟨hserver, .refl⟩
  · rintro (⟨r, hr, -⟩ | ⟨-, b, as, bs, -, hne, hsplit, has, x, hx⟩)
    · cases hr
    · cases as with
      | nil => exact hne rfl
      | cons a as =>
        obtain ⟨rfl, hrest⟩ := List.cons.inj hsplit
        obtain rfl := has 3 List.mem_cons_self
        cases as with
        | nil =>
          change [2] = bs at hrest
          -- 2 is not inside 3
          obtain ⟨habove, hanc⟩ := hx 2 (by rw [← hrest]; exact List.mem_cons_self)
          have hlen := (anc_iff_initial.1 (hanc.head habove)).length_le
          exact absurd hlen (by decide)
        | cons a as =>
          obtain ⟨rfl, -⟩ := List.cons.inj hrest
          exact absurd (has 2 (List.mem_cons_of_mem _ List.mem_cons_self)) (by decide)

end Right

end Shuttlesock.CommonParent
