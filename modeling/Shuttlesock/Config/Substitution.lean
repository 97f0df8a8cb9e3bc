/-
When `config:setting_instrings` returns: the loop that replaces the variables of `set` settings, as an expansion from the left.

A variable is a call of its definition, and the loop looks at the same place again after it has replaced one. It joins the literals
that come together; a literal without a value (that of `\x`) cannot be joined to another one.

Model: that of `Resolve`. `Visits` are replacements without the joining, so that what the loop has is joined from what is visited.

Results:
- `join_append`: joining the parts first makes no difference.
- `loop_outcome`: what the loop ends with, told by the expansion.
- `loop_returns`: when the expansion ends and can be joined, the loop ends without raising an error.
- `straight_iff`, `resolve_iff`, `returns_iff`: the exact condition for one instring, for the values, and for the call.
- `never_returns`: `set $x $x`.
-/
import Mathlib.Tactic
import Shuttlesock.Core.Expand
import Shuttlesock.Config.Resolve

namespace Shuttlesock.Settings

open Shuttlesock.Expand (Role Kept Step Visits Reaches Expands)
open Shuttlesock.MatchPath

/-! ## Joining -/

section Join

variable {t u w : Token} {l l' a a' b b' d : List Token} {name : Str} {params : List Str}

theorem concat_assoc (h : concat_literals t u = some w) (v : Token) :
    (concat_literals u v).bind (concat_literals t) = concat_literals w v := by
  unfold concat_literals at h
  split at h
  · cases h
    match v with
    | .literal (some s) => simp [concat_literals]
    | .literal none => rfl
    | .var _ _ => rfl
  · cases h

theorem join_self (h : Joined l) : join_literal_tokens l = some l := by
  induction l with
  | nil => rfl
  | cons t l ih =>
    unfold join_literal_tokens
    rw [ih (List.IsChain.tail h), Option.bind_some]
    cases l with
    | nil => rfl
    | cons u l => exact if_neg (List.isChain_cons_cons.1 h).1

theorem join_cons_eq (t : Token) (l : List Token) :
    join_literal_tokens (t :: l) = (join_literal_tokens l).bind (join_cons t) := rfl

/-- a token that is joined to the next one before anything else -/
theorem join_concat (h : concat_literals t u = some w) (l : List Token) :
    join_literal_tokens (t :: u :: l) = join_literal_tokens (w :: l) := by
  have hlit : t.isLiteral = true ∧ u.isLiteral = true := by
    unfold concat_literals at h
    split at h
    · exact ⟨rfl, rfl⟩
    · cases h
  rw [join_cons_eq, join_cons_eq, join_cons_eq, Option.bind_assoc]
  congr 1
  funext r
  cases r with
  | nil => simp [join_cons, hlit, h]
  | cons v r =>
    by_cases hv : v.isLiteral = true
    · have hassoc := concat_assoc h v
      have hw := concat_literal h
      rw [join_cons, if_pos ⟨hlit.2, hv⟩, join_cons, if_pos ⟨hw, hv⟩, ← hassoc]
      cases huv : concat_literals u v with
      | none => rfl
      | some x => simp [join_cons, hlit.1, concat_literal huv]
    · simp [join_cons, hv, hlit, h]

/-- only what the rest is joined to matters -/
theorem join_prefix (h : join_literal_tokens l = join_literal_tokens l') (a : List Token) :
    join_literal_tokens (a ++ l) = join_literal_tokens (a ++ l') := by
  induction a with
  | nil => exact h
  | cons t a ih => rw [List.cons_append, List.cons_append, join_cons_eq, join_cons_eq, ih]

theorem join_append_left (h : join_literal_tokens a = some a') (b : List Token) :
    join_literal_tokens (a ++ b) = join_literal_tokens (a' ++ b) := by
  induction a generalizing a' with
  | nil =>
    cases h
    rfl
  | cons t a ih =>
    rw [join_cons_eq] at h
    obtain ⟨l, hl, h⟩ := Option.bind_eq_some_iff.1 h
    have hstep : join_literal_tokens (t :: a ++ b) = join_literal_tokens (t :: l ++ b) := by
      rw [List.cons_append, List.cons_append, join_cons_eq, join_cons_eq, ih hl]
    rw [hstep]
    cases l with
    | nil =>
      cases h
      rfl
    | cons u r =>
      unfold join_cons at h
      dsimp only at h
      split_ifs at h with hlit
      · obtain ⟨w, hw, rfl⟩ := Option.map_eq_some_iff.1 h
        exact join_concat hw (r ++ b)
      · cases h
        rfl

/-- **Joining the parts first** makes no difference -/
theorem join_append (ha : join_literal_tokens a = some a') (hb : join_literal_tokens b = some b') (d : List Token) :
    join_literal_tokens (a ++ (d ++ b)) = join_literal_tokens (a' ++ (d ++ b')) := by
  have hright := join_prefix (hb.trans (join_self (join_joined hb)).symm) (a ++ d)
  rw [List.append_assoc, List.append_assoc] at hright
  rw [hright, join_append_left ha]

/-- a variable stays between what is joined on both sides of it -/
theorem join_split (h : join_literal_tokens l = some (a' ++ .var name params :: b')) :
    ∃ a b, l = a ++ .var name params :: b ∧ join_literal_tokens a = some a' ∧ join_literal_tokens b = some b' := by
  induction l generalizing a' with
  | nil =>
    simp [join_literal_tokens] at h
  | cons t l ih =>
    obtain ⟨l₁, h₁, hcons⟩ := Option.bind_eq_some_iff.1 h
    rcases join_cons_cases hcons with ⟨heq, hlit⟩ | ⟨u, r, w, rfl, heq, ht, hu, hw⟩
    · cases a' with
      | nil =>
        obtain ⟨rfl, rfl⟩ := List.cons.inj heq
        exact ⟨[], l, rfl, rfl, h₁⟩
      | cons v a' =>
        obtain ⟨rfl, rfl⟩ := List.cons.inj heq
        obtain ⟨a, b, rfl, ha, hb⟩ := ih h₁
        refine ⟨v :: a, b, rfl, ?_, hb⟩
        rw [join_cons_eq, ha, Option.bind_some]
        cases a' with
        | nil => rfl
        | cons z a' => exact if_neg (hlit z _ rfl)
    · cases a' with
      | nil =>
        obtain ⟨rfl, -⟩ := List.cons.inj heq
        cases hw
      | cons v a' =>
        obtain ⟨rfl, rfl⟩ := List.cons.inj heq
        obtain ⟨a, b, rfl, ha, hb⟩ := @ih (u :: a') h₁
        have hconcat : concat_literals t u = some v := by
          unfold join_cons at hcons
          dsimp only at hcons
          rw [if_pos ⟨ht, hu⟩] at hcons
          obtain ⟨x, hx, heq⟩ := Option.map_eq_some_iff.1 hcons
          exact (List.cons.inj heq).1 ▸ hx
        refine ⟨t :: a, b, rfl, ?_, hb⟩
        rw [join_cons_eq, ha, Option.bind_some]
        unfold join_cons
        dsimp only
        rw [if_pos ⟨ht, hu⟩, hconcat]
        rfl

end Join

/-! ## The loop as an expansion -/

/-- a variable that is set is a call, one that is not found stops the loop -/
def role (find : Str → Found) : Token → Role Str
  | .literal _ => .keep
  | .var name _ =>
    match find name with
    | .missing _ => .stuck
    | .eval => .keep
    | .set _ => .call name

def definition (find : Str → Found) (name : Str) : List Token :=
  match find name with
  | .set ins => ins.tokens
  | _ => []

section Loop

variable {find : Str → Found} {ins ins' other : Instring} {n i : ℕ} {l p m : List Token} {t : Token} {name : Str} {params : List Str}

theorem role_missing {err : String} (h : find name = .missing err) : role find (.var name params) = .stuck := by
  simp [role, h]

theorem role_set (h : find name = .set other) : role find (.var name params) = .call name := by
  simp [role, h]

theorem role_eval (h : find name = .eval) : role find (.var name params) = .keep := by
  simp [role, h]

theorem role_keep : role find t = .keep ↔ Settled find t := by
  cases t with
  | literal value => exact iff_of_true rfl (literal_settled rfl)
  | var name params =>
    have hsettled : Settled find (.var name params) ↔ find name = .eval :=
      ⟨fun h => h name params rfl, fun h _ _ heq => by cases heq; exact h⟩
    rw [hsettled]
    cases hf : find name with
    | missing err => simp [role_missing hf]
    | eval => simp [role_eval hf]
    | set ins => simp [role_set hf]

theorem role_call (h : role find t = .call name) : ∃ params ins, t = .var name params ∧ find name = .set ins := by
  cases t with
  | literal value => cases h
  | var name' params =>
    cases hf : find name' with
    | missing err => rw [role_missing hf] at h; cases h
    | eval => rw [role_eval hf] at h; cases h
    | set ins =>
      rw [role_set hf] at h
      cases h
      exact ⟨params, ins, rfl, hf⟩

/-- tokens that are joined are settled as they were before -/
theorem kept_join (h : join_literal_tokens l = some p) : Kept (role find) l ↔ ∀ t ∈ p, Settled find t := by
  have hvars : ∀ q : List Token, (∀ t ∈ q, Settled find t) ↔ ∀ name params, Token.var name params ∈ q → find name = .eval := by
    intro q
    constructor
    · exact fun hq name params hmem => hq _ hmem name params rfl
    · rintro hq t ht name params rfl
      exact hq name params ht
  have hkept : Kept (role find) l ↔ ∀ t ∈ l, Settled find t := forall₂_congr fun t _ => role_keep
  rw [hkept, hvars, hvars]
  simp only [mem_join h]

/-- a variable that the loop has come to, in what the tokens are joined from -/
theorem split_at (hl : join_literal_tokens l = some ins.tokens) (ht : ins.tokens[i]? = some (.var name params))
    (hall : ∀ t ∈ ins.tokens.take i, Settled find t) : ∃ a b, l = a ++ .var name params :: b ∧ Kept (role find) a ∧
      join_literal_tokens a = some (ins.tokens.take i) ∧ join_literal_tokens b = some (ins.tokens.drop (i + 1)) := by
  obtain ⟨hi, hti⟩ := List.getElem?_eq_some_iff.1 ht
  have hsplit : ins.tokens = ins.tokens.take i ++ .var name params :: ins.tokens.drop (i + 1) := by
    rw [← hti, List.cons_getElem_drop_succ, List.take_append_drop]
  rw [hsplit] at hl
  obtain ⟨a, b, rfl, ha, hb⟩ := join_split hl
  exact ⟨a, b, rfl, (kept_join ha).2 hall, ha, hb⟩

/-- the replacement there -/
theorem replace_step (hl : join_literal_tokens l = some ins.tokens) (ht : ins.tokens[i]? = some (.var name params))
    (hall : ∀ t ∈ ins.tokens.take i, Settled find t) (hset : find name = .set other) :
    ∃ p, Step (role find) (definition find) l p ∧ ∀ ins', ins.replace i other = some ins' ↔ join_literal_tokens p = some ins'.tokens := by
  obtain ⟨a, b, rfl, hkept, ha, hb⟩ := split_at hl ht hall
  refine ⟨a ++ (definition find name ++ b), .call hkept (role_set hset), fun ins' => ?_⟩
  have hdef : definition find name = other.tokens := by simp [definition, hset]
  rw [hdef, join_append ha hb]
  constructor
  · exact fun h => replace_some h
  · intro h
    unfold Instring.replace
    split
    · rename_i tokens htokens
      rw [h] at htokens
      cases htokens
      rfl
    · rename_i hnone
      rw [h] at hnone
      cases hnone

/-- **The loop rule**: what holds of the tokens that the loop stops at, and of tokens when it holds behind a replacement -/
theorem loop_rule {P : List Token → Subst → Prop} (hunfinished : ∀ l, P l .unfinished)
    (hdone : ∀ l ins, Kept (role find) l → join_literal_tokens l = some ins.tokens → P l (.ok ins))
    (hmissing : ∀ a name params b err, Kept (role find) a → find name = .missing err →
      join_literal_tokens (a ++ .var name params :: b) ≠ none → P (a ++ .var name params :: b) (.error err))
    (hraise : ∀ l p, Step (role find) (definition find) l p → join_literal_tokens p = none → P l .raise)
    (hstep : ∀ l p s, Step (role find) (definition find) l p → join_literal_tokens l ≠ none → P p s → P l s)
    (hl : join_literal_tokens l = some ins.tokens) (hall : ∀ t ∈ ins.tokens.take i, Settled find t) :
    P l (substitute find n ins i) := by
  induction n generalizing ins i l with
  | zero => exact hunfinished l
  | succ n ih =>
    have hsome : join_literal_tokens l ≠ none := by simp [hl]
    unfold substitute
    cases ht : ins.tokens[i]? with
    | none =>
      rw [List.take_of_length_le (List.getElem?_eq_none_iff.1 ht)] at hall
      exact hdone l ins ((kept_join hl).2 hall) hl
    | some t =>
      cases t with
      | literal value => exact ih hl (settled_next ht (literal_settled rfl) hall)
      | var name params =>
        dsimp only
        cases hf : find name with
        | missing err =>
          obtain ⟨a, b, rfl, hkept, -, -⟩ := split_at hl ht hall
          exact hmissing a name params b err hkept hf hsome
        | eval => exact ih hl (settled_next ht (role_keep.1 (role_eval hf)) hall)
        | set other =>
          dsimp only
          obtain ⟨p, hp, hreplace⟩ := replace_step hl ht hall hf
          cases hr : ins.replace i other with
          | none =>
            refine hraise l p hp (Option.eq_none_iff_forall_ne_some.2 fun tokens hj => ?_)
            have hsome := (hreplace ⟨tokens, join_joined hj⟩).2 hj
            rw [hr] at hsome
            cases hsome
          | some ins₁ =>
            have hi := (List.getElem?_eq_some_iff.1 ht).1
            exact hstep l p _ hp hsome (ih ((hreplace ins₁).1 hr) (replace_settled hi.le hr hall))

/-- how an expansion ends -/
def Outcome (find : Str → Found) (l : List Token) : Subst → Prop
  | .ok ins' => ∃ m, Expands (role find) (definition find) l m ∧ join_literal_tokens m = some ins'.tokens
  | .error err => ∃ a name params b, Visits (role find) (definition find) l (a ++ .var name params :: b) ∧ Kept (role find) a ∧
      find name = .missing err
  | .raise => ∃ p, Visits (role find) (definition find) l p ∧ join_literal_tokens p = none
  | .unfinished => True

/-- **What the loop ends with** -/
theorem loop_outcome (hl : join_literal_tokens l = some ins.tokens) (hall : ∀ t ∈ ins.tokens.take i, Settled find t) :
    Outcome find l (substitute find n ins i) := by
  refine loop_rule (fun l => trivial) ?_ ?_ ?_ ?_ hl hall
  · exact fun l ins hkept hj => ⟨l, Expand.expands_kept hkept, hj⟩
  · exact fun a name params b err hkept hf _ => ⟨a, name, params, b, .refl, hkept, hf⟩
  · exact fun l p hp hj => ⟨p, .single hp, hj⟩
  · intro l p s hp _ h
    cases s with
    | ok ins' =>
      obtain ⟨m, hm, hjoin⟩ := h
      exact ⟨m, hp.expands hm, hjoin⟩
    | error err =>
      obtain ⟨a, name, params, b, hv, ha, hf⟩ := h
      exact ⟨a, name, params, b, .head hp hv, ha, hf⟩
    | raise =>
      obtain ⟨q, hv, hjoin⟩ := h
      exact ⟨q, .head hp hv, hjoin⟩
    | unfinished => trivial

/-- the expansion ends, and all that is visited can be joined -/
structure Joins (find : Str → Found) (l : List Token) : Prop where
  ends : Expand.Ends (role find) (definition find) l
  joins : ∀ p, Visits (role find) (definition find) l p → join_literal_tokens p ≠ none

theorem Joins.stop (hl : join_literal_tokens l ≠ none) (hno : ∀ p, ¬ Step (role find) (definition find) l p) : Joins find l := by
  refine ⟨Acc.intro _ fun p hp => absurd hp (hno p), fun p hp => ?_⟩
  rcases Relation.ReflTransGen.cases_head hp with rfl | ⟨q, hq, -⟩
  · exact hl
  · exact absurd hq (hno q)

theorem Joins.head (hp : Step (role find) (definition find) l p) (hl : join_literal_tokens l ≠ none) (h : Joins find p) :
    Joins find l := by
  refine ⟨Expand.ends_of_step hp h.ends, fun q hq => ?_⟩
  rcases Expand.visits_step hp hq with rfl | hq
  · exact hl
  · exact h.joins q hq

/-- a loop that ends without raising an error has come to the end of the expansion, and has joined all of it -/
theorem loop_joins (hs : substitute find n ins i ≠ .unfinished) (hr : substitute find n ins i ≠ .raise)
    (hl : join_literal_tokens l = some ins.tokens) (hall : ∀ t ∈ ins.tokens.take i, Settled find t) : Joins find l := by
  have hrule : substitute find n ins i ≠ .unfinished → substitute find n ins i ≠ .raise → Joins find l := by
    refine loop_rule (P := fun l s => s ≠ .unfinished → s ≠ .raise → Joins find l) ?_ ?_ ?_ ?_ ?_ hl hall
    · exact fun _ h => absurd rfl h
    · exact fun l ins hkept hj _ _ => Joins.stop (by simp [hj]) fun p => Expand.kept_no_step hkept
    · exact fun a name params b err hkept hf hj _ _ => Joins.stop hj fun p => Expand.stuck_no_step hkept (role_missing hf)
    · exact fun _ _ _ _ _ h => absurd rfl h
    · exact fun l p s hp hj h hs hr => (h hs hr).head hp hj
  exact hrule hs hr

/-- the loop ends when the expansion does -/
theorem loop_ends (h : Expand.Ends (role find) (definition find) l) (hl : join_literal_tokens l = some ins.tokens)
    (hall : ∀ t ∈ ins.tokens.take i, Settled find t) : ∃ n, substitute find n ins i ≠ .unfinished := by
  induction h generalizing ins i with
  | intro l _ ih =>
    have hend : ∀ j, ins.tokens[j]? = none → ∃ n, substitute find n ins j ≠ .unfinished := by
      intro j ht
      refine ⟨1, ?_⟩
      unfold substitute
      simp [ht]
    -- over the settled tokens, to the next one that is not
    obtain ⟨k, hk⟩ : ∃ k, ins.tokens.length ≤ i + k := ⟨ins.tokens.length, Nat.le_add_left _ _⟩
    induction k generalizing i with
    | zero => exact hend i (List.getElem?_eq_none hk)
    | succ k ihk =>
      cases ht : ins.tokens[i]? with
      | none => exact hend i ht
      | some t =>
        cases t with
        | literal value =>
          obtain ⟨n, hn⟩ := ihk (settled_next ht (literal_settled rfl) hall) (by omega)
          refine ⟨n + 1, ?_⟩
          unfold substitute
          rwa [ht]
        | var name params =>
          cases hf : find name with
          | missing err =>
            refine ⟨1, ?_⟩
            unfold substitute
            simp [ht, hf]
          | eval =>
            obtain ⟨n, hn⟩ := ihk (settled_next ht (role_keep.1 (role_eval hf)) hall) (by omega)
            refine ⟨n + 1, ?_⟩
            unfold substitute
            simpa only [ht, hf] using hn
          | set other =>
            obtain ⟨p, hp, hreplace⟩ := replace_step hl ht hall hf
            cases hr : ins.replace i other with
            | none =>
              refine ⟨1, ?_⟩
              unfold substitute
              simp [ht, hf, hr]
            | some ins₁ =>
              have hi := (List.getElem?_eq_some_iff.1 ht).1
              obtain ⟨n, hn⟩ := ih p hp ((hreplace ins₁).1 hr) (replace_settled hi.le hr hall)
              refine ⟨n + 1, ?_⟩
              unfold substitute
              simpa only [ht, hf, hr] using hn

/-- **The loop returns** when the expansion ends and can be joined -/
theorem loop_returns (h : Joins find l) (hl : join_literal_tokens l = some ins.tokens)
    (hall : ∀ t ∈ ins.tokens.take i, Settled find t) :
    ∃ n, substitute find n ins i ≠ .unfinished ∧ substitute find n ins i ≠ .raise := by
  obtain ⟨n, hn⟩ := loop_ends h.ends hl hall
  refine ⟨n, hn, fun hr => ?_⟩
  have ho := loop_outcome (n := n) hl hall
  rw [hr] at ho
  obtain ⟨p, hp, hnone⟩ := ho
  exact h.joins p hp hnone

/-- **The condition** of an instring: replacing its variables from the left comes to no variable whose value leads to that variable
again, and to no literal without a value beside another literal -/
structure Straight (find : Str → Found) (ins : Instring) : Prop where
  cycle : ∀ name, Reaches (role find) (definition find) ins.tokens name →
    ¬ Reaches (role find) (definition find) (definition find name) name
  values : ∀ p, Visits (role find) (definition find) ins.tokens p → join_literal_tokens p ≠ none

theorem calls_finite (hfin : {name | ∃ ins, find name = .set ins}.Finite) : {name | ∃ t, role find t = .call name}.Finite :=
  hfin.subset fun _ ⟨_, ht⟩ => (role_call ht).elim fun _ ⟨ins, _, h⟩ => ⟨ins, h⟩

/-- **One instring** -/
theorem straight_iff (hfin : {name | ∃ ins, find name = .set ins}.Finite) :
    (∃ n, substitute find n ins 0 ≠ .unfinished ∧ substitute find n ins 0 ≠ .raise) ↔ Straight find ins := by
  have hnone : ∀ t ∈ ins.tokens.take 0, Settled find t := by simp
  constructor
  · rintro ⟨n, hs, hr⟩
    have h := loop_joins hs hr (join_self ins.joined) hnone
    exact ⟨(Expand.ends_iff (calls_finite hfin) _).1 h.ends, h.joins⟩
  · intro h
    exact loop_returns ⟨(Expand.ends_iff (calls_finite hfin) _).2 h.cycle, h.values⟩ (join_self ins.joined) hnone

/-- all variables of an instring are found, also those of their values -/
def Complete (find : Str → Found) (ins : Instring) : Prop := ∃ m, Expands (role find) (definition find) ins.tokens m

theorem ends_complete (h : Ends find ins (.ok ins')) : Complete find ins := by
  obtain ⟨-, n, h⟩ := h
  have ho : Outcome find ins.tokens (substitute find n ins 0) := loop_outcome (join_self ins.joined) (by simp)
  rw [h] at ho
  obtain ⟨m, hm, -⟩ := ho
  exact ⟨m, hm⟩

theorem ends_incomplete {err : String} (h : Ends find ins (.error err)) : ¬ Complete find ins := by
  rintro ⟨m, hm⟩
  obtain ⟨-, n, h⟩ := h
  have ho : Outcome find ins.tokens (substitute find n ins 0) := loop_outcome (join_self ins.joined) (by simp)
  rw [h] at ho
  obtain ⟨a, name, params, b, hv, ha, hf⟩ := ho
  exact Expand.expands_not_stuck hm hv ha (role_missing hf)

end Loop

/-! ## The values, and the call -/

section Values

variable {find : Str → Found} {vals : List ℕ} {m : ℕ → Option Instring} {ins ins' : Instring}

/-- the loop over the values returns -/
def Resolves (find : Str → Found) (vals : List ℕ) (m : ℕ → Option Instring) : Prop :=
  ∃ n r m', resolve_values find n vals m = some (r, m') ∧ r ≠ .raise

/-- **The condition** of the values: up to the first one with a variable that is not found, each has an instring, and a straight one -/
def Resolvable (find : Str → Found) (vals : List ℕ) (m : ℕ → Option Instring) : Prop :=
  ∀ before v after, vals = before ++ v :: after → (∀ w ∈ before, ∀ ins, m w = some ins → Complete find ins) →
    ∃ ins, m v = some ins ∧ Straight find ins

theorem resolvable_cons {v : ℕ} : Resolvable find (v :: vals) m ↔
    ∃ ins, m v = some ins ∧ Straight find ins ∧ (Complete find ins → Resolvable find vals m) := by
  constructor
  · intro h
    obtain ⟨ins, hins, hstraight⟩ := h [] v vals rfl (by simp)
    refine ⟨ins, hins, hstraight, fun hcomplete before w after hvals hbefore => ?_⟩
    refine h (v :: before) w after (by rw [hvals]; rfl) (List.forall_mem_cons.2 ⟨fun ins' hins' => ?_, hbefore⟩)
    rw [hins] at hins'
    cases hins'
    exact hcomplete
  · rintro ⟨ins, hins, hstraight, hrest⟩ before w after hvals hbefore
    cases before with
    | nil =>
      obtain ⟨rfl, -⟩ := List.cons.inj hvals
      exact ⟨ins, hins, hstraight⟩
    | cons u before =>
      obtain ⟨rfl, hrestvals⟩ := List.cons.inj hvals
      obtain ⟨hu, hbefore⟩ := List.forall_mem_cons.1 hbefore
      exact hrest (hu ins hins) before w after hrestvals hbefore

/-- the other values are resolved as if this one had not been -/
theorem resolves_update {v : ℕ} (hv : m v = some ins) (h : Ends find ins (.ok ins')) :
    Resolves find vals (Function.update m v (some ins')) ↔ Resolves find vals m := by
  have hsame : ∀ w, SameEnd find (Function.update m v (some ins') w) (m w) := by
    intro w
    by_cases hw : w = v
    · subst hw
      rw [Function.update_self, hv]
      exact same_end_resolved h
    · rw [Function.update_of_ne hw]
      exact same_end_refl _
  constructor
  · rintro ⟨n, r, m', hres, hr⟩
    obtain ⟨k, m₂, hk⟩ := resolve_congr hres fun w _ => hsame w
    exact ⟨k, r, m₂, hk, hr⟩
  · rintro ⟨n, r, m', hres, hr⟩
    obtain ⟨k, m₂, hk⟩ := resolve_congr hres fun w _ => same_end_symm (hsame w)
    exact ⟨k, r, m₂, hk, hr⟩

theorem resolves_cons {v : ℕ} : Resolves find (v :: vals) m ↔
    ∃ ins, m v = some ins ∧ ((∃ err, Ends find ins (.error err)) ∨ ∃ ins', Ends find ins (.ok ins') ∧ Resolves find vals m) := by
  constructor
  · rintro ⟨n, r, m', hres, hr⟩
    rcases resolve_cons.1 hres with ⟨-, rfl, -⟩ | ⟨ins, hv, ⟨err, hsub, -, -⟩ | ⟨-, rfl, -⟩ | ⟨ins', r', hsub, rfl, hrest⟩⟩
    · exact absurd rfl hr
    · exact ⟨ins, hv, .inl ⟨err, ends_of Subst.noConfusion hsub⟩⟩
    · exact absurd rfl hr
    · have hend : Ends find ins (.ok ins') := ends_of Subst.noConfusion hsub
      refine ⟨ins, hv, .inr ⟨ins', hend, (resolves_update hv hend).1 ⟨n, r', m', hrest, ?_⟩⟩⟩
      rintro rfl
      exact hr rfl
  · rintro ⟨ins, hv, ⟨err, -, n, hsub⟩ | ⟨ins', hend, hrest⟩⟩
    · exact ⟨n, .error err, m, resolve_cons.2 (.inr ⟨ins, hv, .inl ⟨err, hsub, rfl, rfl⟩⟩), Answer.noConfusion⟩
    · obtain ⟨k, r, m', hres, hr⟩ := (resolves_update hv hend).2 hrest
      obtain ⟨hs, n, hsub⟩ := hend
      have hsub' : substitute find (max n k) ins 0 = .ok ins' := by
        rw [substitute_mono (by rw [hsub]; exact hs) (le_max_left n k), hsub]
      refine ⟨max n k, r.cons ins', m', resolve_cons.2 (.inr ⟨ins, hv, .inr (.inr ⟨ins', r, hsub', rfl, ?_⟩)⟩), ?_⟩
      · exact resolve_mono hres (le_max_right n k)
      · cases r with
        | raise => exact absurd rfl hr
        | error err => exact Answer.noConfusion
        | instrings l => exact Answer.noConfusion

/-- **The values** -/
theorem resolve_iff (hfin : {name | ∃ ins, find name = .set ins}.Finite) : Resolves find vals m ↔ Resolvable find vals m := by
  induction vals with
  | nil => exact iff_of_true ⟨0, _, m, rfl, Answer.noConfusion⟩ fun before v after h => by simp at h
  | cons v vals ih =>
    rw [resolves_cons, resolvable_cons, ← ih]
    refine exists_congr fun ins => and_congr_right fun _ => ?_
    rw [← straight_iff hfin]
    constructor
    · rintro (⟨err, hend⟩ | ⟨ins', hend, hrest⟩)
      · obtain ⟨hs, n, hsub⟩ := id hend
        refine ⟨⟨n, by rw [hsub]; exact hs, by rw [hsub]; exact Subst.noConfusion⟩, fun hc => absurd hc (ends_incomplete hend)⟩
      · obtain ⟨hs, n, hsub⟩ := id hend
        exact ⟨⟨n, by rw [hsub]; exact hs, by rw [hsub]; exact Subst.noConfusion⟩, fun _ => hrest⟩
    · rintro ⟨⟨n, hs, hr⟩, hrest⟩
      cases hsub : substitute find n ins 0 with
      | unfinished => exact absurd hsub hs
      | raise => exact absurd hsub hr
      | error err => exact .inl ⟨err, ends_of Subst.noConfusion hsub⟩
      | ok ins' =>
        have hend : Ends find ins (.ok ins') := ends_of Subst.noConfusion hsub
        exact .inr ⟨ins', hend, hrest (ends_complete hend)⟩

end Values

theorem setvar_mem {name : Str} {frames : List Frame} {d : ℕ} {p : Instring × ℕ} (h : find_setvar name frames d = some p) :
    name ∈ frames.flatMap fun f => f.vars.map Prod.fst := by
  induction frames generalizing d with
  | nil => cases h
  | cons f up ih =>
    rw [List.flatMap_cons, List.mem_append]
    unfold find_setvar at h
    cases hl : lookup f.vars name with
    | some ins => exact .inl (List.mem_map.2 ⟨_, lookup_some hl, rfl⟩)
    | none =>
      rw [hl] at h
      exact .inr (ih h)

theorem module_var_not_set (c : Config) (name : Str) (frames : List Frame) (ins : Instring) :
    find_module_var c name frames ≠ .set ins := by
  unfold find_module_var
  split
  · exact Found.noConfusion
  · exact Found.noConfusion
  · exact Found.noConfusion

/-- finitely many variables are set in the blocks above -/
theorem sets_finite (c : Config) (frames : List Frame) : {name | ∃ ins, find_variable c frames name = .set ins}.Finite := by
  refine (frames.flatMap fun f => f.vars.map Prod.fst).toFinset.finite_toSet.subset ?_
  rintro name ⟨ins, h⟩
  rw [List.coe_toFinset]
  cases hset : find_setvar name frames 0 with
  | some p => exact setvar_mem hset
  | none =>
    unfold find_variable at h
    rw [hset] at h
    dsimp only at h
    split_ifs at h
    exact absurd h (module_var_not_set c name frames ins)

/-- **The call.** It returns instrings, or nil and an error, exactly when the answer is cached, or there are values and they are
resolvable. -/
theorem returns_iff (c : Config) (st : State) (user : Place × Kind) :
    (∃ r st', Calls c st user r st' ∧ r ≠ .raise) ↔ ∃ l, locate c user.1 = some l ∧ (st.cache user ≠ none ∨
      ∃ vals, setting_values c l user.2 = some vals ∧ Resolvable (find_variable c l.up) vals st.instrings) := by
  cases hl : locate c user.1 with
  | none =>
    refine iff_of_false ?_ (by simp)
    rintro ⟨r, st', hcall, -⟩
    obtain ⟨l, hl'⟩ := calls_located hcall
    rw [hl] at hl'
    cases hl'
  | some l =>
    simp only [Option.some.injEq, exists_eq_left']
    cases hc : st.cache user with
    | some instrings =>
      refine iff_of_true ⟨_, st, (calls_cached hl hc).2 ⟨rfl, rfl⟩, Answer.noConfusion⟩ (.inl (Option.some_ne_none _))
    | none =>
      rw [or_iff_right (by simp)]
      cases hvals : setting_values c l user.2 with
      | none =>
        refine iff_of_false ?_ (by simp)
        rintro ⟨r, st', hcall, hr⟩
        exact hr ((calls_no_values hl hc hvals).1 hcall).1
      | some vals =>
        simp only [Option.some.injEq, exists_eq_left']
        rw [← resolve_iff (sets_finite c l.up)]
        constructor
        · rintro ⟨r, st', hcall, hr⟩
          obtain ⟨n, m, hres, -⟩ := (calls_uncached hl hc hvals).1 hcall
          exact ⟨n, r, m, hres, hr⟩
        · rintro ⟨n, r, m, hres, hr⟩
          exact ⟨r, _, (calls_uncached hl hc hvals).2 ⟨n, m, hres, rfl⟩, hr⟩

/-! ## A variable that is set to itself -/

/-- `set $x $x`, and `foo "$x"` in the root block -/
def itself : Config := foo_config [(['x'], dollar_x)] [.leaf foo_head]

def itself_up : List Frame := [⟨block_head "::ROOT::".toList, [(['x'], dollar_x)], [.leaf foo_head]⟩]

/-- **The call that does not return** -/
theorem never_returns : locate itself [0] ≠ none ∧ ∀ r st', ¬ Calls itself fresh ([0], .default) r st' := by
  refine ⟨by decide, ?_⟩
  rintro r st' ⟨n, h⟩
  -- what is replaced is there again
  have hloop : ∀ n, substitute (find_variable itself itself_up) n dollar_x 0 = .unfinished := by
    intro n
    induction n with
    | zero => rfl
    | succ n ih => exact ih
  have hvalues : resolve_values (find_variable itself itself_up) n [0] fresh.instrings = none := by
    unfold resolve_values
    simp [fresh, hloop]
  change (resolve_values (find_variable itself itself_up) n [0] fresh.instrings).map _ = _ at h
  rw [hvalues] at h
  cases h

end Shuttlesock.Settings
