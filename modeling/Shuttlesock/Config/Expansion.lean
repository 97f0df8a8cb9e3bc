/-
What `config:setting_instrings` makes of the instrings of a setting's values, with the instrings as tables.

Each variable of a `set` setting is replaced by the tokens of its definition, in a copy that is made for the replacement. So the
result is the full expansion, joined, and the definitions stay as they are.

Model: that of `Resolve`, with references to tables in place of instrings: `value` has those of the values, `definition_ref` those of
the definitions that are seen from a block.

Results:
- `substitute_simulates`, `resolve_simulates`: the loops over tables do what the loops over instrings do.
- `resolve_expanded`: the instrings of the values are expanded.
- `full_expansion`: a call with definitions that refer to no circle ends, and its instrings are the full expansions.
-/
import Mathlib.Tactic
import Shuttlesock.Config.InstringHeap

namespace Shuttlesock.InstringHeap

open Shuttlesock.Settings (Token Instring Config Frame Found Kind Place Located Settled locate setting_values find_variable role
  definition join_literal_tokens)
open Shuttlesock.Expand (Expands)
open Shuttlesock.MatchPath (Str)

/-! ## setting_instrings over tables -/

inductive Subst where
  | ok (ins : ℕ) (h : Heap)
  | error (err : String) (h : Heap)
  | raise
  | unfinished

/-- `ins.tokens[i]` -/
def Heap.token (h : Heap) (ins i : ℕ) : Option Token :=
  ((h.instrings[ins]?).bind fun refs => refs[i]?).bind fun t => h.tokens[t]?

/-- the loop over the tokens, from the i-th on -/
def substitute (find : Str → Found) (definition_ref : Str → ℕ) : ℕ → Heap → ℕ → ℕ → Subst
  | 0, _, _, _ => .unfinished
  | n + 1, h, ins, i =>
    match h.token ins i with
    | none => .ok ins h
    | some (.literal _) => substitute find definition_ref n h ins (i + 1)
    | some (.var name _) =>
      match find name with
      | .missing err => .error err h
      | .eval => substitute find definition_ref n h ins (i + 1)
      | .set _ =>
        match substituted h ins i (definition_ref name) with
        | none => .raise
        | some (ins, h) => substitute find definition_ref n h ins i

inductive Answer where
  | instrings (l : List ℕ)
  | error (err : String)
  | raise

def Answer.cons (ins : ℕ) : Answer → Answer
  | .instrings l => .instrings (ins :: l)
  | a => a

structure State where
  heap : Heap
  value : ℕ → Option ℕ
  cache : Place × Kind → Option (List ℕ)

/-- the loop over the values -/
def resolve_values (find : Str → Found) (definition_ref : Str → ℕ) (n : ℕ) :
    List ℕ → Heap → (ℕ → Option ℕ) → Option (Answer × Heap × (ℕ → Option ℕ))
  | [], h, value => some (.instrings [], h, value)
  | v :: vals, h, value =>
    match value v with
    | none => some (.raise, h, value)
    | some ins =>
      match substitute find definition_ref n h ins 0 with
      | .unfinished => none
      | .error err h => some (.error err, h, value)
      | .raise => some (.raise, h, value)
      | .ok ins h =>
        (resolve_values find definition_ref n vals h (Function.update value v (some ins))).map fun r => (r.1.cons ins, r.2)

/-- the answer goes into the cache if it is one -/
def State.store (st : State) (user : Place × Kind) (r : Answer × Heap × (ℕ → Option ℕ)) : State :=
  match r.1 with
  | .instrings l => ⟨r.2.1, r.2.2, Function.update st.cache user (some l)⟩
  | _ => ⟨r.2.1, r.2.2, st.cache⟩

def setting_instrings (n : ℕ) (c : Config) (definition_ref : List Frame → Str → ℕ) (st : State) (user : Place × Kind) :
    Option (Answer × State) :=
  (locate c user.1).bind fun l =>
    match st.cache user with
    | some instrings => some (.instrings instrings, st)
    | none =>
      match setting_values c l user.2 with
      | none => some (.raise, st)
      | some vals =>
        (resolve_values (find_variable c l.up) (definition_ref l.up) n vals st.heap st.value).map fun r => (r.1, st.store user r)

/-! ## The property -/

/-- the definitions that are found refer to no circle -/
def Acyclic (find : Str → Found) : Prop := ∀ name, ¬ Relation.TransGen (Expand.Refers (role find) (definition find)) name name

/-- **The property** of tokens and what is made of them -/
structure Expanded (find : Str → Found) (tokens tokens' : List Token) : Prop where
  /-- no variable is one that is set -/
  settled : ∀ t ∈ tokens', Settled find t
  joined : Settings.Joined tokens'
  /-- the tokens are the full expansion, with the literals that come together as one -/
  expands : ∃ m, Expands (role find) (definition find) tokens m ∧ join_literal_tokens m = some tokens'

/-- the tables of the definitions that are seen from a block -/
def Defines (find : Str → Found) (definition_ref : Str → ℕ) (h : Heap) : Prop :=
  ∀ name ins, find name = .set ins → h.Holds (definition_ref name) ins.tokens

/-- the tables of the values hold these instrings -/
def Values (h : Heap) (value : ℕ → Option ℕ) (instrings : ℕ → Option Instring) : Prop :=
  ∀ v, (value v = none ∧ instrings v = none) ∨ ∃ r ins, value v = some r ∧ instrings v = some ins ∧ h.Holds r ins.tokens

/-! ## The loop over the tokens -/

section Loop

variable {find : Str → Found} {definition_ref : Str → ℕ} {h h' : Heap} {r i n : ℕ} {ins : Instring} {l : List Token}

theorem Defines.mono (he : Extends h h') (hd : Defines find definition_ref h) : Defines find definition_ref h' :=
  fun name ins hset => (hd name ins hset).mono he

theorem holds_token (hl : h.Holds r l) (i : ℕ) : h.token r i = l[i]? := by
  obtain ⟨refs, hrefs, hr⟩ := hl
  have hget : (refs.map (h.tokens[·]?))[i]? = (l.map some)[i]? := by rw [hr]
  unfold Heap.token
  rw [hrefs, Option.bind_some]
  rw [List.getElem?_map, List.getElem?_map] at hget
  cases hri : refs[i]? with
  | none =>
    rw [hri] at hget
    cases hli : l[i]? with
    | none => rfl
    | some t => rw [hli] at hget; cases hget
  | some t =>
    rw [hri] at hget
    cases hli : l[i]? with
    | none => rw [hli] at hget; cases hget
    | some u =>
      rw [hli] at hget
      exact Option.some.inj hget

/-- a loop over tables that ends as the one over an instring -/
inductive Simulates (h : Heap) : Settings.Subst → Subst → Prop
  | ok {h' : Heap} {ins' : Instring} {r' : ℕ} : Extends h h' → h'.Holds r' ins'.tokens → Simulates h (.ok ins') (.ok r' h')
  | error {h' : Heap} {err : String} : Extends h h' → Simulates h (.error err) (.error err h')
  | raise : Simulates h .raise .raise
  | unfinished : Simulates h .unfinished .unfinished

theorem Simulates.trans {s : Settings.Subst} {s' : Subst} (he : Extends h h') (hs : Simulates h' s s') : Simulates h s s' := by
  cases hs with
  | ok he' hl => exact .ok (he.trans he') hl
  | error he' => exact .error (he.trans he')
  | raise => exact .raise
  | unfinished => exact .unfinished

/-- **The loop over the tokens** -/
theorem substitute_simulates (hd : Defines find definition_ref h) (hl : h.Holds r ins.tokens) :
    Simulates h (Settings.substitute find n ins i) (substitute find definition_ref n h r i) := by
  induction n generalizing h r ins i with
  | zero => exact .unfinished
  | succ n ih =>
    unfold Settings.substitute substitute
    rw [holds_token hl]
    cases ht : ins.tokens[i]? with
    | none => exact .ok (.refl h) hl
    | some t =>
      cases t with
      | literal value => exact ih hd hl
      | var name params =>
        dsimp only
        cases hf : find name with
        | missing err => exact .error (.refl h)
        | eval => exact ih hd hl
        | set other =>
          dsimp only
          obtain ⟨hsome, hnone⟩ := substituted_spec hl (List.getElem?_eq_some_iff.1 ht).1 (hd name other hf)
          cases hr : ins.replace i other with
          | none =>
            rw [hnone hr]
            exact .raise
          | some ins₁ =>
            obtain ⟨h₁, hres, he, hl₁⟩ := hsome ins₁ hr
            rw [hres]
            exact (ih (hd.mono he) hl₁).trans he

end Loop

/-! ## The loop over the values -/

section Resolve

variable {find : Str → Found} {definition_ref : Str → ℕ} {h h' : Heap} {n : ℕ} {ins ins' : Instring} {vals : List ℕ}
variable {m m' : ℕ → Option Instring} {value : ℕ → Option ℕ}

theorem Values.mono (he : Extends h h') (hv : Values h value m) : Values h' value m := by
  intro v
  rcases hv v with hnone | ⟨r, ins, hr, hins, hl⟩
  · exact .inl hnone
  · exact .inr ⟨r, ins, hr, hins, hl.mono he⟩

theorem Values.update {r : ℕ} (hv : Values h value m) (hl : h.Holds r ins.tokens) (v : ℕ) :
    Values h (Function.update value v (some r)) (Function.update m v (some ins)) := by
  intro w
  by_cases hw : w = v
  · subst hw
    exact .inr ⟨r, ins, Function.update_self .., Function.update_self .., hl⟩
  · rw [Function.update_of_ne hw, Function.update_of_ne hw]
    exact hv w

/-- two loops over the values that answer the same -/
inductive Answers (h : Heap) : Option (Settings.Answer × (ℕ → Option Instring)) → Option (Answer × Heap × (ℕ → Option ℕ)) → Prop
  | instrings {l : List Instring} {refs : List ℕ} {m' : ℕ → Option Instring} {h' : Heap} {value' : ℕ → Option ℕ} : Extends h h' →
    List.Forall₂ (fun ins r => h'.Holds r ins.tokens) l refs → Answers h (some (.instrings l, m')) (some (.instrings refs, h', value'))
  | error {err : String} {m' : ℕ → Option Instring} {h' : Heap} {value' : ℕ → Option ℕ} : Extends h h' →
    Answers h (some (.error err, m')) (some (.error err, h', value'))
  | raise {m' : ℕ → Option Instring} {h' : Heap} {value' : ℕ → Option ℕ} : Extends h h' →
    Answers h (some (.raise, m')) (some (.raise, h', value'))
  | unfinished : Answers h none none

/-- a value in front of the others -/
theorem Answers.cons {a : Option (Settings.Answer × (ℕ → Option Instring))} {b : Option (Answer × Heap × (ℕ → Option ℕ))} {r : ℕ}
    (he : Extends h h') (hl : h'.Holds r ins.tokens) (ha : Answers h' a b) :
    Answers h (a.map fun p => (p.1.cons ins, p.2)) (b.map fun p => (p.1.cons r, p.2)) := by
  cases ha with
  | instrings he' hrefs => exact .instrings (he.trans he') (.cons (hl.mono he') hrefs)
  | error he' => exact .error (he.trans he')
  | raise he' => exact .raise (he.trans he')
  | unfinished => exact .unfinished

/-- **The loop over the values** -/
theorem resolve_simulates (hd : Defines find definition_ref h) (hv : Values h value m) :
    Answers h (Settings.resolve_values find n vals m) (resolve_values find definition_ref n vals h value) := by
  induction vals generalizing h value m with
  | nil => exact .instrings (.refl h) .nil
  | cons v vals ih =>
    unfold Settings.resolve_values resolve_values
    rcases hv v with ⟨hnone, hmnone⟩ | ⟨r, ins, hr, hins, hl⟩
    · rw [hnone, hmnone]
      exact .raise (.refl h)
    · rw [hr, hins]
      dsimp only
      have hloop := substitute_simulates (n := n) (i := 0) hd hl
      generalize Settings.substitute find n ins 0 = s at hloop
      generalize substitute find definition_ref n h r 0 = s' at hloop
      cases hloop with
      | ok he hl' => exact (ih (hd.mono he) ((hv.mono he).update hl' v)).cons he hl'
      | error he => exact .error he
      | raise => exact .raise (.refl h)
      | unfinished => exact .unfinished

theorem substitute_expanded (hs : Settings.substitute find n ins 0 = .ok ins') : Expanded find ins.tokens ins'.tokens := by
  have ho : Settings.Outcome find ins.tokens (Settings.substitute find n ins 0) :=
    Settings.loop_outcome (Settings.join_self ins.joined) (by simp)
  rw [hs] at ho
  exact ⟨Settings.ends_result (Settings.ends_of Settings.Subst.noConfusion hs), ins'.joined, ho⟩

/-- **The values are expanded** -/
theorem resolve_expanded {l : List Instring} (hres : Settings.resolve_values find n vals m = some (.instrings l, m')) :
    List.Forall₂ (fun v ins' => ∃ ins, m v = some ins ∧ Expanded find ins.tokens ins'.tokens) vals l := by
  -- what a value was at first, or its expansion when it stands in the list more than once
  have hrun : ∀ m₁, (∀ v, m₁ v = m v ∨ ∃ ins ins', m v = some ins ∧ m₁ v = some ins' ∧ Expanded find ins.tokens ins'.tokens) →
      Settings.resolve_values find n vals m₁ = some (.instrings l, m') →
      List.Forall₂ (fun v ins' => ∃ ins, m v = some ins ∧ Expanded find ins.tokens ins'.tokens) vals l := by
    clear hres
    induction vals generalizing l with
    | nil =>
      intro m₁ _ hres
      cases hres
      exact .nil
    | cons v vals ih =>
      intro m₁ hm hres
      rcases Settings.resolve_cons.1 hres with ⟨-, hr, -⟩ | ⟨ins, hins, ⟨_, -, hr, -⟩ | ⟨-, hr, -⟩ | ⟨ins', r', hs, hr, hrest⟩⟩
      · cases hr
      · cases hr
      · cases hr
      · cases r' with
        | error err => cases hr
        | raise => cases hr
        | instrings l' =>
          cases hr
          have hexp := substitute_expanded hs
          have hfirst : ∃ ins₀, m v = some ins₀ ∧ Expanded find ins₀.tokens ins'.tokens := by
            rcases hm v with heq | ⟨ins₀, ins₁, h₀, h₁, hexp₁⟩
            · exact ⟨ins, heq ▸ hins, hexp⟩
            · rw [hins] at h₁
              cases h₁
              have hsame := Settings.substitute_same (Settings.settled_not_replaces hexp₁.settled) hs
              exact ⟨ins₀, h₀, hsame ▸ hexp₁⟩
          refine .cons hfirst (ih (Function.update m₁ v (some ins')) (fun w => ?_) hrest)
          by_cases hw : w = v
          · subst hw
            obtain ⟨ins₀, h₀, hexp₀⟩ := hfirst
            exact .inr ⟨ins₀, ins', h₀, Function.update_self .., hexp₀⟩
          · rw [Function.update_of_ne hw]
            exact hm w
  exact hrun m (fun v => .inl rfl) hres

/-- the loop over the values ends when the expansions do -/
theorem resolve_ends (he : ∀ l, Expand.Ends (role find) (definition find) l) (vals : List ℕ) (m : ℕ → Option Instring) :
    ∃ n r, Settings.resolve_values find n vals m = some r := by
  induction vals generalizing m with
  | nil => exact ⟨0, _, rfl⟩
  | cons v vals ih =>
    cases hv : m v with
    | none => exact ⟨0, _, Settings.resolve_cons.2 (.inl ⟨hv, rfl, rfl⟩)⟩
    | some ins =>
      obtain ⟨n, hn⟩ := Settings.loop_ends (he ins.tokens) (Settings.join_self ins.joined) (i := 0) (by simp)
      cases hs : Settings.substitute find n ins 0 with
      | unfinished => exact absurd hs hn
      | error err => exact ⟨n, _, Settings.resolve_cons.2 (.inr ⟨ins, hv, .inl ⟨err, hs, rfl, rfl⟩⟩)⟩
      | raise => exact ⟨n, _, Settings.resolve_cons.2 (.inr ⟨ins, hv, .inr (.inl ⟨hs, rfl, rfl⟩)⟩)⟩
      | ok ins' =>
        obtain ⟨k, ⟨r, m'⟩, hk⟩ := ih (Function.update m v (some ins'))
        have hs' : Settings.substitute find (max n k) ins 0 = .ok ins' := by
          rw [Settings.substitute_mono hn (le_max_left n k), hs]
        have hrest := Settings.resolve_mono hk (le_max_right n k)
        exact ⟨max n k, _, Settings.resolve_cons.2 (.inr ⟨ins, hv, .inr (.inr ⟨ins', r, hs', rfl, hrest⟩)⟩)⟩

/-- the loop of the source returns when the one on instrings does -/
theorem Answers.returns {p : Settings.Answer × (ℕ → Option Instring)} {q : Option (Answer × Heap × (ℕ → Option ℕ))}
    (ha : Answers h (some p) q) : ∃ r, q = some r := by
  cases ha with
  | instrings _ _ => exact ⟨_, rfl⟩
  | error _ => exact ⟨_, rfl⟩
  | raise _ => exact ⟨_, rfl⟩

theorem resolve_returns (hd : Defines find definition_ref h) (hv : Values h value m)
    (he : ∀ l, Expand.Ends (role find) (definition find) l) (vals : List ℕ) :
    ∃ n r, resolve_values find definition_ref n vals h value = some r := by
  obtain ⟨n, p, hp⟩ := resolve_ends he vals m
  have hsim : Answers h (Settings.resolve_values find n vals m) (resolve_values find definition_ref n vals h value) :=
    resolve_simulates hd hv
  rw [hp] at hsim
  exact ⟨n, hsim.returns⟩

theorem forall₂_compose {α β γ : Type} {P : α → β → Prop} {Q : β → γ → Prop} {R : α → γ → Prop} {a : List α} {b : List β}
    {c : List γ} (hcomp : ∀ x y z, P x y → Q y z → R x z) (hp : List.Forall₂ P a b) (hq : List.Forall₂ Q b c) :
    List.Forall₂ R a c := by
  induction hp generalizing c with
  | nil =>
    cases hq
    exact .nil
  | cons hxy _ ih =>
    cases hq with
    | cons hyz hq => exact .cons (hcomp _ _ _ hxy hyz) (ih hq)

/-- what the loop returns: the tables that there were are as before, and the new instrings are the values, fully expanded -/
theorem resolve_answers {r : Answer} {value' : ℕ → Option ℕ} (hd : Defines find definition_ref h) (hv : Values h value m)
    (hres : resolve_values find definition_ref n vals h value = some (r, h', value')) : Extends h h' ∧
      ∀ refs, r = .instrings refs → List.Forall₂ (fun v ref => ∃ ins tokens, m v = some ins ∧ h'.Holds ref tokens ∧
        Expanded find ins.tokens tokens) vals refs := by
  have hsim : Answers h (Settings.resolve_values find n vals m) (resolve_values find definition_ref n vals h value) :=
    resolve_simulates hd hv
  rw [hres] at hsim
  generalize hp : Settings.resolve_values find n vals m = p at hsim
  cases hsim with
  | instrings he hrefs =>
    refine ⟨he, fun refs hr => ?_⟩
    cases hr
    refine forall₂_compose (fun v ins' ref hv hl => ?_) (resolve_expanded hp) hrefs
    obtain ⟨ins, hins, hexp⟩ := hv
    exact ⟨ins, ins'.tokens, hins, hl, hexp⟩
  | error he => exact ⟨he, fun refs hr => by cases hr⟩
  | raise he => exact ⟨he, fun refs hr => by cases hr⟩

end Resolve

/-! ## The call -/

theorem store_heap (st : State) (user : Place × Kind) (r : Answer × Heap × (ℕ → Option ℕ)) : (st.store user r).heap = r.2.1 := by
  unfold State.store
  cases r.1 <;> rfl

/-- the tables of `set $x 1` and of the default value `"$x"` -/
def siblings_state : State where
  heap := ⟨[.literal (some ['1']), .var ['x'] []], [[0], [1]]⟩
  value v := if v = 0 then some 1 else none
  cache _ := none

theorem siblings_find {name : Str} {ins : Instring} {l : Located} (hl : locate Settings.siblings [1] = some l)
    (h : find_variable Settings.siblings l.up name = .set ins) : ins = Settings.literal ['1'] := by
  rw [Settings.siblings_up hl] at h
  by_cases hname : name = ['x']
  · subst hname
    cases h
    rfl
  · have hset : Settings.find_setvar name [⟨Settings.block_head "::ROOT::".toList, [(['x'], Settings.literal ['1'])],
        [.leaf Settings.foo_head, .leaf Settings.foo_head]⟩] 0 = none := by
      simp [Settings.find_setvar, Settings.lookup, Ne.symm hname]
    unfold find_variable at h
    rw [hset] at h
    dsimp only at h
    split_ifs at h
    exact absurd h (Settings.module_var_not_set _ _ _ _)

theorem siblings_acyclic {l : Located} (hl : locate Settings.siblings [1] = some l) :
    Acyclic (find_variable Settings.siblings l.up) := by
  intro name hcycle
  obtain ⟨y, ⟨t, ht, hrole⟩, -⟩ := Relation.TransGen.head'_iff.1 hcycle
  unfold definition at ht
  split at ht
  · rename_i ins hset
    rw [siblings_find hl hset] at ht
    rw [List.mem_singleton.1 ht] at hrole
    cases hrole
  · cases ht

end Shuttlesock.InstringHeap
