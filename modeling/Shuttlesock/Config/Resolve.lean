/-
The variables in the values of a setting: `config:find_variable`, `config:predecessor`, `config:setting_values` and
`config:setting_instrings` of `config.lua`, `instring:insert`, `instring:remove` and `instring:join_literal_tokens` of
`instring.lua`.

`setting_instrings` replaces the variables of the `set` settings in a copy of a value's instring, and then makes the copy the
instring of the value. Default values belong to all settings of a handler, inherited ones to another setting.

Model: a setting is found at its place, the indices from the root block on; `Frame` is a setting above it with its block. The
state has the instrings of the values and the caches of the settings; what is found for a variable depends on neither.
- The loop over the tokens has fuel, for a variable can contain itself; `none` is a call that does not return with it.
- Tables that are traversed with `pairs` are lists, in whatever order.

Results:
- `same_instrings`: in a run whose calls replace a variable only where all users of the value find the same, every call
  returns what it would have returned as the first one.
- `leaks`: the default values of a setting with the variable of another block.
-/
import Mathlib.Tactic
import Shuttlesock.Config.Tree

namespace Shuttlesock.Settings

open Shuttlesock.MatchPath

/-! ## Instrings -/

/-- `prev.value .. cur.value`, of two literals; nil cannot be concatenated -/
def concat_literals (prev cur : Token) : Option Token :=
  match prev, cur with
  | .literal (some a), .literal (some b) => some (.literal (some (a ++ b)))
  | _, _ => none

/-- a token in front of others -/
def join_cons (t : Token) (l : List Token) : Option (List Token) :=
  match l with
  | [] => some [t]
  | u :: r => if t.isLiteral ∧ u.isLiteral then (concat_literals t u).map (· :: r) else some (t :: u :: r)

def join_literal_tokens : List Token → Option (List Token)
  | [] => some []
  | t :: l => (join_literal_tokens l).bind (join_cons t)

theorem concat_literal {t u w : Token} (h : concat_literals t u = some w) : w.isLiteral = true := by
  unfold concat_literals at h
  split at h
  · cases h
    rfl
  · cases h

/-- what a token is joined to: the others with it in front, or with a longer literal -/
theorem join_cons_cases {t : Token} {l l' : List Token} (h : join_cons t l = some l') :
    (l' = t :: l ∧ ∀ u r, l = u :: r → ¬ (t.isLiteral ∧ u.isLiteral)) ∨
      ∃ u r w, l = u :: r ∧ l' = w :: r ∧ t.isLiteral = true ∧ u.isLiteral = true ∧ w.isLiteral = true := by
  unfold join_cons at h
  cases l with
  | nil =>
    cases h
    exact .inl ⟨rfl, fun u r hr => by cases hr⟩
  | cons u r =>
    dsimp only at h
    split_ifs at h with hlit
    · obtain ⟨w, hw, rfl⟩ := Option.map_eq_some_iff.1 h
      exact .inr ⟨u, r, w, rfl, rfl, hlit.1, hlit.2, concat_literal hw⟩
    · cases h
      refine .inl ⟨rfl, fun u' r' hr => ?_⟩
      cases hr
      exact hlit

theorem joined_cons {t : Token} {l : List Token} (hl : Joined l) (h : ∀ u r, l = u :: r → ¬ (t.isLiteral ∧ u.isLiteral)) :
    Joined (t :: l) := by
  cases l with
  | nil => exact List.isChain_singleton t
  | cons u r => exact List.isChain_cons_cons.2 ⟨h u r rfl, hl⟩

theorem joined_head {t u : Token} {r : List Token} (h : Joined (t :: r)) (htu : u.isLiteral = t.isLiteral) :
    Joined (u :: r) := by
  cases r with
  | nil => exact List.isChain_singleton u
  | cons v r =>
    obtain ⟨hv, hr⟩ := List.isChain_cons_cons.1 h
    exact List.isChain_cons_cons.2 ⟨htu ▸ hv, hr⟩

theorem join_joined {l l' : List Token} (h : join_literal_tokens l = some l') : Joined l' := by
  induction l generalizing l' with
  | nil =>
    cases h
    exact List.isChain_nil
  | cons t l ih =>
    obtain ⟨l₁, h₁, h⟩ := Option.bind_eq_some_iff.1 h
    rcases join_cons_cases h with ⟨rfl, hlit⟩ | ⟨u, r, w, rfl, rfl, -, hu, hw⟩
    · exact joined_cons (ih h₁) hlit
    · exact joined_head (ih h₁) (hw.trans hu.symm)

/-- joining leaves the variables -/
theorem mem_join {l l' : List Token} (h : join_literal_tokens l = some l') (name : Str) (params : List Str) :
    Token.var name params ∈ l' ↔ Token.var name params ∈ l := by
  have hne : ∀ {w : Token}, w.isLiteral = true → Token.var name params ≠ w := by
    rintro w hw rfl
    cases hw
  induction l generalizing l' with
  | nil =>
    cases h
    exact Iff.rfl
  | cons t l ih =>
    obtain ⟨l₁, h₁, h⟩ := Option.bind_eq_some_iff.1 h
    have hiff : Token.var name params ∈ l₁ ↔ Token.var name params ∈ l := ih h₁
    rcases join_cons_cases h with ⟨rfl, -⟩ | ⟨u, r, w, rfl, rfl, ht, hu, hw⟩
    · rw [List.mem_cons, List.mem_cons, hiff]
    · rw [List.mem_cons] at hiff
      rw [List.mem_cons, List.mem_cons, ← hiff]
      simp only [hne hw, hne ht, hne hu, false_or]

/-- `ins:remove(i)` and `ins:insert(i, other)` of a copy -/
def Instring.replace (ins : Instring) (i : ℕ) (other : Instring) : Option Instring :=
  match h : join_literal_tokens (ins.tokens.take i ++ (other.tokens ++ ins.tokens.drop (i + 1))) with
  | some tokens => some ⟨tokens, join_joined h⟩
  | none => none

theorem replace_some {ins ins' other : Instring} {i : ℕ} (h : ins.replace i other = some ins') :
    join_literal_tokens (ins.tokens.take i ++ (other.tokens ++ ins.tokens.drop (i + 1))) = some ins'.tokens := by
  unfold Instring.replace at h
  split at h
  · cases h
    assumption
  · cases h

/-! ## Variables -/

/-- a variable of a module -/
structure ModuleVar where
  module_name : Str
  path : Str
deriving DecidableEq

/-- a setting above, with its block -/
structure Frame where
  head : Head
  vars : List (Str × Instring)
  settings : List Setting

structure Config where
  handlers : List (Str × Handler)
  prefix_match : List (Str × List ModuleVar)
  name : List (Str × List ModuleVar)
  root : Setting

/-- what `find_variable` returns: a variable with a substitution, one that is evaluated, or nil and an error -/
inductive Found where
  | set (ins : Instring)
  | eval
  | missing (err : String)
deriving DecidableEq

/-- the path of the innermost block -/
def frames_path : List Frame → Str
  | [] => ['/']
  | [_] => ['/']
  | f :: up => block_path (frames_path up) f.head

/-- the loop over the blocks above: the variable and the distance of its block -/
def find_setvar (name : Str) : List Frame → ℕ → Option (Instring × ℕ)
  | [], _ => none
  | f :: up, block_distance =>
    match lookup f.vars name with
    | some ins => some (ins, block_distance)
    | none => find_setvar name up (block_distance + 1)

def possible_module_vars (c : Config) (name : Str) : List ModuleVar :=
  (c.prefix_match.filter fun p => p.1.isPrefixOf name).flatMap Prod.snd ++ (lookup c.name name).getD []

/-- elements are removed while `ipairs` goes over them, so that the one after a removed one stays -/
def remove_unmatched (path : Str) : List ModuleVar → List ModuleVar
  | [] => []
  | [v] => if path_matches path v.path then [v] else []
  | v :: w :: vars =>
    if path_matches path v.path then v :: remove_unmatched path (w :: vars) else w :: remove_unmatched path vars

def find_module_var (c : Config) (name : Str) (frames : List Frame) : Found :=
  match remove_unmatched (frames_path frames) (possible_module_vars c name) with
  | [] => .missing ("no variable $" ++ String.ofList name ++ " matches for the path of the config block")
  | [_] => .eval
  | vars =>
    let module_names := (vars.map fun v => String.ofList v.module_name).mergeSort
    .missing ("variable $" ++ String.ofList name ++ " is ambiguous, could be for any of these modules: " ++
      ", ".intercalate module_names)

/-- `find_variable`, without a module name, from the innermost block -/
def find_variable (c : Config) (frames : List Frame) (name : Str) : Found :=
  match find_setvar name frames 0 with
  | some (ins, 0) => .set ins
  | some (ins, _) => if possible_module_vars c name = [] then .set ins else find_module_var c name frames
  | none =>
    if possible_module_vars c name = [] then .missing ("no such variable $" ++ String.ofList name)
    else find_module_var c name frames

/-! ## Values -/

inductive Kind where
  | own
  | default
  | inherited
deriving DecidableEq

abbrev Place := List ℕ

/-- a setting and what is above it -/
structure Located where
  head : Head
  up : List Frame

def locate_in (up : List Frame) : List Setting → Place → Option Located
  | _, [] => none
  | settings, i :: place =>
    (settings[i]?).bind fun s =>
      if place = [] then some ⟨s.head, up⟩
      else
        match s with
        | .leaf _ => none
        | .block h vars settings => locate_in (⟨h, vars, settings⟩ :: up) settings place

def locate (c : Config) (place : Place) : Option Located :=
  match c.root with
  | .leaf _ => none
  | .block h vars settings => locate_in [⟨h, vars, settings⟩] settings place

/-- `predecessor`: it compares with the handler of the setting above, up to the root -/
def predecessor : List Frame → Option Head
  | [] => none
  | [_] => none
  | f :: up =>
    match f.settings.find? fun d => f.head.handled_by.isSome ∧ f.head.handled_by = d.head.handled_by with
    | some d => some d.head
    | none => predecessor up

/-- `setting_values`: `none` is nil -/
def setting_values (c : Config) (l : Located) : Kind → Option (List ℕ)
  | .own => some (l.head.values.getD [])
  | .default =>
    match l.head.handled_by with
    | none => some []
    | some name => (lookup c.handlers name).map fun handler => handler.default_values.getD []
  | .inherited =>
    match predecessor l.up with
    | none => some []
    | some d => d.values

/-! ## Substitution -/

inductive Subst where
  | ok (ins : Instring)
  | error (err : String)
  | raise
  | unfinished
deriving DecidableEq

/-- the loop over the tokens, from the i-th on -/
def substitute (find : Str → Found) : ℕ → Instring → ℕ → Subst
  | 0, _, _ => .unfinished
  | n + 1, ins, i =>
    match ins.tokens[i]? with
    | none => .ok ins
    | some (.literal _) => substitute find n ins (i + 1)
    | some (.var name _) =>
      match find name with
      | .missing err => .error err
      | .eval => substitute find n ins (i + 1)
      | .set other =>
        match ins.replace i other with
        | none => .raise
        | some ins => substitute find n ins i

structure State where
  instrings : ℕ → Option Instring
  cache : Place × Kind → Option (List Instring)

inductive Answer where
  | instrings (l : List Instring)
  | error (err : String)
  | raise
deriving DecidableEq

def Answer.cons (ins : Instring) : Answer → Answer
  | .instrings l => .instrings (ins :: l)
  | a => a

/-- the loop over the values -/
def resolve_values (find : Str → Found) (n : ℕ) :
    List ℕ → (ℕ → Option Instring) → Option (Answer × (ℕ → Option Instring))
  | [], m => some (.instrings [], m)
  | v :: vals, m =>
    match m v with
    | none => some (.raise, m)
    | some ins =>
      match substitute find n ins 0 with
      | .unfinished => none
      | .error err => some (.error err, m)
      | .raise => some (.raise, m)
      | .ok ins => (resolve_values find n vals (Function.update m v (some ins))).map fun r => (r.1.cons ins, r.2)

/-- the answer goes into the cache if it is one -/
def State.store (st : State) (user : Place × Kind) (r : Answer × (ℕ → Option Instring)) : State :=
  match r.1 with
  | .instrings l => ⟨r.2, Function.update st.cache user (some l)⟩
  | _ => ⟨r.2, st.cache⟩

/-- `setting_instrings` of a setting and a kind -/
def setting_instrings (n : ℕ) (c : Config) (st : State) (user : Place × Kind) : Option (Answer × State) :=
  (locate c user.1).bind fun l =>
    match st.cache user with
    | some instrings => some (.instrings instrings, st)
    | none =>
      match setting_values c l user.2 with
      | none => some (.raise, st)
      | some vals =>
        (resolve_values (find_variable c l.up) n vals st.instrings).map fun r => (r.1, st.store user r)

/-! ## The property -/

/-- a call returns, with enough fuel -/
def Calls (c : Config) (st : State) (user : Place × Kind) (r : Answer) (st' : State) : Prop :=
  ∃ n, setting_instrings n c st user = some (r, st')

def Returns (c : Config) (st : State) (user : Place × Kind) (r : Answer) : Prop := ∃ st', Calls c st user r st'

/-- a setting and a kind whose values are these; find is what is found from its block -/
def Uses (c : Config) (user : Place × Kind) (find : Str → Found) (vals : List ℕ) : Prop :=
  ∃ l, locate c user.1 = some l ∧ find_variable c l.up = find ∧ setting_values c l user.2 = some vals

/-- a variable occurs in the tokens, or in those of a variable that does and is set -/
inductive Occurs (find : Str → Found) : List Token → Str → Prop
  | token {tokens : List Token} {name : Str} {params : List Str} : .var name params ∈ tokens → Occurs find tokens name
  | set {tokens : List Token} {name name' : Str} {params : List Str} {ins : Instring} : .var name params ∈ tokens →
    find name = .set ins → Occurs find ins.tokens name' → Occurs find tokens name'

/-- one of the variables is replaced -/
def Replaces (find : Str → Found) (tokens : List Token) : Prop :=
  ∃ name params ins, Token.var name params ∈ tokens ∧ find name = .set ins

/-- all users of a value find the same for the variables that occur in the tokens -/
def Agreed (c : Config) (v : ℕ) (find : Str → Found) (tokens : List Token) : Prop :=
  ∀ user find' vals, Uses c user find' vals → v ∈ vals → ∀ name, Occurs find tokens name → find' name = find name

/-- **The condition**, of one call: where it replaces a variable of a value, the users of the value agree -/
def Ok (c : Config) (st : State) (user : Place × Kind) : Prop :=
  ∀ find vals, Uses c user find vals → ∀ v ∈ vals, ∀ ins, st.instrings v = some ins → Replaces find ins.tokens →
    Agreed c v find ins.tokens

/-- calls that return, one after the other, all under the condition -/
inductive Run (c : Config) : State → State → Prop
  | refl {st : State} : Run c st st
  | call {st st' st'' : State} {user : Place × Kind} {r : Answer} : Run c st st' → Ok c st' user → Calls c st' user r st'' →
    Run c st st''

/-! ## Substituting -/

section Substitute

variable {find find' : Str → Found} {ins ins' other : Instring} {n m i : ℕ} {name : Str} {params : List Str}

/-- a variable of the result was there before, or comes from what was put in -/
theorem mem_replace (h : ins.replace i other = some ins') (hv : Token.var name params ∈ ins'.tokens) :
    Token.var name params ∈ ins.tokens ∨ Token.var name params ∈ other.tokens := by
  rw [mem_join (replace_some h), List.mem_append, List.mem_append] at hv
  rcases hv with hv | hv | hv
  · exact .inl (List.mem_of_mem_take hv)
  · exact .inr hv
  · exact .inl (List.mem_of_mem_drop hv)

theorem occurs_replace {params' : List Str} {name' : Str} (hi : Token.var name' params' ∈ ins.tokens)
    (hset : find name' = .set other) (h : ins.replace i other = some ins') (ho : Occurs find ins'.tokens name) :
    Occurs find ins.tokens name := by
  cases ho with
  | token hv =>
    rcases mem_replace h hv with hv | hv
    · exact .token hv
    · exact .set hi hset (.token hv)
  | set hv hfind ho =>
    rcases mem_replace h hv with hv | hv
    · exact .set hv hfind ho
    · exact .set hi hset (.set hv hfind ho)

/-- only what is found for the variables that occur matters -/
theorem substitute_congr (h : ∀ name, Occurs find ins.tokens name → find' name = find name) :
    substitute find' n ins i = substitute find n ins i := by
  induction n generalizing ins i with
  | zero => rfl
  | succ n ih =>
    unfold substitute
    cases ht : ins.tokens[i]? with
    | none => rfl
    | some t =>
      cases t with
      | literal value => exact ih h
      | var name params =>
        have hmem := List.mem_of_getElem? ht
        dsimp only
        rw [h name (.token hmem)]
        cases hf : find name with
        | missing err => rfl
        | eval => exact ih h
        | set other =>
          dsimp only
          cases hr : ins.replace i other with
          | none => rfl
          | some ins' => exact ih fun name' ho => h name' (occurs_replace hmem hf hr ho)

theorem substitute_mono (h : substitute find n ins i ≠ .unfinished) (hnm : n ≤ m) :
    substitute find m ins i = substitute find n ins i := by
  induction n generalizing m ins i with
  | zero => exact absurd rfl h
  | succ n ih =>
    obtain ⟨m, rfl⟩ : ∃ k, m = k + 1 := ⟨m - 1, by omega⟩
    have hnm' := Nat.le_of_succ_le_succ hnm
    unfold substitute at h ⊢
    cases ht : ins.tokens[i]? with
    | none => rfl
    | some t =>
      rw [ht] at h
      cases t with
      | literal value => exact ih h hnm'
      | var name params =>
        dsimp only at h ⊢
        cases hf : find name with
        | missing err => rfl
        | eval =>
          rw [hf] at h
          exact ih h hnm'
        | set other =>
          rw [hf] at h
          dsimp only at h ⊢
          cases hr : ins.replace i other with
          | none => rfl
          | some ins' =>
            rw [hr] at h
            exact ih h hnm'

/-- without a variable to replace nothing changes -/
theorem substitute_same (hnot : ¬ Replaces find ins.tokens) (h : substitute find n ins i = .ok ins') : ins' = ins := by
  induction n generalizing i with
  | zero => cases h
  | succ n ih =>
    unfold substitute at h
    cases ht : ins.tokens[i]? with
    | none =>
      rw [ht] at h
      cases h
      rfl
    | some t =>
      rw [ht] at h
      cases t with
      | literal value => exact ih h
      | var name params =>
        dsimp only at h
        cases hf : find name with
        | missing err =>
          rw [hf] at h
          cases h
        | eval =>
          rw [hf] at h
          exact ih h
        | set other => exact absurd ⟨name, params, other, List.mem_of_getElem? ht, hf⟩ hnot

/-- a token that stays as it is -/
def Settled (find : Str → Found) (t : Token) : Prop := ∀ name params, t = .var name params → find name = .eval

/-- a variable to replace is not settled -/
theorem settled_not_replaces (hall : ∀ t ∈ ins.tokens, Settled find t) : ¬ Replaces find ins.tokens := by
  rintro ⟨name, params, other, hmem, hset⟩
  have heval : find name = .eval := hall _ hmem name params rfl
  rw [hset] at heval
  cases heval

/-- settled tokens are gone over to the end -/
theorem substitute_settled (hall : ∀ t ∈ ins.tokens, Settled find t) (hn : ins.tokens.length < n + i) :
    substitute find n ins i = .ok ins ∨ n = 0 := by
  induction n generalizing i with
  | zero => exact .inr rfl
  | succ n ih =>
    left
    unfold substitute
    cases ht : ins.tokens[i]? with
    | none => rfl
    | some t =>
      have hlt := (List.getElem?_eq_some_iff.1 ht).1
      have hrest : substitute find n ins (i + 1) = .ok ins := by
        rcases ih (i := i + 1) (by omega) with h | h
        · exact h
        · omega
      cases t with
      | literal value => exact hrest
      | var name params =>
        dsimp only
        rw [hall _ (List.mem_of_getElem? ht) name params rfl]
        exact hrest

/-- the first token keeps its kind when the others are joined to it -/
theorem join_head {t : Token} {l l' : List Token} (h : join_literal_tokens (t :: l) = some l') :
    ∃ w r, l' = w :: r ∧ w.isLiteral = t.isLiteral := by
  obtain ⟨l₁, -, h⟩ := Option.bind_eq_some_iff.1 h
  rcases join_cons_cases h with ⟨rfl, -⟩ | ⟨u, r, w, -, rfl, ht, -, hw⟩
  · exact ⟨t, l₁, rfl, rfl⟩
  · exact ⟨w, r, rfl, hw.trans ht.symm⟩

/-- tokens that are joined stay where they are, the last of them with a longer literal -/
theorem join_take {front l l' : List Token} (hf : Joined front) (h : join_literal_tokens (front ++ l) = some l') :
    ∀ t ∈ l'.take front.length, t.isLiteral = true ∨ t ∈ front := by
  induction front generalizing l' with
  | nil =>
    intro t ht
    cases ht
  | cons a front ih =>
    obtain ⟨l₁, h₁, h⟩ := Option.bind_eq_some_iff.1 h
    intro t ht
    rcases join_cons_cases h with ⟨rfl, -⟩ | ⟨u, r, w, rfl, rfl, ha, hu, hw⟩
    · rcases List.mem_cons.1 ht with rfl | ht
      · exact .inr List.mem_cons_self
      · exact (ih (List.IsChain.tail hf) h₁ t ht).imp_right (List.mem_cons_of_mem a)
    · cases front with
      | nil =>
        left
        rw [List.mem_singleton.1 ht, hw]
      | cons b front =>
        -- two literals of the front would have to be adjacent
        obtain ⟨w', r', heq, hb⟩ := join_head h₁
        obtain ⟨rfl, rfl⟩ := List.cons.inj heq
        exact absurd ⟨ha, hb ▸ hu⟩ (List.isChain_cons_cons.1 hf).1

theorem literal_settled {t : Token} (h : t.isLiteral = true) : Settled find t := by
  rintro name params rfl
  cases h

/-- a settled token that is gone over -/
theorem settled_next {t : Token} (ht : ins.tokens[i]? = some t) (hs : Settled find t)
    (hall : ∀ t ∈ ins.tokens.take i, Settled find t) : ∀ u ∈ ins.tokens.take (i + 1), Settled find u := by
  intro u hu
  rw [List.take_add_one, ht, List.mem_append] at hu
  rcases hu with hu | hu
  · exact hall u hu
  · exact (List.mem_singleton.1 hu) ▸ hs

/-- what was in front of the variable still is -/
theorem replace_settled (hi : i ≤ ins.tokens.length) (h : ins.replace i other = some ins')
    (hall : ∀ t ∈ ins.tokens.take i, Settled find t) : ∀ t ∈ ins'.tokens.take i, Settled find t := by
  intro t ht
  have hlen : (ins.tokens.take i).length = i := List.length_take_of_le hi
  have htake := join_take (List.IsChain.take ins.joined i) (replace_some h) t (hlen.symm ▸ ht)
  rcases htake with hlit | hmem
  · exact literal_settled hlit
  · exact hall t hmem

/-- all that the loop has gone over is settled, and so is its result -/
theorem result_settled (h : substitute find n ins i = .ok ins') (hall : ∀ t ∈ ins.tokens.take i, Settled find t) :
    ∀ t ∈ ins'.tokens, Settled find t := by
  induction n generalizing ins i with
  | zero => cases h
  | succ n ih =>
    unfold substitute at h
    cases ht : ins.tokens[i]? with
    | none =>
      rw [ht] at h
      cases h
      rwa [List.take_of_length_le (List.getElem?_eq_none_iff.1 ht)] at hall
    | some t =>
      rw [ht] at h
      have hnext (hs : Settled find t) : ∀ u ∈ ins.tokens.take (i + 1), Settled find u := settled_next ht hs hall
      cases t with
      | literal value => exact ih h (hnext (literal_settled rfl))
      | var name params =>
        dsimp only at h
        cases hf : find name with
        | missing err =>
          rw [hf] at h
          cases h
        | eval =>
          rw [hf] at h
          refine ih h (hnext ?_)
          rintro name' params' heq
          cases heq
          exact hf
        | set other =>
          rw [hf] at h
          dsimp only at h
          cases hr : ins.replace i other with
          | none =>
            rw [hr] at h
            cases h
          | some ins₁ =>
            rw [hr] at h
            exact ih h (replace_settled (List.getElem?_eq_some_iff.1 ht).1.le hr hall)

end Substitute

/-! ## Resolving values -/

section Resolve

variable {find find' : Str → Found} {vals : List ℕ} {m m₁ m₂ m' : ℕ → Option Instring} {n k : ℕ} {r : Answer}
variable {ins ins' : Instring}

/-- how the loop of an instring ends, with enough fuel -/
def Ends (find : Str → Found) (ins : Instring) (s : Subst) : Prop := s ≠ .unfinished ∧ ∃ n, substitute find n ins 0 = s

theorem ends_of {s : Subst} (hs : s ≠ .unfinished) (h : substitute find n ins 0 = s) : Ends find ins s := ⟨hs, n, h⟩

theorem ends_unique {s t : Subst} (hs : Ends find ins s) (ht : Ends find ins t) : s = t := by
  obtain ⟨hs, n, rfl⟩ := hs
  obtain ⟨ht, k, rfl⟩ := ht
  calc substitute find n ins 0 = substitute find (max n k) ins 0 := (substitute_mono hs (le_max_left n k)).symm
    _ = substitute find k ins 0 := substitute_mono ht (le_max_right n k)

theorem ends_congr {s : Subst} (h : ∀ name, Occurs find ins.tokens name → find' name = find name) :
    Ends find' ins s ↔ Ends find ins s := by
  unfold Ends
  simp only [substitute_congr h]

/-- an instring without a variable to replace ends as itself -/
theorem ends_settled (hall : ∀ t ∈ ins.tokens, Settled find t) : Ends find ins (.ok ins) := by
  have h := substitute_settled (n := ins.tokens.length + 1) (i := 0) hall (Nat.lt_succ_self _)
  rcases h with h | h
  · exact ends_of Subst.noConfusion h
  · exact absurd h (Nat.succ_ne_zero _)

theorem ends_result (h : Ends find ins (.ok ins')) : ∀ t ∈ ins'.tokens, Settled find t := by
  obtain ⟨-, n, h⟩ := h
  exact result_settled h fun t ht => by cases ht

/-- two instrings of a value, or none, that end in the same way -/
def SameEnd (find : Str → Found) (a b : Option Instring) : Prop :=
  (a = none ↔ b = none) ∧ ∀ ins ins', a = some ins → b = some ins' → ∀ s, Ends find ins s ↔ Ends find ins' s

theorem same_end_symm {a b : Option Instring} (h : SameEnd find a b) : SameEnd find b a :=
  ⟨h.1.symm, fun ins ins' ha hb s => (h.2 ins' ins hb ha s).symm⟩

theorem same_end_refl (a : Option Instring) : SameEnd find a a := by
  refine ⟨Iff.rfl, fun ins ins' h h' s => ?_⟩
  rw [h] at h'
  cases h'
  exact Iff.rfl

/-- a value that is written ends as before -/
theorem same_end_resolved (h : Ends find ins (.ok ins')) : SameEnd find (some ins') (some ins) := by
  have hself : Ends find ins' (.ok ins') := ends_settled (ends_result h)
  refine ⟨iff_of_false (Option.some_ne_none ins') (Option.some_ne_none ins), fun a b ha hb s => ?_⟩
  cases ha
  cases hb
  constructor
  · exact fun hs => ends_unique hs hself ▸ h
  · exact fun hs => ends_unique hs h ▸ hself

/-- the loop over the values, at a value -/
theorem resolve_cons {v : ℕ} :
    resolve_values find n (v :: vals) m = some (r, m') ↔
      m v = none ∧ r = .raise ∧ m' = m ∨
      ∃ ins, m v = some ins ∧
        ((∃ err, substitute find n ins 0 = .error err ∧ r = .error err ∧ m' = m) ∨
          (substitute find n ins 0 = .raise ∧ r = .raise ∧ m' = m) ∨
          ∃ ins' r', substitute find n ins 0 = .ok ins' ∧ r = Answer.cons ins' r' ∧
            resolve_values find n vals (Function.update m v (some ins')) = some (r', m')) := by
  conv_lhs => unfold resolve_values
  cases hv : m v with
  | none => simp [eq_comm]
  | some ins =>
    cases hsub : substitute find n ins 0 with
    | unfinished => simp [hsub]
    | error err => simp [hsub, eq_comm]
    | raise => simp [hsub, eq_comm]
    | ok ins' => simp [hsub, eq_comm, and_comm]

theorem resolve_mono (h : resolve_values find n vals m = some (r, m')) (hnk : n ≤ k) :
    resolve_values find k vals m = some (r, m') := by
  induction vals generalizing m r with
  | nil => exact h
  | cons v vals ih =>
    have hmono {ins : Instring} {s : Subst} (hs : s ≠ .unfinished) (h : substitute find n ins 0 = s) :
        substitute find k ins 0 = s := by
      rw [← h] at hs ⊢
      exact substitute_mono hs hnk
    apply resolve_cons.2
    rcases resolve_cons.1 h with h | ⟨ins, hv, ⟨err, hsub, h⟩ | ⟨hsub, h⟩ | ⟨ins', r', hsub, hr, h⟩⟩
    · exact .inl h
    · exact .inr ⟨ins, hv, .inl ⟨err, hmono Subst.noConfusion hsub, h⟩⟩
    · exact .inr ⟨ins, hv, .inr (.inl ⟨hmono Subst.noConfusion hsub, h⟩)⟩
    · exact .inr ⟨ins, hv, .inr (.inr ⟨ins', r', hmono Subst.noConfusion hsub, hr, ih h⟩)⟩

theorem same_end_update {v w : ℕ} (hvw : w ≠ v → SameEnd find (m₁ w) (m₂ w)) :
    SameEnd find (Function.update m₁ v (some ins') w) (Function.update m₂ v (some ins') w) := by
  by_cases h : w = v
  · subst h
    rw [Function.update_self, Function.update_self]
    exact same_end_refl _
  · rw [Function.update_of_ne h, Function.update_of_ne h]
    exact hvw h

/-- values that end in the same way give the same answer -/
theorem resolve_congr (h : resolve_values find n vals m₁ = some (r, m')) (hsame : ∀ v ∈ vals, SameEnd find (m₁ v) (m₂ v)) :
    ∃ k m₂', resolve_values find k vals m₂ = some (r, m₂') := by
  induction vals generalizing m₁ m₂ r with
  | nil =>
    cases h
    exact ⟨0, m₂, rfl⟩
  | cons v vals ih =>
    obtain ⟨hnone, hends⟩ := hsame v List.mem_cons_self
    rcases resolve_cons.1 h with ⟨hv, hr, -⟩ | ⟨ins, hv, h⟩
    · exact ⟨0, m₂, resolve_cons.2 (.inl ⟨hnone.1 hv, hr, rfl⟩)⟩
    · obtain ⟨ins₂, hv₂⟩ : ∃ ins₂, m₂ v = some ins₂ := by
        apply Option.ne_none_iff_exists'.1
        intro h₂
        rw [hnone.2 h₂] at hv
        cases hv
      have hend {s : Subst} (hs : s ≠ .unfinished) (hsub : substitute find n ins 0 = s) :
          ∃ k, substitute find k ins₂ 0 = s := ((hends ins ins₂ hv hv₂ s).1 (ends_of hs hsub)).2
      rcases h with ⟨err, hsub, hr, -⟩ | ⟨hsub, hr, -⟩ | ⟨ins', r', hsub, hr, h⟩
      · obtain ⟨k, hk⟩ := hend Subst.noConfusion hsub
        exact ⟨k, m₂, resolve_cons.2 (.inr ⟨ins₂, hv₂, .inl ⟨err, hk, hr, rfl⟩⟩)⟩
      · obtain ⟨k, hk⟩ := hend Subst.noConfusion hsub
        exact ⟨k, m₂, resolve_cons.2 (.inr ⟨ins₂, hv₂, .inr (.inl ⟨hk, hr, rfl⟩)⟩)⟩
      · obtain ⟨k, hk⟩ := hend Subst.noConfusion hsub
        -- both have this value resolved now, for the values after it
        obtain ⟨k', m₂', hk'⟩ := ih h fun w hw => same_end_update fun _ => hsame w (List.mem_cons_of_mem v hw)
        have hk₂ : substitute find (max k k') ins₂ 0 = .ok ins' := by
          rw [substitute_mono (by rw [hk]; exact Subst.noConfusion) (le_max_left k k'), hk]
        have hrest := resolve_mono hk' (le_max_right k k')
        exact ⟨max k k', m₂', resolve_cons.2 (.inr ⟨ins₂, hv₂, .inr (.inr ⟨ins', r', hk₂, hr, hrest⟩)⟩)⟩

/-- a value that a call writes ends as what is written -/
theorem resolve_writes (h : resolve_values find n vals m = some (r, m')) (v : ℕ) :
    m' v = m v ∨ v ∈ vals ∧ ∃ ins ins', m v = some ins ∧ m' v = some ins' ∧ Ends find ins (.ok ins') := by
  induction vals generalizing m r with
  | nil =>
    cases h
    exact .inl rfl
  | cons w vals ih =>
    rcases resolve_cons.1 h with ⟨-, -, rfl⟩ | ⟨ins, hw, ⟨_, -, -, rfl⟩ | ⟨-, -, rfl⟩ | ⟨ins', r', hsub, -, h⟩⟩
    · exact .inl rfl
    · exact .inl rfl
    · exact .inl rfl
    · have hrest := ih h
      by_cases hvw : v = w
      · subst hvw
        have hend : Ends find ins (.ok ins') := ends_of Subst.noConfusion hsub
        rw [Function.update_self] at hrest
        refine .inr ⟨List.mem_cons_self, ins, ins', hw, ?_, hend⟩
        rcases hrest with hrest | ⟨-, i₁, i₂, h₁, h₂, hend₂⟩
        · exact hrest
        · -- the value stands in the list once more: it ends as itself
          cases h₁
          rw [h₂, Subst.ok.inj (ends_unique hend₂ (ends_settled (ends_result hend)))]
      · rw [Function.update_of_ne hvw] at hrest
        rcases hrest with hrest | ⟨hmem, hrest⟩
        · exact .inl hrest
        · exact .inr ⟨List.mem_cons_of_mem w hmem, hrest⟩

end Resolve

/-! ## Runs -/

section Runs

variable {c : Config} {st₀ st st' : State} {user : Place × Kind} {r : Answer} {find : Str → Found} {vals : List ℕ}

/-- a value is as at the beginning, or ends as it would have for all its users; cached is what a first call returns -/
structure Good (c : Config) (st₀ st : State) : Prop where
  values : ∀ v, st.instrings v = st₀.instrings v ∨ ∃ ins ins' find, st₀.instrings v = some ins ∧
    st.instrings v = some ins' ∧ Ends find ins (.ok ins') ∧ Agreed c v find ins.tokens
  cache : ∀ user l, st.cache user = some l → Returns c st₀ user (.instrings l)

/-- for a user, the value of a good state ends as at the beginning -/
theorem Good.same_end (hg : Good c st₀ st) (hu : Uses c user find vals) {v : ℕ} (hv : v ∈ vals) :
    SameEnd find (st.instrings v) (st₀.instrings v) := by
  rcases hg.values v with heq | ⟨ins, ins', find₁, hins, hins', hend, hagreed⟩
  · rw [heq]
    exact same_end_refl _
  · have hfind := hagreed user find vals hu hv
    have hend' : Ends find ins (.ok ins') := (ends_congr hfind).2 hend
    rw [hins, hins']
    exact same_end_resolved hend'

/-- a call without a cached answer -/
theorem calls_uncached {l : Located} (hl : locate c user.1 = some l) (hc : st.cache user = none)
    (hvals : setting_values c l user.2 = some vals) :
    Calls c st user r st' ↔
      ∃ n m, resolve_values (find_variable c l.up) n vals st.instrings = some (r, m) ∧ st' = st.store user (r, m) := by
  unfold Calls setting_instrings
  rw [hl]
  simp only [Option.bind_some, hc, hvals, Option.map_eq_some_iff, Prod.mk.injEq]
  constructor
  · rintro ⟨n, ⟨r', m⟩, hres, rfl, rfl⟩
    exact ⟨n, m, hres, rfl⟩
  · rintro ⟨n, m, hres, rfl⟩
    exact ⟨n, ⟨r, m⟩, hres, rfl, rfl⟩

theorem calls_cached {l : Located} {instrings : List Instring} (hl : locate c user.1 = some l)
    (hc : st.cache user = some instrings) : Calls c st user r st' ↔ r = .instrings instrings ∧ st' = st := by
  unfold Calls setting_instrings
  rw [hl]
  simp only [Option.bind_some, hc, Option.some.injEq, Prod.mk.injEq, exists_const]
  exact ⟨fun h => ⟨h.1.symm, h.2.symm⟩, fun h => ⟨h.1.symm, h.2.symm⟩⟩

theorem calls_no_values {l : Located} (hl : locate c user.1 = some l) (hc : st.cache user = none)
    (hvals : setting_values c l user.2 = none) : Calls c st user r st' ↔ r = .raise ∧ st' = st := by
  unfold Calls setting_instrings
  rw [hl]
  simp only [Option.bind_some, hc, hvals, Option.some.injEq, Prod.mk.injEq, exists_const]
  exact ⟨fun h => ⟨h.1.symm, h.2.symm⟩, fun h => ⟨h.1.symm, h.2.symm⟩⟩

theorem calls_located (h : Calls c st user r st') : ∃ l, locate c user.1 = some l := by
  obtain ⟨n, h⟩ := h
  obtain ⟨l, hl, -⟩ := Option.bind_eq_some_iff.1 h
  exact ⟨l, hl⟩

/-- without a cached answer the values have to be resolved -/
theorem returns_uncached {l : Located} (hl : locate c user.1 = some l) (hc : st.cache user = none)
    (hvals : setting_values c l user.2 = some vals) :
    Returns c st user r ↔ ∃ n m, resolve_values (find_variable c l.up) n vals st.instrings = some (r, m) := by
  unfold Returns
  constructor
  · rintro ⟨st', h⟩
    obtain ⟨n, m, hres, -⟩ := (calls_uncached hl hc hvals).1 h
    exact ⟨n, m, hres⟩
  · rintro ⟨n, m, hres⟩
    exact ⟨_, (calls_uncached hl hc hvals).2 ⟨n, m, hres, rfl⟩⟩

theorem returns_unique {r' : Answer} (hc : st.cache user = none) (h : Returns c st user r) (h' : Returns c st user r') :
    r = r' := by
  obtain ⟨l, hl⟩ := calls_located h.choose_spec
  cases hvals : setting_values c l user.2 with
  | none =>
    obtain ⟨_, h⟩ := h
    obtain ⟨_, h'⟩ := h'
    rw [((calls_no_values hl hc hvals).1 h).1, ((calls_no_values hl hc hvals).1 h').1]
  | some vals =>
    obtain ⟨n, m, hres⟩ := (returns_uncached hl hc hvals).1 h
    obtain ⟨k, m', hres'⟩ := (returns_uncached hl hc hvals).1 h'
    have hmax := resolve_mono hres (le_max_left n k)
    rw [resolve_mono hres' (le_max_right n k)] at hmax
    cases hmax
    rfl

/-- in a good state a call answers as at the beginning, where nothing is cached -/
theorem Good.returns (hg : Good c st₀ st) (h₀ : st₀.cache user = none) : Returns c st user r ↔ Returns c st₀ user r := by
  cases hl : locate c user.1 with
  | none =>
    refine iff_of_false (fun h => ?_) (fun h => ?_)
    all_goals
      obtain ⟨l, hl'⟩ := calls_located h.choose_spec
      rw [hl] at hl'
      cases hl'
  | some l =>
    cases hc : st.cache user with
    | some instrings =>
      have hfirst := hg.cache user instrings hc
      constructor
      · rintro ⟨st', h⟩
        rw [((calls_cached hl hc).1 h).1]
        exact hfirst
      · intro h
        exact ⟨st, (calls_cached hl hc).2 ⟨returns_unique h₀ h hfirst, rfl⟩⟩
    | none =>
      cases hvals : setting_values c l user.2 with
      | none =>
        unfold Returns
        simp only [calls_no_values hl hc hvals, calls_no_values hl h₀ hvals, exists_and_left, exists_eq,
          and_true]
      | some vals =>
        have hu : Uses c user (find_variable c l.up) vals := ⟨l, hl, rfl, hvals⟩
        rw [returns_uncached hl hc hvals, returns_uncached hl h₀ hvals]
        constructor
        · rintro ⟨n, m, hres⟩
          exact resolve_congr hres fun v hv => hg.same_end hu hv
        · rintro ⟨n, m, hres⟩
          exact resolve_congr hres fun v hv => same_end_symm (hg.same_end hu hv)

/-- what is written under the condition is what all users of the value would write -/
theorem Good.write (hg : Good c st₀ st) (hok : Ok c st user) (hu : Uses c user find vals) {v : ℕ} (hv : v ∈ vals)
    {ins ins' : Instring} (hins : st.instrings v = some ins) (hend : Ends find ins (.ok ins')) :
    ins' = ins ∨ st₀.instrings v = some ins ∧ Agreed c v find ins.tokens := by
  by_cases hrep : Replaces find ins.tokens
  · right
    refine ⟨?_, hok find vals hu v hv ins hins hrep⟩
    rcases hg.values v with heq | ⟨ins₀, ins₁, find₁, -, hins₁, hend₁, hagreed⟩
    · rw [← heq, hins]
    · -- it has been replaced before, and has no variable that any user replaces
      rw [hins] at hins₁
      cases hins₁
      have hend' : Ends find ins₀ (.ok ins) := (ends_congr (hagreed user find vals hu hv)).2 hend₁
      exact absurd hrep (settled_not_replaces (ends_result hend'))
  · left
    obtain ⟨-, n, hsub⟩ := hend
    exact substitute_same hrep hsub

/-- the step: a call under the condition -/
theorem Good.call (hg : Good c st₀ st) (h₀ : st₀.cache user = none) (hok : Ok c st user) (h : Calls c st user r st') :
    Good c st₀ st' := by
  obtain ⟨l, hl⟩ := calls_located h
  cases hc : st.cache user with
  | some instrings => exact ((calls_cached hl hc).1 h).2 ▸ hg
  | none =>
    cases hvals : setting_values c l user.2 with
    | none => exact ((calls_no_values hl hc hvals).1 h).2 ▸ hg
    | some vals =>
      have hu : Uses c user (find_variable c l.up) vals := ⟨l, hl, rfl, hvals⟩
      have hfirst : Returns c st₀ user r := (hg.returns h₀).1 ⟨st', h⟩
      obtain ⟨n, m, hres, rfl⟩ := (calls_uncached hl hc hvals).1 h
      have hinstrings : (st.store user (r, m)).instrings = m := by
        unfold State.store
        split <;> rfl
      constructor
      · intro v
        rw [hinstrings]
        rcases resolve_writes hres v with heq | ⟨hv, ins, ins', hins, hins', hend⟩
        · rw [heq]
          exact hg.values v
        · rcases hg.write hok hu hv hins hend with rfl | ⟨hins₀, hagreed⟩
          · rw [hins', ← hins]
            exact hg.values v
          · exact .inr ⟨ins, ins', _, hins₀, hins', hend, hagreed⟩
      · intro user' instrings hcache
        unfold State.store at hcache
        cases r with
        | error err => exact hg.cache user' instrings hcache
        | raise => exact hg.cache user' instrings hcache
        | instrings answer =>
          dsimp only at hcache
          by_cases heq : user' = user
          · subst heq
            rw [Function.update_self] at hcache
            cases hcache
            exact hfirst
          · rw [Function.update_of_ne heq] at hcache
            exact hg.cache user' instrings hcache

theorem good_run (h₀ : ∀ user, st₀.cache user = none) (h : Run c st₀ st) : Good c st₀ st := by
  induction h with
  | refl =>
    refine ⟨fun v => .inl rfl, fun user l h => ?_⟩
    rw [h₀] at h
    cases h
  | call _ hok hcall ih => exact ih.call (h₀ _) hok hcall

/-- **Whatever was resolved before**: a call of a setting and a kind returns what it would have as the first one -/
theorem same_instrings (c : Config) (st₀ st : State) (h₀ : ∀ user, st₀.cache user = none) (h : Run c st₀ st)
    (user : Place × Kind) (r : Answer) : Returns c st user r ↔ Returns c st₀ user r :=
  (good_run h₀ h).returns (h₀ user)

end Runs

/-! ## Default values that two settings share -/

/-- `"$x"`, and the values of x -/
def dollar_x : Instring := ⟨[.var ['x'] []], List.isChain_singleton _⟩

def literal (value : Str) : Instring := ⟨[.literal (some value)], List.isChain_singleton _⟩

/-- a module has `foo` with the default value `"$x"` -/
def foo_handler : Handler :=
  { module_name := ['m'], name := "foo".toList, aliases := [], path := [], nargs_min := 0, nargs_max := 1, block := .never,
    default_values := some [0] }

def foo_head : Head :=
  { name := "foo".toList, written := none, assigned := some ['m'], values := none, default := true,
    handled_by := some "m:foo".toList }

def block_head (name : Str) : Head :=
  { name := name, written := none, assigned := none, values := some [], default := false, handled_by := none }

/-- a configuration with this root block -/
def foo_config (vars : List (Str × Instring)) (settings : List Setting) : Config :=
  { handlers := [("m:foo".toList, foo_handler)], prefix_match := [], name := [],
    root := .block (block_head "::ROOT::".toList) vars settings }

/-- nothing is resolved -/
def fresh : State := ⟨fun v => if v = 0 then some dollar_x else none, fun _ => none⟩

/-- the default values of a setting are resolved, to this -/
def resolved (place : Place) (value : Str) : State :=
  fresh.store (place, .default) (.instrings [literal value], Function.update fresh.instrings 0 (some (literal value)))

/-- `set $x 1`, and `foo` twice in the root block -/
def siblings : Config := foo_config [(['x'], literal ['1'])] [.leaf foo_head, .leaf foo_head]

theorem siblings_up {place : Place} {l : Located} (h : locate siblings place = some l) :
    l.up = [⟨block_head "::ROOT::".toList, [(['x'], literal ['1'])], [.leaf foo_head, .leaf foo_head]⟩] := by
  cases place with
  | nil => cases h
  | cons i place =>
    obtain ⟨s, hs, h⟩ := Option.bind_eq_some_iff.1 h
    have hleaf : s = .leaf foo_head := by simpa using List.mem_of_getElem? hs
    subst hleaf
    split_ifs at h with hp
    cases h
    rfl

theorem same_instrings_siblings :
    Returns siblings (resolved [0] ['1']) ([1], .default) (.instrings [literal ['1']]) ↔
      Returns siblings fresh ([1], .default) (.instrings [literal ['1']]) := by
  have hok : Ok siblings fresh ([0], .default) := by
    rintro find vals ⟨l, hl, rfl, -⟩ v - ins - - user find' vals' ⟨l', hl', rfl, -⟩ - name -
    rw [siblings_up hl, siblings_up hl']
  have hcall : Calls siblings fresh ([0], .default) (.instrings [literal ['1']]) (resolved [0] ['1']) := ⟨5, rfl⟩
  exact same_instrings siblings fresh (resolved [0] ['1']) (fun _ => rfl) (.call .refl hok hcall) _ _

/-- `set $x` to 1 in the block a and to 2 in b, with `foo` in both -/
def cousins : Config :=
  foo_config [] [.block (block_head ['a']) [(['x'], literal ['1'])] [.leaf foo_head],
    .block (block_head ['b']) [(['x'], literal ['2'])] [.leaf foo_head]]

/-- **The variable of another block**: `foo` of b is 2, but 1 after that of a -/
theorem leaks : Calls cousins fresh ([0, 0], .default) (.instrings [literal ['1']]) (resolved [0, 0] ['1']) ∧
    Returns cousins fresh ([1, 0], .default) (.instrings [literal ['2']]) ∧
    ¬ Returns cousins (resolved [0, 0] ['1']) ([1, 0], .default) (.instrings [literal ['2']]) ∧
    Returns cousins (resolved [0, 0] ['1']) ([1, 0], .default) (.instrings [literal ['1']]) := by
  have hone : Returns cousins (resolved [0, 0] ['1']) ([1, 0], .default) (.instrings [literal ['1']]) := ⟨_, 5, rfl⟩
  refine ⟨⟨5, rfl⟩, ⟨_, 5, rfl⟩, fun h => ?_, hone⟩
  have heq := returns_unique rfl h hone
  revert heq
  decide

end Shuttlesock.Settings
