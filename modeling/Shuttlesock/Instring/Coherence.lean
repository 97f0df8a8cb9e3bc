/-
Coherence of the cached values of instrings, over runs with many instrings and Lua states.

- `Instance`: an instring with its Lua state, the current values of its variables, and what its eval functions answered.
  An eval function may say "no change" only when the value is the one it last reported, for this instring or for the one
  it was copied from (its state is copied with the struct).
- history: `asked` (queried since it was made), `foreign` (its reference was copied, so it is one of another Lua state),
  `bare` (its string was marked valid by a query without a place for the result).
- `Coherent`: what the last query gave its caller is the conversion of the text at that moment, and
  `shuso_setting_string_matches` matched that text.
- `Ok`: a query on an instring with variables is made only when they all come before its literals, when its reference is not
  a copied one, and, the first time, when all its variables report; no string is asked for while it is marked valid by a
  query that did not want it; and no copy of a literal is matched.

Results:
- `interpolate_good`: `shuso_instring_interpolate` brings the iovecs up to date and keeps the cache true.
- `value_good`, `string_value_good`: so do the queries, and they answer from the text.
- `step_inv`, `coherent_of_ok`: every state reached by steps that meet `Ok`.
- `mistakes_incoherent`, `incoherent`: without it, three ways to a wrong value.
-/
import Mathlib.Tactic
import Shuttlesock.Core.Runs
import Shuttlesock.Instring.Value

namespace Shuttlesock.Instrings

open Shuttlesock.Runs Shuttlesock.Refs

/-! ## The system -/

structure Instance (Num : Type*) where
  x : Instring Num
  lua : ℕ
  cur : ℕ → Str
  said : ℕ → Option Str
  asked : Bool
  foreign : Bool
  bare : Bool

/-- the last call, and what its caller got -/
inductive Out (Num : Type*) where
  | quiet
  | failed (i : ℕ) (k : Kind)
  | held (i : ℕ) (k : Kind)
  | gave (i : ℕ) (k : Kind) (v : Option (Val Num))
  | matched (i : ℕ) (pattern : Str) (b : Bool)

structure Sys (Num : Type*) where
  inst : ℕ → Option (Instance Num)
  regs : ℕ → Table Str
  out : Out Num

inductive Action where
  /-- `luaS_instring_lua_to_c` in the Lua state L -/
  | create (i L : ℕ) (tokens : List Token) (cur : ℕ → Str)
  | change (i j : ℕ) (v : Str)
  /-- report: the variables whose eval function returns true -/
  | query (i : ℕ) (k : Kind) (null : Bool) (report : ℕ → Bool)
  | stringMatches (i : ℕ) (pattern : Str) (report : ℕ → Bool)
  /-- `shuso_instring_copy_for_worker` of j, for a worker with the Lua state L -/
  | copy (i j L : ℕ)

variable {Num : Type*}

def Instance.eval (c : Instance Num) (report : ℕ → Bool) (j : ℕ) : Option Str :=
  if report j then some (c.cur j) else none

/-- "no change" is only said of a value that was reported -/
def Instance.honest (c : Instance Num) (report : ℕ → Bool) : Prop :=
  ∀ j < varcount c.x.tokens, report j = true ∨ c.said j = some (c.cur j)

instance (c : Instance Num) (report : ℕ → Bool) : Decidable (c.honest report) :=
  inferInstanceAs (Decidable (∀ j < varcount c.x.tokens, report j = true ∨ c.said j = some (c.cur j)))

/-- after a query that left the instring x -/
def Instance.after (c : Instance Num) (report : ℕ → Bool) (k : Kind) (null : Bool) (reg : Table Str) (x : Instring Num) :
    Instance Num :=
  { c with
    x := x
    said := fun j => if report j then some (c.cur j) else c.said j
    asked := true
    bare :=
      if ((shuso_instring_interpolate (c.eval report) reg c.x).2.cached .string).mark = .valid then c.bare
      else decide (k = .string) && null }

def Instance.copy (c : Instance Num) (L : ℕ) : Instance Num :=
  { c with
    x := shuso_instring_copy_for_worker c.x
    lua := L
    asked := false
    foreign := c.foreign || c.x.string_lua_ref.isSome }

def Sys.put (s : Sys Num) (i : ℕ) (c : Instance Num) (reg : Table Str) : Sys Num :=
  { s with inst := Function.update s.inst i (some c), regs := Function.update s.regs c.lua reg }

def Ret.out (i : ℕ) (k : Kind) (null : Bool) : Ret Num → Out Num
  | .no => .failed i k
  | .yes v => if null then .held i k else .gave i k v

def step (P : Numbers Num) (s : Sys Num) : Action → Option (Sys Num)
  | .create i L tokens cur =>
    if (s.inst i).isSome then none
    else (luaS_instring_lua_to_c P tokens (s.regs L)).map fun r =>
      { s.put i ⟨r.2, L, cur, fun _ => none, false, false, false⟩ r.1 with out := .quiet }
  | .change i j v => (s.inst i).map fun c =>
      { s.put i { c with cur := Function.update c.cur j v } (s.regs c.lua) with out := .quiet }
  | .query i k null report => (s.inst i).bind fun c =>
      if c.honest report then
        (shuso_setting_value P k null (c.eval report) (s.regs c.lua) c.x).map fun r =>
          { s.put i (c.after report k null (s.regs c.lua) r.2.1) r.1 with out := r.2.2.out i k null }
      else none
  | .stringMatches i pattern report => (s.inst i).bind fun c =>
      if c.honest report then
        (shuso_setting_string_matches P pattern (c.eval report) (s.regs c.lua) c.x).map fun r =>
          { s.put i (c.after report .string true (s.regs c.lua) r.2.1) r.1 with out := .matched i pattern r.2.2 }
      else none
  | .copy i j L =>
    if (s.inst i).isSome then none
    else (s.inst j).map fun c => { s.put i (c.copy L) (s.regs L) with out := .quiet }

/-- no instrings; the registries may have any references of other code -/
def init (regs : ℕ → Table Str) : Sys Num := ⟨fun _ => none, regs, .quiet⟩

def Instance.text (c : Instance Num) : Str := Instrings.text c.cur c.x.tokens

/-- what the last query gave its caller is right -/
def Coherent (P : Numbers Num) (s : Sys Num) : Prop :=
  match s.out with
  | .quiet => True
  | .failed _ _ => True
  | .held i k => ∀ c ∈ s.inst i, (P.convert k c.text).isSome
  | .gave i k v => ∀ c ∈ s.inst i, v.isSome ∧ v = P.convert k c.text
  | .matched i pattern b => ∀ c ∈ s.inst i, b = P.strmatch c.text pattern

/-- some variable reports a value -/
def Instance.reported (c : Instance Num) (report : ℕ → Bool) : Prop :=
  ∃ j < varcount c.x.tokens, report j = true

/-- a query on this instring is in order -/
def Instance.Ok (c : Instance Num) (report : ℕ → Bool) : Prop :=
  varcount c.x.tokens = 0 ∨
    varsFirst c.x.tokens = true ∧ c.foreign = false ∧ (c.asked = true ∨ ∀ j < varcount c.x.tokens, report j = true)

def Ok (s : Sys Num) : Action → Prop
  | .query i k null report => ∀ c ∈ s.inst i,
      c.Ok report ∧ (k = .string → null = false → c.bare = false ∨ c.reported report)
  | .stringMatches i _ report => ∀ c ∈ s.inst i, c.Ok report ∧ c.foreign = false
  | _ => True

instance (c : Instance Num) (report : ℕ → Bool) : Decidable (c.reported report) :=
  inferInstanceAs (Decidable (∃ j < varcount c.x.tokens, report j = true))

instance (c : Instance Num) (report : ℕ → Bool) : Decidable (c.Ok report) :=
  inferInstanceAs (Decidable (varcount c.x.tokens = 0 ∨ varsFirst c.x.tokens = true ∧ c.foreign = false ∧
    (c.asked = true ∨ ∀ j < varcount c.x.tokens, report j = true)))

instance (s : Sys Num) : (a : Action) → Decidable (Ok s a)
  | .create _ _ _ _ | .change _ _ _ | .copy _ _ _ => isTrue trivial
  | .query i k null report => inferInstanceAs (Decidable (∀ c ∈ s.inst i,
      c.Ok report ∧ (k = .string → null = false → c.bare = false ∨ c.reported report)))
  | .stringMatches i _ report => inferInstanceAs (Decidable (∀ c ∈ s.inst i, c.Ok report ∧ c.foreign = false))

/-- `Coherent` as a test -/
def coherent [DecidableEq Num] (P : Numbers Num) (s : Sys Num) : Bool :=
  match s.out with
  | .quiet => true
  | .failed _ _ => true
  | .held i k => (s.inst i).all fun c => (P.convert k c.text).isSome
  | .gave i k v => (s.inst i).all fun c => v.isSome && decide (v = P.convert k c.text)
  | .matched i pattern b => (s.inst i).all fun c => b == P.strmatch c.text pattern

theorem coherent_iff [DecidableEq Num] (P : Numbers Num) (s : Sys Num) : coherent P s = true ↔ Coherent P s := by
  unfold coherent Coherent
  cases s.out <;> simp [Option.all_eq_true]

/-! ## One instring -/

/-- the reference it holds in its own Lua state -/
def Instance.own (c : Instance Num) : Option ℕ := if c.foreign then none else c.x.string_lua_ref

/-- the cache tells the truth about the iovecs, and the iovecs hold what the eval functions last said -/
structure Good (P : Numbers Num) (R : Table Str) (c : Instance Num) : Prop where
  literals : Literals c.x.tokens c.x.iov
  heard : c.asked = true → ∀ j < varcount c.x.tokens, ∃ v, c.said j = some v ∧ c.x.iov[j]? = some v
  decided : c.asked = true ∨ varcount c.x.tokens = 0 → ∀ k, (c.x.cached k).Decided (P.convert k c.x.iov.flatten)
  sound : c.asked = true ∨ varcount c.x.tokens = 0 → ∀ k, k ≠ .string ∨ c.bare = false →
    (c.x.cached k).Sound (P.convert k c.x.iov.flatten)
  noref : c.foreign = false → c.x.string_lua_ref = none → (c.x.cached .string).mark ≠ .valid
  ref : c.foreign = false → ∀ r, c.x.string_lua_ref = some r →
    R.slot r = some c.x.iov.flatten ∧ (c.x.cached .string).mark = .valid

theorem Instance.own_eq {c : Instance Num} (h : c.foreign = false) : c.own = c.x.string_lua_ref := by
  simp [own, h]

theorem Good.congr {P : Numbers Num} {R R' : Table Str} {c : Instance Num} (h : Good P R c)
    (hslot : ∀ r, c.own = some r → R'.slot r = R.slot r) : Good P R' c := by
  refine { h with ref := fun hf r hr => ?_ }
  obtain ⟨hs, hm⟩ := h.ref hf r hr
  exact ⟨(hslot r (by rw [Instance.own_eq hf, hr])).trans hs, hm⟩

/-- after the interpolation: the iovecs are the pieces of the text -/
structure Fresh (P : Numbers Num) (R : Table Str) (c : Instance Num) : Prop extends Good P R c where
  asked : c.asked = true
  iov : c.x.iov = pieces c.cur 0 c.x.tokens

theorem Fresh.flatten {P : Numbers Num} {R : Table Str} {c : Instance Num} (h : Fresh P R c) :
    c.x.iov.flatten = c.text := by
  rw [h.iov, Instance.text, Instrings.text]

/-- the instance once the interpolation is done -/
def Instance.interpolated (c : Instance Num) (report : ℕ → Bool) (R : Table Str) : Instance Num :=
  { c with
    x := (shuso_instring_interpolate (c.eval report) R c.x).2
    said := fun j => if report j then some (c.cur j) else c.said j
    asked := true }

section Interpolate

variable {P : Numbers Num} {R : Table Str} {c : Instance Num} {report : ℕ → Bool}

/-- each variable's iovec, when the variables come first -/
theorem interpolate_get (h : Good P R c) (hh : c.honest report)
    (hask : c.asked = true ∨ ∀ j < varcount c.x.tokens, report j = true) {j : ℕ} (hj : j < varcount c.x.tokens) :
    (shuso_instring_interpolate (c.eval report) R c.x).2.iov[j]? = some (c.cur j) := by
  have hlen : j < c.x.iov.length := by
    rw [h.literals.length]
    exact hj.trans_le List.countP_le_length
  rw [interpolate_iov, interpolateFrom_get _ _ _ _ _ _ hlen, if_pos ⟨Nat.zero_le j, by rwa [Nat.zero_add]⟩]
  unfold Instance.eval
  split
  · rfl
  · rename_i hsilent
    -- it says "no change": its iovec has the value it last reported, which is the current one
    have hasked : c.asked = true := hask.resolve_right fun hall => hsilent (hall j hj)
    obtain ⟨v, hsaid, hiov⟩ := h.heard hasked j hj
    have hcur := (hh j hj).resolve_left hsilent
    rw [hsaid, Option.some.injEq] at hcur
    rw [Option.none_or, hiov, hcur]

theorem interpolate_literals (report : ℕ → Bool) (h : Good P R c)
    (hfirst : varcount c.x.tokens = 0 ∨ varsFirst c.x.tokens = true) :
    Literals c.x.tokens (shuso_instring_interpolate (c.eval report) R c.x).2.iov := by
  rw [interpolate_iov]
  refine ⟨(interpolateFrom_length _ _ _ _ _).trans h.literals.length, ?_⟩
  intro p s hp
  have hlen : p < c.x.iov.length := by
    rw [h.literals.length]
    exact (List.getElem?_eq_some_iff.1 hp).1
  have hnot : ¬ p < varcount c.x.tokens := by
    intro hlt
    rcases hfirst with h0 | hfirst
    · rw [h0] at hlt
      exact Nat.not_lt_zero p hlt
    · rw [var_of_lt hfirst hlt] at hp
      cases hp
  rw [interpolateFrom_get _ _ _ _ _ _ hlen, if_neg fun hc => hnot (by simpa using hc.2)]
  exact h.literals.literal p s hp

/-- a report resets the cache and gives the reference back -/
theorem interpolate_reported (hrep : c.reported report) :
    ∃ iov, shuso_instring_interpolate (c.eval report) R c.x = reset R { c.x with iov := iov } := by
  obtain ⟨j, hj, hr⟩ := hrep
  have hne : varcount c.x.tokens ≠ 0 := fun h0 => absurd (h0 ▸ hj) (Nat.not_lt_zero j)
  have hchanged : (interpolateFrom (c.eval report) 0 (varcount c.x.tokens) c.x.iov false).2 = true :=
    (interpolateFrom_snd _ _ _ _ _).2 (.inr ⟨j, Nat.zero_le j, by rwa [Nat.zero_add], by simp [Instance.eval, hr]⟩)
  refine ⟨(interpolateFrom (c.eval report) 0 (varcount c.x.tokens) c.x.iov false).1, ?_⟩
  simp only [shuso_instring_interpolate, if_neg hne, hchanged, if_true]

/-- without one nothing changes -/
theorem interpolate_unreported (hrep : ¬ c.reported report) :
    shuso_instring_interpolate (c.eval report) R c.x = (R, c.x) := by
  have hsilent : ∀ j < varcount c.x.tokens, c.eval report j = none := by
    intro j hj
    have hr : report j ≠ true := fun hr => hrep ⟨j, hj, hr⟩
    simp [Instance.eval, hr]
  have hchanged : (interpolateFrom (c.eval report) 0 (varcount c.x.tokens) c.x.iov false).2 = false := by
    rw [Bool.eq_false_iff]
    intro ht
    rcases (interpolateFrom_snd _ _ _ _ _).1 ht with hc | ⟨j, -, hj, hs⟩
    · cases hc
    · rw [hsilent j (by rwa [Nat.zero_add] at hj)] at hs
      cases hs
  have hiov : (interpolateFrom (c.eval report) 0 (varcount c.x.tokens) c.x.iov false).1 = c.x.iov := by
    apply List.ext_getElem?
    intro p
    by_cases hp : p < c.x.iov.length
    · rw [interpolateFrom_get _ _ _ _ _ _ hp]
      split
      · rename_i hc
        rw [hsilent p (by simpa using hc.2), Option.none_or]
      · rfl
    · rw [List.getElem?_eq_none (not_lt.1 hp),
        List.getElem?_eq_none ((interpolateFrom_length _ _ _ _ _).trans_le (not_lt.1 hp))]
  unfold shuso_instring_interpolate
  split
  · rfl
  · simp only [hchanged, hiov, Bool.false_eq_true, if_false]

/-- **Interpolation.** The iovecs are the pieces of the text, the cache is true of them, and the only reference that may
be given back is the instring's own. -/
theorem interpolate_good (h : Good P R c) (hok : c.Ok report) (hh : c.honest report) (hwf : R.Wf)
    (hlive : ∀ r, c.own = some r → R.Live r) :
    Fresh P (shuso_instring_interpolate (c.eval report) R c.x).1 (c.interpolated report R) ∧
      Moves R c.own (shuso_instring_interpolate (c.eval report) R c.x).1 (c.interpolated report R).own := by
  have hfirst : varcount c.x.tokens = 0 ∨ varsFirst c.x.tokens = true := hok.imp_right And.left
  have hlit := interpolate_literals report h hfirst
  have hget : ∀ j < varcount c.x.tokens,
      (shuso_instring_interpolate (c.eval report) R c.x).2.iov[j]? = some (c.cur j) := by
    intro j hj
    rcases hok with h0 | ⟨-, -, hask⟩
    · exact absurd (h0 ▸ hj) (Nat.not_lt_zero j)
    · exact interpolate_get h hh hask hj
  have htok : (c.interpolated report R).x.tokens = c.x.tokens := interpolate_tokens _ _ _
  have hiov : (c.interpolated report R).x.iov = pieces c.cur 0 (c.interpolated report R).x.tokens := by
    rw [htok]
    exact eq_pieces hfirst hlit fun j hj => by rw [Nat.zero_add]; exact hget j hj
  have hheard : ∀ j < varcount (c.interpolated report R).x.tokens,
      ∃ v, (c.interpolated report R).said j = some v ∧ (c.interpolated report R).x.iov[j]? = some v := by
    intro j hj
    rw [htok] at hj
    refine ⟨c.cur j, ?_, hget j hj⟩
    simp only [Instance.interpolated]
    split
    · rfl
    · rename_i hsilent
      exact (hh j hj).resolve_left hsilent
  rw [← htok] at hlit
  by_cases hrep : c.reported report
  · obtain ⟨iov, heq⟩ := interpolate_reported (R := R) hrep
    have hforeign : c.foreign = false := by
      rcases hok with h0 | ⟨-, hf, -⟩
      · obtain ⟨j, hj, -⟩ := hrep
        exact absurd (h0 ▸ hj) (Nat.not_lt_zero j)
      · exact hf
    have hmark : ∀ k, ((c.interpolated report R).x.cached k).mark = .unknown := by
      intro k
      simp only [Instance.interpolated, heq, reset, Memo.forget_mark]
    have hnone : (c.interpolated report R).x.string_lua_ref = none := by
      simp only [Instance.interpolated, heq, reset]
    refine ⟨⟨⟨hlit, fun _ => hheard, fun _ k => (Memo.sound_of_unknown (hmark k) _).toDecided,
      fun _ k _ => Memo.sound_of_unknown (hmark k) _, ?_, ?_⟩, rfl, hiov⟩, ?_⟩
    · intro _ _
      rw [hmark]
      exact fun hc => by cases hc
    · intro _ r hr
      rw [hnone] at hr
      cases hr
    · have hown : (c.interpolated report R).own = none := by
        rw [Instance.own_eq (by exact hforeign), hnone]
      rw [hown, heq]
      rw [Instance.own_eq hforeign] at hlive ⊢
      cases hr : c.x.string_lua_ref with
      | none => simpa only [reset, hr] using Moves.refl hwf (fun q hq => by cases hq)
      | some r => simpa only [reset, hr] using unref_moves hwf (hlive r hr)
  · have heq := interpolate_unreported (R := R) hrep
    have hx : (c.interpolated report R).x = c.x := by rw [Instance.interpolated, heq]
    have hknown : c.asked = true ∨ varcount c.x.tokens = 0 := by
      rcases hok with h0 | ⟨-, -, hask | hall⟩
      · exact .inr h0
      · exact .inl hask
      · refine .inr (Nat.eq_zero_of_not_pos fun hpos => hrep ⟨0, hpos, hall 0 hpos⟩)
    have hown : (c.interpolated report R).own = c.own := by simp only [Instance.own, hx]; rfl
    rw [hown, heq]
    refine ⟨⟨⟨hlit, fun _ => hheard, fun _ => ?_, fun _ => ?_, ?_, ?_⟩, rfl, hiov⟩, Moves.refl hwf hlive⟩
    · rw [hx]
      exact h.decided hknown
    · rw [hx]
      exact h.sound hknown
    · rw [hx]
      exact h.noref
    · rw [hx]
      exact h.ref

end Interpolate

/-! ## Queries -/

/-- what a query returns, when the text is s -/
def Ret.Right (P : Numbers Num) (k : Kind) (null : Bool) (s : Str) : Ret Num → Prop
  | .no => P.convert k s = none
  | .yes v => (P.convert k s).isSome ∧ (null = false → v = P.convert k s)

/-- a query took the instance c to c' and the registry R to R' -/
structure Served (P : Numbers Num) (R : Table Str) (c : Instance Num) (R' : Table Str) (c' : Instance Num) : Prop where
  fresh : Fresh P R' c'
  moves : Moves R c.own R' c'.own
  tokens : c'.x.tokens = c.x.tokens
  cur : c'.cur = c.cur
  lua : c'.lua = c.lua

theorem Served.text {P : Numbers Num} {R R' : Table Str} {c c' : Instance Num} (h : Served P R c R' c') :
    c'.text = c.text := by
  rw [Instance.text, Instance.text, h.tokens, h.cur]

section Query

variable {P : Numbers Num} {R : Table Str} {c : Instance Num} {report : ℕ → Bool}

/-- storing the cell of another kind than the string one -/
theorem Fresh.store {k : Kind} {m : Memo.Cell (Val Num)} (h : Fresh P R c) (hk : k ≠ .string)
    (hm : m.Sound (P.convert k c.x.iov.flatten)) : Fresh P R { c with x := c.x.store k m } := by
  have hstring : ((c.x.store k m).cached .string) = c.x.cached .string := Function.update_of_ne hk.symm _ _
  refine ⟨⟨h.literals, h.heard, ?_, ?_, ?_, ?_⟩, h.asked, h.iov⟩
  · intro hknown k'
    by_cases he : k' = k
    · subst he
      simpa [Instring.store] using hm.toDecided
    · simpa [Instring.store, Function.update_of_ne he] using h.decided hknown k'
  · intro hknown k' hk'
    by_cases he : k' = k
    · subst he
      simpa [Instring.store] using hm
    · simpa [Instring.store, Function.update_of_ne he] using h.sound hknown k' hk'
  · intro hf hr
    rw [hstring]
    exact h.noref hf hr
  · intro hf r hr
    rw [hstring]
    exact h.ref hf r hr

theorem Fresh.setBare {b : Bool} (h : Fresh P R c) (hb : (c.x.cached .string).mark = .valid → b = c.bare) :
    Fresh P R { c with bare := b } := by
  refine ⟨⟨h.literals, h.heard, h.decided, ?_, h.noref, h.ref⟩, h.asked, h.iov⟩
  intro hknown k hk
  by_cases hs : k = .string
  · subst hs
    by_cases hv : (c.x.cached .string).mark = .valid
    · refine h.sound hknown .string (.inr ?_)
      rw [← hb hv]
      exact hk.resolve_left fun hne => hne rfl
    · exact (h.decided hknown .string).sound hv
  · exact h.sound hknown k (.inl hs)

/-- storing the string, with a reference to it -/
theorem Fresh.storeString {v : Option (Val Num)} {b : Bool} (h : Fresh P R c)
    (hval : b = false → v = P.convert .string c.x.iov.flatten) :
    Fresh P (R.ref c.x.iov.flatten).1
      { c with
        x := { c.x.store .string ⟨.valid, v⟩ with string_lua_ref := some (R.ref c.x.iov.flatten).2 }
        bare := b } := by
  have hcell : (c.x.store .string ⟨.valid, v⟩).cached .string = ⟨.valid, v⟩ := by simp [Instring.store]
  refine ⟨⟨h.literals, h.heard, ?_, ?_, fun _ hr => (by cases hr), ?_⟩, h.asked, h.iov⟩
  · intro hknown k
    by_cases he : k = .string
    · subst he
      rw [hcell]
      exact Memo.decided_mark _ _
    · simpa [Instring.store, Function.update_of_ne he] using h.decided hknown k
  · intro hknown k hk
    by_cases he : k = .string
    · subst he
      rw [hcell, hval (hk.resolve_left fun hne => hne rfl)]
      exact Memo.sound_fill _
    · simpa [Instring.store, Function.update_of_ne he] using h.sound hknown k (.inl he)
  · intro _ r hr
    cases hr
    exact ⟨ref_slot _ _, congrArg Memo.Cell.mark hcell⟩

theorem own_storeString {y : Instance Num} {s : Str} (hwf : R.Wf) (hnone : c.x.string_lua_ref = none)
    (hr : y.x.string_lua_ref = some (R.ref s).2) : Moves R c.own (R.ref s).1 y.own := by
  have hown : c.own = none := by
    unfold Instance.own
    split
    · rfl
    · exact hnone
  have hmoves := ref_moves hwf s
  rw [hown]
  unfold Instance.own
  split
  · exact hmoves.drop
  · exact hr ▸ hmoves

theorem push_eq {iov : List Str} {s : Str} (h : luaS_push_iovec_as_string iov = some s) : iov.flatten = s := by
  unfold luaS_push_iovec_as_string at h
  split at h
  · exact Option.some.inj h
  · cases h

theorem interpolated_text : (c.interpolated report R).text = c.text := by
  simp only [Instance.text, Instance.interpolated, interpolate_tokens]

/-- **A query of a kind that is not the string one.** -/
theorem value_good {k : Kind} (null : Bool) {r : Table Str × Instring Num × Ret Num} (hk : k ≠ .string)
    (h : Good P R c) (hok : c.Ok report) (hh : c.honest report) (hwf : R.Wf) (hlive : ∀ q, c.own = some q → R.Live q)
    (heq : value P k (c.eval report) R c.x = some r) :
    Served P R c r.1 (c.after report k null R r.2.1) ∧ r.2.2.Right P k null c.text := by
  obtain ⟨hfresh, hmoves⟩ := interpolate_good h hok hh hwf hlive
  have htok : (c.interpolated report R).x.tokens = c.x.tokens := interpolate_tokens _ _ _
  have htext : (c.interpolated report R).x.iov.flatten = c.text := hfresh.flatten.trans interpolated_text
  have hdec := hfresh.decided (.inl rfl) k
  have hsound := hfresh.sound (.inl rfl) k (.inl hk)
  rw [htext] at hdec hsound
  -- the cell of k is stored or not; then the history of the string cell is brought up to date
  have hafter : ∀ x, Fresh P (shuso_instring_interpolate (c.eval report) R c.x).1
        { c.interpolated report R with x := x } →
      (x.cached .string).mark = ((c.interpolated report R).x.cached .string).mark →
      Fresh P (shuso_instring_interpolate (c.eval report) R c.x).1 (c.after report k null R x) := by
    intro x hx hmark
    refine Fresh.setBare hx fun hv => ?_
    rw [if_pos (hmark ▸ hv)]
    rfl
  cases hmark : ((shuso_instring_interpolate (c.eval report) R c.x).2.cached k).mark with
  | valid =>
    simp only [value, hmark, Option.some.injEq] at heq
    subst heq
    exact ⟨⟨hafter _ hfresh rfl, hmoves, htok, rfl, rfl⟩, hdec.valid hmark, fun _ => hsound.val hmark⟩
  | invalid =>
    simp only [value, hmark, Option.some.injEq] at heq
    subst heq
    exact ⟨⟨hafter _ hfresh rfl, hmoves, htok, rfl, rfl⟩, hdec.invalid hmark⟩
  | unknown =>
    simp only [value, hmark] at heq
    obtain ⟨s, hs, heq⟩ := Option.bind_eq_some_iff.1 heq
    have hst : s = c.text := (push_eq hs).symm.trans htext
    subst hst
    have hstore : ∀ m : Memo.Cell (Val Num),
        (((c.interpolated report R).x.store k m).cached .string).mark =
          ((c.interpolated report R).x.cached .string).mark :=
      fun m => congrArg Memo.Cell.mark (Function.update_of_ne hk.symm _ _)
    cases hc : P.convert k c.text with
    | none =>
      rw [hc] at heq
      cases heq
      refine ⟨⟨hafter _ (hfresh.store hk ?_) (hstore _), hmoves, htok, rfl, rfl⟩, hc⟩
      rw [htext, hc]
      exact Memo.sound_miss _
    | some v =>
      rw [hc] at heq
      cases heq
      refine ⟨⟨hafter _ (hfresh.store hk ?_) (hstore _), hmoves, htok, rfl, rfl⟩, ?_, fun _ => hc.symm⟩
      swap
      · rw [hc]
        rfl
      rw [htext, hc]
      exact Memo.sound_fill v

/-- **A string query.** -/
theorem string_value_good {null : Bool} {r : Table Str × Instring Num × Ret Num}
    (h : Good P R c) (hok : c.Ok report) (hbare : null = false → c.bare = false ∨ c.reported report)
    (hh : c.honest report) (hwf : R.Wf) (hlive : ∀ q, c.own = some q → R.Live q)
    (heq : shuso_instring_string_value P null (c.eval report) R c.x = some r) :
    Served P R c r.1 (c.after report .string null R r.2.1) ∧ r.2.2.Right P .string null c.text := by
  obtain ⟨hfresh, hmoves⟩ := interpolate_good h hok hh hwf hlive
  have htok : (c.interpolated report R).x.tokens = c.x.tokens := interpolate_tokens _ _ _
  have htext : (c.interpolated report R).x.iov.flatten = c.text := hfresh.flatten.trans interpolated_text
  have hdec := hfresh.decided (.inl rfl) .string
  rw [htext] at hdec
  cases hmark : ((shuso_instring_interpolate (c.eval report) R c.x).2.cached .string).mark with
  | valid =>
    simp only [shuso_instring_string_value, hmark, Option.some.injEq] at heq
    subst heq
    refine ⟨⟨Fresh.setBare hfresh fun _ => if_pos hmark, hmoves, htok, rfl, rfl⟩, hdec.valid hmark,
      fun hnull => ?_⟩
    have hb : c.bare = false := by
      refine (hbare hnull).resolve_right fun hrep => ?_
      -- a report would have taken the mark back
      obtain ⟨iov, he⟩ := interpolate_reported (R := R) hrep
      rw [he] at hmark
      cases hmark
    have hsound := hfresh.sound (.inl rfl) .string (.inr hb)
    rw [htext] at hsound
    exact hsound.val hmark
  | invalid => exact absurd (hdec.invalid hmark) (by simp [Numbers.convert])
  | unknown =>
    simp only [shuso_instring_string_value, hmark] at heq
    obtain ⟨s, hs, heq⟩ := Option.bind_eq_some_iff.1 heq
    have hst : (c.interpolated report R).x.iov.flatten = s := push_eq hs
    subst hst
    cases hnone : (shuso_instring_interpolate (c.eval report) R c.x).2.string_lua_ref with
    | some q => simp [Numbers.convert, hnone] at heq
    | none =>
      simp only [Numbers.convert, hnone, Option.some.injEq] at heq
      subst heq
      have hafter : ∀ x, c.after report .string null R x =
          { c.interpolated report R with x := x, bare := null } := by
        intro x
        simp [Instance.after, Instance.interpolated, hmark]
      rw [hafter]
      refine ⟨⟨hfresh.storeString fun hnull => ?_, hmoves.trans (own_storeString hmoves.wf hnone rfl),
        htok, rfl, rfl⟩, rfl, ?_⟩
      · rw [if_neg (Bool.eq_false_iff.1 hnull)]
        rfl
      · intro hnull
        rw [if_neg (Bool.eq_false_iff.1 hnull), htext]
        rfl

/-- **A query.** -/
theorem setting_value_good {k : Kind} {null : Bool} {r : Table Str × Instring Num × Ret Num} (h : Good P R c)
    (hok : c.Ok report) (hbare : k = .string → null = false → c.bare = false ∨ c.reported report)
    (hh : c.honest report) (hwf : R.Wf) (hlive : ∀ q, c.own = some q → R.Live q)
    (heq : shuso_setting_value P k null (c.eval report) R c.x = some r) :
    Served P R c r.1 (c.after report k null R r.2.1) ∧ r.2.2.Right P k null c.text := by
  cases k with
  | string => exact string_value_good h hok (hbare rfl) hh hwf hlive heq
  | boolean => exact value_good null (by decide) h hok hh hwf hlive heq
  | integer => exact value_good null (by decide) h hok hh hwf hlive heq
  | number => exact value_good null (by decide) h hok hh hwf hlive heq
  | size => exact value_good null (by decide) h hok hh hwf hlive heq

/-- **`shuso_setting_string_matches`** matches the text. -/
theorem string_matches_good {pattern : Str} {r : Table Str × Instring Num × Bool} (h : Good P R c) (hok : c.Ok report)
    (hf : c.foreign = false) (hh : c.honest report) (hwf : R.Wf) (hlive : ∀ q, c.own = some q → R.Live q)
    (heq : shuso_setting_string_matches P pattern (c.eval report) R c.x = some r) :
    Served P R c r.1 (c.after report .string true R r.2.1) ∧ r.2.2 = P.strmatch c.text pattern := by
  obtain ⟨q, hq, heq⟩ := Option.bind_eq_some_iff.1 heq
  obtain ⟨hserved, hright⟩ := string_value_good h hok (fun hn => Bool.noConfusion hn) hh hwf hlive hq
  cases hret : q.2.2 with
  | no =>
    rw [hret] at hright
    simp [Ret.Right, Numbers.convert] at hright
  | yes v =>
    simp only [hret] at heq
    obtain ⟨s, hs, heq⟩ := Option.bind_eq_some_iff.1 heq
    obtain ⟨a, ha, hslot⟩ := Option.bind_eq_some_iff.1 hs
    cases heq
    refine ⟨hserved, ?_⟩
    have hst : q.1.slot a = some c.text := by
      rw [← hserved.text, ← hserved.fresh.flatten]
      exact (hserved.fresh.ref hf a ha).1
    rw [hslot, Option.some.injEq] at hst
    rw [hst]

end Query

/-! ## New instrings -/

section New

variable {P : Numbers Num} {R : Table Str} {c : Instance Num}

/-- without variables it does not matter what was asked and said -/
theorem Good.literal {b : Bool} {f : ℕ → Option Str} (h : Good P R c) (h0 : varcount c.x.tokens = 0) :
    Good P R { c with asked := b, said := f } :=
  ⟨h.literals, fun _ j hj => absurd (h0 ▸ hj) (Nat.not_lt_zero j), fun _ => h.decided (.inr h0),
    fun _ => h.sound (.inr h0), h.noref, h.ref⟩

/-- a query on a literal that is being made -/
theorem literal_value {k : Kind} {r : Table Str × Instring Num × Ret Num} (hk : k ≠ .string) (h : Good P R c)
    (h0 : varcount c.x.tokens = 0) (hb : c.bare = false) (hwf : R.Wf) (hlive : ∀ q, c.own = some q → R.Live q)
    (heq : value P k (fun _ => none) R c.x = some r) :
    Good P r.1 { c with x := r.2.1 } ∧ Moves R c.own r.1 { c with x := r.2.1 }.own ∧ r.2.1.tokens = c.x.tokens := by
  have hh : c.honest fun _ => false := fun j hj => absurd (h0 ▸ hj) (Nat.not_lt_zero j)
  obtain ⟨hserved, -⟩ := value_good true hk h (.inl h0) hh hwf hlive heq
  have hbare : (c.after (fun _ => false) k true R r.2.1).bare = c.bare := by
    simp only [Instance.after, hb, hk, decide_false, Bool.false_and, ite_self]
  have hgood := hserved.fresh.toGood.literal (b := c.asked) (f := c.said) (by rw [hserved.tokens]; exact h0)
  refine ⟨?_, hserved.moves, hserved.tokens⟩
  simpa only [Instance.after, hb, hk, decide_false, Bool.false_and, ite_self] using hgood

theorem create_good {tokens : List Token} (L : ℕ) (cur : ℕ → Str) {r : Table Str × Instring Num} (hwf : R.Wf)
    (heq : luaS_instring_lua_to_c P tokens R = some r) :
    Good P r.1 ⟨r.2, L, cur, fun _ => none, false, false, false⟩ ∧
      Moves R none r.1 (Instance.own ⟨r.2, L, cur, fun _ => none, false, false, false⟩) := by
  unfold luaS_instring_lua_to_c at heq
  split at heq
  · rename_i h0
    split at heq
    · rename_i s
      obtain ⟨r1, h1, heq⟩ := Option.bind_eq_some_iff.1 heq
      obtain ⟨r2, h2, heq⟩ := Option.bind_eq_some_iff.1 heq
      obtain ⟨r3, h3, heq⟩ := Option.bind_eq_some_iff.1 heq
      obtain ⟨r4, h4, heq⟩ := Option.map_eq_some_iff.1 heq
      subst heq
      have hfresh : Fresh P R ⟨⟨[.literal s], [s], fun _ => ⟨.unknown, none⟩, none⟩, L, cur, fun _ => none, true, false,
          false⟩ :=
        ⟨⟨literals_map [.literal s], fun _ j hj => absurd hj (Nat.not_lt_zero j),
          fun _ k => (Memo.sound_of_unknown rfl _).toDecided, fun _ k _ => Memo.sound_of_unknown rfl _,
          fun _ _ hm => (by cases hm), fun _ r hr => by cases hr⟩, rfl, rfl⟩
      have hstart := (hfresh.storeString (v := some (.string s)) (b := false) fun _ => by
        simp [Numbers.convert]).toGood
      have hmoves := ref_moves hwf s
      have hflat : [s].flatten = s := by simp
      simp only [hflat] at hstart
      obtain ⟨g1, m1, t1⟩ := literal_value (by decide) hstart rfl rfl hmoves.wf hmoves.live h1
      obtain ⟨g2, m2, t2⟩ := literal_value (by decide) g1 (by rw [t1]; rfl) rfl m1.wf m1.live h2
      obtain ⟨g3, m3, t3⟩ := literal_value (by decide) g2 (by rw [t2, t1]; rfl) rfl m2.wf m2.live h3
      obtain ⟨g4, m4, t4⟩ := literal_value (by decide) g3 (by rw [t3, t2, t1]; rfl) rfl m3.wf m3.live h4
      refine ⟨g4.literal (b := false) (by rw [t4, t3, t2, t1]; rfl), ?_⟩
      exact (((hmoves.trans m1).trans m2).trans m3).trans m4
    · cases heq
  · rename_i hne
    cases heq
    refine ⟨⟨literals_map tokens, fun ha => (by cases ha), ?_, ?_, ?_, fun _ r hr => (by cases hr)⟩, ?_⟩
    · rintro (ha | h0)
      · cases ha
      · exact absurd h0 hne
    · rintro (ha | h0)
      · cases ha
      · exact absurd h0 hne
    · intro _ _ hm
      cases hm
    · exact Moves.refl hwf fun q hq => by cases hq

theorem copy_own (L : ℕ) : (c.copy L).own = none := by
  unfold Instance.own Instance.copy shuso_instring_copy_for_worker
  cases c.foreign <;> cases hr : c.x.string_lua_ref <;> split <;> simp_all

theorem copy_good {R' : Table Str} (h : Good P R c) (L : ℕ) : Good P R' (c.copy L) := by
  have hcached : (c.copy L).x.cached = c.x.cached := by
    unfold Instance.copy shuso_instring_copy_for_worker
    dsimp only
    split <;> rfl
  have hsame : varcount (c.copy L).x.tokens = 0 → (c.copy L).x = c.x := by
    unfold Instance.copy shuso_instring_copy_for_worker
    dsimp only
    split
    · exact fun _ => rfl
    · rename_i hne
      exact fun h0 => absurd h0 hne
  have hnone : (c.copy L).foreign = false → c.foreign = false ∧ c.x.string_lua_ref = none := by
    intro hf
    obtain ⟨h1, h2⟩ := Bool.or_eq_false_iff.1 hf
    exact ⟨h1, by simpa using h2⟩
  refine ⟨?_, fun ha => (by cases ha), ?_, ?_, ?_, ?_⟩
  · unfold Instance.copy shuso_instring_copy_for_worker
    dsimp only
    split
    · exact h.literals
    · exact literals_map _
  · rintro (ha | h0)
    · cases ha
    · rw [hsame h0]
      exact h.decided (.inr (hsame h0 ▸ h0))
  · rintro (ha | h0)
    · cases ha
    · rw [hsame h0]
      exact h.sound (.inr (hsame h0 ▸ h0))
  · intro hf _
    rw [hcached]
    exact h.noref (hnone hf).1 (hnone hf).2
  · intro hf r hr
    have hown := copy_own (c := c) L
    rw [Instance.own_eq hf, hr] at hown
    cases hown

end New

/-! ## Runs -/

/-- the references held in the Lua state L -/
def Sys.owner (s : Sys Num) (L i : ℕ) : Option ℕ :=
  (s.inst i).bind fun c => if c.lua = L then c.own else none

structure Inv (P : Numbers Num) (s : Sys Num) : Prop where
  wf : ∀ L, (s.regs L).Wf
  good : ∀ i c, s.inst i = some c → Good P (s.regs c.lua) c
  separate : ∀ L, Separate (s.regs L) (s.owner L)

section System

variable {P : Numbers Num} {s : Sys Num}

theorem init_inv {regs : ℕ → Table Str} (hwf : ∀ L, (regs L).Wf) : Inv P (init regs) :=
  ⟨hwf, fun i c hc => (by cases hc), fun L => ⟨fun i r hr => (by cases hr), fun i j r hr => by cases hr⟩⟩

theorem Inv.live (h : Inv P s) {i : ℕ} {c : Instance Num} (hc : s.inst i = some c) :
    ∀ r, c.own = some r → (s.regs c.lua).Live r := by
  intro r hr
  refine (h.separate c.lua).live i r ?_
  rw [Sys.owner, hc, Option.bind_some, if_pos rfl, hr]

/-- an instring is made or changed, and the registry of its Lua state with it -/
theorem Inv.put {i : ℕ} {c' : Instance Num} {R' : Table Str} {o : Out Num} (h : Inv P s)
    (hlua : ∀ c, s.inst i = some c → c.lua = c'.lua) (hgood : Good P R' c')
    (hmoves : Moves (s.regs c'.lua) (s.owner c'.lua i) R' c'.own) : Inv P { s.put i c' R' with out := o } := by
  have howner : (s.put i c' R').owner c'.lua = Function.update (s.owner c'.lua) i c'.own := by
    funext j
    by_cases hj : j = i
    · subst hj
      simp [Sys.owner, Sys.put]
    · simp [Sys.owner, Sys.put, Function.update_of_ne hj]
  have hother : ∀ L, L ≠ c'.lua → (s.put i c' R').owner L = s.owner L := by
    intro L hL
    funext j
    by_cases hj : j = i
    · subst hj
      cases hc : s.inst j with
      | none => simp [Sys.owner, Sys.put, hc, hL.symm]
      | some c => simp [Sys.owner, Sys.put, hc, hlua c hc, hL.symm]
    · simp [Sys.owner, Sys.put, Function.update_of_ne hj]
  refine ⟨?_, ?_, ?_⟩
  · intro L
    by_cases hL : L = c'.lua
    · subst hL
      simpa [Sys.put] using hmoves.wf
    · simpa [Sys.put, Function.update_of_ne hL] using h.wf L
  · intro j d hd
    by_cases hj : j = i
    · subst hj
      simp only [Sys.put, Function.update_self, Option.some.injEq] at hd
      subst hd
      simpa [Sys.put] using hgood
    · simp only [Sys.put, Function.update_of_ne hj] at hd
      have hg := h.good j d hd
      by_cases hL : d.lua = c'.lua
      · refine hg.congr fun r hr => ?_
        have hown : s.owner c'.lua j = some r := by rw [Sys.owner, hd, Option.bind_some, if_pos hL, hr]
        simp only [Sys.put, hL, Function.update_self]
        exact (h.separate c'.lua).slot hmoves hj hown
      · simpa [Sys.put, Function.update_of_ne hL] using hg
  · intro L
    by_cases hL : L = c'.lua
    · subst hL
      show Separate (Function.update s.regs c'.lua R' c'.lua) ((s.put i c' R').owner c'.lua)
      rw [howner, Function.update_self]
      exact (h.separate c'.lua).move hmoves
    · show Separate (Function.update s.regs c'.lua R' L) ((s.put i c' R').owner L)
      rw [hother L hL, Function.update_of_ne hL]
      exact h.separate L

theorem Inv.owner_eq {i : ℕ} {c : Instance Num} (hc : s.inst i = some c) : s.owner c.lua i = c.own := by
  rw [Sys.owner, hc, Option.bind_some, if_pos rfl]

/-- a query was served -/
theorem Inv.served {i : ℕ} {c c' : Instance Num} {R' : Table Str} {o : Out Num} (h : Inv P s) (hc : s.inst i = some c)
    (hs : Served P (s.regs c.lua) c R' c') : Inv P { s.put i c' R' with out := o } := by
  refine h.put ?_ hs.fresh.toGood ?_
  · intro d hd
    rw [hc, Option.some.injEq] at hd
    rw [← hd, hs.lua]
  · rw [hs.lua, Inv.owner_eq hc]
    exact hs.moves

/-- **One step.** -/
theorem step_inv {a : Action} {t : Sys Num} (h : Inv P s) (hok : Ok s a) (hst : step P s a = some t) :
    Inv P t ∧ Coherent P t := by
  cases a with
  | create i L tokens cur =>
    simp only [step] at hst
    split at hst
    · cases hst
    · rename_i hnone
      obtain ⟨r, hr, rfl⟩ := Option.map_eq_some_iff.1 hst
      obtain ⟨hgood, hmoves⟩ := create_good L cur (h.wf L) hr
      rw [Option.not_isSome_iff_eq_none] at hnone
      refine ⟨h.put (fun c hc => by rw [hnone] at hc; cases hc) hgood ?_, trivial⟩
      have howner : s.owner L i = none := by rw [Sys.owner, hnone]; rfl
      exact howner ▸ hmoves
  | change i j v =>
    obtain ⟨c, hc, rfl⟩ := Option.map_eq_some_iff.1 hst
    have hgood := h.good i c hc
    refine ⟨h.put ?_ ?_ ?_, trivial⟩
    · intro d hd
      rw [hc, Option.some.injEq] at hd
      rw [← hd]
    · exact ⟨hgood.literals, hgood.heard, hgood.decided, hgood.sound, hgood.noref, hgood.ref⟩
    · rw [Inv.owner_eq hc]
      exact Moves.refl (h.wf c.lua) (h.live hc)
  | query i k null report =>
    obtain ⟨c, hc, hst⟩ := Option.bind_eq_some_iff.1 hst
    split at hst
    · rename_i hh
      obtain ⟨r, hr, rfl⟩ := Option.map_eq_some_iff.1 hst
      obtain ⟨hokc, hbare⟩ := hok c hc
      obtain ⟨hserved, hright⟩ := setting_value_good (h.good i c hc) hokc hbare hh (h.wf c.lua) (h.live hc) hr
      refine ⟨h.served hc hserved, ?_⟩
      have hcell : ∀ d, (s.put i (c.after report k null (s.regs c.lua) r.2.1) r.1).inst i = some d → d.text = c.text := by
        intro d hd
        simp only [Sys.put, Function.update_self, Option.some.injEq] at hd
        rw [← hd, hserved.text]
      cases hret : r.2.2 with
      | no => simp only [Coherent, Ret.out]
      | yes v =>
        rw [hret] at hright
        cases null with
        | true =>
          simp only [Coherent, Ret.out, if_true]
          intro d hd
          rw [hcell d hd]
          exact hright.1
        | false =>
          simp only [Coherent, Ret.out, Bool.false_eq_true, if_false]
          intro d hd
          rw [hcell d hd, hright.2 rfl]
          exact ⟨hright.1, rfl⟩
    · cases hst
  | stringMatches i pattern report =>
    obtain ⟨c, hc, hst⟩ := Option.bind_eq_some_iff.1 hst
    split at hst
    · rename_i hh
      obtain ⟨r, hr, rfl⟩ := Option.map_eq_some_iff.1 hst
      obtain ⟨hokc, hf⟩ := hok c hc
      obtain ⟨hserved, hright⟩ := string_matches_good (h.good i c hc) hokc hf hh (h.wf c.lua) (h.live hc) hr
      refine ⟨h.served hc hserved, ?_⟩
      intro d hd
      simp only [Sys.put, Function.update_self, Option.mem_some_iff] at hd
      rw [← hd, hserved.text]
      exact hright
    · cases hst
  | copy i j L =>
    simp only [step] at hst
    split at hst
    · cases hst
    · rename_i hnone
      obtain ⟨c, hc, rfl⟩ := Option.map_eq_some_iff.1 hst
      rw [Option.not_isSome_iff_eq_none] at hnone
      refine ⟨h.put (fun d hd => by rw [hnone] at hd; cases hd) (copy_good (h.good j c hc) L) ?_, trivial⟩
      have howner : s.owner (c.copy L).lua i = none := by rw [Sys.owner, hnone]; rfl
      rw [copy_own, howner]
      exact Moves.refl (h.wf L) fun q hq => by cases hq

/-- **Coherence.** In every run whose steps meet the condition, what each query gives its caller is the conversion of the
current text. -/
theorem coherent_of_ok (P : Numbers Num) (regs : ℕ → Table Str) (hwf : ∀ L, (regs L).Wf) (s : Sys Num)
    (h : Reach (step P) Ok (init regs) s) : Coherent P s := by
  have hinv : Inv P s ∧ Coherent P s :=
    h.inv ⟨init_inv hwf, trivial⟩ fun _ _ _ hs hok hst => step_inv hs.1 hok hst
  exact hinv.2

end System

/-- numbers without sign, point or exponent, and patterns that are a word between "^" and "$" -/
def decimal : Numbers ℕ where
  tonumber s := if s ≠ [] ∧ s.all Char.isDigit then some (s.foldl (fun n c => 10 * n + (c.toNat - 48)) 0) else none
  floor x := some x
  round x m := some (x * m : ℕ)
  toSize := Int.toNat
  strmatch s pattern := pattern == '^' :: s ++ ['$']

/-- in the Lua state 1, other code holds the reference 1 -/
def start : ℕ → Table Str
  | 1 => ⟨1, Function.update (fun _ => none) 1 (some "auto".toList), []⟩
  | _ => ⟨0, fun _ => none, []⟩

theorem start_wf (L : ℕ) : (start L).Wf := by
  unfold start
  split <;> exact ⟨List.nodup_nil, fun r hr => by cases hr⟩

def all (_ : ℕ) : Bool := true

def silent (_ : ℕ) : Bool := false

/-- queries and changes, a copy that is first asked for its size, and a match -/
def inOrder : List Action :=
  [.create 0 0 [.var, .literal "0".toList] (fun _ => "1".toList), .query 0 .integer false all,
    .query 0 .integer true silent, .change 0 0 "2".toList, .query 0 .integer false all, .copy 1 0 1,
    .change 1 0 "3".toList, .query 1 .size false all, .query 0 .string false silent, .stringMatches 1 "^30$".toList silent]

theorem coherent_inOrder :
    ∃ s, execIf (step decimal) Ok (init start) inOrder = some s ∧ Coherent decimal s := by
  have hsome : (execIf (step decimal) Ok (init start) inOrder).isSome = true := by decide +kernel
  obtain ⟨s, hs⟩ := Option.isSome_iff_exists.1 hsome
  exact ⟨s, hs, coherent_of_ok decimal start start_wf s (Reach.init.of_execIf hs)⟩

/-- a variable after a literal; a string asked for without a place for it, and then with one; a match on a copy of an
instring that had a cached string -/
def mistakes : List (List Action) := [
  [.create 0 0 [.literal "a".toList, .var] (fun _ => "b".toList), .query 0 .string false all],
  [.create 0 0 [.var] (fun _ => "a".toList), .query 0 .string true all, .query 0 .string false silent],
  [.create 0 0 [.var] (fun _ => "a".toList), .query 0 .string false all, .copy 1 0 1,
    .stringMatches 1 "^auto$".toList silent]]

theorem mistakes_incoherent : ∀ schedule ∈ mistakes, ∃ s, exec (step decimal) (init start) schedule = some s ∧
    Reach (step decimal) always (init start) s ∧ ¬ Coherent decimal s := by
  have hrun : ∀ schedule ∈ mistakes,
      (exec (step decimal) (init start) schedule).any (fun s => !coherent decimal s) = true := by decide +kernel
  intro schedule hmem
  obtain ⟨s, hs, hwrong⟩ := (Option.any_eq_true _ _).1 (hrun schedule hmem)
  refine ⟨s, hs, Reach.of_exec hs, fun h => ?_⟩
  rw [← coherent_iff] at h
  rw [h] at hwrong
  cases hwrong

/-- **Wrong values.** -/
theorem incoherent : ¬ ∀ s, Reach (step decimal) always (init start) s → Coherent decimal s := by
  intro h
  obtain ⟨s, -, hreach, hwrong⟩ := mistakes_incoherent _ List.mem_cons_self
  exact hwrong (h s hreach)

end Shuttlesock.Instrings
