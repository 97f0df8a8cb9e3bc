/-
The text of an instring after `shuso_instring_interpolate`: what the iovecs of its tokens are together.

The variables of an instring are in an array of their own. The loop goes over that array, and stores the value of the i-th
variable in the i-th iovec, which is the one of the i-th token.

Model: an instring as `luaS_instring_lua_to_c` and `shuso_instring_copy_for_worker` make it, and then any number of
interpolations, each with what the eval functions answer. The value of a variable is the last one it reported, and none before
that.

Results:
- `interpolations_iov`: the iovecs after any interpolations.
- `interpolated_iff`: they hold the text after all interpolations, whatever the variables report, if and only if no literal
  with text in it stands ahead of a variable.
- `misplaced_value`: a variable behind a literal.
-/
import Mathlib.Tactic
import Shuttlesock.Instring.Value

namespace Shuttlesock.Instrings

variable {Num : Type*}

/-! ## The property -/

/-- one interpolation after the other -/
def interpolations (evals : List (ℕ → Option Str)) (reg : Refs.Table Str) (x : Instring Num) : Refs.Table Str × Instring Num :=
  evals.foldl (fun r eval => shuso_instring_interpolate eval r.1 r.2) (reg, x)

/-- the last value that a variable reported -/
def reported (evals : List (ℕ → Option Str)) (j : ℕ) : Option Str := evals.foldl (fun val eval => (eval j).or val) none

/-- the value of a variable -/
def latest (evals : List (ℕ → Option Str)) (j : ℕ) : Str := (reported evals j).getD []

/-- as it is made of these tokens -/
structure Made (tokens : List Token) (x : Instring Num) : Prop where
  same : x.tokens = tokens
  iov : x.iov = tokens.map Token.iov

/-- a literal ahead of a variable has no text -/
def literalsLast : List Token → Prop
  | [] => True
  | .literal s :: ts => (s = [] ∨ varcount ts = 0) ∧ literalsLast ts
  | .var :: ts => literalsLast ts

instance : DecidablePred literalsLast := fun ts => by
  induction ts with
  | nil => exact isTrue trivial
  | cons t ts ih =>
    cases t with
    | literal s => exact inferInstanceAs (Decidable ((s = [] ∨ varcount ts = 0) ∧ literalsLast ts))
    | var => exact ih

/-- **The property**: the iovecs together are the text -/
def Interpolated (tokens : List Token) (evals : List (ℕ → Option Str)) (x : Instring Num) : Prop :=
  x.iov.flatten = text (latest evals) tokens

/-! ## The iovecs -/

/-- one interpolation writes the iovecs that have the number of a variable with a new value -/
theorem interpolate_getElem (eval : ℕ → Option Str) (reg : Refs.Table Str) (x : Instring Num) {p : ℕ} (hp : p < x.iov.length) :
    (shuso_instring_interpolate eval reg x).2.iov[p]? =
      if p < varcount x.tokens then (eval p).or x.iov[p]? else x.iov[p]? := by
  rw [interpolate_iov, interpolateFrom_get eval 0 _ _ _ p hp]
  simp only [Nat.zero_le, true_and, Nat.zero_add]

theorem reported_append (evals : List (ℕ → Option Str)) (eval : ℕ → Option Str) (j : ℕ) :
    reported (evals ++ [eval]) j = (eval j).or (reported evals j) := by
  unfold reported
  rw [List.foldl_append]
  rfl

/-- **Any number of interpolations** -/
theorem interpolations_get {tokens : List Token} {x : Instring Num} (hx : Made tokens x) (evals : List (ℕ → Option Str))
    (reg : Refs.Table Str) :
    (interpolations evals reg x).2.tokens = tokens ∧ (interpolations evals reg x).2.iov.length = tokens.length ∧
      ∀ p < tokens.length, (interpolations evals reg x).2.iov[p]? =
        if p < varcount tokens then (reported evals p).or (tokens[p]?.map Token.iov) else tokens[p]?.map Token.iov := by
  induction evals using List.reverseRecOn with
  | nil =>
    refine ⟨hx.same, by rw [interpolations, List.foldl_nil, hx.iov, List.length_map], fun p _ => ?_⟩
    change x.iov[p]? = _
    rw [hx.iov, List.getElem?_map]
    split_ifs
    · rfl
    · rfl
  | append_singleton evals eval ih =>
    have hlast : interpolations (evals ++ [eval]) reg x =
        shuso_instring_interpolate eval (interpolations evals reg x).1 (interpolations evals reg x).2 := by
      unfold interpolations
      rw [List.foldl_append]
      rfl
    obtain ⟨htokens, hlen, hget⟩ := ih
    rw [hlast, interpolate_tokens]
    refine ⟨htokens, ?_, fun p hp => ?_⟩
    · rw [interpolate_iov, interpolateFrom_length, hlen]
    rw [interpolate_getElem _ _ _ (hlen.symm ▸ hp), htokens, hget p hp, reported_append]
    split_ifs
    · rw [Option.or_assoc]
    · rfl

/-- the iovecs: a value for each variable, in the order of the variables, and then what was there -/
theorem interpolations_iov {tokens : List Token} {x : Instring Num} (hx : Made tokens x) (evals : List (ℕ → Option Str))
    (reg : Refs.Table Str) :
    (interpolations evals reg x).2.iov =
      (List.range (varcount tokens)).map (fun p => (reported evals p).getD ((tokens.map Token.iov).getD p [])) ++
        (tokens.map Token.iov).drop (varcount tokens) := by
  obtain ⟨-, hlen, hget⟩ := interpolations_get hx evals reg
  have hle : varcount tokens ≤ tokens.length := List.countP_le_length
  refine List.ext_getElem? fun p => ?_
  rw [List.getElem?_append, List.length_map, List.length_range]
  by_cases hp : p < tokens.length
  · rw [hget p hp]
    split_ifs with hv
    · rw [List.getElem?_map, List.getElem?_range hv, Option.map_some, List.getD_eq_getElem?_getD, List.getElem?_map,
        List.getElem?_eq_getElem hp]
      cases reported evals p with
      | none => rfl
      | some val => rfl
    · rw [List.getElem?_drop, List.getElem?_map, Nat.add_sub_cancel' (not_lt.1 hv)]
  · have hnone : (interpolations evals reg x).2.iov[p]? = none :=
      List.getElem?_eq_none (hlen.symm ▸ not_lt.1 hp)
    rw [hnone, if_neg (by omega), List.getElem?_drop, eq_comm, List.getElem?_eq_none]
    rw [List.length_map]
    omega

/-! ## The text -/

/-- the values of the variables from the j-th on -/
def valuesFrom (cur : ℕ → Str) (j : ℕ) (ts : List Token) : Str := ((List.range' j (varcount ts)).map cur).flatten

/-- the text of the literals -/
def literals (ts : List Token) : Str := (ts.map Token.iov).flatten

theorem literals_cons (t : Token) (ts : List Token) : literals (t :: ts) = t.iov ++ literals ts := List.flatten_cons

theorem literals_append (ts us : List Token) : literals (ts ++ us) = literals ts ++ literals us := by
  unfold literals
  rw [List.map_append, List.flatten_append]

/-- with the text in the last literals, the text is the values and then these literals -/
theorem pieces_literalsLast (cur : ℕ → Str) (j : ℕ) {ts : List Token} (h : literalsLast ts) :
    (pieces cur j ts).flatten = valuesFrom cur j ts ++ literals ts := by
  induction ts generalizing j with
  | nil => rfl
  | cons t ts ih =>
    cases t with
    | literal s =>
      obtain ⟨hs, hts⟩ := h
      unfold valuesFrom
      rw [pieces, List.flatten_cons, ih j hts, literals_cons, varcount_literal]
      rcases hs with rfl | hzero
      · rfl
      · unfold valuesFrom
        rw [hzero]
        rfl
    | var =>
      have hrest : (pieces cur (j + 1) ts).flatten = _ := ih (j + 1) h
      rw [pieces, List.flatten_cons, hrest, literals_cons]
      unfold valuesFrom
      rw [varcount_var, List.range'_succ, List.map_cons, List.flatten_cons, List.append_assoc]
      rfl

/-- the tokens that have the number of a variable have no text then -/
theorem literals_take {ts : List Token} (h : literalsLast ts) {k : ℕ} (hk : k ≤ varcount ts) : literals (ts.take k) = [] := by
  induction ts generalizing k with
  | nil =>
    rw [List.take_nil]
    rfl
  | cons t ts ih =>
    cases k with
    | zero => rfl
    | succ k =>
      rw [List.take_succ_cons, literals_cons]
      cases t with
      | literal s =>
        rw [varcount_literal] at hk
        rcases h.1 with rfl | hzero
        · exact ih h.2 (Nat.le_of_succ_le hk)
        · exact absurd hk (by omega)
      | var =>
        rw [varcount_var] at hk
        exact ih h (Nat.le_of_succ_le_succ hk)

/-- the last variable, if there is one -/
theorem last_variable {ts : List Token} (h : 0 < varcount ts) :
    ∃ front back, ts = front ++ .var :: back ∧ varcount back = 0 := by
  induction ts with
  | nil => exact absurd h (Nat.lt_irrefl 0)
  | cons t ts ih =>
    rcases Nat.eq_zero_or_pos (varcount ts) with hzero | hpos
    · cases t with
      | literal s =>
        rw [varcount_literal, hzero] at h
        exact absurd h (Nat.lt_irrefl 0)
      | var => exact ⟨[], ts, rfl, hzero⟩
    · obtain ⟨front, back, rfl, hback⟩ := ih hpos
      exact ⟨t :: front, back, rfl, hback⟩

theorem literalsLast_of_zero {ts : List Token} (h : varcount ts = 0) : literalsLast ts := by
  induction ts with
  | nil => trivial
  | cons t ts ih =>
    cases t with
    | literal s =>
      rw [varcount_literal] at h
      exact ⟨.inr h, ih h⟩
    | var =>
      rw [varcount_var] at h
      exact absurd h (Nat.succ_ne_zero _)

/-- it is enough that there is no text ahead of the last variable -/
theorem literalsLast_of_front {front back : List Token} (hfront : literals front = []) (hback : varcount back = 0) :
    literalsLast (front ++ .var :: back) := by
  induction front with
  | nil => exact show literalsLast back from literalsLast_of_zero hback
  | cons t front ih =>
    rw [literals_cons, List.append_eq_nil_iff] at hfront
    cases t with
    | literal s => exact ⟨.inl hfront.1, ih hfront.2⟩
    | var => exact ih hfront.2

theorem varcount_append (ts us : List Token) : varcount (ts ++ us) = varcount ts + varcount us := List.countP_append

theorem pieces_append (cur : ℕ → Str) (j : ℕ) (ts us : List Token) :
    pieces cur j (ts ++ us) = pieces cur j ts ++ pieces cur (j + varcount ts) us := by
  induction ts generalizing j with
  | nil => rfl
  | cons t ts ih =>
    cases t with
    | literal s => rw [List.cons_append, pieces, pieces, ih, varcount_literal, List.cons_append]
    | var => rw [List.cons_append, pieces, pieces, ih, varcount_var, List.cons_append, Nat.add_assoc, Nat.add_comm 1]

/-- variables without a value leave the literals -/
theorem pieces_quiet {cur : ℕ → Str} {j : ℕ} {ts : List Token} (h : ∀ k < varcount ts, cur (j + k) = []) :
    (pieces cur j ts).flatten = literals ts := by
  induction ts generalizing j with
  | nil => rfl
  | cons t ts ih =>
    cases t with
    | literal s =>
      rw [pieces, List.flatten_cons, literals_cons, ih]
      · rfl
      · intro k hk
        exact h k (by rwa [varcount_literal])
    | var =>
      have hzero : cur j = [] := h 0 (by rw [varcount_var]; exact Nat.succ_pos _)
      rw [pieces, List.flatten_cons, literals_cons, hzero, ih]
      · rfl
      · intro k hk
        rw [Nat.add_assoc, Nat.add_comm 1]
        exact h (k + 1) (by rw [varcount_var]; exact Nat.succ_lt_succ hk)

/-! ## When the iovecs hold the text -/

theorem literals_getD {ts : List Token} {k : ℕ} (h : literals (ts.take k) = []) {p : ℕ} (hp : p < k) :
    (ts.map Token.iov).getD p [] = [] := by
  have hall := List.flatten_eq_nil_iff.1 h
  rw [List.getD_eq_getElem?_getD]
  cases hget : (ts.map Token.iov)[p]? with
  | none => rfl
  | some s =>
    apply hall
    refine List.mem_of_getElem? (i := p) ?_
    rw [List.map_take, List.getElem?_take_of_lt hp, hget, Option.getD_some]

/-- the iovecs together, when the tokens with the number of a variable have no text -/
theorem flatten_interpolations {tokens : List Token} {x : Instring Num} (hx : Made tokens x)
    (h : literals (tokens.take (varcount tokens)) = []) (evals : List (ℕ → Option Str)) (reg : Refs.Table Str) :
    (interpolations evals reg x).2.iov.flatten = valuesFrom (latest evals) 0 tokens ++ literals tokens := by
  have hvalues : (List.range (varcount tokens)).map (fun p => (reported evals p).getD ((tokens.map Token.iov).getD p [])) =
      (List.range' 0 (varcount tokens)).map (latest evals) := by
    rw [← List.range_eq_range']
    refine List.map_congr_left fun p hp => ?_
    rw [literals_getD h (List.mem_range.1 hp)]
    rfl
  have hliterals : literals tokens = ((tokens.map Token.iov).drop (varcount tokens)).flatten := by
    calc literals tokens = literals (tokens.take (varcount tokens) ++ tokens.drop (varcount tokens)) := by
          rw [List.take_append_drop]
      _ = literals (tokens.drop (varcount tokens)) := by rw [literals_append, h, List.nil_append]
      _ = ((tokens.map Token.iov).drop (varcount tokens)).flatten := by rw [literals, List.map_drop]
  rw [interpolations_iov hx, List.flatten_append, hvalues, ← hliterals]
  rfl

/-- an instring of these tokens -/
def made (tokens : List Token) : Instring Num := ⟨tokens, tokens.map Token.iov, fun _ => ⟨.unknown, none⟩, none⟩

theorem made_made (tokens : List Token) : Made tokens (made tokens : Instring Num) := ⟨rfl, rfl⟩

theorem flatten_empty {l : List ℕ} {f : ℕ → Str} (h : ∀ p ∈ l, f p = []) : (l.map f).flatten = [] := by
  rw [List.flatten_eq_nil_iff]
  intro s hs
  obtain ⟨p, hp, rfl⟩ := List.mem_map.1 hs
  exact h p hp

/-- all variables are empty: the tokens with the number of a variable are overwritten -/
theorem take_of_interpolated {tokens : List Token} {reg : Refs.Table Str}
    (h : Interpolated tokens [fun _ => some []] (interpolations [fun _ => some []] reg (made tokens : Instring Num)).2) :
    literals (tokens.take (varcount tokens)) = [] := by
  have hvalues : ((List.range (varcount tokens)).map fun p =>
      (reported [fun _ => some []] p).getD ((tokens.map Token.iov).getD p [])).flatten = [] := flatten_empty fun p _ => rfl
  unfold Interpolated text at h
  rw [interpolations_iov (made_made tokens), List.flatten_append, hvalues, List.nil_append, pieces_quiet fun p _ => rfl,
    ← List.map_drop] at h
  have hsplit : literals (tokens.drop (varcount tokens)) =
      literals (tokens.take (varcount tokens)) ++ literals (tokens.drop (varcount tokens)) := by
    rw [← literals_append, List.take_append_drop]
    exact h
  exact List.self_eq_append_left.1 hsplit

/-- only the last variable has a value -/
def last_value (n : ℕ) (c : Char) (j : ℕ) : Option Str := some (if j = n then [c] else [])

theorem front_of_interpolated {front back : List Token} {reg : Refs.Table Str} {c : Char} (hback : varcount back = 0)
    (htake : literals ((front ++ .var :: back).take (varcount (front ++ .var :: back))) = [])
    (h : Interpolated (front ++ .var :: back) [last_value (varcount front) c]
      (interpolations [last_value (varcount front) c] reg (made (front ++ .var :: back) : Instring Num)).2) :
    literals front ++ c :: literals back = c :: (literals front ++ literals back) := by
  have hcount : varcount (front ++ .var :: back) = varcount front + 1 := by
    rw [varcount_append, varcount_var, hback]
  have hlatest : ∀ j, latest [last_value (varcount front) c] j = if j = varcount front then [c] else [] := fun j => rfl
  unfold Interpolated text at h
  rw [flatten_interpolations (made_made _) htake, valuesFrom, hcount, ← List.range_eq_range', List.range_succ, List.map_append,
    List.flatten_append, flatten_empty, List.nil_append, pieces_append, List.flatten_append, pieces_quiet, pieces,
    List.flatten_cons, pieces_quiet, literals_append, literals_cons, List.map_singleton, List.flatten_singleton] at h
  · simp only [hlatest, Nat.zero_add, if_true, Token.iov, List.nil_append, List.singleton_append] at h
    exact h.symm
  · intro k hk
    rw [hback] at hk
    exact absurd hk (Nat.not_lt_zero k)
  · intro k hk
    rw [hlatest, if_neg (by omega)]
  · intro p hp
    rw [hlatest, if_neg (List.mem_range.1 hp).ne]

/-- another character -/
def other (c : Char) : Char := if c = 'x' then 'y' else 'x'

theorem other_ne (c : Char) : c ≠ other c := by
  unfold other
  split_ifs with h
  · rw [h]
    decide
  · exact h

/-- **Interpolation.** After any interpolations with any results the iovecs hold the text, if and only if no literal with text
in it stands ahead of a variable. -/
theorem interpolated_iff (tokens : List Token) :
    (∀ (evals : List (ℕ → Option Str)) (reg : Refs.Table Str) (x : Instring Num), Made tokens x →
      Interpolated tokens evals (interpolations evals reg x).2) ↔ literalsLast tokens := by
  constructor
  · intro h
    let reg : Refs.Table Str := ⟨0, fun _ => none, []⟩
    rcases Nat.eq_zero_or_pos (varcount tokens) with hzero | hpos
    · exact literalsLast_of_zero hzero
    · have htake := take_of_interpolated (h _ reg (made tokens) ⟨rfl, rfl⟩)
      obtain ⟨front, back, rfl, hback⟩ := last_variable hpos
      apply literalsLast_of_front _ hback
      cases hfront : literals front with
      | nil => rfl
      | cons a rest =>
        have heq := front_of_interpolated (c := other a) hback htake (h _ reg (made _) ⟨rfl, rfl⟩)
        rw [hfront] at heq
        exact absurd (List.cons.inj heq).1 (other_ne a)
  · intro h evals reg x hx
    unfold Interpolated text
    rw [flatten_interpolations hx (literals_take h le_rfl), pieces_literalsLast _ 0 h]

/-- **A variable behind a literal.** `"a$x"`, with the value b, is `"b"`. -/
theorem misplaced_value : ∃ x : Instring Unit, Made [.literal ['a'], .var] x ∧
    (interpolations [fun _ => some ['b']] ⟨0, fun _ => none, []⟩ x).2.iov = [['b'], []] ∧
    ¬ Interpolated [.literal ['a'], .var] [fun _ => some ['b']]
      (interpolations [fun _ => some ['b']] ⟨0, fun _ => none, []⟩ x).2 := by
  refine ⟨made _, made_made _, rfl, ?_⟩
  unfold Interpolated
  decide

end Shuttlesock.Instrings
