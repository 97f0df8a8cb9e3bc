/-
What a token depends on: its own text, and that a space comes next where one did.

A token is read from the start of a text v ++ b and lies in v. With another text x behind v, which starts with a space, it is read
the same. The exception is a value that starts like a variable and is none: the brackets of the variable may reach behind v.

Results:
- `lex_block_local`, `lex_setting_local`: the tokens in a block and in a setting.
- `lex_block_len`, `lex_setting_len`, `body_close_len`: a token is not longer than the text, and `lex_block_pos`, `lex_setting_pos`: it
is not empty.
-/
import Mathlib.Tactic
import Shuttlesock.Config.Reader

namespace Shuttlesock.Reader

open Shuttlesock.Parser

/-! ## Spaces -/

/-- the text starts with a space -/
def Spaced (x : Str) : Prop := ∃ c t, x = c :: t ∧ blank c = true

section Strings

variable {v b x : Str} {p : Char → Bool}

theorem Spaced.not {x : Str} (h : Spaced x) (hp : ∀ c, blank c = true → p c = false) : ∀ c ∈ x.head?, p c = false := by
  obtain ⟨c, t, rfl, hc⟩ := h
  intro d hd
  cases hd
  exact hp c hc

theorem takeWhile_local (h : ((v ++ b).takeWhile p).length ≤ v.length) (hx : ∀ c ∈ x.head?, p c = false) :
    (v ++ x).takeWhile p = (v ++ b).takeWhile p := by
  induction v with
  | nil =>
    have hnil := List.eq_nil_of_length_eq_zero (Nat.le_zero.1 h)
    rw [hnil]
    cases x with
    | nil => rfl
    | cons c t => exact List.takeWhile_cons_of_neg (by rw [hx c rfl]; exact Bool.false_ne_true)
  | cons c v ih =>
    rw [List.cons_append] at h ⊢
    by_cases hc : p c = true
    · rw [List.takeWhile_cons_of_pos hc] at h
      rw [List.takeWhile_cons_of_pos hc, List.cons_append, List.takeWhile_cons_of_pos hc,
        ih (Nat.le_of_succ_le_succ h)]
    · rw [List.takeWhile_cons_of_neg hc, List.cons_append, List.takeWhile_cons_of_neg hc]

theorem some_of_local {m : Str} (h : some_of p (v ++ b) = some m) (hlen : m.length ≤ v.length)
    (hx : ∀ c ∈ x.head?, p c = false) : some_of p (v ++ x) = some m := by
  have hm : (v ++ b).takeWhile p = m := by
    unfold some_of at h
    split at h
    · cases h
    · exact Option.some.inj h
  have htake := takeWhile_local (by rw [hm]; exact hlen) hx
  unfold some_of at h ⊢
  rw [htake]
  exact h

theorem some_of_len {str m : Str} (h : some_of p str = some m) : m.length ≤ str.length := by
  have hsplit := congrArg List.length ( some_of_prefix h).1
  rw [List.length_append] at hsplit
  omega

theorem head_local {v : Str} (hv : v ≠ []) (b x : Str) : (v ++ x).head? = (v ++ b).head? := by
  rw [List.head?_append_of_ne_nil _ hv, List.head?_append_of_ne_nil _ hv]

theorem drop_local {n : ℕ} (hn : n ≤ v.length) : (v ++ b).drop n = v.drop n ++ b := List.drop_append_of_le_length hn

end Strings

/-! ## Names and plain values -/

section Plain

variable {v b x : Str} {l : Lexeme}

theorem isspace_eq_false {p : Char → Bool} (hp : ∀ c, isspace c = true → p c = false) (c : Char) (hc : blank c = true) : p c = false :=
  hp c (isspace_of_blank hc)

theorem lex_name_len (m : Str) : (lex_name m).len ≤ m.length := by
  unfold lex_name
  split
  · cases qualified_name m with
    | none => exact Nat.zero_le _
    | some r => exact Nat.le_refl _
  · exact Nat.le_refl _

theorem lex_name_eq_len {m : Str} (h : lex_name m ≠ .wrong) : (lex_name m).len = m.length := by
  unfold lex_name at h ⊢
  split at h
  · rename_i hcolon
    rw [if_pos hcolon]
    cases hq : qualified_name m with
    | none =>
      rw [hq] at h
      exact absurd rfl h
    | some r => rfl
  · rename_i hcolon
    rw [if_neg hcolon]
    rfl

theorem lex_block_local (h : lex_block (v ++ b) = l) (hl : l ≠ .wrong) (hlen : l.len ≤ v.length) (hv : v ≠ []) (hx : Spaced x) :
    lex_block (v ++ x) = l := by
  have hhead := head_local hv b x
  unfold lex_block at h ⊢
  rw [hhead]
  split_ifs at h ⊢
  · exact h
  · exact absurd h.symm hl
  cases hm : some_of (fun c => !isspace c && c ≠ '$' && c ≠ ';') (v ++ b) with
  | none =>
    rw [hm] at h
    exact absurd h.symm hl
  | some m =>
    rw [hm] at h
    have hname : lex_name m = l := h
    have hmlen : m.length ≤ v.length := by
      rw [← lex_name_eq_len (hname ▸ hl), hname]
      exact hlen
    rw [some_of_local hm hmlen (hx.not (isspace_eq_false fun c hc => by rw [hc]; rfl))]
    exact h

theorem lex_block_len {str : Str} (hne : str ≠ []) : (lex_block str).len ≤ str.length := by
  have hpos := List.length_pos_of_ne_nil hne
  unfold lex_block
  split
  · exact hpos
  split
  · exact Nat.zero_le _
  cases hm : some_of (fun c => !isspace c && c ≠ '$' && c ≠ ';') str with
  | none => exact Nat.zero_le _
  | some m => exact (lex_name_len m).trans (some_of_len hm)

theorem lex_plain_local (h : lex_plain (v ++ b) = l) (hl : l ≠ .wrong) (hlen : l.len ≤ v.length) (hv : v ≠ []) (hx : Spaced x) :
    lex_plain (v ++ x) = l := by
  have hhead := head_local hv b x
  unfold lex_plain at h ⊢
  rw [hhead]
  split_ifs at h ⊢
  · exact h
  · exact h
  · exact h
  cases hm : some_of (fun c => !isspace c && c ≠ ';') (v ++ b) with
  | none =>
    rw [hm] at h
    exact absurd h.symm hl
  | some m =>
    rw [hm] at h
    have hmlen : m.length ≤ v.length := by
      have hl : Lexeme.len (.value ⟨.value, m, none⟩ m.length) = l.len := congrArg Lexeme.len h
      exact hl.le.trans hlen
    rw [some_of_local hm hmlen (hx.not (isspace_eq_false fun c hc => by rw [hc]; rfl))]
    exact h

theorem lex_plain_len {str : Str} (hne : str ≠ []) : (lex_plain str).len ≤ str.length := by
  have hpos := List.length_pos_of_ne_nil hne
  unfold lex_plain
  split
  · exact hpos
  split
  · exact Nat.zero_le _
  split
  · exact hpos
  cases hm : some_of (fun c => !isspace c && c ≠ ';') str with
  | none => exact Nat.zero_le _
  | some m => exact some_of_len hm

end Plain

/-! ## Strings and heredocs -/

section Quoted

variable {v b x : Str} {l : Lexeme}

/-- the text up to a quote, with what was read of it before -/
theorem unquote_local {q : Char} {acc text : Str} (h : unquote q acc (v ++ b) = some text)
    (hlen : text.length + 1 ≤ acc.length + v.length) : unquote q acc (v ++ x) = some text := by
  induction v generalizing acc with
  | nil =>
    have hge : ∀ {acc str text}, unquote q acc str = some text → acc.length ≤ text.length := by
      intro acc str
      induction str generalizing acc with
      | nil => nofun
      | cons c str ih =>
        intro text h
        unfold unquote at h
        split at h
        · cases h
          exact Nat.le_refl _
        · have hle := ih h
          rw [List.length_append] at hle
          omega
    have hle := hge h
    rw [List.length_nil] at hlen
    omega
  | cons c v ih =>
    rw [List.cons_append] at h ⊢
    unfold unquote at h ⊢
    split at h
    · rename_i hq
      rw [if_pos hq]
      exact h
    · rename_i hq
      rw [if_neg hq]
      refine ih h ?_
      rw [List.length_append, List.length_singleton]
      rw [List.length_cons] at hlen
      omega

theorem unquote_len {q : Char} {acc str text : Str} (h : unquote q acc str = some text) :
    text.length + 1 ≤ acc.length + str.length := by
  induction str generalizing acc with
  | nil => cases h
  | cons c str ih =>
    unfold unquote at h
    split at h
    · cases h
      rw [List.length_cons]
      omega
    · have hle := ih h
      rw [List.length_append, List.length_singleton] at hle
      rw [List.length_cons]
      omega

theorem match_string_none (hv : v ≠ []) (h : match_string (v ++ b) = none) : match_string (v ++ x) = none := by
  cases v with
  | nil => exact absurd rfl hv
  | cons c v =>
    rw [List.cons_append] at h ⊢
    unfold match_string at h ⊢
    dsimp only at h ⊢
    split_ifs at h ⊢
    rfl

theorem match_string_local {text : Str} {q : Char} (hv : v ≠ []) (h : match_string (v ++ b) = some (some text, q))
    (hlen : text.length + 2 ≤ v.length) : match_string (v ++ x) = some (some text, q) := by
  cases v with
  | nil => exact absurd rfl hv
  | cons c v =>
    rw [List.cons_append] at h ⊢
    unfold match_string at h ⊢
    dsimp only at h ⊢
    split at h
    · rename_i hq
      rw [if_pos hq]
      obtain ⟨hu, rfl⟩ := Prod.mk.inj (Option.some.inj h)
      rw [unquote_local hu (by rw [List.length_nil]; rw [List.length_cons] at hlen; omega)]
    · cases h

theorem match_string_len {str text : Str} {q : Char} (h : match_string str = some (some text, q)) : text.length + 2 ≤ str.length := by
  unfold match_string at h
  split at h
  · split at h
    · obtain ⟨hu, -⟩ := Prod.mk.inj (Option.some.inj h)
      have hle := unquote_len hu
      rw [List.length_nil] at hle
      rw [List.length_cons]
      omega
    · cases h
  · cases h

theorem heredoc_type_none {str : Str} : heredoc_type str = none ↔ ∀ t, str ≠ '<' :: '<' :: t := by
  unfold heredoc_type
  split
  · exact iff_of_false nofun fun h => h _ rfl
  · exact iff_of_false nofun fun h => h _ rfl
  · exact iff_of_false nofun fun h => h _ rfl
  · rename_i hno
    exact iff_of_true rfl hno

theorem heredoc_type_three (c d e : Char) (t t' : Str) : heredoc_type (c :: d :: e :: t) = heredoc_type (c :: d :: e :: t') := by
  by_cases hc : c = '<' ∧ d = '<'
  · obtain ⟨rfl, rfl⟩ := hc
    by_cases hdash : e = '-'
    · rw [hdash]
      rfl
    by_cases htilde : e = '~'
    · rw [htilde]
      rfl
    have hplain : ∀ t, heredoc_type ('<' :: '<' :: e :: t) = some (.plain, 2) := by
      intro t
      unfold heredoc_type
      split
      · rename_i heq
        exact absurd (List.cons.inj (List.cons.inj (List.cons.inj heq).2).2).1 hdash
      · rename_i heq
        exact absurd (List.cons.inj (List.cons.inj (List.cons.inj heq).2).2).1 htilde
      · rfl
      · rename_i hno
        exact absurd rfl (hno _)
    rw [hplain, hplain]
  · have hnone : ∀ t, heredoc_type (c :: d :: e :: t) = none := by
      refine fun t => heredoc_type_none.2 fun t' heq => hc ?_
      exact ⟨(List.cons.inj heq).1, (List.cons.inj (List.cons.inj heq).2).1⟩
    rw [hnone, hnone]

/-- the `<<` and what follows it, when a label does -/
theorem heredoc_type_local (hlen : 3 ≤ v.length) (b x : Str) : heredoc_type (v ++ x) = heredoc_type (v ++ b) := by
  match v, hlen with
  | c :: d :: e :: w, _ => exact heredoc_type_three c d e _ _

theorem heredoc_type_absent (hv : v ≠ []) (hx : Spaced x) (h : heredoc_type (v ++ b) = none) : heredoc_type (v ++ x) = none := by
  rw [heredoc_type_none] at h ⊢
  intro t heq
  match v, hv with
  | [c], _ =>
    obtain ⟨d, t', rfl, hd⟩ := hx
    have hlt : d = '<' := (List.cons.inj (List.cons.inj heq).2).1
    rw [hlt] at hd
    exact absurd hd (by decide)
  | c :: d :: w, _ =>
    refine h (w ++ b) ?_
    obtain ⟨hc, heq⟩ := List.cons.inj heq
    obtain ⟨hd, -⟩ := List.cons.inj heq
    rw [hc, hd]
    rfl

theorem heredoc_type_len {str : Str} {type : HeredocType} {len : ℕ} (h : heredoc_type str = some (type, len)) :
    2 ≤ len ∧ len ≤ str.length := by
  unfold heredoc_type at h
  split at h
  · cases h
    simp only [List.length_cons]
    omega
  · cases h
    simp only [List.length_cons]
    omega
  · cases h
    simp only [List.length_cons]
    omega
  · cases h

theorem lex_label_len {type : HeredocType} {label : Str} {len : ℕ} (h : lex_label type label len ≠ .wrong) :
    label ≠ [] ∧ (lex_label type label len).len = len := by
  unfold lex_label at h ⊢
  split at h
  · exact absurd rfl h
  · rename_i hlabel
    rw [if_neg hlabel]
    exact ⟨hlabel, rfl⟩

theorem lex_heredoc_lt {type : HeredocType} {len : ℕ} {str : Str} (hl : lex_heredoc type len str ≠ .wrong) :
    len < (lex_heredoc type len str).len := by
  unfold lex_heredoc at hl ⊢
  cases hm : match_string str with
  | none =>
    rw [hm] at hl
    dsimp only at hl ⊢
    obtain ⟨hlabel, heq⟩ := lex_label_len hl
    rw [heq]
    exact Nat.lt_add_of_pos_right (List.length_pos_of_ne_nil hlabel)
  | some r =>
    obtain ⟨label, q⟩ := r
    rw [hm] at hl
    cases label with
    | none => exact absurd rfl hl
    | some label =>
      dsimp only at hl ⊢
      rw [(lex_label_len hl).2]
      omega

/-- the label, when it lies in the text -/
theorem lex_heredoc_local {type : HeredocType} {len : ℕ} (h : lex_heredoc type len (v ++ b) = l) (hl : l ≠ .wrong)
    (hlen : l.len ≤ len + v.length) (hx : Spaced x) : lex_heredoc type len (v ++ x) = l := by
  have hlt := lex_heredoc_lt (h ▸ hl)
  rw [h] at hlt
  have hv : v ≠ [] := by
    rintro rfl
    rw [List.length_nil] at hlen
    omega
  unfold lex_heredoc at h ⊢
  cases hm : match_string (v ++ b) with
  | none =>
    rw [hm] at h
    dsimp only at h
    have heq := (lex_label_len (h ▸ hl)).2
    rw [h] at heq
    have htake := takeWhile_local (v := v) (b := b) (x := x) (p := fun c => !isspace c && c ≠ ';') (by omega)
      (hx.not (isspace_eq_false fun c hc => by rw [hc]; rfl))
    rw [match_string_none hv hm]
    dsimp only
    rw [htake]
    exact h
  | some r =>
    obtain ⟨label, q⟩ := r
    rw [hm] at h
    cases label with
    | none => exact absurd h.symm hl
    | some label =>
      dsimp only at h
      have heq := (lex_label_len (h ▸ hl)).2
      rw [h] at heq
      rw [match_string_local hv hm (by omega)]
      exact h

theorem lex_heredoc_len (type : HeredocType) (len : ℕ) (str : Str) : (lex_heredoc type len str).len ≤ len + str.length := by
  have hlabel : ∀ label n, n ≤ len + str.length → (lex_label type label n).len ≤ len + str.length := by
    intro label n hn
    unfold lex_label
    split
    · exact Nat.zero_le _
    · exact hn
  unfold lex_heredoc
  split
  · exact Nat.zero_le _
  · rename_i label q hm
    exact hlabel _ _ (Nat.add_le_add_left (match_string_len hm) _)
  · exact hlabel _ _ (Nat.add_le_add_left (List.takeWhile_sublist _).length_le _)

end Quoted

/-! ## Variables -/

section Variables

variable {v b x : Str}

theorem parens_loop_prefix {o c e : Char} {st : ℕ × Bool} {str m : Str} (h : parens_loop o c e st str = some m) :
    m ≠ [] ∧ ∃ r, str = m ++ r := by
  induction str generalizing st m with
  | nil => cases h
  | cons d str ih =>
    unfold parens_loop at h
    dsimp only at h
    split at h
    · cases h
      exact ⟨List.cons_ne_nil _ _, str, rfl⟩
    · obtain ⟨m', hm', rfl⟩ := Option.map_eq_some_iff.1 h
      obtain ⟨-, r, rfl⟩ := ih hm'
      exact ⟨List.cons_ne_nil _ _, r, rfl⟩

theorem parens_loop_local {o c e : Char} {st : ℕ × Bool} {m : Str} (h : parens_loop o c e st (v ++ b) = some m)
    (hlen : m.length ≤ v.length) : parens_loop o c e st (v ++ x) = some m := by
  induction v generalizing st m with
  | nil => exact absurd (List.eq_nil_of_length_eq_zero (Nat.le_zero.1 hlen)) ( parens_loop_prefix h).1
  | cons d v ih =>
    rw [List.cons_append] at h ⊢
    unfold parens_loop at h ⊢
    dsimp only at h ⊢
    split_ifs at h ⊢
    · exact h
    · obtain ⟨m', hm', rfl⟩ := Option.map_eq_some_iff.1 h
      rw [ih hm' (Nat.le_of_succ_le_succ hlen)]
      rfl

theorem variable_params_other (n : ℕ) {str : Str} (h : str.head? ≠ some '[') : variable_params n str = some ([], 0) := by
  unfold variable_params
  split
  · exact absurd rfl h
  · rfl

theorem variable_params_bracket (n : ℕ) (str : Str) : variable_params (n + 1) ('[' :: str) =
    (match_parens '[' ']' ('[' :: str)).bind fun bracketed =>
      (variable_params n (('[' :: str).drop bracketed.length)).map fun r => (inner bracketed :: r.1, bracketed.length + r.2) := rfl

/-- the parameters, with any fuel that is enough -/
theorem variable_params_local {n n' : ℕ} {params : List Str} {k : ℕ} (h : variable_params n (v ++ b) = some (params, k))
    (hn : (v ++ b).length ≤ n) (hn' : (v ++ x).length ≤ n') (hk : k ≤ v.length) (hx : Spaced x) :
    variable_params n' (v ++ x) = some (params, k) := by
  induction n generalizing v n' params k with
  | zero =>
    obtain ⟨rfl, rfl⟩ := List.append_eq_nil_iff.1 (List.eq_nil_of_length_eq_zero (Nat.le_zero.1 hn))
    cases h
    obtain ⟨d, t, rfl, hd⟩ := hx
    refine variable_params_other n' fun heq => ?_
    rw [Option.some.inj heq] at hd
    exact absurd hd (by decide)
  | succ n ih =>
    by_cases hhead : (v ++ b).head? = some '['
    · obtain ⟨str, hstr⟩ : ∃ str, v ++ b = '[' :: str := List.head?_eq_some_iff.1 hhead
      have h' := h
      rw [hstr, variable_params_bracket] at h'
      obtain ⟨bracketed, hm, hmap⟩ := Option.bind_eq_some_iff.1 h'
      obtain ⟨⟨params', k'⟩, hrest, heq⟩ := Option.map_eq_some_iff.1 hmap
      cases heq
      have hne := List.length_pos_of_ne_nil ( parens_loop_prefix hm).1
      have hle : bracketed.length ≤ v.length := by
        dsimp only at hk
        omega
      obtain ⟨c, w, rfl⟩ := List.exists_cons_of_length_pos (Nat.lt_of_lt_of_le hne hle)
      obtain ⟨rfl, rfl⟩ := List.cons.inj hstr
      obtain ⟨n'', rfl⟩ := Nat.exists_eq_succ_of_ne_zero (n := n') (by rw [List.length_append, List.length_cons] at hn'; omega)
      rw [List.cons_append, variable_params_bracket, ← List.cons_append]
      have hm' : match_parens '[' ']' (('[' :: w) ++ x) = some bracketed := parens_loop_local hm hle
      rw [hm', Option.bind_some, drop_local hle]
      have hdrop : variable_params n (('[' :: w).drop bracketed.length ++ b) = some (params', k') := by
        rw [← drop_local hle]
        exact hrest
      rw [ih hdrop ?_ ?_ ?_]
      · rfl
      · simp only [List.length_append, List.length_drop] at hn ⊢
        omega
      · simp only [List.length_append, List.length_drop] at hn' ⊢
        omega
      · rw [List.length_drop]
        dsimp only at hk
        omega
    · rw [variable_params_other _ hhead] at h
      cases h
      refine variable_params_other n' fun heq => ?_
      cases v with
      | nil =>
        obtain ⟨d, t, rfl, hd⟩ := hx
        rw [Option.some.inj heq] at hd
        exact absurd hd (by decide)
      | cons c v => exact hhead heq

/-- `$`, a name and its parameters -/
theorem simple_variable_token {t : Str} {name : Str} {params : List Str} {len : ℕ} :
    simple_variable ('$' :: t) = .token name params len ↔ some_of isword t = some name ∧
      ∃ k, variable_params t.length (t.drop name.length) = some (params, k) ∧ len = name.length + 1 + k := by
  rw [simple_variable]
  cases hm : some_of isword t with
  | none => exact iff_of_false nofun fun h => by cases h.1
  | some m =>
    dsimp only
    cases hp : variable_params t.length (t.drop m.length) with
    | none =>
      refine iff_of_false nofun ?_
      rintro ⟨heq, k, hk, -⟩
      obtain rfl := Option.some.inj heq
      rw [hp] at hk
      cases hk
    | some r =>
      constructor
      · intro h
        cases h
        exact ⟨rfl, r.2, hp, rfl⟩
      · rintro ⟨heq, k, hk, rfl⟩
        obtain rfl := Option.some.inj heq
        obtain rfl := Option.some.inj (hp.symm.trans hk)
        rfl

theorem simple_variable_dollar {str : Str} {name : Str} {params : List Str} {len : ℕ} (h : simple_variable str = .token name params len) :
    ∃ t, str = '$' :: t := by
  unfold simple_variable at h
  split at h
  · exact ⟨_, rfl⟩
  · cases h

theorem isword_of_blank {c : Char} (h : blank c = true) : isword c = false := by
  have hmem : c ∈ [' ', '\t', '\r', '\n'] := of_decide_eq_true h
  fin_cases hmem <;> decide

theorem simple_variable_local {name : Str} {params : List Str} {len : ℕ} (h : simple_variable (v ++ b) = .token name params len)
    (hlen : len ≤ v.length) (hx : Spaced x) : simple_variable (v ++ x) = .token name params len := by
  obtain ⟨t, ht⟩ := simple_variable_dollar h
  have htoken := h
  rw [ht, simple_variable_token] at htoken
  obtain ⟨hname, k, hk, rfl⟩ := htoken
  obtain ⟨c, w, rfl⟩ := List.exists_cons_of_length_pos (l := v) (by omega)
  obtain ⟨rfl, rfl⟩ := List.cons.inj ht
  rw [List.length_cons] at hlen
  change some_of isword (w ++ b) = some name at hname
  change variable_params (w ++ b).length ((w ++ b).drop name.length) = some (params, k) at hk
  have hle : name.length ≤ w.length := by omega
  rw [drop_local hle] at hk
  refine simple_variable_token.2 ⟨some_of_local hname hle (hx.not fun c => isword_of_blank), k, ?_, rfl⟩
  change variable_params (w ++ x).length ((w ++ x).drop name.length) = some (params, k)
  rw [drop_local hle]
  refine variable_params_local hk ?_ ?_ ?_ hx
  · simp only [List.length_append, List.length_drop]
    omega
  · simp only [List.length_append, List.length_drop]
    omega
  · rw [List.length_drop]
    omega

/-- a variable in braces depends on what is in the braces -/
theorem bracketed_variable_congr {t t' : Str} (h : match_parens '\x7b' '\x7d' ('\x7b' :: t') = match_parens '\x7b' '\x7d' ('\x7b' :: t)) :
    bracketed_variable ('$' :: '\x7b' :: t') = bracketed_variable ('$' :: '\x7b' :: t) := by
  rw [bracketed_variable, bracketed_variable, h]

theorem bracketed_variable_braces {str : Str} {name : Str} {params : List Str} {len : ℕ}
    (h : bracketed_variable str = .token name params len) :
    ∃ t m, str = '$' :: '\x7b' :: t ∧ match_parens '\x7b' '\x7d' ('\x7b' :: t) = some m ∧ len = m.length + 1 := by
  unfold bracketed_variable at h
  split at h
  · rename_i t
    cases hm : match_parens '\x7b' '\x7d' ('\x7b' :: t) with
    | none =>
      rw [hm] at h
      cases h
    | some m =>
      rw [hm] at h
      dsimp only at h
      split at h
      · cases h
      · split at h
        · cases h
        · cases h
          exact ⟨t, m, rfl, hm, rfl⟩
      · cases h
  · cases h

theorem bracketed_variable_local {name : Str} {params : List Str} {len : ℕ} (h : bracketed_variable (v ++ b) = .token name params len)
    (hlen : len ≤ v.length) : bracketed_variable (v ++ x) = .token name params len := by
  obtain ⟨t, m, ht, hm, rfl⟩ := bracketed_variable_braces h
  have hpos := List.length_pos_of_ne_nil ( parens_loop_prefix hm).1
  obtain ⟨c, w, rfl⟩ := List.exists_cons_of_length_pos (l := v) (by omega)
  obtain ⟨rfl, htail⟩ := List.cons.inj ht
  rw [List.length_cons] at hlen
  obtain ⟨d, u, rfl⟩ := List.exists_cons_of_length_pos (l := w) (by omega)
  obtain ⟨rfl, rfl⟩ := List.cons.inj htail
  have hlocal : match_parens '\x7b' '\x7d' (('\x7b' :: u) ++ x) = some m := parens_loop_local (v := '\x7b' :: u) (b := b) hm (by omega)
  exact (bracketed_variable_congr (hlocal.trans hm.symm)).trans h

theorem parse_variable_local {name : Str} {params : List Str} {len : ℕ} (h : parse_variable (v ++ b) = .token name params len)
    (hlen : len ≤ v.length) (hx : Spaced x) : parse_variable (v ++ x) = .token name params len := by
  unfold parse_variable at h ⊢
  cases hs : simple_variable (v ++ b) with
  | absent =>
    rw [hs] at h
    have hlocal := bracketed_variable_local (x := x) h hlen
    obtain ⟨t, m, ht, -⟩ := bracketed_variable_braces hlocal
    have habsent : simple_variable (v ++ x) = .absent := by
      rw [ht]
      exact simple_variable_brace t
    rw [habsent]
    exact hlocal
  | token name' params' len' =>
    rw [hs] at h
    cases h
    rw [simple_variable_local hs hlen hx]
  | invalid e =>
    rw [hs] at h
    cases h
  | raise =>
    rw [hs] at h
    cases h

theorem lex_variable_some {str : Str} {l : Lexeme} (h : lex_variable str = some l) (hl : l ≠ .wrong) :
    ∃ name params len nextchar, parse_variable str = .token name params len ∧ (str.drop len).head? = some nextchar ∧
      (isspace nextchar ∨ nextchar = ';') ∧ l = .value ⟨.var, str.take len, none⟩ len := by
  unfold lex_variable at h
  cases hp : parse_variable str with
  | absent =>
    rw [hp] at h
    cases h
  | token name params len =>
    rw [hp] at h
    obtain ⟨nextchar, hnext, hval⟩ := Option.bind_eq_some_iff.1 h
    split at hval
    · rename_i hend
      cases hval
      exact ⟨name, params, len, nextchar, rfl, hnext, hend, rfl⟩
    · cases hval
  | invalid e =>
    rw [hp] at h
    cases h
    exact absurd rfl hl
  | raise =>
    rw [hp] at h
    cases h
    exact absurd rfl hl

theorem lex_variable_of {str : Str} {name : Str} {params : List Str} {len : ℕ} {nextchar : Char}
    (hp : parse_variable str = .token name params len) (hnext : (str.drop len).head? = some nextchar)
    (hend : isspace nextchar ∨ nextchar = ';') : lex_variable str = some (.value ⟨.var, str.take len, none⟩ len) := by
  unfold lex_variable
  rw [hp]
  dsimp only
  rw [hnext, Option.bind_some, if_pos hend]

theorem lex_variable_local {l : Lexeme} (h : lex_variable (v ++ b) = some l) (hl : l ≠ .wrong) (hlen : l.len ≤ v.length)
    (hx : Spaced x) : lex_variable (v ++ x) = some l := by
  obtain ⟨name, params, len, nextchar, hp, hnext, hend, rfl⟩ := lex_variable_some h hl
  change len ≤ v.length at hlen
  have htake : (v ++ b).take len = (v ++ x).take len := by
    rw [List.take_append_of_le_length hlen, List.take_append_of_le_length hlen]
  rw [htake]
  have hp' := parse_variable_local hp hlen hx
  rw [drop_local hlen] at hnext
  cases hd : v.drop len with
  | nil =>
    obtain ⟨c, t, rfl, hc⟩ := hx
    refine lex_variable_of hp' ?_ (.inl (isspace_of_blank hc))
    rw [drop_local hlen, hd]
    rfl
  | cons c w =>
    refine lex_variable_of hp' ?_ hend
    rw [drop_local hlen, hd]
    rw [hd] at hnext
    exact hnext

theorem lex_variable_len {str : Str} {l : Lexeme} (h : lex_variable str = some l) : l.len ≤ str.length := by
  by_cases hl : l = .wrong
  · rw [hl]
    exact Nat.zero_le _
  obtain ⟨name, params, len, nextchar, -, hnext, -, rfl⟩ := lex_variable_some h hl
  have hne : str.drop len ≠ [] := by
    intro hnil
    rw [hnil] at hnext
    cases hnext
  exact (List.length_lt_of_drop_ne_nil hne).le

end Variables

/-! ## Bodies of heredocs -/

theorem label_end_len {type : HeredocType} {label str : Str} {n : ℕ} (h : label_end type label str = some n) : n ≤ str.length := by
  unfold label_end at h
  dsimp only at h
  obtain ⟨k, hfind, rfl⟩ := Option.map_eq_some_iff.1 h
  have hlabel : label.isPrefixOf (str.drop k) = true := List.find?_some (p := fun k => label.isPrefixOf (str.drop k)) hfind
  have hprefix := (List.isPrefixOf_iff_prefix.1 hlabel).length_le
  have hk := List.mem_range.1 (List.mem_reverse.1 (List.mem_of_find?_eq_some hfind))
  have hspaces : (if type = .plain then 0 else (str.takeWhile (· ∈ ['\t', ' '])).length) ≤ str.length := by
    split
    · exact Nat.zero_le _
    · exact (List.takeWhile_sublist _).length_le
  rw [List.length_drop] at hprefix
  omega

theorem body_close_len {type : HeredocType} {label str : Str} {len : ℕ} (h : body_close type label str = some len) :
    len ≤ str.length := by
  unfold body_close at h
  obtain ⟨i, hi, hclose⟩ := List.exists_of_findSome?_eq_some h
  have hlt := List.mem_range.1 (List.mem_reverse.1 hi)
  split at hclose
  · obtain ⟨n, hn, rfl⟩ := Option.map_eq_some_iff.1 hclose
    have hle := label_end_len hn
    rw [List.length_drop] at hle
    omega
  · cases hclose

/-! ## Settings -/

section Settings

variable {v b x : Str} {l : Lexeme}

/-- the token in a setting -/
theorem lex_setting_local (h : lex_setting (v ++ b) = l) (hl : l ≠ .wrong) (hlen : l.len ≤ v.length) (hv : v ≠ []) (hx : Spaced x)
    (hvariable : lex_variable (v ++ b) = none → lex_variable (v ++ x) = none) : lex_setting (v ++ x) = l := by
  unfold lex_setting at h
  cases htype : heredoc_type (v ++ b) with
  | some r =>
    obtain ⟨type, len⟩ := r
    rw [htype] at h
    dsimp only at h
    have hlt := lex_heredoc_lt (h ▸ hl)
    rw [h] at hlt
    have hlarge := (heredoc_type_len htype).1
    have hle : len ≤ v.length := by omega
    unfold lex_setting
    rw [heredoc_type_local (by omega) b x, htype]
    dsimp only
    rw [drop_local hle] at h ⊢
    refine lex_heredoc_local h hl ?_ hx
    rw [List.length_drop]
    omega
  | none =>
    rw [htype] at h
    dsimp only at h
    unfold lex_setting
    rw [heredoc_type_absent hv hx htype]
    dsimp only
    cases hm : match_string (v ++ b) with
    | some r =>
      obtain ⟨text, q⟩ := r
      rw [hm] at h
      cases text with
      | none => exact absurd h.symm hl
      | some text =>
        dsimp only at h
        subst h
        rw [match_string_local hv hm hlen]
    | none =>
      rw [hm] at h
      dsimp only at h
      rw [match_string_none hv hm]
      dsimp only
      cases hvar : lex_variable (v ++ b) with
      | none =>
        rw [hvar] at h
        rw [hvariable hvar]
        exact lex_plain_local h hl hlen hv hx
      | some l' =>
        rw [hvar] at h
        obtain rfl : l' = l := h
        rw [lex_variable_local hvar hl hlen hx]
        rfl

theorem lex_setting_len {str : Str} (hne : str ≠ []) : (lex_setting str).len ≤ str.length := by
  unfold lex_setting
  cases htype : heredoc_type str with
  | some r =>
    obtain ⟨type, len⟩ := r
    have hle := lex_heredoc_len type len (str.drop len)
    rw [List.length_drop] at hle
    have hlen := (heredoc_type_len htype).2
    dsimp only
    omega
  | none =>
    dsimp only
    cases hm : match_string str with
    | some r =>
      obtain ⟨text, q⟩ := r
      cases text with
      | none => exact Nat.zero_le _
      | some text => exact match_string_len hm
    | none =>
      dsimp only
      cases hvar : lex_variable str with
      | none => exact lex_plain_len hne
      | some l => exact lex_variable_len hvar

theorem lex_block_pos {str : Str} (h : lex_block str ≠ .wrong) : 0 < (lex_block str).len := by
  unfold lex_block at h ⊢
  split_ifs at h ⊢
  · exact Nat.one_pos
  · exact absurd rfl h
  cases hm : some_of (fun c => !isspace c && c ≠ '$' && c ≠ ';') str with
  | none =>
    rw [hm] at h
    exact absurd rfl h
  | some m =>
    rw [hm] at h
    exact (lex_name_eq_len h).symm ▸ List.length_pos_of_ne_nil (some_of_ne_nil hm)

theorem lex_setting_pos {str : Str} (h : lex_setting str ≠ .wrong) : 0 < (lex_setting str).len := by
  unfold lex_setting at h ⊢
  cases htype : heredoc_type str with
  | some r =>
    rw [htype] at h
    exact Nat.zero_lt_of_lt (lex_heredoc_lt h)
  | none =>
    rw [htype] at h
    dsimp only at h ⊢
    cases hm : match_string str with
    | some r =>
      obtain ⟨text, q⟩ := r
      rw [hm] at h
      cases text with
      | none => exact absurd rfl h
      | some text => exact Nat.succ_pos _
    | none =>
      rw [hm] at h
      dsimp only at h ⊢
      cases hvar : lex_variable str with
      | some l =>
        rw [hvar] at h
        obtain ⟨name, params, len, nextchar, hp, -, -, rfl⟩ := lex_variable_some hvar h
        exact parse_variable_pos hp
      | none =>
        rw [hvar] at h
        change lex_plain str ≠ .wrong at h
        change 0 < (lex_plain str).len
        unfold lex_plain at h ⊢
        split_ifs at h ⊢
        · exact Nat.one_pos
        · exact absurd rfl h
        · exact Nat.one_pos
        cases hplain : some_of (fun c => !isspace c && c ≠ ';') str with
        | none =>
          rw [hplain] at h
          exact absurd rfl h
        | some m => exact List.length_pos_of_ne_nil (some_of_ne_nil hplain)

end Settings

end Shuttlesock.Reader
