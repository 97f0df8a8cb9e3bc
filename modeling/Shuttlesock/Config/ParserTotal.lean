/-
Whether the parser of the configuration always answers.

Model: `Visits s t` says that a run from s reaches t, with the spaces and comments in front of the next token skipped. A state
is `Ok` if its stack is a chain of settings and blocks over the root.

Results:
- `answers_of_ok`: for every string the parser comes to an end, and it returns the root or an error exactly when it never
  reads a brace that closes the root block, and never a value that starts with a bracketed variable whose brace is not
  closed, or whose name is followed by a bracket that is not closed.
- `raises`: it raises a Lua error on a lone closing brace, and on an open bracketed variable.
-/
import Mathlib.Tactic
import Shuttlesock.Config.Parser

namespace Shuttlesock.Parser

/-! ## Outcomes -/

/-- no Lua error, and every state that is left has the property -/
def Outcome.All (P : State → Prop) : Outcome → Prop
  | .token s => P s
  | .no => True
  | .error _ _ => True
  | .raise => False

section All

variable {P Q : State → Prop} {r : Outcome} {s : State}

theorem Outcome.All.orElse {f : Unit → Outcome} (hr : r.All P) (hf : r = .no → (f ()).All P) : (r.orElse f).All P := by
  cases r with
  | no => exact hf rfl
  | token s => exact hr
  | error err s => trivial
  | raise => exact hr

theorem Outcome.All.bind {f : State → Outcome} (hr : r.All P) (hf : ∀ s, P s → (f s).All Q) : (r.bind f).All Q := by
  cases r with
  | token s => exact hf s hr
  | no => trivial
  | error err s => trivial
  | raise => exact hr

theorem Outcome.All.attempt {f : State → Outcome} (hr : r.All P) (hs : P s) (hf : ∀ s, P s → (f s).All Q) :
    (r.attempt s f).All Q := by
  cases r with
  | token s => exact hf s hr
  | no => exact hf s hs
  | error err s => trivial
  | raise => exact hr

theorem Outcome.All.mono (hr : r.All P) (h : ∀ s, P s → Q s) : r.All Q := by
  cases r with
  | token s => exact h s hr
  | no => trivial
  | error err s => trivial
  | raise => exact hr

theorem Outcome.all_assert {o : Option State} (h : ∃ s, o = some s ∧ P s) : (Outcome.assert o).All P := by
  obtain ⟨s, rfl, hs⟩ := h
  exact hs

end All

/-! ## The stack -/

/-- settings and blocks in turn, from the root on -/
inductive Open : List Chunk → Prop
  | root (first : ℕ) (tokens : List TokenType) (settings : List Setting) (h : Head) (tokens' : List TokenType) :
    Open [.block first tokens settings, .setting h tokens']
  | setting (h : Head) (tokens : List TokenType) {first : ℕ} {tokens' : List TokenType} {settings : List Setting}
    {stack : List Chunk} : Open (.block first tokens' settings :: stack) →
    Open (.setting h tokens :: .block first tokens' settings :: stack)
  | block (first : ℕ) (tokens : List TokenType) (settings : List Setting) {h : Head} {tokens' : List TokenType}
    {stack : List Chunk} : Open (.setting h tokens' :: stack) →
    Open (.block first tokens settings :: .setting h tokens' :: stack)

structure Ok (s : State) : Prop where
  cur : 1 ≤ s.cur
  stack : Open s.stack

/-- what comes after s, with something read or not -/
structure Later (s s' : State) : Prop extends Ok s' where
  str : s'.str = s.str
  le : s.cur ≤ s'.cur

/-- what comes after s with something read -/
structure Next (s s' : State) : Prop extends Later s s' where
  lt : s.cur < s'.cur

/-- the top of the stack is a setting -/
def In_setting (s : State) : Prop := ∃ h tokens stack, s.stack = .setting h tokens :: stack

/-- the top of the stack is a block -/
def In_block (s : State) : Prop := ∃ first tokens settings stack, s.stack = .block first tokens settings :: stack

section Stack

variable {s s' : State}

theorem Ok.later (h : Ok s) : Later s s := ⟨h, rfl, Nat.le_refl _⟩

theorem Later.trans {s s' s'' : State} (h : Later s s') (h' : Later s' s'') : Later s s'' :=
  ⟨h'.toOk, h'.str.trans h.str, h.le.trans h'.le⟩

theorem Next.later {s s' s'' : State} (h : Next s s') (h' : Later s' s'') : Next s s'' :=
  ⟨h.toLater.trans h', Nat.lt_of_lt_of_le h.lt h'.le⟩

theorem Ok.advance (h : Ok s) (n : ℕ) : Later s (s.advance n) :=
  ⟨⟨h.cur.trans (Nat.le_add_right _ _), h.stack⟩, rfl, Nat.le_add_right _ _⟩

theorem Ok.advance_next (h : Ok s) {n : ℕ} (hn : 0 < n) : Next s (s.advance n) :=
  ⟨h.advance n, Nat.lt_add_of_pos_right hn⟩

theorem rest_length (s : State) : s.rest.length = s.str.length - (s.cur - 1) := List.length_drop

theorem rest_drop (hcur : 1 ≤ s.cur) (n : ℕ) : (s.advance n).rest = s.rest.drop n := by
  unfold State.advance State.rest
  rw [List.drop_drop]
  congr 1
  dsimp only
  omega

/-- s with another stack and another list of values is still at the same place -/
theorem later_of_eq (h : Ok s) (hstr : s'.str = s.str) (hcur : s'.cur = s.cur) (hstack : Open s'.stack) : Later s s' :=
  ⟨⟨hcur ▸ h.cur, hstack⟩, hstr, Nat.le_of_eq hcur.symm⟩

theorem add_tokens_later (h : Ok s) (ts : List TokenType) :
    ∃ s', add_tokens s ts = some s' ∧ Later s s' ∧ (In_setting s → In_setting s') := by
  have hopen := h.stack
  unfold add_tokens
  cases hstack : s.stack with
  | nil =>
    rw [hstack] at hopen
    cases hopen
  | cons c stack =>
    rw [hstack] at hopen
    cases c with
    | setting hd tokens =>
      refine ⟨_, rfl, later_of_eq h rfl rfl ?_, fun _ => ⟨_, _, _, rfl⟩⟩
      cases hopen with
      | setting _ _ hb => exact .setting _ _ hb
    | block first tokens settings =>
      refine ⟨_, rfl, later_of_eq h rfl rfl ?_, fun hin => ?_⟩
      · cases hopen with
        | root => exact .root ..
        | block _ _ _ hs => exact .block _ _ _ hs
      · obtain ⟨hd, tokens', stack', heq⟩ := hin
        rw [hstack] at heq
        cases heq

theorem last_token_type_some (h : Ok s) : ∃ type, last_token_type s = some type := by
  have hopen := h.stack
  unfold last_token_type
  cases hstack : s.stack with
  | nil =>
    rw [hstack] at hopen
    cases hopen
  | cons c stack =>
    cases c with
    | setting hd tokens => exact ⟨_, rfl⟩
    | block first tokens settings => exact ⟨_, rfl⟩

theorem add_value_later (h : Ok s) (hin : In_setting s) (v : Value) (ts : List TokenType) :
    ∃ s', add_value s v ts = some s' ∧ Later s s' := by
  obtain ⟨hd, tokens, stack, hstack⟩ := hin
  have hopen := h.stack
  unfold add_value
  rw [hstack] at hopen ⊢
  refine ⟨_, rfl, later_of_eq h rfl rfl ?_⟩
  cases hopen with
  | setting _ _ hb => exact .setting _ _ hb

theorem push_setting_later (h : Ok s) (hin : In_block s) (name : Str) (module_name : Option Str) :
    ∃ s', push_setting s name module_name = some s' ∧ Later s s' := by
  obtain ⟨first, tokens, settings, stack, hstack⟩ := hin
  have hopen := h.stack
  unfold push_setting
  rw [hstack] at hopen
  cases hopen with
  | root =>
    rw [hstack]
    exact ⟨_, rfl, later_of_eq h rfl rfl (.setting _ _ (.root ..))⟩
  | block _ _ _ hs =>
    rw [hstack]
    exact ⟨_, rfl, later_of_eq h rfl rfl (.setting _ _ (.block _ _ _ hs))⟩

/-- closing a setting over an open block -/
theorem close_later (h : Ok s) {stack : List Chunk} {first : ℕ} {tokens : List TokenType} {settings : List Setting}
    (hopen : Open (.block first tokens settings :: stack)) (setting : Setting) :
    ∃ s', close s setting (.block first tokens settings :: stack) = some s' ∧ Later s s' := by
  refine ⟨_, rfl, later_of_eq h rfl rfl ?_⟩
  cases hopen with
  | root => exact .root ..
  | block _ _ _ hs => exact .block _ _ _ hs

theorem pop_setting_later (h : Ok s) (hin : In_setting s) : ∃ s', pop_setting s = some s' ∧ Later s s' := by
  obtain ⟨hd, tokens, stack, hstack⟩ := hin
  have hopen := h.stack
  unfold pop_setting
  rw [hstack] at hopen ⊢
  cases hopen with
  | setting _ _ hb => exact close_later h hb _

theorem push_block_later (h : Ok s) (hin : In_setting s) : ∃ s', push_block s = some s' ∧ Later s s' := by
  obtain ⟨hd, tokens, stack, hstack⟩ := hin
  have hopen := h.stack
  unfold push_block
  rw [hstack] at hopen
  rw [hstack]
  exact ⟨_, rfl, later_of_eq h rfl rfl (.block _ _ _ hopen)⟩

/-- a block below the root is closed with its setting, and the root block leaves nothing -/
theorem pop_block_cases (h : Ok s) (hin : In_block s) :
    (s.stack.length ≠ 2 ∧ ∃ s', pop_block s = some s' ∧ Later s s') ∨
      s.stack.length = 2 ∧ ∃ hd settings, pop_block s = some { s with stack := [], root := some (.block hd settings) } := by
  obtain ⟨first, tokens, settings, stack, hstack⟩ := hin
  have hopen := h.stack
  unfold pop_block
  rw [hstack] at hopen
  cases hopen with
  | root first tokens settings hd tokens' =>
    rw [hstack]
    exact .inr ⟨rfl, _, _, rfl⟩
  | block _ _ _ hs =>
    rw [hstack]
    cases hs with
    | setting hd tokens' hb =>
      refine .inl ⟨?_, close_later h hb _⟩
      simp only [List.length_cons]
      omega

end Stack

/-! ## Spaces and comments -/

section Skip

variable {s : State}

theorem some_of_ne_nil {p : Char → Bool} {str m : Str} (h : some_of p str = some m) : m ≠ [] := by
  unfold some_of at h
  split at h
  · cases h
  · cases h
    assumption

theorem spaces_newline_ne_nil {str m : Str} (h : spaces_newline str = some m) : m ≠ [] := by
  unfold spaces_newline at h
  dsimp only at h
  split_ifs at h with hnl hw
  · cases h
    exact List.append_ne_nil_of_right_ne_nil _ (List.cons_ne_nil _ _)
  · cases h
    exact hw

theorem comment_ne_nil {str m : Str} (h : comment str = some m) : m ≠ [] := by
  unfold comment at h
  split at h
  · obtain ⟨t, -, rfl⟩ := Option.map_eq_some_iff.1 h
    exact List.cons_ne_nil _ _
  · cases h

/-- a token is added after something was matched -/
theorem add_tokens_next (h : Ok s) {m : Str} (hm : m ≠ []) (ts : List TokenType) :
    ∃ s', add_tokens (s.advance m.length) ts = some s' ∧ Next s s' ∧ (In_setting s → In_setting s') := by
  have hnext := h.advance_next (List.length_pos_of_ne_nil hm)
  obtain ⟨s', heq, hlater, hin⟩ := add_tokens_later hnext.toOk ts
  exact ⟨s', heq, hnext.later hlater, hin⟩

theorem spaces_read_all (h : Ok s) {m : Str} (hm : m ≠ []) :
    (spaces_read s m).All fun s' => Next s s' ∧ (In_setting s → In_setting s') := by
  unfold spaces_read
  dsimp only
  split
  · exact ⟨h.advance_next (List.length_pos_of_ne_nil hm), id⟩
  · exact Outcome.all_assert (add_tokens_next h hm _)

theorem elim_all {P : State → Prop} {o : Option Str} {f : Str → Outcome} (h : ∀ m, o = some m → (f m).All P) :
    (o.elim .no f).All P := by
  cases o with
  | none => trivial
  | some m => exact h m rfl

theorem skip_space_all (h : Ok s) : (skip_space s).All (Next s) := by
  unfold skip_space
  obtain ⟨type, htype⟩ := last_token_type_some h
  rw [htype]
  dsimp only
  split
  · exact elim_all fun m hm => (spaces_read_all h (some_of_ne_nil hm)).mono fun _ => And.left
  · split
    · trivial
    · exact elim_all fun m hm => (spaces_read_all h (spaces_newline_ne_nil hm)).mono fun _ => And.left

theorem skip_blanks_all (h : Ok s) : (skip_blanks s).All fun s' => Next s s' ∧ (In_setting s → In_setting s') :=
  elim_all fun _ hm => spaces_read_all h (some_of_ne_nil hm)

theorem skip_comment_all (h : Ok s) : (skip_comment s).All fun s' => Next s s' ∧ (In_setting s → In_setting s') := by
  unfold skip_comment
  cases hc : comment s.rest with
  | none => trivial
  | some m => exact Outcome.all_assert (add_tokens_next h (comment_ne_nil hc) _)

theorem skip_of_no (n : ℕ) (h : ((skip_space s).orElse fun _ => skip_comment s) = .no) : skip n s = .token s := by
  cases n with
  | zero => rfl
  | succ n =>
    unfold skip
    rw [h]

theorem skip_all (n : ℕ) (h : Ok s) : (skip n s).All (Later s) := by
  induction n generalizing s with
  | zero => exact h.later
  | succ n ih =>
    have hround : ((skip_space s).orElse fun _ => skip_comment s).All (Next s) :=
      (skip_space_all h).orElse fun _ => (skip_comment_all h).mono fun _ => And.left
    unfold skip
    cases hr : (skip_space s).orElse fun _ => skip_comment s with
    | token s' =>
      rw [hr] at hround
      exact (ih hround.toOk).mono fun _ => hround.toLater.trans
    | no => exact h.later
    | error err s' => trivial
    | raise =>
      rw [hr] at hround
      exact hround

end Skip

/-! ## Tokens -/

section Tokens

variable {s : State}

theorem match_string_value_all (h : Ok s) (hin : In_setting s) : (match_string_value s).All (Next s) := by
  unfold match_string_value
  cases match_string s.rest with
  | none => trivial
  | some r =>
    obtain ⟨o, quote_char⟩ := r
    cases o with
    | none => trivial
    | some str =>
      have hnext : Next s (s.advance (str.length + 2)) := h.advance_next (Nat.succ_pos _)
      obtain ⟨s', heq, hlater⟩ := add_value_later hnext.toOk hin ⟨.string, str, some quote_char⟩ _
      exact Outcome.all_assert ⟨s', heq, hnext.later hlater⟩

theorem match_value_all (h : Ok s) (hin : In_setting s) : (match_value s).All (Next s) := by
  unfold match_value
  cases hm : some_of (fun c => !isspace c && c ≠ ';') s.rest with
  | none => trivial
  | some m =>
    have hnext := h.advance_next (List.length_pos_of_ne_nil (some_of_ne_nil hm))
    obtain ⟨s', heq, hlater⟩ := add_value_later hnext.toOk hin ⟨.value, m, none⟩ _
    exact Outcome.all_assert ⟨s', heq, hnext.later hlater⟩

theorem match_setting_name_all (h : Ok s) (hin : In_block s) : (match_setting_name s).All (Next s) := by
  unfold match_setting_name
  split
  · trivial
  split
  · trivial
  cases hm : some_of (fun c => !isspace c && c ≠ '$' && c ≠ ';') s.rest with
  | none =>
    dsimp only
    cases some_of (fun c => !isspace c) s.rest with
    | none => trivial
    | some m => trivial
  | some m =>
    have hnext := h.advance_next (List.length_pos_of_ne_nil (some_of_ne_nil hm))
    have hpush : ∀ name module_name, (Outcome.assert (push_setting (s.advance m.length) name module_name)).All (Next s) := by
      intro name module_name
      obtain ⟨s', heq, hlater⟩ := push_setting_later hnext.toOk hin name module_name
      exact Outcome.all_assert ⟨s', heq, hnext.later hlater⟩
    dsimp only
    split
    · cases qualified_name m with
      | none => trivial
      | some r => exact hpush _ _
    · exact hpush _ _

theorem match_semicolon_all (h : Ok s) (hin : In_setting s) : (match_semicolon s).All (Next s) := by
  unfold match_semicolon
  split
  · have hsemi := Outcome.all_assert (add_tokens_next h (List.cons_ne_nil ';' []) [.semicolon])
    refine hsemi.bind fun s₁ ⟨hnext, hkeep⟩ => ?_
    have hblanks := (skip_blanks_all hnext.toOk).mono fun s' hs' => And.intro hs'.1.toLater hs'.2
    refine hblanks.attempt ⟨hnext.toOk.later, id⟩ fun s₂ ⟨hlater₂, hkeep₂⟩ => ?_
    have hcomment := (skip_comment_all hlater₂.toOk).mono fun s' hs' => And.intro hs'.1.toLater hs'.2
    refine hcomment.attempt ⟨hlater₂.toOk.later, id⟩ fun s₃ ⟨hlater₃, hkeep₃⟩ => ?_
    obtain ⟨s₄, heq, hlater₄⟩ := pop_setting_later hlater₃.toOk (hkeep₃ (hkeep₂ (hkeep hin)))
    exact Outcome.all_assert ⟨s₄, heq, ((hnext.later hlater₂).later hlater₃).later hlater₄⟩
  · trivial

theorem match_block_start_all (h : Ok s) (hin : In_setting s) : (match_block_start s).All (Next s) := by
  unfold match_block_start
  split
  · have hnext := h.advance_next (Nat.succ_pos 0)
    obtain ⟨s', heq, hlater⟩ := push_block_later hnext.toOk hin
    exact Outcome.all_assert ⟨s', heq, hnext.later hlater⟩
  · trivial

theorem match_block_end_setting (hin : In_setting s) : (match_block_end s).All (Next s) := by
  obtain ⟨hd, tokens, stack, hstack⟩ := hin
  unfold match_block_end
  rw [hstack]
  split <;> trivial

theorem heredoc_started_all (h : Ok s) (hin : In_setting s) (type : HeredocType) (label : Str) :
    (heredoc_started s type label).All (Later s) := by
  unfold heredoc_started
  split
  · trivial
  · refine (Outcome.all_assert (add_tokens_later h [.heredoc_start])).bind fun s₁ ⟨hlater, hkeep⟩ => ?_
    refine (Outcome.all_assert (add_value_later hlater.toOk (hkeep hin) _ _)).bind fun s₂ hlater₂ => ?_
    exact hlater.trans ⟨⟨hlater₂.cur, hlater₂.stack⟩, hlater₂.str, hlater₂.le⟩

theorem heredoc_type_pos {str : Str} {type : HeredocType} {len : ℕ} (h : heredoc_type str = some (type, len)) :
    0 < len := by
  unfold heredoc_type at h
  split at h <;> cases h <;> decide

theorem match_heredoc_start_all (h : Ok s) (hin : In_setting s) : (match_heredoc_start s).All (Next s) := by
  unfold match_heredoc_start
  cases ht : heredoc_type s.rest with
  | none => trivial
  | some r =>
    obtain ⟨type, len⟩ := r
    have hnext := h.advance_next (heredoc_type_pos ht)
    have hstarted : ∀ n label, (heredoc_started ((s.advance len).advance n) type label).All (Next s) := by
      intro n label
      have hlater := hnext.toOk.advance n
      exact (heredoc_started_all hlater.toOk hin type label).mono fun _ => (hnext.later hlater).later
    dsimp only
    cases match_string (s.advance len).rest with
    | none => exact hstarted _ _
    | some q =>
      obtain ⟨o, quote_char⟩ := q
      cases o with
      | none => trivial
      | some label => exact hstarted _ _

theorem body_close_pos {type : HeredocType} {label str : Str} {len : ℕ} (h : body_close type label str = some len) :
    0 < len := by
  unfold body_close at h
  obtain ⟨i, -, hi⟩ := List.exists_of_findSome?_eq_some h
  split at hi
  · obtain ⟨n, -, rfl⟩ := Option.map_eq_some_iff.1 hi
    omega
  · cases hi

theorem match_heredoc_all (h : Ok s) : (match_heredoc s).All (Next s) := by
  unfold match_heredoc
  obtain ⟨type, htype⟩ := last_token_type_some h
  rw [htype]
  cases s.heredoc with
  | nil => trivial
  | cons heredoc later =>
    dsimp only
    split
    · cases hb : body_close heredoc.type heredoc.label (State.rest { s with heredoc := later }) with
      | none => trivial
      | some len =>
        have hok : Ok { s with heredoc := later } := ⟨h.cur, h.stack⟩
        have hnext := hok.advance_next (body_close_pos hb)
        refine (Outcome.all_assert (add_tokens_later hnext.toOk [.heredoc_body])).bind fun s₁ ⟨hlater, _⟩ => ?_
        have hnext₁ := hnext.later hlater
        exact ⟨⟨⟨hnext₁.cur, hnext₁.stack⟩, hnext₁.str, hnext₁.le⟩, hnext₁.lt⟩
    · trivial

/-! ## Variables -/

/-- where there is no dollar -/
theorem parse_variable_absent {c : Char} (h : c ≠ '$') (t : Str) : parse_variable (c :: t) = .absent := by
  have hsimple : simple_variable (c :: t) = .absent := by
    unfold simple_variable
    split
    · rename_i heq
      cases heq
      exact absurd rfl h
    · rfl
  have hbracketed : bracketed_variable (c :: t) = .absent := by
    unfold bracketed_variable
    split
    · rename_i heq
      cases heq
      exact absurd rfl h
    · rfl
  unfold parse_variable
  rw [hsimple]
  exact hbracketed

/-- a bracketed variable without its closing brace, or with an open bracket after the name in it -/
def Unclosed (str : Str) : Prop :=
  ∃ t, str = '$' :: '{' :: t ∧
    ∀ m, match_parens '{' '}' ('{' :: t) = some m → ∃ err, simple_variable ('$' :: inner m) = .invalid err

theorem simple_variable_ne_raise (str : Str) : simple_variable str ≠ .raise := by
  unfold simple_variable
  split
  · split
    · exact Var.noConfusion
    · split <;> exact Var.noConfusion
  · exact Var.noConfusion

/-- a brace is no part of a name -/
theorem simple_variable_brace (t : Str) : simple_variable ('$' :: '{' :: t) = .absent := rfl

theorem parse_variable_raise (str : Str) : parse_variable str = .raise ↔ Unclosed str := by
  have hbracketed : bracketed_variable str = .raise ↔ Unclosed str := by
    unfold bracketed_variable Unclosed
    split
    · rename_i t
      cases hm : match_parens '{' '}' ('{' :: t) with
      | none => exact ⟨fun _ => ⟨t, rfl, fun m h => by rw [hm] at h; cases h⟩, fun _ => rfl⟩
      | some m =>
        dsimp only
        constructor
        · intro h
          refine ⟨t, rfl, fun m' h' => ?_⟩
          rw [hm, Option.some.injEq] at h'
          subst h'
          cases hs : simple_variable ('$' :: inner m) with
          | invalid err => exact ⟨err, rfl⟩
          | absent =>
            rw [hs] at h
            cases h
          | token name params len =>
            rw [hs] at h
            dsimp only at h
            split at h <;> cases h
          | raise => exact absurd hs (simple_variable_ne_raise _)
        · rintro ⟨t', heq, h⟩
          cases heq
          obtain ⟨err, herr⟩ := h m hm
          rw [herr]
    · rename_i hne
      refine ⟨fun h => (Var.noConfusion h), fun ⟨t, ht, _⟩ => absurd ht (hne t)⟩
  unfold parse_variable
  cases hs : simple_variable str with
  | absent => exact hbracketed
  | invalid err =>
    refine ⟨fun h => (Var.noConfusion h), fun ⟨t, ht, _⟩ => ?_⟩
    rw [ht, simple_variable_brace] at hs
    cases hs
  | token name params len =>
    refine ⟨fun h => (Var.noConfusion h), fun ⟨t, ht, _⟩ => ?_⟩
    rw [ht, simple_variable_brace] at hs
    cases hs
  | raise => exact absurd hs (simple_variable_ne_raise _)

theorem parse_variable_pos {str name : Str} {params : List Str} {len : ℕ}
    (h : parse_variable str = .token name params len) : 0 < len := by
  have hsimple : ∀ {str name params len}, simple_variable str = .token name params len → 0 < len := by
    intro str name params len h
    unfold simple_variable at h
    split at h
    · split at h
      · cases h
      · split at h
        · cases h
        · cases h
          omega
    · cases h
  unfold parse_variable at h
  split at h
  · unfold bracketed_variable at h
    split at h
    · split at h
      · cases h
      · split at h
        · cases h
        · split at h
          · cases h
          · cases h
            omega
        · cases h
    · cases h
  · exact hsimple h

theorem match_variable_all (h : Ok s) (hin : In_setting s) (hclosed : ¬ Unclosed s.rest) :
    (match_variable s).All (Next s) := by
  unfold match_variable
  cases hv : parse_variable s.rest with
  | raise => exact absurd ((parse_variable_raise _).1 hv) hclosed
  | absent => trivial
  | invalid err => trivial
  | token name params len =>
    dsimp only
    split
    · trivial
    · split
      · have hnext := h.advance_next (parse_variable_pos hv)
        obtain ⟨s', heq, hlater⟩ := add_value_later hnext.toOk hin ⟨.var, s.rest.take len, none⟩ _
        exact Outcome.all_assert ⟨s', heq, hnext.later hlater⟩
      · trivial

/-! ## Where it goes wrong -/

/-- the next token is the body of a heredoc -/
def Heredoc_next (s : State) : Prop := s.heredoc ≠ [] ∧ last_token_type s = some (some .newline)

/-- a closing brace, and no block but the root's is open -/
def Closes_root (s : State) : Prop := s.stack.length = 2 ∧ s.rest.head? = some '\x7d'

/-- **The condition fails**: the next token closes the root block, or is a value with an open bracketed variable -/
def Bad (s : State) : Prop := ¬ Heredoc_next s ∧ (Closes_root s ∨ In_setting s ∧ Unclosed s.rest)

theorem match_heredoc_no (h : Ok s) (hno : match_heredoc s = .no) : ¬ Heredoc_next s := by
  rintro ⟨hne, hlast⟩
  unfold match_heredoc at hno
  rw [hlast] at hno
  cases hh : s.heredoc with
  | nil => exact hne hh
  | cons heredoc later =>
    rw [hh] at hno
    dsimp only at hno
    rw [if_pos rfl] at hno
    split at hno
    · cases hno
    · rename_i len _
      have hok : Ok { s with heredoc := later } := ⟨h.cur, h.stack⟩
      obtain ⟨s', heq, -⟩ := add_tokens_later (hok.advance len).toOk [.heredoc_body]
      rw [heq] at hno
      cases hno

theorem match_heredoc_of_not (h : Ok s) (hnot : ¬ Heredoc_next s) : match_heredoc s = .no := by
  obtain ⟨type, htype⟩ := last_token_type_some h
  unfold match_heredoc
  cases hh : s.heredoc with
  | nil => rfl
  | cons heredoc later =>
    rw [htype]
    dsimp only
    rw [if_neg]
    rintro rfl
    exact hnot ⟨by rw [hh]; exact List.cons_ne_nil _ _, htype⟩

/-- **One token.** Where the condition holds, it is read, or there is an error. -/
theorem next_token_all (h : Ok s) (hgood : ¬ Bad s) : (next_token s).All (Next s) := by
  unfold next_token
  split
  · trivial
  refine (match_heredoc_all h).orElse fun hno => ?_
  have hnot := match_heredoc_no h hno
  have hclose : ¬ Closes_root s := fun hc => hgood ⟨hnot, .inl hc⟩
  have hopen := h.stack
  cases hstack : s.stack with
  | nil =>
    rw [hstack] at hopen
    cases hopen
  | cons c stack =>
    cases c with
    | block first tokens settings =>
      have hin : In_block s := ⟨first, tokens, settings, stack, hstack⟩
      refine Outcome.All.orElse ?_ fun _ => match_setting_name_all h hin
      unfold match_block_end
      split
      · rename_i hbrace
        have hnext := h.advance_next (Nat.succ_pos 0)
        rw [hstack]
        rcases pop_block_cases hnext.toOk hin with ⟨-, s', heq, hlater⟩ | ⟨hlen, -⟩
        · exact Outcome.all_assert ⟨s', heq, hnext.later hlater⟩
        · exact absurd ⟨hlen, hbrace⟩ hclose
      · trivial
    | setting hd tokens =>
      have hin : In_setting s := ⟨hd, tokens, stack, hstack⟩
      have hclosed : ¬ Unclosed s.rest := fun hu => hgood ⟨hnot, .inr ⟨hin, hu⟩⟩
      refine (match_heredoc_start_all h hin).orElse fun _ => ?_
      refine (match_string_value_all h hin).orElse fun _ => ?_
      refine (match_variable_all h hin hclosed).orElse fun _ => ?_
      refine (match_block_start_all h hin).orElse fun _ => ?_
      refine (match_block_end_setting hin).orElse fun _ => ?_
      exact (match_semicolon_all h hin).orElse fun _ => match_value_all h hin

theorem cur_le_of_rest (h : Ok s) (hne : s.rest ≠ []) : ¬ s.str.length < s.cur := by
  have hlen := List.length_pos_of_ne_nil hne
  have hcur := h.cur
  rw [rest_length] at hlen
  omega

/-- where the condition fails, Lua raises an error, or the root is closed and the stack is empty -/
theorem next_token_bad (h : Ok s) (hbad : Bad s) :
    next_token s = .raise ∨ ∃ s', next_token s = .token s' ∧ s'.stack = [] ∧ s.cur < s'.cur ∧ s'.str = s.str := by
  obtain ⟨hnot, hbad⟩ := hbad
  unfold next_token
  rw [match_heredoc_of_not h hnot]
  unfold Outcome.orElse
  dsimp only
  rcases hbad with ⟨hlen, hbrace⟩ | ⟨⟨hd, tokens, stack, hstack⟩, hu⟩
  · have hne : s.rest ≠ [] := by
      intro hnil
      rw [hnil] at hbrace
      cases hbrace
    rw [if_neg (cur_le_of_rest h hne)]
    obtain ⟨first, tk, settings, hd, tk', hstack⟩ : ∃ first tk settings hd tk',
        s.stack = [.block first tk settings, .setting hd tk'] := by
      have hopen := h.stack
      cases hs : s.stack with
      | nil =>
        rw [hs] at hlen
        cases hlen
      | cons c stack =>
        rw [hs] at hopen hlen
        cases hopen with
        | root => exact ⟨_, _, _, _, _, rfl⟩
        | setting _ _ hb =>
          cases hb with
          | root => cases hlen
          | block _ _ _ hs => cases hlen
        | block _ _ _ hb =>
          cases hb with
          | setting _ _ hb => cases hlen
    right
    refine ⟨{ s.advance 1 with stack := [], root := some (.block hd settings) }, ?_, rfl, Nat.lt_succ_self _, rfl⟩
    unfold match_block_end pop_block State.advance
    rw [if_pos hbrace, hstack]
    rfl
  · have hraise : match_variable s = .raise := by
      unfold match_variable
      rw [(parse_variable_raise _).2 hu]
    obtain ⟨t, ht, -⟩ := hu
    rw [if_neg (cur_le_of_rest h (by rw [ht]; exact List.cons_ne_nil _ _))]
    left
    have hstart : match_heredoc_start s = .no := by
      unfold match_heredoc_start
      rw [ht]
      rfl
    have hstring : match_string_value s = .no := by
      unfold match_string_value
      rw [ht]
      rfl
    rw [hstack, hstart, hstring, hraise]

end Tokens

/-! ## Runs -/

/-- a run from s reaches t, before a token and after the spaces in front of it -/
inductive Visits : State → State → Prop
  | start {s t : State} : skip s.rest.length s = .token t → Visits s t
  | next {s t s' u : State} : skip s.rest.length s = .token t → next_token t = .token s' → Visits s' u → Visits s u

/-- the root setting or an error -/
def Result.Answers (r : Result) : Prop := (∃ root values, r = .root root values) ∨ ∃ err, r = .error err

/-- nothing is read any more when the root is closed -/
theorem skip_closed (n : ℕ) {s : State} (hs : s.stack = []) :
    skip n s = .raise ∨ ∃ s', skip n s = .token s' ∧ s'.stack = [] := by
  induction n generalizing s with
  | zero => exact .inr ⟨s, rfl, hs⟩
  | succ n ih =>
    have hadd : ∀ k ts, add_tokens (s.advance k) ts = none := by
      intro k ts
      unfold add_tokens State.advance
      dsimp only
      rw [hs]
    have hspace : skip_space s = .raise ∨ skip_space s = .no ∨ ∃ k, skip_space s = .token (s.advance k) := by
      unfold skip_space last_token_type
      rw [hs]
      dsimp only
      split
      · cases some_of (· ∈ [' ', '\t', '\r', '\n']) s.rest with
        | none => exact .inr (.inl rfl)
        | some m =>
          unfold Option.elim spaces_read
          dsimp only
          split
          · exact .inr (.inr ⟨_, rfl⟩)
          · rw [hadd]
            exact .inl rfl
      · exact .inl rfl
    have hcomment : skip_comment s = .raise ∨ skip_comment s = .no := by
      unfold skip_comment
      cases comment s.rest with
      | none => exact .inr rfl
      | some m =>
        dsimp only
        rw [hadd]
        exact .inl rfl
    unfold skip
    rcases hspace with hspace | hspace | ⟨k, hspace⟩
    · rw [hspace]
      exact .inl rfl
    · rw [hspace]
      rcases hcomment with hcomment | hcomment
      · exact .inl (by rw [Outcome.orElse, hcomment])
      · exact .inr ⟨s, by rw [Outcome.orElse, hcomment], hs⟩
    · rw [hspace]
      exact ih hs

theorem next_token_closed {t : State} (ht : t.stack = []) : next_token t = .no ∨ next_token t = .raise := by
  unfold next_token match_heredoc last_token_type
  rw [ht]
  split
  · exact .inl rfl
  · cases t.heredoc with
    | nil => exact .inr rfl
    | cons heredoc later => exact .inr rfl

theorem tokens_closed (n : ℕ) {s : State} (hs : s.stack = []) : tokens (n + 1) s = .raise := by
  unfold tokens
  rcases skip_closed s.rest.length hs with hskip | ⟨t, hskip, ht⟩
  · rw [hskip]
  · rw [hskip]
    rcases next_token_closed ht with hnext | hnext
    · dsimp only
      rw [hnext]
      unfold finish
      rw [ht]
    · dsimp only
      rw [hnext]

theorem finish_answers {s : State} (h : Ok s) : (finish s).Answers := by
  have hopen := h.stack
  unfold finish unexpected_end
  cases hs : s.stack with
  | nil =>
    rw [hs] at hopen
    cases hopen
  | cons c stack =>
    rw [hs] at hopen
    cases hopen with
    | root =>
      dsimp only
      cases s.heredoc.getLast? with
      | some heredoc => exact .inr ⟨_, rfl⟩
      | none =>
        unfold pop_block
        rw [hs]
        exact .inl ⟨_, _, rfl⟩
    | setting _ _ hb => exact .inr ⟨_, rfl⟩
    | block _ _ _ hb =>
      cases hb with
      | setting _ _ hb => exact .inr ⟨_, rfl⟩

theorem skip_ne_no (n : ℕ) (s : State) : skip n s ≠ .no := by
  induction n generalizing s with
  | zero => exact Outcome.noConfusion
  | succ n ih =>
    unfold skip
    split
    · exact ih _
    · exact Outcome.noConfusion
    · assumption

/-- the condition after one round of the loop -/
theorem visits_iff {s t : State} (hskip : skip s.rest.length s = .token t) :
    (∀ u, Visits s u → ¬ Bad u) ↔ ¬ Bad t ∧ ∀ s' u, next_token t = .token s' → Visits s' u → ¬ Bad u := by
  constructor
  · exact fun hall => ⟨hall t (.start hskip), fun s' u hs' hu => hall u (.next hskip hs' hu)⟩
  · rintro ⟨ht, hall⟩ u hu
    cases hu with
    | start hskip' =>
      rw [hskip] at hskip'
      cases hskip'
      exact ht
    | next hskip' hs' hu =>
      rw [hskip] at hskip'
      cases hskip'
      exact hall _ u hs' hu

/-- one round of the loop, when the rounds after it are as they should be -/
theorem tokens_round (n : ℕ) {s : State} (h : Ok s)
    (hrest : ∀ t s', skip s.rest.length s = .token t → next_token t = .token s' → tokens n s' ≠ .unfinished ∧
      ((tokens n s').Answers ↔ ¬ Bad t ∧ ∀ u, Visits s' u → ¬ Bad u)) :
    tokens (n + 1) s ≠ .unfinished ∧ ((tokens (n + 1) s).Answers ↔ ∀ t, Visits s t → ¬ Bad t) := by
  have hall := skip_all s.rest.length h
  unfold tokens
  cases hskip : skip s.rest.length s with
  | no => exact absurd hskip (skip_ne_no _ _)
  | raise =>
    rw [hskip] at hall
    exact hall.elim
  | error err t =>
    refine ⟨Result.noConfusion, fun _ u hu => ?_, fun _ => .inr ⟨_, rfl⟩⟩
    cases hu with
    | start hskip' =>
      rw [hskip] at hskip'
      cases hskip'
    | next hskip' _ _ =>
      rw [hskip] at hskip'
      cases hskip'
  | token t =>
    rw [hskip] at hall
    have ht : Ok t := hall.toOk
    -- a token is read or not, and an error is one only where the condition fails
    have hgood : (∀ s', next_token t ≠ .token s') → next_token t ≠ .raise → ∀ u, Visits s u → ¬ Bad u := by
      intro htoken hraise
      refine (visits_iff hskip).2 ⟨fun hbad => ?_, fun s' u hs' => absurd hs' (htoken s')⟩
      rcases next_token_bad ht hbad with heq | ⟨s', heq, -⟩
      · exact hraise heq
      · exact htoken s' heq
    dsimp only
    cases hnext : next_token t with
    | token s' =>
      obtain ⟨hend, hiff⟩ := hrest t s' hskip hnext
      refine ⟨hend, hiff.trans ((visits_iff hskip).trans ?_).symm⟩
      refine and_congr_right fun _ => ⟨fun hu u => hu s' u hnext, fun hu s'' u hs'' => ?_⟩
      rw [hnext] at hs''
      cases hs''
      exact hu u
    | no =>
      have hfinish := finish_answers ht
      refine ⟨fun heq => ?_, fun _ => hgood (fun s' => ?_) ?_, fun _ => hfinish⟩
      · unfold Result.Answers at hfinish
        simp [heq] at hfinish
      · rw [hnext]
        exact Outcome.noConfusion
      · rw [hnext]
        exact Outcome.noConfusion
    | error err s' =>
      refine ⟨Result.noConfusion, fun _ => hgood (fun s' => ?_) ?_, fun _ => .inr ⟨_, rfl⟩⟩
      · rw [hnext]
        exact Outcome.noConfusion
      · rw [hnext]
        exact Outcome.noConfusion
    | raise =>
      refine ⟨Result.noConfusion, fun hans => ?_, fun hu => ?_⟩
      · rcases hans with ⟨_, _, heq⟩ | ⟨_, heq⟩ <;> cases heq
      · have hnot := next_token_all ht ((visits_iff hskip).1 hu).1
        rw [hnext] at hnot
        exact hnot.elim

/-- **A run.** With enough fuel it ends, and it ends with an answer when it meets the condition everywhere. -/
theorem tokens_answers (n : ℕ) {s : State} (h : Ok s) (hn : s.str.length < n + s.cur) :
    tokens (n + 1) s ≠ .unfinished ∧ ((tokens (n + 1) s).Answers ↔ ∀ t, Visits s t → ¬ Bad t) := by
  induction n generalizing s with
  | zero =>
    refine tokens_round 0 h fun t s' hskip hnext => ?_
    have hlater := skip_all s.rest.length h
    rw [hskip] at hlater
    have hle := hlater.le
    unfold next_token at hnext
    rw [hlater.str, if_pos (by omega)] at hnext
    cases hnext
  | succ n ih =>
    refine tokens_round (n + 1) h fun t s' hskip hnext => ?_
    have hlater : Later s t := by
      have hall := skip_all s.rest.length h
      rw [hskip] at hall
      exact hall
    by_cases hbad : Bad t
    · rcases next_token_bad hlater.toOk hbad with heq | ⟨s'', heq, hstack, -⟩
      · rw [heq] at hnext
        cases hnext
      · rw [heq] at hnext
        cases hnext
        rw [tokens_closed n hstack]
        refine ⟨Result.noConfusion, fun hans => ?_, fun hgood => absurd hbad hgood.1⟩
        rcases hans with ⟨_, _, heq⟩ | ⟨_, heq⟩ <;> cases heq
    · have hall := next_token_all hlater.toOk hbad
      rw [hnext] at hall
      have hlt := hall.lt
      have hle := hlater.le
      obtain ⟨hend, hiff⟩ := ih hall.toOk (by rw [hall.str, hlater.str]; omega)
      exact ⟨hend, hiff.trans (and_iff_right hbad).symm⟩

theorem new_ok (str : Str) : Ok (new str) := ⟨Nat.le_refl 1, .root ..⟩

/-- **Parser totality.** Parsing always ends. It ends with the root or with an error exactly when no token closes the root
block, and none is a value with an open bracketed variable. -/
theorem answers_of_ok (str : Str) :
    parse str ≠ .unfinished ∧ ((parse str).Answers ↔ ∀ t, Visits (new str) t → ¬ Bad t) :=
  tokens_answers str.length (new_ok str) (Nat.lt_succ_self _)

/-- a lone closing brace, and a variable with an open brace -/
theorem raises : parse ['\x7d'] = .raise ∧ parse ['n', ' ', '$', '\x7b', 'a', ';'] = .raise ∧
    ¬ ∀ str, (parse str).Answers := by
  have hbrace : parse ['\x7d'] = .raise := rfl
  refine ⟨hbrace, rfl, fun hall => ?_⟩
  rcases hall ['\x7d'] with ⟨_, _, heq⟩ | ⟨_, heq⟩
  · rw [hbrace] at heq
    cases heq
  · rw [hbrace] at heq
    cases heq

end Shuttlesock.Parser
