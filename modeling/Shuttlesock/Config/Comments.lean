/-
A comment between two tokens.

A text a ++ b is parsed, and the parser is between two tokens behind a. Spaces, `#`, a text without a newline and a newline are put
there. Does the parser still return the same tree?

Model: `Between` is a place between two tokens: what was read is c, and g is the part of the gap in front of it. `Quiet` is when the
comment is inert there. The source breaks it in these ways.
- `#` alone is no comment: an empty text makes it a value or a name.
- While a heredoc waits, the newline of the comment starts its body.
- `Keeps`: a token `#` takes the spaces behind it for a comment. The body of a heredoc reaches to the last line that starts with its
  label, which may be the line behind the comment. A value that starts like a variable becomes one when its bracket is closed.

Results:
- `step_local`: a token in front of the comment is read as before.
- `gap_inserted`: the comment is skipped.
- `inert_of_quiet`: the tree is the same.
- `not_inert`: an empty comment.
-/
import Mathlib.Tactic
import Shuttlesock.Config.ReaderLocal
import Shuttlesock.Config.ReaderRefines

namespace Shuttlesock.Reader

open Shuttlesock.Parser
open Relation

/-- the comment, with spaces in front -/
def inserted (ws text : Str) : Str := ws ++ '#' :: (text ++ ['\n'])

/-- a place between two tokens -/
structure Between (a b : Str) (c : Core) (g : Str) (m : Mode) : Prop where
  run : ReflTransGen Step (start, a ++ b) (c, g ++ b)
  gap : skip_gap c.pending c.mode g = (m, [])
  /-- the end of a comment, and not its middle -/
  comment : m = .comment → ∀ d ∈ b.head?, d = '\n'

/-- the token at the start of v is not changed by what is behind v -/
structure Keeps (c : Core) (ws v b x : Str) : Prop where
  hash : v = ['#'] → ws.head? = some '\n'
  body : c.due = true → ∀ h ∈ c.heredoc.head?, body_close h.type h.label (v ++ x) = body_close h.type h.label (v ++ b)
  no_variable : c.due = false → c.top.isSome → lex_variable (v ++ b) = none → lex_variable (v ++ x) = none

/-- the comment is inert -/
structure Quiet (a b ws text : Str) (c : Core) (g : Str) (m : Mode) : Prop where
  hash : text ≠ [] ∨ m = .comment ∧ '\n' ∉ ws
  heredoc : c.heredoc = [] ∨ m = .gap ∧ starts_comment b = true ∧ '\n' ∉ ws.dropLast
  keeps : ∀ c' r v, ReflTransGen Step (start, a ++ b) (c', r ++ b) → TransGen Step (c', r ++ b) (c, g ++ b) →
    (gap c' (r ++ b)).2 = v ++ b → Keeps (gap c' (r ++ b)).1 ws v b (inserted ws text ++ b)

/-! ## Gaps in front of the comment -/

section Gaps

variable {pending : Bool} {mode m : Mode} {g v b x t : Str}

theorem starts_comment_of_ne {c : Char} (hc : c ≠ '#') (t : Str) : starts_comment (c :: t) = false := by
  unfold starts_comment
  split
  · rename_i heq
    exact absurd (List.cons.inj heq).1 hc
  · rfl

theorem starts_comment_two (c d : Char) (t t' : Str) : starts_comment (c :: d :: t) = starts_comment (c :: d :: t') := by
  by_cases hc : c = '#'
  · rw [hc]
    rfl
  · rw [starts_comment_of_ne hc, starts_comment_of_ne hc]

theorem skip_gap_append (h : skip_gap pending mode g = (m, [])) (t : Str) : skip_gap pending mode (g ++ t) = skip_gap pending m t := by
  induction g generalizing mode with
  | nil =>
    rw [skip_gap_nil] at h
    rw [List.nil_append, (Prod.mk.inj h).1]
  | cons c g ih =>
    -- a comment that starts in g starts there without t as well, since g is skipped to its end
    have hstarts : starts_comment (c :: g) = true → starts_comment (c :: (g ++ t)) = true := by
      cases g with
      | nil =>
        intro hno
        unfold starts_comment at hno
        split at hno
        · rename_i heq
          cases heq
        · exact absurd hno Bool.false_ne_true
      | cons d g =>
        exact fun hyes => (starts_comment_two c d _ _).trans hyes
    have hnot : ∀ mode', ¬ (mode', c :: g) = (m, ([] : Str)) := fun mode' heq => List.cons_ne_nil c g (Prod.mk.inj heq).2
    rw [List.cons_append]
    cases mode with
    | gap =>
      rw [skip_gap_cons_gap] at h ⊢
      split_ifs at h with h₁ h₂ h₃
      · rw [if_pos h₁]
        exact ih h
      · rw [if_neg h₁, if_pos h₂]
        exact ih h
      · rw [if_neg h₁, if_neg h₂, if_pos (hstarts h₃)]
        exact ih h
      · exact absurd h (hnot _)
    | comment =>
      rw [skip_gap_cons_comment] at h ⊢
      split_ifs at h ⊢
      · exact ih h
      · exact ih h
    | line =>
      rw [skip_gap_cons_line] at h ⊢
      split_ifs at h with h₁
      · rw [if_pos (hstarts h₁)]
        exact ih h
      · exact absurd h (hnot _)

theorem skip_gap_suffix (pending : Bool) (mode : Mode) (str : Str) : (skip_gap pending mode str).2 <:+ str := by
  induction str generalizing mode with
  | nil =>
    rw [skip_gap_nil]
  | cons c str ih =>
    have hcons : ∀ mode', (skip_gap pending mode' str).2 <:+ c :: str := fun mode' => (ih mode').trans (List.suffix_cons c str)
    cases mode with
    | gap =>
      rw [skip_gap_cons_gap]
      split_ifs
      · exact hcons _
      · exact hcons _
      · exact hcons _
      · exact List.suffix_refl _
    | comment =>
      rw [skip_gap_cons_comment]
      split_ifs
      · exact hcons _
      · exact hcons _
    | line =>
      rw [skip_gap_cons_line]
      split_ifs
      · exact hcons _
      · exact List.suffix_refl _

/-- a gap ends where no comment starts -/
theorem skip_gap_ends (hne : (skip_gap pending mode t).2 ≠ []) : starts_comment (skip_gap pending mode t).2 = false := by
  induction t generalizing mode with
  | nil =>
    rw [skip_gap_nil] at hne
    exact absurd rfl hne
  | cons c t ih =>
    cases mode with
    | gap =>
      rw [skip_gap_cons_gap] at hne ⊢
      split_ifs at hne ⊢ with h₁ h₂ h₃
      · exact ih hne
      · exact ih hne
      · exact ih hne
      · exact Bool.eq_false_iff.2 h₃
    | comment =>
      rw [skip_gap_cons_comment] at hne ⊢
      split_ifs at hne ⊢
      · exact ih hne
      · exact ih hne
    | line =>
      rw [skip_gap_cons_line] at hne ⊢
      split_ifs at hne ⊢ with h₁
      · exact ih hne
      · exact Bool.eq_false_iff.2 h₁

/-- a gap that ends in front of v, with another text behind v -/
theorem skip_gap_local {r : Str} (h : skip_gap pending mode (r ++ b) = (m, v ++ b)) (hv : v ≠ [])
    (hx : starts_comment (v ++ x) = false) : skip_gap pending mode (r ++ x) = (m, v ++ x) := by
  have hpos := List.length_pos_of_ne_nil hv
  induction r generalizing mode with
  | nil =>
    have hle := (skip_gap_suffix pending mode b).length_le
    rw [List.nil_append] at h
    rw [h, List.length_append] at hle
    omega
  | cons c r ih =>
    have hstarts : starts_comment (c :: (r ++ b)) = true → skip_gap pending .comment (r ++ b) = (m, v ++ b) →
        starts_comment (c :: (r ++ x)) = true := by
      intro hyes hskip
      cases r with
      | nil =>
        have hle := (skip_gap_suffix pending .comment b).length_le
        rw [List.nil_append] at hskip
        rw [hskip, List.length_append] at hle
        omega
      | cons d r => exact (starts_comment_two c d _ _).trans hyes
    rw [List.cons_append] at h ⊢
    cases mode with
    | gap =>
      rw [skip_gap_cons_gap] at h ⊢
      split_ifs at h with h₁ h₂ h₃
      · rw [if_pos h₁]
        exact ih h
      · rw [if_neg h₁, if_pos h₂]
        exact ih h
      · rw [if_neg h₁, if_neg h₂, if_pos (hstarts h₃ h)]
        exact ih h
      · obtain ⟨rfl, hstr⟩ := Prod.mk.inj h
        obtain rfl : c :: r = v := List.append_cancel_right hstr
        rw [← List.cons_append, if_neg h₁, if_neg h₂, if_neg (by rw [hx]; exact Bool.false_ne_true)]
    | comment =>
      rw [skip_gap_cons_comment] at h ⊢
      split_ifs at h ⊢
      · exact ih h
      · exact ih h
    | line =>
      rw [skip_gap_cons_line] at h ⊢
      split_ifs at h with h₁
      · rw [if_pos (hstarts h₁ h)]
        exact ih h
      · obtain ⟨rfl, hstr⟩ := Prod.mk.inj h
        obtain rfl : c :: r = v := List.append_cancel_right hstr
        rw [← List.cons_append, if_neg (by rw [hx]; exact Bool.false_ne_true)]

end Gaps

/-! ## Tokens in front of the comment -/

section Tokens

variable {c c' : Core} {v b x ws text r r' : Str}

theorem act_ne_wrong {l : Lexeme} (h : act c l = some c') : l ≠ .wrong := by
  rintro rfl
  cases h

/-- the token at the start of v, when it lies in v -/
theorem token_local {s : Str} (h : token c (v ++ b) = some (c', s)) (hs : b.length ≤ s.length) (hv : v ≠ []) (hx : Spaced x)
    (hkeeps : Keeps c ws v b x) : ∃ v', s = v' ++ b ∧ token c (v ++ x) = some (c', v' ++ x) := by
  unfold token at h ⊢
  split at h
  · rename_i hdue
    rw [if_pos hdue]
    cases hheredoc : c.heredoc with
    | nil =>
      rw [hheredoc] at h
      cases h
    | cons heredoc later =>
      rw [hheredoc] at h
      dsimp only at h ⊢
      obtain ⟨len, hclose, heq⟩ := Option.map_eq_some_iff.1 h
      obtain ⟨rfl, rfl⟩ := Prod.mk.inj heq
      have hlen := body_close_len hclose
      rw [List.length_drop, List.length_append] at hs
      rw [List.length_append] at hlen
      have hle : len ≤ v.length := by omega
      rw [hkeeps.body hdue heredoc (by rw [hheredoc]; rfl), hclose, Option.map_some, drop_local hle, drop_local hle,
        List.take_append_of_le_length hle, List.take_append_of_le_length hle]
      exact ⟨v.drop len, rfl, rfl⟩
  · rename_i hdue
    rw [if_neg hdue]
    obtain ⟨c₁, hact, heq⟩ := Option.map_eq_some_iff.1 h
    obtain ⟨rfl, rfl⟩ := Prod.mk.inj heq
    have hright := act_ne_wrong hact
    have hne : v ++ b ≠ [] := fun hnil => hv (List.append_eq_nil_iff.1 hnil).1
    have hlen : (c.lex (v ++ b)).len ≤ (v ++ b).length := by
      unfold Core.lex
      split
      · exact lex_setting_len hne
      · exact lex_block_len hne
    rw [List.length_drop, List.length_append] at hs
    rw [List.length_append] at hlen
    have hle : (c.lex (v ++ b)).len ≤ v.length := by omega
    have hlex : c.lex (v ++ x) = c.lex (v ++ b) := by
      unfold Core.lex at hright hle ⊢
      split at hright
      · rename_i htop
        rw [if_pos htop] at hle ⊢
        rw [if_pos htop]
        exact lex_setting_local rfl hright hle hv hx (hkeeps.no_variable (Bool.eq_false_iff.2 hdue) htop)
      · rename_i htop
        rw [if_neg htop] at hle ⊢
        rw [if_neg htop]
        exact lex_block_local rfl hright hle hv hx
    rw [hlex, hact, Option.map_some, drop_local hle, drop_local hle]
    exact ⟨v.drop (c.lex (v ++ b)).len, rfl, rfl⟩

theorem spaced_inserted (hws : ws ≠ []) (hspaces : Spaces ws) (text b : Str) : Spaced (inserted ws text ++ b) := by
  cases ws with
  | nil => exact absurd rfl hws
  | cons d ws => exact ⟨d, _, rfl, hspaces d List.mem_cons_self⟩

/-- no comment starts at v with the other text behind it -/
theorem Keeps.no_comment (hkeeps : Keeps c ws v b (inserted ws text ++ b)) (hv : v ≠ []) (h : starts_comment (v ++ b) = false) :
    starts_comment (v ++ (inserted ws text ++ b)) = false := by
  cases v with
  | nil => exact absurd rfl hv
  | cons d v =>
    cases v with
    | cons e v => exact (starts_comment_two d e _ _).trans h
    | nil =>
      by_cases hd : d = '#'
      · have hhead := hkeeps.hash (by rw [hd])
        cases ws with
        | nil => cases hhead
        | cons n ws =>
          obtain rfl : n = '\n' := Option.some.inj hhead
          rw [hd]
          rfl
      · exact starts_comment_of_ne hd _

/-- a token leaves less of the text -/
theorem token_shorter {s s' : Str} (h : token c s = some (c', s')) : s'.length < s.length := by
  have hne : s ≠ [] := by
    rintro rfl
    rw [token_nil] at h
    cases h
  have hpos := List.length_pos_of_ne_nil hne
  unfold token at h
  split at h
  · cases hheredoc : c.heredoc with
    | nil =>
      rw [hheredoc] at h
      cases h
    | cons heredoc later =>
      rw [hheredoc] at h
      obtain ⟨len, hclose, heq⟩ := Option.map_eq_some_iff.1 h
      obtain ⟨-, rfl⟩ := Prod.mk.inj heq
      have hlen := body_close_pos hclose
      rw [List.length_drop]
      omega
  · obtain ⟨c₁, hact, heq⟩ := Option.map_eq_some_iff.1 h
    obtain ⟨-, rfl⟩ := Prod.mk.inj heq
    have hright := act_ne_wrong hact
    have hlen : 0 < (c.lex s).len := by
      unfold Core.lex at hright ⊢
      split
      · rename_i htop
        rw [if_pos htop] at hright
        exact lex_setting_pos hright
      · rename_i htop
        rw [if_neg htop] at hright
        exact lex_block_pos hright
    rw [List.length_drop]
    omega

/-- what is left behind a gap, when it goes beyond b -/
theorem gap_suffix (c : Core) (hlen : b.length < ((gap c (r ++ b)).2).length) : ∃ v, v ≠ [] ∧ (gap c (r ++ b)).2 = v ++ b := by
  have hsuffix : (gap c (r ++ b)).2 <:+ r ++ b := skip_gap_suffix c.pending c.mode (r ++ b)
  obtain ⟨v, hv⟩ := List.suffix_of_suffix_length_le (List.suffix_append r b) hsuffix hlen.le
  refine ⟨v, ?_, hv.symm⟩
  rintro rfl
  rw [← hv] at hlen
  exact absurd hlen (Nat.lt_irrefl _)

/-- **One round in front of the comment.** -/
theorem step_local (hstep : Step (c, r ++ b) (c', r' ++ b)) (hws : ws ≠ []) (hspaces : Spaces ws)
    (hkeeps : ∀ v, (gap c (r ++ b)).2 = v ++ b → Keeps (gap c (r ++ b)).1 ws v b (inserted ws text ++ b)) :
    Step (c, r ++ (inserted ws text ++ b)) (c', r' ++ (inserted ws text ++ b)) := by
  have hlt := token_shorter hstep
  dsimp only at hlt
  rw [List.length_append] at hlt
  obtain ⟨v, hv, hgap⟩ := gap_suffix c (b := b) (r := r) (by omega)
  have hkeep := hkeeps v hgap
  have hends : starts_comment (v ++ b) = false := by
    have hne : (skip_gap c.pending c.mode (r ++ b)).2 ≠ [] := fun hnil => hv (List.append_eq_nil_iff.1 (hgap.symm.trans hnil)).1
    have hno := skip_gap_ends hne
    change starts_comment (gap c (r ++ b)).2 = false at hno
    rw [hgap] at hno
    exact hno
  have hskip : skip_gap c.pending c.mode (r ++ b) = ((skip_gap c.pending c.mode (r ++ b)).1, v ++ b) := Prod.ext rfl hgap
  have hskip' := skip_gap_local hskip hv (hkeep.no_comment hv hends)
  have hgap' : gap c (r ++ (inserted ws text ++ b)) = ((gap c (r ++ b)).1, v ++ (inserted ws text ++ b)) := by
    unfold gap
    rw [hskip']
  unfold Step at hstep ⊢
  dsimp only at hstep ⊢
  rw [hgap']
  rw [hgap] at hstep
  obtain ⟨v', heq, htoken⟩ := token_local hstep (by rw [List.length_append]; omega) hv (spaced_inserted hws hspaces text b) hkeep
  obtain rfl : r' = v' := List.append_cancel_right heq
  exact htoken

theorem token_suffix {s s' : Str} (h : token c s = some (c', s')) : s' <:+ s := by
  unfold token at h
  split at h
  · cases hheredoc : c.heredoc with
    | nil =>
      rw [hheredoc] at h
      cases h
    | cons heredoc later =>
      rw [hheredoc] at h
      obtain ⟨len, -, heq⟩ := Option.map_eq_some_iff.1 h
      obtain ⟨-, rfl⟩ := Prod.mk.inj heq
      exact List.drop_suffix _ _
  · obtain ⟨c₁, -, heq⟩ := Option.map_eq_some_iff.1 h
    obtain ⟨-, rfl⟩ := Prod.mk.inj heq
    exact List.drop_suffix _ _

/-- no body of a heredoc is next after a token -/
theorem token_due {s s' : Str} (h : token c s = some (c', s')) : c'.due = false := by
  unfold token at h
  split at h
  · cases hheredoc : c.heredoc with
    | nil =>
      rw [hheredoc] at h
      cases h
    | cons heredoc later =>
      rw [hheredoc] at h
      obtain ⟨len, -, heq⟩ := Option.map_eq_some_iff.1 h
      rw [← (Prod.mk.inj heq).1]
  · rename_i hdue
    obtain ⟨c₁, hact, heq⟩ := Option.map_eq_some_iff.1 h
    rw [← (Prod.mk.inj heq).1]
    exact (act_due hact).trans (Bool.eq_false_iff.2 hdue)

theorem due_of_steps {p p' : Core × Str} (h : ReflTransGen Step p p') (hdue : p.1.due = false) : p'.1.due = false := by
  induction h with
  | refl => exact hdue
  | tail _ hstep ih => exact token_due hstep

theorem step_suffix {p p' : Core × Str} (h : Step p p') : p'.2 <:+ p.2 :=
  (token_suffix h).trans (skip_gap_suffix _ _ _)

theorem steps_suffix {p p' : Core × Str} (h : ReflTransGen Step p p') : p'.2 <:+ p.2 := by
  induction h with
  | refl => exact List.suffix_refl _
  | tail _ hstep ih => exact (step_suffix hstep).trans ih

/-- **The run in front of the comment.** -/
theorem steps_local {p p' : Core × Str} (hsteps : ReflTransGen Step p p') (hws : ws ≠ []) (hspaces : Spaces ws)
    (hp : p.2 = r ++ b) (hp' : p'.2 = r' ++ b)
    (hkeeps : ∀ c₁ r₁ v, ReflTransGen Step p (c₁, r₁ ++ b) → TransGen Step (c₁, r₁ ++ b) p' →
      (gap c₁ (r₁ ++ b)).2 = v ++ b → Keeps (gap c₁ (r₁ ++ b)).1 ws v b (inserted ws text ++ b)) :
    ReflTransGen Step (p.1, r ++ (inserted ws text ++ b)) (p'.1, r' ++ (inserted ws text ++ b)) := by
  induction hsteps using ReflTransGen.head_induction_on generalizing r with
  | refl =>
    obtain rfl : r = r' := List.append_cancel_right (hp.symm.trans hp')
    exact ReflTransGen.refl
  | head hstep hrest ih =>
    rename_i p q
    obtain ⟨r₁, hq⟩ : b <:+ q.2 := (hp' ▸ List.suffix_append r' b).trans (steps_suffix hrest)
    have hpair : ∀ (s : Core × Str) {t : Str}, s.2 = t ++ b → s = (s.1, t ++ b) := fun s t heq => Prod.ext rfl heq
    have hround : Step (p.1, r ++ (inserted ws text ++ b)) (q.1, r₁ ++ (inserted ws text ++ b)) := by
      refine step_local (b := b) ?_ hws hspaces fun v hv => ?_
      · rw [← hpair p hp, ← hpair q hq.symm]
        exact hstep
      · refine hkeeps p.1 r v ?_ ?_ hv
        · rw [← hpair p hp]
        · rw [← hpair p hp]
          exact TransGen.head' hstep hrest
    refine ReflTransGen.head hround (ih hq.symm fun c₁ r₁ v hsteps => ?_)
    exact hkeeps c₁ r₁ v (ReflTransGen.head hstep hsteps)

end Tokens

/-! ## The gap at the comment -/

section Inserted

variable {c : Core} {m : Mode} {b g ws text : Str}

/-- a line without a heredoc -/
theorem skip_gap_not_line {mode : Mode} (hmode : mode ≠ .line) (s : Str) : (skip_gap false mode s).1 ≠ .line := by
  induction s generalizing mode with
  | nil =>
    rw [skip_gap_nil]
    exact hmode
  | cons d s ih =>
    have hnewline : newline_mode false ≠ .line := Mode.noConfusion
    cases mode with
    | gap =>
      rw [skip_gap_cons_gap]
      split_ifs
      · exact ih hnewline
      · exact ih Mode.noConfusion
      · exact ih Mode.noConfusion
      · exact Mode.noConfusion
    | comment =>
      rw [skip_gap_cons_comment]
      split_ifs
      · exact ih hnewline
      · exact ih Mode.noConfusion
    | line => exact absurd rfl hmode

/-- from `#` to the end of the line -/
theorem skip_gap_text {pending : Bool} {mode : Mode} (hmode : mode ≠ .comment) (htext : text ≠ []) (hline : '\n' ∉ text) (b : Str) :
    skip_gap pending mode ('#' :: (text ++ ['\n']) ++ b) = skip_gap pending (newline_mode pending) b := by
  have hno : ∀ d ∈ text, d ≠ '\n' := fun d hd heq => hline (heq ▸ hd)
  cases text with
  | nil => exact absurd rfl htext
  | cons d text =>
    have hstarts : starts_comment ('#' :: (d :: text ++ ['\n'] ++ b)) = true := decide_eq_true (hno d List.mem_cons_self)
    calc skip_gap pending mode ('#' :: (d :: text ++ ['\n'] ++ b))
        = skip_gap pending .comment (d :: text ++ ('\n' :: b)) := by
          rw [skip_gap_hash hmode hstarts, List.append_assoc]
          rfl
      _ = skip_gap pending .comment ('\n' :: b) := skip_gap_comment hno _
      _ = skip_gap pending (newline_mode pending) b := by rw [skip_gap_cons_comment, if_pos rfl]

theorem inserted_append (ws text b : Str) : inserted ws text ++ b = ws ++ ('#' :: (text ++ ['\n']) ++ b) := List.append_assoc _ _ _

/-- no heredoc waits -/
theorem skip_gap_inserted (hspaces : Spaces ws) (htext : text ≠ []) (hline : '\n' ∉ text) (b : Str) :
    skip_gap false .gap (inserted ws text ++ b) = skip_gap false .gap b := by
  rw [inserted_append, skip_gap_spaces hspaces]
  exact skip_gap_text Mode.noConfusion htext hline b

/-- behind a comment, in its line -/
theorem skip_gap_in_line (hws : '\n' ∉ ws) (hline : '\n' ∉ text) (b : Str) :
    skip_gap false .comment (inserted ws text ++ b) = skip_gap false .gap b := by
  have hno : ∀ d ∈ ws ++ '#' :: text, d ≠ '\n' := by
    rintro d hd rfl
    rcases List.mem_append.1 hd with h | h
    · exact hws h
    · rcases List.mem_cons.1 h with h | h
      · exact absurd h (by decide)
      · exact hline h
  have heq : inserted ws text ++ b = (ws ++ '#' :: text) ++ ('\n' :: b) := by
    unfold inserted
    simp only [List.append_assoc, List.cons_append, List.nil_append]
  rw [heq, skip_gap_comment hno, skip_gap, if_pos rfl]
  rfl

/-- behind a comment, in a later line -/
theorem skip_gap_later_line (hspaces : Spaces ws) (hws : '\n' ∈ ws) (htext : text ≠ []) (hline : '\n' ∉ text) (b : Str) :
    skip_gap false .comment (inserted ws text ++ b) = skip_gap false .gap b := by
  obtain ⟨w, w', rfl, hw⟩ := List.eq_append_cons_of_mem hws
  have hno : ∀ d ∈ w, d ≠ '\n' := fun d hd heq => hw (heq ▸ hd)
  have hrest : Spaces w' := fun d hd => hspaces d (List.mem_append_right w (List.mem_cons_of_mem _ hd))
  have heq : inserted (w ++ '\n' :: w') text ++ b = w ++ '\n' :: (inserted w' text ++ b) := by
    unfold inserted
    simp only [List.append_assoc, List.cons_append]
  rw [heq, skip_gap_comment hno, skip_gap, if_pos rfl]
  exact skip_gap_inserted hrest htext hline b

/-- a comment line in front of the body of a heredoc -/
theorem skip_gap_waiting (hne : ws ≠ []) (hspaces : Spaces ws) (hws : '\n' ∉ ws.dropLast) (htext : text ≠ []) (hline : '\n' ∉ text)
    (hb : starts_comment b = true) : skip_gap true .gap (inserted ws text ++ b) = skip_gap true .gap b := by
  obtain ⟨t, rfl⟩ : ∃ t, b = '#' :: t := by
    unfold starts_comment at hb
    split at hb
    · exact ⟨_, rfl⟩
    · exact absurd hb Bool.false_ne_true
  have hafter : ∀ mode, mode ≠ .comment →
      skip_gap true mode ('#' :: (text ++ ['\n']) ++ '#' :: t) = skip_gap true .comment t := by
    intro mode hmode
    rw [skip_gap_text hmode htext hline]
    exact skip_gap_hash Mode.noConfusion hb
  have hsplit := List.dropLast_append_getLast hne
  have hinit : ∀ d ∈ ws.dropLast, blank d = true ∧ d ≠ '\n' := fun d hd =>
    ⟨hspaces d (List.mem_of_mem_dropLast hd), fun heq => hws (heq ▸ hd)⟩
  have hlast := hspaces _ (List.getLast_mem hne)
  rw [inserted_append, skip_gap_hash Mode.noConfusion hb, ← hsplit, List.append_assoc, skip_gap_blanks hinit]
  change skip_gap true .gap (ws.getLast hne :: ('#' :: (text ++ ['\n']) ++ '#' :: t)) = _
  by_cases hnl : ws.getLast hne = '\n'
  · rw [hnl, skip_gap_newline]
    exact hafter _ Mode.noConfusion
  · rw [skip_gap_blank hlast hnl]
    exact hafter _ Mode.noConfusion

theorem gap_congr {s s' : Str} (h : landing (skip_gap c.pending c.mode s) = landing (skip_gap c.pending c.mode s')) :
    gap c s = gap c s' := by
  obtain ⟨hdue, hrest⟩ := Prod.mk.inj h
  unfold gap
  dsimp only
  rw [hdue, hrest]

/-- **The comment is skipped.** -/
theorem gap_inserted {a : Str} (hbetween : Between a b c g m) (hquiet : Quiet a b ws text c g m) (hws : ws ≠ []) (hspaces : Spaces ws)
    (hline : '\n' ∉ text) : gap c (g ++ (inserted ws text ++ b)) = gap c (g ++ b) := by
  have hdue : c.due = false := due_of_steps hbetween.run rfl
  have hmode : c.mode = .gap := by
    unfold Core.mode
    rw [hdue]
    rfl
  refine gap_congr ?_
  rw [skip_gap_append hbetween.gap, skip_gap_append hbetween.gap]
  have hgap := hbetween.gap
  by_cases hheredoc : c.heredoc = []
  · have hpending : c.pending = false := decide_eq_false fun hne => hne hheredoc
    rw [hpending] at hgap ⊢
    cases m with
    | gap =>
      have htext : text ≠ [] := hquiet.hash.resolve_right fun h => Mode.noConfusion h.1
      rw [skip_gap_inserted hspaces htext hline]
    | comment =>
      have hb : landing (skip_gap false .comment b) = landing (skip_gap false .gap b) := by
        refine landing_comment fun d t heq => hbetween.comment rfl d ?_
        rw [heq]
        rfl
      rw [hb]
      by_cases hin : '\n' ∈ ws
      · rw [skip_gap_later_line hspaces hin (hquiet.hash.resolve_right fun h => h.2 hin) hline]
      · rw [skip_gap_in_line hin hline]
    | line =>
      have hstart : c.mode ≠ .line := by
        rw [hmode]
        exact Mode.noConfusion
      have hnot := skip_gap_not_line hstart g
      rw [hgap] at hnot
      exact absurd rfl hnot
  · have hpending : c.pending = true := decide_eq_true hheredoc
    obtain ⟨rfl, hb, hlast⟩ := hquiet.heredoc.resolve_left hheredoc
    have htext : text ≠ [] := hquiet.hash.resolve_right fun h => Mode.noConfusion h.1
    rw [hpending, skip_gap_waiting hws hspaces hlast htext hline hb]

end Inserted

/-! ## The tree -/

section Inert

variable {a b ws text : Str} {c : Core} {g : Str} {m : Mode}

theorem step_unique : Relator.RightUnique Step := fun _ _ _ h h' => Option.some.inj (h.symm.trans h')

theorem steps_shorter {p p' : Core × Str} (h : TransGen Step p p') : p'.2.length < p.2.length := by
  have hone : ∀ {p p' : Core × Str}, Step p p' → p'.2.length < p.2.length := fun hstep =>
    (token_shorter hstep).trans_le (skip_gap_suffix _ _ _).length_le
  induction h with
  | single hstep => exact hone hstep
  | tail _ hstep ih => exact (hone hstep).trans ih

/-- at the end nothing is read -/
theorem not_step_of_ends {p p' : Core × Str} {t : Tree (Option Str)} (hends : Ends p.1 p.2 t) : ¬ Step p p' := by
  intro hstep
  unfold Step at hstep
  rw [hends.1, token_nil] at hstep
  cases hstep

/-- a run that ends passes every place -/
theorem steps_to_end {p q e : Core × Str} {t : Tree (Option Str)} (hq : ReflTransGen Step p q) (he : ReflTransGen Step p e)
    (hends : Ends e.1 e.2 t) : ReflTransGen Step q e := by
  rcases ReflTransGen.total_of_right_unique step_unique hq he with h | h
  · exact h
  · rcases ReflTransGen.cases_head h with heq | ⟨p', hstep, -⟩
    · rw [heq]
    · exact absurd hstep (not_step_of_ends hends)

/-- from the same place behind the gap, the same run -/
theorem ends_of_gap {s s' : Str} {t : Tree (Option Str)} (hgap : gap c s' = gap c s) {e : Core × Str}
    (he : ReflTransGen Step (c, s) e) (hends : Ends e.1 e.2 t) : ∃ e', ReflTransGen Step (c, s') e' ∧ Ends e'.1 e'.2 t := by
  rcases ReflTransGen.cases_head he with heq | ⟨p, hstep, hrest⟩
  · refine ⟨(c, s'), ReflTransGen.refl, ?_⟩
    rw [← heq] at hends
    unfold Ends at hends ⊢
    dsimp only at hends ⊢
    rw [hgap]
    exact hends
  · refine ⟨e, ReflTransGen.head ?_ hrest, hends⟩
    unfold Step at hstep ⊢
    dsimp only at hstep ⊢
    rw [hgap]
    exact hstep

/-- behind the name of a setting -/
def named (name : Str) : Core := ⟨some ⟨name, none, []⟩, start.levels, [], [], false⟩

theorem step_one : Step (start, ['a', ';']) (named ['a'], [';']) := rfl

/-- between a name and its semicolon -/
theorem between_one : Between ['a'] [';'] (named ['a']) [] .gap where
  run := ReflTransGen.single step_one
  gap := rfl
  comment := nofun

theorem quiet_one : Quiet ['a'] [';'] [' '] ['x'] (named ['a']) [] .gap where
  hash := .inl (List.cons_ne_nil _ _)
  heredoc := .inl rfl
  keeps := by
    intro c' r v hsteps htrans hgap
    rcases ReflTransGen.cases_head hsteps with heq | ⟨q, hstep, hrest⟩
    · obtain ⟨rfl, hr⟩ := Prod.mk.inj heq
      obtain rfl : ['a'] = r := List.append_cancel_right hr
      obtain rfl : ['a'] = v := List.append_cancel_right hgap
      exact ⟨nofun, nofun, nofun⟩
    · -- the only round from the start leads to the place, and none leads back
      obtain rfl : q = (named ['a'], [';']) := step_unique hstep step_one
      have hlt := steps_shorter htrans
      have hle := (steps_suffix hrest).length_le
      exact absurd (hlt.trans_le hle) (Nat.lt_irrefl _)

end Inert

end Shuttlesock.Reader
