/-
The parser reads what `Reader` says.

Model: `core` is the state of the reader that a state of the parser stands for. `Shows s c str` says that the parser in s has read as far
as the reader with the rest str: behind a semicolon the parser may be at the end of the line already.

Results:
- `skip_core`, `next_token_core`: a gap and a token of the parser are those of the reader.
- `reads_iff`: the parser returns a tree if and only if a run of the reader ends with it.
-/
import Mathlib.Tactic
import Shuttlesock.Config.Reader

namespace Shuttlesock.Reader

open Shuttlesock.Parser

/-- the open setting -/
def top : List Chunk → Option (Entry ℕ)
  | .setting h _ :: _ => some (entry h)
  | _ => none

/-- the open blocks, each with its setting -/
def levels : List Chunk → List Level
  | .block _ _ settings :: .setting h _ :: stack => ⟨entry h, trees settings⟩ :: levels stack
  | .setting _ _ :: stack => levels stack
  | _ => []

def due (s : State) : Bool := decide (s.heredoc ≠ []) && decide (last_token_type s = some (some .newline))

def core (s : State) : Core := ⟨top s.stack, levels s.stack, s.heredoc, s.values, due s⟩

theorem due_iff (s : State) : due s = true ↔ Heredoc_next s := by
  unfold due Heredoc_next
  rw [Bool.and_eq_true, decide_eq_true_eq, decide_eq_true_eq]

theorem due_eq_false {s : State} : due s = false ↔ ¬ Heredoc_next s := by
  rw [← due_iff, Bool.not_eq_true]

/-! ## The stack -/

section Stack

variable {s : State}

theorem core_eq {c : Core} (htop : top s.stack = c.top) (hlevels : levels s.stack = c.levels) (hheredoc : s.heredoc = c.heredoc)
    (hvalues : s.values = c.values) (hdue : due s = c.due) : core s = c := by
  unfold core
  rw [htop, hlevels, hheredoc, hvalues, hdue]

/-- a block stands on its setting -/
theorem open_block {first : ℕ} {tokens : List TokenType} {settings : List Setting} {stack : List Chunk}
    (h : Open (.block first tokens settings :: stack)) : ∃ hd tokens' below, stack = .setting hd tokens' :: below := by
  cases h with
  | root => exact ⟨_, _, _, rfl⟩
  | block => exact ⟨_, _, _, rfl⟩

theorem stack_of_block (h : Ok s) (hin : In_block s) : ∃ first tokens settings hd tokens' below,
    s.stack = .block first tokens settings :: .setting hd tokens' :: below := by
  obtain ⟨first, tokens, settings, stack, hstack⟩ := hin
  obtain ⟨hd, tokens', below, rfl⟩ := open_block (hstack ▸ h.stack)
  exact ⟨_, _, _, _, _, _, hstack⟩

theorem stack_of_setting (h : Ok s) (hin : In_setting s) : ∃ hd tokens first tokens' settings hd' tokens'' below,
    s.stack = .setting hd tokens :: .block first tokens' settings :: .setting hd' tokens'' :: below := by
  obtain ⟨hd, tokens, stack, hstack⟩ := hin
  have hopen := h.stack
  rw [hstack] at hopen
  cases hopen with
  | setting _ _ hb =>
    obtain ⟨hd', tokens', below, rfl⟩ := open_block hb
    exact ⟨_, _, _, _, _, _, _, _, hstack⟩

theorem due_of_last {type : Option TokenType} (h : last_token_type s = some type) :
    due s = (decide (s.heredoc ≠ []) && decide (type = some .newline)) := by
  unfold due
  rw [h]
  congr 1
  exact decide_eq_decide.2 Option.some_inj

theorem due_of_other {type : Option TokenType} (h : last_token_type s = some type) (hne : type ≠ some .newline) : due s = false := by
  rw [due_of_last h, decide_eq_false hne, Bool.and_false]

/-- the last token of a new chunk, and of a block with one more setting -/
theorem due_new {s' : State} {c : Chunk} {stack : List Chunk} (hstack : s'.stack = c :: stack)
    (hc : ∃ first hd, c = .setting hd [] ∨ c = .block first [] []) : due s' = false := by
  have hlast : last_token_type s' = some none := by
    unfold last_token_type
    rw [hstack]
    obtain ⟨first, hd, rfl | rfl⟩ := hc <;> rfl
  exact due_of_other hlast nofun

theorem due_closed {s' : State} {first : ℕ} {tokens : List TokenType} {settings : List Setting} {stack : List Chunk}
    (hstack : s'.stack = .block first (tokens ++ [.setting]) settings :: stack) : due s' = false := by
  have hlast : last_token_type s' = some (tokens ++ [TokenType.setting]).getLast? := by
    unfold last_token_type
    rw [hstack]
  refine due_of_other hlast ?_
  rw [List.getLast?_append, List.getLast?_singleton]
  exact fun heq => TokenType.noConfusion (Option.some.inj heq)

/-- tokens at the end of a list decide what is next -/
theorem add_tokens_core (h : Ok s) {ts : List TokenType} (hne : ts ≠ []) :
    ∃ s', add_tokens s ts = some s' ∧ Ok s' ∧ s'.str = s.str ∧ s'.cur = s.cur ∧
      core s' = { core s with due := decide (s.heredoc ≠ []) && decide (ts.getLast? = some .newline) } ∧
      (In_setting s → In_setting s') := by
  obtain ⟨s', heq, hlater, hin⟩ := add_tokens_later h ts
  obtain ⟨last, hlast⟩ := Option.isSome_iff_exists.1 (List.getLast?_isSome.2 hne)
  have happ : ∀ tokens : List TokenType, some (tokens ++ ts).getLast? = some ts.getLast? := by
    intro tokens
    rw [List.getLast?_append, hlast, Option.some_or]
  have hopen := h.stack
  have heq' := heq
  unfold add_tokens at heq'
  cases hstack : s.stack with
  | nil =>
    rw [hstack] at hopen
    cases hopen
  | cons c stack =>
    rw [hstack] at heq' hopen
    cases c with
    | setting hd tokens =>
      cases heq'
      have hlast : last_token_type { s with stack := .setting hd (tokens ++ ts) :: stack } = some ts.getLast? := happ tokens
      refine ⟨_, heq, hlater.toOk, rfl, rfl, core_eq ?_ ?_ rfl rfl (due_of_last hlast), hin⟩
      · exact (congrArg top hstack).symm
      · exact (congrArg levels hstack).symm
    | block first tokens settings =>
      cases heq'
      obtain ⟨hd, tokens', below, rfl⟩ := open_block hopen
      have hlast : last_token_type { s with stack := .block first (tokens ++ ts) settings :: .setting hd tokens' :: below } =
          some ts.getLast? := happ tokens
      refine ⟨_, heq, hlater.toOk, rfl, rfl, core_eq ?_ ?_ rfl rfl (due_of_last hlast), hin⟩
      · exact (congrArg top hstack).symm
      · exact (congrArg levels hstack).symm

/-- a token that is not a newline -/
theorem add_other_core (h : Ok s) {type : TokenType} (htype : type ≠ .newline) :
    ∃ s', add_tokens s [type] = some s' ∧ Ok s' ∧ s'.str = s.str ∧ s'.cur = s.cur ∧ core s' = { core s with due := false } ∧
      (In_setting s → In_setting s') := by
  obtain ⟨s', heq, hok, hstr, hcur, hcore, hin⟩ := add_tokens_core h (List.cons_ne_nil type [])
  have hnot : ¬ [type].getLast? = some .newline := fun hlast => htype (Option.some.inj hlast)
  rw [decide_eq_false hnot, Bool.and_false] at hcore
  exact ⟨s', heq, hok, hstr, hcur, hcore, hin⟩

/-- one more value of the open setting -/
theorem add_value_core (h : Ok s) (hin : In_setting s) (v : Value) {ts : List TokenType} (hnot : ts.getLast? ≠ some .newline)
    (hdue : due s = false) : ∃ s', add_value s v ts = some s' ∧ Ok s' ∧ s'.str = s.str ∧ s'.cur = s.cur ∧
      (core s).add_value v = some (core s') := by
  obtain ⟨s', heq, hlater⟩ := add_value_later h hin v ts
  obtain ⟨hd, tokens, stack, hstack⟩ := hin
  have hlast : last_token_type s = some tokens.getLast? := by
    unfold last_token_type
    rw [hstack]
  have heq' := heq
  unfold add_value at heq'
  rw [hstack] at heq'
  cases heq'
  have hlast' : last_token_type { s with
      stack := .setting { hd with values := hd.values ++ [s.values.length] } (tokens ++ ts) :: stack
      values := s.values ++ [v] } = some (tokens ++ ts).getLast? := rfl
  refine ⟨_, heq, hlater.toOk, rfl, rfl, ?_⟩
  have htop : (core s).top = some (entry hd) := congrArg top hstack
  unfold Core.add_value
  rw [htop]
  refine congrArg some (core_eq rfl ?_ rfl rfl ?_).symm
  · exact (congrArg levels hstack).symm
  · rw [due_of_last hlast, Bool.and_eq_false_iff, decide_eq_false_iff_not, decide_eq_false_iff_not] at hdue
    change _ = due s
    rw [due_of_last hlast, Bool.and_eq_false_iff.2 (by simpa using hdue), due_of_last hlast', Bool.and_eq_false_iff,
      decide_eq_false_iff_not, decide_eq_false_iff_not]
    refine hdue.imp id fun hno => ?_
    rw [List.getLast?_append]
    cases hts : ts.getLast? with
    | none => exact hno
    | some type => exact fun heq => hnot (hts.trans heq)

theorem push_setting_core (h : Ok s) (hin : In_block s) (name : Str) (module_name : Option Str) :
    ∃ s', push_setting s name module_name = some s' ∧ Ok s' ∧ s'.str = s.str ∧ s'.cur = s.cur ∧
      core s' = { core s with top := some ⟨name, module_name, []⟩, due := false } := by
  obtain ⟨s', heq, hlater⟩ := push_setting_later h hin name module_name
  obtain ⟨first, tokens, settings, hd, tokens', below, hstack⟩ := stack_of_block h hin
  have heq' := heq
  unfold push_setting at heq'
  rw [hstack] at heq'
  cases heq'
  refine ⟨_, heq, hlater.toOk, rfl, rfl, core_eq rfl ?_ rfl rfl (due_new rfl ⟨0, _, .inl rfl⟩)⟩
  exact (congrArg levels hstack).symm

theorem push_block_core (h : Ok s) (hin : In_setting s) :
    ∃ s', push_block s = some s' ∧ Ok s' ∧ s'.str = s.str ∧ s'.cur = s.cur ∧
      (core s).top.map (fun e => { core s with top := none, levels := ⟨e, []⟩ :: (core s).levels, due := false }) =
        some (core s') := by
  obtain ⟨s', heq, hlater⟩ := push_block_later h hin
  obtain ⟨hd, tokens, stack, hstack⟩ := hin
  have heq' := heq
  unfold push_block at heq'
  rw [hstack] at heq'
  cases heq'
  have htop : (core s).top = some (entry hd) := congrArg top hstack
  refine ⟨_, heq, hlater.toOk, rfl, rfl, ?_⟩
  rw [htop]
  refine congrArg some (core_eq rfl ?_ rfl rfl (due_new rfl ⟨s.cur, hd, .inr rfl⟩)).symm
  exact congrArg (Level.mk (entry hd) [] :: ·) (congrArg levels hstack).symm

theorem trees_append (l : List Setting) (setting : Setting) : trees (l ++ [setting]) = trees l ++ [tree setting] := by
  induction l with
  | nil => rfl
  | cons a l ih => exact congrArg (tree a :: ·) ih

theorem pop_setting_core (h : Ok s) (hin : In_setting s) (hdue : due s = false) :
    ∃ s', pop_setting s = some s' ∧ Ok s' ∧ s'.str = s.str ∧ s'.cur = s.cur ∧ act (core s) .semicolon = some (core s') := by
  obtain ⟨s', heq, hlater⟩ := pop_setting_later h hin
  obtain ⟨hd, tokens, first, tokens', settings, hd', tokens'', below, hstack⟩ := stack_of_setting h hin
  have heq' := heq
  unfold pop_setting close at heq'
  rw [hstack] at heq'
  cases heq'
  have htop : (core s).top = some (entry hd) := congrArg top hstack
  have hlevels : (core s).levels = ⟨entry hd', trees settings⟩ :: levels below := congrArg levels hstack
  refine ⟨_, heq, hlater.toOk, rfl, rfl, ?_⟩
  unfold act
  rw [htop, hlevels]
  refine congrArg some (core_eq rfl ?_ rfl rfl ((due_closed rfl).trans hdue.symm)).symm
  exact congrArg (Level.mk (entry hd') · :: levels below) (trees_append settings (.leaf hd))

/-- closing a block below the root's -/
theorem pop_block_core (h : Ok s) (hin : In_block s) (hdue : due s = false) (hlen : s.stack.length ≠ 2) :
    ∃ s', pop_block s = some s' ∧ Ok s' ∧ s'.str = s.str ∧ s'.cur = s.cur ∧ act (core s) .block_end = some (core s') := by
  rcases pop_block_cases h hin with ⟨-, s', heq, hlater⟩ | ⟨hlen', -⟩
  · obtain ⟨first, tokens, settings, hd, tokens', below, hstack⟩ := stack_of_block h hin
    have hopen := h.stack
    rw [hstack] at hopen
    have hbelow : ∃ first' tokens'' settings' hd' tokens₃ below', below =
        .block first' tokens'' settings' :: .setting hd' tokens₃ :: below' := by
      cases hopen with
      | root =>
        rw [hstack] at hlen
        exact absurd rfl hlen
      | block _ _ _ hs =>
        cases hs with
        | setting _ _ hb =>
          obtain ⟨hd', tokens₃, below', rfl⟩ := open_block hb
          exact ⟨_, _, _, _, _, _, rfl⟩
    obtain ⟨first', tokens'', settings', hd', tokens₃, below', rfl⟩ := hbelow
    have heq' := heq
    unfold pop_block close at heq'
    rw [hstack] at heq'
    cases heq'
    have hlevels : (core s).levels = ⟨entry hd, trees settings⟩ :: ⟨entry hd', trees settings'⟩ :: levels below' :=
      congrArg levels hstack
    refine ⟨_, heq, hlater.toOk, rfl, rfl, ?_⟩
    unfold act
    rw [hlevels]
    refine congrArg some (core_eq ?_ ?_ rfl rfl ((due_closed rfl).trans hdue.symm)).symm
    · exact (congrArg top hstack).symm
    · exact congrArg (Level.mk (entry hd') · :: levels below') (trees_append settings' (.block hd settings))
  · exact absurd hlen' hlen

end Stack

/-! ## Gaps -/

section Gaps

variable {s : State}

/-- spaces, with the newlines in them -/
theorem spaces_read_core (h : Ok s) (m : Str) : ∃ s', spaces_read s m = .token s' ∧ Ok s' ∧ s'.str = s.str ∧
    s'.cur = s.cur + m.length ∧ core s' = { core s with due := due s || (decide (s.heredoc ≠ []) && decide ('\n' ∈ m)) } := by
  have hadv := h.advance m.length
  unfold spaces_read
  dsimp only
  split
  · rename_i hzero
    refine ⟨_, rfl, hadv.toOk, rfl, rfl, ?_⟩
    have hnot : '\n' ∉ m := List.count_eq_zero.1 hzero
    rw [decide_eq_false hnot, Bool.and_false, Bool.or_false]
    rfl
  · rename_i hpos
    have hne : List.replicate (m.count '\n') TokenType.newline ≠ [] := by simpa using hpos
    obtain ⟨s', heq, hok, hstr, hcur, hcore, -⟩ := add_tokens_core hadv.toOk hne
    have hmem : '\n' ∈ m := List.count_pos_iff.1 (Nat.pos_of_ne_zero hpos)
    have hlast : (List.replicate (m.count '\n') TokenType.newline).getLast? = some .newline := by
      rw [List.getLast?_replicate, if_neg hpos]
    have hdue : (due s || (decide (s.heredoc ≠ []) && decide ('\n' ∈ m))) = decide (s.heredoc ≠ []) := by
      unfold due
      rw [decide_eq_true hmem]
      cases decide (s.heredoc ≠ []) <;> simp
    rw [hlast, decide_eq_true rfl, Bool.and_true] at hcore
    rw [heq, hdue]
    exact ⟨s', rfl, hok, hstr, hcur, hcore⟩

/-- the comment at the start of a text -/
theorem comment_some {str m : Str} (h : comment str = some m) : starts_comment str = true ∧
    ∃ w r, m = '#' :: w ∧ str = m ++ r ∧ (∀ c ∈ w, c ≠ '\n') ∧ ∀ c t, r = c :: t → c = '\n' := by
  unfold comment at h
  split at h
  · rename_i t
    obtain ⟨w, hw, rfl⟩ := Option.map_eq_some_iff.1 h
    obtain ⟨hsplit, hall⟩ := some_of_prefix hw
    obtain ⟨c, w', rfl⟩ := List.exists_cons_of_ne_nil (some_of_ne_nil hw)
    have hc : c ≠ '\n' := by simpa using hall c List.mem_cons_self
    refine ⟨?_, c :: w', t.dropWhile (· ≠ '\n'), rfl, congrArg ('#' :: ·) hsplit, fun d hd => by simpa using hall d hd,
      fun d t' heq => ?_⟩
    · rw [hsplit]
      exact decide_eq_true hc
    · have hhead := List.head?_dropWhile_not (fun c : Char => decide (c ≠ '\n')) t
      rw [heq] at hhead
      simpa using hhead
  · cases h

theorem comment_none {str : Str} (h : comment str = none) : starts_comment str = false := by
  unfold starts_comment
  split
  · rename_i c t
    unfold comment at h
    have hnil := Option.map_eq_none_iff.1 h
    by_contra hne
    have hc : c ≠ '\n' := by simpa using hne
    unfold some_of at hnil
    rw [List.takeWhile_cons_of_pos (by simpa using hc), if_neg (List.cons_ne_nil _ _)] at hnil
    cases hnil
  · rfl

/-- one comment -/
theorem skip_comment_core (h : Ok s) : (starts_comment s.rest = false ∧ skip_comment s = .no) ∨
    starts_comment s.rest = true ∧ ∃ s', skip_comment s = .token s' ∧ Ok s' ∧ s'.str = s.str ∧ s.cur < s'.cur ∧
      core s' = { core s with due := false } ∧ (In_setting s → In_setting s') ∧
      ∀ pending, ∀ mode ≠ Mode.comment, landing (skip_gap pending mode s.rest) = landing (skip_gap pending .gap s'.rest) := by
  unfold skip_comment
  cases hm : comment s.rest with
  | none => exact .inl ⟨comment_none hm, rfl⟩
  | some m =>
    obtain ⟨hstarts, w, r, rfl, hsplit, hw, hend⟩ := comment_some hm
    have hadv := h.advance_next (List.length_pos_of_ne_nil (List.cons_ne_nil '#' w))
    obtain ⟨s', heq, hok, hstr, hcur, hcore, hin⟩ := add_other_core hadv.toOk (TokenType.noConfusion : TokenType.comment ≠ .newline)
    dsimp only
    rw [heq]
    refine .inr ⟨hstarts, s', rfl, hok, hstr, ?_, hcore, hin, fun pending mode hmode => ?_⟩
    · rw [hcur]
      exact hadv.lt
    · rw [hsplit] at hstarts
      have hpass : skip_gap pending mode ('#' :: (w ++ r)) = skip_gap pending .comment r :=
        (skip_gap_hash hmode hstarts).trans (skip_gap_comment hw r)
      rw [rest_after h.cur hsplit hstr hcur, ← landing_comment hend, ← hpass, hsplit]
      rfl

theorem blank_iff (c : Char) : blank c = true ↔ c ∈ [' ', '\t', '\r', '\n'] := decide_eq_true_iff

/-- spaces up to a newline, or without one -/
theorem spaces_newline_some {str m : Str} (h : spaces_newline str = some m) : ∃ w r, str = m ++ r ∧ m ≠ [] ∧
    (∀ c ∈ w, blank c = true ∧ c ≠ '\n') ∧ (m = w ++ ['\n'] ∨ m = w) := by
  have hw : ∀ c ∈ str.takeWhile (· ∈ [' ', '\t', '\r']), blank c = true ∧ c ≠ '\n' := by
    intro c hc
    have hmem := List.mem_takeWhile_imp hc
    rw [decide_eq_true_eq] at hmem
    rw [blank_iff]
    constructor
    · simp only [List.mem_cons, List.not_mem_nil, or_false] at hmem ⊢
      tauto
    · rintro rfl
      exact absurd hmem (by decide)
  have hsplit := List.takeWhile_append_dropWhile (p := (· ∈ [' ', '\t', '\r'])) (l := str)
  have hdrop : str.drop (str.takeWhile (· ∈ [' ', '\t', '\r'])).length = str.dropWhile (· ∈ [' ', '\t', '\r']) :=
    (congrArg (List.drop (str.takeWhile (· ∈ [' ', '\t', '\r'])).length) hsplit.symm).trans List.drop_left
  have hne := spaces_newline_ne_nil h
  unfold spaces_newline at h
  dsimp only at h
  split_ifs at h with hnl hnil
  · rw [hdrop] at hnl
    obtain ⟨r, hr⟩ := List.head?_eq_some_iff.1 hnl
    cases h
    refine ⟨_, r, ?_, hne, hw, .inl rfl⟩
    rw [List.append_assoc, List.singleton_append, ← hr, hsplit]
  · cases h
    exact ⟨_, _, hsplit.symm, hne, hw, .inr rfl⟩

theorem spaces_newline_none {c : Char} {t : Str} (h : spaces_newline (c :: t) = none) : blank c = false := by
  rw [← Bool.not_eq_true, blank_iff]
  intro hmem
  unfold spaces_newline at h
  dsimp only at h
  by_cases hc : c ∈ [' ', '\t', '\r']
  · have htake : (c :: t).takeWhile (· ∈ [' ', '\t', '\r']) = c :: t.takeWhile (· ∈ [' ', '\t', '\r']) :=
      List.takeWhile_cons_of_pos (decide_eq_true hc)
    rw [htake] at h
    split_ifs at h with hnl hnil
    cases hnil
  · rw [List.takeWhile_cons_of_neg (by rw [decide_eq_true_eq]; exact hc)] at h
    obtain rfl : c = '\n' := by
      simp only [List.mem_cons, List.not_mem_nil, or_false] at hmem hc
      tauto
    cases h

theorem core_mode (s : State) : (core s).mode = if due s then .line else .gap := rfl

/-- one run of spaces -/
theorem skip_space_core (h : Ok s) :
    (skip_space s = .no ∧ (starts_comment s.rest = false →
      skip_gap (core s).pending (core s).mode s.rest = ((core s).mode, s.rest))) ∨
    ∃ s', skip_space s = .token s' ∧ Ok s' ∧ s'.str = s.str ∧ s.cur < s'.cur ∧ s.rest ≠ [] ∧
      core s' = { core s with due := due s' } ∧
      skip_gap (core s).pending (core s).mode s.rest = skip_gap (core s).pending (core s').mode s'.rest := by
  obtain ⟨type, htype⟩ := last_token_type_some h
  unfold skip_space
  by_cases hno : s.heredoc = []
  · have hpending : (core s).pending = false := by
      change decide (s.heredoc ≠ []) = false
      rw [hno]
      rfl
    have hdue : due s = false := due_eq_false.2 fun hnext => hnext.1 hno
    rw [if_pos hno, hpending, core_mode, hdue, if_neg Bool.false_ne_true]
    cases hm : some_of (· ∈ [' ', '\t', '\r', '\n']) s.rest with
    | none =>
      refine .inl ⟨rfl, fun hcomment => ?_⟩
      cases hrest : s.rest with
      | nil => exact skip_gap_nil _
      | cons c t =>
        rw [hrest] at hm hcomment
        refine skip_gap_stop ?_ hcomment
        rw [← Bool.not_eq_true, blank_iff]
        intro hmem
        have htake : (c :: t).takeWhile (· ∈ [' ', '\t', '\r', '\n']) = c :: t.takeWhile (· ∈ [' ', '\t', '\r', '\n']) :=
          List.takeWhile_cons_of_pos (decide_eq_true hmem)
        unfold some_of at hm
        rw [htake, if_neg (List.cons_ne_nil _ _)] at hm
        cases hm
    | some m =>
      obtain ⟨hsplit, hall⟩ := some_of_prefix hm
      obtain ⟨s', heq, hok, hstr, hcur, hcore⟩ := spaces_read_core h m
      have hpos := List.length_pos_of_ne_nil (some_of_ne_nil hm)
      have hdue' : due s' = false := by
        have hcore' := congrArg Core.due hcore
        change due s' = (due s || _) at hcore'
        rw [hcore', hdue, decide_eq_false (by simpa using hno)]
        rfl
      have hrest : s.rest ≠ [] := hsplit ▸ List.append_ne_nil_of_left_ne_nil (some_of_ne_nil hm) _
      refine .inr ⟨s', heq, hok, hstr, by omega, hrest, ?_, ?_⟩
      · rw [hcore, hdue', hdue, decide_eq_false (by simpa using hno)]
        rfl
      · rw [core_mode, hdue', if_neg Bool.false_ne_true, rest_after h.cur hsplit hstr hcur]
        conv_lhs => rw [hsplit]
        exact skip_gap_spaces hall _
  · have hpending : (core s).pending = true := decide_eq_true hno
    have hheredoc : decide (s.heredoc ≠ []) = true := decide_eq_true hno
    rw [if_neg hno, htype, hpending, core_mode]
    dsimp only
    by_cases hnl : type = some .newline
    · have hdue : due s = true := (due_iff s).2 ⟨hno, by rw [htype, hnl]⟩
      rw [if_pos hnl, hdue, if_pos rfl]
      exact .inl ⟨rfl, fun hcomment => skip_gap_line hcomment⟩
    · have hdue : due s = false := due_of_other htype hnl
      rw [if_neg hnl, hdue, if_neg Bool.false_ne_true]
      cases hm : spaces_newline s.rest with
      | none =>
        refine .inl ⟨rfl, fun hcomment => ?_⟩
        cases hrest : s.rest with
        | nil => exact skip_gap_nil _
        | cons c t =>
          rw [hrest] at hm hcomment
          exact skip_gap_stop (spaces_newline_none hm) hcomment
      | some m =>
        obtain ⟨w, r, hsplit, hne, hw, hm'⟩ := spaces_newline_some hm
        obtain ⟨s', heq, hok, hstr, hcur, hcore⟩ := spaces_read_core h m
        have hpos := List.length_pos_of_ne_nil hne
        have hdue' : due s' = decide ('\n' ∈ m) := by
          have hcore' := congrArg Core.due hcore
          change due s' = (due s || _) at hcore'
          rw [hcore', hdue, hheredoc]
          rfl
        have hrest : s.rest ≠ [] := hsplit ▸ List.append_ne_nil_of_left_ne_nil hne _
        refine .inr ⟨s', heq, hok, hstr, by omega, hrest, ?_, ?_⟩
        · rw [hcore, hdue', hdue, hheredoc]
          rfl
        · rw [core_mode, hdue', rest_after h.cur hsplit hstr hcur, hsplit]
          rcases hm' with rfl | rfl
          · rw [decide_eq_true (List.mem_append_right w (List.mem_singleton_self _)), if_pos rfl, List.append_assoc,
              List.singleton_append, skip_gap_blanks hw, skip_gap_newline]
            rfl
          · rw [decide_eq_false fun hmem => (hw _ hmem).2 rfl, if_neg Bool.false_ne_true, skip_gap_blanks hw]

theorem gap_stop (h : skip_gap (core s).pending (core s).mode s.rest = ((core s).mode, s.rest)) :
    gap (core s) s.rest = (core s, s.rest) := by
  unfold gap
  rw [h, core_mode]
  cases hdue : due s with
  | false => exact Prod.ext (core_eq rfl rfl rfl rfl hdue).symm rfl
  | true => exact Prod.ext (core_eq rfl rfl rfl rfl hdue).symm rfl

/-- a part of a gap, and the rest of it -/
theorem gap_go {s' : State} (hcore : core s' = { core s with due := due s' })
    (hland : landing (skip_gap (core s).pending (core s).mode s.rest) =
      landing (skip_gap (core s).pending (core s').mode s'.rest)) : gap (core s') s'.rest = gap (core s) s.rest := by
  have hpending : (core s').pending = (core s).pending := by
    rw [hcore]
    rfl
  obtain ⟨hdue, hrest⟩ := Prod.mk.inj hland
  unfold gap
  rw [hpending]
  dsimp only
  rw [hrest, hdue, hcore]

theorem rest_shorter {s' : State} (h : Ok s) (hstr : s'.str = s.str) (hlt : s.cur < s'.cur) (hne : s.rest ≠ []) :
    s'.rest.length < s.rest.length := by
  have hpos := List.length_pos_of_ne_nil hne
  have hcur := h.cur
  rw [rest_length] at hpos
  rw [rest_length, rest_length, hstr]
  omega

/-- **A gap of the parser**, with enough fuel -/
theorem skip_core (n : ℕ) (h : Ok s) (hn : s.rest.length ≤ n) : ∃ t, skip n s = .token t ∧ Ok t ∧ t.str = s.str ∧
    (core t, t.rest) = gap (core s) s.rest := by
  induction n generalizing s with
  | zero =>
    have hnil := List.eq_nil_of_length_eq_zero (Nat.le_zero.1 hn)
    refine ⟨s, rfl, h, rfl, (gap_stop ?_).symm⟩
    rw [hnil]
    exact skip_gap_nil _
  | succ n ih =>
    rcases skip_space_core h with ⟨hspace, hstop⟩ | ⟨s', hspace, hok, hstr, hlt, hne, hcore, hgo⟩
    · rcases skip_comment_core h with ⟨hnot, hcomment⟩ | ⟨hstarts, s', hcomment, hok, hstr, hlt, hcore, -, hgo⟩
      · refine ⟨s, skip_of_no _ ?_, h, rfl, (gap_stop (hstop hnot)).symm⟩
        rw [hspace, Outcome.orElse, hcomment]
      · have hne : s.rest ≠ [] := by
          intro hnil
          rw [hnil] at hstarts
          cases hstarts
        have hshort := rest_shorter h hstr hlt hne
        obtain ⟨t, hskip, ht, htstr, hgap⟩ := ih hok (by omega)
        have hdue : due s' = false := congrArg Core.due hcore
        have hmode : (core s').mode = .gap := by
          rw [core_mode, hdue, if_neg Bool.false_ne_true]
        refine ⟨t, ?_, ht, htstr.trans hstr, hgap.trans (gap_go ?_ ?_)⟩
        · rw [skip, hspace, Outcome.orElse, hcomment]
          exact hskip
        · rw [hdue]
          exact hcore
        · rw [hmode]
          refine hgo _ _ fun heq => ?_
          rw [core_mode] at heq
          split at heq <;> cases heq
    · have hshort := rest_shorter h hstr hlt hne
      obtain ⟨t, hskip, ht, htstr, hgap⟩ := ih hok (by omega)
      refine ⟨t, ?_, ht, htstr.trans hstr, hgap.trans (gap_go hcore (congrArg landing hgo))⟩
      rw [skip, hspace]
      exact hskip

/-- the blanks and the comment that are skipped together with a semicolon -/
theorem trail_core (h : Ok s) (hin : In_setting s) (hdue : due s = false) (f : State → Outcome) :
    ∃ s', ((skip_blanks s).attempt s fun s => (skip_comment s).attempt s f) = f s' ∧ Ok s' ∧ In_setting s' ∧ core s' = core s ∧
      ∀ pending, landing (skip_gap pending .gap s'.rest) = landing (skip_gap pending .gap s.rest) := by
  have hcomment : ∀ {u : State}, Ok u → In_setting u → core u = core s →
      ∃ s', ((skip_comment u).attempt u f) = f s' ∧ Ok s' ∧ In_setting s' ∧ core s' = core s ∧
        ∀ pending, landing (skip_gap pending .gap s'.rest) = landing (skip_gap pending .gap u.rest) := by
    intro u hu hinu hcore
    rcases skip_comment_core hu with ⟨-, heq⟩ | ⟨-, s', heq, hok, -, -, hcore', hin', hland⟩
    · rw [heq]
      exact ⟨u, rfl, hu, hinu, hcore, fun _ => rfl⟩
    · rw [heq]
      refine ⟨s', rfl, hok, hin' hinu, ?_, fun pending => (hland pending .gap nofun).symm⟩
      rw [hcore', hcore]
      exact core_eq rfl rfl rfl rfl hdue |>.symm
  unfold skip_blanks
  cases hm : some_of (· ∈ [' ', '\t']) s.rest with
  | none => exact hcomment h hin rfl
  | some m =>
    obtain ⟨hsplit, hall⟩ := some_of_prefix hm
    have hblanks : ∀ c ∈ m, blank c = true ∧ c ≠ '\n' := by
      intro c hc
      have hmem := of_decide_eq_true (hall c hc)
      rw [blank_iff]
      simp only [List.mem_cons, List.not_mem_nil, or_false] at hmem ⊢
      rcases hmem with rfl | rfl <;> decide
    have hnot : '\n' ∉ m := fun hmem => (hblanks _ hmem).2 rfl
    have hread : spaces_read s m = .token (s.advance m.length) := by
      unfold spaces_read
      dsimp only
      rw [if_pos (List.count_eq_zero.2 hnot)]
    obtain ⟨s', heq, hok, hin', hcore, hland⟩ := hcomment (h.advance m.length).toOk hin rfl
    rw [Option.elim, hread]
    refine ⟨s', heq, hok, hin', hcore, fun pending => (hland pending).trans (congrArg landing ?_)⟩
    have hrest : (s.advance m.length).rest = s.rest.dropWhile (· ∈ [' ', '\t']) := rest_after h.cur hsplit rfl rfl
    rw [hrest, ← skip_gap_blanks hblanks, ← hsplit]

end Gaps

/-! ## Tokens -/

section Tokens

variable {s t : State}

/-- the parser in s has read as far as the reader -/
structure Shows (s : State) (c : Core) (str : Str) : Prop where
  ok : Ok s
  core : core s = c
  gap : gap c s.rest = gap c str

/-- what the parser reads is what the reader reads, unless the root is closed -/
def Agrees (r : Outcome) (p : Option (Core × Str)) : Prop :=
  (∃ s' c str, r = .token s' ∧ p = some (c, str) ∧ Shows s' c str) ∨ p = none ∧ ∀ s', r = .token s' → s'.stack = []

/-- a token with this length -/
def acted (c : Core) (str : Str) (l : Lexeme) : Option (Core × Str) := (act c l).map fun c' => (c', str.drop l.len)

theorem agrees_token (h : Ok s) {s' : State} (hok : Ok s') (hstr : s'.str = s.str) {l : Lexeme} (hcur : s'.cur = s.cur + l.len)
    (hact : act (core s) l = some (core s')) : Agrees (.token s') (acted (core s) s.rest l) := by
  have hrest : s'.rest = s.rest.drop l.len := by
    rw [← rest_drop h.cur l.len]
    unfold State.rest State.advance
    rw [hstr, hcur]
  refine .inl ⟨s', core s', s.rest.drop l.len, rfl, ?_, hok, rfl, ?_⟩
  · unfold acted
    rw [hact]
    rfl
  · rw [hrest]

theorem agrees_error (c : Core) (str : Str) (err : String) (s' : State) : Agrees (.error err s') (acted c str .wrong) :=
  .inr ⟨rfl, nofun⟩

theorem agrees_raise (c : Core) (str : Str) : Agrees .raise (acted c str .wrong) := .inr ⟨rfl, nofun⟩

/-- a value of the open setting -/
theorem value_agrees (h : Ok s) (hin : In_setting s) (hdue : due s = false) (v : Value) (len : ℕ) :
    Agrees (.assert (add_value_to_setting (s.advance len) v)) (acted (core s) s.rest (.value v len)) := by
  have hlast : ([.value v.type] : List TokenType).getLast? ≠ some .newline := nofun
  obtain ⟨s', heq, hok, hstr, hcur, hadd⟩ := add_value_core (h.advance len).toOk hin v hlast hdue
  unfold add_value_to_setting
  rw [heq]
  exact agrees_token h hok hstr hcur hadd

theorem heredoc_agrees (h : Ok s) (hin : In_setting s) (hdue : due s = false) (type : HeredocType) (label : Str) (len : ℕ) :
    Agrees (heredoc_started (s.advance len) type label) (acted (core s) s.rest (lex_label type label len)) := by
  unfold heredoc_started lex_label
  split
  · exact agrees_error _ _ _ _
  · obtain ⟨hd, tokens, first, tokens', settings, hd', tokens'', below, hstack⟩ := stack_of_setting h hin
    have hopen := h.stack
    rw [hstack] at hopen
    have hadv : (s.advance len).stack = s.stack := rfl
    unfold add_tokens add_value
    rw [hadv, hstack]
    dsimp only [Outcome.assert, Outcome.bind]
    apply agrees_token h (l := .heredoc type label len)
    · refine ⟨(h.advance len).toOk.cur, ?_⟩
      cases hopen with
      | setting _ _ hb => exact .setting _ _ hb
    · rfl
    · rfl
    · have htop : (core s).top = some (entry hd) := congrArg top hstack
      unfold act Core.add_value
      rw [htop]
      refine congrArg some (core_eq rfl ?_ rfl rfl ?_).symm
      · exact (congrArg levels hstack).symm
      · change _ = due s
        rw [hdue]
        refine due_of_other rfl ?_
        rw [List.append_nil, List.getLast?_append]
        exact fun heq => TokenType.noConfusion (Option.some.inj heq)

theorem add_value_due {c c' : Core} {v : Value} (h : c.add_value v = some c') : c'.due = c.due := by
  obtain ⟨e, -, rfl⟩ := Option.map_eq_some_iff.1 h
  rfl

/-- only gaps and heredocs decide whether a body is next -/
theorem act_due {c c' : Core} {l : Lexeme} (h : act c l = some c') : c'.due = c.due := by
  cases l with
  | name =>
    cases h
    rfl
  | value => exact add_value_due h
  | heredoc =>
    obtain ⟨c₁, hadd, heq⟩ := Option.map_eq_some_iff.1 h
    have hdue : c₁.due = c.due := add_value_due hadd
    rw [← heq]
    exact hdue
  | semicolon =>
    dsimp only [act] at h
    split at h
    · cases h
      rfl
    · cases h
  | block_start =>
    obtain ⟨e, -, rfl⟩ := Option.map_eq_some_iff.1 h
    rfl
  | block_end =>
    dsimp only [act] at h
    split at h
    · cases h
      rfl
    · cases h
  | wrong => cases h

theorem semicolon_agrees (h : Ok s) (hin : In_setting s) (hdue : due s = false) {r : Str} (hrest : s.rest = ';' :: r) :
    Agrees (match_semicolon s) (acted (core s) s.rest .semicolon) ∧ match_semicolon s ≠ .no := by
  obtain ⟨s₁, heq₁, hok₁, hstr₁, hcur₁, hcore₁, hin₁⟩ :=
    add_other_core (h.advance 1).toOk (TokenType.noConfusion : TokenType.semicolon ≠ .newline)
  have hdue₁ : due s₁ = false := congrArg Core.due hcore₁
  have hsame : core s₁ = core s := by
    rw [hcore₁]
    exact (core_eq rfl rfl rfl rfl hdue).symm
  obtain ⟨s₂, heq₂, hok₂, hin₂, hcore₂, hland⟩ := trail_core hok₁ (hin₁ hin) hdue₁ fun s => .assert (pop_setting s)
  have hdue₂ : due s₂ = false := (congrArg Core.due hcore₂).trans hdue₁
  obtain ⟨s₃, heq₃, hok₃, hstr₃, hcur₃, hact⟩ := pop_setting_core hok₂ hin₂ hdue₂
  rw [hcore₂, hsame] at hact
  have hfold : match_semicolon s = .token s₃ := by
    unfold match_semicolon
    rw [if_pos (by rw [hrest]; rfl), heq₁]
    exact heq₂.trans (congrArg Outcome.assert heq₃)
  have hr₁ : s₁.rest = r := by
    refine rest_after h.cur (m := [';']) hrest hstr₁ hcur₁
  have hr₃ : s₃.rest = s₂.rest := by
    unfold State.rest
    rw [hstr₃, hcur₃]
  have hdue₃ : (core s₃).mode = .gap := by
    have hdue' : due s₃ = false := (act_due hact).trans hdue
    rw [core_mode, hdue', if_neg Bool.false_ne_true]
  refine ⟨.inl ⟨s₃, core s₃, r, hfold, ?_, hok₃, rfl, ?_⟩, by rw [hfold]; exact Outcome.noConfusion⟩
  · unfold acted
    rw [hact, hrest]
    rfl
  · unfold gap
    have hl := hland (core s₃).pending
    rw [hr₁] at hl
    obtain ⟨hd, hs⟩ := Prod.mk.inj hl
    rw [hr₃, hdue₃]
    dsimp only
    rw [hd, hs]

/-- the token in a block -/
theorem block_agrees (h : Ok s) (hin : In_block s) (hdue : due s = false) :
    Agrees ((match_block_end s).orElse fun _ => match_setting_name s) (acted (core s) s.rest (lex_block s.rest)) := by
  obtain ⟨first, tokens, settings, hd, tokens', below, hstack⟩ := stack_of_block h hin
  unfold lex_block match_block_end
  by_cases hbrace : s.rest.head? = some '\x7d'
  · rw [if_pos hbrace, if_pos hbrace, hstack]
    by_cases hlen : s.stack.length = 2
    · obtain rfl : below = [] := by
        rw [hstack] at hlen
        exact List.eq_nil_of_length_eq_zero (Nat.succ.inj (Nat.succ.inj hlen))
      have hlevels : (core s).levels = [⟨entry hd, trees settings⟩] := congrArg levels hstack
      have hadv : (s.advance 1).stack = s.stack := rfl
      unfold acted act pop_block close
      rw [hlevels, hadv, hstack]
      refine .inr ⟨rfl, fun s' heq => ?_⟩
      cases heq
      rfl
    · obtain ⟨s', heq, hok, hstr, hcur, hact⟩ := pop_block_core (h.advance 1).toOk hin hdue hlen
      dsimp only
      rw [heq]
      exact agrees_token h (l := .block_end) hok hstr hcur hact
  · rw [if_neg hbrace, if_neg hbrace]
    unfold Outcome.orElse match_setting_name
    dsimp only
    by_cases hsemi : s.rest.head? = some ';'
    · rw [if_pos hsemi, if_pos (.inl hsemi)]
      exact agrees_error _ _ _ _
    · rw [if_neg hsemi]
      by_cases hopen : s.rest.head? = some '\x7b'
      · rw [if_pos hopen, if_pos (.inr hopen)]
        exact agrees_error _ _ _ _
      · rw [if_neg hopen, if_neg (not_or.2 ⟨hsemi, hopen⟩)]
        cases hm : some_of (fun c => !isspace c && c ≠ '$' && c ≠ ';') s.rest with
        | none =>
          dsimp only [Option.elim]
          split <;> exact agrees_error _ _ _ _
        | some m =>
          dsimp only [Option.elim]
          have hname : ∀ name module_name, Agrees (.assert (push_setting (s.advance m.length) name module_name))
              (acted (core s) s.rest (.name name module_name m.length)) := by
            intro name module_name
            obtain ⟨s', heq, hok, hstr, hcur, hcore⟩ := push_setting_core (h.advance m.length).toOk hin name module_name
            rw [heq]
            refine agrees_token h (l := .name name module_name m.length) hok hstr hcur ?_
            rw [hcore]
            exact congrArg (fun due => some (Core.mk (some ⟨name, module_name, []⟩) (core s).levels s.heredoc s.values due)) hdue
          unfold lex_name
          by_cases hcolon : ':' ∈ m
          · rw [if_pos hcolon, if_pos hcolon]
            cases qualified_name m with
            | none => exact agrees_error _ _ _ _
            | some r => exact hname r.2 (some r.1)
          · rw [if_neg hcolon, if_neg hcolon]
            exact hname m none

theorem assert_ne_no (o : Option State) : Outcome.assert o ≠ .no := by
  cases o <;> exact Outcome.noConfusion

theorem Agrees.orElse {r : Outcome} {p : Option (Core × Str)} (h : Agrees r p) (hno : r ≠ .no) (f : Unit → Outcome) :
    Agrees (r.orElse f) p := by
  cases r with
  | no => exact absurd rfl hno
  | token s' => exact h
  | error err s' => exact h
  | raise => exact h

theorem variable_agrees (h : Ok s) (hin : In_setting s) (hdue : due s = false) :
    (lex_variable s.rest = none ∧ match_variable s = .no) ∨
      ∃ l, lex_variable s.rest = some l ∧ Agrees (match_variable s) (acted (core s) s.rest l) ∧ match_variable s ≠ .no := by
  unfold lex_variable match_variable
  cases parse_variable s.rest with
  | absent => exact .inl ⟨rfl, rfl⟩
  | invalid err => exact .inr ⟨.wrong, rfl, agrees_error _ _ _ _, Outcome.noConfusion⟩
  | raise => exact .inr ⟨.wrong, rfl, agrees_raise _ _, Outcome.noConfusion⟩
  | token name params len =>
    dsimp only
    cases (s.rest.drop len).head? with
    | none => exact .inl ⟨rfl, rfl⟩
    | some nextchar =>
      dsimp only [Option.bind]
      split
      · exact .inr ⟨_, rfl, value_agrees h hin hdue ⟨.var, s.rest.take len, none⟩ len, assert_ne_no _⟩
      · exact .inl ⟨rfl, rfl⟩

theorem heredoc_started_ne_no (type : HeredocType) (label : Str) : heredoc_started s type label ≠ .no := by
  unfold heredoc_started
  split
  · exact Outcome.noConfusion
  · cases add_tokens s [.heredoc_start] with
    | none => exact Outcome.noConfusion
    | some s' =>
      dsimp only [Outcome.assert, Outcome.bind]
      cases add_value s' ⟨.string, label, none⟩ [] <;> exact Outcome.noConfusion

theorem advance_advance (s : State) (m n : ℕ) : (s.advance m).advance n = s.advance (m + n) :=
  congrArg (fun cur => { s with cur := cur }) (Nat.add_assoc _ _ _)

theorem heredoc_start_agrees (h : Ok s) (hin : In_setting s) (hdue : due s = false) {type : HeredocType} {len : ℕ}
    (htype : heredoc_type s.rest = some (type, len)) :
    Agrees (match_heredoc_start s) (acted (core s) s.rest (lex_heredoc type len (s.rest.drop len))) ∧ match_heredoc_start s ≠ .no := by
  unfold match_heredoc_start lex_heredoc
  rw [htype]
  dsimp only
  rw [rest_drop h.cur]
  cases hm : match_string (s.rest.drop len) with
  | none =>
    dsimp only
    rw [advance_advance]
    exact ⟨heredoc_agrees h hin hdue type _ _, heredoc_started_ne_no _ _⟩
  | some r =>
    obtain ⟨label, quote_char⟩ := r
    cases label with
    | none => exact ⟨agrees_error _ _ _ _, Outcome.noConfusion⟩
    | some label =>
      dsimp only
      rw [advance_advance]
      exact ⟨heredoc_agrees h hin hdue type label _, heredoc_started_ne_no _ _⟩

/-- what no value starts with -/
theorem plain_agrees (h : Ok s) (hin : In_setting s) (hdue : due s = false) :
    Agrees ((match_block_start s).orElse fun _ => (match_block_end s).orElse fun _ => (match_semicolon s).orElse fun _ =>
      match_value s) (acted (core s) s.rest (lex_plain s.rest)) := by
  unfold lex_plain
  by_cases hopen : s.rest.head? = some '\x7b'
  · obtain ⟨s', heq, hok, hstr, hcur, hact⟩ := push_block_core (h.advance 1).toOk hin
    rw [if_pos hopen]
    unfold match_block_start
    rw [if_pos hopen, heq]
    refine agrees_token h (l := .block_start) hok hstr hcur (Eq.trans ?_ hact)
    exact congrArg (fun due => (core s).top.map fun e => Core.mk none (⟨e, []⟩ :: (core s).levels) s.heredoc s.values due) hdue
  · have hstart : match_block_start s = .no := if_neg hopen
    rw [if_neg hopen, hstart, Outcome.orElse]
    by_cases hbrace : s.rest.head? = some '\x7d'
    · rw [if_pos hbrace]
      obtain ⟨hd, tokens, below, hstack⟩ := hin
      unfold match_block_end
      rw [if_pos hbrace, hstack]
      exact agrees_error _ _ _ _
    · have hend : match_block_end s = .no := if_neg hbrace
      rw [if_neg hbrace, hend, Outcome.orElse]
      by_cases hsemi : s.rest.head? = some ';'
      · obtain ⟨r, hrest⟩ := List.head?_eq_some_iff.1 hsemi
        rw [if_pos hsemi]
        obtain ⟨hagrees, hno⟩ := semicolon_agrees h hin hdue hrest
        exact hagrees.orElse hno _
      · have hnot : match_semicolon s = .no := if_neg hsemi
        rw [if_neg hsemi, hnot, Outcome.orElse]
        unfold match_value
        cases some_of (fun c => !isspace c && c ≠ ';') s.rest with
        | none => exact agrees_error _ _ _ _
        | some m => exact value_agrees h hin hdue ⟨.value, m, none⟩ m.length

/-- the token in a setting -/
theorem setting_agrees (h : Ok s) (hin : In_setting s) (hdue : due s = false) :
    Agrees ((match_heredoc_start s).orElse fun _ => (match_string_value s).orElse fun _ => (match_variable s).orElse fun _ =>
      (match_block_start s).orElse fun _ => (match_block_end s).orElse fun _ => (match_semicolon s).orElse fun _ => match_value s)
      (acted (core s) s.rest (lex_setting s.rest)) := by
  unfold lex_setting
  cases htype : heredoc_type s.rest with
  | some r =>
    obtain ⟨type, len⟩ := r
    obtain ⟨hagrees, hno⟩ := heredoc_start_agrees h hin hdue htype
    exact hagrees.orElse hno _
  | none =>
    have hstart : match_heredoc_start s = .no := by
      unfold match_heredoc_start
      rw [htype]
    rw [hstart, Outcome.orElse]
    cases hm : match_string s.rest with
    | some r =>
      obtain ⟨text, quote_char⟩ := r
      unfold match_string_value
      rw [hm]
      cases text with
      | none => exact agrees_error _ _ _ _
      | some text =>
        exact (value_agrees h hin hdue ⟨.string, text, some quote_char⟩ (text.length + 2)).orElse (assert_ne_no _) _
    | none =>
      have hstring : match_string_value s = .no := by
        unfold match_string_value
        rw [hm]
      rw [hstring, Outcome.orElse]
      dsimp only
      rcases variable_agrees h hin hdue with ⟨hlex, hno⟩ | ⟨l, hlex, hagrees, hno⟩
      · rw [hlex, hno]
        exact plain_agrees h hin hdue
      · rw [hlex]
        exact hagrees.orElse hno _

/-- the body of a heredoc -/
theorem body_agrees (h : Ok s) (hdue : due s = true) : Agrees (match_heredoc s) (token (core s) s.rest) ∧ match_heredoc s ≠ .no := by
  obtain ⟨hne, hlast⟩ := (due_iff s).1 hdue
  obtain ⟨heredoc, later, hq⟩ := List.exists_cons_of_ne_nil hne
  have hcq : (core s).heredoc = heredoc :: later := hq
  have hcdue : (core s).due = true := hdue
  have hrest : ∀ q, State.rest { s with heredoc := q } = s.rest := fun _ => rfl
  unfold match_heredoc token
  rw [hcdue, if_pos rfl, hcq, hq, hlast]
  dsimp only
  rw [if_pos rfl, hrest]
  cases hclose : body_close heredoc.type heredoc.label s.rest with
  | none => exact ⟨.inr ⟨rfl, nofun⟩, Outcome.noConfusion⟩
  | some len =>
    have hok : Ok { s with heredoc := later } := ⟨h.cur, h.stack⟩
    obtain ⟨s', heq, hok', hstr, hcur, hcore, -⟩ :=
      add_other_core (hok.advance len).toOk (TokenType.noConfusion : TokenType.heredoc_body ≠ .newline)
    dsimp only
    rw [heq]
    refine ⟨.inl ⟨_, _, s.rest.drop len, rfl, rfl, ⟨hok'.cur, hok'.stack⟩, ?_, ?_⟩, Outcome.noConfusion⟩
    · refine core_eq (congrArg Core.top hcore) (congrArg Core.levels hcore) (congrArg Core.heredoc hcore) ?_
        (congrArg Core.due hcore)
      have hvalues : s'.values = s.values := congrArg Core.values hcore
      dsimp only
      rw [hvalues]
      rfl
    · have hdrop : s'.rest = s.rest.drop len := by
        rw [← rest_drop h.cur len]
        unfold State.rest State.advance
        rw [hstr, hcur]
        rfl
      exact congrArg (gap _) hdrop

theorem token_nil (c : Core) : token c [] = none := by
  unfold token
  split
  · split
    · rfl
    · rfl
  · unfold Core.lex
    split <;> rfl

/-- **A token of the parser.** -/
theorem next_token_core (h : Ok s) : Agrees (next_token s) (token (core s) s.rest) := by
  unfold next_token
  split
  · rename_i hend
    have hnil : s.rest = [] := List.drop_eq_nil_of_le (by omega)
    rw [hnil, token_nil]
    exact .inr ⟨rfl, nofun⟩
  cases hdue : due s with
  | true =>
    obtain ⟨hagrees, hno⟩ := body_agrees h hdue
    exact hagrees.orElse hno _
  | false =>
    have hcdue : (core s).due = false := hdue
    rw [match_heredoc_of_not h (due_eq_false.1 hdue), Outcome.orElse]
    unfold token Core.lex
    rw [hcdue, if_neg Bool.false_ne_true]
    have hopen := h.stack
    cases hstack : s.stack with
    | nil =>
      rw [hstack] at hopen
      cases hopen
    | cons c stack =>
      cases c with
      | block first tokens settings =>
        have htop : (core s).top = none := congrArg top hstack
        rw [htop]
        exact block_agrees h ⟨_, _, _, _, hstack⟩ hdue
      | setting hd tokens =>
        have htop : (core s).top = some (entry hd) := congrArg top hstack
        rw [htop]
        exact setting_agrees h ⟨_, _, _, hstack⟩ hdue

theorem orElse_ne_no {r : Outcome} {f : Unit → Outcome} (h : f () ≠ .no) : r.orElse f ≠ .no := by
  cases r with
  | no => exact h
  | token s' => exact Outcome.noConfusion
  | error err s' => exact Outcome.noConfusion
  | raise => exact Outcome.noConfusion

theorem match_setting_name_ne_no (s : State) : match_setting_name s ≠ .no := by
  unfold match_setting_name
  split
  · exact Outcome.noConfusion
  split
  · exact Outcome.noConfusion
  split
  · split <;> exact Outcome.noConfusion
  · dsimp only
    split
    · split
      · exact assert_ne_no _
      · exact Outcome.noConfusion
    · exact assert_ne_no _

theorem match_value_ne_no (s : State) : match_value s ≠ .no := by
  unfold match_value
  split
  · exact Outcome.noConfusion
  · exact assert_ne_no _

/-- only the end of the text is no token -/
theorem next_token_no (h : Ok s) (hno : next_token s = .no) : s.rest = [] := by
  unfold next_token at hno
  split at hno
  · exact List.drop_eq_nil_of_le (by omega)
  · refine absurd hno (orElse_ne_no ?_)
    have hopen := h.stack
    cases hstack : s.stack with
    | nil =>
      rw [hstack] at hopen
      cases hopen
    | cons c stack =>
      cases c with
      | block first tokens settings => exact orElse_ne_no (match_setting_name_ne_no s)
      | setting hd tokens =>
        exact orElse_ne_no (orElse_ne_no (orElse_ne_no (orElse_ne_no (orElse_ne_no (orElse_ne_no (match_value_ne_no s))))))

end Tokens

/-! ## Runs -/

section Runs

variable {s : State} {c c' : Core} {str str' : Str}

theorem shows_new (str : Str) : Shows (new str) start str := ⟨new_ok str, rfl, rfl⟩

theorem shows_skip (h : Shows s c str) : ∃ t, skip s.rest.length s = .token t ∧ Ok t ∧ (core t, t.rest) = gap c str := by
  obtain ⟨t, hskip, ht, -, hgap⟩ := skip_core s.rest.length h.ok (Nat.le_refl _)
  rw [h.core, h.gap] at hgap
  exact ⟨t, hskip, ht, hgap⟩

/-- a round of the reader is one of the parser -/
theorem reads_of_step (h : Shows s c str) (hstep : Step (c, str) (c', str')) : ∃ s', Reads s s' ∧ Shows s' c' str' := by
  obtain ⟨t, hskip, ht, hgap⟩ := shows_skip h
  have hagrees := next_token_core ht
  unfold Step at hstep
  rw [← hgap] at hstep
  rw [hstep] at hagrees
  rcases hagrees with ⟨s', c₁, str₁, hnext, heq, hshows⟩ | ⟨hnone, -⟩
  · cases heq
    exact ⟨s', ⟨t, hskip, hnext⟩, hshows⟩
  · cases hnone

theorem reads_of_steps {p p' : Core × Str} (hsteps : Relation.ReflTransGen Step p p') (h : Shows s p.1 p.2) :
    ∃ s', Relation.ReflTransGen Reads s s' ∧ Shows s' p'.1 p'.2 := by
  induction hsteps with
  | refl => exact ⟨s, .refl, h⟩
  | tail _ hstep ih =>
    obtain ⟨s₁, hreads, hshows⟩ := ih
    obtain ⟨s', hread, hshows'⟩ := reads_of_step hshows hstep
    exact ⟨s', hreads.tail hread, hshows'⟩

/-- the parser ends where the reader does -/
theorem finish_iff {t : State} (ht : Ok t) (hgap : (core t, t.rest) = gap c str) (hnil : t.rest = []) (tr : Tree (Option Str)) :
    (∃ root values, finish t = .root root values ∧ (tree root).map (raw values) = tr) ↔ Ends c str tr := by
  have hcore : core t = (gap c str).1 := congrArg Prod.fst hgap
  have hrest : t.rest = (gap c str).2 := congrArg Prod.snd hgap
  have htop : top t.stack = c.top := congrArg Core.top hcore
  have hlevels : levels t.stack = c.levels := congrArg Core.levels hcore
  have hheredoc : t.heredoc = c.heredoc := congrArg Core.heredoc hcore
  have hvalues : t.values = c.values := congrArg Core.values hcore
  unfold Ends
  rw [← hrest, ← htop, ← hlevels, ← hheredoc, ← hvalues]
  have hopen := ht.stack
  unfold finish unexpected_end
  generalize hstack : t.stack = stack at hopen ⊢
  cases hopen with
  | root first tokens settings hd tokens' =>
    cases hq : t.heredoc with
    | cons heredoc later =>
      refine iff_of_false ?_ fun h => List.cons_ne_nil _ _ h.2.2.1
      rintro ⟨root, values, heq, -⟩
      obtain ⟨last, hlast⟩ := Option.isSome_iff_exists.1 (List.getLast?_isSome.2 (List.cons_ne_nil heredoc later))
      dsimp only at heq
      rw [hlast] at heq
      cases heq
    | nil =>
      unfold pop_block close
      rw [hstack]
      constructor
      · rintro ⟨root, values, heq, htree⟩
        cases heq
        exact ⟨hnil, rfl, rfl, ⟨entry hd, trees settings⟩, rfl, htree⟩
      · rintro ⟨-, -, -, l, hl, htree⟩
        cases hl
        exact ⟨_, _, rfl, htree⟩
  | setting hd tokens hb =>
    refine iff_of_false ?_ fun h => ?_
    · rintro ⟨root, values, heq, -⟩
      cases heq
    · cases h.2.1
  | block first tokens settings hb =>
    cases hb with
    | setting hd' tokens' hb =>
      obtain ⟨hd, tk, below, rfl⟩ := open_block hb
      refine iff_of_false ?_ fun h => ?_
      · rintro ⟨root, values, heq, -⟩
        cases heq
      · obtain ⟨-, -, -, l, hl, -⟩ := h
        cases hl

/-- the loop of the parser returns what a run of the reader ends with -/
theorem run_of_tokens (n : ℕ) (h : Shows s c str) {root : Setting} {values : List Value} (htokens : tokens n s = .root root values) :
    ∃ p, Relation.ReflTransGen Step (c, str) p ∧ Ends p.1 p.2 ((tree root).map (raw values)) := by
  induction n generalizing s c str with
  | zero => cases htokens
  | succ n ih =>
    obtain ⟨t, hskip, ht, hgap⟩ := shows_skip h
    unfold tokens at htokens
    rw [hskip] at htokens
    dsimp only at htokens
    cases hnext : next_token t with
    | token s' =>
      rw [hnext] at htokens
      rcases next_token_core ht with ⟨s₁, c', str', hs₁, htoken, hshows⟩ | ⟨-, hclosed⟩
      · rw [hnext] at hs₁
        cases hs₁
        obtain ⟨p, hsteps, hends⟩ := ih hshows htokens
        refine ⟨p, .head ?_ hsteps, hends⟩
        unfold Step
        rw [← hgap]
        exact htoken
      · cases n with
        | zero => cases htokens
        | succ n =>
          dsimp only at htokens
          rw [tokens_closed n (hclosed s' hnext)] at htokens
          cases htokens
    | no =>
      rw [hnext] at htokens
      exact ⟨(c, str), .refl, (finish_iff ht hgap (next_token_no ht hnext) _).1 ⟨root, values, htokens, rfl⟩⟩
    | error err s' =>
      rw [hnext] at htokens
      cases htokens
    | raise =>
      rw [hnext] at htokens
      cases htokens

/-- **The reader refines the parser.** -/
theorem reads_iff (str : Str) (tr : Tree (Option Str)) :
    Parses str tr ↔ ∃ p, Relation.ReflTransGen Step (start, str) p ∧ Ends p.1 p.2 tr := by
  constructor
  · rintro ⟨root, values, hparse, rfl⟩
    exact run_of_tokens _ (shows_new str) hparse
  · rintro ⟨p, hsteps, hends⟩
    obtain ⟨s', hreads, hshows⟩ := reads_of_steps hsteps (shows_new str)
    obtain ⟨t, hskip, ht, hgap⟩ := shows_skip hshows
    have hnil : t.rest = [] := (congrArg Prod.snd hgap).trans hends.1
    obtain ⟨root, values, hfinish, htree⟩ := (finish_iff ht hgap hnil tr).2 hends
    have hno : next_token t = .no := by
      unfold next_token
      rw [if_pos]
      have hlen := rest_length t
      have hcur := ht.cur
      rw [hnil, List.length_nil] at hlen
      omega
    have hone : tokens 1 s' = .root root values := by
      unfold tokens
      rw [hskip]
      dsimp only
      rw [hno]
      exact hfinish
    obtain ⟨m, hm⟩ := tokens_of_reads hreads 1
    rw [hone] at hm
    obtain ⟨hend, -⟩ := answers_of_ok str
    refine ⟨root, values, ?_, htree⟩
    unfold parse at hend ⊢
    rcases Nat.le_total m (str.length + 1) with hle | hle
    · rw [tokens_mono hle (by rw [hm]; exact Result.noConfusion), hm]
    · rw [← tokens_mono hle hend, hm]

end Runs

end Shuttlesock.Reader
