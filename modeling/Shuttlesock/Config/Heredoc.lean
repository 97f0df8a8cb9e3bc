/-
Where the body of a heredoc ends: `match_heredoc` and `skip_space` of `config.lua`.

Model: a heredoc is due when the last token is the newline after the line that opened it, or after the terminator of the one
before it. `Opened str u` says that a run on str comes to the state u, where a heredoc is due; `round u` is what the loop of
`parse` does from there, up to the next token.
- The text of a state is cut into lines by where they start. A line terminates a heredoc when it consists of the label, with
  blanks in front where the type allows them, and a line begins with the label when anything may follow it.
- `Read` is the state after a body: the value is replaced, the other heredocs are still due, and nothing else has changed.

Results:
- `opened_round`: the round from u is the one of the run.
- `extent_iff`: the body is what stands in front of the first terminator, the run goes on right after it, with the next
  heredoc of the line if there is one, and no body is read without a terminator, exactly when the text does not start with
  a comment or the terminator, and no line after the terminator begins with the label.
- `label_again`: a second heredoc with the same label ends the first.
-/
import Mathlib.Data.List.TakeWhile
import Mathlib.Tactic
import Shuttlesock.Config.ParserTotal

namespace Shuttlesock.Parser

/-! ## Lines -/

/-- a line starts at this place of the text -/
def LineStart (text : Str) (p : ℕ) : Prop := p = 0 ∨ text[p - 1]? = some '\n'

/-- the line that starts there -/
def line (text : Str) (p : ℕ) : Str := (text.drop p).takeWhile (· ≠ '\n')

/-- how many blanks may stand in front of the label -/
def blanks (type : HeredocType) (l : Str) : ℕ := if type = .plain then 0 else (l.takeWhile (· ∈ ['\t', ' '])).length

/-- the line at p consists of the label -/
def Terminates (heredoc : Heredoc) (text : Str) (p : ℕ) : Prop :=
  LineStart text p ∧ ∃ k ≤ blanks heredoc.type (line text p), (line text p).drop k = heredoc.label

/-- the first such line -/
def First (heredoc : Heredoc) (text : Str) (p : ℕ) : Prop :=
  Terminates heredoc text p ∧ ∀ q < p, ¬ Terminates heredoc text q

/-- the line at p begins with the label -/
def Begins (heredoc : Heredoc) (text : Str) (p : ℕ) : Prop :=
  LineStart text p ∧ ∃ k ≤ blanks heredoc.type (text.drop p), heredoc.label <+: (text.drop p).drop k

instance (text : Str) (p : ℕ) : Decidable (LineStart text p) := by
  unfold LineStart
  infer_instance

instance (heredoc : Heredoc) (text : Str) (p : ℕ) : Decidable (Terminates heredoc text p) := by
  unfold Terminates
  infer_instance

instance (heredoc : Heredoc) (text : Str) (p : ℕ) : Decidable (First heredoc text p) := by
  unfold First
  infer_instance

section Lines

variable {text label : Str} {type : HeredocType} {heredoc : Heredoc} {p q n len : ℕ}

theorem LineStart.split (h : LineStart text p) (hp : p ≠ 0) : text = text.take (p - 1) ++ '\n' :: text.drop p := by
  have hat : text[p - 1]? = some '\n' := h.resolve_left hp
  obtain ⟨hlt, heq⟩ := List.getElem?_eq_some_iff.1 hat
  conv_lhs => rw [← List.take_append_drop (p - 1) text, List.drop_eq_getElem_cons hlt, heq]
  rw [Nat.sub_add_cancel (Nat.pos_of_ne_zero hp)]

theorem LineStart.le (h : LineStart text p) : p ≤ text.length := by
  rcases h with rfl | h
  · exact Nat.zero_le _
  · have hlt := (List.getElem?_eq_some_iff.1 h).1
    omega

/-- the lines of what follows a line start -/
theorem lineStart_drop (h : LineStart text p) : LineStart (text.drop p) q ↔ LineStart text (p + q) := by
  unfold LineStart
  rcases Nat.eq_zero_or_pos q with rfl | hq
  · simpa [LineStart] using h
  · rw [List.getElem?_drop, Nat.add_sub_assoc hq]
    simp [Nat.pos_iff_ne_zero.1 hq]

theorem mem_line (text : Str) (p : ℕ) : '\n' ∉ line text p := fun h => by
  simpa using List.mem_takeWhile_imp h

theorem prefix_line (text : Str) (p : ℕ) : line text p <+: text.drop p := List.takeWhile_prefix _

/-- after a line there is a newline, or nothing -/
theorem line_append (text : Str) (p : ℕ) :
    text.drop p = line text p ∨ ∃ t, text.drop p = line text p ++ '\n' :: t := by
  have happ : line text p ++ (text.drop p).dropWhile (· ≠ '\n') = text.drop p := List.takeWhile_append_dropWhile
  cases hd : (text.drop p).dropWhile (· ≠ '\n') with
  | nil =>
    rw [hd, List.append_nil] at happ
    exact .inl happ.symm
  | cons c t =>
    have hc : c = '\n' := by
      have hhead := List.head?_dropWhile_not (· ≠ '\n') (text.drop p)
      rw [hd] at hhead
      simpa using hhead
    rw [hd, hc] at happ
    exact .inr ⟨t, happ.symm⟩

/-- the line of a line start ends before the next one -/
theorem line_lt (hq : LineStart text q) (hlt : p < q) : p + (line text p).length < q := by
  have hat : text[q - 1]? = some '\n' := hq.resolve_left (by omega)
  by_contra hle
  refine mem_line text p (List.mem_iff_getElem?.2 ⟨q - 1 - p, ?_⟩)
  obtain ⟨t, ht⟩ := prefix_line text p
  have hdrop : (text.drop p)[q - 1 - p]? = some '\n' := by
    rw [List.getElem?_drop, ← hat]
    congr 1
    omega
  rw [← ht, List.getElem?_append_left (by omega)] at hdrop
  exact hdrop

theorem blanks_le (type : HeredocType) (l : Str) : blanks type l ≤ l.length := by
  unfold blanks
  split_ifs
  · exact Nat.zero_le _
  · exact (List.takeWhile_prefix _).length_le

/-- the blanks of a line are all in it -/
theorem blanks_line (type : HeredocType) (text : Str) (p : ℕ) : blanks type (text.drop p) = blanks type (line text p) := by
  unfold blanks
  rcases line_append text p with h | ⟨t, h⟩
  · rw [h]
  · rw [h, List.takeWhile_append]
    split_ifs with hplain hall
    · rfl
    · rw [(List.takeWhile_prefix _).eq_of_length hall]
      simp
    · rfl

/-! ## The end of a body -/

theorem findSome_last {β : Type} {f : ℕ → Option β} {b : β} :
    (List.range n).reverse.findSome? f = some b ↔ ∃ i < n, f i = some b ∧ ∀ j, i < j → j < n → f j = none := by
  induction n with
  | zero => simp
  | succ n ih =>
    rw [List.range_succ, List.reverse_append, List.reverse_singleton, List.singleton_append, List.findSome?_cons]
    constructor
    · intro h
      cases hn : f n with
      | some b' =>
        rw [hn] at h
        exact ⟨n, Nat.lt_succ_self n, hn.trans h, fun j hj hj' => by omega⟩
      | none =>
        rw [hn] at h
        obtain ⟨i, hi, hb, hlast⟩ := ih.1 h
        refine ⟨i, by omega, hb, fun j hj hj' => ?_⟩
        rcases Nat.lt_succ_iff_lt_or_eq.1 hj' with hj' | rfl
        · exact hlast j hj hj'
        · exact hn
    · rintro ⟨i, hi, hb, hlast⟩
      rcases Nat.lt_succ_iff_lt_or_eq.1 hi with hi | rfl
      · rw [hlast n hi (Nat.lt_succ_self n)]
        exact ih.2 ⟨i, hi, hb, fun j hj hj' => hlast j hj (by omega)⟩
      · rw [hb]

/-- the place after the label is found by the most blanks -/
theorem label_end_eq_some : label_end type label text = some n ↔ ∃ k ≤ blanks type text, label <+: text.drop k ∧
    n = k + label.length ∧ ∀ k', k < k' → k' ≤ blanks type text → ¬ label <+: text.drop k' := by
  unfold label_end
  rw [Option.map_eq_some_iff, ← List.findSome?_guard]
  change (∃ k, (List.range (blanks type text + 1)).reverse.findSome? _ = some k ∧ _) ↔ _
  simp only [findSome_last, Option.guard_eq_some_iff, Option.guard_eq_none_iff, Nat.lt_succ_iff, Bool.eq_false_iff,
    List.isPrefixOf_iff_prefix, ne_eq]
  constructor
  · rintro ⟨k, ⟨_, hk, ⟨rfl, hlabel⟩, hlast⟩, rfl⟩
    exact ⟨_, hk, hlabel, rfl, hlast⟩
  · rintro ⟨k, hk, hlabel, rfl, hlast⟩
    exact ⟨k, ⟨k, hk, ⟨rfl, hlabel⟩, hlast⟩, rfl⟩

theorem label_end_eq_none : label_end type label text = none ↔ ∀ k ≤ blanks type text, ¬ label <+: text.drop k := by
  unfold label_end
  simp [blanks]

/-- a line begins with the label where the end of the label is found -/
theorem begins_iff (hq : LineStart text q) :
    Begins heredoc text q ↔ label_end heredoc.type heredoc.label (text.drop q) ≠ none := by
  unfold Begins
  rw [ne_eq, label_end_eq_none]
  push Not
  exact and_iff_right hq

theorem begins_drop (h : LineStart text p) : Begins heredoc (text.drop p) q ↔ Begins heredoc text (p + q) := by
  unfold Begins
  rw [lineStart_drop h, List.drop_drop]

/-- at a line that consists of the label its end is the one of the line -/
theorem Terminates.label_end (h : Terminates heredoc text p) :
    label_end heredoc.type heredoc.label (text.drop p) = some (line text p).length := by
  obtain ⟨-, k, hk, hdrop⟩ := h
  have hlen : k + heredoc.label.length = (line text p).length := by
    rw [← hdrop, List.length_drop]
    have hle := hk.trans (blanks_le _ _)
    omega
  rw [label_end_eq_some, blanks_line]
  refine ⟨k, hk, ?_, hlen.symm, fun k' hk' hle hlabel => ?_⟩
  · rw [← hdrop]
    exact (prefix_line text p).drop k
  · -- with more blanks the label would go on over the newline
    have hle' := hle.trans (blanks_le _ _)
    have hline : '\n' ∉ heredoc.label := fun hmem => mem_line text p (List.mem_of_mem_drop (hdrop ▸ hmem))
    rcases line_append text p with happ | ⟨t, happ⟩
    · have hlabel_le := hlabel.length_le
      rw [happ, List.length_drop] at hlabel_le
      omega
    · rw [happ, List.drop_append_of_le_length hle'] at hlabel
      have hpre : (line text p).drop k' <+: heredoc.label := by
        refine List.prefix_of_prefix_length_le (List.prefix_append _ _) hlabel ?_
        rw [List.length_drop]
        omega
      obtain ⟨u, hu⟩ := hpre
      rw [← hu, List.prefix_append_right_inj] at hlabel
      cases u with
      | nil =>
        rw [List.append_nil] at hu
        rw [← hu, List.length_drop] at hlen
        omega
      | cons c u =>
        obtain rfl : c = '\n' := (List.cons_prefix_cons.1 hlabel).1
        exact hline (hu ▸ by simp)

theorem lineStart_succ {i : ℕ} : LineStart text (i + 1) ↔ text[i]? = some '\n' := by
  simp [LineStart]

/-- what the pattern does at one newline -/
theorem close_at {i b : ℕ} : (if text[i]? = some '\n' then
      (label_end heredoc.type heredoc.label (text.drop (i + 1))).map (i + 1 + ·) else none) = some b ↔
    LineStart text (i + 1) ∧ ∃ n, label_end heredoc.type heredoc.label (text.drop (i + 1)) = some n ∧ i + 1 + n = b := by
  rw [lineStart_succ]
  split_ifs with h
  · simp [h, Option.map_eq_some_iff]
  · simp [h]

theorem no_close_at {i : ℕ} : (if text[i]? = some '\n' then
      (label_end heredoc.type heredoc.label (text.drop (i + 1))).map (i + 1 + ·) else none) = none ↔
    ¬ Begins heredoc text (i + 1) := by
  by_cases h : LineStart text (i + 1)
  · rw [begins_iff h, if_pos (lineStart_succ.1 h), Option.map_eq_none_iff, not_ne_iff]
  · rw [if_neg (mt lineStart_succ.2 h)]
    simp [Begins, h]

/-- the body goes up to the last line that begins with the label, and its first one does not count -/
theorem body_close_eq_some : body_close heredoc.type heredoc.label text = some len ↔ ∃ q n, q ≠ 0 ∧ LineStart text q ∧
    label_end heredoc.type heredoc.label (text.drop q) = some n ∧ len = q + n ∧ ∀ q', q < q' → ¬ Begins heredoc text q' := by
  unfold body_close
  rw [findSome_last]
  constructor
  · rintro ⟨i, hi, hat, hlast⟩
    obtain ⟨hstart, n, hn, rfl⟩ := close_at.1 hat
    refine ⟨i + 1, n, Nat.succ_ne_zero i, hstart, hn, rfl, fun q' hq' hbegins => ?_⟩
    have hle := hbegins.1.le
    obtain ⟨j, rfl⟩ : ∃ j, q' = j + 1 := ⟨q' - 1, by omega⟩
    exact no_close_at.1 (hlast j (by omega) (by omega)) hbegins
  · rintro ⟨q, n, hq, hstart, hn, rfl, hlast⟩
    obtain ⟨i, rfl⟩ := Nat.exists_eq_succ_of_ne_zero hq
    have hle := hstart.le
    exact ⟨i, by omega, close_at.2 ⟨hstart, n, hn, rfl⟩, fun j hj _ => no_close_at.2 (hlast (j + 1) (by omega))⟩

theorem body_close_eq_none : body_close heredoc.type heredoc.label text = none ↔ ∀ q, q ≠ 0 → ¬ Begins heredoc text q := by
  unfold body_close
  rw [List.findSome?_eq_none_iff]
  constructor
  · intro h q hq hbegins
    have hle := hbegins.1.le
    obtain ⟨i, rfl⟩ := Nat.exists_eq_succ_of_ne_zero hq
    exact no_close_at.1 (h i (by simp; omega)) hbegins
  · exact fun h i _ => no_close_at.2 (h (i + 1) (Nat.succ_ne_zero i))

/-- what is matched goes up to the end of a terminator, when it is the last line that begins with the label -/
theorem body_close_terminator (h : Terminates heredoc text p) (hp : p ≠ 0) (hlast : ∀ q, p < q → ¬ Begins heredoc text q) :
    body_close heredoc.type heredoc.label text = some (p + (line text p).length) :=
  body_close_eq_some.2 ⟨p, _, hp, h.1, h.label_end, rfl, hlast⟩

/-- it goes further when it is not -/
theorem body_close_beyond (hbegins : Begins heredoc text q) (hlt : p < q)
    (hclose : body_close heredoc.type heredoc.label text = some len) : p + (line text p).length < len := by
  obtain ⟨q', n, -, hstart, -, rfl, hlast⟩ := body_close_eq_some.1 hclose
  have hle : q ≤ q' := Nat.le_of_not_lt fun hlt' => hlast q hlt' hbegins
  have hline := line_lt hstart (Nat.lt_of_lt_of_le hlt hle)
  omega

/-- what is left of the text in front of a terminator -/
theorem heredoc_body_take (h : LineStart text p) (hp : p ≠ 0) :
    heredoc_body (text.take (p + (line text p).length)) = text.take (p - 1) := by
  have htake : text.take (p + (line text p).length) = text.take (p - 1) ++ '\n' :: line text p := by
    obtain ⟨t, ht⟩ := prefix_line text p
    have hlen : (text.take (p - 1)).length = p - 1 := by
      have hle := h.le
      rw [List.length_take]
      omega
    obtain ⟨n, hn⟩ : ∃ n, n = (line text p).length := ⟨_, rfl⟩
    rw [← hn]
    conv_lhs => rw [h.split hp, ← ht]
    rw [List.take_append, List.take_of_length_le (by omega), hlen]
    have hsub : p + n - (p - 1) = n + 1 := by omega
    rw [hsub, List.take_succ_cons, hn, List.take_left]
  have hdrop : ((line text p).reverse ++ '\n' :: (text.take (p - 1)).reverse).dropWhile (· ≠ '\n') =
      '\n' :: (text.take (p - 1)).reverse := by
    rw [List.dropWhile_append_of_pos]
    · simp
    · intro c hc
      have hne : c ≠ '\n' := fun heq => mem_line text p (heq ▸ List.mem_reverse.1 hc)
      simpa using hne
  unfold heredoc_body
  rw [htake, List.reverse_append, List.reverse_cons, List.append_assoc, List.singleton_append, hdrop]
  simp

end Lines

/-! ## A heredoc that is due -/

/-- `self:skip_space() or self:skip_comment()` -/
def skip_step (s : State) : Outcome := (skip_space s).orElse fun _ => skip_comment s

/-- the loop of `parse` begins a round here -/
def Round_start (str : Str) (s : State) : Prop := s = new str ∨ ∃ t, Visits (new str) t ∧ next_token t = .token s

/-- the loop over the spaces comes from s to u, the first state where a heredoc is due -/
inductive Passes : State → State → Prop
  | due {s : State} : Heredoc_next s → Passes s s
  | step {s s' u : State} : ¬ Heredoc_next s → skip_step s = .token s' → Passes s' u → Passes s u

/-- a run on str comes to u, where a heredoc is due -/
def Opened (str : Str) (u : State) : Prop := ∃ s, Round_start str s ∧ Passes s u

/-- what `parse` does up to the next token -/
def round (s : State) : Outcome := (skip s.rest.length s).bind next_token

/-- the number of tokens of the top chunk -/
def token_count (s : State) : ℕ :=
  match s.stack with
  | .setting _ tokens :: _ => tokens.length
  | .block _ tokens _ :: _ => tokens.length
  | [] => 0

/-- the state after a body: `len` bytes are read, and the value of the heredoc is the body -/
structure Read (s : State) (heredoc : Heredoc) (later : List Heredoc) (len : ℕ) (body : Str) (s' : State) : Prop where
  str : s'.str = s.str
  cur : s'.cur = s.cur + len
  stack : add_tokens s [.heredoc_body] = some { s with stack := s'.stack }
  queue : s'.heredoc = later
  values : s'.values =
    s.values.set heredoc.string_value ⟨.string, if heredoc.type = .tilde then dedent body else body, none⟩
  settings : s'.settings = s.settings
  root : s'.root = s.root

section Due

variable {s s' u : State} {heredoc : Heredoc} {later : List Heredoc} {ts : List TokenType} {len : ℕ} {body : Str}

/-- tokens are added to the top, whatever else is in the state -/
theorem add_tokens_stack (hs : Ok s) (ts : List TokenType) :
    ∃ stack, ∀ s', s'.stack = s.stack → add_tokens s' ts = some { s' with stack := stack } := by
  obtain ⟨s₁, hadd, -⟩ := add_tokens_later hs ts
  refine ⟨s₁.stack, fun s' hs' => ?_⟩
  unfold add_tokens at hadd ⊢
  rw [hs']
  split at hadd
  · cases hadd
    rfl
  · cases hadd
    rfl
  · cases hadd

theorem add_tokens_count (h : add_tokens s ts = some s') : token_count s' = token_count s + ts.length := by
  unfold add_tokens at h
  unfold token_count
  split at h
  · cases h
    simp [*]
  · cases h
    simp [*]
  · cases h

theorem add_tokens_last {type : TokenType} (h : add_tokens s [type] = some s') : last_token_type s' = some (some type) := by
  unfold add_tokens at h
  split at h
  · cases h
    simp [last_token_type]
  · cases h
    simp [last_token_type]
  · cases h

/-- a body that ends is read -/
theorem match_heredoc_read (hs : Ok s) (hqueue : s.heredoc = heredoc :: later)
    (hline : last_token_type s = some (some .newline))
    (hclose : body_close heredoc.type heredoc.label s.rest = some len) :
    ∃ s', match_heredoc s = .token s' ∧ Read s heredoc later len (heredoc_body (s.rest.take len)) s' := by
  obtain ⟨stack, hadd⟩ := add_tokens_stack hs [.heredoc_body]
  have hclose' : body_close heredoc.type heredoc.label (State.rest { s with heredoc := later }) = some len := hclose
  refine ⟨{ s with
    cur := s.cur + len
    stack := stack
    heredoc := later
    values := s.values.set heredoc.string_value
      ⟨.string, if heredoc.type = .tilde then dedent (heredoc_body (s.rest.take len)) else _, none⟩ },
    ?_, rfl, rfl, hadd s rfl, rfl, rfl, rfl, rfl⟩
  unfold match_heredoc
  rw [hqueue, hline]
  dsimp only
  rw [if_pos rfl, hclose']
  dsimp only
  rw [hadd (State.advance { s with heredoc := later } len) rfl]
  rfl

theorem Read.ok (h : Read s heredoc later len body s') (hs : Ok s) : Ok s' := by
  obtain ⟨s₁, hadd, hlater, -⟩ := add_tokens_later hs [.heredoc_body]
  rw [h.stack] at hadd
  cases hadd
  refine ⟨?_, hlater.stack⟩
  rw [h.cur]
  exact hs.cur.trans (Nat.le_add_right _ _)

theorem Read.count (h : Read s heredoc later len body s') : token_count s' = token_count s + 1 := add_tokens_count h.stack

/-- a body that does not is an error -/
theorem match_heredoc_unterminated (hqueue : s.heredoc = heredoc :: later)
    (hline : last_token_type s = some (some .newline)) (hclose : body_close heredoc.type heredoc.label s.rest = none) :
    ∃ err s', match_heredoc s = .error err s' := by
  have hclose' : body_close heredoc.type heredoc.label (State.rest { s with heredoc := later }) = none := hclose
  unfold match_heredoc
  rw [hqueue, hline]
  dsimp only
  rw [if_pos rfl, hclose']
  exact ⟨_, _, rfl⟩

/-! ## The spaces in front of it -/

theorem skip_step_all (hs : Ok s) : (skip_step s).All (Next s) :=
  (skip_space_all hs).orElse fun _ => (skip_comment_all hs).mono fun _ => And.left

theorem skip_succ (k : ℕ) (h : skip_step s = .token s') : skip (k + 1) s = skip k s' := by
  unfold skip_step at h
  rw [skip, h]

/-- each step takes something off the text -/
theorem Next.rest_lt (h : Next s s') (hs : Ok s) (hne : s.rest ≠ []) : s'.rest.length < s.rest.length := by
  have hlen := List.length_pos_of_ne_nil hne
  have hlt := h.lt
  have hcur := hs.cur
  rw [rest_length] at hlen ⊢
  rw [rest_length, h.str]
  omega

theorem skip_step_nil (hs : Ok s) (hnil : s.rest = []) : skip_step s = .no := by
  obtain ⟨type, htype⟩ := last_token_type_some hs
  unfold skip_step skip_space skip_comment
  rw [htype, hnil]
  by_cases hqueue : s.heredoc = []
  · rw [if_pos hqueue]
    rfl
  · rw [if_neg hqueue]
    dsimp only
    split <;> rfl

theorem rest_ne_nil (hs : Ok s) (h : skip_step s ≠ .no) : s.rest ≠ [] := fun hnil => h (skip_step_nil hs hnil)

/-- any number of steps is enough when it is not less than what is left of the text -/
theorem skip_enough {k k' : ℕ} (hs : Ok s) (hk : s.rest.length ≤ k) (hk' : s.rest.length ≤ k') : skip k s = skip k' s := by
  induction k generalizing s k' with
  | zero =>
    have hstep := skip_step_nil hs (List.length_eq_zero_iff.1 (Nat.le_zero.1 hk))
    rw [skip_of_no 0 hstep, skip_of_no k' hstep]
  | succ k ih =>
    have hall := skip_step_all hs
    by_cases hno : skip_step s = .no
    · rw [skip_of_no _ hno, skip_of_no _ hno]
    · have hne := rest_ne_nil hs hno
      obtain ⟨k', rfl⟩ := Nat.exists_eq_add_of_le' (Nat.lt_of_lt_of_le (List.length_pos_of_ne_nil hne) hk')
      rw [skip, skip, ← skip_step]
      cases hstep : skip_step s with
      | no => exact absurd hstep hno
      | token s' =>
        rw [hstep] at hall
        have hlt := hall.rest_lt hs hne
        exact ih hall.toOk (by omega) (by omega)
      | error err s' => rfl
      | raise => rfl

theorem skip_round (hs : Ok s) (h : skip_step s = .token s') : skip s.rest.length s = skip s'.rest.length s' := by
  have hall := skip_step_all hs
  rw [h] at hall
  have hlt := hall.rest_lt hs (rest_ne_nil hs (h ▸ Outcome.noConfusion))
  obtain ⟨k, hk⟩ : ∃ k, s.rest.length = k + 1 := ⟨s.rest.length - 1, by omega⟩
  rw [hk, skip_succ k h]
  exact skip_enough hall.toOk (by omega) (Nat.le_refl _)

/-- a comment is its whole line -/
theorem comment_line {text m : Str} (h : comment text = some m) : m = line text 0 := by
  unfold comment at h
  split at h
  · obtain ⟨w, hw, rfl⟩ := Option.map_eq_some_iff.1 h
    unfold some_of at hw
    split_ifs at hw
    cases hw
    simp [line]
  · cases h

/-- where a heredoc is due only a comment is skipped -/
theorem skip_step_due (hdue : Heredoc_next u) : skip_step u = skip_comment u := by
  unfold skip_step skip_space
  rw [if_neg hdue.1, hdue.2]
  rfl

theorem skip_comment_some {m : Str} (hu : Ok u) (h : comment u.rest = some m) :
    ∃ v, skip_comment u = .token v ∧ Ok v ∧ v.rest = u.rest.drop m.length ∧ v.heredoc = u.heredoc ∧
      token_count v = token_count u + 1 ∧ last_token_type v = some (some .comment) := by
  have hok := (hu.advance m.length).toOk
  obtain ⟨v, hadd, hlater, -⟩ := add_tokens_later hok [.comment]
  obtain ⟨stack, hstack⟩ := add_tokens_stack hok [.comment]
  refine ⟨v, ?_, hlater.toOk, ?_, ?_, add_tokens_count hadd, add_tokens_last hadd⟩
  · unfold skip_comment
    rw [h]
    dsimp only
    rw [hadd]
    rfl
  · rw [hstack _ rfl] at hadd
    cases hadd
    exact rest_drop hu.cur m.length
  · rw [hstack _ rfl] at hadd
    cases hadd
    rfl

/-- the newline after anything else is read, and then the next heredoc is due -/
theorem skip_step_newline {text : Str} {type : TokenType} (hs : Ok s) (hqueue : s.heredoc ≠ [])
    (hlast : last_token_type s = some (some type)) (htype : type ≠ .newline) (hrest : s.rest = '\n' :: text) :
    ∃ v, skip_step s = .token v ∧ Ok v ∧ Heredoc_next v ∧ v.rest = text ∧ v.heredoc = s.heredoc ∧ v.values = s.values ∧
      token_count v = token_count s + 1 := by
  have hok := (hs.advance 1).toOk
  obtain ⟨v, hadd, hlater, -⟩ := add_tokens_later hok [.newline]
  obtain ⟨stack, hstack⟩ := add_tokens_stack hok [.newline]
  have heq := hstack _ rfl
  rw [hadd] at heq
  cases heq
  refine ⟨_, ?_, hlater.toOk, ⟨hqueue, add_tokens_last hadd⟩, ?_, rfl, rfl, add_tokens_count hadd⟩
  · have hread : skip_space s = .assert (add_tokens (s.advance 1) [.newline]) := by
      unfold skip_space
      rw [if_neg hqueue, hlast, hrest]
      dsimp only
      rw [if_neg (by simpa using htype)]
      rfl
    unfold skip_step
    rw [hread, hadd]
    rfl
  · have hadv := rest_drop hs.cur 1
    rw [hrest] at hadv
    exact hadv

/-- the spaces and comments in front of a body have been skipped: from c on there is a line that is no comment, or nothing -/
structure Skipped (u : State) (c : ℕ) (t : State) : Prop extends Ok t where
  queue : t.heredoc = u.heredoc
  rest : t.rest = u.rest.drop c
  here : c = 0 → t = u
  count : min c 1 + token_count u ≤ token_count t
  comments : ∀ r < c, LineStart u.rest r → comment (u.rest.drop r) ≠ none
  last : comment t.rest = none
  next : (Heredoc_next t ∧ LineStart u.rest c) ∨ (t.rest = [] ∧ ∀ r, LineStart u.rest r → r < c)

/-- no line starts in a comment but its own -/
theorem comment_first {text m : Str} (hm : comment text = some m) {r : ℕ} (hr : r ≤ m.length) (hstart : LineStart text r) :
    r = 0 := by
  by_contra hne
  have hlt := line_lt hstart (Nat.pos_of_ne_zero hne)
  rw [← comment_line hm] at hlt
  omega

theorem comment_starts {text m : Str} (hm : comment text = some m) {r : ℕ} (hr : r ≤ m.length) (hstart : LineStart text r) :
    comment (text.drop r) ≠ none := by
  rw [comment_first hm hr hstart, List.drop_zero, hm]
  exact Option.some_ne_none m

/-- the text ends with the comment -/
theorem Skipped.last_comment {m : Str} {v : State} (hm : comment u.rest = some m) (hend : u.rest = m) (hv : Ok v)
    (hrest : v.rest = u.rest.drop m.length) (hqueue : v.heredoc = u.heredoc) (hcount : token_count v = token_count u + 1) :
    Skipped u m.length v := by
  have hnil : v.rest = [] := by rw [hrest, hend, List.drop_length]
  have hpos := List.length_pos_of_ne_nil (comment_ne_nil hm)
  refine ⟨hv, hqueue, hrest, by omega, by omega, fun r hr => comment_starts hm (Nat.le_of_lt hr), ?_, ?_⟩
  · rw [hnil]
    rfl
  · refine .inr ⟨hnil, fun r hstart => ?_⟩
    have hle := hstart.le
    rw [hend] at hle
    rw [comment_first hm hle hstart]
    exact hpos

/-- the line after the comment comes next -/
theorem Skipped.next_line {m : Str} {w t : State} {c : ℕ} (hm : comment u.rest = some m) (hrest : u.rest = m ++ '\n' :: w.rest)
    (hqueue : w.heredoc = u.heredoc) (hcount : token_count w = token_count u + 2) (h : Skipped w c t) :
    Skipped u (m.length + 1 + c) t := by
  have hdrop : u.rest.drop (m.length + 1) = w.rest := by
    rw [hrest, ← List.drop_drop, List.drop_left, List.drop_one, List.tail_cons]
  have hstart : LineStart u.rest (m.length + 1) := by
    rw [lineStart_succ, hrest]
    simp
  have hright : ∀ r, m.length < r → LineStart u.rest r →
      LineStart w.rest (r - (m.length + 1)) ∧ w.rest.drop (r - (m.length + 1)) = u.rest.drop r := by
    intro r hr hline
    rw [← hdrop, lineStart_drop hstart, List.drop_drop, Nat.add_sub_cancel' hr]
    exact ⟨hline, rfl⟩
  refine ⟨h.toOk, h.queue.trans hqueue, ?_, by omega, ?_, fun r hr hline => ?_, h.last, ?_⟩
  · rw [h.rest, ← hdrop, List.drop_drop]
  · have hle := h.count
    omega
  · rcases Nat.lt_or_ge m.length r with hlt | hle
    · obtain ⟨hl, hd⟩ := hright r hlt hline
      rw [← hd]
      exact h.comments _ (by omega) hl
    · exact comment_starts hm hle hline
  · rcases h.next with ⟨hnext, hl⟩ | ⟨hnil, hall⟩
    · rw [← hdrop] at hl
      exact .inl ⟨hnext, (lineStart_drop hstart).1 hl⟩
    · refine .inr ⟨hnil, fun r hline => ?_⟩
      rcases Nat.lt_or_ge m.length r with hlt | hle
      · have hbefore := hall _ (hright r hlt hline).1
        omega
      · omega

/-- by induction on the number of steps, from one line to the next -/
theorem skip_due (k : ℕ) (hu : Ok u) (hdue : Heredoc_next u) (hk : u.rest.length ≤ k) :
    ∃ c t, skip k u = .token t ∧ Skipped u c t := by
  induction k using Nat.strong_induction_on generalizing u with
  | _ k ih =>
    cases hm : comment u.rest with
    | none =>
      have hno : skip_step u = .no := by
        rw [skip_step_due hdue]
        unfold skip_comment
        rw [hm]
      exact ⟨0, u, skip_of_no k hno, hu, rfl, rfl, fun _ => rfl, by simp, by simp, hm, .inl ⟨hdue, .inl rfl⟩⟩
    | some m =>
      have hpos := List.length_pos_of_ne_nil (comment_ne_nil hm)
      obtain ⟨v, hv, hok, hrest, hqueue, hcount, hlast⟩ := skip_comment_some hu hm
      rw [← skip_step_due hdue] at hv
      rcases line_append u.rest 0 with happ | ⟨text, happ⟩
      · rw [List.drop_zero, ← comment_line hm] at happ
        have hnil : v.rest = [] := by rw [hrest, happ, List.drop_length]
        obtain ⟨k, rfl⟩ := Nat.exists_eq_add_of_le' (show 1 ≤ k by rw [happ] at hk; omega)
        exact ⟨_, v, (skip_succ k hv).trans (skip_of_no k (skip_step_nil hok hnil)),
          .last_comment hm happ hok hrest hqueue hcount⟩
      · rw [List.drop_zero, ← comment_line hm] at happ
        have hnl : v.rest = '\n' :: text := by rw [hrest, happ, List.drop_left]
        obtain ⟨w, hw, hok', hdue', rfl, hqueue', -, hcount'⟩ :=
          skip_step_newline hok (hqueue ▸ hdue.1) hlast (by simp) hnl
        have hlen := congrArg List.length happ
        rw [List.length_append, List.length_cons] at hlen
        obtain ⟨k, rfl⟩ := Nat.exists_eq_add_of_le' (show 2 ≤ k by omega)
        obtain ⟨c, t, hskip, ht⟩ := ih k (by omega) hok' hdue' (by omega)
        exact ⟨_, t, (skip_succ (k + 1) hv).trans ((skip_succ k hw).trans hskip),
          ht.next_line hm happ (hqueue'.trans hqueue) (by omega)⟩

/-! ## The round that reads it -/

/-- there is a body to read in the text after the comments, or there is no token -/
theorem round_due (hu : Ok u) (hdue : Heredoc_next u) (hqueue : u.heredoc = heredoc :: later) :
    ∃ c t, Skipped u c t ∧ skip u.rest.length u = .token t ∧
      (body_close heredoc.type heredoc.label t.rest = none → ∀ s', round u ≠ .token s') ∧
      ∀ len, body_close heredoc.type heredoc.label t.rest = some len →
        ∃ s', round u = .token s' ∧ Read t heredoc later len (heredoc_body (t.rest.take len)) s' := by
  obtain ⟨c, t, hskip, ht⟩ := skip_due u.rest.length hu hdue (Nat.le_refl _)
  have hround : round u = next_token t := by
    unfold round
    rw [hskip]
    rfl
  refine ⟨c, t, ht, hskip, fun hnone s' => ?_, fun len hsome => ?_⟩
  · rw [hround]
    unfold next_token
    split_ifs with hend
    · exact Outcome.noConfusion
    · rcases ht.next with ⟨hnext, -⟩ | ⟨hnil, -⟩
      · obtain ⟨err, s', herr⟩ := match_heredoc_unterminated (ht.queue.trans hqueue) hnext.2 hnone
        rw [herr]
        exact Outcome.noConfusion
      · refine absurd (List.drop_eq_nil_iff.1 hnil) ?_
        have hcur := ht.toOk.cur
        omega
  · have hne : t.rest ≠ [] := by
      intro hnil
      rw [hnil] at hsome
      cases hsome
    have hnext := (ht.next.resolve_right fun h => hne h.1).1
    obtain ⟨s', hmatch, hread⟩ := match_heredoc_read ht.toOk (ht.queue.trans hqueue) hnext.2 hsome
    refine ⟨s', ?_, hread⟩
    rw [hround]
    unfold next_token
    rw [if_neg (cur_le_of_rest ht.toOk hne), hmatch]
    rfl

/-- one more round -/
theorem visits_snoc {a t t' : State} (h : Visits a t) (hnext : next_token t = .token s)
    (hskip : skip s.rest.length s = .token t') : Visits a t' := by
  induction h with
  | start hstart => exact .next hstart hnext (.start hskip)
  | next hstart htoken _ ih => exact .next hstart htoken (ih hnext)

theorem Round_start.visits {str : Str} {t : State} (h : Round_start str s) (hskip : skip s.rest.length s = .token t) :
    Visits (new str) t := by
  rcases h with rfl | ⟨t₀, hvisits, hnext⟩
  · exact .start hskip
  · exact visits_snoc hvisits hnext hskip

theorem next_ok {t : State} (ht : Ok t ∨ t.stack = []) (hnext : next_token t = .token s) : Ok s ∨ s.stack = [] := by
  rcases ht with ht | ht
  · by_cases hbad : Bad t
    · rcases next_token_bad ht hbad with hraise | ⟨s', htoken, hclosed, -⟩
      · rw [hraise] at hnext
        cases hnext
      · rw [htoken] at hnext
        cases hnext
        exact .inr hclosed
    · have hall := next_token_all ht hbad
      rw [hnext] at hall
      exact .inl hall.toOk
  · rcases next_token_closed ht with hno | hraise
    · rw [hno] at hnext
      cases hnext
    · rw [hraise] at hnext
      cases hnext

/-- the run is at a good state, or the root is closed -/
theorem visits_ok {a t : State} (h : Visits a t) (ha : Ok a ∨ a.stack = []) : Ok t ∨ t.stack = [] := by
  have hround : ∀ {s t : State}, Ok s ∨ s.stack = [] → skip s.rest.length s = .token t → Ok t ∨ t.stack = [] := by
    intro s t hs hskip
    rcases hs with hs | hs
    · have hall := skip_all s.rest.length hs
      rw [hskip] at hall
      exact .inl hall.toOk
    · rcases skip_closed s.rest.length hs with hraise | ⟨t', ht', hclosed⟩
      · rw [hraise] at hskip
        cases hskip
      · rw [hskip] at ht'
        cases ht'
        exact .inr hclosed
  induction h with
  | start hskip => exact hround ha hskip
  | next hskip hnext _ ih => exact ih (next_ok (hround ha hskip) hnext)

theorem Round_start.ok {str : Str} (h : Round_start str s) : Ok s ∨ s.stack = [] := by
  rcases h with rfl | ⟨t, hvisits, hnext⟩
  · exact .inl (new_ok str)
  · exact next_ok (visits_ok hvisits (.inl (new_ok str))) hnext

/-- the spaces in front of it are read in the same round -/
theorem Passes.skip (h : Passes s u) (hs : Ok s ∨ s.stack = []) :
    Ok s ∧ Ok u ∧ Heredoc_next u ∧ skip s.rest.length s = skip u.rest.length u := by
  induction h with
  | @due s hdue =>
    have hok : Ok s := hs.resolve_right fun hclosed => by
      have hlast := hdue.2
      unfold last_token_type at hlast
      rw [hclosed] at hlast
      cases hlast
    exact ⟨hok, hok, hdue, rfl⟩
  | @step s s' u hnot hstep _ ih =>
    rcases hs with hs | hclosed
    · have hall := skip_step_all hs
      rw [hstep] at hall
      obtain ⟨-, hu, hdue, heq⟩ := ih (.inl hall.toOk)
      exact ⟨hs, hu, hdue, (skip_round hs hstep).trans heq⟩
    · have hone : Parser.skip 1 s = .token s' := skip_succ 0 hstep
      have hclosed' : s'.stack = [] := by
        rcases skip_closed 1 hclosed with hraise | ⟨s'', hs'', hclosed''⟩
        · rw [hone] at hraise
          cases hraise
        · rw [hone] at hs''
          cases hs''
          exact hclosed''
      have hopen := (ih (.inr hclosed')).1.stack
      rw [hclosed'] at hopen
      cases hopen

/-- **The round.** A run that comes to u reads the next token as it is read from u. -/
theorem opened_round {str : Str} (h : Opened str u) :
    Ok u ∧ Heredoc_next u ∧ ∃ s, Round_start str s ∧ skip s.rest.length s = skip u.rest.length u ∧ round s = round u := by
  obtain ⟨s, hstart, hpasses⟩ := h
  obtain ⟨-, hu, hdue, hskip⟩ := hpasses.skip hstart.ok
  refine ⟨hu, hdue, s, hstart, hskip, ?_⟩
  unfold round
  rw [hskip]

/-- **In order.** Where the terminator of a body ends its line and there are other heredocs of the line that opened it, the
next of them is due, and its text is what comes after the newline. -/
theorem later_opened {str text : Str} (h : Opened str u) (hround : round u = .token s')
    (hread : Read u heredoc later len body s') (hlater : later ≠ []) (hrest : s'.rest = '\n' :: text) :
    ∃ v, Opened str v ∧ v.rest = text ∧ v.heredoc = later ∧ v.values = s'.values := by
  obtain ⟨hu, -, s, hstart, hskip, -⟩ := opened_round h
  obtain ⟨t', ht', hnext⟩ : ∃ t', skip u.rest.length u = .token t' ∧ next_token t' = .token s' := by
    unfold round at hround
    cases hu : skip u.rest.length u with
    | token t' =>
      rw [hu] at hround
      exact ⟨t', rfl, hround⟩
    | no =>
      rw [hu] at hround
      cases hround
    | error err t' =>
      rw [hu] at hround
      cases hround
    | raise =>
      rw [hu] at hround
      cases hround
  have hlast : last_token_type s' = some (some .heredoc_body) := by
    have hadd := add_tokens_last hread.stack
    unfold last_token_type at hadd ⊢
    exact hadd
  obtain ⟨v, hstep, -, hdue, hv, hqueue, hvalues, -⟩ :=
    skip_step_newline (hread.ok hu) (hread.queue ▸ hlater) hlast (by simp) hrest
  refine ⟨v, ⟨s', .inr ⟨t', hstart.visits (hskip.trans ht'), hnext⟩, .step ?_ hstep (.due hdue)⟩, hv, ?_, hvalues⟩
  · intro hnot
    rw [hnot.2] at hlast
    cases hlast
  · rw [hqueue, hread.queue]

end Due

/-! ## The extent -/

/-- the body of a heredoc that is due is the lines in front of the first terminator: the run goes on right after that, with
the next heredoc of the line if there is one, and no body is read when there is no terminator -/
structure Extent (str : Str) (u : State) (heredoc : Heredoc) (later : List Heredoc) : Prop where
  closes : ∀ p, First heredoc u.rest p → ∃ s', round u = .token s' ∧
    Read u heredoc later (p + (line u.rest p).length) (u.rest.take (p - 1)) s'
  in_order : ∀ p s' text, First heredoc u.rest p → round u = .token s' → later ≠ [] →
    u.rest.drop (p + (line u.rest p).length) = '\n' :: text →
    ∃ v, Opened str v ∧ v.rest = text ∧ v.heredoc = later ∧ v.values = s'.values
  unterminated : (∀ p, ¬ Terminates heredoc u.rest p) → ∀ s', round u ≠ .token s'

/-- the text does not start with a comment or with the terminator, and no line after that begins with the label; without a
terminator, no line does after one that is not a comment -/
structure Plain (heredoc : Heredoc) (text : Str) : Prop where
  first : ∀ p, First heredoc text p → comment text = none ∧ p ≠ 0 ∧ ∀ q, p < q → ¬ Begins heredoc text q
  none : (∀ p, ¬ Terminates heredoc text p) → ∀ r q, r < q → LineStart text r → comment (text.drop r) = none →
    ¬ Begins heredoc text q

section Extent

variable {str : Str} {u : State} {heredoc : Heredoc} {later : List Heredoc}

theorem Extent.plain (hext : Extent str u heredoc later) (h : Opened str u) (hqueue : u.heredoc = heredoc :: later) :
    Plain heredoc u.rest := by
  obtain ⟨hu, hdue, -⟩ := opened_round h
  obtain ⟨c, t, ht, -, hnone, hsome⟩ := round_due hu hdue hqueue
  refine ⟨fun p hp => ?_, fun hno r q hlt hr hcomment hbegins => ?_⟩
  · obtain ⟨s', hs', hread⟩ := hext.closes p hp
    obtain ⟨len, hclose⟩ := Option.ne_none_iff_exists'.1 fun hclose => hnone hclose s' hs'
    obtain ⟨s'', hs'', hread'⟩ := hsome len hclose
    rw [hs'] at hs''
    cases hs''
    -- a comment would have left a token of its own
    have hc : c = 0 := by
      have hcount := hread.count
      have hcount' := hread'.count
      have hskipped := ht.count
      omega
    have hhere := ht.here hc
    subst hhere
    have hlen : len = p + (line t.rest p).length := by
      have hcur := hread.cur
      have hcur' := hread'.cur
      omega
    refine ⟨ht.last, ?_, fun q hq hbegins => ?_⟩
    · rintro rfl
      obtain ⟨q, n, hq, hline, -, heq, -⟩ := body_close_eq_some.1 hclose
      have hlt := line_lt hline (Nat.pos_of_ne_zero hq)
      omega
    · have hlt := body_close_beyond hbegins hq hclose
      omega
  · have hclose : body_close heredoc.type heredoc.label t.rest = none := by
      by_contra hclose
      obtain ⟨len, hclose⟩ := Option.ne_none_iff_exists'.1 hclose
      obtain ⟨s', hs', -⟩ := hsome len hclose
      exact hext.unterminated hno s' hs'
    have hle : c ≤ r := Nat.le_of_not_lt fun hlt => ht.comments r hlt hr hcomment
    rcases ht.next with ⟨-, hline⟩ | ⟨-, hall⟩
    · refine body_close_eq_none.1 hclose (q - c) (by omega) ?_
      rw [ht.rest, begins_drop hline, Nat.add_sub_cancel' (by omega)]
      exact hbegins
    · have hlt := hall r hr
      omega

theorem Plain.extent (hplain : Plain heredoc u.rest) (h : Opened str u) (hqueue : u.heredoc = heredoc :: later) :
    Extent str u heredoc later := by
  obtain ⟨hu, hdue, -⟩ := opened_round h
  obtain ⟨c, t, ht, -, hnone, hsome⟩ := round_due hu hdue hqueue
  have hcloses : ∀ p, First heredoc u.rest p → ∃ s', round u = .token s' ∧
      Read u heredoc later (p + (line u.rest p).length) (u.rest.take (p - 1)) s' := by
    intro p hp
    obtain ⟨hcomment, hp0, hlast⟩ := hplain.first p hp
    have hc : c = 0 := by
      by_contra hc
      exact ht.comments 0 (Nat.pos_of_ne_zero hc) (.inl rfl) hcomment
    have hhere := ht.here hc
    subst hhere
    obtain ⟨s', hs', hread⟩ := hsome _ (body_close_terminator hp.1 hp0 hlast)
    rw [heredoc_body_take hp.1.1 hp0] at hread
    exact ⟨s', hs', hread⟩
  refine ⟨hcloses, fun p s' text hp hs' hlater hrest => ?_, fun hno s' hs' => ?_⟩
  · obtain ⟨s'', hs'', hread⟩ := hcloses p hp
    rw [hs'] at hs''
    cases hs''
    refine later_opened h hs' hread hlater ?_
    have hadvance := rest_drop hu.cur (p + (line u.rest p).length)
    unfold State.rest State.advance at hadvance
    unfold State.rest at hrest ⊢
    rw [hread.str, hread.cur, ← hrest]
    exact hadvance
  · cases hclose : body_close heredoc.type heredoc.label t.rest with
    | none => exact hnone hclose s' hs'
    | some len =>
      obtain ⟨q, n, hq, hline, hn, -, -⟩ := body_close_eq_some.1 hclose
      have hbegins : Begins heredoc t.rest q := by
        rw [begins_iff hline, hn]
        exact Option.some_ne_none n
      have hc : LineStart u.rest c := by
        refine (ht.next.resolve_right fun hend => ?_).2
        have hle := hline.le
        rw [hend.1] at hle
        exact hq (Nat.le_zero.1 hle)
      have hlast := ht.last
      rw [ht.rest] at hbegins hlast
      exact hplain.none hno c (c + q) (by omega) hc hlast ((begins_drop hc).1 hbegins)

/-- **The extent of a heredoc.** Where one is due, the run reads the next token from there, and its body is the lines up to
the first terminator exactly when the text is plain. -/
theorem extent_iff (h : Opened str u) (hqueue : u.heredoc = heredoc :: later) :
    (∃ s, Round_start str s ∧ round s = round u) ∧ (Extent str u heredoc later ↔ Plain heredoc u.rest) := by
  obtain ⟨-, -, s, hstart, -, hround⟩ := opened_round h
  exact ⟨⟨s, hstart, hround⟩, fun hext => hext.plain h hqueue, fun hplain => hplain.extent h hqueue⟩

/-- a heredoc, and two with one label -/
def one_heredoc : Str := "a <<A;\nx\nA\n".toList

def same_label : Str := "a <<A;\nx\nA\nb <<A;\ny\nA\n".toList

/-- after the line `a <<A;` -/
def after_line (str : Str) : State :=
  { str := str
    cur := 8
    stack := [.block 1 [.setting, .newline] [.leaf ⟨1, 0, ['a'], none, 2, [0]⟩],
      .setting ⟨0, 0, "::ROOT".toList, some "config".toList, 1, []⟩ []]
    heredoc := [⟨.plain, ['A'], 0⟩]
    values := [⟨.string, ['A'], none⟩]
    settings := 2
    root := none }

theorem opened_one : Opened one_heredoc (after_line one_heredoc) := by
  refine ⟨_, .inr ⟨_, .next rfl rfl (.next rfl rfl (.start rfl)), rfl⟩, .step ?_ rfl (.due ⟨?_, rfl⟩)⟩
  · rintro ⟨-, h⟩
    cases h
  · exact List.cons_ne_nil _ _

theorem opened_same : Opened same_label (after_line same_label) := by
  refine ⟨_, .inr ⟨_, .next rfl rfl (.next rfl rfl (.start rfl)), rfl⟩, .step ?_ rfl (.due ⟨?_, rfl⟩)⟩
  · rintro ⟨-, h⟩
    cases h
  · exact List.cons_ne_nil _ _

theorem extent_iff_one : (∃ s, Round_start one_heredoc s ∧ round s = round (after_line one_heredoc)) ∧
    (Extent one_heredoc (after_line one_heredoc) ⟨.plain, ['A'], 0⟩ [] ↔
      Plain ⟨.plain, ['A'], 0⟩ (after_line one_heredoc).rest) :=
  extent_iff opened_one rfl

/-- two heredocs with one label: the first ends where the second does -/
theorem label_again :
    (∃ root, parse same_label = .root root [⟨.string, "x\nA\nb <<A;\ny".toList, none⟩]) ∧
      ¬ ∀ str u heredoc later, Opened str u → u.heredoc = heredoc :: later → Extent str u heredoc later := by
  refine ⟨⟨_, rfl⟩, fun hall => ?_⟩
  have hext := hall same_label (after_line same_label) ⟨.plain, ['A'], 0⟩ [] opened_same rfl
  obtain ⟨s', hs', hread⟩ := hext.closes 2 (by decide)
  obtain ⟨s₀, hs₀, hcur⟩ : ∃ s₀, round (after_line same_label) = .token s₀ ∧ s₀.cur = 22 := ⟨_, rfl, rfl⟩
  rw [hs₀] at hs'
  cases hs'
  rw [hread.cur] at hcur
  revert hcur
  decide

end Extent

end Shuttlesock.Parser
