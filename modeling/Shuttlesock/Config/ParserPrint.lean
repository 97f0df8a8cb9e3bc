/-
Parsing what was printed from a tree of settings.

A name ends at a space or a semicolon, and every other token where it does so by itself: a quoted string at the first quote
that is not escaped. So spaces are needed only after a name that a value or a brace follows.

Model: `Line` is a setting without its block, `Node` one with or without it. `Prints nodes text` says that text is a printing
of the settings, with any spaces between its tokens; `print` is the one with the fewest of them. `Same` says that settings of
the parser show a list of nodes, that they belong to their owner, and are numbered in the order in which they were read.

Results:
- `parse_printed`: for every tree and every printing of it the parser returns that tree.
- `prints_print`: every tree has a printing.
-/
import Mathlib.Tactic
import Mathlib.Data.List.TakeWhile
import Shuttlesock.Config.ParserTotal

namespace Shuttlesock.Parser

/-! ## Trees and printings -/

/-- the name, the module, and the quote character and raw text of every value -/
structure Line where
  module_name : Option Str
  name : Str
  values : List (Char × Str)
deriving DecidableEq

inductive Node where
  | leaf (l : Line)
  | block (l : Line) (settings : List Node)

def blank (c : Char) : Bool := c ∈ [' ', '\t', '\r', '\n']

def Spaces (w : Str) : Prop := ∀ c ∈ w, blank c = true

instance (w : Str) : Decidable (Spaces w) := List.decidableBAll _ w

/-- `[A-Za-z0-9_.]` -/
def namechar (c : Char) : Bool := isword c || c == '.'

/-- text in which every quote comes after a backslash that no other one escapes -/
inductive Escaped (quote_char : Char) : Str → Prop
  | nil : Escaped quote_char []
  | plain {c : Char} {t : Str} : c ≠ quote_char → c ≠ '\\' → Escaped quote_char t → Escaped quote_char (c :: t)
  | escape {c : Char} {t : Str} : Escaped quote_char t → Escaped quote_char ('\\' :: c :: t)

/-- the name with the module in front -/
def Line.full_name (l : Line) : Str :=
  match l.module_name with
  | some m => m ++ ':' :: l.name
  | none => l.name

structure Line.Ok (l : Line) : Prop where
  name : l.name ≠ [] ∧ ∀ c ∈ l.name, namechar c = true
  module_name : ∀ m, l.module_name = some m → m ≠ [] ∧ ∀ c ∈ m, isword c = true
  values : ∀ v ∈ l.values, (v.1 = '\'' ∨ v.1 = '"') ∧ Escaped v.1 v.2

/-- quoted values, each with spaces in front -/
inductive PrintsValues : List (Char × Str) → Str → Prop
  | nil : PrintsValues [] []
  | cons {w text : Str} {v : Char × Str} {values : List (Char × Str)} : Spaces w → PrintsValues values text →
    PrintsValues (v :: values) (w ++ v.1 :: v.2 ++ v.1 :: text)

/-- where a name ends -/
def EndsName (text : Str) : Prop := ∃ c t, text = c :: t ∧ (blank c = true ∨ c = ';')

inductive Prints : List Node → Str → Prop
  | nil {w : Str} : Spaces w → Prints [] w
  | leaf {w text w' rest : Str} {l : Line} {nodes : List Node} : Spaces w → l.Ok → PrintsValues l.values text →
    Spaces w' → EndsName (text ++ w' ++ ';' :: rest) → Prints nodes rest →
    Prints (.leaf l :: nodes) (w ++ l.full_name ++ (text ++ w' ++ ';' :: rest))
  | block {w text w' inside rest : Str} {l : Line} {settings nodes : List Node} : Spaces w → l.Ok →
    PrintsValues l.values text → Spaces w' → EndsName (text ++ w' ++ '\x7b' :: (inside ++ '\x7d' :: rest)) →
    Prints settings inside → Prints nodes rest →
    Prints (.block l settings :: nodes) (w ++ l.full_name ++ (text ++ w' ++ '\x7b' :: (inside ++ '\x7d' :: rest)))

/-- a quoted value of the parser -/
def quoted (v : Char × Str) : Value := ⟨.string, v.2, some v.1⟩

/-- a setting of the parser shows a line, with the values in the list of all values -/
structure ShowsLine (values : List Value) (h : Head) (l : Line) : Prop where
  name : h.name = l.name
  module_name : h.module_name = l.module_name
  values : h.values.map (fun i => values[i]?) = l.values.map (fun v => some (quoted v))

/-- `Same values owner n settings nodes m`: the settings show the nodes, they and nobody else have the owner for a parent, and
their numbers are those from n up to m, in the order of the text -/
inductive Same (values : List Value) : ℕ → ℕ → List Setting → List Node → ℕ → Prop
  | nil {owner n : ℕ} : Same values owner n [] [] n
  | leaf {owner n m : ℕ} {h : Head} {l : Line} {settings : List Setting} {nodes : List Node} : h.id = n →
    h.parent = owner → ShowsLine values h l → Same values owner (n + 1) settings nodes m →
    Same values owner n (.leaf h :: settings) (.leaf l :: nodes) m
  | block {owner n k m : ℕ} {h : Head} {l : Line} {inside settings : List Setting} {nodes' nodes : List Node} : h.id = n →
    h.parent = owner → ShowsLine values h l → Same values n (n + 1) inside nodes' k →
    Same values owner k settings nodes m → Same values owner n (.block h inside :: settings) (.block l nodes' :: nodes) m

/-! ## Tokens of a printing -/

/-- what is left without the spaces in front -/
def trim (s : Str) : Str := s.dropWhile blank

theorem trim_spaces {w : Str} (h : Spaces w) (s : Str) : trim (w ++ s) = trim s := by
  induction w with
  | nil => rfl
  | cons c w ih =>
    unfold trim at ih ⊢
    rw [List.cons_append, List.dropWhile_cons_of_pos (h c List.mem_cons_self)]
    exact ih fun d hd => h d (List.mem_cons_of_mem c hd)

theorem trim_of_head {c : Char} (hc : blank c = false) (s : Str) : trim (c :: s) = c :: s := by
  unfold trim
  rw [List.dropWhile_cons_of_neg (by rw [hc]; exact Bool.false_ne_true)]

/-- what is left does not start with a space -/
theorem trim_head {s t : Str} {c : Char} (h : trim s = c :: t) : blank c = false := by
  induction s with
  | nil => cases h
  | cons d s ih =>
    cases hd : blank d with
    | true =>
      unfold trim at h ih
      rw [List.dropWhile_cons_of_pos hd] at h
      exact ih h
    | false =>
      rw [trim_of_head hd] at h
      cases h
      exact hd

theorem trim_trim (s : Str) : trim (trim s) = trim s := by
  cases h : trim s with
  | nil => rfl
  | cons c t => exact trim_of_head (trim_head h) t

/-- the spaces in front, and what is left -/
theorem takeWhile_trim (s : Str) : s = s.takeWhile blank ++ trim s := (List.takeWhile_append_dropWhile).symm

/-- the backslashes at the end, with one more character -/
theorem count_slashes_reverse_concat (s : Str) (c : Char) :
    count_slashes_reverse (s ++ [c]) = if c = '\\' then count_slashes_reverse s + 1 else 0 := by
  unfold count_slashes_reverse
  rw [List.reverse_append, List.reverse_singleton, List.singleton_append]
  split
  · rename_i h
    rw [List.takeWhile_cons_of_pos (by simpa using h), List.length_cons]
  · rename_i h
    rw [List.takeWhile_cons_of_neg (by simpa using h), List.length_nil]

/-- **A quoted string ends at its closing quote.** -/
theorem unquote_escaped {q : Char} (hq : q ≠ '\\') {raw : Str} (h : Escaped q raw) (text rest : Str)
    (heven : count_slashes_reverse text % 2 = 0) : unquote q text (raw ++ q :: rest) = some (text ++ raw) := by
  induction h generalizing text with
  | nil =>
    rw [List.nil_append, List.append_nil]
    unfold unquote
    rw [if_pos ⟨rfl, heven⟩]
  | @plain c t hcq hc _ ih =>
    rw [List.cons_append]
    unfold unquote
    rw [if_neg fun h => hcq h.1, ih (text ++ [c]), List.append_assoc, List.singleton_append]
    rw [count_slashes_reverse_concat, if_neg hc]
  | @escape c t _ ih =>
    have hodd : count_slashes_reverse (text ++ ['\\']) % 2 = 1 := by
      rw [count_slashes_reverse_concat, if_pos rfl]
      omega
    have heven' : count_slashes_reverse (text ++ ['\\'] ++ [c]) % 2 = 0 := by
      rw [count_slashes_reverse_concat]
      split <;> omega
    rw [List.cons_append, List.cons_append]
    unfold unquote
    rw [if_neg fun h => hq h.1.symm]
    unfold unquote
    rw [if_neg fun h => by omega, ih _ heven']
    simp only [List.append_assoc, List.cons_append, List.nil_append]

theorem match_string_quoted {q : Char} (hq : q = '\'' ∨ q = '"') {raw : Str} (h : Escaped q raw) (rest : Str) :
    match_string (q :: raw ++ q :: rest) = some (some raw, q) := by
  have hne : q ≠ '\\' := by
    rintro rfl
    rcases hq with hq | hq <;> cases hq
  unfold match_string
  rw [List.cons_append]
  dsimp only
  rw [if_pos hq, unquote_escaped hne h [] rest rfl, List.nil_append]

theorem isspace_of_blank {c : Char} (h : blank c = true) : isspace c = true := by
  unfold blank at h
  unfold isspace
  simp only [List.mem_cons, List.not_mem_nil, or_false, decide_eq_true_eq] at h
  rcases h with rfl | rfl | rfl | rfl <;> rfl

/-! ## Where the parser is -/

/-- a chunk without its tokens, which play a part in heredocs only -/
def Chunk.bare : Chunk → Chunk
  | .setting h _ => .setting h []
  | .block first _ settings => .block first [] settings

/-- with what the parser goes on: the stack, the values and the number of settings, and what it has not read, from the next
token on; there are no heredocs -/
structure At (s : State) (stack : List Chunk) (values : List Value) (settings : ℕ) (rest : Str) : Prop where
  cur : 1 ≤ s.cur
  stack : s.stack.map Chunk.bare = stack
  heredoc : s.heredoc = []
  values : s.values = values
  settings : s.settings = settings
  rest : trim s.rest = rest

/-- one token -/
def Reads (s s' : State) : Prop := ∃ t, skip s.rest.length s = .token t ∧ next_token t = .token s'

section At

variable {s : State} {stack : List Chunk} {values : List Value} {settings : ℕ} {rest : Str}

theorem setting_of_bare {st : List Chunk} {h : Head} {below : List Chunk}
    (heq : st.map Chunk.bare = .setting h [] :: below) :
    ∃ tokens below', st = .setting h tokens :: below' ∧ below'.map Chunk.bare = below := by
  obtain ⟨c, below', rfl, hc, hbelow⟩ := List.map_eq_cons_iff.1 heq
  cases c with
  | setting h' tokens =>
    cases hc
    exact ⟨tokens, below', rfl, hbelow⟩
  | block first tokens settings => cases hc

theorem block_of_bare {st : List Chunk} {first : ℕ} {ss : List Setting} {below : List Chunk}
    (heq : st.map Chunk.bare = .block first [] ss :: below) :
    ∃ tokens below', st = .block first tokens ss :: below' ∧ below'.map Chunk.bare = below := by
  obtain ⟨c, below', rfl, hc, hbelow⟩ := List.map_eq_cons_iff.1 heq
  cases c with
  | setting h' tokens => cases hc
  | block first' tokens settings =>
    cases hc
    exact ⟨tokens, below', rfl, hbelow⟩

/-- tokens are added to a bare stack without a trace -/
theorem add_tokens_bare (hne : s.stack ≠ []) (ts : List TokenType) :
    ∃ s', add_tokens s ts = some s' ∧ s'.stack.map Chunk.bare = s.stack.map Chunk.bare ∧ s'.cur = s.cur ∧
      s'.str = s.str ∧ s'.heredoc = s.heredoc ∧ s'.values = s.values ∧ s'.settings = s.settings := by
  unfold add_tokens
  cases hs : s.stack with
  | nil => exact absurd hs hne
  | cons c below => cases c <;> exact ⟨_, rfl, rfl, rfl, rfl, rfl, rfl, rfl⟩

theorem At.stack_ne_nil (h : At s stack values settings rest) (hne : stack ≠ []) : s.stack ≠ [] := by
  rintro hnil
  have hstack := h.stack
  rw [hnil] at hstack
  exact hne hstack.symm

/-- spaces that were read change nothing of where the parser is -/
theorem spaces_read_at (h : At s stack values settings rest) (hne : stack ≠ []) {m r : Str} (hs : s.rest = m ++ r)
    (hm : Spaces m) : ∃ s', spaces_read s m = .token s' ∧ At s' stack values settings rest ∧ s'.rest = r := by
  have hrest : (s.advance m.length).rest = r := by
    rw [rest_drop h.cur, hs, List.drop_left]
  have hat : At (s.advance m.length) stack values settings rest := by
    refine ⟨h.cur.trans (Nat.le_add_right _ _), h.stack, h.heredoc, h.values, h.settings, ?_⟩
    have hr := h.rest
    rw [hs, trim_spaces hm] at hr
    rw [hrest, hr]
  unfold spaces_read
  dsimp only
  split
  · exact ⟨_, rfl, hat, hrest⟩
  · obtain ⟨s', heq, hstack, hcur, hstr, hheredoc, hvalues, hsettings⟩ :=
      add_tokens_bare (hat.stack_ne_nil hne) (List.replicate (m.count '\n') .newline)
    have hrest' : s'.rest = (s.advance m.length).rest := by
      unfold State.rest
      rw [hcur, hstr]
    rw [heq]
    refine ⟨s', rfl, ⟨hcur ▸ hat.cur, hstack.trans hat.stack, hheredoc.trans hat.heredoc, hvalues.trans hat.values,
      hsettings.trans hat.settings, ?_⟩, hrest'.trans hrest⟩
    rw [hrest', hat.rest]

theorem some_of_split {p : Char → Bool} {m r : Str} (hm : ∀ c ∈ m, p c = true) (hne : m ≠ [])
    (hr : ∀ c t, r = c :: t → p c = false) : some_of p (m ++ r) = some m := by
  have htake : (m ++ r).takeWhile p = m := by
    rw [List.takeWhile_append_of_pos hm]
    cases r with
    | nil => rw [List.takeWhile_nil, List.append_nil]
    | cons c t => rw [List.takeWhile_cons_of_neg (by rw [hr c t rfl]; exact Bool.false_ne_true), List.append_nil]
  unfold some_of
  rw [htake, if_neg hne]

theorem some_of_prefix {p : Char → Bool} {s m : Str} (h : some_of p s = some m) :
    s = m ++ s.dropWhile p ∧ ∀ c ∈ m, p c = true := by
  unfold some_of at h
  split at h
  · cases h
  · cases h
    exact ⟨(List.takeWhile_append_dropWhile).symm, fun c hc => List.mem_takeWhile_imp hc⟩

theorem some_of_none {p : Char → Bool} {s : Str} (h : ∀ c t, s = c :: t → p c = false) : some_of p s = none := by
  unfold some_of
  cases s with
  | nil => rfl
  | cons c t => rw [List.takeWhile_cons_of_neg (by rw [h c t rfl]; exact Bool.false_ne_true), if_pos rfl]

/-- nothing is skipped in front of a token -/
theorem skip_round_no (h : At s stack values settings rest) (hs : s.rest = rest) (hhash : rest.head? ≠ some '#') :
    ((skip_space s).orElse fun _ => skip_comment s) = .no := by
  have htrim : trim rest = rest := by
    rw [← h.rest, trim_trim]
  have hspace : some_of blank rest = none := some_of_none fun c t hr => trim_head (htrim.trans hr)
  have hcomment : comment rest = none := by
    unfold comment
    split
    · exact absurd rfl hhash
    · rfl
  have hskip : skip_space s = .no := by
    unfold skip_space
    rw [if_pos h.heredoc, hs]
    change (some_of blank rest).elim .no (spaces_read s) = .no
    rw [hspace]
    rfl
  rw [hskip]
  unfold Outcome.orElse skip_comment
  dsimp only
  rw [hs, hcomment]

/-- **Skipping.** The spaces in front of a token are skipped, all at once. -/
theorem skip_at (h : At s stack values settings rest) (hne : stack ≠ []) (hhash : rest.head? ≠ some '#') :
    ∃ t, skip s.rest.length s = .token t ∧ At t stack values settings rest ∧ t.rest = rest := by
  have hsplit := takeWhile_trim s.rest
  rw [h.rest] at hsplit
  by_cases hw : s.rest.takeWhile blank = []
  · rw [hw, List.nil_append] at hsplit
    exact ⟨s, skip_of_no _ (skip_round_no h hsplit hhash), h, hsplit⟩
  · have hspaces : Spaces (s.rest.takeWhile blank) := fun c hc => List.mem_takeWhile_imp hc
    obtain ⟨t, ht, hat, hrest⟩ := spaces_read_at h hne hsplit hspaces
    have hskip : skip_space s = .token t := by
      unfold skip_space
      rw [if_pos h.heredoc]
      change (some_of blank s.rest).elim .no (spaces_read s) = .token t
      unfold some_of
      rw [if_neg hw]
      exact ht
    refine ⟨t, ?_, hat, hrest⟩
    obtain ⟨n, hn⟩ : ∃ n, s.rest.length = n + 1 := by
      refine Nat.exists_eq_add_one.2 (List.length_pos_of_ne_nil fun hnil => hw ?_)
      rw [hnil, List.takeWhile_nil]
    rw [hn]
    unfold skip
    rw [hskip]
    exact skip_of_no n (skip_round_no hat hrest hhash)

/-- one token, from where the parser stands after skipping -/
theorem reads_of {stack' : List Chunk} {values' : List Value} {settings' : ℕ} {rest' : Str}
    (h : At s stack values settings rest) (hne : stack ≠ []) (hhash : rest.head? ≠ some '#')
    (htoken : ∀ t, At t stack values settings rest → t.rest = rest →
      ∃ s', next_token t = .token s' ∧ At s' stack' values' settings' rest') :
    ∃ s', Reads s s' ∧ At s' stack' values' settings' rest' := by
  obtain ⟨t, hskip, hat, hrest⟩ := skip_at h hne hhash
  obtain ⟨s', hnext, hat'⟩ := htoken t hat hrest
  exact ⟨s', ⟨t, hskip, hnext⟩, hat'⟩

/-- what is left after m -/
theorem rest_after {t s' : State} {m r : Str} (hcur : 1 ≤ t.cur) (hrest : t.rest = m ++ r) (hstr : s'.str = t.str)
    (hcur' : s'.cur = t.cur + m.length) : s'.rest = r := by
  have hadvance := rest_drop hcur m.length
  rw [hrest, List.drop_left] at hadvance
  rw [← hadvance]
  unfold State.rest State.advance
  rw [hstr, hcur']

theorem not_at_end {t : State} (hcur : 1 ≤ t.cur) {c : Char} {r : Str} (hrest : t.rest = c :: r) :
    ¬ t.str.length < t.cur := by
  have hlen := rest_length t
  rw [hrest, List.length_cons] at hlen
  omega

/-- without heredocs, a token in a block is its end or a name -/
theorem next_token_block {t : State} (hcur : 1 ≤ t.cur) (hheredoc : t.heredoc = []) {c : Char} {r : Str}
    (hrest : t.rest = c :: r) {first : ℕ} {tokens : List TokenType} {ss : List Setting} {below : List Chunk}
    (hstack : t.stack = .block first tokens ss :: below) :
    next_token t = (match_block_end t).orElse fun _ => match_setting_name t := by
  unfold next_token match_heredoc
  rw [if_neg (not_at_end hcur hrest), hheredoc]
  unfold Outcome.orElse
  dsimp only
  rw [hstack]

theorem heredoc_type_none {c : Char} (hc : c ≠ '<') (r : Str) : heredoc_type (c :: r) = none := by
  unfold heredoc_type
  split
  · rename_i heq
    cases heq
    exact absurd rfl hc
  · rename_i heq
    cases heq
    exact absurd rfl hc
  · rename_i heq
    cases heq
    exact absurd rfl hc
  · rfl

theorem next_token_setting {t : State} (hcur : 1 ≤ t.cur) (hheredoc : t.heredoc = []) {c : Char} {r : Str}
    (hrest : t.rest = c :: r) {h : Head} {tokens : List TokenType} {below : List Chunk}
    (hstack : t.stack = .setting h tokens :: below) (hc : c ≠ '<') :
    next_token t = (match_string_value t).orElse fun _ => (match_variable t).orElse fun _ =>
      (match_block_start t).orElse fun _ => (match_block_end t).orElse fun _ => (match_semicolon t).orElse fun _ =>
        match_value t := by
  have hstart : match_heredoc_start t = .no := by
    unfold match_heredoc_start
    rw [hrest, heredoc_type_none hc]
  unfold next_token match_heredoc
  rw [if_neg (not_at_end hcur hrest), hheredoc, hstack, hstart]
  rfl

end At

/-! ## Names -/

theorem namechar_not_space {c : Char} (h : namechar c = true) : isspace c = false := by
  rw [← Bool.not_eq_true]
  intro hs
  unfold isspace at hs
  simp only [List.mem_cons, List.not_mem_nil, or_false, decide_eq_true_eq, Bool.or_eq_true, beq_iff_eq] at hs
  have hc : c = ' ' ∨ c = '\t' ∨ c = '\n' ∨ c = '\r' ∨ c = Char.ofNat 11 ∨ c = Char.ofNat 12 := by
    rcases hs with ((hs | hs | hs | hs) | hs) | hs
    · exact .inl hs
    · exact .inr (.inl hs)
    · exact .inr (.inr (.inl hs))
    · exact .inr (.inr (.inr (.inl hs)))
    · exact .inr (.inr (.inr (.inr (.inl (by rw [← hs, Char.ofNat_toNat])))))
    · exact .inr (.inr (.inr (.inr (.inr (by rw [← hs, Char.ofNat_toNat])))))
  rcases hc with rfl | rfl | rfl | rfl | rfl | rfl <;> exact absurd h (by decide)

/-- a character of a name with its module -/
theorem full_name_char {l : Line} (h : l.Ok) {c : Char} (hc : c ∈ l.full_name) : namechar c = true ∨ c = ':' := by
  unfold Line.full_name at hc
  cases hm : l.module_name with
  | none =>
    rw [hm] at hc
    exact .inl (h.name.2 c hc)
  | some m =>
    rw [hm] at hc
    rcases List.mem_append.1 hc with hc | hc
    · left
      unfold namechar
      rw [(h.module_name m hm).2 c hc, Bool.true_or]
    · rcases List.mem_cons.1 hc with hc | hc
      · exact .inr hc
      · exact .inl (h.name.2 c hc)

theorem full_name_ne_nil {l : Line} (h : l.Ok) : l.full_name ≠ [] := by
  unfold Line.full_name
  split
  · exact List.append_ne_nil_of_right_ne_nil _ (List.cons_ne_nil _ _)
  · exact h.name.1

/-- what a name starts with is none of the marks of other tokens -/
theorem full_name_head {l : Line} (h : l.Ok) :
    ∃ c u, l.full_name = c :: u ∧ blank c = false ∧ c ≠ '#' ∧ c ≠ ';' ∧ c ≠ '\x7b' ∧ c ≠ '\x7d' := by
  obtain ⟨c, u, hcu⟩ := List.exists_cons_of_ne_nil (full_name_ne_nil h)
  refine ⟨c, u, hcu, ?_⟩
  have hmem : c ∈ l.full_name := by
    rw [hcu]
    exact List.mem_cons_self
  rcases full_name_char h hmem with hn | rfl
  · constructor
    · rw [← Bool.not_eq_true]
      exact fun hb => Bool.false_ne_true ((namechar_not_space hn).symm.trans (isspace_of_blank hb))
    · refine ⟨?_, ?_, ?_, ?_⟩ <;> rintro rfl <;> exact absurd hn (by decide)
  · decide

theorem trim_full_name {l : Line} (h : l.Ok) (r : Str) : trim (l.full_name ++ r) = l.full_name ++ r := by
  obtain ⟨c, u, hcu, hblank, -⟩ := full_name_head h
  rw [hcu, List.cons_append, trim_of_head hblank]

/-- where a name is read, it is read up to a space or a semicolon -/
theorem some_of_full_name {l : Line} (h : l.Ok) {r : Str} (hr : EndsName r) :
    some_of (fun c => !isspace c && c ≠ '$' && c ≠ ';') (l.full_name ++ r) = some l.full_name := by
  apply some_of_split
  · intro c hc
    rcases full_name_char h hc with hc | rfl
    · rw [namechar_not_space hc]
      have hne : c ≠ '$' ∧ c ≠ ';' := by
        constructor <;> rintro rfl <;> exact absurd hc (by decide)
      simp only [Bool.not_false, Bool.true_and, ne_eq, Bool.and_eq_true, decide_eq_true_eq]
      exact hne
    · decide
  · exact full_name_ne_nil h
  · intro c t heq
    obtain ⟨d, u, hdu, hd⟩ := hr
    rw [heq] at hdu
    cases hdu
    rcases hd with hd | rfl
    · rw [isspace_of_blank hd]
      rfl
    · decide

theorem qualified_name_full {m name : Str} (hm : m ≠ [] ∧ ∀ c ∈ m, isword c = true) (hname : name ≠ []) :
    qualified_name (m ++ ':' :: name) = some (m, name) := by
  have htake : (m ++ ':' :: name).takeWhile (fun c => c ≠ ':' && c ≠ '.') = m := by
    rw [List.takeWhile_append_of_pos, List.takeWhile_cons_of_neg, List.append_nil]
    · decide
    · intro c hc
      have hne : c ≠ ':' ∧ c ≠ '.' := by
        constructor <;> rintro rfl <;> exact absurd (hm.2 _ hc) (by decide)
      simp only [ne_eq, Bool.and_eq_true, decide_eq_true_eq]
      exact hne
  unfold qualified_name
  dsimp only
  rw [htake, List.drop_left]
  exact if_neg (not_or.2 ⟨hm.1, hname⟩)

/-- the module and the name are found in the full name -/
theorem match_setting_name_full {l : Line} (h : l.Ok) {t : State} {r : Str} (hrest : t.rest = l.full_name ++ r)
    (hr : EndsName r) :
    match_setting_name t = .assert (push_setting (t.advance l.full_name.length) l.name l.module_name) := by
  obtain ⟨c, u, hcu, -, -, hsemi, hbrace, -⟩ := full_name_head h
  have hhead : t.rest.head? = some c := by
    rw [hrest, hcu]
    rfl
  unfold match_setting_name
  rw [hhead, if_neg (by simpa using hsemi), if_neg (by simpa using hbrace), hrest, some_of_full_name h hr]
  dsimp only
  unfold Line.full_name
  cases hm : l.module_name with
  | none =>
    dsimp only
    rw [if_neg]
    intro hcolon
    exact absurd (h.name.2 _ hcolon) (by decide)
  | some m =>
    dsimp only
    rw [if_pos (List.mem_append_right _ List.mem_cons_self), qualified_name_full (h.module_name m hm) h.name.1]

/-! ## Steps -/

section Steps

variable {s : State} {stack below : List Chunk} {values : List Value} {n first : ℕ} {ss : List Setting}

/-- a name opens a setting, whose parent is the one that owns the block -/
theorem reads_name {owner : Head} {l : Line} (hl : l.Ok) {r : Str} (hr : EndsName r)
    (h : At s (.block first [] ss :: .setting owner [] :: below) values n (l.full_name ++ r)) :
    ∃ s' pos, Reads s s' ∧ At s' (.setting ⟨n, owner.id, l.name, l.module_name, pos, []⟩ [] ::
      .block first [] ss :: .setting owner [] :: below) values (n + 1) (trim r) := by
  obtain ⟨c, u, hcu, -, hhash, -, -, hbrace⟩ := full_name_head hl
  have hhead : (l.full_name ++ r).head? = some c := by
    rw [hcu]
    rfl
  obtain ⟨t, hskip, hat, hrest⟩ := skip_at h (List.cons_ne_nil _ _) (by rw [hhead]; simpa using hhash)
  obtain ⟨tk, below', hstack, hbelow⟩ := block_of_bare hat.stack
  obtain ⟨tk', below'', rfl, -⟩ := setting_of_bare hbelow
  have hcons : t.rest = c :: (u ++ r) := by rw [hrest, hcu, List.cons_append]
  have hend : match_block_end t = .no := by
    unfold match_block_end
    rw [hrest, hhead, if_neg (by simpa using hbrace)]
  refine ⟨{ t.advance l.full_name.length with
    stack := .setting ⟨t.settings, owner.id, l.name, l.module_name, t.cur + l.full_name.length, []⟩ [] :: t.stack
    settings := t.settings + 1 }, t.cur + l.full_name.length, ⟨t, hskip, ?_⟩, ?_⟩
  · rw [next_token_block hat.cur hat.heredoc hcons hstack, hend]
    change match_setting_name t = _
    rw [match_setting_name_full hl hrest hr]
    unfold push_setting State.advance
    dsimp only
    rw [hstack]
    rfl
  · refine ⟨hat.cur.trans (Nat.le_add_right _ _), ?_, hat.heredoc, hat.values, congrArg (· + 1) hat.settings, ?_⟩
    · rw [List.map_cons, hat.stack]
      unfold Chunk.bare
      rw [hat.settings]
    · exact congrArg trim (rest_after hat.cur hrest rfl rfl)

theorem quote_facts {q : Char} (hq : q = '\'' ∨ q = '"') : blank q = false ∧ q ≠ '#' ∧ q ≠ '<' := by
  rcases hq with rfl | rfl <;> decide

/-- a quoted string is a value of the open setting -/
theorem reads_value {hd : Head} {v : Char × Str} (hq : v.1 = '\'' ∨ v.1 = '"') (hv : Escaped v.1 v.2) {r : Str}
    (h : At s (.setting hd [] :: below) values n (v.1 :: v.2 ++ v.1 :: r)) :
    ∃ s', Reads s s' ∧
      At s' (.setting { hd with values := hd.values ++ [values.length] } [] :: below) (values ++ [quoted v]) n (trim r) := by
  obtain ⟨-, hhash, hheredoc⟩ := quote_facts hq
  refine reads_of h (List.cons_ne_nil _ _) (by simpa using hhash) fun t hat hrest => ?_
  obtain ⟨tk, below', hstack, hbelow⟩ := setting_of_bare hat.stack
  have hmatch : match_string_value t =
      .assert (add_value_to_setting (t.advance (v.2.length + 2)) ⟨.string, v.2, some v.1⟩) := by
    unfold match_string_value
    rw [hrest, match_string_quoted hq hv]
  have hrest' : t.rest = (v.1 :: v.2 ++ [v.1]) ++ r := by
    rw [hrest, List.append_assoc, List.singleton_append]
  refine ⟨{ t.advance (v.2.length + 2) with
    stack := .setting { hd with values := hd.values ++ [t.values.length] } (tk ++ [.value .string]) :: below'
    values := t.values ++ [quoted v] }, ?_, ?_⟩
  · rw [next_token_setting hat.cur hat.heredoc hrest hstack hheredoc, hmatch]
    unfold add_value_to_setting add_value State.advance
    dsimp only
    rw [hstack]
    rfl
  · refine ⟨hat.cur.trans (Nat.le_add_right _ _), ?_, hat.heredoc, ?_, hat.settings, ?_⟩
    · rw [List.map_cons, hbelow, hat.values]
      rfl
    · dsimp only
      rw [hat.values]
    · refine congrArg trim (rest_after hat.cur hrest' rfl ?_)
      simp only [State.advance, List.cons_append, List.length_cons, List.length_append, List.length_nil]

/-- in a setting a brace or a semicolon is none of the tokens before it in the order of the matchers -/
theorem next_token_mark {t : State} (hcur : 1 ≤ t.cur) (hheredoc : t.heredoc = []) {c : Char} {r : Str}
    (hrest : t.rest = c :: r) {h : Head} {tokens : List TokenType} {stack : List Chunk}
    (hstack : t.stack = .setting h tokens :: stack) (hc : c ≠ '<' ∧ c ≠ '\'' ∧ c ≠ '"' ∧ c ≠ '$') :
    next_token t = (match_block_start t).orElse fun _ => (match_block_end t).orElse fun _ =>
      (match_semicolon t).orElse fun _ => match_value t := by
  have hstring : match_string_value t = .no := by
    unfold match_string_value match_string
    rw [hrest]
    dsimp only
    rw [if_neg (by tauto)]
  have hvar : match_variable t = .no := by
    unfold match_variable
    rw [hrest, parse_variable_absent hc.2.2.2]
  rw [next_token_setting hcur hheredoc hrest hstack hc.1, hstring, hvar]
  rfl

theorem reads_block_start {hd : Head} {r : Str} (h : At s (.setting hd [] :: below) values n ('\x7b' :: r)) :
    ∃ s' pos, Reads s s' ∧ At s' (.block pos [] [] :: .setting hd [] :: below) values n (trim r) := by
  obtain ⟨t, hskip, hat, hrest⟩ := skip_at h (List.cons_ne_nil _ _) (by rw [List.head?_cons]; decide)
  obtain ⟨tk, below', hstack, hbelow⟩ := setting_of_bare hat.stack
  refine ⟨{ t.advance 1 with stack := .block (t.cur + 1) [] [] :: t.stack }, t.cur + 1, ⟨t, hskip, ?_⟩, ?_⟩
  · rw [next_token_mark hat.cur hat.heredoc hrest hstack (by decide)]
    unfold match_block_start push_block State.advance
    dsimp only
    rw [hrest, hstack]
    rfl
  · refine ⟨hat.cur.trans (Nat.le_add_right _ _), ?_, hat.heredoc, hat.values, hat.settings, ?_⟩
    · rw [List.map_cons, hat.stack]
      rfl
    · have hrest' : t.rest = ['\x7b'] ++ r := hrest
      exact congrArg trim (rest_after hat.cur hrest' rfl rfl)

/-- a brace closes the block of a setting that is in a block itself, and the setting with it -/
theorem reads_block_end {hd : Head} {pos : ℕ} {inside : List Setting} {r : Str}
    (h : At s (.block pos [] inside :: .setting hd [] :: .block first [] ss :: below) values n ('\x7d' :: r)) :
    ∃ s', Reads s s' ∧ At s' (.block first [] (ss ++ [.block hd inside]) :: below) values n (trim r) := by
  obtain ⟨t, hskip, hat, hrest⟩ := skip_at h (List.cons_ne_nil _ _) (by rw [List.head?_cons]; decide)
  obtain ⟨tk, below₁, hstack, hbelow⟩ := block_of_bare hat.stack
  obtain ⟨tk', below₂, rfl, hbelow₂⟩ := setting_of_bare hbelow
  obtain ⟨tk'', below₃, rfl, hbelow₃⟩ := block_of_bare hbelow₂
  refine ⟨{ t.advance 1 with
    stack := .block first (tk'' ++ [.setting]) (ss ++ [.block hd inside]) :: below₃ }, ⟨t, hskip, ?_⟩, ?_⟩
  · rw [next_token_block hat.cur hat.heredoc hrest hstack]
    unfold match_block_end pop_block State.advance
    dsimp only
    rw [hrest, hstack]
    rfl
  · refine ⟨hat.cur.trans (Nat.le_add_right _ _), ?_, hat.heredoc, hat.values, hat.settings, ?_⟩
    · rw [List.map_cons, hbelow₃]
      rfl
    · have hrest' : t.rest = ['\x7d'] ++ r := hrest
      exact congrArg trim (rest_after hat.cur hrest' rfl rfl)

/-- after a semicolon spaces and tabs are skipped, up to what is no comment -/
theorem blanks_at {t : State} {hd : Head} (h : At t (.setting hd [] :: below) values n (trim t.rest))
    (hhash : (trim t.rest).head? ≠ some '#') (f : State → Outcome) :
    ∃ t', ((skip_blanks t).attempt t fun t => (skip_comment t).attempt t f) = f t' ∧
      At t' (.setting hd [] :: below) values n (trim t.rest) := by
  have hcomment : ∀ t' : State, At t' (.setting hd [] :: below) values n (trim t.rest) →
      (skip_comment t').attempt t' f = f t' := by
    intro t' hat
    have hnone : comment t'.rest = none := by
      cases hc : comment t'.rest with
      | none => rfl
      | some m =>
        unfold comment at hc
        split at hc
        · rename_i u heq
          have hr := hat.rest
          rw [heq, trim_of_head (by decide)] at hr
          rw [← hr] at hhash
          exact absurd rfl hhash
        · cases hc
    unfold skip_comment
    rw [hnone]
    rfl
  unfold skip_blanks
  cases hm : some_of (· ∈ [' ', '\t']) t.rest with
  | none => exact ⟨t, hcomment t h, h⟩
  | some m =>
    obtain ⟨hsplit, hall⟩ := some_of_prefix hm
    have hspaces : Spaces m := by
      intro c hc
      have hmem := hall c hc
      simp only [List.mem_cons, List.not_mem_nil, or_false, decide_eq_true_eq] at hmem
      rcases hmem with rfl | rfl <;> rfl
    obtain ⟨t', hread, hat, -⟩ := spaces_read_at h (List.cons_ne_nil _ _) hsplit hspaces
    refine ⟨t', ?_, hat⟩
    unfold Option.elim
    dsimp only
    rw [hread]
    exact hcomment t' hat

/-- a semicolon closes a setting without a block -/
theorem reads_semicolon {hd : Head} {r : Str} (hhash : (trim r).head? ≠ some '#')
    (h : At s (.setting hd [] :: .block first [] ss :: below) values n (';' :: r)) :
    ∃ s', Reads s s' ∧ At s' (.block first [] (ss ++ [.leaf hd]) :: below) values n (trim r) := by
  obtain ⟨t, hskip, hat, hrest⟩ := skip_at h (List.cons_ne_nil _ _) (by rw [List.head?_cons]; decide)
  obtain ⟨tk, below₁, hstack, hbelow⟩ := setting_of_bare hat.stack
  have hrest' : t.rest = [';'] ++ r := hrest
  have hsemi : At { t.advance 1 with stack := .setting hd (tk ++ [.semicolon]) :: below₁ }
      (.setting hd [] :: .block first [] ss :: below) values n (trim r) := by
    refine ⟨hat.cur.trans (Nat.le_add_right _ _), ?_, hat.heredoc, hat.values, hat.settings, ?_⟩
    · rw [List.map_cons, hbelow]
      rfl
    · exact congrArg trim (rest_after hat.cur hrest' rfl rfl)
  obtain ⟨t', heq, hat'⟩ := blanks_at (hsemi.rest.symm ▸ hsemi) (hsemi.rest.symm ▸ hhash) fun t => .assert (pop_setting t)
  rw [hsemi.rest] at hat'
  obtain ⟨tk', below₂, hstack', hbelow'⟩ := setting_of_bare hat'.stack
  obtain ⟨tk'', below₃, rfl, hbelow₃⟩ := block_of_bare hbelow'
  refine ⟨{ t' with stack := .block first (tk'' ++ [.setting]) (ss ++ [.leaf hd]) :: below₃ }, ⟨t, hskip, ?_⟩, ?_⟩
  · rw [next_token_mark hat.cur hat.heredoc hrest hstack (by decide)]
    have hstart : match_block_start t = .no := by
      unfold match_block_start
      rw [hrest]
      rfl
    have hend : match_block_end t = .no := by
      unfold match_block_end
      rw [hrest]
      rfl
    have hpop : pop_setting t' = some { t' with
        stack := .block first (tk'' ++ [.setting]) (ss ++ [.leaf hd]) :: below₃ } := by
      unfold pop_setting
      rw [hstack']
      rfl
    have hmatch : match_semicolon t = .assert (pop_setting t') := by
      rw [← heq]
      unfold match_semicolon add_tokens State.advance
      rw [hrest, List.head?_cons, if_pos rfl, hstack]
      rfl
    rw [hstart, hend, hmatch, hpop]
    rfl
  · refine ⟨hat'.cur, ?_, hat'.heredoc, hat'.values, hat'.settings, hat'.rest⟩
    rw [List.map_cons, hbelow₃]
    rfl

/-- the quoted values of a setting, one after the other -/
theorem reads_values {vs : List (Char × Str)} {text : Str} (hp : PrintsValues vs text)
    (hok : ∀ v ∈ vs, (v.1 = '\'' ∨ v.1 = '"') ∧ Escaped v.1 v.2) (r : Str) {s : State} {hd : Head} {values : List Value}
    (h : At s (.setting hd [] :: below) values n (trim (text ++ r))) :
    ∃ s', Relation.ReflTransGen Reads s s' ∧
      At s' (.setting { hd with values := hd.values ++ List.range' values.length vs.length } [] :: below)
        (values ++ vs.map quoted) n (trim r) := by
  induction hp generalizing s hd values with
  | nil =>
    refine ⟨s, .refl, ?_⟩
    simpa using h
  | @cons w text v vs hw _ ih =>
    obtain ⟨hq, hv⟩ := hok v List.mem_cons_self
    have htext : trim (w ++ v.1 :: v.2 ++ v.1 :: text ++ r) = v.1 :: v.2 ++ v.1 :: (text ++ r) := by
      have hassoc : w ++ v.1 :: v.2 ++ v.1 :: text ++ r = w ++ (v.1 :: (v.2 ++ v.1 :: (text ++ r))) := by
        simp only [List.append_assoc, List.cons_append]
      rw [hassoc, trim_spaces hw, trim_of_head (quote_facts hq).1, List.cons_append]
    rw [htext] at h
    obtain ⟨s₁, hread, h₁⟩ := reads_value hq hv h
    obtain ⟨s₂, hreads, h₂⟩ := ih (fun v' hv' => hok v' (List.mem_cons_of_mem v hv')) h₁
    refine ⟨s₂, .head hread hreads, ?_⟩
    simpa only [List.append_assoc, List.singleton_append, List.map_cons, List.length_append, List.length_cons,
      List.length_nil, Nat.zero_add, List.range'_succ] using h₂

end Steps

/-! ## Trees -/

/-- what can follow the settings of a block -/
def Stops (post : Str) : Prop := post = [] ∨ ∃ t, post = '\x7d' :: t

theorem trim_stops {post : Str} (h : Stops post) : trim post = post := by
  rcases h with rfl | ⟨t, rfl⟩
  · rfl
  · exact trim_of_head (by decide) t

/-- a printing starts with a name, if with anything -/
theorem trim_prints {nodes : List Node} {text post : Str} (h : Prints nodes text) (hpost : Stops post) :
    (trim (text ++ post)).head? ≠ some '#' := by
  have hname : ∀ {w : Str} {l : Line} {rest : Str}, Spaces w → l.Ok →
      (trim (w ++ l.full_name ++ rest ++ post)).head? ≠ some '#' := by
    intro w l rest hw hl
    obtain ⟨c, u, hcu, hblank, hhash, -⟩ := full_name_head hl
    rw [List.append_assoc, List.append_assoc, trim_spaces hw, trim_full_name hl, hcu, List.cons_append, List.head?_cons]
    simpa using hhash
  cases h with
  | nil hw =>
    rw [trim_spaces hw, trim_stops hpost]
    rcases hpost with rfl | ⟨t, rfl⟩
    · rw [List.head?_nil]
      decide
    · rw [List.head?_cons]
      decide
  | leaf hw hl => exact hname hw hl
  | block hw hl => exact hname hw hl

theorem ShowsLine.append {values : List Value} {h : Head} {l : Line} (hs : ShowsLine values h l) (more : List Value) :
    ShowsLine (values ++ more) h l := by
  refine ⟨hs.name, hs.module_name, ?_⟩
  rw [← hs.values]
  refine List.map_congr_left fun i hi => ?_
  have hmem : values[i]? ∈ h.values.map (fun i => values[i]?) := List.mem_map_of_mem hi
  rw [hs.values] at hmem
  obtain ⟨v, -, hv⟩ := List.mem_map.1 hmem
  rw [List.getElem?_append_left (List.getElem?_eq_some_iff.1 hv.symm).1]

/-- later values change nothing of what is shown -/
theorem Same.append {values : List Value} {owner n m : ℕ} {settings : List Setting} {nodes : List Node}
    (h : Same values owner n settings nodes m) (more : List Value) : Same (values ++ more) owner n settings nodes m := by
  induction h with
  | nil => exact .nil
  | leaf hid hparent hline _ ih => exact .leaf hid hparent (hline.append more) ih
  | block hid hparent hline _ _ ih ih' => exact .block hid hparent (hline.append more) ih ih'

theorem shows_line (values : List Value) (id owner pos : ℕ) (l : Line) :
    ShowsLine (values ++ l.values.map quoted)
      ⟨id, owner, l.name, l.module_name, pos, List.range' values.length l.values.length⟩ l := by
  refine ⟨rfl, rfl, ?_⟩
  dsimp only
  apply List.ext_getElem
  · rw [List.length_map, List.length_map, List.length_range']
  · intro i hi _
    rw [List.length_map, List.length_range'] at hi
    rw [List.getElem_map, List.getElem_map, List.getElem_range', Nat.one_mul,
      List.getElem?_append_right (Nat.le_add_right _ _), Nat.add_sub_cancel_left, List.getElem?_map,
      List.getElem?_eq_getElem hi, Option.map_some]

theorem EndsName.append {t : Str} (h : EndsName t) (post : Str) : EndsName (t ++ post) := by
  obtain ⟨c, u, rfl, hc⟩ := h
  exact ⟨c, u ++ post, rfl, hc⟩

/-- the name and the values of a setting -/
theorem reads_line {l : Line} (hl : l.Ok) {w text r : Str} (hw : Spaces w) (hvalues : PrintsValues l.values text)
    (hends : EndsName (text ++ r)) {s : State} {first : ℕ} {ss : List Setting} {owner : Head} {below : List Chunk}
    {values : List Value} {n : ℕ}
    (h : At s (.block first [] ss :: .setting owner [] :: below) values n (trim (w ++ l.full_name ++ (text ++ r)))) :
    ∃ s' pos, Relation.ReflTransGen Reads s s' ∧
      At s' (.setting ⟨n, owner.id, l.name, l.module_name, pos, List.range' values.length l.values.length⟩ [] ::
        .block first [] ss :: .setting owner [] :: below) (values ++ l.values.map quoted) (n + 1) (trim r) := by
  rw [List.append_assoc, trim_spaces hw, trim_full_name hl] at h
  obtain ⟨s₁, pos, hread₁, h₁⟩ := reads_name hl hends h
  obtain ⟨s₂, hread₂, h₂⟩ := reads_values hvalues hl.values r h₁
  exact ⟨s₂, pos, .head hread₁ hread₂, h₂⟩

/-- **Reading a printing.** Over an open block the settings of the printing are read, up to what follows it. -/
theorem reads_prints {nodes : List Node} {text : Str} (hp : Prints nodes text) {post : Str} (hpost : Stops post) {s : State}
    {first : ℕ} {ss : List Setting} {owner : Head} {below : List Chunk} {values : List Value} {n : ℕ}
    (h : At s (.block first [] ss :: .setting owner [] :: below) values n (trim (text ++ post))) :
    ∃ s' new more m, Relation.ReflTransGen Reads s s' ∧
      At s' (.block first [] (ss ++ new) :: .setting owner [] :: below) (values ++ more) m post ∧
      Same (values ++ more) owner.id n new nodes m := by
  induction hp generalizing post s first ss owner below values n with
  | @nil w hw =>
    rw [trim_spaces hw, trim_stops hpost] at h
    refine ⟨s, [], [], n, .refl, ?_, .nil⟩
    rwa [List.append_nil, List.append_nil]
  | @leaf w text w' rest l nodes hw hl hvalues hw' hends hrest ih =>
    have htext : text ++ w' ++ ';' :: rest ++ post = text ++ (w' ++ ';' :: (rest ++ post)) := by
      simp only [List.append_assoc, List.cons_append]
    rw [List.append_assoc, htext] at h
    have hends' := hends.append post
    rw [htext] at hends'
    obtain ⟨s₁, pos, hread₁, h₁⟩ := reads_line hl hw hvalues hends' h
    rw [trim_spaces hw', trim_of_head (by decide)] at h₁
    obtain ⟨s₂, hread₂, h₂⟩ := reads_semicolon (trim_prints hrest hpost) h₁
    obtain ⟨s₃, new, more, m, hread₃, h₃, hsame⟩ := ih hpost h₂
    refine ⟨s₃, .leaf ⟨n, owner.id, l.name, l.module_name, pos, List.range' values.length l.values.length⟩ :: new,
      l.values.map quoted ++ more, m, hread₁.trans (.head hread₂ hread₃), ?_, ?_⟩
    · rwa [← List.append_assoc values, List.append_cons]
    · rw [← List.append_assoc values]
      exact .leaf rfl rfl ((shows_line values n owner.id pos l).append more) hsame
  | @block w text w' inside rest l settings nodes hw hl hvalues hw' hends hinside hrest ih ih' =>
    have htext : text ++ w' ++ '\x7b' :: (inside ++ '\x7d' :: rest) ++ post =
        text ++ (w' ++ '\x7b' :: (inside ++ '\x7d' :: (rest ++ post))) := by
      simp only [List.append_assoc, List.cons_append]
    rw [List.append_assoc, htext] at h
    have hends' := hends.append post
    rw [htext] at hends'
    obtain ⟨s₁, pos, hread₁, h₁⟩ := reads_line hl hw hvalues hends' h
    rw [trim_spaces hw', trim_of_head (by decide)] at h₁
    obtain ⟨s₂, pos', hread₂, h₂⟩ := reads_block_start h₁
    obtain ⟨s₃, inner, more₁, k, hread₃, h₃, hsame₁⟩ := ih (.inr ⟨rest ++ post, rfl⟩) h₂
    obtain ⟨s₄, hread₄, h₄⟩ := reads_block_end h₃
    obtain ⟨s₅, new, more₂, m, hread₅, h₅, hsame₂⟩ := ih' hpost h₄
    refine ⟨s₅,
      .block ⟨n, owner.id, l.name, l.module_name, pos, List.range' values.length l.values.length⟩ inner :: new,
      l.values.map quoted ++ more₁ ++ more₂, m, ?_, ?_, ?_⟩
    · exact hread₁.trans (.head hread₂ (hread₃.trans (.head hread₄ hread₅)))
    · rwa [← List.append_assoc values, ← List.append_assoc values, List.append_cons]
    · rw [← List.append_assoc values, ← List.append_assoc values]
      refine .block rfl rfl ?_ (hsame₁.append more₂) hsame₂
      exact ((shows_line values n owner.id pos l).append more₁).append more₂

/-! ## Whole configurations -/

/-- more fuel changes nothing -/
theorem tokens_mono {n m : ℕ} (hnm : n ≤ m) {s : State} (h : tokens n s ≠ .unfinished) : tokens m s = tokens n s := by
  induction n generalizing m s with
  | zero => exact absurd rfl h
  | succ n ih =>
    obtain ⟨m, rfl⟩ : ∃ k, m = k + 1 := ⟨m - 1, by omega⟩
    unfold tokens at h ⊢
    split
    · rename_i t hskip
      rw [hskip] at h
      dsimp only at h ⊢
      cases hnext : next_token t with
      | token s' =>
        rw [hnext] at h
        exact ih (Nat.le_of_succ_le_succ hnm) h
      | no => rfl
      | error err s' => rfl
      | raise => rfl
    · rfl
    · rfl

/-- what is read one token after the other is what the loop reads -/
theorem tokens_of_reads {s s' : State} (h : Relation.ReflTransGen Reads s s') (n : ℕ) :
    ∃ m, tokens m s = tokens n s' := by
  induction h using Relation.ReflTransGen.head_induction_on with
  | refl => exact ⟨n, rfl⟩
  | head hread _ ih =>
    obtain ⟨m, hm⟩ := ih
    obtain ⟨t, hskip, hnext⟩ := hread
    refine ⟨m + 1, ?_⟩
    rw [← hm, tokens, hskip]
    dsimp only
    rw [hnext]

/-- nothing is left, and no block but the root's is open -/
theorem tokens_at_end {s : State} {first : ℕ} {ss : List Setting} {root : Head} {values : List Value} {n : ℕ}
    (h : At s [.block first [] ss, .setting root []] values n []) : tokens 1 s = .root (.block root ss) values := by
  obtain ⟨t, hskip, hat, hrest⟩ := skip_at h (List.cons_ne_nil _ _) (by rw [List.head?_nil]; decide)
  obtain ⟨tk, below, hstack, hbelow⟩ := block_of_bare hat.stack
  obtain ⟨tk', below', rfl, hbelow'⟩ := setting_of_bare hbelow
  obtain rfl := List.map_eq_nil_iff.1 hbelow'
  have hend : t.str.length < t.cur := by
    have hlen := rest_length t
    have hcur := hat.cur
    rw [hrest, List.length_nil] at hlen
    omega
  have hno : next_token t = .no := by
    unfold next_token
    rw [if_pos hend]
  unfold tokens
  rw [hskip]
  dsimp only
  rw [hno]
  dsimp only
  unfold finish pop_block
  rw [hstack, hat.heredoc, hat.values]
  rfl

/-! ## The canonical printing -/

/-- trees of well-formed lines -/
inductive Valid : List Node → Prop
  | nil : Valid []
  | leaf {l : Line} {nodes : List Node} : l.Ok → Valid nodes → Valid (.leaf l :: nodes)
  | block {l : Line} {settings nodes : List Node} : l.Ok → Valid settings → Valid nodes →
    Valid (.block l settings :: nodes)

def print_values : List (Char × Str) → Str
  | [] => []
  | v :: values => [' '] ++ v.1 :: v.2 ++ v.1 :: print_values values

mutual

/-- a name, its values with a space in front of each, and a semicolon or a block -/
def print_node : Node → Str
  | .leaf l => l.full_name ++ (print_values l.values ++ [] ++ [';'])
  | .block l settings => l.full_name ++ (print_values l.values ++ [' '] ++ '\x7b' :: (print settings ++ ['\x7d']))

def print : List Node → Str
  | [] => []
  | node :: nodes => print_node node ++ print nodes

end

theorem prints_values (values : List (Char × Str)) : PrintsValues values (print_values values) := by
  induction values with
  | nil => exact .nil
  | cons v values ih => exact .cons (by decide) ih

theorem print_values_ends (values : List (Char × Str)) {text : Str} (h : EndsName text) :
    EndsName (print_values values ++ text) := by
  cases values with
  | nil => exact h
  | cons v values => exact ⟨' ', _, rfl, .inl rfl⟩

/-- every tree has a printing -/
theorem prints_print {nodes : List Node} (h : Valid nodes) : Prints nodes (print nodes) := by
  induction h with
  | nil => exact .nil fun c hc => absurd hc List.not_mem_nil
  | @leaf l nodes hl _ ih =>
    have hends : EndsName (print_values l.values ++ [] ++ ';' :: print nodes) := by
      rw [List.append_nil]
      exact print_values_ends _ ⟨';', _, rfl, .inr rfl⟩
    have hprints : Prints (.leaf l :: nodes) ([] ++ l.full_name ++ (print_values l.values ++ [] ++ ';' :: print nodes)) :=
      .leaf (by decide) hl (prints_values _) (by decide) hends ih
    unfold print print_node
    simpa only [List.nil_append, List.append_nil, List.append_assoc, List.cons_append] using hprints
  | @block l settings nodes hl _ _ ih ih' =>
    have hends : EndsName (print_values l.values ++ [' '] ++ '\x7b' :: (print settings ++ '\x7d' :: print nodes)) := by
      rw [List.append_assoc]
      exact print_values_ends _ ⟨' ', _, rfl, .inl rfl⟩
    have hprints : Prints (.block l settings :: nodes) ([] ++ l.full_name ++
        (print_values l.values ++ [' '] ++ '\x7b' :: (print settings ++ '\x7d' :: print nodes))) :=
      .block (by decide) hl (prints_values _) (by decide) hends ih ih'
    unfold print print_node
    simpa only [List.nil_append, List.append_assoc, List.cons_append] using hprints

theorem root_of_prints {nodes : List Node} {text : Str} (h : Prints nodes text) : ∃ settings values m,
    parse text = .root (.block ⟨0, 0, "::ROOT".toList, some "config".toList, 1, []⟩ settings) values ∧
      Same values 0 1 settings nodes m := by
  have hnew : At (new text) [.block 1 [] [], .setting ⟨0, 0, "::ROOT".toList, some "config".toList, 1, []⟩ []] [] 1
      (trim (text ++ [])) := by
    refine ⟨Nat.le_refl 1, rfl, rfl, rfl, rfl, ?_⟩
    rw [List.append_nil]
    rfl
  obtain ⟨s', settings, values, m, hreads, hat, hsame⟩ := reads_prints h (.inl rfl) hnew
  obtain ⟨k, hk⟩ := tokens_of_reads hreads 1
  rw [tokens_at_end hat] at hk
  refine ⟨settings, values, m, ?_, hsame⟩
  -- the fuel of `parse` is enough, and so is the number of the tokens
  have hend := (tokens_answers text.length (new_ok text) (Nat.lt_succ_self _)).1
  unfold parse
  rw [← tokens_mono (Nat.le_max_left _ k) hend, tokens_mono (Nat.le_max_right _ k), hk]
  · rfl
  · rw [hk]
    exact Result.noConfusion

/-- **Parse after print.** For every tree, the parser returns from every printing of it the settings of the tree in their
order, with the names, modules, quote characters and raw values that it has, each as a child of the setting whose block it is
in. -/
theorem parse_printed (nodes : List Node) (text : Str) (h : Prints nodes text) :
    ∃ root settings values m, parse text = .root (.block root settings) values ∧ root.id = 0 ∧
      Same values 0 1 settings nodes m := by
  obtain ⟨settings, values, m, hparse, hsame⟩ := root_of_prints h
  exact ⟨_, settings, values, m, hparse, rfl, hsame⟩

/-- `core:a.b "\"" { c ; }` -/
def nested : List Node :=
  [.block ⟨some "core".toList, "a.b".toList, [('"', ['\\', '"'])]⟩ [.leaf ⟨none, "c".toList, []⟩]]

theorem parse_printed_nested : ∃ root settings values m, parse (print nested) = .root (.block root settings) values ∧
    root.id = 0 ∧ Same values 0 1 settings nested m := by
  have hinner : Line.Ok ⟨none, "c".toList, []⟩ :=
    ⟨⟨List.cons_ne_nil _ _, List.all_eq_true.1 rfl⟩, nofun, nofun⟩
  have houter : Line.Ok ⟨some "core".toList, "a.b".toList, [('"', ['\\', '"'])]⟩ := by
    refine ⟨⟨List.cons_ne_nil _ _, List.all_eq_true.1 rfl⟩, fun m hm => ?_, fun v hv => ?_⟩
    · cases hm
      exact ⟨List.cons_ne_nil _ _, List.all_eq_true.1 rfl⟩
    · rw [List.mem_singleton.1 hv]
      exact ⟨.inr rfl, .escape .nil⟩
  exact parse_printed nested (print nested) (prints_print (.block houter (.leaf hinner .nil) .nil))

end Shuttlesock.Parser
