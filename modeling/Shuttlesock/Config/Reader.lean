/-
What the parser reads, without positions and token lists: the gaps and tokens of a text, and the tree they build.

`Parser.lean` is the code. Here a text is read as gaps (spaces and comments) and tokens in turn, and what is read next depends on
four things only: whether a setting is open, whether a heredoc waits for its body, whether that body is next, and the rest of the text.

Model: `Core` is a state of the parser, `Level` a setting with an open block, the root last. `skip_gap` reads a gap one character at a
time: its mode says whether it is in a comment, or behind a newline while a heredoc waits, where a space is not skipped any more. The
parser skips blanks and a comment together with a semicolon; here they belong to the gap behind it.

`reads_iff` in `ReaderRefines.lean` says that the parser returns a tree if and only if a run of gaps and tokens reads the whole text
into it.
-/
import Mathlib.Tactic
import Shuttlesock.Config.ParserPrint

namespace Shuttlesock.Reader

open Shuttlesock.Parser

/-! ## Trees -/

/-- a setting without its block -/
structure Entry (α : Type) where
  name : Str
  module_name : Option Str
  values : List α

inductive Tree (α : Type) where
  | leaf (e : Entry α)
  | block (e : Entry α) (settings : List (Tree α))

def Entry.map {α β : Type} (f : α → β) (e : Entry α) : Entry β := ⟨e.name, e.module_name, e.values.map f⟩

mutual

def Tree.map {α β : Type} (f : α → β) : Tree α → Tree β
  | .leaf e => .leaf (e.map f)
  | .block e settings => .block (e.map f) (map_trees f settings)

def map_trees {α β : Type} (f : α → β) : List (Tree α) → List (Tree β)
  | [] => []
  | t :: ts => t.map f :: map_trees f ts

end

def entry (h : Head) : Entry ℕ := ⟨h.name, h.module_name, h.values⟩

mutual

/-- the names, modules and values of a setting and of those in its block -/
def tree : Setting → Tree ℕ
  | .leaf h => .leaf (entry h)
  | .block h settings => .block (entry h) (trees settings)

def trees : List Setting → List (Tree ℕ)
  | [] => []
  | setting :: settings => tree setting :: trees settings

end

/-- the raw text of a value -/
def raw (values : List Value) (i : ℕ) : Option Str := values[i]?.map Value.raw

/-- **The settings tree** of a text: names, modules, raw values, nesting and order. -/
def Parses (str : Str) (t : Tree (Option Str)) : Prop :=
  ∃ root values, parse str = .root root values ∧ (tree root).map (raw values) = t

/-! ## Gaps -/

inductive Mode where
  | gap
  | comment
  /-- behind a newline, and a heredoc waits -/
  | line
deriving DecidableEq

/-- `#` and one more character -/
def starts_comment : Str → Bool
  | '#' :: c :: _ => c ≠ '\n'
  | _ => false

def newline_mode (pending : Bool) : Mode := if pending then .line else .gap

def skip_gap (pending : Bool) : Mode → Str → Mode × Str
  | mode, [] => (mode, [])
  | .gap, c :: t =>
    if c = '\n' then skip_gap pending (newline_mode pending) t
    else if blank c then skip_gap pending .gap t
    else if starts_comment (c :: t) then skip_gap pending .comment t
    else (.gap, c :: t)
  | .comment, c :: t =>
    if c = '\n' then skip_gap pending (newline_mode pending) t else skip_gap pending .comment t
  | .line, c :: t => if starts_comment (c :: t) then skip_gap pending .comment t else (.line, c :: t)

section Gaps

variable {pending : Bool}

theorem skip_gap_nil (mode : Mode) : skip_gap pending mode [] = (mode, []) := by
  cases mode <;> rfl

theorem skip_gap_cons_gap (c : Char) (t : Str) : skip_gap pending .gap (c :: t) =
    if c = '\n' then skip_gap pending (newline_mode pending) t
    else if blank c then skip_gap pending .gap t
    else if starts_comment (c :: t) then skip_gap pending .comment t
    else (.gap, c :: t) := rfl

theorem skip_gap_cons_comment (c : Char) (t : Str) : skip_gap pending .comment (c :: t) =
    if c = '\n' then skip_gap pending (newline_mode pending) t else skip_gap pending .comment t := rfl

theorem skip_gap_cons_line (c : Char) (t : Str) : skip_gap pending .line (c :: t) =
    if starts_comment (c :: t) then skip_gap pending .comment t else (.line, c :: t) := rfl

theorem skip_gap_newline (t : Str) : skip_gap pending .gap ('\n' :: t) = skip_gap pending (newline_mode pending) t := if_pos rfl

theorem skip_gap_blank {c : Char} (hblank : blank c = true) (hnl : c ≠ '\n') (t : Str) :
    skip_gap pending .gap (c :: t) = skip_gap pending .gap t := by
  rw [skip_gap_cons_gap, if_neg hnl, if_pos hblank]

/-- spaces without a newline -/
theorem skip_gap_blanks {w : Str} (hw : ∀ c ∈ w, blank c = true ∧ c ≠ '\n') (t : Str) :
    skip_gap pending .gap (w ++ t) = skip_gap pending .gap t := by
  induction w with
  | nil => rfl
  | cons c w ih =>
    obtain ⟨hblank, hnl⟩ := hw c List.mem_cons_self
    rw [List.cons_append, skip_gap_blank hblank hnl, ih fun d hd => hw d (List.mem_cons_of_mem c hd)]

/-- spaces while no heredoc waits -/
theorem skip_gap_spaces {w : Str} (hw : Spaces w) (t : Str) : skip_gap false .gap (w ++ t) = skip_gap false .gap t := by
  induction w with
  | nil => rfl
  | cons c w ih =>
    have hrest := ih fun d hd => hw d (List.mem_cons_of_mem c hd)
    rw [List.cons_append]
    by_cases hnl : c = '\n'
    · rw [hnl, skip_gap_newline]
      exact hrest
    · rw [skip_gap_blank (hw c List.mem_cons_self) hnl, hrest]

theorem skip_gap_comment {w : Str} (hw : ∀ c ∈ w, c ≠ '\n') (t : Str) :
    skip_gap pending .comment (w ++ t) = skip_gap pending .comment t := by
  induction w with
  | nil => rfl
  | cons c w ih =>
    rw [List.cons_append, skip_gap_cons_comment, if_neg (hw c List.mem_cons_self), ih fun d hd => hw d (List.mem_cons_of_mem c hd)]

theorem blank_hash : blank '#' = false := by decide

/-- a comment starts, also behind a newline -/
theorem skip_gap_hash {mode : Mode} (hmode : mode ≠ .comment) {t : Str} (h : starts_comment ('#' :: t) = true) :
    skip_gap pending mode ('#' :: t) = skip_gap pending .comment t := by
  cases mode with
  | gap => rw [skip_gap_cons_gap, if_neg (by decide), if_neg (by rw [blank_hash]; exact Bool.false_ne_true), if_pos h]
  | comment => exact absurd rfl hmode
  | line => rw [skip_gap_cons_line, if_pos h]

/-- whether the body of a heredoc is next, and what is left -/
def landing (r : Mode × Str) : Bool × Str := (r.1 = .line, r.2)

/-- at the end of a line it does not matter whether it was a comment -/
theorem landing_comment {str : Str} (h : ∀ c t, str = c :: t → c = '\n') :
    landing (skip_gap pending .comment str) = landing (skip_gap pending .gap str) := by
  cases str with
  | nil => rfl
  | cons c t =>
    obtain rfl := h c t rfl
    rw [skip_gap_newline, skip_gap_cons_comment, if_pos rfl]

/-- a gap ends at what is not a space, and no comment -/
theorem skip_gap_stop {c : Char} {t : Str} (hblank : blank c = false) (hcomment : starts_comment (c :: t) = false) :
    skip_gap pending .gap (c :: t) = (.gap, c :: t) := by
  have hnl : c ≠ '\n' := by
    rintro rfl
    cases hblank
  rw [skip_gap_cons_gap, if_neg hnl, if_neg (by rw [hblank]; exact Bool.false_ne_true),
    if_neg (by rw [hcomment]; exact Bool.false_ne_true)]

theorem skip_gap_line {t : Str} (h : starts_comment t = false) : skip_gap pending .line t = (.line, t) := by
  cases t with
  | nil => rfl
  | cons c t => rw [skip_gap_cons_line, if_neg (by rw [h]; exact Bool.false_ne_true)]

end Gaps

/-! ## Tokens -/

/-- a token, with its length -/
inductive Lexeme where
  | name (name : Str) (module_name : Option Str) (len : ℕ)
  | value (v : Value) (len : ℕ)
  | heredoc (type : HeredocType) (label : Str) (len : ℕ)
  | semicolon
  | block_start
  | block_end
  /-- an error, or Lua raises one -/
  | wrong

def Lexeme.len : Lexeme → ℕ
  | .name _ _ len => len
  | .value _ len => len
  | .heredoc _ _ len => len
  | .semicolon => 1
  | .block_start => 1
  | .block_end => 1
  | .wrong => 0

def lex_name (m : Str) : Lexeme :=
  if ':' ∈ m then (qualified_name m).elim .wrong fun r => .name r.2 (some r.1) m.length else .name m none m.length

/-- the token in a block -/
def lex_block (str : Str) : Lexeme :=
  if str.head? = some '\x7d' then .block_end
  else if str.head? = some ';' ∨ str.head? = some '\x7b' then .wrong
  else (some_of (fun c => !isspace c && c ≠ '$' && c ≠ ';') str).elim .wrong lex_name

def lex_label (type : HeredocType) (label : Str) (len : ℕ) : Lexeme := if label = [] then .wrong else .heredoc type label len

/-- the label behind the `<<` of this length -/
def lex_heredoc (type : HeredocType) (len : ℕ) (str : Str) : Lexeme :=
  match match_string str with
  | some (none, _) => .wrong
  | some (some label, _) => lex_label type label (len + (label.length + 2))
  | none =>
    let label := str.takeWhile fun c => !isspace c && c ≠ ';'
    lex_label type label (len + label.length)

/-- a variable, if there is one and it ends there -/
def lex_variable (str : Str) : Option Lexeme :=
  match parse_variable str with
  | .absent => none
  | .token _ _ len =>
    (str.drop len).head?.bind fun nextchar =>
      if isspace nextchar ∨ nextchar = ';' then some (.value ⟨.var, str.take len, none⟩ len) else none
  | _ => some .wrong

def lex_plain (str : Str) : Lexeme :=
  if str.head? = some '\x7b' then .block_start
  else if str.head? = some '\x7d' then .wrong
  else if str.head? = some ';' then .semicolon
  else (some_of (fun c => !isspace c && c ≠ ';') str).elim .wrong fun m => .value ⟨.value, m, none⟩ m.length

/-- the token in a setting -/
def lex_setting (str : Str) : Lexeme :=
  match heredoc_type str with
  | some (type, len) => lex_heredoc type len (str.drop len)
  | none =>
    match match_string str with
    | some (none, _) => .wrong
    | some (some text, quote_char) => .value ⟨.string, text, some quote_char⟩ (text.length + 2)
    | none => (lex_variable str).getD (lex_plain str)

/-! ## Runs -/

/-- a setting with an open block -/
structure Level where
  entry : Entry ℕ
  settings : List (Tree ℕ)

structure Core where
  top : Option (Entry ℕ)
  levels : List Level
  heredoc : List Heredoc
  values : List Value
  /-- the body of a heredoc is next -/
  due : Bool

def Core.pending (c : Core) : Bool := c.heredoc ≠ []

def Core.mode (c : Core) : Mode := if c.due then .line else .gap

/-- the gap in front of the next token -/
def gap (c : Core) (str : Str) : Core × Str :=
  let r := skip_gap c.pending c.mode str
  ({ c with due := r.1 = .line }, r.2)

def Core.add_value (c : Core) (v : Value) : Option Core :=
  c.top.map fun e => { c with top := some { e with values := e.values ++ [c.values.length] }, values := c.values ++ [v] }

def act (c : Core) : Lexeme → Option Core
  | .name name module_name _ => some { c with top := some ⟨name, module_name, []⟩ }
  | .value v _ => c.add_value v
  | .heredoc type label _ =>
    (c.add_value ⟨.string, label, none⟩).map fun c' => { c' with heredoc := c.heredoc ++ [⟨type, label, c.values.length⟩] }
  | .semicolon =>
    match c.top, c.levels with
    | some e, l :: levels => some { c with top := none, levels := { l with settings := l.settings ++ [.leaf e] } :: levels }
    | _, _ => none
  | .block_start => c.top.map fun e => { c with top := none, levels := ⟨e, []⟩ :: c.levels }
  | .block_end =>
    match c.levels with
    | l :: l' :: levels =>
      some { c with levels := { l' with settings := l'.settings ++ [.block l.entry l.settings] } :: levels }
    | _ => none
  | .wrong => none

/-- the text of a heredoc's body, up to its end -/
def body (type : HeredocType) (body_with_end : Str) : Str :=
  if type = .tilde then dedent (heredoc_body body_with_end) else heredoc_body body_with_end

def Core.lex (c : Core) (str : Str) : Lexeme := if c.top.isSome then lex_setting str else lex_block str

/-- the next token, without the gap in front of it -/
def token (c : Core) (str : Str) : Option (Core × Str) :=
  if c.due then
    match c.heredoc with
    | [] => none
    | h :: later =>
      (body_close h.type h.label str).map fun len =>
        ({ c with
            heredoc := later
            values := c.values.set h.string_value ⟨.string, body h.type (str.take len), none⟩
            due := false }, str.drop len)
  else (act c (c.lex str)).map fun c' => (c', str.drop (c.lex str).len)

/-- one round of the parser -/
def Step (p p' : Core × Str) : Prop := token (gap p.1 p.2).1 (gap p.1 p.2).2 = some p'

/-- `Parser.new` -/
def start : Core := ⟨none, [⟨⟨"::ROOT".toList, some "config".toList, []⟩, []⟩], [], [], false⟩

/-- nothing is left, and nothing is open but the root -/
def Ends (c : Core) (str : Str) (t : Tree (Option Str)) : Prop :=
  (gap c str).2 = [] ∧ c.top = none ∧ c.heredoc = [] ∧
    ∃ l, c.levels = [l] ∧ (Tree.block l.entry l.settings).map (raw c.values) = t

end Shuttlesock.Reader
