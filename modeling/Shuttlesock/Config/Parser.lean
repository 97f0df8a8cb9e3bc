/-
The parser of the configuration: `Parser.new`, `parser:parse` and the matchers of `config.lua`, with `match_parens` and the
variable tokens of `instring.lua`.

Model: a string is a list of characters, `cur` counts them from 1 and `rest` is what is still to be read. A pattern is the
function that returns what it matches at the start of a string.
- Settings and values are tables that are reached through references: a setting has a number, and the number of its parent; a
  value is its place in the list of all values, since the body of a heredoc replaces a value of a setting that may be closed.
- The stack has its top first. Of a token only its type is kept: nothing else of it is read back.
- A matcher leaves `no` (false, or nil without an error), an error with the state it is reported for, or the state after the
  token. It raises when Lua does: an assertion fails, or nil is indexed, which happens when the stack is empty.
- `tokens` is the loop of `parse`, `skip` the one of `parse_each_token`. Each has as much fuel as there are characters left.
-/
import Mathlib.Tactic

namespace Shuttlesock.Parser

abbrev Str := List Char

/-! ## Patterns -/

/-- `%s` -/
def isspace (c : Char) : Bool := c ∈ [' ', '\t', '\n', '\r'] || c.toNat == 11 || c.toNat == 12

/-- `[%w_]` -/
def isword (c : Char) : Bool := c.isAlphanum || c == '_'

/-- `^[..]+` -/
def some_of (p : Char → Bool) (s : Str) : Option Str := if s.takeWhile p = [] then none else some (s.takeWhile p)

/-- `^[ \t\r]*[ \t\r\n]`: the newline after the spaces, else the last of them is the one after the others -/
def spaces_newline (s : Str) : Option Str :=
  let w := s.takeWhile (· ∈ [' ', '\t', '\r'])
  if (s.drop w.length).head? = some '\n' then some (w ++ ['\n']) else if w = [] then none else some w

/-- `^#[^\n]+` -/
def comment (s : Str) : Option Str :=
  match s with
  | '#' :: t => (some_of (· ≠ '\n') t).map ('#' :: ·)
  | _ => none

/-- `^([^%:%.]+):([^%s]+)$`, of a name without spaces -/
def qualified_name (name : Str) : Option (Str × Str) :=
  let l := name.takeWhile fun c => c ≠ ':' && c ≠ '.'
  match name.drop l.length with
  | ':' :: r => if l = [] ∨ r = [] then none else some (l, r)
  | _ => none

/-! ## Variables -/

/-- the counter of open parentheses and whether the next byte is escaped, after one byte -/
def parens_step (openbyte closebyte escapebyte : Char) (open_count : ℕ) (escaping_next : Bool) (byte : Char) : ℕ × Bool :=
  if escaping_next then (open_count, false)
  else if byte = escapebyte then (open_count, true)
  else if byte = openbyte then (open_count + 1, false)
  else if byte = closebyte then (open_count - 1, false)
  else (open_count, false)

def parens_loop (openbyte closebyte escapebyte : Char) : ℕ × Bool → Str → Option Str
  | _, [] => none
  | st, byte :: str =>
    let st := parens_step openbyte closebyte escapebyte st.1 st.2 byte
    if st.1 = 0 then some [byte] else (parens_loop openbyte closebyte escapebyte st str).map (byte :: ·)

/-- `match_parens` of a string that starts with the open parenthesis -/
def match_parens (openbyte closebyte : Char) (str : Str) : Option Str := parens_loop openbyte closebyte '\\' (0, false) str

/-- `m:sub(2, -2)` -/
def inner (m : Str) : Str := (m.drop 1).dropLast

/-- what a variable token returns: nil, false and an error, true and the token with its length, or a Lua error -/
inductive Var where
  | absent
  | invalid (err : String)
  | token (name : Str) (params : List Str) (len : ℕ)
  | raise
deriving DecidableEq

/-- the loop over the parameters: them and their length, `none` for an unmatched bracket -/
def variable_params : ℕ → Str → Option (List Str × ℕ)
  | n + 1, '[' :: str =>
    (match_parens '[' ']' ('[' :: str)).bind fun bracketed =>
      (variable_params n (('[' :: str).drop bracketed.length)).map fun r =>
        (inner bracketed :: r.1, bracketed.length + r.2)
  | _, _ => some ([], 0)

/-- `Token.simple_variable` -/
def simple_variable (str : Str) : Var :=
  match str with
  | '$' :: t =>
    match some_of isword t with
    | none => .absent
    | some m =>
      match variable_params t.length (t.drop m.length) with
      | none => .invalid "unmatched square bracket"
      | some r => .token m r.1 (m.length + 1 + r.2)
  | _ => .absent

/-- `Token.bracketed_variable`: the length of nil is asked for without a closing brace, and a number is added to the text of
the error of an unmatched bracket -/
def bracketed_variable (str : Str) : Var :=
  match str with
  | '$' :: '{' :: t =>
    match match_parens '{' '}' ('{' :: t) with
    | none => .raise
    | some m =>
      match simple_variable ('$' :: inner m) with
      | .invalid _ => .raise
      | .token name params len =>
        if len < m.length - 2 then .invalid "invalid bracketed variable" else .token name params (m.length + 1)
      | _ => .invalid "invalid bracketed variable"
  | _ => .absent

/-- `Token.variable` -/
def parse_variable (str : Str) : Var :=
  match simple_variable str with
  | .absent => bracketed_variable str
  | r => r

/-! ## The state -/

/-- the type of a value -/
inductive ValueType where
  | string
  | value
  | var
deriving DecidableEq

structure Value where
  type : ValueType
  raw : Str
  quote_char : Option Char
deriving DecidableEq

/-- `new_setting`: its position, and its values by their places -/
structure Head where
  id : ℕ
  parent : ℕ
  name : Str
  module_name : Option Str
  first : ℕ
  values : List ℕ
deriving DecidableEq

/-- a setting without a block, or with one -/
inductive Setting where
  | leaf (h : Head)
  | block (h : Head) (settings : List Setting)

inductive TokenType where
  | newline
  | comment
  | semicolon
  | value (type : ValueType)
  | heredoc_start
  | heredoc_body
  | setting
deriving DecidableEq

/-- an open setting or block -/
inductive Chunk where
  | setting (h : Head) (tokens : List TokenType)
  | block (first : ℕ) (tokens : List TokenType) (settings : List Setting)

/-- `<<`, `<<-` and `<<~` -/
inductive HeredocType where
  | plain
  | dash
  | tilde
deriving DecidableEq

/-- a heredoc whose body is still to come, and the value to replace -/
structure Heredoc where
  type : HeredocType
  label : Str
  string_value : ℕ
deriving DecidableEq

structure State where
  str : Str
  cur : ℕ
  stack : List Chunk
  heredoc : List Heredoc
  values : List Value
  settings : ℕ
  root : Option Setting

def State.rest (s : State) : Str := s.str.drop (s.cur - 1)

/-- `self.cur = self.cur + n` -/
def State.advance (s : State) (n : ℕ) : State := { s with cur := s.cur + n }

inductive Outcome where
  | token (s : State)
  | no
  | error (err : String) (s : State)
  | raise

/-- `if token or err then return` -/
def Outcome.orElse (r : Outcome) (f : Unit → Outcome) : Outcome :=
  match r with
  | .no => f ()
  | r => r

def Outcome.bind (r : Outcome) (f : State → Outcome) : Outcome :=
  match r with
  | .token s => f s
  | r => r

/-- go on, whether something was matched or not -/
def Outcome.attempt (r : Outcome) (s : State) (f : State → Outcome) : Outcome :=
  match r with
  | .token s => f s
  | .no => f s
  | r => r

/-- `none` is a failed assertion -/
def Outcome.assert : Option State → Outcome
  | some s => .token s
  | none => .raise

/-- `parser:location`: the line, and the number of bytes in it before the position -/
def location (str : Str) (pos : ℕ) : ℕ × ℕ :=
  (str.take (pos - 1)).foldl (fun r c => if c = '\n' then (r.1 + 1, 0) else (r.1, r.2 + 1)) (1, 0)

/-- `parser:error` -/
def error_message (str : Str) (err : String) (pos : ℕ) : String :=
  s!"{err} in (unnamed):{(location str pos).1}:{(location str pos).2}"

/-! ## The stack -/

def push_setting (s : State) (name : Str) (module_name : Option Str) : Option State :=
  match s.stack with
  | .block _ _ _ :: .setting owner _ :: _ =>
    some { s with
      stack := .setting ⟨s.settings, owner.id, name, module_name, s.cur, []⟩ [] :: s.stack
      settings := s.settings + 1 }
  | _ => none

/-- the end of `pop_setting`: the setting goes into the block below, and the root has none -/
def close (s : State) (setting : Setting) : List Chunk → Option State
  | [] => some { s with stack := [], root := some setting }
  | .block first tokens settings :: stack =>
    some { s with stack := .block first (tokens ++ [.setting]) (settings ++ [setting]) :: stack }
  | .setting _ _ :: _ => none

def pop_setting (s : State) : Option State :=
  match s.stack with
  | .setting h _ :: stack => close s (.leaf h) stack
  | _ => none

def push_block (s : State) : Option State :=
  match s.stack with
  | .setting _ _ :: _ => some { s with stack := .block s.cur [] [] :: s.stack }
  | _ => none

def pop_block (s : State) : Option State :=
  match s.stack with
  | .block _ _ settings :: .setting h _ :: stack => close s (.block h settings) stack
  | _ => none

/-- `table.insert(self.top.tokens, ..)` -/
def add_tokens (s : State) (ts : List TokenType) : Option State :=
  match s.stack with
  | .setting h tokens :: stack => some { s with stack := .setting h (tokens ++ ts) :: stack }
  | .block first tokens settings :: stack => some { s with stack := .block first (tokens ++ ts) settings :: stack }
  | [] => none

/-- `parser:last_token_type`, `none` for a Lua error -/
def last_token_type (s : State) : Option (Option TokenType) :=
  match s.stack with
  | .setting _ tokens :: _ => some tokens.getLast?
  | .block _ tokens _ :: _ => some tokens.getLast?
  | [] => none

/-- `add_value_to_setting` without a value to replace -/
def add_value (s : State) (value : Value) (tokens' : List TokenType) : Option State :=
  match s.stack with
  | .setting h tokens :: stack =>
    some { s with
      stack := .setting { h with values := h.values ++ [s.values.length] } (tokens ++ tokens') :: stack
      values := s.values ++ [value] }
  | _ => none

def add_value_to_setting (s : State) (value : Value) : Option State := add_value s value [.value value.type]

/-! ## Spaces and comments -/

/-- `skip_space`: the spaces m were matched, and each newline in them becomes a token -/
def spaces_read (s : State) (m : Str) : Outcome :=
  let s := s.advance m.length
  if m.count '\n' = 0 then .token s else .assert (add_tokens s (List.replicate (m.count '\n') .newline))

/-- `skip_space()`, which stops before the newline that a heredoc begins after -/
def skip_space (s : State) : Outcome :=
  if s.heredoc = [] then ((some_of (· ∈ [' ', '\t', '\r', '\n']) s.rest).elim .no (spaces_read s))
  else
    match last_token_type s with
    | none => .raise
    | some type => if type = some .newline then .no else ((spaces_newline s.rest).elim .no (spaces_read s))

/-- `skip_space(" \t")` -/
def skip_blanks (s : State) : Outcome := (some_of (· ∈ [' ', '\t']) s.rest).elim .no (spaces_read s)

def skip_comment (s : State) : Outcome :=
  match comment s.rest with
  | none => .no
  | some m => .assert (add_tokens (s.advance m.length) [.comment])

/-- `repeat until not (self:skip_space() or self:skip_comment())` -/
def skip : ℕ → State → Outcome
  | 0, s => .token s
  | n + 1, s =>
    match (skip_space s).orElse fun _ => skip_comment s with
    | .token s => skip n s
    | .no => .token s
    | r => r

/-! ## Matchers -/

/-- the number of backslashes that s ends with -/
def count_slashes_reverse (s : Str) : ℕ := (s.reverse.takeWhile (· = '\\')).length

/-- the loop of `match_string`: the text up to the first quote with an even number of backslashes in front -/
def unquote (quote_char : Char) : Str → Str → Option Str
  | _, [] => none
  | text, c :: str =>
    if c = quote_char ∧ count_slashes_reverse text % 2 = 0 then some text else unquote quote_char (text ++ [c]) str

/-- `match_string`: whether there is a quote, and then the string if it ends -/
def match_string (str : Str) : Option (Option Str × Char) :=
  match str with
  | c :: t => if c = '\'' ∨ c = '"' then some (unquote c [] t, c) else none
  | [] => none

def match_string_value (s : State) : Outcome :=
  match match_string s.rest with
  | none => .no
  | some (none, _) => .error "unterminated string" s
  | some (some str, quote_char) =>
    .assert (add_value_to_setting (s.advance (str.length + 2)) ⟨.string, str, some quote_char⟩)

def match_variable (s : State) : Outcome :=
  match parse_variable s.rest with
  | .raise => .raise
  | .absent => .no
  | .invalid err => .error err s
  | .token _ _ len =>
    match (s.rest.drop len).head? with
    | none => .no
    | some nextchar =>
      if isspace nextchar ∨ nextchar = ';' then
        .assert (add_value_to_setting (s.advance len) ⟨.var, s.rest.take len, none⟩)
      else .no

def match_value (s : State) : Outcome :=
  match some_of (fun c => !isspace c && c ≠ ';') s.rest with
  | none => .error "invalid value" s
  | some m => .assert (add_value_to_setting (s.advance m.length) ⟨.value, m, none⟩)

def match_setting_name (s : State) : Outcome :=
  if s.rest.head? = some ';' then .error "unexpected \";\"" (s.advance 1)
  else if s.rest.head? = some '\x7b' then .error "unexpected \"\x7b\"" (s.advance 1)
  else
    match some_of (fun c => !isspace c && c ≠ '$' && c ≠ ';') s.rest with
    | none =>
      match some_of (fun c => !isspace c) s.rest with
      | some m => .error s!"invalid config setting name \"{String.ofList m}\"" (s.advance m.length)
      | none => .error "expected config setting name" s
    | some m =>
      let s := s.advance m.length
      if ':' ∈ m then
        match qualified_name m with
        | some r => .assert (push_setting s r.2 (some r.1))
        | none => .error s!"invalid config setting name \"{String.ofList m}\"" s
      else .assert (push_setting s m none)

def match_semicolon (s : State) : Outcome :=
  if s.rest.head? = some ';' then
    (Outcome.assert (add_tokens (s.advance 1) [.semicolon])).bind fun s =>
      (skip_blanks s).attempt s fun s => (skip_comment s).attempt s fun s => .assert (pop_setting s)
  else .no

def match_block_start (s : State) : Outcome :=
  if s.rest.head? = some '\x7b' then .assert (push_block (s.advance 1)) else .no

def match_block_end (s : State) : Outcome :=
  if s.rest.head? = some '\x7d' then
    match s.stack with
    | .setting _ _ :: _ => .error "unexpected \"\x7d\"" (s.advance 1)
    | .block _ _ _ :: _ => .assert (pop_block (s.advance 1))
    | [] => .raise
  else .no

/-- `^%<%<[%-%~]?`: the type and its length -/
def heredoc_type (str : Str) : Option (HeredocType × ℕ) :=
  match str with
  | '<' :: '<' :: '-' :: _ => some (.dash, 3)
  | '<' :: '<' :: '~' :: _ => some (.tilde, 3)
  | '<' :: '<' :: _ => some (.plain, 2)
  | _ => none

/-- the label of a heredoc has been read: a value that its body will replace -/
def heredoc_started (s : State) (type : HeredocType) (label : Str) : Outcome :=
  if label = [] then .error "invalid heredoc with empty label" s
  else
    (Outcome.assert (add_tokens s [.heredoc_start])).bind fun s =>
      (Outcome.assert (add_value s ⟨.string, label, none⟩ [])).bind fun s' =>
        .token { s' with heredoc := s'.heredoc ++ [⟨type, label, s.values.length⟩] }

def match_heredoc_start (s : State) : Outcome :=
  match heredoc_type s.rest with
  | none => .no
  | some (type, len) =>
    let s := s.advance len
    match match_string s.rest with
    | some (none, _) => .error "invalid heredoc label string" s
    | some (some label, _) => heredoc_started (s.advance (label.length + 2)) type label
    | none =>
      let label := s.rest.takeWhile fun c => !isspace c && c ≠ ';'
      heredoc_started (s.advance label.length) type label

/-- `[\t ]*` and the label: as many spaces as leave the label after them -/
def label_end (type : HeredocType) (label str : Str) : Option ℕ :=
  let endspaces := if type = .plain then 0 else (str.takeWhile (· ∈ ['\t', ' '])).length
  ((List.range (endspaces + 1)).reverse.find? fun k => label.isPrefixOf (str.drop k)).map (· + label.length)

/-- `^.*\n`, the spaces and the label: the last newline that they follow -/
def body_close (type : HeredocType) (label str : Str) : Option ℕ :=
  (List.range str.length).reverse.findSome? fun i =>
    if str[i]? = some '\n' then (label_end type label (str.drop (i + 1))).map (i + 1 + ·) else none

/-- `body_with_end:match("^(.*)\n[^\n]*$")` -/
def heredoc_body (body_with_end : Str) : Str :=
  (body_with_end.reverse.dropWhile (· ≠ '\n')).tail.reverse

/-- the spaces a line starts with -/
def indent (line : Str) : Str := line.takeWhile (· ∈ ['\t', ' '])

/-- remove minimum leading whitespace -/
def dedent (body : Str) : Str :=
  let lines := body.splitOn '\n'
  let minspace := (lines.map fun l => (indent l).length).min?.getD 0
  ['\n'].intercalate (lines.map fun l => (indent l).take ((indent l).length - minspace) ++ l.drop (indent l).length)

def match_heredoc (s : State) : Outcome :=
  match s.heredoc with
  | [] => .no
  | heredoc :: later =>
    match last_token_type s with
    | none => .raise
    | some type =>
      if type = some .newline then
        let s := { s with heredoc := later }
        match body_close heredoc.type heredoc.label s.rest with
        | none => .error s!"unterminated heredoc {String.ofList heredoc.label}" s
        | some len =>
          let body := heredoc_body (s.rest.take len)
          let body := if heredoc.type = .tilde then dedent body else body
          (Outcome.assert (add_tokens (s.advance len) [.heredoc_body])).bind fun s =>
            .token { s with values := s.values.set heredoc.string_value ⟨.string, body, none⟩ }
      else .no

/-! ## Parsing -/

def next_token (s : State) : Outcome :=
  if s.str.length < s.cur then .no
  else
    (match_heredoc s).orElse fun _ =>
      match s.stack with
      | [] => .raise
      | .block _ _ _ :: _ => (match_block_end s).orElse fun _ => match_setting_name s
      | .setting _ _ :: _ =>
        (match_heredoc_start s).orElse fun _ => (match_string_value s).orElse fun _ => (match_variable s).orElse fun _ =>
          (match_block_start s).orElse fun _ => (match_block_end s).orElse fun _ => (match_semicolon s).orElse fun _ =>
            match_value s

inductive Result where
  | root (root : Setting) (values : List Value)
  | error (err : String)
  | raise
  | unfinished

def unexpected_end (s : State) (expected : String) (first : ℕ) : Result :=
  .error (error_message s.str s!"unexpected end of config string, expected {expected}" first)

/-- the end of `parse`: the top is the root block when there are two chunks -/
def finish (s : State) : Result :=
  match s.stack with
  | [] => .raise
  | [.block first _ _, .setting _ _] =>
    match s.heredoc.getLast? with
    | some heredoc => unexpected_end s s!"heredoc end \"{String.ofList heredoc.label}\"" first
    | none =>
      match (pop_block s).bind State.root with
      | some root => .root root s.values
      | none => .raise
  | .setting h _ :: _ => unexpected_end s "\";\"" h.first
  | .block first _ _ :: _ => unexpected_end s "\"\x7d\"" first

/-- the loop of `parse` -/
def tokens : ℕ → State → Result
  | 0, _ => .unfinished
  | n + 1, s =>
    match skip s.rest.length s with
    | .token s =>
      match next_token s with
      | .token s => tokens n s
      | .no => finish s
      | .error err s => .error (error_message s.str err s.cur)
      | .raise => .raise
    | .error err s => .error (error_message s.str err s.cur)
    | _ => .raise

/-- `Parser.new(str)`: the root setting, which is its own parent, and its block -/
def new (str : Str) : State :=
  { str := str
    cur := 1
    stack := [.block 1 [] [], .setting ⟨0, 0, "::ROOT".toList, some "config".toList, 1, []⟩ []]
    heredoc := []
    values := []
    settings := 1
    root := none }

/-- `Parser.new(str):parse()` -/
def parse (str : Str) : Result := tokens (str.length + 1) (new str)

end Shuttlesock.Parser
