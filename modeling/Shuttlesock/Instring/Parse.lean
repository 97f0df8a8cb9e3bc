/-
Reading a value of the configuration into the tokens of an instring: `Instring.parse` and `Token.escape`, `Token.literal` of
`instring.lua`, with `Token.variable` as in the parser.

Model: a string is a list of characters, each a byte. A matcher gets what is left of the string. It returns nil, false and an
error, or true with a token and its length; `Token.escape` returns a string in the place of the token for a decimal escape, and
a token without a value for a hexadecimal one. A function raises when Lua does.
- not in the model: the positions of tokens and errors, which nothing here reads back.
- `units`: the reference. It decodes one character or variable after the other, and `merge` puts adjacent characters together.
- `Item`: how the text goes on, and `items`: up to its end, or to where it cannot be read on.

Results:
- `loop_raise`, `loop_read`: what the loop of `parse` makes of the items.
- `loop_reference`: the loop and the reference, for texts and variables.
- `decoded_iff`: the exact condition for the tokens to be the reference decoding, or an error.
- `decimal_raises`: a decimal escape.
-/
import Mathlib.Tactic
import Mathlib.Data.List.TakeWhile
import Shuttlesock.Config.Parser
import Shuttlesock.Config.ParserTotal

namespace Shuttlesock.InstringParse

open Shuttlesock.Parser (Str Var some_of match_parens inner simple_variable bracketed_variable parse_variable
  parse_variable_absent parse_variable_pos)

/-! ## The matchers -/

/-- a literal without a value is one that has its text in another field -/
inductive Token where
  | literal (value : Option Str)
  | variable (name : Str) (params : List Str)
deriving DecidableEq

inductive Match where
  | absent
  | invalid (err : String)
  | token (res : Token) (len : ℕ)
  /-- a string in the place of a token -/
  | string (res : Str) (len : ℕ)
  | raise
deriving DecidableEq

/-- the characters with an escape of one letter -/
def simple : Char → Option Char
  | '\\' => some '\\'
  | 'n' => some '\n'
  | 'r' => some '\r'
  | 't' => some '\t'
  | 'b' => some (Char.ofNat 8)
  | 'f' => some (Char.ofNat 12)
  | 'v' => some (Char.ofNat 11)
  | _ => none

/-- `^%d%d?%d?` -/
def digits (s : Str) : Str := (s.take 3).takeWhile Char.isDigit

def decimal (m : Str) : ℕ := m.foldl (fun n c => 10 * n + (c.toNat - '0'.toNat)) 0

/-- the value of a digit `%x` -/
def hexdigit (c : Char) : Option ℕ :=
  if c.isDigit then some (c.toNat - '0'.toNat)
  else if 'a' ≤ c ∧ c ≤ 'f' then some (c.toNat - 'a'.toNat + 10)
  else if 'A' ≤ c ∧ c ≤ 'F' then some (c.toNat - 'A'.toNat + 10)
  else none

/-- `^x(%x%x)`, as a number -/
def hex : Str → Option ℕ
  | 'x' :: a :: b :: _ => (hexdigit a).bind fun m => (hexdigit b).map fun n => 16 * m + n
  | _ => none

/-- `Token.escape`. At the end of the string, the first character of "" is "" and not nil. -/
def escape (str : Str) : Match :=
  match str with
  | '\\' :: t =>
    match t with
    | [] => .token (.literal (some [])) 2
    | fc :: _ =>
      match simple fc with
      | some c => .token (.literal (some [c])) 2
      | none =>
        if fc.isDigit then
          -- string.char
          if decimal (digits t) ≤ 255 then .string [Char.ofNat (decimal (digits t))] ((digits t).length + 1) else .raise
        else if fc = 'x' then
          match hex t with
          | none => .raise  -- tonumber(nil, 16)
          | some _ => .token (.literal none) 4
        else .token (.literal (some [fc])) 2
  | _ => .absent

/-- `Token.variable` -/
def variable_token (str : Str) : Match :=
  match parse_variable str with
  | .absent => .absent
  | .invalid err => .invalid err
  | .token name params len => .token (.variable name params) len
  | .raise => .raise

/-- `[^%$%\\]` -/
def ordinary (c : Char) : Bool := c ≠ '$' && c ≠ '\\'

/-- `Token.literal` -/
def literal (str : Str) (force : Bool) : Match :=
  if force then .token (.literal (some str)) str.length
  else
    match some_of ordinary str with
    | none => .absent
    | some m => .token (.literal (some m)) m.length

def Match.orElse (r : Match) (f : Unit → Match) : Match :=
  match r with
  | .absent => f ()
  | r => r

/-! ## parse -/

inductive ValType where
  | literal
  | variable
  | string (quote_char : Char)
  | value
deriving DecidableEq

inductive Result where
  | instring (tokens : List Token)
  /-- nil and an error -/
  | error (err : String)
  | raise
deriving DecidableEq

/-- the new token, or the last one with its text behind it; nil cannot be concatenated -/
def add_token (tokens : List Token) (res : Token) : Option (List Token) :=
  match tokens.getLast?, res with
  | some (.literal (some a)), .literal (some b) => some (tokens.dropLast ++ [.literal (some (a ++ b))])
  | some (.literal _), .literal _ => none
  | _, res => some (tokens ++ [res])

def next_match (str : Str) : Match :=
  ((escape str).orElse fun _ => variable_token str).orElse fun _ => literal str false

/-- the loop of `parse` -/
def parse_loop : ℕ → List Token → Str → Result
  | _, tokens, [] => .instring tokens
  | 0, _, _ => .raise
  | n + 1, tokens, str =>
    match next_match str with
    | .absent => .raise  -- assert(ok ~= nil)
    | .invalid err => .error err
    | .string _ _ => .raise  -- res.pos = ..
    | .raise => .raise
    | .token res len =>
      match add_token tokens res with
      | none => .raise
      | some tokens => parse_loop n tokens (str.drop len)

/-- `Instring.parse` -/
def parse (valtype : ValType) (raw : Str) : Result :=
  if valtype = .literal ∨ valtype = .string '\'' then
    match literal raw true with
    | .token res _ => .instring [res]
    | _ => .error "not a literal value"
  else if valtype = .variable then
    match variable_token raw with
    | .absent => .error "not a variable"
    | .invalid err => .error err
    | .token res _ => .instring [res]
    | _ => .raise
  else parse_loop raw.length [] raw

/-! ## The reference -/

/-- a part of the decoded text -/
inductive Piece where
  | literal (s : Str)
  | variable (name : Str) (params : List Str)
deriving DecidableEq

def Piece.token : Piece → Token
  | .literal s => .literal (some s)
  | .variable name params => .variable name params

/-- the character that an escape stands for, and the length of the escape without its backslash -/
def escaped (t : Str) : Option (Char × ℕ) :=
  match t with
  | [] => none
  | fc :: _ =>
    match simple fc with
    | some c => some (c, 1)
    | none =>
      if fc.isDigit then
        if decimal (digits t) ≤ 255 then some (Char.ofNat (decimal (digits t)), (digits t).length) else none
      else if fc = 'x' then (hex t).map fun byte => (Char.ofNat byte, 3)
      else some (fc, 1)

/-- `$name[..]`, or the same in braces with nothing else -/
def variable_at (str : Str) : Option (Str × List Str × ℕ) :=
  match simple_variable str with
  | .token name params len => some (name, params, len)
  | .absent =>
    match str with
    | '$' :: '{' :: t =>
      (match_parens '{' '}' ('{' :: t)).bind fun m =>
        match simple_variable ('$' :: inner m) with
        | .token name params len => if len + 1 = m.length then some (name, params, m.length + 1) else none
        | _ => none
    | _ => none
  | _ => none

/-- the decoded text, one character or variable after the other -/
def units : ℕ → Str → Option (List Piece)
  | _, [] => some []
  | 0, _ => none
  | n + 1, '\\' :: t => (escaped t).bind fun r => (units n (t.drop r.2)).map (.literal [r.1] :: ·)
  | n + 1, '$' :: t => (variable_at ('$' :: t)).bind fun r => (units n (('$' :: t).drop r.2.2)).map (.variable r.1 r.2.1 :: ·)
  | n + 1, c :: t => (units n t).map (.literal [c] :: ·)

/-- adjacent literals are one -/
def push (ps : List Piece) (p : Piece) : List Piece :=
  match ps.getLast?, p with
  | some (.literal a), .literal b => ps.dropLast ++ [.literal (a ++ b)]
  | _, p => ps ++ [p]

def merge (ps : List Piece) : List Piece := ps.foldl push []

/-- the reference decoding -/
def decoding (raw : Str) : Option (List Piece) := (units raw.length raw).map merge

/-- **The property** -/
structure Decoded (raw : Str) (r : Result) : Prop where
  no_raise : r ≠ .raise
  tokens : ∀ tokens, r = .instring tokens → ∃ ps, decoding raw = some ps ∧ tokens = ps.map Piece.token
  malformed : decoding raw = none → ∃ err, r = .error err

/-! ## The items of the text -/

inductive Item where
  | text
  | var
  /-- `\xHH` -/
  | hex
  /-- a backslash at the end -/
  | trailing
  /-- a variable in braces, with one character behind it there -/
  | extra
  /-- a variable with an error: an open bracket behind its name, or no variable in the braces -/
  | malformed
  /-- a decimal escape, `\x` without two digits, a `$` without a variable, an open brace, an open bracket in braces -/
  | bad
deriving DecidableEq

/-- how the text goes on, and for how long -/
def item (str : Str) : Item × ℕ :=
  match str with
  | [] => (.text, 0)
  | '\\' :: t =>
    match t with
    | [] => (.trailing, 2)
    | fc :: _ =>
      if fc.isDigit then (.bad, 0)
      else if fc = 'x' then if (hex t).isSome then (.hex, 4) else (.bad, 0)
      else (.text, 2)
  | '$' :: _ =>
    match parse_variable str with
    | .token _ _ len => if (variable_at str).isSome then (.var, len) else (.extra, len)
    | .invalid _ => (.malformed, 0)
    | _ => (.bad, 0)
  | _ => (.text, (str.takeWhile ordinary).length)

def items : ℕ → Str → List Item
  | 0, _ => []
  | _, [] => []
  | n + 1, str =>
    match item str with
    | (.malformed, _) => [.malformed]
    | (.bad, _) => [.bad]
    | (i, len) => i :: items n (str.drop len)

def Item.literal (i : Item) : Bool := i = .text || i = .hex || i = .trailing

/-- i can stand before j: a hexadecimal escape has no literal beside it -/
def Beside (i j : Item) : Prop := i.literal = true → j.literal = true → i ≠ .hex ∧ j ≠ .hex

instance (i j : Item) : Decidable (Beside i j) := inferInstanceAs (Decidable (_ → _ → _))

/-- **The condition**: nothing bad is read, no hexadecimal escape is beside a literal, and there is a malformed variable in the
end, or else no hexadecimal escape, backslash at the end or variable with a character behind it -/
def Readable (raw : Str) : Prop :=
  .bad ∉ items raw.length raw ∧ (items raw.length raw).IsChain Beside ∧
    (.malformed ∈ items raw.length raw ∨
      .hex ∉ items raw.length raw ∧ .trailing ∉ items raw.length raw ∧ .extra ∉ items raw.length raw)

instance (raw : Str) : Decidable (Readable raw) := inferInstanceAs (Decidable (_ ∧ _ ∧ _))

/-! ## The reference, unfolded -/

/-- a variable of the reference is one that `Token.variable` reads -/
theorem variable_at_some {str name : Str} {params : List Str} {len : ℕ} (h : variable_at str = some (name, params, len)) :
    parse_variable str = .token name params len := by
  unfold variable_at at h
  unfold parse_variable
  cases hs : simple_variable str with
  | token n p l =>
    rw [hs] at h
    cases h
    rfl
  | invalid err =>
    rw [hs] at h
    cases h
  | raise =>
    rw [hs] at h
    cases h
  | absent =>
    rw [hs] at h
    dsimp only at h ⊢
    unfold bracketed_variable
    split at h
    · rename_i t
      obtain ⟨m, hm, h⟩ := Option.bind_eq_some_iff.1 h
      simp only [hm]
      cases hv : simple_variable ('$' :: inner m) with
      | token n p l =>
        rw [hv] at h
        dsimp only at h ⊢
        split at h
        · rename_i hlen
          cases h
          rw [if_neg (by omega)]
        · cases h
      | invalid err =>
        rw [hv] at h
        cases h
      | raise =>
        rw [hv] at h
        cases h
      | absent =>
        rw [hv] at h
        cases h
    · cases h

theorem drop_le {α : Type*} {l : List α} {n k : ℕ} (h : l.length ≤ n + 1) (hk : 0 < k) : (l.drop k).length ≤ n := by
  rw [List.length_drop]
  omega

theorem drop_length_le {α : Type*} (l : List α) (k : ℕ) : (l.drop k).length ≤ l.length := (List.drop_sublist k l).length_le

/-- enough fuel is enough -/
theorem units_fuel {n m : ℕ} {str : Str} (hn : str.length ≤ n) (hm : str.length ≤ m) : units n str = units m str := by
  induction n generalizing m str with
  | zero =>
    rw [List.length_eq_zero_iff.1 (Nat.le_zero.1 hn)]
    cases m with
    | zero => rfl
    | succ m => rfl
  | succ n ih =>
    cases str with
    | nil =>
      cases m with
      | zero => rfl
      | succ m => rfl
    | cons c t =>
      obtain ⟨m, rfl⟩ := Nat.exists_eq_succ_of_ne_zero (Nat.ne_of_gt (lt_of_lt_of_le (Nat.succ_pos _) hm))
      have htn : t.length ≤ n := Nat.le_of_succ_le_succ hn
      have htm : t.length ≤ m := Nat.le_of_succ_le_succ hm
      have hdrop : ∀ k, units n (t.drop k) = units m (t.drop k) := fun k =>
        ih ((drop_length_le t k).trans htn) ((drop_length_le t k).trans htm)
      by_cases hslash : c = '\\'
      · subst hslash
        show (escaped t).bind _ = (escaped t).bind _
        congr 1
        funext r
        rw [hdrop]
      · by_cases hdollar : c = '$'
        · subst hdollar
          show (variable_at ('$' :: t)).bind _ = (variable_at ('$' :: t)).bind _
          cases hv : variable_at ('$' :: t) with
          | none => rfl
          | some r =>
            have hpos : 0 < r.2.2 := parse_variable_pos (variable_at_some hv)
            rw [Option.bind_some, Option.bind_some, ih (drop_le hn hpos) (drop_le hm hpos)]
        · rw [units, units, ih htn htm]
          · exact fun h => hslash h
          · exact fun h => hdollar h
          · exact fun h => hslash h
          · exact fun h => hdollar h

/-- with as much fuel as is needed -/
def all_units (str : Str) : Option (List Piece) := units str.length str

theorem units_eq {n : ℕ} {str : Str} (h : str.length ≤ n) : units n str = all_units str := units_fuel h le_rfl

theorem units_escape (t : Str) : all_units ('\\' :: t) =
    (escaped t).bind fun r => (all_units (t.drop r.2)).map (.literal [r.1] :: ·) := by
  show (escaped t).bind _ = _
  congr 1
  funext r
  rw [units_eq (drop_length_le t r.2)]

theorem units_variable (t : Str) : all_units ('$' :: t) = (variable_at ('$' :: t)).bind fun r =>
    (all_units (('$' :: t).drop r.2.2)).map (.variable r.1 r.2.1 :: ·) := by
  show (variable_at ('$' :: t)).bind _ = _
  cases hv : variable_at ('$' :: t) with
  | none => rfl
  | some r =>
    have hpos : 0 < r.2.2 := parse_variable_pos (variable_at_some hv)
    rw [Option.bind_some, Option.bind_some, units_eq (drop_le le_rfl hpos)]

theorem ordinary_iff {c : Char} : ordinary c = true ↔ c ≠ '$' ∧ c ≠ '\\' := by
  unfold ordinary
  rw [Bool.and_eq_true, decide_eq_true_iff, decide_eq_true_iff]

theorem units_ordinary {c : Char} (hc : ordinary c = true) (t : Str) :
    all_units (c :: t) = (all_units t).map (.literal [c] :: ·) := by
  obtain ⟨hdollar, hslash⟩ := ordinary_iff.1 hc
  unfold all_units
  rw [List.length_cons, units]
  · exact hslash
  · exact hdollar

/-- the characters of a run -/
theorem units_run {m : Str} (hm : ∀ c ∈ m, ordinary c = true) (t : Str) :
    all_units (m ++ t) = (all_units t).map (m.map (fun c => .literal [c]) ++ ·) := by
  induction m with
  | nil =>
    rw [List.nil_append]
    exact Option.map_id'.symm
  | cons c m ih =>
    rw [List.cons_append, units_ordinary (hm c List.mem_cons_self), ih fun d hd => hm d (List.mem_cons_of_mem c hd),
      Option.map_map]
    rfl

/-! ## One item -/

/-- what an item is for `parse`, and for the reference -/
def Reads (str : Str) : Item → ℕ → Prop
  | .text, len => ∃ cs, cs ≠ [] ∧ next_match str = .token (.literal (some cs)) len ∧
      all_units str = (all_units (str.drop len)).map (cs.map (fun c => .literal [c]) ++ ·)
  | .var, len => ∃ name params, next_match str = .token (.variable name params) len ∧
      all_units str = (all_units (str.drop len)).map (.variable name params :: ·)
  | .hex, len => next_match str = .token (.literal none) len ∧
      ∃ c, all_units str = (all_units (str.drop len)).map (.literal [c] :: ·)
  | .trailing, len => next_match str = .token (.literal (some [])) len ∧ all_units str = none
  | .extra, len => (∃ name params, next_match str = .token (.variable name params) len) ∧ all_units str = none
  | .malformed, _ => (∃ err, next_match str = .invalid err) ∧ all_units str = none
  | .bad, _ => next_match str = .absent ∨ next_match str = .raise ∨ ∃ res len, next_match str = .string res len

theorem item_escape (fc : Char) (t : Str) : item ('\\' :: fc :: t) =
    if fc.isDigit then (.bad, 0)
    else if fc = 'x' then if (hex (fc :: t)).isSome then (.hex, 4) else (.bad, 0)
    else (.text, 2) := rfl

theorem item_ordinary {c : Char} (hc : ordinary c = true) (t : Str) :
    item (c :: t) = (.text, ((c :: t).takeWhile ordinary).length) := by
  obtain ⟨hdollar, hslash⟩ := ordinary_iff.1 hc
  unfold item
  split
  · rename_i heq
    cases heq
  · rename_i heq
    cases heq
    exact absurd rfl hslash
  · rename_i heq
    cases heq
    exact absurd rfl hdollar
  · rfl

theorem simple_digit {c : Char} (h : c.isDigit = true) : simple c = none := by
  unfold simple
  split
  all_goals first | rfl | exact absurd h (by decide)

theorem reads_escape (fc : Char) (t : Str) :
    Reads ('\\' :: fc :: t) (item ('\\' :: fc :: t)).1 (item ('\\' :: fc :: t)).2 := by
  by_cases hdigit : fc.isDigit = true
  · have hitem : item ('\\' :: fc :: t) = (.bad, 0) := if_pos hdigit
    rw [hitem]
    right
    have hescape : escape ('\\' :: fc :: t) = if decimal (digits (fc :: t)) ≤ 255 then
        .string [Char.ofNat (decimal (digits (fc :: t)))] ((digits (fc :: t)).length + 1) else .raise := by
      unfold escape
      simp only [simple_digit hdigit, hdigit, if_true]
    unfold next_match
    rw [hescape]
    split_ifs
    · exact .inr ⟨_, _, rfl⟩
    · exact .inl rfl
  by_cases hx : fc = 'x'
  · subst hx
    cases hhex : hex ('x' :: t) with
    | none =>
      have hitem : item ('\\' :: 'x' :: t) = (.bad, 0) := by
        unfold item
        simp [hhex]
      rw [hitem]
      right
      left
      unfold next_match escape
      simp [hhex, simple, Match.orElse]
    | some byte =>
      have hitem : item ('\\' :: 'x' :: t) = (.hex, 4) := by
        unfold item
        simp [hhex]
      rw [hitem]
      refine ⟨?_, Char.ofNat byte, ?_⟩
      · unfold next_match escape
        simp [hhex, simple, Match.orElse]
      · rw [units_escape]
        unfold escaped
        simp [hhex, simple]
  · have hitem : item ('\\' :: fc :: t) = (.text, 2) := by
      unfold item
      simp [hdigit, hx]
    rw [hitem]
    -- one character, by its letter or for itself
    have hone : ∃ c, escape ('\\' :: fc :: t) = .token (.literal (some [c])) 2 ∧ escaped (fc :: t) = some (c, 1) := by
      cases hs : simple fc with
      | some c =>
        refine ⟨c, ?_, ?_⟩
        · unfold escape
          simp only [hs]
        · unfold escaped
          simp only [hs]
      | none =>
        refine ⟨fc, ?_, ?_⟩
        · unfold escape
          simp [hs, hdigit, hx]
        · unfold escaped
          simp [hs, hdigit, hx]
    obtain ⟨c, hescape, hescaped⟩ := hone
    refine ⟨[c], List.cons_ne_nil _ _, ?_, ?_⟩
    · unfold next_match
      rw [hescape]
      rfl
    · rw [units_escape, hescaped]
      rfl

/-- where there is no backslash -/
theorem escape_absent {c : Char} (h : c ≠ '\\') (t : Str) : escape (c :: t) = .absent := by
  unfold escape
  split
  · rename_i heq
    cases heq
    exact absurd rfl h
  · rfl

theorem reads_variable (t : Str) : Reads ('$' :: t) (item ('$' :: t)).1 (item ('$' :: t)).2 := by
  have hnext : next_match ('$' :: t) = (variable_token ('$' :: t)).orElse fun _ => .absent := by
    unfold next_match
    rw [escape_absent (by decide)]
    rfl
  have hunits : variable_at ('$' :: t) = none → all_units ('$' :: t) = none := by
    intro hnone
    rw [units_variable, hnone]
    rfl
  have hat : ∀ r, variable_at ('$' :: t) = some r → parse_variable ('$' :: t) = .token r.1 r.2.1 r.2.2 :=
    fun r hr => variable_at_some hr
  unfold variable_token at hnext
  unfold item
  cases hv : parse_variable ('$' :: t) with
  | token name params len =>
    rw [hv] at hnext hat
    dsimp only
    split_ifs with hsome
    · obtain ⟨r, hr⟩ := Option.isSome_iff_exists.1 hsome
      have heq := hat r hr
      cases heq
      refine ⟨_, _, hnext, ?_⟩
      rw [units_variable, hr]
      rfl
    · exact ⟨⟨name, params, hnext⟩, hunits (Option.not_isSome_iff_eq_none.1 hsome)⟩
  | invalid err =>
    rw [hv] at hnext hat
    dsimp only
    refine ⟨⟨err, hnext⟩, hunits ?_⟩
    by_contra hne
    obtain ⟨r, hr⟩ := Option.ne_none_iff_exists'.1 hne
    cases hat r hr
  | absent =>
    rw [hv] at hnext
    dsimp only
    exact .inl hnext
  | raise =>
    rw [hv] at hnext
    dsimp only
    exact .inr (.inl hnext)

theorem reads_ordinary {c : Char} (hc : ordinary c = true) (t : Str) :
    Reads (c :: t) (item (c :: t)).1 (item (c :: t)).2 := by
  obtain ⟨hdollar, hslash⟩ := ordinary_iff.1 hc
  have hne : (c :: t).takeWhile ordinary ≠ [] := by
    rw [List.takeWhile_cons_of_pos hc]
    exact List.cons_ne_nil _ _
  rw [item_ordinary hc]
  refine ⟨_, hne, ?_, ?_⟩
  · unfold next_match variable_token
    rw [escape_absent hslash, parse_variable_absent hdollar]
    show literal (c :: t) false = _
    unfold literal some_of
    rw [if_neg Bool.false_ne_true, if_neg hne]
  · have hsplit : (c :: t).takeWhile ordinary ++ (c :: t).drop ((c :: t).takeWhile ordinary).length = c :: t :=
      List.prefix_iff_eq_append.1 (List.takeWhile_prefix _)
    calc all_units (c :: t)
      _ = all_units ((c :: t).takeWhile ordinary ++ (c :: t).drop ((c :: t).takeWhile ordinary).length) := by rw [hsplit]
      _ = _ := units_run (fun d hd => List.mem_takeWhile_imp hd) _

theorem item_reads {str : Str} (hne : str ≠ []) : Reads str (item str).1 (item str).2 := by
  cases str with
  | nil => exact absurd rfl hne
  | cons c t =>
    by_cases hslash : c = '\\'
    · subst hslash
      cases t with
      | nil => exact ⟨rfl, rfl⟩
      | cons fc t => exact reads_escape fc t
    · by_cases hdollar : c = '$'
      · subst hdollar
        exact reads_variable t
      · exact reads_ordinary (ordinary_iff.2 ⟨hdollar, hslash⟩) t

/-- an item that is read on is not empty -/
theorem item_pos {str : Str} (hne : str ≠ []) (hmalformed : (item str).1 ≠ .malformed) (hbad : (item str).1 ≠ .bad) :
    0 < (item str).2 := by
  obtain ⟨c, t, rfl⟩ := List.exists_cons_of_ne_nil hne
  by_cases hslash : c = '\\'
  · subst hslash
    cases t with
    | nil => exact Nat.succ_pos _
    | cons fc t =>
      rw [item_escape] at hbad ⊢
      split_ifs at hbad ⊢
      · exact absurd rfl hbad
      · exact Nat.succ_pos _
      · exact absurd rfl hbad
      · exact Nat.succ_pos _
  · by_cases hdollar : c = '$'
    · subst hdollar
      unfold item at hmalformed hbad ⊢
      cases hv : parse_variable ('$' :: t) with
      | token name params len =>
        have hpos := parse_variable_pos hv
        dsimp only
        split_ifs
        · exact hpos
        · exact hpos
      | invalid err =>
        rw [hv] at hmalformed
        exact absurd rfl hmalformed
      | absent =>
        rw [hv] at hbad
        exact absurd rfl hbad
      | raise =>
        rw [hv] at hbad
        exact absurd rfl hbad
    · have hc : ordinary c = true := ordinary_iff.2 ⟨hdollar, hslash⟩
      rw [item_ordinary hc, List.takeWhile_cons_of_pos hc]
      exact Nat.succ_pos _

/-- the item ends the reading -/
def Item.last (i : Item) : Prop := i = .malformed ∨ i = .bad

theorem items_cons {str : Str} (hne : str ≠ []) (n : ℕ) (h : ¬ (item str).1.last) :
    items (n + 1) str = (item str).1 :: items n (str.drop (item str).2) := by
  obtain ⟨c, t, rfl⟩ := List.exists_cons_of_ne_nil hne
  unfold Item.last at h
  rw [items]
  · generalize item (c :: t) = r at h ⊢
    obtain ⟨i, len⟩ := r
    cases i with
    | malformed => exact absurd (.inl rfl) h
    | bad => exact absurd (.inr rfl) h
    | text | var | hex | trailing | extra => rfl
  · exact hne

theorem items_last {str : Str} (hne : str ≠ []) (n : ℕ) (h : (item str).1.last) : items (n + 1) str = [(item str).1] := by
  obtain ⟨c, t, rfl⟩ := List.exists_cons_of_ne_nil hne
  unfold Item.last at h
  rw [items]
  · generalize item (c :: t) = r at h ⊢
    obtain ⟨i, len⟩ := r
    rcases h with h | h
    · cases h
      rfl
    · cases h
      rfl
  · exact hne

/-! ## Adding a token -/

/-- the last token is one of this item -/
def Ends (tokens : List Token) : Item → Prop
  | .text | .trailing => ∃ a, tokens.getLast? = some (.literal (some a))
  | .hex => tokens.getLast? = some (.literal none)
  | _ => ∀ a, tokens.getLast? ≠ some (.literal a)

/-- a token of this item -/
def Of (res : Token) : Item → Prop
  | .text | .trailing => ∃ a, res = .literal (some a)
  | .hex => res = .literal none
  | _ => ∀ a, res ≠ .literal a

theorem of_literal {res : Token} {j : Item} (h : Of res j) (hj : j.literal = true) :
    ∃ o, res = .literal o ∧ (o = none ↔ j = .hex) := by
  cases j with
  | text | trailing =>
    obtain ⟨a, rfl⟩ := h
    exact ⟨some a, rfl, ⟨fun h => (by cases h), fun h => (by cases h)⟩⟩
  | hex => exact ⟨none, h, ⟨fun _ => rfl, fun _ => rfl⟩⟩
  | var | extra | malformed | bad => cases hj

theorem of_not_literal {res : Token} {j : Item} (h : Of res j) (hj : j.literal = false) : ∀ a, res ≠ .literal a := by
  cases j with
  | text | trailing | hex => cases hj
  | var | extra | malformed | bad => exact h

theorem ends_literal {tokens : List Token} {i : Item} (h : Ends tokens i) (hi : i.literal = true) :
    ∃ o, tokens.getLast? = some (.literal o) ∧ (o = none ↔ i = .hex) := by
  cases i with
  | text | trailing =>
    obtain ⟨a, ha⟩ := h
    exact ⟨some a, ha, ⟨fun h => (by cases h), fun h => (by cases h)⟩⟩
  | hex => exact ⟨none, h, ⟨fun _ => rfl, fun _ => rfl⟩⟩
  | var | extra | malformed | bad => cases hi

theorem ends_not_literal {tokens : List Token} {i : Item} (h : Ends tokens i) (hi : i.literal = false) :
    ∀ a, tokens.getLast? ≠ some (.literal a) := by
  cases i with
  | text | trailing | hex => cases hi
  | var | extra | malformed | bad => exact h

theorem ends_new (tokens : List Token) {res : Token} {j : Item} (h : Of res j) : Ends (tokens ++ [res]) j := by
  cases j with
  | text | trailing =>
    obtain ⟨a, rfl⟩ := h
    exact ⟨a, List.getLast?_concat⟩
  | hex => exact List.getLast?_concat.trans (congrArg some h)
  | var | extra | malformed | bad =>
    intro a ha
    rw [List.getLast?_concat] at ha
    exact h a (Option.some.inj ha)

/-- a token is put behind the others, unless two literals meet -/
theorem add_new {tokens : List Token} {res : Token} (h : (∀ a, tokens.getLast? ≠ some (.literal a)) ∨ ∀ a, res ≠ .literal a) :
    add_token tokens res = some (tokens ++ [res]) := by
  unfold add_token
  split
  · rename_i a b hlast
    rcases h with h | h
    · exact absurd hlast (h _)
    · exact absurd rfl (h _)
  · rename_i hlast
    rcases h with h | h
    · exact absurd hlast (h _)
    · exact absurd rfl (h _)
  · rfl

theorem add_token_literal {tokens : List Token} {a b : Str} (h : tokens.getLast? = some (.literal (some a))) :
    add_token tokens (.literal (some b)) = some (tokens.dropLast ++ [.literal (some (a ++ b))]) := by
  unfold add_token
  rw [h]

/-- **A token that can stand there** is added, and a literal without a value stays. -/
theorem add_token_beside {tokens : List Token} {res : Token} {i j : Item} (hi : Ends tokens i) (hj : Of res j)
    (h : Beside i j) : ∃ new, add_token tokens res = some new ∧ Ends new j ∧
      (.literal none ∈ tokens ∨ j = .hex → .literal none ∈ new) := by
  by_cases hboth : i.literal = true ∧ j.literal = true
  · obtain ⟨hihex, hjhex⟩ := h hboth.1 hboth.2
    obtain ⟨o, hlast, ho⟩ := ends_literal hi hboth.1
    obtain ⟨o', rfl, ho'⟩ := of_literal hj hboth.2
    obtain ⟨a, rfl⟩ := Option.ne_none_iff_exists'.1 fun hnone => hihex (ho.1 hnone)
    obtain ⟨b, rfl⟩ := Option.ne_none_iff_exists'.1 fun hnone => hjhex (ho'.1 hnone)
    refine ⟨_, add_token_literal hlast, ends_new _ ?_, ?_⟩
    · cases j with
      | text | trailing => exact ⟨_, rfl⟩
      | hex => exact absurd rfl hjhex
      | var | extra | malformed | bad => exact absurd hboth.2 Bool.false_ne_true
    · rintro (hmem | hhex)
      · rw [← List.dropLast_append_getLast? _ hlast] at hmem
        rcases List.mem_append.1 hmem with hmem | hmem
        · exact List.mem_append_left _ hmem
        · cases List.mem_singleton.1 hmem
      · exact absurd hhex hjhex
  · have hone : (∀ a, tokens.getLast? ≠ some (.literal a)) ∨ ∀ a, res ≠ .literal a := by
      by_cases hil : i.literal = true
      · right
        apply of_not_literal hj
        exact Bool.eq_false_of_not_eq_true fun hjl => hboth ⟨hil, hjl⟩
      · exact .inl (ends_not_literal hi (Bool.eq_false_of_not_eq_true hil))
    refine ⟨_, add_new hone, ends_new _ hj, ?_⟩
    rintro (hmem | rfl)
    · exact List.mem_append_left _ hmem
    · rw [show res = .literal none from hj]
      exact List.mem_append_right _ List.mem_cons_self

theorem add_token_raise {tokens : List Token} {res : Token} {i j : Item} (hi : Ends tokens i) (hj : Of res j)
    (h : ¬ Beside i j) : add_token tokens res = none := by
  have hil : i.literal = true := by
    by_contra hil
    exact h fun hi' => absurd hi' hil
  have hjl : j.literal = true := by
    by_contra hjl
    exact h fun _ hj' => absurd hj' hjl
  have hhex : i ≠ .hex → j = .hex := by
    intro hihex
    by_contra hjhex
    exact h fun _ _ => ⟨hihex, hjhex⟩
  obtain ⟨o, hlast, ho⟩ := ends_literal hi hil
  obtain ⟨o', rfl, ho'⟩ := of_literal hj hjl
  unfold add_token
  rw [hlast]
  cases o with
  | none => rfl
  | some a =>
    have hjhex : j = .hex := hhex fun hihex => by cases ho.2 hihex
    rw [ho'.2 hjhex]

/-- the items that are read on have a token -/
theorem next_token {str : Str} (hne : str ≠ []) (h : ¬ (item str).1.last) :
    ∃ res, next_match str = .token res (item str).2 ∧ Of res (item str).1 := by
  have hreads := item_reads hne
  unfold Item.last at h
  generalize item str = r at h hreads ⊢
  obtain ⟨i, len⟩ := r
  cases i with
  | text =>
    obtain ⟨cs, -, hnext, -⟩ := hreads
    exact ⟨_, hnext, cs, rfl⟩
  | var =>
    obtain ⟨name, params, hnext, -⟩ := hreads
    exact ⟨_, hnext, fun a ha => by cases ha⟩
  | hex => exact ⟨_, hreads.1, rfl⟩
  | trailing => exact ⟨_, hreads.1, [], rfl⟩
  | extra =>
    obtain ⟨⟨name, params, hnext⟩, -⟩ := hreads
    exact ⟨_, hnext, fun a ha => by cases ha⟩
  | malformed => exact absurd (.inl rfl) h
  | bad => exact absurd (.inr rfl) h

/-! ## The loop -/

theorem parse_loop_add {str : Str} {res : Token} {len : ℕ} {tokens new : List Token} (hne : str ≠ []) (n : ℕ)
    (hnext : next_match str = .token res len) (hadd : add_token tokens res = some new) :
    parse_loop (n + 1) tokens str = parse_loop n new (str.drop len) := by
  rw [parse_loop, hnext]
  · dsimp only
    rw [hadd]
  · exact hne

theorem parse_loop_raise {str : Str} {res : Token} {len : ℕ} {tokens : List Token} (hne : str ≠ []) (n : ℕ)
    (hnext : next_match str = .token res len) (hadd : add_token tokens res = none) :
    parse_loop (n + 1) tokens str = .raise := by
  obtain ⟨c, t, rfl⟩ := List.exists_cons_of_ne_nil hne
  unfold parse_loop
  simp only [hnext, hadd]

theorem parse_loop_malformed {str : Str} (tokens : List Token) (hne : str ≠ []) (n : ℕ) (h : (item str).1 = .malformed) :
    ∃ err, parse_loop (n + 1) tokens str = .error err := by
  have hreads := item_reads hne
  rw [h] at hreads
  obtain ⟨⟨err, hnext⟩, -⟩ := hreads
  obtain ⟨c, t, rfl⟩ := List.exists_cons_of_ne_nil hne
  refine ⟨err, ?_⟩
  unfold parse_loop
  simp only [hnext]

theorem parse_loop_bad {str : Str} (tokens : List Token) (hne : str ≠ []) (n : ℕ) (h : (item str).1 = .bad) :
    parse_loop (n + 1) tokens str = .raise := by
  have hreads := item_reads hne
  rw [h] at hreads
  obtain ⟨c, t, rfl⟩ := List.exists_cons_of_ne_nil hne
  unfold parse_loop
  rcases hreads with hnext | hnext | ⟨res, len, hnext⟩
  · simp only [hnext]
  · simp only [hnext]
  · simp only [hnext]

theorem items_nil (n : ℕ) : items n [] = [] := by
  cases n with
  | zero => rfl
  | succ n => rfl

theorem parse_loop_nil (n : ℕ) (tokens : List Token) : parse_loop n tokens [] = .instring tokens := by
  cases n with
  | zero => rfl
  | succ n => rfl

/-- the rest of the text, behind an item that is read on -/
theorem rest_le {n : ℕ} {str : Str} (hne : str ≠ []) (hn : str.length ≤ n + 1) (h : ¬ (item str).1.last) :
    (str.drop (item str).2).length ≤ n :=
  drop_le hn (item_pos hne (fun hm => h (.inl hm)) fun hb => h (.inr hb))

theorem beside_malformed (i : Item) : Beside i .malformed := fun _ h => absurd h Bool.false_ne_true

/-- something bad, or a hexadecimal escape beside a literal -/
theorem loop_raise {n : ℕ} {str : Str} {tokens : List Token} {i : Item} (hn : str.length ≤ n) (hi : Ends tokens i)
    (h : .bad ∈ items n str ∨ ¬ (i :: items n str).IsChain Beside) : parse_loop n tokens str = .raise := by
  induction n generalizing str tokens i with
  | zero =>
    have hnil : items 0 str = [] := rfl
    rw [hnil] at h
    rcases h with h | h
    · exact absurd h List.not_mem_nil
    · exact absurd (List.isChain_singleton i) h
  | succ n ih =>
    by_cases hne : str = []
    · rw [hne, items_nil] at h
      rcases h with h | h
      · exact absurd h List.not_mem_nil
      · exact absurd (List.isChain_singleton i) h
    by_cases hlast : (item str).1.last
    · rw [items_last hne n hlast] at h
      rcases hlast with hmalformed | hbad
      · rw [hmalformed] at h
        rcases h with h | h
        · cases List.mem_singleton.1 h
        · exact absurd (List.isChain_pair.2 (beside_malformed i)) h
      · exact parse_loop_bad tokens hne n hbad
    · obtain ⟨res, hnext, hres⟩ := next_token hne hlast
      by_cases hbeside : Beside i (item str).1
      · obtain ⟨new, hadd, hends, -⟩ := add_token_beside hi hres hbeside
        rw [parse_loop_add hne n hnext hadd]
        apply ih (rest_le hne hn hlast) hends
        rw [items_cons hne n hlast] at h
        rcases h with h | h
        · left
          exact List.mem_of_ne_of_mem (fun hbad => hlast (.inr hbad.symm)) h
        · right
          exact fun hchain => h (List.isChain_cons_cons.2 ⟨hbeside, hchain⟩)
      · exact parse_loop_raise hne n hnext (add_token_raise hi hres hbeside)

/-- **What the loop makes of the items**, where it does not raise: an error for a malformed variable, and else tokens, and one
of them has no value when there was a hexadecimal escape. -/
theorem loop_read {n : ℕ} {str : Str} {tokens : List Token} {i : Item} (hn : str.length ≤ n) (hi : Ends tokens i)
    (hbad : .bad ∉ items n str) (hchain : (i :: items n str).IsChain Beside) :
    (.malformed ∈ items n str → ∃ err, parse_loop n tokens str = .error err) ∧
      (.malformed ∉ items n str → ∃ new, parse_loop n tokens str = .instring new ∧
        (.literal none ∈ tokens ∨ .hex ∈ items n str → .literal none ∈ new)) := by
  induction n generalizing str tokens i with
  | zero =>
    rw [List.length_eq_zero_iff.1 (Nat.le_zero.1 hn)]
    refine ⟨fun h => absurd h List.not_mem_nil, fun _ => ⟨tokens, rfl, ?_⟩⟩
    exact fun h => h.resolve_right List.not_mem_nil
  | succ n ih =>
    by_cases hne : str = []
    · rw [hne, items_nil, parse_loop_nil]
      refine ⟨fun h => absurd h List.not_mem_nil, fun _ => ⟨tokens, rfl, ?_⟩⟩
      exact fun h => h.resolve_right List.not_mem_nil
    by_cases hlast : (item str).1.last
    · rw [items_last hne n hlast] at hbad ⊢
      rcases hlast with hmalformed | hb
      · refine ⟨fun _ => parse_loop_malformed tokens hne n hmalformed, fun h => ?_⟩
        exact absurd (List.mem_singleton.2 hmalformed.symm) h
      · exact absurd (List.mem_singleton.2 hb.symm) hbad
    · obtain ⟨res, hnext, hres⟩ := next_token hne hlast
      rw [items_cons hne n hlast] at hbad hchain ⊢
      obtain ⟨hbeside, hchain⟩ := List.isChain_cons_cons.1 hchain
      obtain ⟨new, hadd, hends, hnone⟩ := add_token_beside hi hres hbeside
      rw [parse_loop_add hne n hnext hadd]
      obtain ⟨hm, hok⟩ := ih (rest_le hne hn hlast) hends (fun h => hbad (List.mem_cons_of_mem _ h)) hchain
      constructor
      · intro h
        exact hm (List.mem_of_ne_of_mem (fun heq => hlast (.inl heq.symm)) h)
      · intro h
        obtain ⟨all, hall, hmem⟩ := hok fun hmem => h (List.mem_cons_of_mem _ hmem)
        refine ⟨all, hall, fun hor => hmem ?_⟩
        rcases hor with hor | hor
        · exact .inl (hnone (.inl hor))
        · rcases List.mem_cons.1 hor with heq | hor
          · exact .inl (hnone (.inr heq.symm))
          · exact .inr hor

/-! ## The loop and the reference -/

theorem push_new {ps : List Piece} {p : Piece} (h : (∀ a, ps.getLast? ≠ some (.literal a)) ∨ ∀ a, p ≠ .literal a) :
    push ps p = ps ++ [p] := by
  unfold push
  split
  · rename_i a b hlast
    rcases h with h | h
    · exact absurd hlast (h _)
    · exact absurd rfl (h _)
  · rfl

theorem push_literal {ps : List Piece} {a : Str} (h : ps.getLast? = some (.literal a)) (b : Str) :
    push ps (.literal b) = ps.dropLast ++ [.literal (a ++ b)] := by
  unfold push
  rw [h]

theorem push_push (ps : List Piece) (a b : Str) : push (push ps (.literal a)) (.literal b) = push ps (.literal (a ++ b)) := by
  by_cases h : ∃ l, ps.getLast? = some (.literal l)
  · obtain ⟨l, hl⟩ := h
    rw [push_literal hl, push_literal hl, push_literal List.getLast?_concat, List.dropLast_concat, List.append_assoc]
  · have hnone : ∀ l, ps.getLast? ≠ some (.literal l) := fun l hl => h ⟨l, hl⟩
    rw [push_new (.inl hnone), push_new (.inl hnone), push_literal List.getLast?_concat, List.dropLast_concat]

/-- the characters of a text, one after the other, are pushed as the text -/
theorem push_text {cs : Str} (hne : cs ≠ []) (ps : List Piece) :
    (cs.map fun c => Piece.literal [c]).foldl push ps = push ps (.literal cs) := by
  obtain ⟨c, t, rfl⟩ := List.exists_cons_of_ne_nil hne
  have hbehind : ∀ (t a : Str), (t.map fun c => Piece.literal [c]).foldl push (push ps (.literal a)) =
      push ps (.literal (a ++ t)) := by
    intro t
    induction t with
    | nil =>
      intro a
      rw [List.append_nil]
      rfl
    | cons d t ih =>
      intro a
      rw [List.map_cons, List.foldl_cons, push_push, ih, List.append_assoc]
      rfl
  exact hbehind t [c]

/-- a token is added as its piece is pushed -/
theorem add_token_push (ps : List Piece) (p : Piece) : add_token (ps.map Piece.token) p.token = some ((push ps p).map Piece.token) := by
  have hlast : (ps.map Piece.token).getLast? = ps.getLast?.map Piece.token := List.getLast?_map
  by_cases h : (∃ a, ps.getLast? = some (.literal a)) ∧ ∃ b, p = .literal b
  · obtain ⟨⟨a, ha⟩, b, rfl⟩ := h
    rw [ha] at hlast
    rw [push_literal ha, List.map_append, List.map_dropLast]
    exact add_token_literal hlast
  · rw [push_new, List.map_append]
    · apply add_new
      by_cases hp : ∃ b, p = .literal b
      · left
        intro a ha
        rw [hlast] at ha
        obtain ⟨q, hq, htoken⟩ := Option.map_eq_some_iff.1 ha
        cases q with
        | literal l => exact h ⟨⟨l, hq⟩, hp⟩
        | «variable» name params => cases htoken
      · right
        intro a ha
        cases p with
        | literal b => exact hp ⟨b, rfl⟩
        | «variable» name params => cases ha
    · by_cases hp : ∃ b, p = .literal b
      · exact .inl fun a ha => h ⟨⟨a, ha⟩, hp⟩
      · exact .inr fun b hb => hp ⟨b, hb⟩

/-- an item without a reference decoding -/
theorem units_none {n : ℕ} {str : Str} (h : .trailing ∈ items n str ∨ .extra ∈ items n str) : all_units str = none := by
  induction n generalizing str with
  | zero =>
    rcases h with h | h
    · cases h
    · cases h
  | succ n ih =>
    by_cases hne : str = []
    · rw [hne, items_nil] at h
      rcases h with h | h
      · cases h
      · cases h
    have hreads := item_reads hne
    by_cases hlast : (item str).1.last
    · rw [items_last hne n hlast] at h
      rcases h with h | h
      · rw [← List.mem_singleton.1 h] at hreads
        exact hreads.2
      · rw [← List.mem_singleton.1 h] at hreads
        exact hreads.2
    · rw [items_cons hne n hlast, List.mem_cons, List.mem_cons] at h
      unfold Item.last at hlast
      have hrest : (item str).1 ≠ .trailing → (item str).1 ≠ .extra → all_units (str.drop (item str).2) = none := by
        intro htrailing hextra
        apply ih
        exact h.imp (fun h => h.resolve_left htrailing.symm) fun h => h.resolve_left hextra.symm
      generalize item str = r at hlast hreads hrest
      obtain ⟨j, len⟩ := r
      dsimp only at hrest
      cases j with
      | text =>
        obtain ⟨cs, -, -, hunits⟩ := hreads
        rw [hunits, hrest (by decide) (by decide)]
        rfl
      | var =>
        obtain ⟨name, params, -, hunits⟩ := hreads
        rw [hunits, hrest (by decide) (by decide)]
        rfl
      | hex =>
        obtain ⟨-, c, hunits⟩ := hreads
        rw [hunits, hrest (by decide) (by decide)]
        rfl
      | trailing => exact hreads.2
      | extra => exact hreads.2
      | malformed => exact absurd (.inl rfl) hlast
      | bad => exact absurd (.inr rfl) hlast

/-- **The tokens are the reference decoding**, for texts and variables only. -/
theorem loop_reference {n : ℕ} {str : Str} (ps : List Piece) (hn : str.length ≤ n)
    (h : ∀ j ∈ items n str, j = .text ∨ j = .var) : ∃ us, all_units str = some us ∧
      parse_loop n (ps.map Piece.token) str = .instring ((us.foldl push ps).map Piece.token) := by
  induction n generalizing str ps with
  | zero =>
    rw [List.length_eq_zero_iff.1 (Nat.le_zero.1 hn)]
    exact ⟨[], rfl, rfl⟩
  | succ n ih =>
    by_cases hne : str = []
    · rw [hne]
      exact ⟨[], rfl, rfl⟩
    have hlast : ¬ (item str).1.last := by
      intro hlast
      rw [items_last hne n hlast] at h
      have hone := h _ List.mem_cons_self
      rcases hlast with hl | hl
      · rw [hl] at hone
        exact absurd hone (by decide)
      · rw [hl] at hone
        exact absurd hone (by decide)
    rw [items_cons hne n hlast] at h
    have hread : ∀ (p : Piece) (vs : List Piece), vs.foldl push ps = push ps p →
        next_match str = .token p.token (item str).2 →
        all_units str = (all_units (str.drop (item str).2)).map (vs ++ ·) →
        ∃ us, all_units str = some us ∧
          parse_loop (n + 1) (ps.map Piece.token) str = .instring ((us.foldl push ps).map Piece.token) := by
      intro p vs hvs hnext hunits
      obtain ⟨us, hus, hloop⟩ := ih (push ps p) (rest_le hne hn hlast) fun j hj => h j (List.mem_cons_of_mem _ hj)
      refine ⟨vs ++ us, ?_, ?_⟩
      · rw [hunits, hus]
        rfl
      · rw [parse_loop_add hne n hnext (add_token_push ps p), hloop, List.foldl_append, hvs]
    have hreads := item_reads hne
    rcases h _ List.mem_cons_self with htext | hvar
    · rw [htext] at hreads
      obtain ⟨cs, hcs, hnext, hunits⟩ := hreads
      exact hread (.literal cs) _ (push_text hcs ps) hnext hunits
    · rw [hvar] at hreads
      obtain ⟨name, params, hnext, hunits⟩ := hreads
      exact hread (.variable name params) [.variable name params] rfl hnext hunits

/-- **What the tokens are.** Reading ends with the reference decoding of the text, or with an error, exactly when the text is
readable. -/
theorem decoded_iff (valtype : ValType) (raw : Str) (h : valtype = .value ∨ valtype = .string '"') :
    Decoded raw (parse valtype raw) ↔ Readable raw := by
  have hparse : parse valtype raw = parse_loop raw.length [] raw := by
    unfold parse
    rcases h with rfl | rfl
    · rw [if_neg (by decide), if_neg (by decide)]
    · rw [if_neg (by decide), if_neg (by decide)]
  rw [hparse]
  have hempty : Ends [] .var := fun a ha => by cases ha
  have hchain_iff : (Item.var :: items raw.length raw).IsChain Beside ↔ (items raw.length raw).IsChain Beside := by
    constructor
    · exact fun hchain => hchain.of_cons
    · intro hchain
      apply hchain.cons
      intro j hj hliteral
      exact absurd hliteral Bool.false_ne_true
  have hdecoding : decoding raw = (all_units raw).map merge := rfl
  constructor
  · intro hdecoded
    have hbad : .bad ∉ items raw.length raw := fun hbad => hdecoded.no_raise (loop_raise le_rfl hempty (.inl hbad))
    have hchain : (Item.var :: items raw.length raw).IsChain Beside := by
      by_contra hchain
      exact hdecoded.no_raise (loop_raise le_rfl hempty (.inr hchain))
    obtain ⟨-, hok⟩ := loop_read le_rfl hempty hbad hchain
    refine ⟨hbad, hchain_iff.1 hchain, ?_⟩
    by_cases hmalformed : .malformed ∈ items raw.length raw
    · exact .inl hmalformed
    · obtain ⟨new, hnew, hnone⟩ := hok hmalformed
      obtain ⟨ps, hps, htokens⟩ := hdecoded.tokens new hnew
      have hunits : all_units raw ≠ none := by
        intro hunits
        rw [hdecoding, hunits] at hps
        cases hps
      refine .inr ⟨fun hhex => ?_, fun ht => hunits (units_none (.inl ht)), fun he => hunits (units_none (.inr he))⟩
      -- a token without a value is of no piece
      have hmem := hnone (.inr hhex)
      rw [htokens] at hmem
      obtain ⟨p, -, hp⟩ := List.mem_map.1 hmem
      cases p with
      | literal a => cases hp
      | «variable» name params => cases hp
  · rintro ⟨hbad, hchain, hlast⟩
    obtain ⟨herror, hok⟩ := loop_read le_rfl hempty hbad (hchain_iff.2 hchain)
    by_cases hmalformed : .malformed ∈ items raw.length raw
    · obtain ⟨err, herr⟩ := herror hmalformed
      rw [herr]
      exact ⟨fun h => (by cases h), fun tokens h => (by cases h), fun _ => ⟨err, rfl⟩⟩
    · obtain ⟨hhex, htrailing, hextra⟩ := hlast.resolve_left hmalformed
      have hitems : ∀ j ∈ items raw.length raw, j = .text ∨ j = .var := by
        intro j hj
        cases j with
        | text => exact .inl rfl
        | var => exact .inr rfl
        | hex => exact absurd hj hhex
        | trailing => exact absurd hj htrailing
        | extra => exact absurd hj hextra
        | malformed => exact absurd hj hmalformed
        | bad => exact absurd hj hbad
      obtain ⟨us, hunits, hloop⟩ := loop_reference [] le_rfl hitems
      rw [List.map_nil] at hloop
      rw [hloop]
      refine ⟨fun h => (by cases h), ?_, ?_⟩
      · intro tokens h
        refine ⟨merge us, ?_, (Result.instring.inj h).symm⟩
        rw [hdecoding, hunits]
        rfl
      · intro hnone
        rw [hdecoding, hunits] at hnone
        cases hnone

/-- a text with an escape, and a variable with a parameter -/
theorem decoded_text : Decoded "a\\n$b[x]c".toList (parse .value "a\\n$b[x]c".toList) :=
  (decoded_iff .value _ (.inl rfl)).2 (by decide)

/-- **A decimal escape raises**: the string of `Token.escape` is indexed as a token. -/
theorem decimal_raises : parse .value "\\65".toList = .raise ∧ decoding "\\65".toList = some [.literal "A".toList] := by decide

end Shuttlesock.InstringParse
