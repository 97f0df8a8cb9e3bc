/-
The data of a configuration (`config.lua`, `instring.lua`): handlers, settings with their blocks, instrings, and paths.

Model: a handler is what `register_setting` keeps, with the parts of the setting checked and parsed. A value is a table that
several lists can hold, so that a list of values holds references. An instring is its tokens; a literal loses its value when
it is a hexadecimal escape of its own. No two literals are adjacent: `Instring.parse` and every change of an instring join
them, and `Instring` carries that.
- `written` is the module that stands in the text, `assigned` the one that `handle` adds. The values of an injected default
  are nil.
- A block has the variables of its `set` settings.
- A path depends on names only, so that the caches of paths and of their parts are left out.
-/
import Mathlib.Tactic
import Shuttlesock.Config.MatchPath

namespace Shuttlesock.Settings

open Shuttlesock.MatchPath

/-! ## Instrings -/

inductive Token where
  | literal (value : Option Str)
  | var (name : Str) (params : List Str)
deriving DecidableEq

def Token.isLiteral : Token → Bool
  | .literal _ => true
  | .var _ _ => false

/-- no two literals in a row -/
def Joined (tokens : List Token) : Prop := tokens.IsChain fun t u => ¬ (t.isLiteral ∧ u.isLiteral)

instance (tokens : List Token) : Decidable (Joined tokens) :=
  inferInstanceAs (Decidable (tokens.IsChain fun t u => ¬ (t.isLiteral ∧ u.isLiteral)))

structure Instring where
  tokens : List Token
  joined : Joined tokens
deriving DecidableEq

/-! ## Handlers -/

/-- a table with strings for keys -/
def lookup {α : Type} (table : List (Str × α)) (key : Str) : Option α := (table.find? (·.1 = key)).map Prod.snd

/-- `handler.block`: false, true or `"optional"` -/
inductive BlockKind where
  | never
  | always
  | optional
deriving DecidableEq

structure Handler where
  module_name : Str
  name : Str
  aliases : List Str
  path : Str
  nargs_min : ℕ
  nargs_max : ℕ
  block : BlockKind
  default_values : Option (List ℕ)
deriving DecidableEq

/-- a name with its module -/
def qualify (module_name name : Str) : Str := module_name ++ ':' :: name

def Handler.full_name (h : Handler) : Str := qualify h.module_name h.name

/-! ## Settings -/

structure Head where
  name : Str
  written : Option Str
  assigned : Option Str
  values : Option (List ℕ)
  default : Bool
  handled_by : Option Str
deriving DecidableEq

inductive Setting where
  | leaf (h : Head)
  | block (h : Head) (vars : List (Str × Instring)) (settings : List Setting)

def Setting.head : Setting → Head
  | .leaf h => h
  | .block h _ _ => h

def Head.full_name (h : Head) : Option Str := h.written.map fun m => qualify m h.name

/-- `setting.module` -/
def Head.module_name (h : Head) : Option Str := h.written.or h.assigned

/-- `setting.full_name or setting.name` -/
def Head.path_part (h : Head) : Str := h.full_name.getD h.name

/-! ## Paths -/

/-- `get_path` of the block of a setting that has this path -/
def block_path (path : Str) (h : Head) : Str :=
  if path.getLast? = some '/' then path ++ h.path_part else path ++ '/' :: h.path_part

/-- `Config.match_path` of a setting or block with this path, and a pattern -/
def path_matches (path pattern : Str) : Bool := (match_path ⟨path, none⟩ ⟨pattern, none⟩).1

theorem lookup_some {α : Type} {l : List (Str × α)} {key : Str} {a : α} (h : lookup l key = some a) : (key, a) ∈ l := by
  obtain ⟨⟨k, b⟩, hfind, rfl⟩ := Option.map_eq_some_iff.1 h
  have hkey : k = key := by simpa using List.find?_some hfind
  exact hkey ▸ List.mem_of_find?_eq_some hfind

theorem lookup_none {α : Type} {l : List (Str × α)} {key : Str} (h : lookup l key = none) : key ∉ l.map Prod.fst := by
  intro hmem
  obtain ⟨⟨k, b⟩, hin, rfl⟩ := List.mem_map.1 hmem
  have hnone := List.find?_eq_none.1 (Option.map_eq_none_iff.1 h) _ hin
  exact hnone (decide_eq_true rfl)

end Shuttlesock.Settings
