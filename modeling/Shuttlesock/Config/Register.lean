/-
Registering settings and variables: `config:register_setting` and `config:register_variable` of `config.lua`, with the tables as
they are left when a call fails.

Model: the fields of a description are Lua values, `Field`; of a table only what the aliases are read from is kept, its entries in
the order of `pairs`. The texts of values that Lua makes up (addresses, floats) come with the value. A call returns what it is
for, nil and an error, or raises, and leaves `Tables` behind.
- A missing description of a setting is no failure: its message is dropped.
- The name of the parser of a default value is left out of its error.
- The assertions on the types of a variable's fields are types here, and `match_prefix`, which nothing reads, is left out.
- The names of a variable are keys of a table: `order` is the order in which `pairs` has them.

Results:
- `insert_aliases_none`, `insert_names_ok`: when nothing collides.
- `atomic_iff`: the exact conditions for failed calls to leave the tables as they were.
- `half_registered`: a setting with an alias that is taken.
-/
import Mathlib.Tactic
import Shuttlesock.Config.Handle
import Shuttlesock.Config.Parser
import Shuttlesock.Instring.Parse

namespace Shuttlesock.Register

open Shuttlesock.Settings (Handler BlockKind Res Registry lookup lookup_none alias_full_name)
open Shuttlesock.Parser (Str isspace)

/-! ## Descriptions of settings -/

inductive Field where
  | nil
  | boolean (b : Bool)
  | integer (i : ℤ)
  | float (text : Str)
  | string (s : Str)
  /-- the text of a key that is a number, the value if it is a string -/
  | table (text : Str) (entries : List (Option Str × Option Str))
  | function (text : Str)
  | userdata (text : Str)

def Field.type : Field → String
  | .nil => "nil"
  | .boolean _ => "boolean"
  | .integer _ => "number"
  | .float _ => "number"
  | .string _ => "string"
  | .table _ _ => "table"
  | .function _ => "function"
  | .userdata _ => "userdata"

def Field.tostring : Field → String
  | .nil => "nil"
  | .boolean b => if b then "true" else "false"
  | .integer i => toString i
  | .float text => String.ofList text
  | .string s => String.ofList s
  | .table text _ => String.ofList text
  | .function text => String.ofList text
  | .userdata text => String.ofList text

/-- nil or false -/
def Field.falsy : Field → Bool
  | .nil => true
  | .boolean b => !b
  | _ => false

structure Description where
  name : Field
  aliases : Field
  path : Field
  nargs : Field
  block : Field
  default : Field
  handler : Field
  internal_handler : Field

/-! ## Checks -/

section
variable (module_name : Str) (setting : Description)

def failmsg (msg : String) : String :=
  s!"module {String.ofList module_name} setting \"{setting.name.tostring}\" {msg}"

/-- the second form of `failmsg` -/
def failtype (field_name field_type : String) (field : Field) : String :=
  failmsg module_name setting s!"field '{field_name}' must be of type {field_type}, but was {field.type}"

/-- `^[%w_%.]+$` -/
def isname (s : Str) : Bool := s ≠ [] && s.all fun c => c.isAlphanum || c == '_' || c == '.'

def check_name : Res Str :=
  match setting.name with
  | .string s => if isname s then .ok s else .error (failmsg module_name setting "name contains invalid characters")
  | f => .error (failtype module_name setting "name" "string" f)

/-- `gmatch("[^%s]+")` -/
def words (s : Str) : List Str := (s.splitOnP isspace).filter (· ≠ [])

def check_alias (alias_name : Str) : Res Str :=
  if isname alias_name then .ok alias_name
  else .error (failmsg module_name setting s!"alias \"{String.ofList alias_name}\" is invalid")

/-- the loop over the aliases -/
def check_entries : List (Option Str × Option Str) → Res (List Str)
  | [] => .ok []
  | (none, _) :: _ => .error (failmsg module_name setting "field 'aliases' must be a number-indexed table")
  | (some k, none) :: _ =>
    .error (failmsg module_name setting s!"field 'aliases' at index {String.ofList k} is not a string")
  | (some _, some v) :: entries =>
    (check_alias module_name setting v).bind fun alias_name => (check_entries entries).bind fun aliases =>
      .ok (alias_name :: aliases)

def check_aliases : Res (List Str) :=
  if setting.aliases.falsy then .ok []
  else
    match setting.aliases with
    | .string s => check_entries module_name setting ((words s).map fun v => (some [], some v))
    | .table _ entries => check_entries module_name setting entries
    | f => .error (failtype module_name setting "aliases" "table" f)

/-- `[%w%:_%.%/%*%(%)%|]` -/
def pathchar (c : Char) : Bool := c.isAlphanum || c ∈ [':', '_', '.', '/', '*', '(', ')', '|']

def check_path : Res Str :=
  match setting.path with
  | .string s =>
    if ['/', '/'] <:+: s ∨ s.all pathchar = false then .error (failmsg module_name setting "path \"%s\" is invalid")
    else .ok (if s.getLast? = some '/' ∧ 1 < s.length then s.dropLast else s)
  | f => .error (failtype module_name setting "path" "string" f)

/-- `^(%d+)%s*..%s*(%d+)$`, with what separates the numbers -/
def number_range (separator s : Str) : Option (ℕ × ℕ) :=
  let digits := s.takeWhile Char.isDigit
  let rest := (s.drop digits.length).dropWhile isspace
  let last := (rest.drop separator.length).dropWhile isspace
  if digits ≠ [] ∧ separator.isPrefixOf rest ∧ last ≠ [] ∧ last.all Char.isDigit then
    some (InstringParse.decimal digits, InstringParse.decimal last)
  else none

def number_string (s : Str) : Option (ℕ × ℕ) :=
  (number_range ['-'] s).or ((number_range ['.', '.'] s).or
    (if s ≠ [] ∧ s.all Char.isDigit then some (InstringParse.decimal s, InstringParse.decimal s) else none))

def check_range (args_min args_max : ℤ) : Res (ℕ × ℕ) :=
  if args_max < args_min then
    .error (failmsg module_name setting "field 'nargs' minimum must be smaller or equal to maximum")
  else if args_min < 0 then .error (failmsg module_name setting "field 'nargs' minimum must be non-negative")
  else if args_max < 0 then .error (failmsg module_name setting "field 'nargs' maximum must be non-negative")
  else .ok (args_min.toNat, args_max.toNat)

/-- a number from 2^63 on is no integer; what is neither a number nor a string has no `match` -/
def check_nargs : Res (ℕ × ℕ) :=
  if setting.nargs.falsy then .ok (1, 1)
  else
    match setting.nargs with
    | .float _ => .error (failmsg module_name setting "field 'nargs' must be an integer, but it's a float")
    | .integer i => check_range module_name setting i i
    | .string s =>
      match number_string s with
      | some (args_min, args_max) =>
        if 2 ^ 63 ≤ args_min ∨ 2 ^ 63 ≤ args_max then .error (failmsg module_name setting "field 'nargs' is invalid")
        else check_range module_name setting args_min args_max
      | none => .error (failmsg module_name setting "field 'nargs' is invalid")
    | _ => .raise

def check_block : Res BlockKind :=
  if setting.block.falsy then .ok .never
  else
    match setting.block with
    | .boolean _ => .ok .always
    | .string ['o', 'p', 't', 'i', 'o', 'n', 'a', 'l'] => .ok .optional
    | f =>
      let text := f.tostring
      .error (failmsg module_name setting
        s!"field 'block' must be boolean, nil, or the string \"optional\", but is \"{text}\"")

/-- how `Instring.parse` sees a value of the parser -/
def instring_of_value (v : Parser.Value) : InstringParse.Result :=
  match v.type, v.quote_char with
  | .string, some quote_char => InstringParse.parse (.string quote_char) v.raw
  | .var, _ => InstringParse.parse .variable v.raw
  | _, _ => InstringParse.parse .value v.raw

/-- the instrings of the default values, the i-th and those after it -/
def check_values : ℕ → List Parser.Value → Res Unit
  | _, [] => .ok ()
  | i, v :: values =>
    match instring_of_value v with
    | .instring _ => check_values (i + 1) values
    | .error err => .error (failmsg module_name setting s!"default setting value {i} invalid: {err}")
    | .raise => .raise

/-- the first setting of a parsed default -/
def first_head : Parser.Setting → Option Parser.Head
  | .block _ (.leaf h :: _) => some h
  | .block _ (.block h _ :: _) => some h
  | _ => none

def check_default (name : Str) : Res (Option (List ℕ)) :=
  if setting.default.falsy then .ok none
  else
    match setting.default with
    | .string s =>
      match Parser.parse (name ++ ' ' :: s ++ [';']) with
      | .root root values =>
        match first_head root with
        | none => .raise
        | some h => (check_values module_name setting 1 (h.values.filterMap (values[·]?))).bind fun _ => .ok (some h.values)
      | .error err => .error (failmsg module_name setting s!"default string invalid: {err}")
      | _ => .raise
    | f => .error (failtype module_name setting "default" "string" f)

def check_function (field_name : String) (f : Field) : Res Unit :=
  if f.falsy then .ok ()
  else
    match f with
    | .function _ => .ok ()
    | f => .error (failtype module_name setting field_name "function" f)

/-- the handler of a description that passes all checks -/
def check : Res Handler :=
  (check_name module_name setting).bind fun name =>
  (check_aliases module_name setting).bind fun aliases =>
  (check_path module_name setting).bind fun path =>
  (check_nargs module_name setting).bind fun nargs =>
  (check_block module_name setting).bind fun block =>
  (check_default module_name setting name).bind fun default_values =>
  (check_function module_name setting "handler" setting.handler).bind fun _ =>
  (check_function module_name setting "internal_handler" setting.internal_handler).bind fun _ =>
    .ok ⟨module_name, name, aliases, path, nargs.1, nargs.2, block, default_values⟩

end

/-! ## Variables -/

structure Var where
  name : Str
  path : Str
  module_name : Str
  aliases : List Str
  eval : ℕ
  privdata : Option ℕ
deriving DecidableEq

/-- `variables.name` or `variables.prefix_match`: of every index, the variables by their ids -/
abbrev VarTable := List (Str × List (Str × Var))

structure Tables where
  handlers : List (Str × Handler)
  handlers_any_module : List Handler
  name : VarTable
  prefix_match : VarTable

/-! ## register_setting -/

/-- the loop over the aliases: the one that is taken, and the table -/
def insert_aliases (handler : Handler) : List Str → List (Str × Handler) → Option Str × List (Str × Handler)
  | [], l => (none, l)
  | alias_name :: aliases, l =>
    if (lookup l (alias_full_name handler alias_name)).isSome then (some alias_name, l)
    else insert_aliases handler aliases (l ++ [(alias_full_name handler alias_name, handler)])

def insert_handler (t : Tables) (module_name : Str) (setting : Description) (handler : Handler) : Res Handler × Tables :=
  if (lookup t.handlers handler.full_name).isSome then
    (.error (failmsg module_name setting "has already been registered"), t)
  else
    match insert_aliases handler handler.aliases (t.handlers ++ [(handler.full_name, handler)]) with
    | (some alias_name, l) =>
      let full_name := String.ofList (alias_full_name handler alias_name)
      (.error (failmsg module_name setting s!"aliased as \"{full_name}\" already exists"), { t with handlers := l })
    | (none, l) => (.ok handler, { t with handlers := l, handlers_any_module := t.handlers_any_module ++ [handler] })

def register_setting (t : Tables) (module_name : Str) (setting : Description) : Res Handler × Tables :=
  match check module_name setting with
  | .ok handler => insert_handler t module_name setting handler
  | .error err => (.error err, t)
  | .raise => (.raise, t)

/-! ## register_variable -/

/-- `var.aliases`: nothing, a string, a table with what is no string in it as none, or something else -/
inductive Aliases where
  | nil
  | string (s : Str)
  | table (l : List (Option Str))
  | other (type : String)

structure VarDescription where
  name : Str
  path : Str
  aliases : Aliases
  eval : ℕ
  privdata : Option ℕ

def alias_list : Aliases → Option (List (Option Str))
  | .nil => some []
  | .string s => some ((words s).map some)
  | .table l => some l
  | .other _ => none

/-- `^([%w%_]+)(%*?)$`: the name, and whether it is a prefix -/
def starred (varname : Str) : Option (Str × Bool) :=
  let name := varname.takeWhile fun c => c.isAlphanum || c == '_'
  if name = [] then none
  else if varname.drop name.length = [] then some (name, false)
  else if varname.drop name.length = ['*'] then some (name, true)
  else none

/-- `var_match_index` -/
def match_index (n : Str × Bool) : Str := if n.2 then '^' :: n.1 ++ "([%w%_]*)".toList else n.1

/-- `var_id` -/
def var_id (module_name : Str) (n : Str × Bool) : Str :=
  '$' :: module_name ++ ':' :: n.1 ++ if n.2 then ['*'] else []

/-- the table that a name goes into -/
def Tables.vars (t : Tables) (prefixed : Bool) : VarTable := if prefixed then t.prefix_match else t.name

def Tables.setVars (t : Tables) (prefixed : Bool) (vars : VarTable) : Tables :=
  if prefixed then { t with prefix_match := vars } else { t with name := vars }

/-- `vars[var_match_index][var_id]` -/
def VarTable.get (vars : VarTable) (index id : Str) : Option Var := (lookup vars index).bind fun l => lookup l id

/-- `vars[var_match_index][var_id] = var`, in a table that is made when there is none -/
def VarTable.set (vars : VarTable) (index id : Str) (var : Var) : VarTable :=
  if (lookup vars index).isSome then vars.map fun p => if p.1 = index then (p.1, p.2 ++ [(id, var)]) else p
  else vars ++ [(index, [(id, var)])]

/-- the name is taken -/
def Tables.taken (t : Tables) (module_name : Str) (n : Str × Bool) : Bool :=
  ((t.vars n.2).get (match_index n) (var_id module_name n)).isSome

/-- the type of a name in `all_names`; an alias takes the place of the name -/
def nametype (var : Var) (varname : Str) : String := if var.aliases.contains varname then "alias" else "name"

/-- the loop over the names; what is no string has no `match` -/
def insert_names (var : Var) : List (Option Str) → Tables → Res Unit × Tables
  | [], t => (.ok (), t)
  | none :: _, t => (.raise, t)
  | some varname :: names, t =>
    match starred varname with
    | none =>
      let type := nametype var varname
      (.error s!"Invalid variable {type} \"{String.ofList varname}\"", t)
    | some n =>
      if t.taken var.module_name n then
        let err := s!"Variable with name or alias '{String.ofList n.1}' is already registered by this module"
        (.error s!"{err} ({String.ofList var.module_name})", t)
      else insert_names var names (t.setVars n.2 ((t.vars n.2).set (match_index n) (var_id var.module_name n) var))

/-- the keys of `all_names` -/
def all_names (name : Str) (aliases : List (Option Str)) : List (Option Str) := (some name :: aliases).dedup

def Aliases.type : Aliases → String
  | .nil => "nil"
  | .string _ => "string"
  | .table _ => "table"
  | .other type => type

/-- the names of a description -/
def VarDescription.names (var : VarDescription) : List (Option Str) := all_names var.name ((alias_list var.aliases).getD [])

def register_variable (t : Tables) (module_name : Str) (var : VarDescription) (order : List (Option Str)) : Res Unit × Tables :=
  match alias_list var.aliases with
  | none =>
    let msg := s!"field 'aliases' must be of type table, but was {var.aliases.type}"
    (.error s!"module {String.ofList module_name} variable ${String.ofList var.name} {msg}", t)
  | some aliases =>
    insert_names ⟨var.name, var.path, module_name, aliases.filterMap id, var.eval, var.privdata⟩ order t

/-! ## The property -/

/-- a call that returns nil has left the tables as they were -/
def Unchanged {α : Type} (t : Tables) (r : Res α × Tables) : Prop := ∀ err, r.1 = .error err → r.2 = t

/-- **The condition** for a setting: its name is taken, or none of its aliases is -/
def SettingClear (t : Tables) (module_name : Str) (setting : Description) : Prop :=
  ∀ handler, check module_name setting = .ok handler → handler.full_name ∈ t.handlers.map Prod.fst ∨
    handler.aliases.Nodup ∧ ∀ a ∈ handler.aliases, alias_full_name handler a ∉ t.handlers.map Prod.fst

/-- a name that can be inserted -/
def Insertable (t : Tables) (module_name : Str) (varname : Option Str) : Prop :=
  ∃ v n, varname = some v ∧ starred v = some n ∧ t.taken module_name n = false

/-- a name that makes the call fail -/
def Refused (t : Tables) (module_name : Str) (varname : Option Str) : Prop :=
  ∃ v, varname = some v ∧ ∀ n, starred v = some n → t.taken module_name n = true

/-- **The condition** for a variable: not one of its names is refused while another one can be inserted -/
def VarClear (t : Tables) (module_name : Str) (var : VarDescription) : Prop :=
  (alias_list var.aliases).isSome → (∀ n ∈ var.names, ¬ Refused t module_name n) ∨ ∀ n ∈ var.names, ¬ Insertable t module_name n

/-! ## Settings -/

theorem lookup_isSome {α : Type} {l : List (Str × α)} {key : Str} : (lookup l key).isSome = true ↔ key ∈ l.map Prod.fst := by
  constructor
  · intro h
    obtain ⟨a, ha⟩ := Option.isSome_iff_exists.1 h
    exact List.mem_map_of_mem (Settings.lookup_some ha)
  · intro h
    by_contra hnone
    exact lookup_none (Option.not_isSome_iff_eq_none.1 hnone) h

theorem alias_full_name_inj {handler : Handler} {a b : Str} (h : alias_full_name handler a = alias_full_name handler b) : a = b := by
  unfold alias_full_name at h
  exact List.tail_eq_of_cons_eq (List.append_cancel_left h)

theorem alias_ne_full_name (handler : Handler) (a : Str) : alias_full_name handler a ≠ handler.full_name := by
  unfold alias_full_name Handler.full_name Settings.qualify
  intro h
  have hhead := List.head_eq_of_cons_eq (List.append_cancel_left h)
  revert hhead
  decide

theorem insert_aliases_grows (handler : Handler) (aliases : List Str) (l : List (Str × Handler)) :
    ∃ m, (insert_aliases handler aliases l).2 = l ++ m := by
  induction aliases generalizing l with
  | nil => exact ⟨[], (List.append_nil l).symm⟩
  | cons a aliases ih =>
    unfold insert_aliases
    split_ifs with h
    · exact ⟨[], (List.append_nil l).symm⟩
    · obtain ⟨m, hm⟩ := ih (l ++ [(alias_full_name handler a, handler)])
      exact ⟨_, hm.trans (List.append_assoc _ _ _)⟩

/-- no alias is taken -/
theorem insert_aliases_none (handler : Handler) (aliases : List Str) (l : List (Str × Handler)) :
    (insert_aliases handler aliases l).1 = none ↔
      aliases.Nodup ∧ ∀ a ∈ aliases, alias_full_name handler a ∉ l.map Prod.fst := by
  induction aliases generalizing l with
  | nil => simp [insert_aliases]
  | cons a aliases ih =>
    unfold insert_aliases
    split_ifs with h
    · rw [lookup_isSome] at h
      constructor
      · intro hnone
        cases hnone
      · intro hall
        exact absurd h (hall.2 a List.mem_cons_self)
    · rw [lookup_isSome] at h
      rw [ih, List.nodup_cons, List.map_append]
      constructor
      · rintro ⟨hnodup, hfree⟩
        refine ⟨⟨fun ha => hfree a ha (by simp), hnodup⟩, fun b hb => ?_⟩
        rcases List.mem_cons.1 hb with rfl | hb
        · exact h
        · exact fun hmem => hfree b hb (List.mem_append_left _ hmem)
      · rintro ⟨⟨ha, hnodup⟩, hfree⟩
        refine ⟨hnodup, fun b hb hmem => ?_⟩
        rcases List.mem_append.1 hmem with hmem | hmem
        · exact hfree b (List.mem_cons_of_mem _ hb) hmem
        · have heq : alias_full_name handler b = alias_full_name handler a := by simpa using hmem
          exact ha (alias_full_name_inj heq ▸ hb)

/-- with the tables of accepted settings: no alias is taken, and they are the ones after the call -/
theorem insert_aliases_eq {handler : Handler} {aliases : List Str} {l l' : List (Str × Handler)} :
    insert_aliases handler aliases l = (none, l') ↔ Settings.add_aliases l handler aliases = some l' := by
  unfold Settings.add_aliases
  induction aliases generalizing l with
  | nil => simp [insert_aliases]
  | cons a aliases ih =>
    unfold insert_aliases
    rw [List.foldlM_cons, Settings.add_key]
    split_ifs with h
    · simp
    · simpa using ih

/-- **A call that succeeds**, as the tables of accepted settings have it -/
theorem insert_handler_ok {t t' : Tables} {module_name : Str} {setting : Description} {handler : Handler} :
    insert_handler t module_name setting handler = (.ok handler, t') ↔
      Settings.register_setting ⟨t.handlers, t.handlers_any_module⟩ handler = some ⟨t'.handlers, t'.handlers_any_module⟩ ∧
        t'.name = t.name ∧ t'.prefix_match = t.prefix_match := by
  unfold insert_handler Settings.register_setting Settings.add_key
  split_ifs with h
  · simp
  · cases hinsert : insert_aliases handler handler.aliases (t.handlers ++ [(handler.full_name, handler)]) with
    | mk taken l =>
      cases taken with
      | none =>
        rw [Option.bind_some, insert_aliases_eq.1 hinsert]
        obtain ⟨handlers, any, name, prefix_match⟩ := t'
        simp only [Option.map_some, Option.some.injEq, Registry.mk.injEq, Prod.mk.injEq, Tables.mk.injEq, true_and]
        tauto
      | some a =>
        have hnone : Settings.add_aliases (t.handlers ++ [(handler.full_name, handler)]) handler handler.aliases = none := by
          by_contra hsome
          obtain ⟨l', hl'⟩ := Option.ne_none_iff_exists'.1 hsome
          rw [insert_aliases_eq.2 hl'] at hinsert
          cases hinsert
        simp [hnone]

/-- a setting -/
theorem setting_unchanged_iff (t : Tables) (module_name : Str) (setting : Description) :
    Unchanged t (register_setting t module_name setting) ↔ SettingClear t module_name setting := by
  unfold register_setting SettingClear
  cases check module_name setting with
  | error err => simp [Unchanged]
  | raise => simp [Unchanged]
  | ok handler =>
    simp only [Res.ok.injEq, forall_eq']
    unfold insert_handler
    split_ifs with hname
    · exact ⟨fun _ => .inl (lookup_isSome.1 hname), fun _ _ _ => rfl⟩
    · rw [lookup_isSome] at hname
      have hkeys : ∀ a, alias_full_name handler a ∉ (t.handlers ++ [(handler.full_name, handler)]).map Prod.fst ↔
          alias_full_name handler a ∉ t.handlers.map Prod.fst := by
        intro a
        simp [alias_ne_full_name]
      have hfree := insert_aliases_none handler handler.aliases (t.handlers ++ [(handler.full_name, handler)])
      simp only [hkeys] at hfree
      obtain ⟨m, hm⟩ := insert_aliases_grows handler handler.aliases (t.handlers ++ [(handler.full_name, handler)])
      cases hinsert : insert_aliases handler handler.aliases (t.handlers ++ [(handler.full_name, handler)]) with
      | mk taken l =>
        rw [hinsert] at hfree hm
        cases taken with
        | none => exact ⟨fun _ => .inr (hfree.1 rfl), fun _ err h => by cases h⟩
        | some a =>
          constructor
          · intro h
            -- the name of the setting is left in the table
            have hhandlers := congrArg Tables.handlers (h _ rfl)
            have hlength := congrArg List.length (hm.symm.trans hhandlers)
            simp at hlength
          · rintro (h | h)
            · exact absurd h hname
            · have hnone := hfree.2 h
              cases hnone

/-! ## Variables -/

variable {t : Tables} {module_name : Str} {n n' : Str × Bool} {var : Var}

theorem starred_eq {v : Str} (hv : starred v = some n) : v = n.1 ++ if n.2 then ['*'] else [] := by
  unfold starred at hv
  have hprefix := List.prefix_iff_eq_append.1 (List.takeWhile_prefix (l := v) fun c => c.isAlphanum || c == '_')
  dsimp only at hv
  split_ifs at hv with hname hend hstar
  · cases hv
    rw [hend] at hprefix
    exact hprefix.symm
  · cases hv
    rw [hstar] at hprefix
    exact hprefix.symm

theorem starred_inj {v w : Str} (hv : starred v = some n) (hw : starred w = some n) : v = w := by
  rw [starred_eq hv, starred_eq hw]

theorem match_index_inj (h2 : n.2 = n'.2) (h : match_index n = match_index n') : n = n' := by
  have h1 : n.1 = n'.1 := by
    unfold match_index at h
    rw [← h2] at h
    split_ifs at h
    · exact List.append_cancel_right (List.tail_eq_of_cons_eq h)
    · exact h
  exact Prod.ext h1 h2

theorem lookup_append {α : Type} (l m : List (Str × α)) (key : Str) :
    lookup (l ++ m) key = (lookup l key).or (lookup m key) := by
  unfold lookup
  rw [List.find?_append, Option.map_or]

theorem lookup_cons {α : Type} (p : Str × α) (l : List (Str × α)) (key : Str) :
    lookup (p :: l) key = if p.1 = key then some p.2 else lookup l key := by
  unfold lookup
  rw [List.find?_cons]
  by_cases h : p.1 = key
  · simp [h]
  · simp [h]

theorem lookup_map {α : Type} (l : List (Str × α)) (index key : Str) (f : α → α) :
    lookup (l.map fun p => if p.1 = index then (p.1, f p.2) else p) key =
      (lookup l key).map fun a => if key = index then f a else a := by
  induction l with
  | nil => rfl
  | cons p l ih =>
    rw [List.map_cons, lookup_cons, lookup_cons, ih]
    by_cases hindex : p.1 = index
    · by_cases hkey : p.1 = key
      · simp [hindex, ← hkey]
      · simp [hindex, show ¬ index = key from hindex ▸ hkey]
    · by_cases hkey : p.1 = key
      · simp [hkey, show ¬ key = index from hkey ▸ hindex]
      · simp [hindex, hkey]

/-- what is found after a variable was put in -/
theorem get_set (vars : VarTable) (index id : Str) (var : Var) (index' id' : Str) :
    ((vars.set index id var).get index' id').isSome = true ↔
      (vars.get index' id').isSome = true ∨ index' = index ∧ id' = id := by
  have hlast : ∀ l : List (Str × Var), (lookup (l ++ [(id, var)]) id').isSome = true ↔ (lookup l id').isSome = true ∨ id' = id := by
    intro l
    rw [lookup_append, lookup_cons]
    by_cases h : id = id'
    · simp [h]
    · simp [h, show ¬ id' = id from fun heq => h heq.symm, lookup]
  unfold VarTable.set VarTable.get
  split_ifs with hindex
  · obtain ⟨l, hl⟩ := Option.isSome_iff_exists.1 hindex
    rw [lookup_map vars index index' (· ++ [(id, var)])]
    by_cases heq : index' = index
    · simp only [heq, hl, Option.map_some, if_true, Option.bind_some, hlast, true_and]
    · cases lookup vars index' with
      | none => simp [heq]
      | some m => simp [heq]
  · rw [Bool.not_eq_true, Option.isSome_eq_false_iff, Option.isNone_iff_eq_none] at hindex
    rw [lookup_append, lookup_cons]
    by_cases heq : index' = index
    · rw [heq, hindex]
      simpa [lookup] using hlast []
    · cases lookup vars index' with
      | none => simp [lookup, show ¬ index = index' from fun h => heq h.symm, heq]
      | some m => simp [heq]

theorem vars_setVars (t : Tables) (b b' : Bool) (vars : VarTable) : (t.setVars b vars).vars b' = if b' = b then vars else t.vars b' := by
  cases b with
  | false => cases b' with
    | false => rfl
    | true => rfl
  | true => cases b' with
    | false => rfl
    | true => rfl

/-- the names that are taken after one was inserted -/
theorem taken_insert (t : Tables) (module_name : Str) (n n' : Str × Bool) (var : Var) :
    (t.setVars n.2 ((t.vars n.2).set (match_index n) (var_id module_name n) var)).taken module_name n' = true ↔
      t.taken module_name n' = true ∨ n' = n := by
  unfold Tables.taken
  rw [vars_setVars]
  split_ifs with htable
  · rw [get_set, htable]
    constructor
    · rintro (h | ⟨hindex, -⟩)
      · exact .inl h
      · exact .inr (match_index_inj htable hindex)
    · rintro (h | h)
      · exact .inl h
      · rw [h]
        exact .inr ⟨rfl, rfl⟩
  · constructor
    · exact .inl
    · rintro (h | h)
      · exact h
      · exact absurd (congrArg Prod.snd h) htable

/-- **No name is refused**: the call does not fail -/
theorem insert_names_ok {order : List (Option Str)} (hnodup : order.Nodup) (h : ∀ x ∈ order, ¬ Refused t var.module_name x) (err : String) :
    (insert_names var order t).1 ≠ .error err := by
  induction order generalizing t with
  | nil => exact fun herr => by cases herr
  | cons x order ih =>
    rw [List.nodup_cons] at hnodup
    cases x with
    | none => exact fun herr => by cases herr
    | some v =>
      unfold insert_names
      have hnot := h (some v) List.mem_cons_self
      cases hstar : starred v with
      | none =>
        have hrefused : Refused t var.module_name (some v) := ⟨v, rfl, fun n hn => by rw [hstar] at hn; cases hn⟩
        exact absurd hrefused hnot
      | some n =>
        dsimp only
        split_ifs with htaken
        · have hrefused : Refused t var.module_name (some v) := by
            refine ⟨v, rfl, fun n' hn' => ?_⟩
            rw [hstar] at hn'
            cases hn'
            exact htaken
          exact absurd hrefused hnot
        · apply ih hnodup.2
          rintro x hx ⟨w, rfl, hw⟩
          refine h (some w) (List.mem_cons_of_mem _ hx) ⟨w, rfl, fun n' hn' => ?_⟩
          rcases (taken_insert t var.module_name n n' var).1 (hw n' hn') with htaken' | rfl
          · exact htaken'
          · rw [starred_inj hstar hn'] at hnodup
            exact absurd hx hnodup.1

/-- no name can be inserted: the tables stay -/
theorem insert_names_same {order : List (Option Str)} (h : ∀ x ∈ order, ¬ Insertable t var.module_name x) :
    (insert_names var order t).2 = t := by
  cases order with
  | nil => rfl
  | cons x order =>
    cases x with
    | none => rfl
    | some v =>
      unfold insert_names
      cases hstar : starred v with
      | none => rfl
      | some n =>
        dsimp only
        split_ifs with htaken
        · rfl
        · exact absurd ⟨v, n, rfl, hstar, Bool.eq_false_iff.2 htaken⟩ (h (some v) List.mem_cons_self)

/-- one that can be inserted, and then one that is refused -/
theorem insert_names_half {x y : Option Str} {order : List (Option Str)} (hx : Insertable t var.module_name x)
    (hy : Refused t var.module_name y) : ¬ Unchanged t (insert_names var (x :: y :: order) t) := by
  obtain ⟨v, n, rfl, hv, hfree⟩ := hx
  obtain ⟨w, rfl, hw⟩ := hy
  intro hsame
  have hstep : ∃ err, insert_names var (some v :: some w :: order) t =
      (.error err, t.setVars n.2 ((t.vars n.2).set (match_index n) (var_id var.module_name n) var)) := by
    unfold insert_names
    simp only [hv, hfree, Bool.false_eq_true, if_false]
    unfold insert_names
    cases hstar : starred w with
    | none => exact ⟨_, rfl⟩
    | some n' =>
      have htaken := (taken_insert t var.module_name n n' var).2 (.inl (hw n' hstar))
      simp only [htaken, if_true]
      exact ⟨_, rfl⟩
  obtain ⟨err, hstep⟩ := hstep
  rw [hstep] at hsame
  have htaken := (taken_insert t var.module_name n n var).2 (.inr rfl)
  have htables := hsame err rfl
  dsimp only at htables
  rw [htables, hfree] at htaken
  cases htaken

/-- a variable -/
theorem variable_unchanged_iff (t : Tables) (module_name : Str) (var : VarDescription) :
    (∀ order, order.Perm var.names → Unchanged t (register_variable t module_name var order)) ↔ VarClear t module_name var := by
  unfold register_variable VarClear
  cases haliases : alias_list var.aliases with
  | none => simp [Unchanged]
  | some aliases =>
    have hnames : var.names.Nodup := List.nodup_dedup _
    simp only [Option.isSome_some, forall_true_left]
    constructor
    · intro h
      by_contra hnot
      push Not at hnot
      obtain ⟨⟨y, hy, hrefused⟩, x, hx, hinsert⟩ := hnot
      have hne : y ≠ x := by
        rintro rfl
        obtain ⟨v, n, rfl, hv, hfree⟩ := hinsert
        obtain ⟨w, hw, htaken⟩ := hrefused
        cases hw
        rw [htaken n hv] at hfree
        cases hfree
      have hperm : (x :: y :: (var.names.erase x).erase y).Perm var.names := by
        have hy' : y ∈ var.names.erase x := (List.mem_erase_of_ne hne).2 hy
        exact ((List.perm_cons_erase hy').symm.cons x).trans (List.perm_cons_erase hx).symm
      exact insert_names_half hinsert hrefused (h _ hperm)
    · rintro (h | h) order hperm err herr
      · refine absurd herr (insert_names_ok (hperm.nodup_iff.2 hnames) (fun x hx => ?_) err)
        exact h x (hperm.mem_iff.1 hx)
      · exact insert_names_same fun x hx => h x (hperm.mem_iff.1 hx)

/-- **Which failed calls leave the tables as they were** -/
theorem atomic_iff (t : Tables) (module_name : Str) (setting : Description) (var : VarDescription) :
    (Unchanged t (register_setting t module_name setting) ↔ SettingClear t module_name setting) ∧
    ((∀ order, order.Perm var.names → Unchanged t (register_variable t module_name var order)) ↔
      VarClear t module_name var) :=
  ⟨setting_unchanged_iff t module_name setting, variable_unchanged_iff t module_name var⟩

/-- `foo` with an alias, of nothing else -/
def foo (name : String) (aliases : Field) : Description :=
  ⟨.string name.toList, aliases, .string ['/'], .nil, .nil, .nil, .nil, .nil⟩

/-- a module with the setting `foo` and its alias `bar` -/
def one_setting : Tables := (register_setting ⟨[], [], [], []⟩ ['m'] (foo "foo" (.string "bar".toList))).2

/-- **A setting that is half registered**: the alias is taken, and the name stays in the table. -/
theorem half_registered :
    ¬ ∀ t module_name setting, Unchanged t (register_setting t module_name setting) := by
  intro h
  have hsame := h one_setting ['m'] (foo "baz" (.string "bar".toList)) _ rfl
  have hlength := congrArg (fun t => t.handlers.length) hsame
  revert hlength
  decide

end Shuttlesock.Register
