/-
The setting `include`: its handler in `config_settings` of `config.lua`, and `config:parse` up to it.

The handler starts with `setting.values[1].value.string`. The tables in `values` come from `add_value_to_setting`, which sets no field
`value`, so this indexes nil.

Model: `files` are the texts of the files that match a path, in order. `Inlined t t'` says that t' is t with its includes replaced,
one after the other, by these texts, until none is left. An include is a setting whose handler is the one of `config:include`, whoever
else registers an `include`; one with a heredoc is not replaced.
- `Behind` stands for what the handler does behind its first line, and `later` for what `config:parse` does behind the includes, with
  whatever is looked at in the tree that it leaves: defaults, instrings, `set`. Both are any functions.
- An error of `handle` fails the assertion around it.

Results:
- `parses_iff`: a configuration parses to the tree of its inlined text if and only if it has no include.
- `not_included`: an include of a file with one setting.
-/
import Mathlib.Tactic
import Shuttlesock.Config.Handle
import Shuttlesock.Config.ParserPrint

namespace Shuttlesock.Includes

open Shuttlesock.MatchPath
open Shuttlesock.Settings

/-! ## The handlers -/

/-- what a field of a value holds -/
inductive Field where
  | type (type : Parser.ValueType)
  | position
  | raw (raw : Str)
  | quote_char (c : Char)

/-- the table of a value -/
def fields (v : Parser.Value) : List (Str × Field) :=
  [(['t', 'y', 'p', 'e'], .type v.type), (['p', 'o', 's', 'i', 't', 'i', 'o', 'n'], .position), (['r', 'a', 'w'], .raw v.raw)] ++
    (v.quote_char.map fun c => (['q', 'u', 'o', 't', 'e', '_', 'c', 'h', 'a', 'r'], Field.quote_char c)).toList

abbrev Behind := Field → Call

/-- the handler of `include`, with the list of all values -/
def include_handler (behind : Behind) (values : List Parser.Value) (setting : Head) : Call :=
  match setting.values.bind fun l => l.head?.bind fun i => values[i]? with
  | none => .raise
  | some v =>
    match lookup (fields v) ['v', 'a', 'l', 'u', 'e'] with
    | none => .raise
    | some value => behind value

/-- `"config"` and `"include"` -/
def config_word : Str := ['c', 'o', 'n', 'f', 'i', 'g']

def include_word : Str := ['i', 'n', 'c', 'l', 'u', 'd', 'e']

/-- `include_path` and `include` of `config_settings` -/
def include_path_setting : Handler := ⟨config_word, include_word ++ ['_', 'p', 'a', 't', 'h'], [], [], 1, 1, .never, none⟩

def include_setting : Handler := ⟨config_word, include_word, [], [], 1, 1, .never, none⟩

def include_path_name : Str := include_path_setting.full_name

def include_name : Str := include_setting.full_name

/-- the handlers that are called before the defaults; the one of `include_path` returns true -/
def call (behind : Behind) (values : List Parser.Value) (handler : Handler) (setting : Head) : Call :=
  if handler.full_name = include_name then include_handler behind values setting else .ok

/-! ## Parsing -/

def to_head (h : Parser.Head) : Head := ⟨h.name, h.module_name, none, some h.values, false, none⟩

mutual

def to_setting : Parser.Setting → Setting
  | .leaf h => .leaf (to_head h)
  | .block h settings => .block (to_head h) [] (to_settings settings)

def to_settings : List Parser.Setting → List Setting
  | [] => []
  | setting :: settings => to_setting setting :: to_settings settings

end

/-- the settings in the block of the root -/
def root_settings : Parser.Setting → List Setting
  | .leaf _ => []
  | .block _ settings => to_settings settings

/-- `assert(..)` -/
def asserted {α : Type} : Res α → Res α
  | .error _ => .raise
  | res => res

variable {α : Type}

/-- `config:parse` -/
def config_parse (r : Registry) (behind : Behind) (later : List Setting → List Parser.Value → Res α) (str : Str) : Res α :=
  match Parser.parse str with
  | .root root values =>
    (asserted (handle r (call behind values) (some include_path_name) (root_settings root))).bind fun settings =>
      (asserted (handle r (call behind values) (some include_name) settings)).bind fun settings => later settings values
  | .error err => .error err
  | _ => .raise

/-! ## Inlining -/

/-- a setting of the text that is handled as an include -/
def IsInclude (r : Registry) (path : Str) (h : Head) : Prop :=
  h.default = false ∧ ∃ handler, find_handler_for_setting r path h = .ok handler ∧ handler.full_name = include_name

/-- **The condition**: no setting of the text is an include. -/
def NoInclude (r : Registry) (str : Str) : Prop :=
  ∀ root values, Parser.parse str = .root root values → Everywhere (fun path h _ => ¬ IsInclude r path h) ['/'] (root_settings root)

/-- the path of the settings in the innermost block -/
def stack_path : List Parser.Chunk → Str
  | .block _ _ _ :: .setting h _ :: stack => if stack = [] then ['/'] else block_path (stack_path stack) (to_head h)
  | _ => []

/-- one round of the parser, in a setting above the stack of this height -/
def Inside (height : ℕ) (s s' : Parser.State) : Prop := height < s.stack.length ∧ Parser.Reads s s'

/-- the text is an include with this path, with text around it -/
def IncludeAt (r : Registry) (str before path after : Str) : Prop :=
  ∃ s s₁ s₂ h first tokens settings stack v,
    Parser.Visits (Parser.new str) s ∧ Parser.In_block s ∧ Parser.next_token s = .token s₁ ∧
    Relation.ReflTransGen (Inside s.stack.length) s₁ s₂ ∧ s₂.heredoc = s.heredoc ∧
    s₂.stack = .block first tokens (settings ++ [.leaf h]) :: stack ∧ s₂.stack.length = s.stack.length ∧
    IsInclude r (stack_path s₂.stack) (to_head h) ∧ (h.values.head?.bind fun i => s₂.values[i]?) = some v ∧ v.raw = path ∧
    str.take (s.cur - 1) = before ∧ s₂.rest = after

/-- one include after the other is replaced by the files of its path -/
inductive Inlined (r : Registry) (files : Str → List Str) : Str → Str → Prop
  | done {str : Str} : NoInclude r str → Inlined r files str str
  | replace {str before path after str' : Str} : ¬ NoInclude r str → IncludeAt r str before path after →
    Inlined r files (before ++ (files path).flatten ++ after) str' → Inlined r files str str'

/-! ## The result -/

section Parses

variable {r : Registry} {behind : Behind} {values : List Parser.Value}

/-- a value has no field `value` -/
theorem lookup_value (v : Parser.Value) : lookup (fields v) ['v', 'a', 'l', 'u', 'e'] = none := by
  unfold fields
  cases v.quote_char <;> rfl

theorem include_handler_raises (h : Head) : include_handler behind values h = .raise := by
  unfold include_handler
  split
  · rfl
  · rw [lookup_value]

theorem handle_include_raises {path : Str} {h : Head} (hinc : IsInclude r path h) (b : Bool) :
    handle_setting r (call behind values) (some include_name) path h b = .raise := by
  obtain ⟨hdefault, handler, hfind, hname⟩ := hinc
  have hcall : call_handler (call behind values) handler h = .raise := by
    unfold call_handler call
    rw [hdefault, if_neg Bool.false_ne_true, if_pos hname, include_handler_raises]
  unfold handle_setting
  rw [hfind]
  dsimp only
  rw [if_pos (.inr (congrArg some hname.symm))]
  unfold handle_by
  rw [hcall]
  rfl

theorem everywhere_true {path : Str} : ∀ settings : List Setting, Everywhere (fun _ _ _ => True) path settings
  | [] => .nil
  | .leaf _ :: settings => .leaf trivial (everywhere_true settings)
  | .block _ _ inside :: settings => .block trivial (everywhere_true inside) (everywhere_true settings)

/-- what handling leaves of a setting -/
theorem handle_setting_kept {f : Handler → Head → Call} {name : Option Str} {path : Str} {h h' : Head} {b : Bool}
    (hok : handle_setting r f name path h b = .ok h') : h'.name = h.name ∧ h'.written = h.written ∧ h'.default = h.default := by
  unfold handle_setting at hok
  split at hok
  · split at hok
    · cases hok
    · cases hok
      exact ⟨rfl, rfl, rfl⟩
  · split at hok
    · obtain ⟨_, -, hok⟩ := Res.bind_ok hok
      obtain ⟨h₁, hassign, hok⟩ := Res.bind_ok hok
      obtain ⟨_, -, hok⟩ := Res.bind_ok hok
      obtain ⟨_, -, hok⟩ := Res.bind_ok hok
      cases hok
      obtain ⟨hname, hwritten, -, hdefault, -⟩ := assign_ok hassign
      exact ⟨hname, hwritten, hdefault⟩
    · cases hok
      exact ⟨rfl, rfl, rfl⟩

theorem isInclude_kept {path : Str} {h h' : Head} (hname : h'.name = h.name) (hwritten : h'.written = h.written)
    (hdefault : h'.default = h.default) : IsInclude r path h' ↔ IsInclude r path h := by
  unfold IsInclude find_handler_for_setting possible_handlers Head.full_name
  rw [hname, hwritten, hdefault]

theorem path_part_kept {h h' : Head} (hname : h'.name = h.name) (hwritten : h'.written = h.written) :
    h'.path_part = h.path_part := by
  unfold Head.path_part Head.full_name
  rw [hname, hwritten]

theorem asserted_ok {res : Res α} {a : α} (h : asserted res = .ok a) : res = .ok a := by
  cases res with
  | ok b => exact h
  | error err => cases h
  | raise => cases h

/-- **No configuration with an include is parsed.** -/
theorem noInclude_of_parsed {later : List Setting → List Parser.Value → Res α} {str : Str} {a : α}
    (hok : config_parse r behind later str = .ok a) : NoInclude r str := by
  intro root values hparse
  unfold config_parse at hok
  rw [hparse] at hok
  obtain ⟨settings, hpaths, hok⟩ := Res.bind_ok hok
  obtain ⟨settings', hincludes, -⟩ := Res.bind_ok hok
  have hafter : Everywhere (fun path h _ => ¬ IsInclude r path h) ['/'] settings := by
    refine ((handle_all_ok (asserted_ok hincludes)).everywhere_iff fun path h b h' hone => ?_).1 (everywhere_true settings')
    obtain ⟨hname, hwritten, -⟩ := handle_setting_kept hone
    refine ⟨⟨fun _ hinc => ?_, fun _ => trivial⟩, path_part_kept hname hwritten⟩
    rw [handle_include_raises hinc] at hone
    cases hone
  refine ((handle_all_ok (asserted_ok hpaths)).everywhere_iff fun path h b h' hone => ?_).1 hafter
  obtain ⟨hname, hwritten, hdefault⟩ := handle_setting_kept hone
  exact ⟨not_congr (isInclude_kept hname hwritten hdefault), path_part_kept hname hwritten⟩

/-- **The main result.** For every file system and every configuration whose inlined text parses: the configuration parses to the
same tree if and only if no setting of it is an include. -/
theorem parses_iff (r : Registry) (files : Str → List Str) (behind : Behind) (later : List Setting → List Parser.Value → Res α)
    (str inlined : Str) (hinlined : Inlined r files str inlined) (a : α) (hparse : config_parse r behind later inlined = .ok a) :
    config_parse r behind later str = .ok a ↔ NoInclude r str := by
  constructor
  · exact noInclude_of_parsed
  · intro hno
    cases hinlined with
    | done => exact hparse
    | replace hinc => exact absurd hno hinc

end Parses

/-! ## An include -/

/-- what `Config.new` registers, less the settings that no include uses -/
def registered : Registry :=
  ⟨[(include_path_name, include_path_setting), (include_name, include_setting)], [include_path_setting, include_setting]⟩

theorem register_config : register_settings [include_path_setting, include_setting] = some registered := rfl

/-- a file with one setting -/
def one_file (path : Str) : List Str := if path = ['x'] then [['a', ';']] else []

/-- the names of the settings in the root block -/
def names (settings : List Setting) (_ : List Parser.Value) : Res (List Str) := .ok (settings.map fun d => d.head.name)

/-- `include 'x';` -/
def one_include : Str := include_word ++ [' ', '\'', 'x', '\'', ';']

theorem noInclude_file : NoInclude registered ['a', ';'] := by
  intro root values hparse
  cases hparse
  refine .leaf (fun hinc => ?_) .nil
  obtain ⟨-, handler, hfind, -⟩ := hinc
  cases hfind

theorem include_found : IsInclude registered ['/'] ⟨include_word, none, none, some [0], false, none⟩ :=
  ⟨rfl, include_setting, rfl, rfl⟩

theorem inlined_one : Inlined registered one_file one_include ['a', ';'] := by
  have hinc : ¬ NoInclude registered one_include := by
    intro hno
    have hall := hno _ _ rfl
    cases hall with
    | leaf hno _ => exact hno include_found
  have hat : IncludeAt registered one_include [] ['x'] [] := by
    let h : Parser.Head := ⟨1, 0, include_word, none, 8, []⟩
    let root : Parser.Chunk := .setting ⟨0, 0, "::ROOT".toList, some "config".toList, 1, []⟩ []
    let s₀ := Parser.new one_include
    let s₁ : Parser.State := ⟨one_include, 8, [.setting h [], .block 1 [] [], root], [], [], 2, none⟩
    let s₂ : Parser.State := ⟨one_include, 12, [.setting { h with values := [0] } [.value .string], .block 1 [] [], root], [],
      [⟨.string, ['x'], some '\''⟩], 2, none⟩
    let s₃ : Parser.State := ⟨one_include, 13, [.block 1 [.setting] [.leaf { h with values := [0] }], root], [],
      [⟨.string, ['x'], some '\''⟩], 2, none⟩
    have h₁ : Parser.next_token s₀ = .token s₁ := rfl
    have h₂ : Parser.Reads s₁ s₂ := ⟨s₁.advance 1, rfl, rfl⟩
    have h₃ : Parser.Reads s₂ s₃ := ⟨s₂, rfl, rfl⟩
    have hruns : Relation.ReflTransGen (Inside 2) s₁ s₃ := .head ⟨by decide, h₂⟩ (.head ⟨by decide, h₃⟩ .refl)
    exact ⟨s₀, s₁, s₃, { h with values := [0] }, 1, [.setting], [], [root], ⟨.string, ['x'], some '\''⟩, .start rfl,
      ⟨1, [], [], [root], rfl⟩, h₁, hruns, rfl, rfl, rfl, include_found, rfl, rfl, rfl, rfl⟩
  exact .replace hinc hat (.done noInclude_file)

theorem parses_iff_one : config_parse registered (fun _ => .ok) names ['a', ';'] = .ok [['a']] ∧
    (config_parse registered (fun _ => .ok) names one_include = .ok [['a']] ↔ NoInclude registered one_include) :=
  ⟨rfl, parses_iff registered one_file (fun _ => .ok) names one_include ['a', ';'] inlined_one [['a']] rfl⟩

/-- The file x has one setting, and the configuration that includes it is not parsed, whatever the handler does behind its first line. -/
theorem not_included : Inlined registered one_file one_include ['a', ';'] ∧ ∀ behind,
    config_parse registered behind names ['a', ';'] = .ok [['a']] ∧ config_parse registered behind names one_include = .raise :=
  ⟨inlined_one, fun _ => ⟨rfl, rfl⟩⟩

end Shuttlesock.Includes
