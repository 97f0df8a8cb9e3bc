/-
Which settings the configuration accepts: `config:register_setting`, `config:find_handler_for_setting`, `config:get_path`,
`config:each_setting` and `config:handle` of `config.lua`.

A setting is written as `name` or as `module:name`. The handler of the second is the one with that name, whatever its path; the
handler of the first is the only one of all modules with the name and a path that matches.

Model: a handler is a table, and two of them are never the same here since their full names differ.
- `each_setting` yields a setting before those of its block, and `handle` goes on from the path of the block: a path depends
  on the names above it only, which `handle` leaves alone.
- `call` is what the Lua function of a handler returns, for each setting; none of them changes the tree while `handle` runs.
- The position in the text is left out of the errors.

Results:
- `handle_all_ok`: what every setting of an accepted configuration has passed.
- `placed_iff`: in an accepted configuration every setting is well-placed, with exactly one handler, if and only if every
  setting that is written with its module is in a block that matches the path of the handler of that name.
- `misplaced`: a setting that is written with its module, in a block where its handler does not belong.
-/
import Mathlib.Tactic
import Shuttlesock.Config.Tree

namespace Shuttlesock.Settings

open Shuttlesock.MatchPath

/-! ## Handlers -/

/-- the tables `handlers` and `handlers_any_module`; the handlers of a name are those in the second that have it -/
structure Registry where
  handlers : List (Str × Handler)
  handlers_any_module : List Handler
deriving DecidableEq

def Registry.empty : Registry := ⟨[], []⟩

/-- a key that is not in the table yet -/
def add_key (handlers : List (Str × Handler)) (key : Str) (handler : Handler) : Option (List (Str × Handler)) :=
  if (lookup handlers key).isSome then none else some (handlers ++ [(key, handler)])

/-- `module_name.."."..alias` -/
def alias_full_name (handler : Handler) (name : Str) : Str := handler.module_name ++ '.' :: name

def add_aliases (handlers : List (Str × Handler)) (handler : Handler) (aliases : List Str) :
    Option (List (Str × Handler)) :=
  aliases.foldlM (fun l name => add_key l (alias_full_name handler name) handler) handlers

/-- the end of `register_setting` -/
def register_setting (r : Registry) (handler : Handler) : Option Registry :=
  (add_key r.handlers handler.full_name handler).bind fun l =>
    (add_aliases l handler handler.aliases).map fun l => ⟨l, r.handlers_any_module ++ [handler]⟩

/-- a set of registered settings -/
def register_settings (hs : List Handler) : Option Registry := hs.foldlM register_setting .empty

/-! ## Handling -/

inductive Res (α : Type) where
  | ok (a : α)
  | error (err : String)
  | raise

def Res.bind {α β : Type} (r : Res α) (f : α → Res β) : Res β :=
  match r with
  | .ok a => f a
  | .error err => .error err
  | .raise => .raise

def possible_handlers (r : Registry) (h : Head) : List Handler := r.handlers_any_module.filter (·.name = h.name)

/-- `find_handler_for_setting`, of a setting with this path -/
def find_handler_for_setting (r : Registry) (path : Str) (h : Head) : Except String Handler :=
  match h.full_name with
  | some full_name =>
    match lookup r.handlers full_name with
    | some handler => .ok handler
    | none => .error s!"unknown setting {String.ofList full_name}"
  | none =>
    match (possible_handlers r h).filter fun handler => path_matches path handler.path with
    | [] => .error s!"unknown setting {String.ofList h.name}"
    | [handler] => .ok handler
    | _ =>
      let handler_names := (possible_handlers r h).map fun h =>
        s!"{String.ofList h.module_name},{String.ofList h.name}"
      let all_names := String.intercalate ", " handler_names
      .error s!"ambiguous setting {String.ofList h.name}, could be any of: {all_names}"

def handler_errmsg (h : Head) (msg : String) : String :=
  s!"error handling \"{String.ofList h.path_part}\" setting: {msg}"

/-- what the Lua function of a handler returns -/
inductive Call where
  | ok
  | failed (err : String)
  | raise

/-- the checks of the number of values -/
def check_nargs (handler : Handler) (h : Head) : Res Unit :=
  if h.default then .ok ()
  else
    match h.values with
    | none => .raise
    | some values =>
      if values.length < handler.nargs_min then
        .error (handler_errmsg h s!"too few arguments, must have at least {handler.nargs_min}")
      else if handler.nargs_max < values.length then
        .error (handler_errmsg h s!"too many arguments, must have at most {handler.nargs_min}")
      else .ok ()

def check_block (handler : Handler) (h : Head) (has_block : Bool) : Res Unit :=
  if handler.block = .always ∧ ¬ has_block then .error (handler_errmsg h "missing block")
  else if handler.block = .never ∧ has_block then .error (handler_errmsg h "unexpected block")
  else .ok ()

/-- the handler is called, unless the setting is a default -/
def call_handler (call : Handler → Head → Call) (handler : Handler) (h : Head) : Res Unit :=
  if h.default then .ok ()
  else
    match call handler h with
    | .ok => .ok ()
    | .failed err => .error (handler_errmsg h err)
    | .raise => .raise

/-- `setting.handled_by`, and `setting.module` if it is nil -/
def Head.with_handler (h : Head) (handler : Handler) : Head :=
  { h with
    handled_by := some handler.full_name
    assigned := if h.module_name = none then some handler.module_name else h.assigned }

def assign (handler : Handler) (h : Head) : Res Head :=
  let h := h.with_handler handler
  if h.module_name = some handler.module_name then .ok h else .raise

def handle_by (call : Handler → Head → Call) (handler : Handler) (h : Head) (has_block : Bool) : Res Head :=
  (call_handler call handler h).bind fun _ => (assign handler h).bind fun h =>
    (check_nargs handler h).bind fun _ => (check_block handler h has_block).bind fun _ => .ok h

/-- the body of the loop of `handle` -/
def handle_setting (r : Registry) (call : Handler → Head → Call) (handler_name : Option Str) (path : Str) (h : Head)
    (has_block : Bool) : Res Head :=
  match find_handler_for_setting r path h with
  | .error err => if handler_name = none then .error s!": {err}" else .ok h
  | .ok handler =>
    if handler_name = none ∨ handler_name = some handler.full_name then handle_by call handler h has_block else .ok h

mutual

def handle_tree (r : Registry) (call : Handler → Head → Call) (handler_name : Option Str) (path : Str) :
    Setting → Res Setting
  | .leaf h => (handle_setting r call handler_name path h false).bind fun h => .ok (.leaf h)
  | .block h vars settings =>
    (handle_setting r call handler_name path h true).bind fun h' =>
      (handle_all r call handler_name (block_path path h) settings).bind fun settings => .ok (.block h' vars settings)

def handle_all (r : Registry) (call : Handler → Head → Call) (handler_name : Option Str) (path : Str) :
    List Setting → Res (List Setting)
  | [] => .ok []
  | setting :: settings =>
    (handle_tree r call handler_name path setting).bind fun setting =>
      (handle_all r call handler_name path settings).bind fun settings => .ok (setting :: settings)

end

/-- `config:handle`, of the settings of the root block -/
def handle (r : Registry) (call : Handler → Head → Call) (handler_name : Option Str) (settings : List Setting) :
    Res (List Setting) :=
  handle_all r call handler_name ['/'] settings

/-! ## The property -/

/-- the settings of a tree, each with the path of the block it is in and whether it has a block of its own -/
inductive Everywhere (P : Str → Head → Bool → Prop) : Str → List Setting → Prop
  | nil {path : Str} : Everywhere P path []
  | leaf {path : Str} {h : Head} {settings : List Setting} : P path h false → Everywhere P path settings →
    Everywhere P path (.leaf h :: settings)
  | block {path : Str} {h : Head} {vars : List (Str × Instring)} {inside settings : List Setting} : P path h true →
    Everywhere P (block_path path h) inside → Everywhere P path settings →
    Everywhere P path (.block h vars inside :: settings)

/-- a handler of the name, and of the module if that is written, whose path matches -/
def Fits (path : Str) (h : Head) (handler : Handler) : Prop :=
  handler.name = h.name ∧ (∀ m, h.written = some m → handler.module_name = m) ∧ path_matches path handler.path = true

/-- **The property**, of one setting -/
structure Placed (r : Registry) (path : Str) (h : Head) (has_block : Bool) (handler : Handler) : Prop where
  registered : handler ∈ r.handlers_any_module
  fits : Fits path h handler
  only : ∀ handler' ∈ r.handlers_any_module, Fits path h handler' → handler' = handler
  handled_by : h.handled_by = some handler.full_name
  nargs : h.default = false →
    ∃ values, h.values = some values ∧ handler.nargs_min ≤ values.length ∧ values.length ≤ handler.nargs_max
  required : handler.block = .always → has_block = true
  allowed : has_block = true → handler.block ≠ .never

def WellPlaced (r : Registry) (path : Str) (h : Head) (has_block : Bool) : Prop := ∃ handler, Placed r path h has_block handler

/-- **The condition**, of one setting: it is not written with a module whose handler of that name belongs elsewhere -/
def Matched (r : Registry) (path : Str) (h : Head) (_ : Bool) : Prop :=
  ∀ m, h.written = some m → ∀ handler ∈ r.handlers_any_module, handler.module_name = m → handler.name = h.name →
    path_matches path handler.path = true

/-! ## The tables -/

/-- the keys are different, and each is the full name or an alias of a registered handler -/
structure Registry.Wf (r : Registry) : Prop where
  keys : (r.handlers.map Prod.fst).Nodup
  known : ∀ key handler, (key, handler) ∈ r.handlers → handler ∈ r.handlers_any_module ∧
    (key = handler.full_name ∨ ∃ name, key = alias_full_name handler name)
  listed : ∀ handler ∈ r.handlers_any_module, (handler.full_name, handler) ∈ r.handlers

theorem add_key_eq {l l' : List (Str × Handler)} {key : Str} {handler : Handler} (h : add_key l key handler = some l') :
    l' = l ++ [(key, handler)] ∧ ((l.map Prod.fst).Nodup → (l'.map Prod.fst).Nodup) := by
  unfold add_key at h
  split at h
  · cases h
  · rename_i hnone
    cases h
    refine ⟨rfl, fun hnodup => ?_⟩
    rw [List.map_append]
    have hfresh := lookup_none (Option.not_isSome_iff_eq_none.1 hnone)
    exact List.nodup_append.2 ⟨hnodup, List.nodup_singleton _, fun a ha b hb heq => hfresh (by simp_all)⟩

/-- aliases are added at the end -/
theorem add_aliases_eq {l l' : List (Str × Handler)} {handler : Handler} {aliases : List Str}
    (h : add_aliases l handler aliases = some l') :
    l' = l ++ aliases.map (fun name => (alias_full_name handler name, handler)) ∧
      ((l.map Prod.fst).Nodup → (l'.map Prod.fst).Nodup) := by
  induction aliases generalizing l with
  | nil =>
    cases h
    exact ⟨(List.append_nil _).symm, id⟩
  | cons name aliases ih =>
    obtain ⟨l₁, h₁, h⟩ := Option.bind_eq_some_iff.1 h
    obtain ⟨rfl, hnodup₁⟩ := add_key_eq h₁
    obtain ⟨rfl, hnodup⟩ := ih h
    refine ⟨?_, fun hl => hnodup (hnodup₁ hl)⟩
    rw [List.map_cons, List.append_assoc, List.singleton_append]

theorem register_setting_wf {r r' : Registry} {handler : Handler} (hr : r.Wf) (h : register_setting r handler = some r') :
    r'.Wf := by
  obtain ⟨l, hl, h⟩ := Option.bind_eq_some_iff.1 h
  obtain ⟨l', hl', rfl⟩ := Option.map_eq_some_iff.1 h
  obtain ⟨rfl, hnodup⟩ := add_key_eq hl
  obtain ⟨rfl, hnodup'⟩ := add_aliases_eq hl'
  refine ⟨hnodup' (hnodup hr.keys), fun key hd hmem => ?_, fun hd hmem => ?_⟩
  · rcases List.mem_append.1 hmem with hmem | hmem
    · rcases List.mem_append.1 hmem with hmem | hmem
      · exact ⟨List.mem_append_left _ (hr.known key hd hmem).1, (hr.known key hd hmem).2⟩
      · cases List.mem_singleton.1 hmem
        exact ⟨List.mem_append_right _ List.mem_cons_self, .inl rfl⟩
    · obtain ⟨name, -, heq⟩ := List.mem_map.1 hmem
      cases heq
      exact ⟨List.mem_append_right _ List.mem_cons_self, .inr ⟨name, rfl⟩⟩
  · rcases List.mem_append.1 hmem with hmem | hmem
    · exact List.mem_append_left _ (List.mem_append_left _ (hr.listed hd hmem))
    · rw [List.mem_singleton.1 hmem]
      exact List.mem_append_left _ (List.mem_append_right _ List.mem_cons_self)

theorem register_settings_wf {hs : List Handler} {r : Registry} (h : register_settings hs = some r) : r.Wf := by
  have hfold : ∀ (l : List Handler) (r₀ : Registry), r₀.Wf → l.foldlM register_setting r₀ = some r → r.Wf := by
    intro l
    induction l with
    | nil =>
      intro r₀ hr₀ heq
      cases heq
      exact hr₀
    | cons handler l ih =>
      intro r₀ hr₀ heq
      obtain ⟨r₁, hr₁, heq⟩ := Option.bind_eq_some_iff.1 heq
      exact ih r₁ (register_setting_wf hr₀ hr₁) heq
  exact hfold hs .empty ⟨List.nodup_nil, fun _ _ h => absurd h List.not_mem_nil, fun _ h => absurd h List.not_mem_nil⟩ h

/-- a key belongs to one handler -/
theorem Registry.Wf.eq_of_key {r : Registry} (hr : r.Wf) {key : Str} {hd hd' : Handler} (h : (key, hd) ∈ r.handlers)
    (h' : (key, hd') ∈ r.handlers) : hd = hd' := by
  have heq := List.inj_on_of_nodup_map hr.keys h h' rfl
  exact congrArg Prod.snd heq

/-! ## One setting -/

theorem Res.bind_ok {α β : Type} {r : Res α} {f : α → Res β} {b : β} (h : r.bind f = .ok b) :
    ∃ a, r = .ok a ∧ f a = .ok b := by
  cases r with
  | ok a => exact ⟨a, rfl, h⟩
  | error err => cases h
  | raise => cases h

section One

variable {r : Registry} {call : Handler → Head → Call} {path : Str} {h h' : Head} {handler : Handler} {has_block : Bool}

theorem check_nargs_ok (hok : check_nargs handler h = .ok ()) (hdefault : h.default = false) :
    ∃ values, h.values = some values ∧ handler.nargs_min ≤ values.length ∧ values.length ≤ handler.nargs_max := by
  unfold check_nargs at hok
  rw [if_neg (by rw [hdefault]; exact Bool.false_ne_true)] at hok
  cases hvalues : h.values with
  | none =>
    rw [hvalues] at hok
    cases hok
  | some values =>
    rw [hvalues] at hok
    dsimp only at hok
    split_ifs at hok with hmin hmax
    exact ⟨values, rfl, Nat.le_of_not_lt hmin, Nat.le_of_not_lt hmax⟩

theorem check_block_ok (hok : check_block handler h has_block = .ok ()) :
    (handler.block = .always → has_block = true) ∧ (has_block = true → handler.block ≠ .never) := by
  unfold check_block at hok
  split_ifs at hok with hmissing hunexpected
  constructor
  · intro halways
    by_contra hnot
    exact hmissing ⟨halways, hnot⟩
  · exact fun hblock hnever => hunexpected ⟨hnever, hblock⟩

/-- **What an accepted setting has passed.** -/
theorem handle_setting_ok (hok : handle_setting r call none path h has_block = .ok h') :
    ∃ handler, find_handler_for_setting r path h = .ok handler ∧ call_handler call handler h = .ok () ∧
      assign handler h = .ok h' ∧ check_nargs handler h' = .ok () ∧ check_block handler h' has_block = .ok () := by
  unfold handle_setting at hok
  cases hfind : find_handler_for_setting r path h with
  | error err =>
    rw [hfind] at hok
    cases hok
  | ok handler =>
    rw [hfind] at hok
    dsimp only at hok
    rw [if_pos (.inl rfl)] at hok
    obtain ⟨_, hcall, hok⟩ := Res.bind_ok hok
    obtain ⟨h'', hassign, hok⟩ := Res.bind_ok hok
    obtain ⟨_, hnargs, hok⟩ := Res.bind_ok hok
    obtain ⟨_, hblock, hok⟩ := Res.bind_ok hok
    cases hok
    exact ⟨handler, rfl, hcall, hassign, hnargs, hblock⟩

/-- a handler is assigned to a setting of its module, or to one without a module -/
theorem assign_ok (hok : assign handler h = .ok h') : h'.name = h.name ∧ h'.written = h.written ∧ h'.values = h.values ∧
    h'.default = h.default ∧ h'.handled_by = some handler.full_name ∧ ∀ m, h.written = some m → handler.module_name = m := by
  unfold assign at hok
  dsimp only at hok
  split_ifs at hok with hmodule
  cases hok
  refine ⟨rfl, rfl, rfl, rfl, rfl, fun m hm => ?_⟩
  have hwritten : (h.with_handler handler).written = some m := hm
  unfold Head.module_name at hmodule
  rw [hwritten, Option.some_or, Option.some.injEq] at hmodule
  exact hmodule.symm

/-- **Which handler is found.** It has the name and the module of the setting; without a module its path matches, and it is
the only one that does so. -/
theorem find_handler_ok (hr : r.Wf) (hfind : find_handler_for_setting r path h = .ok handler)
    (hmodule : ∀ m, h.written = some m → handler.module_name = m) :
    handler ∈ r.handlers_any_module ∧ handler.name = h.name ∧
      (∀ handler' ∈ r.handlers_any_module, Fits path h handler' → handler' = handler) ∧
      (h.written = none → path_matches path handler.path = true) := by
  unfold find_handler_for_setting Head.full_name at hfind
  cases hw : h.written with
  | none =>
    rw [hw, Option.map_none] at hfind
    dsimp only at hfind
    split at hfind
    · cases hfind
    · rename_i heq
      cases hfind
      have hmem : ∀ handler', handler' ∈ r.handlers_any_module ∧ handler'.name = h.name ∧
          path_matches path handler'.path = true ↔ handler' = handler := by
        intro handler'
        have hsingle : handler' ∈ [handler] ↔ handler' = handler := List.mem_singleton
        rw [← hsingle, ← heq, List.mem_filter]
        unfold possible_handlers
        rw [List.mem_filter, decide_eq_true_eq, and_assoc]
      obtain ⟨hin, hname, hpath⟩ := (hmem handler).2 rfl
      exact ⟨hin, hname, fun handler' hin' hfits => (hmem handler').1 ⟨hin', hfits.1, hfits.2.2⟩, fun _ => hpath⟩
    · cases hfind
  | some m =>
    have hm := hmodule m hw
    rw [hw, Option.map_some] at hfind
    dsimp only at hfind
    split at hfind
    · rename_i hlookup
      cases hfind
      have hin := lookup_some hlookup
      obtain ⟨hany, hkey⟩ := hr.known _ _ hin
      have hname : handler.name = h.name := by
        unfold qualify Handler.full_name alias_full_name qualify at hkey
        rw [hm] at hkey
        rcases hkey with hkey | ⟨name, hkey⟩
        · exact (List.cons.inj (List.append_cancel_left hkey)).2.symm
        · exact absurd (List.cons.inj (List.append_cancel_left hkey)).1 (by decide)
      refine ⟨hany, hname, fun handler' hin' hfits => ?_, fun h => by cases h⟩
      have hfull : handler'.full_name = qualify m h.name := by
        unfold Handler.full_name
        rw [hfits.1, hfits.2.1 m hw]
      have hlisted := hr.listed handler' hin'
      rw [hfull] at hlisted
      exact hr.eq_of_key hlisted hin
    · cases hfind

/-- **One setting.** If it is accepted, it is well-placed exactly when it is not written with a module whose handler of that
name belongs elsewhere. -/
theorem placed_one (hr : r.Wf) (hok : handle_setting r call none path h has_block = .ok h') :
    WellPlaced r path h' has_block ↔ Matched r path h has_block := by
  obtain ⟨handler, hfind, -, hassign, hnargs, hblock⟩ := handle_setting_ok hok
  obtain ⟨hname, hwritten, hvalues, hdefault, hhandled, hmodule⟩ := assign_ok hassign
  obtain ⟨hin, hhname, honly, hpath⟩ := find_handler_ok hr hfind hmodule
  have hfits : ∀ hd, Fits path h' hd ↔ Fits path h hd := by
    intro hd
    unfold Fits
    rw [hname, hwritten]
  obtain ⟨hrequired, hallowed⟩ := check_block_ok hblock
  constructor
  · rintro ⟨hd, hplaced⟩ m hm hd' hin' hmod' hname'
    -- the handler of the full name is the one that the setting has
    have hfit := (hfits hd).1 hplaced.fits
    have heq := honly hd hplaced.registered hfit
    have hsame : hd' = hd := by
      have hfull : hd'.full_name = hd.full_name := by
        unfold Handler.full_name
        rw [hmod', hname', hfit.1, hfit.2.1 m hm]
      have hlisted := hr.listed hd' hin'
      rw [hfull] at hlisted
      exact hr.eq_of_key hlisted (hr.listed hd hplaced.registered)
    rw [hsame]
    exact hfit.2.2
  · intro hmatched
    have hmatches : path_matches path handler.path = true := by
      cases hw : h.written with
      | none => exact hpath hw
      | some m => exact hmatched m hw handler hin (hmodule m hw) hhname
    exact ⟨handler, hin, (hfits handler).2 ⟨hhname, hmodule, hmatches⟩,
      fun hd hin' hfit => honly hd hin' ((hfits hd).1 hfit), hhandled, check_nargs_ok hnargs, hrequired, hallowed⟩

end One

/-! ## Trees -/

/-- two trees of one shape, whose settings belong together -/
inductive Alike (R : Str → Head → Bool → Head → Prop) : Str → List Setting → List Setting → Prop
  | nil {path : Str} : Alike R path [] []
  | leaf {path : Str} {h h' : Head} {settings settings' : List Setting} : R path h false h' →
    Alike R path settings settings' → Alike R path (.leaf h :: settings) (.leaf h' :: settings')
  | block {path : Str} {h h' : Head} {vars : List (Str × Instring)} {inside inside' settings settings' : List Setting} :
    R path h true h' → Alike R (block_path path h) inside inside' → Alike R path settings settings' →
    Alike R path (.block h vars inside :: settings) (.block h' vars inside' :: settings')

theorem Alike.everywhere_iff {R : Str → Head → Bool → Head → Prop} {P Q : Str → Head → Bool → Prop}
    (hpq : ∀ path h b h', R path h b h' → (P path h' b ↔ Q path h b) ∧ h'.path_part = h.path_part) {path : Str}
    {settings settings' : List Setting} (h : Alike R path settings settings') :
    Everywhere P path settings' ↔ Everywhere Q path settings := by
  induction h with
  | nil => exact ⟨fun _ => .nil, fun _ => .nil⟩
  | leaf hr _ ih =>
    obtain ⟨hiff, -⟩ := hpq _ _ _ _ hr
    constructor
    · intro hall
      cases hall with
      | leaf hp hrest => exact .leaf (hiff.1 hp) (ih.1 hrest)
    · intro hall
      cases hall with
      | leaf hq hrest => exact .leaf (hiff.2 hq) (ih.2 hrest)
  | @block path hd hd' vars inside inside' settings settings' hr _ _ ih ih' =>
    obtain ⟨hiff, hpart⟩ := hpq _ _ _ _ hr
    have hpath : block_path path hd' = block_path path hd := by
      unfold block_path
      rw [hpart]
    constructor
    · intro hall
      cases hall with
      | block hp hin hrest =>
        rw [hpath] at hin
        exact .block (hiff.1 hp) (ih.1 hin) (ih'.1 hrest)
    · intro hall
      cases hall with
      | block hq hin hrest =>
        refine .block (hiff.2 hq) ?_ (ih'.2 hrest)
        rw [hpath]
        exact ih.2 hin

/-- **What an accepted configuration has passed**: every setting has been handled, at its path. -/
theorem handle_all_ok {r : Registry} {call : Handler → Head → Call} {handler_name : Option Str} :
    ∀ {path : Str} {settings settings' : List Setting}, handle_all r call handler_name path settings = .ok settings' →
      Alike (fun path h b h' => handle_setting r call handler_name path h b = .ok h') path settings settings'
  | _, [], _, hok => by
    unfold handle_all at hok
    cases hok
    exact .nil
  | path, .leaf h :: settings, _, hok => by
    unfold handle_all handle_tree at hok
    obtain ⟨_, hleaf, hok⟩ := Res.bind_ok hok
    obtain ⟨h', hone, hleaf⟩ := Res.bind_ok hleaf
    obtain ⟨settings', hrest, hok⟩ := Res.bind_ok hok
    cases hleaf
    cases hok
    exact .leaf hone (handle_all_ok hrest)
  | path, .block h vars inside :: settings, _, hok => by
    unfold handle_all handle_tree at hok
    obtain ⟨_, hblock, hok⟩ := Res.bind_ok hok
    obtain ⟨h', hone, hblock⟩ := Res.bind_ok hblock
    obtain ⟨inside', hinside, hblock⟩ := Res.bind_ok hblock
    obtain ⟨settings', hrest, hok⟩ := Res.bind_ok hok
    cases hblock
    cases hok
    exact .block hone (handle_all_ok hinside) (handle_all_ok hrest)

/-- **Accepted configurations are well-placed**, for every set of registered settings and every configuration, if and only if
the settings with a module match the paths of their handlers; a configuration that is not accepted is rejected with an error. -/
theorem placed_iff (hs : List Handler) (r : Registry) (hreg : register_settings hs = some r) (call : Handler → Head → Call)
    (settings : List Setting) :
    (∃ settings', handle r call none settings = .ok settings' ∧
      (Everywhere (WellPlaced r) ['/'] settings' ↔ Everywhere (Matched r) ['/'] settings)) ∨
    (∃ err, handle r call none settings = .error err) ∨ handle r call none settings = .raise := by
  cases h : handle r call none settings with
  | error err => exact .inr (.inl ⟨err, rfl⟩)
  | raise => exact .inr (.inr rfl)
  | ok settings' =>
    refine .inl ⟨settings', rfl, (handle_all_ok h).everywhere_iff fun path hd b hd' hone => ?_⟩
    obtain ⟨handler, -, -, hassign, -⟩ := handle_setting_ok hone
    obtain ⟨hname, hwritten, -⟩ := assign_ok hassign
    refine ⟨placed_one (register_settings_wf hreg) hone, ?_⟩
    unfold Head.path_part Head.full_name
    rw [hname, hwritten]

/-- `foo` of the module `m`, in a `block3` -/
def foo : Handler := ⟨['m'], ['f', 'o', 'o'], [], ['b', 'l', 'o', 'c', 'k', '3'], 1, 4, .never, none⟩

/-- `m:foo` with one value -/
def written_foo : Head := ⟨['f', 'o', 'o'], some ['m'], none, some [0], false, none⟩

theorem placed_iff_foo : ∃ r, register_settings [foo] = some r ∧
    ((∃ settings', handle r (fun _ _ => .ok) none [.leaf written_foo] = .ok settings' ∧
      (Everywhere (WellPlaced r) ['/'] settings' ↔ Everywhere (Matched r) ['/'] [.leaf written_foo])) ∨
    (∃ err, handle r (fun _ _ => .ok) none [.leaf written_foo] = .error err) ∨
      handle r (fun _ _ => .ok) none [.leaf written_foo] = .raise) :=
  ⟨_, rfl, placed_iff [foo] _ rfl (fun _ _ => .ok) [.leaf written_foo]⟩

/-- `m:foo` is accepted outside a `block3`, where `foo` is not -/
theorem misplaced : ∃ r settings', register_settings [foo] = some r ∧
    handle r (fun _ _ => .ok) none [.leaf written_foo] = .ok settings' ∧ ¬ Everywhere (WellPlaced r) ['/'] settings' ∧
    ∃ err, handle r (fun _ _ => .ok) none [.leaf { written_foo with written := none }] = .error err := by
  refine ⟨⟨[(foo.full_name, foo)], [foo]⟩, [.leaf (written_foo.with_handler foo)], rfl, rfl, fun hall => ?_, _, rfl⟩
  cases hall with
  | leaf hplaced _ =>
    obtain ⟨handler, hplaced⟩ := hplaced
    have hpath := hplaced.fits.2.2
    rw [List.mem_singleton.1 hplaced.registered] at hpath
    revert hpath
    decide

end Shuttlesock.Settings
