/-
Which values can be copied to another Lua state: `gxcopy_check` of `api/core.lua` and `gxcopy_any` of `lua_utils.c`.

Model: the objects of the source are tables, functions, userdata and threads, in a `Source`. Both walks only read them: what they
call leaves the objects as they are. `index` is Lua's v.name, with `__index`; `call_eq` is what == comes to for two different objects.
The walks have a depth as fuel (`deep`: not enough), and end well (`ok`), or end with an error value (`fail`) or with a raised error or
signal (`raise`).
- `checked`: the table of that name; `cached`: the objects with a copy.
- `Destination`: what the code does that runs in the other state, or for it: loading a package, the function `__gxcopy_metatable`,
  `__gxcopy_save` and `__gxcopy_load`.
- not in the model: the error messages, and what is in a copy (`Shuttlesock.Gxcopy`).
-/
import Mathlib.Tactic
import Shuttlesock.Lua.Gxcopy

namespace Shuttlesock.GxcopyCheck

open Shuttlesock.Lua (keyFirst)
open Shuttlesock.Gxcopy (Res bytes)

/-! ## Objects -/

inductive Kind where
  | table
  | lua_function
  | c_function
  | userdata
  | thread
deriving DecidableEq

inductive Val (O : Type*) where
  | nil
  | boolean (b : Bool)
  | lightuserdata (p : ℕ)
  | integer (i : BitVec 64)
  | number (x : BitVec 64)
  | string (s : List UInt8)
  | object (o : O)
deriving DecidableEq

variable {O : Type*}

/-- nil or false -/
def Val.falsy : Val O → Bool
  | .nil => true
  | .boolean b => !b
  | _ => false

def Val.objects : Val O → List O
  | .object o => [o]
  | _ => []

/-- the state that is copied from -/
structure Source (O : Type*) where
  kind : O → Kind
  entries : O → List (Val O × Val O)
  metatable : O → Option O
  upvalues : O → List (Val O)
  /-- v.name; none raises -/
  index : Val O → String → Option (Val O)
  /-- == for two different objects; none raises -/
  call_eq : O → O → Option Bool
  /-- a value of `package.loaded` -/
  loaded : O → Bool
  globals : O
  globals_table : kind globals = .table
  /-- a call without arguments; none raises -/
  call : O → Option (Val O)

/-- what is called for the copies, and whether that ends well -/
structure Destination (O : Type*) where
  /-- `gxcopy_package_loaded` of a loaded package -/
  package : O → Bool
  /-- the copy of a function `__gxcopy_metatable` returns a table -/
  metatable : O → Bool
  /-- the function `__gxcopy_save`, for a userdata -/
  save : O → O → Option (Val O)
  /-- the copy of the function `__gxcopy_load` -/
  load : O → Bool
  /-- the call of `__gxcopy_load` after its argument could not be copied, which nothing checks -/
  after_failure : O → (O → Bool) → Res (O → Bool)

variable [DecidableEq O]

namespace Source
variable (L : Source O)

def isfunction : Val O → Bool
  | .object o => L.kind o = .lua_function || L.kind o = .c_function
  | _ => false

/-- == -/
def eq (v w : Val O) : Option Bool :=
  if v = w then some true
  else
    match v, w with
    | .object a, .object b =>
      if L.kind a = L.kind b ∧ (L.kind a = .table ∨ L.kind a = .userdata) then L.call_eq a b else some false
    | _, _ => some false

def rawget (o : O) (name : String) : Val O :=
  (((L.entries o).find? fun e => e.1 = .string (bytes name)).map Prod.snd).getD .nil

/-- the function of that name -/
def getmetatable (o : O) : Val O :=
  match L.metatable o with
  | none => .nil
  | some m => if L.rawget m "__metatable" = .nil then .object m else L.rawget m "__metatable"

end Source

/-- one value after the other -/
def each {S : Type*} (f : Val O → S → Res S) : List (Val O) → S → Res S
  | [], s => .ok s
  | v :: vs, s => (f v s).bind fun s => each f vs s

/-! ## gxcopy_check -/

section
variable (L : Source O) (check : Val O → (O → Bool) → Res (O → Bool))

def check_userdata (o : O) (checked : O → Bool) : Res (O → Bool) :=
  if (L.getmetatable o).falsy = true then .fail
  else
    match L.index (L.getmetatable o) "__gxcopy_load" with
    | none => .raise
    | some load =>
      if load ≠ .nil then .fail
      else
        match L.index (L.getmetatable o) "__gxcopy_save" with
        | none => .raise
        | some save =>
          if save ≠ .nil then .fail
          else if L.isfunction load = false then .fail
          else if L.isfunction save = false then .fail
          else (check save checked).bind fun checked => check load checked

/-- the function g has no upvalue but `_ENV`, and returns the metatable -/
def metatable_function (mt : Val O) (g : O) : Option Bool :=
  match L.upvalues g with
  | [] => returns
  | [up] =>
    match L.eq up (.object L.globals) with
    | none => none
    | some false => some false
    | some true => returns
  | _ => some false
where
  returns : Option Bool :=
    match L.call g with
    | none => some false
    | some v => L.eq v mt

def check_metatable (o : O) (checked : O → Bool) : Res (O → Bool) :=
  if (L.getmetatable o).falsy = true then .ok checked
  else
    match L.index (L.getmetatable o) "__gxcopy_metatable" with
    | none => .raise
    | some .nil => check (L.getmetatable o) checked
    | some (.object g) =>
      if L.isfunction (.object g) = true then
        match metatable_function L (L.getmetatable o) g with
        | none => .raise
        | some false => .fail
        | some true => check (.object o) checked
      else .fail
    | some _ => .fail

/-- with `gxcopy_load` as the source has it, where it looks whether there is one -/
def check_save_load (o : O) (checked : O → Bool) : Res (O → Bool) :=
  if (L.getmetatable o).falsy = true then .ok checked
  else
    match L.index (L.getmetatable o) "__gxcopy_save" with
    | none => .raise
    | some save =>
      match if save ≠ .nil then some true else (L.index (L.getmetatable o) "gxcopy_load").map fun v => decide (v ≠ .nil) with
      | none => .raise
      | some false => .ok checked
      | some true =>
        if L.isfunction save = false then .fail
        else
          match L.index (L.getmetatable o) "__gxcopy_load" with
          | none => .raise
          | some load => if L.isfunction load = false then .fail else .ok checked

def check_table (o : O) (checked : O → Bool) : Res (O → Bool) :=
  (check_metatable L check o (Function.update checked o true)).bind fun checked =>
    (check_save_load L o checked).bind fun checked => each check (keyFirst (L.entries o)) checked

/-- an object that is not checked yet -/
def check_object (o : O) (checked : O → Bool) : Res (O → Bool) :=
  match L.kind o with
  | .userdata => check_userdata L check o checked
  | .thread => .fail
  | .table => check_table L check o checked
  | .lua_function | .c_function => each check (L.upvalues o) (Function.update checked o true)

end

def gxcopy_check (L : Source O) : ℕ → Val O → (O → Bool) → Res (O → Bool)
  | 0, .object o, checked => if checked o = true then .ok checked else .deep
  | fuel + 1, .object o, checked => if checked o = true then .ok checked else check_object L (gxcopy_check L fuel) o checked
  | _, _, checked => .ok checked

/-- `Core.gxcopy_check` -/
def core_gxcopy_check (L : Source O) (fuel : ℕ) (v : Val O) : Res (O → Bool) :=
  gxcopy_check L fuel v fun o => L.loaded o || decide (o = L.globals)

/-! ## gxcopy -/

section
variable (L : Source O) (D : Destination O) (any : Val O → (O → Bool) → Res (O → Bool))

def gxcopy_package_loaded (o : O) (cached : O → Bool) : Res (O → Bool) := if D.package o = true then .ok cached else .fail

def gxcopy_function (o : O) (copy_upvalues : Bool) (cached : O → Bool) : Res (O → Bool) :=
  if L.loaded o = true then gxcopy_package_loaded D o cached
  else if cached o = true then .ok cached
  else if copy_upvalues = false then .ok (Function.update cached o true)
  else if L.kind o = .c_function then
    (each any (L.upvalues o) cached).bind fun cached => .ok (Function.update cached o true)
  else each any (L.upvalues o) (Function.update cached o true)

def gxcopy_metatable (o : O) (cached : O → Bool) : Res (O → Bool) :=
  match L.metatable o with
  | none => .ok cached
  | some m =>
    if L.loaded m = true then gxcopy_package_loaded D m cached
    else
      match L.index (.object m) "__gxcopy_metatable" with
      | none => .raise
      | some (.object g) =>
        if L.isfunction (.object g) = true then
          (gxcopy_function L D any g false cached).bind fun cached => if D.metatable g = true then .ok cached else .fail
        else any (.object m) cached
      | some _ => any (.object m) cached

def gxcopy_table (o : O) (cached : O → Bool) : Res (O → Bool) :=
  match L.eq (.object L.globals) (.object o) with
  | none => .raise
  | some true => .ok cached
  | some false =>
    if L.loaded o = true then gxcopy_package_loaded D o cached
    else if cached o = true then .ok cached
    else (each any (keyFirst (L.entries o)) (Function.update cached o true)).bind fun cached => gxcopy_metatable L D any o cached

def gxcopy_userdata (o : O) (cached : O → Bool) : Res (O → Bool) :=
  if L.loaded o = true then gxcopy_package_loaded D o cached
  else
    match L.metatable o with
    | none => .fail
    | some m =>
      match L.index (.object m) "__gxcopy_save" with
      | none => .raise
      | some save =>
        if L.isfunction save = false then .fail
        else
          match L.index (.object m) "__gxcopy_load" with
          | none => .raise
          | some load =>
            if L.isfunction load = false then .fail
            else
              (any load cached).bind fun cached =>
                match save.objects.head?.bind fun f => D.save f o with
                | none => .fail
                | some saved =>
                  match any saved cached with
                  | .ok cached => if (load.objects.head?.map D.load).getD false = true then .ok cached else .fail
                  | .fail => D.after_failure o cached
                  | r => r

def gxcopy_object (o : O) (cached : O → Bool) : Res (O → Bool) :=
  match L.kind o with
  | .table => gxcopy_table L D any o cached
  | .lua_function | .c_function => gxcopy_function L D any o true cached
  | .userdata => gxcopy_userdata L D any o cached
  | .thread => .fail

end

def gxcopy_any (L : Source O) (D : Destination O) : ℕ → Val O → (O → Bool) → Res (O → Bool)
  | 0, _, _ => .deep
  | fuel + 1, .object o, cached => gxcopy_object L D (gxcopy_any L D fuel) o cached
  | _ + 1, _, cached => .ok cached

/-! ## The two answers -/

/-- `Core.gxcopy_check` returns true -/
def Accepted (L : Source O) (v : Val O) : Prop := ∃ depth, ∀ fuel ≥ depth, ∃ checked, core_gxcopy_check L fuel v = .ok checked

/-- `luaS_gxcopy` succeeds, in a new session -/
def Copied (L : Source O) (D : Destination O) (v : Val O) : Prop :=
  ∃ depth, ∀ fuel ≥ depth, ∃ cached, gxcopy_any L D fuel v (fun _ => false) = .ok cached

end Shuttlesock.GxcopyCheck
