/-
Copying a Lua value from one state to another (`lua_utils.c`): `luaS_gxcopy_start`, `luaS_gxcopy`, `luaS_gxcopy_finish`, and
`gxcopy_any` with what it calls for tables.

Model: the tables of the source are a `Heap`, which a copy only reads. The new tables of the destination are numbered. Both
stacks are lists with the top first, and grow as needed (`luaL_checkstack`). A copy ends well (`ok`), returns false (`fail`) or
raises a Lua error or a signal (`raise`); the recursion has a depth as fuel (`deep`: not enough).
- `copies`, `refs`: the tables at `copies_ref` of the source and of the destination. The first maps a value to an index, the
  second an index to its copy.
- `Outside`: what is done for functions, userdata, threads and loaded packages, and what functions in metatables do.
- not in the model: the counter that `__gxcopy_loaded_package_directly` uses, the limits of the Lua stacks and of the C stack.
-/
import Mathlib.Tactic
import Shuttlesock.Lua.Value

namespace Shuttlesock.Gxcopy

open Shuttlesock.Lua

/-! ## The two Lua states -/

/-- the tables of a Lua state -/
structure Heap (T : Type*) where
  entries : Tables T
  metatable : T → Option T
  wf : Wf entries

/-- what a copy changes, without the stacks -/
structure Memory (T : Type*) where
  in_progress : Bool
  copies : Value T → Option ℕ
  refs : List (Value ℕ)
  tables : Tables ℕ
  metatables : ℕ → Option ℕ
  /-- the tables of the destination so far -/
  count : ℕ

/-- the two states while a value is copied -/
structure State (T : Type*) extends Memory T where
  ls : List (Value T)
  ld : List (Value ℕ)

inductive Res (S : Type*) where
  | ok (s : S)
  | fail
  | raise
  | deep

def Res.bind {S : Type*} (r : Res S) (f : S → Res S) : Res S :=
  match r with
  | .ok s => f s
  | .fail => .fail
  | .raise => .raise
  | .deep => .deep

/-- what is not copied here -/
structure Outside (T : Type*) where
  /-- the globals tables -/
  globals : T
  dst_globals : ℕ
  /-- a value of `package.loaded` -/
  loaded : Value T → Bool
  /-- the metatable of a type -/
  type_metatable : Value T → Option T
  /-- calls of what is at `__eq`, and of a function at `__index`; none raises -/
  call_eq : Value T → T → T → Option Bool
  call_index : Value T → Option (Value T)
  /-- `gxcopy_package_loaded` for a loaded package on top of the stack -/
  package : State T → Res (State T)
  /-- the branch of `gxcopy_metatable` for a function `__gxcopy_metatable`, from its copy on -/
  metatable : State T → Res (State T)
  /-- `gxcopy_function`, `gxcopy_userdata`, `gxcopy_thread` -/
  other : State T → Res (State T)

variable {T : Type*} [DecidableEq T]

/-! ## The Lua API -/

def bytes (s : String) : List UInt8 := s.toList.map fun c => UInt8.ofNat c.toNat

def rawget (l : List (Value T × Value T)) (k : Value T) : Value T := ((l.find? fun e => e.1 = k).map Prod.snd).getD .nil

/-- a field of the metatable -/
def Heap.metafield (h : Heap T) (t : T) (name : String) : Value T :=
  match h.metatable t with
  | none => .nil
  | some m => rawget (h.entries m) (.string (bytes name))

/-- `lua_compare` with `LUA_OPEQ`, for two tables; none raises -/
def Heap.opeq (h : Heap T) (o : Outside T) (t u : T) : Option Bool :=
  if t = u then some true
  else
    match if h.metafield t "__eq" = .nil then h.metafield u "__eq" else h.metafield t "__eq" with
    | .nil => some false
    | f => o.call_eq f t u

/-- `MAXTAGLOOP` -/
def maxtagloop : ℕ := 2000

/-- `lua_getfield`, for at most n steps along `__index`; none raises -/
def Heap.getfield (h : Heap T) (o : Outside T) (name : String) : ℕ → Value T → Option (Value T)
  | 0, .table t =>
    if rawget (h.entries t) (.string (bytes name)) ≠ .nil then some (rawget (h.entries t) (.string (bytes name))) else none
  | 0, _ => none
  | n + 1, .table t =>
    if rawget (h.entries t) (.string (bytes name)) ≠ .nil then some (rawget (h.entries t) (.string (bytes name)))
    else
      match h.metafield t "__index" with
      | .nil => some .nil
      | .function => o.call_index (.table t)
      | w => Heap.getfield h o name n w
  | n + 1, v =>
    match o.type_metatable v with
    | none => none
    | some m =>
      match rawget (h.entries m) (.string (bytes "__index")) with
      | .nil => none
      | .function => o.call_index v
      | w => Heap.getfield h o name n w

namespace State

def push_ls (s : State T) (v : Value T) : State T := { s with ls := v :: s.ls }

def pop_ls (s : State T) (n : ℕ) : State T := { s with ls := s.ls.drop n }

def push_ld (s : State T) (v : Value ℕ) : State T := { s with ld := v :: s.ld }

/-- `lua_newtable` in the destination -/
def newtable (s : State T) : State T :=
  { s with
    ld := .table s.count :: s.ld
    tables := Function.update s.tables s.count []
    metatables := Function.update s.metatables s.count none
    count := s.count + 1 }

/-- `lua_rawset(Ld, -3)` -/
def rawset_ld (s : State T) : Res (State T) :=
  match s.ld with
  | v :: k :: .table id :: ld =>
    .ok { s with ld := .table id :: ld, tables := Function.update s.tables id (rawset (s.tables id) k v) }
  | _ => .raise

/-- `lua_setmetatable(Ld, -2)` -/
def setmetatable_ld (s : State T) : Res (State T) :=
  match s.ld with
  | .table m :: .table id :: ld => .ok { s with ld := .table id :: ld, metatables := Function.update s.metatables id (some m) }
  | _ => .raise

/-- `gxcopy_cache_load`; none is false -/
def cache_load (s : State T) (v : Value T) : Option (State T) :=
  match s.copies v with
  | some index => some (s.push_ld ((s.refs[index - 1]?).getD .nil))
  | none => none

/-- `gxcopy_cache_store`, with `luaL_ref` -/
def cache_store (s : State T) (v : Value T) : State T :=
  { s with
    refs := s.refs ++ [s.ld.headD .nil]
    copies := Function.update s.copies v (some (s.refs.length + 1)) }

end State

/-! ## Copying -/

section
variable (h : Heap T) (o : Outside T) (any : State T → Res (State T))

/-- the loop over a table: its key is copied from a second place on the stack, and `lua_next` takes the first -/
def gxcopy_entries : List (Value T × Value T) → State T → Res (State T)
  | [], s => .ok s
  | (k, v) :: rest, s =>
    (any (((s.push_ls k).push_ls v).push_ls k)).bind fun s =>
      (any (s.pop_ls 1)).bind fun s =>
        (s.pop_ls 1).rawset_ld.bind fun s => gxcopy_entries rest (s.pop_ls 1)

def gxcopy_metatable (t : T) (s : State T) : Res (State T) :=
  match h.metatable t with
  | none => .ok s
  | some m =>
    let s := s.push_ls (.table m)
    if o.loaded (.table m) = true then (o.package s).bind fun s => (s.pop_ls 1).setmetatable_ld
    else
      match h.getfield o "__gxcopy_metatable" maxtagloop (.table m) with
      | none => .raise
      | some .function => o.metatable s
      | some _ => (any s).bind fun s => (s.pop_ls 1).setmetatable_ld

def gxcopy_table (t : T) (s : State T) : Res (State T) :=
  match h.opeq o o.globals t with
  | none => .raise
  | some true => .ok (s.push_ld (.table o.dst_globals))
  | some false =>
    if o.loaded (.table t) = true then o.package s
    else
      match s.cache_load (.table t) with
      | some s => .ok s
      | none =>
        (gxcopy_entries any (h.entries t) (s.newtable.cache_store (.table t))).bind fun s => gxcopy_metatable h o any t s

end

/-- by the type of the value on top of the source stack -/
def gxcopy_type (h : Heap T) (o : Outside T) (any : State T → Res (State T)) (v : Value T) (s : State T) : Res (State T) :=
  match v with
  | .nil => .ok (s.push_ld .nil)
  | .integer i => .ok (s.push_ld (.integer i))
  | .number x => .ok (s.push_ld (.number x))
  | .boolean b => .ok (s.push_ld (.boolean b))
  | .string bytes => .ok (s.push_ld (.string bytes))
  | .lightuserdata p => .ok (s.push_ld (.lightuserdata p))
  | .table t => gxcopy_table h o any t s
  | .function | .userdata | .thread => o.other s

/-- `gxcopy_any`, with its assertion -/
def gxcopy_any (h : Heap T) (o : Outside T) : ℕ → State T → Res (State T)
  | 0, _ => .deep
  | fuel + 1, s =>
    match s.ls with
    | [] => .raise
    | v :: _ =>
      (gxcopy_type h o (gxcopy_any h o fuel) v s).bind fun s' =>
        if s'.ld.length = s.ld.length + 1 then .ok s' else .raise

/-! ## Sessions -/

def luaS_gxcopy_start (s : State T) : Res (State T) :=
  if s.in_progress = true then .fail else .ok { s with in_progress := true, copies := fun _ => none, refs := [] }

def luaS_gxcopy (h : Heap T) (o : Outside T) (fuel : ℕ) (s : State T) : Res (State T) :=
  if s.in_progress = true then gxcopy_any h o fuel s else .fail

def luaS_gxcopy_finish (s : State T) : Res (State T) :=
  if s.in_progress = true then .ok { s with in_progress := false, copies := fun _ => none, refs := [] } else .fail

/-- one value after the other is put on the source stack, copied and popped -/
def copy_all (h : Heap T) (o : Outside T) (fuel : ℕ) : List (Value T) → State T → Res (State T)
  | [], s => .ok s
  | v :: vs, s => (luaS_gxcopy h o fuel (s.push_ls v)).bind fun s => copy_all h o fuel vs (s.pop_ls 1)

def session (h : Heap T) (o : Outside T) (fuel : ℕ) (vs : List (Value T)) (s : State T) : Res (State T) :=
  (luaS_gxcopy_start s).bind fun s => (copy_all h o fuel vs s).bind luaS_gxcopy_finish

/-- one session after the other -/
def sessions (h : Heap T) (o : Outside T) (fuel : ℕ) : List (List (Value T)) → State T → Res (State T)
  | [], s => .ok s
  | vs :: vss, s => (session h o fuel vs s).bind fun s => sessions h o fuel vss s

end Shuttlesock.Gxcopy
