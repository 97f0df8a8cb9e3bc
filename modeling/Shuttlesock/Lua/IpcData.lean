/-
The data of Lua IPC messages (`modules/lua_bridge/api/ipc_lua_api.c`): `pack_field`, `unpack_field`,
`luaS_lua_ipc_pack_data`, `luaS_lua_ipc_unpack_data`, `luaS_lua_ipc_gc_data`.

Model: memory is a set of blocks by address. An `Allocator` picks the address of a new one, shared slab or Lua userdata,
outside all that are in use. `mem` holds the packed tables (`ipc_lua_table_t`, with its arrays). A packed string keeps
its bytes in the field; its address is none when the bytes are those of the Lua string itself.
- `packed`, `unpacked`: the tables at `packed_data_table_index` and `table_n`.
- `reftable`: the light userdata keys of the table at `data->reftable`. The references that keep Lua strings and
  userdata alive in heap mode are not in the model: such a block stays in place until the message is collected.
- the recursion of `pack_field` and `unpack_field` into a table has a depth as fuel (`deep`: not enough).
- `raise`: `luaL_error`. Neither function catches an error, the state is left as it is at that point.
- not in the model: the capacity of the Lua stack and of the C stack, a failing allocation.
-/
import Mathlib.Tactic
import Shuttlesock.Lua.Value

namespace Shuttlesock.Lua

/-! ## Packed data -/

/-- `shuso_ipc_lua_field_t` -/
inductive Field where
  | nil
  | boolean (boolean : Bool)
  | lightuserdata (pointer : ℕ)
  | integer (integer : BitVec 32)
  | number (number : BitVec 64)
  | string (data : Option ℕ) (bytes : List UInt8)
  | table (table : ℕ)
deriving DecidableEq, Repr

/-- `ipc_lua_table_t` -/
structure Table where
  keys : List Field
  values : List Field
  narr : ℕ
  nrec : ℕ

/-- `shuso_ipc_lua_data_t`; block is the address of the record itself -/
structure Data where
  block : ℕ
  field : Field
  reftable : List ℕ
  name : String
  origin_procnum : ℤ
  in_shared_memory : Bool
  automatic_gc : Bool

structure Allocator where
  block : Finset ℕ → ℕ
  fresh : ∀ used, block used ∉ used

/-- what the messages of a process share; freed lists the calls of `shuso_shared_slab_free` -/
structure World where
  procnum : ℤ
  slab : Finset ℕ
  userdata : Finset ℕ
  mem : ℕ → Table
  ipc_messages_active : ℤ
  freed : List ℕ

def World.used (w : World) : Finset ℕ := w.slab ∪ w.userdata

inductive Res (S A : Type*) where
  | ok (a : A) (s : S)
  | raise (msg : String) (s : S)
  | deep

/-! ## `pack_field` -/

structure Packing (T : Type*) extends World where
  reftable : List ℕ
  packed : T → Option ℕ

variable {T : Type*} [DecidableEq T]

/-- a block of the message: from the slab, with its address saved for later cleanup, or a userdata -/
def alloc (A : Allocator) (shared : Bool) (s : Packing T) : ℕ × Packing T :=
  let ptr := A.block s.used
  (ptr, if shared then { s with slab := insert ptr s.slab, reftable := s.reftable ++ [ptr] }
    else { s with userdata := insert ptr s.userdata })

/-- the loop over a table: the value first, then the key -/
def pack_entries (pack : Value T → Packing T → Res (Packing T) Field) :
    List (Value T × Value T) → Packing T → Res (Packing T) (List Field × List Field)
  | [], s => .ok ([], []) s
  | (k, v) :: rest, s =>
    match pack v s with
    | .raise msg s => .raise msg s
    | .deep => .deep
    | .ok fv s =>
      match pack k s with
      | .raise msg s => .raise msg s
      | .deep => .deep
      | .ok fk s =>
        match pack_entries pack rest s with
        | .raise msg s => .raise msg s
        | .deep => .deep
        | .ok (keys, values) s => .ok (fk :: keys, fv :: values) s

def pack_field (A : Allocator) (shared : Bool) (tables : Tables T) :
    ℕ → Value T → Packing T → Res (Packing T) Field
  | _, .nil, s => .ok .nil s
  | _, .boolean b, s => .ok (.boolean b) s
  | _, .lightuserdata p, s => .ok (.lightuserdata p) s
  | _, .integer i, s => .ok (.integer (i.setWidth 32)) s
  | _, .number x, s => .ok (.number x) s
  | _, .string bytes, s =>
    if shared then
      let (data, s) := alloc A true s
      .ok (.string (some data) bytes) s
    else .ok (.string none bytes) s
  | _, .function, s => .raise "cannot send function in Lua IPC message" s
  | _, .userdata, s => .raise "cannot send full userdata in Lua IPC message" s
  | _, .thread, s => .raise "cannot send coroutine in Lua IPC message" s
  | fuel, .table t, s =>
    match s.packed t with
    | some table => .ok (.table table) s
    | none =>
      match fuel with
      | 0 => .deep
      | fuel + 1 =>
        let (table, s) := alloc A shared s
        let s := { s with packed := Function.update s.packed t (some table) }
        match pack_entries (pack_field A shared tables fuel) (tables t) s with
        | .raise msg s => .raise msg s
        | .deep => .deep
        | .ok (keys, values) s =>
          .ok (.table table) { s with
            mem := Function.update s.mem table
              ⟨keys, values, (tables t).countP fun e => e.1.isinteger, (tables t).countP fun e => !e.1.isinteger⟩ }

/-- up to the call of `pack_field`: the record is allocated, the two tables are empty -/
def pack_start (A : Allocator) (use_shared_memory : Bool) (w : World) : Packing T :=
  let block := A.block w.used
  let w := if use_shared_memory then { w with slab := insert block w.slab }
    else { w with userdata := insert block w.userdata }
  { w with reftable := [], packed := fun _ => none }

def luaS_lua_ipc_pack_data (A : Allocator) (tables : Tables T) (fuel : ℕ) (v : Value T) (name : String)
    (use_shared_memory : Bool) (w : World) : Res World Data :=
  match pack_field A use_shared_memory tables fuel v (pack_start A use_shared_memory w) with
  | .raise msg s => .raise msg s.toWorld
  | .deep => .deep
  | .ok field s =>
    .ok { block := A.block w.used
          field := field
          reftable := s.reftable
          name := name
          origin_procnum := s.procnum
          in_shared_memory := use_shared_memory
          automatic_gc := false }
      { s.toWorld with ipc_messages_active := s.ipc_messages_active + 1 }

/-! ## `unpack_field` -/

/-- new tables are numbered in the order of their creation -/
structure Unpacking where
  tables : Tables ℕ
  count : ℕ
  unpacked : ℕ → Option ℕ

/-- the loop over the arrays of a packed table: the key first, then the value -/
def unpack_entries (unpack : Field → Unpacking → Res Unpacking (Value ℕ)) (id : ℕ) :
    List (Field × Field) → Unpacking → Res Unpacking Unit
  | [], s => .ok () s
  | (fk, fv) :: rest, s =>
    match unpack fk s with
    | .raise msg s => .raise msg s
    | .deep => .deep
    | .ok k s =>
      match unpack fv s with
      | .raise msg s => .raise msg s
      | .deep => .deep
      | .ok v s =>
        unpack_entries unpack id rest { s with tables := Function.update s.tables id (rawset (s.tables id) k v) }

def unpack_field (mem : ℕ → Table) : ℕ → Field → Unpacking → Res Unpacking (Value ℕ)
  | _, .nil, s => .ok .nil s
  | _, .boolean b, s => .ok (.boolean b) s
  | _, .lightuserdata p, s => .ok (.lightuserdata p) s
  | _, .integer i, s => .ok (.integer (i.signExtend 64)) s
  | _, .number x, s => .ok (.number x) s
  | _, .string _ bytes, s => .ok (.string bytes) s
  | fuel, .table table, s =>
    match s.unpacked table with
    | some id => .ok (.table id) s
    | none =>
      match fuel with
      | 0 => .deep
      | fuel + 1 =>
        let id := s.count
        let s : Unpacking := ⟨Function.update s.tables id [], id + 1, Function.update s.unpacked table (some id)⟩
        let sz := (mem table).narr + (mem table).nrec
        match unpack_entries (unpack_field mem fuel) id (((mem table).keys.zip (mem table).values).take sz) s with
        | .raise msg s => .raise msg s
        | .deep => .deep
        | .ok () s => .ok (.table id) s

def luaS_lua_ipc_unpack_data (mem : ℕ → Table) (fuel : ℕ) (d : Data) : Res Unpacking (Value ℕ) :=
  unpack_field mem fuel d.field ⟨fun _ => [], 0, fun _ => none⟩

/-! ## `luaS_lua_ipc_gc_data` -/

def slab_free (w : World) (ptr : ℕ) : World := { w with slab := w.slab.erase ptr, freed := w.freed ++ [ptr] }

/-- none: a failed assertion -/
def luaS_lua_ipc_gc_data (w : World) (d : Data) : Option World :=
  if d.origin_procnum ≠ w.procnum then none
  else
    let w := if d.in_shared_memory then d.reftable.foldl slab_free w else w
    let w := { w with ipc_messages_active := w.ipc_messages_active - 1 }
    if w.ipc_messages_active < 0 then none else some w

/-! ## A process to start from -/

/-- the first address above all that are in use -/
def firstFree : Allocator where
  block := fun used => used.sup id + 1
  fresh := by
    intro used h
    have hle : used.sup id + 1 ≤ used.sup id := Finset.le_sup (f := id) h
    omega

/-- a process that has packed nothing -/
def noMessages : World := ⟨0, ∅, ∅, fun _ => ⟨[], [], 0, 0⟩, 0, []⟩

end Shuttlesock.Lua
