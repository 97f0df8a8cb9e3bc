/-
A lazy atomic in one process (`lazy_atomics.c`): what `value` returns after `set` and `increment`, and the blocks of the shared slab
that hold its strings.

Model: the record, and the blocks that its sets took from the slab. `LazyAtomics.lean` has the race of many processes, without
strings. Here every call runs to its end, so the exchange of the type word never fails.
- `create` stores a type only. The other fields are what the slab left in the block: also the pointer to the string. A create with
  arguments calls `set` with the first of them in the place of the atomic, and leaves the type word as it was too.
- An op has what `shuso_shared_slab_alloc` returns, none for NULL. It does not return a block that is still allocated (`call`).
- `undefined`: NULL is read, or a block that is not allocated is read or freed.
- not in the model: `get_id` and the copies in other Lua states.

Results:
- `exact_iff`: each set returns true and `value` then returns what was set, with what was added to it, exactly when the integers fit
  an `int`, no string is empty, and the first string does not free what the pointer was at the start.
- `sound_of_ok`: every block that is freed was allocated by a set and not freed before, and none is left by `destroy`, when the
  pointer was NULL at the start, and no set takes a block for an empty string.
- `not_exact`, `not_sound`: an empty string.
-/
import Mathlib.Tactic
import Shuttlesock.Core.Runs
import Shuttlesock.Lua.LazyAtomics

namespace Shuttlesock.LazyRecord

open Runs
open LazyAtomics (SHUSO_LUA_SHATOMIC_NIL SHUSO_LUA_SHATOMIC_BOOLEAN SHUSO_LUA_SHATOMIC_INTEGER SHUSO_LUA_SHATOMIC_NUMBER
  SHUSO_LUA_SHATOMIC_POINTER toInt get_type new_typemix Fits)

/-! ## Model -/

def SHUSO_LUA_SHATOMIC_STRING : ℕ := 2

abbrev Bytes := List UInt8

/-- a Lua value -/
inductive Value (Num : Type) where
  | nil
  | boolean (b : Bool)
  | integer (i : ℤ)
  | number (x : Num)
  | pointer (p : ℕ)
  | string (str : Bytes)
  /-- of another type, with its name -/
  | other (typename : String)
deriving DecidableEq

/-- `shuso_lua_lazy_atomic_value_t` -/
structure Record (Num : Type) where
  typemix : ℕ
  /-- none is NULL -/
  string : Option ℕ
  integer : ℤ
  number : Num
  boolean : Bool
  pointer : ℕ
deriving DecidableEq

structure State (Num : Type) where
  /-- none once it is destroyed -/
  atomic : Option (Record Num)
  /-- the strings in the blocks -/
  mem : ℕ → Bytes
  /-- allocated by a set, and not freed since -/
  blocks : Finset ℕ
  /-- freed, and not one of them -/
  wrong : List ℕ

inductive Ret (Num : Type) where
  | value (v : Value Num)
  /-- nil and an error -/
  | failed (err : String)
  | undefined
deriving DecidableEq

inductive Op (Num : Type) where
  | set (v : Value Num) (block : Option ℕ)
  | increment (n : ℤ)
  | destroy
deriving DecidableEq

variable {Num : Type}

/-- `Lua_lazy_atomics_value_create` without arguments -/
def create (garbage : Record Num) : Record Num := { garbage with typemix := SHUSO_LUA_SHATOMIC_NIL }

/-- a record before its first set -/
def init (r : Record Num) (mem : ℕ → Bytes) : State Num := ⟨some r, mem, ∅, []⟩

def shuso_shared_slab_free (s : State Num) (p : ℕ) : State Num :=
  if p ∈ s.blocks then { s with blocks := s.blocks.erase p } else { s with wrong := s.wrong ++ [p] }

/-- `update_type_safely`, with the word that was loaded; nobody else has changed it -/
def update_type_safely (s : State Num) (r : Record Num) (new_type : ℕ) : State Num × Ret Num :=
  ({ s with atomic := some { r with typemix := new_typemix r.typemix new_type } }, .value (.boolean true))

/-- the string of a set, in the block that was allocated for it -/
def set_string (s : State Num) (r : Record Num) (str : Bytes) (x : ℕ) : State Num × Ret Num :=
  let s := { s with blocks := insert x s.blocks }
  if str = [] then (s, .failed "failed to allocate shared string for atomic value")
  else
    let s := { s with mem := Function.update s.mem x str }
    let r' := { r with string := some x }
    match r.string with
    | none => update_type_safely s r' SHUSO_LUA_SHATOMIC_STRING
    | some old =>
      let res := update_type_safely (shuso_shared_slab_free s old) r' SHUSO_LUA_SHATOMIC_STRING
      if old ∈ s.blocks then res else (res.1, .undefined)

/-- `Lua_lazy_atomics_value_set` -/
def set (s : State Num) (v : Value Num) (block : Option ℕ) : State Num × Ret Num :=
  match s.atomic with
  | none => (s, .failed "can't set destroyed atomic value")
  | some r =>
    match v with
    | .integer i => update_type_safely s { r with integer := toInt i } SHUSO_LUA_SHATOMIC_INTEGER
    | .number x => update_type_safely s { r with number := x } SHUSO_LUA_SHATOMIC_NUMBER
    | .string str =>
      match block with
      | some x => set_string s r str x
      -- only the size is tested, and then the block is written
      | none => (s, if str = [] then .failed "failed to allocate shared string for atomic value" else .undefined)
    | .pointer p => update_type_safely s { r with pointer := p } SHUSO_LUA_SHATOMIC_POINTER
    | .nil => update_type_safely s r SHUSO_LUA_SHATOMIC_NIL
    | .boolean b => update_type_safely s { r with boolean := b } SHUSO_LUA_SHATOMIC_BOOLEAN
    | .other typename => (s, .failed s!"can't set atomic value type {typename}")

/-- the payload of a type -/
def load (s : State Num) (r : Record Num) (valtype : ℕ) : Ret Num :=
  if valtype = SHUSO_LUA_SHATOMIC_NIL then .value .nil
  else if valtype = SHUSO_LUA_SHATOMIC_BOOLEAN then .value (.boolean r.boolean)
  else if valtype = SHUSO_LUA_SHATOMIC_INTEGER then .value (.integer r.integer)
  else if valtype = SHUSO_LUA_SHATOMIC_NUMBER then .value (.number r.number)
  else if valtype = SHUSO_LUA_SHATOMIC_POINTER then .value (.pointer r.pointer)
  else if valtype = SHUSO_LUA_SHATOMIC_STRING then
    r.string.elim .undefined fun x => if x ∈ s.blocks then .value (.string (s.mem x)) else .undefined
  else .failed "invalid atomic value type"

/-- `Lua_lazy_atomics_value_get` -/
def value (s : State Num) : Ret Num :=
  match s.atomic with
  | none => .failed "can't set destroyed atomic value"
  | some r => load s r (get_type r.typemix)

/-- `Lua_lazy_atomics_value_increment`: the value before -/
def increment (s : State Num) (n : ℤ) : State Num × Ret Num :=
  match s.atomic with
  | none => (s, .failed "can't set destroyed atomic value")
  | some r =>
    let type := get_type r.typemix
    if type = SHUSO_LUA_SHATOMIC_INTEGER then
      ({ s with atomic := some { r with integer := toInt (r.integer + n) } }, .value (.integer r.integer))
    else if type = SHUSO_LUA_SHATOMIC_NUMBER then (s, .failed "can't increment atomic floating-point number")
    else if type = SHUSO_LUA_SHATOMIC_BOOLEAN then (s, .failed "can't increment atomic boolean")
    else if type = SHUSO_LUA_SHATOMIC_NIL then (s, .failed "can't increment atomic nil")
    else if type = SHUSO_LUA_SHATOMIC_POINTER then (s, .failed "can't increment atomic pointer")
    else if type = SHUSO_LUA_SHATOMIC_STRING then (s, .failed "can't increment atomic string")
    else (s, .failed "invalid atomic value type")

/-- `Lua_lazy_atomics_value_destroy`; the record is freed too -/
def destroy (s : State Num) : State Num × Ret Num :=
  match s.atomic with
  | none => (s, .undefined)
  | some r => ({ r.string.elim s (shuso_shared_slab_free s) with atomic := none }, .value (.boolean true))

def call (s : State Num) : Op Num → State Num × Ret Num
  | .set v block => set s v block
  | .increment n => increment s n
  | .destroy => destroy s

/-- the block that was allocated for an op, if one was -/
def Op.block : Op Num → Option ℕ
  | .set (.string _) block => block
  | _ => none

def step (s : State Num) (op : Op Num) : Option (State Num) :=
  if ∃ x ∈ op.block, x ∈ s.blocks then none else some (call s op).1

/-! ## Values -/

/-- what `value` should return after an op, if it returned v before -/
def Value.after (v : Value Num) : Op Num → Value Num
  | .set w _ => w
  | .increment n =>
    match v with
    | .integer i => .integer (i + n)
    | v => v
  | .destroy => v

/-- a set of nil, a boolean, a number, a pointer or a string, for which memory is left, or an increment -/
def Op.Plain : Op Num → Prop
  | .set (.other _) _ => False
  | .set _ block => block ≠ none
  | .increment _ => True
  | .destroy => False

/-- the slab returns blocks that are not allocated -/
def Fresh (s : State Num) : List (Op Num) → Prop
  | [] => True
  | op :: ops => (∀ x ∈ op.block, x ∉ s.blocks) ∧ Fresh (call s op).1 ops

/-- **The claim**: each set returns true, and `value` then returns what it should -/
def Exact (s : State Num) (v : Value Num) : List (Op Num) → Prop
  | [] => True
  | op :: ops =>
    ((∃ w block, op = .set w block) → (call s op).2 = .value (.boolean true)) ∧ value (call s op).1 = .value (v.after op) ∧
      Exact (call s op).1 (v.after op) ops

/-- an integer in the range of an `int`, and a string that is not empty -/
def Value.Fits : Value Num → Prop
  | .integer i => LazyAtomics.Fits i
  | .string str => str ≠ []
  | _ => True

/-- all values fit -/
def AllFit (v : Value Num) : List (Op Num) → Prop
  | [] => True
  | op :: ops => (v.after op).Fits ∧ AllFit (v.after op) ops

def Op.sets_string : Op Num → Prop
  | .set (.string _) _ => True
  | _ => False

/-- the string is in a block of its own -/
def Owned (s : State Num) : Prop := ∀ r, s.atomic = some r → ∀ x ∈ r.string, x ∈ s.blocks

section Values

variable {s : State Num} {r : Record Num} {v w : Value Num} {op : Op Num}

theorem get_type_new (old_typemix : ℕ) {ty : ℕ} (hty : ty < 16) : get_type (new_typemix old_typemix ty) = ty := by
  unfold get_type new_typemix
  omega

@[simp] theorem update_ret (s : State Num) (r : Record Num) (ty : ℕ) : (update_type_safely s r ty).2 = .value (.boolean true) := rfl

@[simp] theorem update_atomic (s : State Num) (r : Record Num) (ty : ℕ) :
    (update_type_safely s r ty).1.atomic = some { r with typemix := new_typemix r.typemix ty } := rfl

@[simp] theorem update_blocks (s : State Num) (r : Record Num) (ty : ℕ) : (update_type_safely s r ty).1.blocks = s.blocks := rfl

@[simp] theorem update_mem (s : State Num) (r : Record Num) (ty : ℕ) : (update_type_safely s r ty).1.mem = s.mem := rfl

@[simp] theorem update_wrong (s : State Num) (r : Record Num) (ty : ℕ) : (update_type_safely s r ty).1.wrong = s.wrong := rfl

/-- `value` after the type word was exchanged -/
theorem value_update (s : State Num) (r : Record Num) {ty : ℕ} (hty : ty < 16) : value (update_type_safely s r ty).1 = load s r ty := by
  change load _ _ (get_type (new_typemix r.typemix ty)) = _
  rw [get_type_new r.typemix hty]
  rfl

/-- a value that is not a string, and has a type of its own -/
def Value.Scalar (w : Value Num) : Prop := (∀ str, w ≠ .string str) ∧ ∀ typename, w ≠ .other typename

theorem set_scalar (hs : s.atomic = some r) (block : Option ℕ) (hw : w.Scalar) :
    (set s w block).2 = .value (.boolean true) ∧ (set s w block).1.blocks = s.blocks ∧ (set s w block).1.wrong = s.wrong ∧
      (∃ r', (set s w block).1.atomic = some r' ∧ r'.string = r.string) ∧ (value (set s w block).1 = .value w ↔ w.Fits) := by
  cases w with
  | string str => exact absurd rfl (hw.1 str)
  | other typename => exact absurd rfl (hw.2 typename)
  | nil =>
    simp only [set, hs]
    exact ⟨rfl, rfl, rfl, ⟨_, rfl, rfl⟩, iff_of_true (value_update _ _ (by decide)) trivial⟩
  | boolean b =>
    simp only [set, hs]
    exact ⟨rfl, rfl, rfl, ⟨_, rfl, rfl⟩, iff_of_true (value_update _ _ (by decide)) trivial⟩
  | number x =>
    simp only [set, hs]
    exact ⟨rfl, rfl, rfl, ⟨_, rfl, rfl⟩, iff_of_true (value_update _ _ (by decide)) trivial⟩
  | pointer p =>
    simp only [set, hs]
    exact ⟨rfl, rfl, rfl, ⟨_, rfl, rfl⟩, iff_of_true (value_update _ _ (by decide)) trivial⟩
  | integer i =>
    simp only [set, hs]
    refine ⟨rfl, rfl, rfl, ⟨_, rfl, rfl⟩, ?_⟩
    rw [value_update _ _ (by decide)]
    change Ret.value (.integer (toInt i)) = .value (.integer i) ↔ toInt i = i
    simp

theorem owned_iff (hs : s.atomic = some r) : Owned s ↔ ∀ x ∈ r.string, x ∈ s.blocks := by
  constructor
  · intro h
    exact h r hs
  · intro h r' hr'
    obtain rfl : r = r' := Option.some.inj (hs.symm.trans hr')
    exact h

/-- the string that was set is returned while its block is allocated -/
theorem value_string (s : State Num) (r : Record Num) {x : ℕ} (hr : r.string = some x) :
    value (update_type_safely s r SHUSO_LUA_SHATOMIC_STRING).1 =
      if x ∈ s.blocks then .value (.string (s.mem x)) else .undefined := by
  rw [value_update _ _ (by decide)]
  change r.string.elim _ _ = _
  rw [hr]
  rfl

theorem free_own {p : ℕ} (hp : p ∈ s.blocks) : shuso_shared_slab_free s p = { s with blocks := s.blocks.erase p } := if_pos hp

/-- a set of a string frees the one before -/
theorem set_string_eq (hs : s.atomic = some r) {str : Bytes} (hstr : str ≠ []) (x : ℕ) {s₁ : State Num}
    (hs₁ : s₁ = { s with blocks := insert x s.blocks, mem := Function.update s.mem x str }) :
    set s (.string str) (some x) =
      r.string.elim (update_type_safely s₁ { r with string := some x } SHUSO_LUA_SHATOMIC_STRING) fun old =>
        ((update_type_safely (shuso_shared_slab_free s₁ old) { r with string := some x } SHUSO_LUA_SHATOMIC_STRING).1,
          if old ∈ s₁.blocks then .value (.boolean true) else .undefined) := by
  subst hs₁
  simp only [set, hs, set_string, if_neg hstr]
  cases r.string with
  | none => rfl
  | some old =>
    simp only [Option.elim_some]
    split
    · rfl
    · rfl

theorem set_string_spec (hs : s.atomic = some r) {str : Bytes} (hstr : str ≠ []) {x : ℕ} (hx : x ∉ s.blocks) :
    (∃ r', (set s (.string str) (some x)).1.atomic = some r') ∧
    (Owned s → Owned (set s (.string str) (some x)).1 ∧ (set s (.string str) (some x)).2 = .value (.boolean true) ∧
      value (set s (.string str) (some x)).1 = .value (.string str)) ∧
    (¬ Owned s → (set s (.string str) (some x)).2 = .value (.boolean true) →
      value (set s (.string str) (some x)).1 = .undefined) := by
  obtain ⟨s₁, hs₁⟩ : ∃ s₁ : State Num, s₁ = { s with blocks := insert x s.blocks, mem := Function.update s.mem x str } := ⟨_, rfl⟩
  have hmem : s₁.mem x = str := by rw [hs₁]; exact Function.update_self ..
  have hblocks : s₁.blocks = insert x s.blocks := by rw [hs₁]
  rw [owned_iff hs, set_string_eq hs hstr x hs₁]
  cases hold : r.string with
  | none =>
    refine ⟨⟨_, rfl⟩, fun _ => ⟨?_, rfl, ?_⟩, fun hno => absurd (fun y hy => by cases hy) hno⟩
    · apply (owned_iff rfl).2
      intro y hy
      obtain rfl : x = y := Option.some.inj hy
      change x ∈ s₁.blocks
      simp [hblocks]
    · rw [Option.elim_none, value_string _ _ rfl, if_pos (by simp [hblocks]), hmem]
  | some old =>
    simp only [Option.elim_some]
    refine ⟨⟨_, rfl⟩, fun hown => ?_, fun hno htrue => ?_⟩
    · have hin : old ∈ s.blocks := hown old rfl
      have hne : x ≠ old := fun heq => hx (heq ▸ hin)
      have hin₁ : old ∈ s₁.blocks := by simp [hblocks, hin]
      have hleft : x ∈ (shuso_shared_slab_free s₁ old).blocks := by simp [free_own hin₁, hblocks, hne]
      refine ⟨?_, by rw [if_pos hin₁], ?_⟩
      · apply (owned_iff rfl).2
        intro y hy
        obtain rfl : x = y := Option.some.inj hy
        exact hleft
      · rw [value_string _ _ rfl, if_pos hleft, free_own hin₁, hmem]
    · have hnot : old ∉ s.blocks := fun hin => hno fun y hy => by cases hy; exact hin
      have hin₁ : old ∈ s₁.blocks := by
        by_contra hout
        rw [if_neg hout] at htrue
        cases htrue
      have heq : old = x := by
        rw [hblocks, Finset.mem_insert] at hin₁
        exact hin₁.resolve_right hnot
      rw [value_string _ _ rfl, if_neg]
      rw [free_own hin₁, heq]
      simp

/-! ## One call -/

/-- what one call has to do -/
def Good (s : State Num) (v : Value Num) (op : Op Num) : Prop :=
  ((∃ w block, op = .set w block) → (call s op).2 = .value (.boolean true)) ∧ value (call s op).1 = .value (v.after op)

/-- only the integer is an integer -/
theorem load_integer {ty : ℕ} {i : ℤ} (h : load s r ty = .value (.integer i)) : ty = SHUSO_LUA_SHATOMIC_INTEGER ∧ i = r.integer := by
  unfold load at h
  split_ifs at h with _ _ hty
  · cases h
  · cases h
  · cases h
    exact ⟨hty, rfl⟩
  · cases h
  · cases h
  · cases hstr : r.string with
    | none =>
      rw [hstr] at h
      cases h
    | some x =>
      rw [hstr, Option.elim_some] at h
      split at h
      · cases h
      · cases h

theorem increment_frame (hs : s.atomic = some r) (n : ℤ) :
    (∃ r', (increment s n).1.atomic = some r' ∧ r'.string = r.string) ∧ (increment s n).1.blocks = s.blocks ∧
      (increment s n).1.wrong = s.wrong := by
  simp only [increment, hs]
  split_ifs
  · exact ⟨⟨_, rfl, rfl⟩, rfl, rfl⟩
  all_goals exact ⟨⟨r, hs, rfl⟩, rfl, rfl⟩

theorem increment_spec (hs : s.atomic = some r) (hv : value s = .value v) (hfit : v.Fits) (n : ℤ) :
    value (increment s n).1 = .value (v.after (.increment n)) ↔ (v.after (.increment n)).Fits := by
  have hload : load s r (get_type r.typemix) = .value v := by
    rw [← hv]
    simp only [value, hs]
  by_cases hty : get_type r.typemix = SHUSO_LUA_SHATOMIC_INTEGER
  · rw [hty] at hload
    obtain rfl : Value.integer r.integer = v := Ret.value.inj hload
    have hvalue : value (increment s n).1 = .value (.integer (toInt (r.integer + n))) := by
      simp only [increment, value, hs, hty, if_true]
      rfl
    rw [hvalue]
    change Ret.value (.integer (toInt (r.integer + n))) = .value (.integer (r.integer + n)) ↔ toInt (r.integer + n) = r.integer + n
    simp
  · have hsame : (increment s n).1 = s := by
      simp only [increment, hs, if_neg hty]
      split_ifs
      all_goals rfl
    have hafter : v.after (.increment n) = v := by
      cases v with
      | integer i => exact absurd (load_integer hload).1 hty
      | _ => rfl
    rw [hsame, hafter]
    exact iff_of_true hv hfit

theorem owned_congr {s' : State Num} {r' : Record Num} (hs : s.atomic = some r) (hs' : s'.atomic = some r') (hstr : r'.string = r.string)
    (hblocks : s'.blocks = s.blocks) : Owned s' ↔ Owned s := by
  rw [owned_iff hs, owned_iff hs', hstr, hblocks]

/-- **One call**: the value fits, and a string frees a block of its own. -/
theorem good_iff (hs : s.atomic = some r) (hv : value s = .value v) (hfit : v.Fits) (hop : op.Plain)
    (hfresh : ∀ x ∈ op.block, x ∉ s.blocks) :
    (∃ r', (call s op).1.atomic = some r') ∧ (Good s v op ↔ (v.after op).Fits ∧ (Owned s ∨ ¬ op.sets_string)) ∧
      (Good s v op → (Owned (call s op).1 ↔ Owned s ∨ op.sets_string)) := by
  cases op with
  | destroy => exact absurd hop id
  | increment n =>
    obtain ⟨⟨r', hr', hstr⟩, hblocks, -⟩ := increment_frame hs n
    have hiff := increment_spec hs hv hfit n
    have hown := owned_congr hs hr' hstr hblocks
    refine ⟨⟨r', hr'⟩, ?_, fun _ => ?_⟩
    · constructor
      · intro hgood
        exact ⟨hiff.1 hgood.2, .inr id⟩
      · intro h
        refine ⟨fun ⟨w, block, heq⟩ => ?_, hiff.2 h.1⟩
        cases heq
    · exact hown.trans (or_iff_left id).symm
  | set w block =>
    have hblock : ∃ x, block = some x := by
      apply Option.ne_none_iff_exists'.1
      cases w with
      | other name => exact absurd hop id
      | _ => exact hop
    obtain ⟨x, rfl⟩ := hblock
    by_cases hw : ∃ str, w = .string str
    · obtain ⟨str, rfl⟩ := hw
      have hx : x ∉ s.blocks := hfresh x rfl
      by_cases hstr : str = []
      · subst hstr
        have hset : set s (.string []) (some x) =
            ({ s with blocks := insert x s.blocks }, .failed "failed to allocate shared string for atomic value") := by
          simp only [set, hs, set_string, if_true]
        have hbad : ¬ Good s v (.set (.string []) (some x)) := by
          intro hgood
          have hret := hgood.1 ⟨_, _, rfl⟩
          change (set s (.string []) (some x)).2 = _ at hret
          rw [hset] at hret
          cases hret
        refine ⟨⟨r, ?_⟩, iff_of_false hbad fun h => h.1 rfl, fun hgood => absurd hgood hbad⟩
        change (set s (.string []) (some x)).1.atomic = _
        rw [hset]
        exact hs
      · obtain ⟨hatomic, hgood, hbad⟩ := set_string_spec hs hstr hx
        refine ⟨hatomic, ⟨fun h => ⟨hstr, .inl ?_⟩, fun h => ?_⟩, fun h => ?_⟩
        · by_contra hno
          have hvalue := hbad hno (h.1 ⟨_, _, rfl⟩)
          have hexact := h.2
          change value (set s (.string str) (some x)).1 = _ at hexact
          rw [hvalue] at hexact
          cases hexact
        · have hown : Owned s := h.2.resolve_right fun hno => hno trivial
          exact ⟨fun _ => (hgood hown).2.1, (hgood hown).2.2⟩
        · apply iff_of_true _ (.inr trivial)
          by_cases hown : Owned s
          · exact (hgood hown).1
          · have hvalue := hbad hown (h.1 ⟨_, _, rfl⟩)
            have hexact := h.2
            change value (set s (.string str) (some x)).1 = _ at hexact
            rw [hvalue] at hexact
            cases hexact
    · have hscalar : w.Scalar := by
        refine ⟨fun str heq => hw ⟨str, heq⟩, fun name heq => ?_⟩
        rw [heq] at hop
        exact hop
      have hnot : ¬ (Op.set w (some x)).sets_string := by
        cases w with
        | string str => exact absurd ⟨str, rfl⟩ hw
        | _ => exact id
      obtain ⟨hret, hblocks, -, ⟨r', hr', hstr⟩, hiff⟩ := set_scalar hs (some x) hscalar
      have hown := owned_congr hs hr' hstr hblocks
      refine ⟨⟨r', hr'⟩, ⟨fun h => ⟨hiff.1 h.2, .inr hnot⟩, fun h => ⟨fun _ => hret, hiff.2 h.1⟩⟩, fun _ => ?_⟩
      exact hown.trans (or_iff_left hnot).symm

end Values

/-! ## Runs -/

section Runs

variable {s : State Num} {r : Record Num} {v : Value Num} {ops : List (Op Num)}

theorem exact_cons (s : State Num) (v : Value Num) (op : Op Num) (ops : List (Op Num)) :
    Exact s v (op :: ops) ↔ Good s v op ∧ Exact (call s op).1 (v.after op) ops := by
  change _ ∧ _ ∧ _ ↔ (_ ∧ _) ∧ _
  exact and_assoc.symm

/-- from a state where `value` returns v -/
theorem exact_iff_of (hs : s.atomic = some r) (hv : value s = .value v) (hfit : v.Fits) (hops : ∀ op ∈ ops, op.Plain) (hfresh : Fresh s ops) :
    Exact s v ops ↔ AllFit v ops ∧ (Owned s ∨ ∀ op ∈ ops, ¬ op.sets_string) := by
  induction ops generalizing s r v with
  | nil => simp [Exact, AllFit]
  | cons op ops ih =>
    obtain ⟨⟨r', hr'⟩, hgood, hown⟩ := good_iff hs hv hfit (hops op List.mem_cons_self) hfresh.1
    have hrest : Good s v op →
        (Exact (call s op).1 (v.after op) ops ↔ AllFit (v.after op) ops ∧ (Owned (call s op).1 ∨ ∀ op ∈ ops, ¬ op.sets_string)) := by
      intro h
      exact ih hr' h.2 (hgood.1 h).1 (fun o ho => hops o (List.mem_cons_of_mem op ho)) hfresh.2
    rw [exact_cons]
    constructor
    · rintro ⟨h, hexact⟩
      obtain ⟨hall, howned⟩ := (hrest h).1 hexact
      obtain ⟨hfit', hor⟩ := hgood.1 h
      refine ⟨⟨hfit', hall⟩, ?_⟩
      rcases hor with hs' | hnot
      · exact .inl hs'
      · rcases howned with hs' | hno
        · exact .inl (((hown h).1 hs').resolve_right hnot)
        · exact .inr (List.forall_mem_cons.2 ⟨hnot, hno⟩)
    · rintro ⟨⟨hfit', hall⟩, hor⟩
      have hor' : Owned s ∨ ¬ op.sets_string := hor.imp_right fun hno => hno op List.mem_cons_self
      have h := hgood.2 ⟨hfit', hor'⟩
      refine ⟨h, (hrest h).2 ⟨hall, ?_⟩⟩
      rcases hor with hs' | hno
      · exact .inl ((hown h).2 (.inl hs'))
      · exact .inr fun o ho => hno o (List.mem_cons_of_mem op ho)

/-- **Get after set**: exact for the values that fit, from a record whose pointer was NULL when a string is set. -/
theorem exact_iff (garbage : Record Num) (mem : ℕ → Bytes) (ops : List (Op Num)) (hops : ∀ op ∈ ops, op.Plain)
    (hfresh : Fresh (init (create garbage) mem) ops) :
    Exact (init (create garbage) mem) .nil ops ↔ AllFit .nil ops ∧ (garbage.string = none ∨ ∀ op ∈ ops, ¬ op.sets_string) := by
  rw [exact_iff_of (v := .nil) rfl rfl trivial hops hfresh, owned_iff rfl]
  have hnull : (∀ x ∈ garbage.string, x ∈ (∅ : Finset ℕ)) ↔ garbage.string = none := by
    cases garbage.string with
    | none => simp
    | some x => simp
  exact and_congr_right fun _ => or_congr_left hnull

end Runs

/-- an integer, a string, nothing and an increment -/
def some_ops : List (Op ℕ) := [.set (.integer 7) (some 1), .increment 2, .set (.string [104]) (some 2), .set .nil (some 3)]

def garbage_null : Record ℕ := ⟨77, none, 1, 2, true, 3⟩

theorem exact_some : Exact (init (create garbage_null) fun _ => []) .nil some_ops := by
  apply (exact_iff garbage_null (fun _ => []) some_ops ?_ ?_).2
  · exact ⟨⟨rfl, rfl, List.cons_ne_nil _ _, trivial, trivial⟩, .inl rfl⟩
  · simp [some_ops, Op.Plain]
  · have hno : ∀ (blocks : Finset ℕ), ∀ x ∈ (none : Option ℕ), x ∉ blocks := fun blocks x hx => by cases hx
    exact ⟨hno _, hno _, fun x _ => Finset.notMem_empty x, hno _, trivial⟩

/-- the empty string is not set, and an integer loses its upper half -/
theorem not_exact : ¬ ∀ (garbage : Record ℕ) (mem : ℕ → Bytes) (ops : List (Op ℕ)), (∀ op ∈ ops, op.Plain) →
    Fresh (init (create garbage) mem) ops → Exact (init (create garbage) mem) .nil ops := by
  intro hall
  have h := hall garbage_null (fun _ => []) [.set (.string []) (some 1)] (by simp [Op.Plain]) ⟨by simp [init], trivial⟩
  have hret := h.1 ⟨_, _, rfl⟩
  cases hret

/-! ## Blocks -/

/-- **The claim**: what is freed is allocated, and nothing is left at the end -/
def Sound (s : State Num) : Prop := s.wrong = [] ∧ (s.atomic = none → s.blocks = ∅)

/-- a block for an empty string -/
def Op.leaks : Op Num → Prop
  | .set (.string []) (some _) => True
  | _ => False

/-- the condition on a step -/
def Ok (s : State Num) (op : Op Num) : Prop := s.atomic = none ∨ ¬ op.leaks

/-- the only block is that of the string -/
structure Inv (s : State Num) : Prop where
  wrong : s.wrong = []
  blocks : s.blocks = (s.atomic.bind Record.string).toFinset

section Blocks

variable {s t : State Num} {r : Record Num} {op : Op Num}

theorem Inv.sound (h : Inv s) : Sound s := by
  refine ⟨h.wrong, fun hnone => ?_⟩
  rw [h.blocks, hnone]
  rfl

theorem Inv.of_frame (h : Inv s) (hs : s.atomic = some r) {r' : Record Num} (ht : t.atomic = some r') (hstr : r'.string = r.string)
    (hblocks : t.blocks = s.blocks) (hwrong : t.wrong = s.wrong) : Inv t := by
  refine ⟨hwrong.trans h.wrong, ?_⟩
  rw [hblocks, h.blocks, hs, ht]
  simp [hstr]

theorem set_string_inv (h : Inv s) (hs : s.atomic = some r) {str : Bytes} (hstr : str ≠ []) {x : ℕ} (hx : x ∉ s.blocks) :
    Inv (set s (.string str) (some x)).1 := by
  obtain ⟨s₁, hs₁⟩ : ∃ s₁ : State Num, s₁ = { s with blocks := insert x s.blocks, mem := Function.update s.mem x str } := ⟨_, rfl⟩
  have hblocks := h.blocks
  rw [hs, Option.bind_some] at hblocks
  rw [set_string_eq hs hstr x hs₁]
  cases hold : r.string with
  | none =>
    rw [hold] at hblocks
    refine ⟨?_, ?_⟩
    · simp [hs₁, h.wrong]
    · simp [hs₁, hblocks]
  | some old =>
    rw [hold] at hblocks
    have hin : old ∈ s₁.blocks := by simp [hs₁, hblocks]
    have hne : x ≠ old := fun heq => hx (by simp [hblocks, heq])
    rw [Option.elim_some, free_own hin]
    refine ⟨?_, ?_⟩
    · simp [hs₁, h.wrong]
    · simp only [update_blocks, update_atomic, hs₁, hblocks, Option.bind_some, Option.toFinset_some]
      ext y
      simp only [Finset.mem_erase, Finset.mem_insert, Finset.mem_singleton]
      constructor
      · rintro ⟨hy, rfl | hyold⟩
        · rfl
        · exact absurd hyold hy
      · rintro rfl
        exact ⟨hne, .inl rfl⟩

theorem set_inv (h : Inv s) (hs : s.atomic = some r) (v : Value Num) (block : Option ℕ) (hok : ¬ (Op.set v block).leaks)
    (hfresh : ∀ x ∈ (Op.set v block).block, x ∉ s.blocks) : Inv (set s v block).1 := by
  by_cases hv : v.Scalar
  · obtain ⟨-, hblocks, hwrong, ⟨r', hr', hstr⟩, -⟩ := set_scalar hs block hv
    exact h.of_frame hs hr' hstr hblocks hwrong
  · cases v with
    | string str =>
      cases block with
      | none =>
        simp only [set, hs]
        exact h
      | some x =>
        apply set_string_inv h hs _ (hfresh x rfl)
        rintro rfl
        exact hok trivial
    | other name =>
      simp only [set, hs]
      exact h
    | _ => exact absurd ⟨nofun, nofun⟩ hv

theorem destroy_inv (h : Inv s) : Inv (destroy s).1 := by
  cases hs : s.atomic with
  | none =>
    simp only [destroy, hs]
    exact h
  | some r =>
    have hblocks := h.blocks
    rw [hs, Option.bind_some] at hblocks
    simp only [destroy, hs]
    cases hstr : r.string with
    | none =>
      rw [hstr] at hblocks
      exact ⟨h.wrong, hblocks⟩
    | some x =>
      rw [hstr] at hblocks
      have hin : x ∈ s.blocks := by simp [hblocks]
      rw [Option.elim_some, free_own hin]
      exact ⟨h.wrong, by simp [hblocks]⟩

/-- **One call** keeps the invariant. -/
theorem step_inv (h : Inv s) (hok : Ok s op) (hstep : step s op = some t) : Inv t := by
  unfold step at hstep
  split at hstep
  · cases hstep
  · rename_i hfree
    obtain rfl := Option.some.inj hstep
    have hfresh : ∀ x ∈ op.block, x ∉ s.blocks := fun x hx hin => hfree ⟨x, hx, hin⟩
    cases hs : s.atomic with
    | none =>
      cases op with
      | set v block =>
        simp only [call, set, hs]
        exact h
      | increment n =>
        simp only [call, increment, hs]
        exact h
      | destroy => exact destroy_inv h
    | some r =>
      cases op with
      | set v block => exact set_inv h hs v block (hok.resolve_left (by simp [hs])) hfresh
      | increment n =>
        obtain ⟨⟨r', hr', hstr⟩, hblocks, hwrong⟩ := increment_frame hs n
        exact h.of_frame hs hr' hstr hblocks hwrong
      | destroy => exact destroy_inv h

/-- **Every block is freed once**, from a record whose pointer was NULL, when no empty string takes one. -/
theorem sound_of_ok (r : Record Num) (mem : ℕ → Bytes) (hnull : r.string = none) (s : State Num) (h : Reach step Ok (init r mem) s) :
    Sound s := by
  have hinit : Inv (init r mem) := ⟨rfl, by simp [init, hnull]⟩
  have hinv : Inv s := h.inv hinit fun s op t hs hok hstep => step_inv hs hok hstep
  exact hinv.sound

end Blocks

/-- a string, another one, and the end -/
theorem sound_some : ∃ s : State ℕ, Reach step Ok (init (create garbage_null) fun _ => []) s ∧ s.atomic = none ∧ Sound s := by
  have hreach : Reach step Ok (init (create garbage_null) fun _ => []) _ :=
    ((Reach.init.next (.inr id) (a := .set (.string [104]) (some 1)) rfl).next (.inr id) (a := .set (.string [105]) (some 2)) rfl).next
      (.inr id) (a := .destroy) rfl
  exact ⟨_, hreach, rfl, sound_of_ok _ _ rfl _ hreach⟩

/-- the block of an empty string stays -/
theorem not_sound : ¬ ∀ (r : Record ℕ) (mem : ℕ → Bytes) (s : State ℕ), Reach step always (init r mem) s → Sound s := by
  intro hall
  have hreach : Reach step always (init (create garbage_null) fun _ => []) _ :=
    (Reach.init.next trivial (a := .set (.string []) (some 1)) rfl).next trivial (a := .destroy) rfl
  have hsound := hall _ _ _ hreach
  have hempty := hsound.2 rfl
  revert hempty
  decide

end Shuttlesock.LazyRecord
