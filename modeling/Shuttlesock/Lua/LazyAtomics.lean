/-
The lazy atomics of Lua modules, `lazy_atomics.c`: one value that many processes set, increment and read.

The type of the value and a counter of its updates are in one atomic word, `typemix`; each type has an atomic of its own for its
payload. A set loads the word, stores its payload, and then exchanges the word if it is still what was loaded. When it is not,
the set returns false, and its payload stays.

Model: any number of processes, each in one call at a time. One action is one atomic load, store, exchange or addition, or the
start of a call, with its first load. Strings are left out, and so is the destruction of the value.
- An `int` keeps 32 bits, and so does `typemix`.
- `writer`: the set that stored the payload of a type last, with what has become of it; of nil, the one that last made the value
  nil. The value is created as nil.
- `added`: what was added to the integer since it was stored. `got`: the last result of `value`, with its writer then.

Results:
- `values_of_ok`: every value returned is the payload of a set that returned true or was in progress, with what was added to it,
  in a run where the integers stay in the range of an `int`, and where no set is refused whose payload is in place, and awaited:
  of the type in force, or of one that a process is about to read or to put in force.
- `refused_visible`: otherwise, if its type is the one in force, the next `value` returns the payload of the refused set.
- `value_of_refused`: a run with two sets.
-/
import Mathlib.Tactic
import Shuttlesock.Core.Runs
import Shuttlesock.Core.Procs

namespace Shuttlesock.LazyAtomics

open Runs

/-! ## The shared value -/

def SHUSO_LUA_SHATOMIC_NIL : ℕ := 0
def SHUSO_LUA_SHATOMIC_BOOLEAN : ℕ := 1
def SHUSO_LUA_SHATOMIC_INTEGER : ℕ := 3
def SHUSO_LUA_SHATOMIC_NUMBER : ℕ := 4
def SHUSO_LUA_SHATOMIC_POINTER : ℕ := 5

/-- a Lua value -/
inductive Value (Num : Type) where
  | nil
  | boolean (b : Bool)
  | integer (i : ℤ)
  | number (x : Num)
  | pointer (p : ℕ)
deriving DecidableEq

/-- `shuso_lua_lazy_atomic_value_t` -/
structure LazyAtomic (Num : Type) where
  typemix : ℕ
  integer : ℤ
  number : Num
  boolean : Bool
  pointer : ℕ
deriving DecidableEq

variable {Num : Type}

def Value.atype : Value Num → ℕ
  | .nil => SHUSO_LUA_SHATOMIC_NIL
  | .boolean _ => SHUSO_LUA_SHATOMIC_BOOLEAN
  | .integer _ => SHUSO_LUA_SHATOMIC_INTEGER
  | .number _ => SHUSO_LUA_SHATOMIC_NUMBER
  | .pointer _ => SHUSO_LUA_SHATOMIC_POINTER

/-- as an `int` -/
def toInt (i : ℤ) : ℤ := i.bmod (2 ^ 32)

def get_type (typemix : ℕ) : ℕ := typemix % 16

/-- the word that `update_type_safely` puts in the place of this one -/
def new_typemix (old_typemix new_type : ℕ) : ℕ := ((old_typemix / 256 + 1) * 256 + new_type) % 2 ^ 32

/-- the payload in its place -/
def LazyAtomic.store (a : LazyAtomic Num) : Value Num → LazyAtomic Num
  | .nil => a
  | .boolean b => { a with boolean := b }
  | .integer i => { a with integer := toInt i }
  | .number x => { a with number := x }
  | .pointer p => { a with pointer := p }

/-- what `value` returns for a type; nil also for a type that there is not -/
def LazyAtomic.load (a : LazyAtomic Num) (atype : ℕ) : Value Num :=
  if atype = SHUSO_LUA_SHATOMIC_BOOLEAN then .boolean a.boolean
  else if atype = SHUSO_LUA_SHATOMIC_INTEGER then .integer a.integer
  else if atype = SHUSO_LUA_SHATOMIC_NUMBER then .number a.number
  else if atype = SHUSO_LUA_SHATOMIC_POINTER then .pointer a.pointer
  else .nil

/-- the payload with what was added to it -/
def Value.adjust (added : ℤ) : Value Num → Value Num
  | .integer i => .integer (i + added)
  | v => v

/-! ## The model -/

inductive Op (Num : Type) where
  | set (v : Value Num)
  | increment (n : ℤ)
  | value

/-- where a process is in its call -/
inductive Pc (Num : Type) where
  | idle
  /-- a set that has loaded `old_typemix` -/
  | loaded (v : Value Num) (old_typemix : ℕ)
  /-- and stored its payload -/
  | stored (v : Value Num) (old_typemix : ℕ)
  | incrementing (n : ℤ) (atype : ℕ)
  | getting (atype : ℕ)
deriving DecidableEq

/-- what has become of a set: in progress, or what it returned -/
inductive Outcome where
  | running | returned (newval_ok : Bool)
deriving DecidableEq

/-- a set, and the process that made it; none for the creation of the value -/
structure Writer (P Num : Type) where
  who : Option P
  value : Value Num
  outcome : Outcome
deriving DecidableEq

structure Got (P Num : Type) where
  value : Value Num
  writer : Option (Writer P Num)
  added : ℤ
deriving DecidableEq

structure State (P Num : Type) where
  atomic : LazyAtomic Num
  pc : P → Pc Num
  writer : ℕ → Option (Writer P Num)
  added : ℤ
  got : Option (Got P Num)

inductive Action (P Num : Type) where
  /-- a call, up to its first load -/
  | call (p : P) (op : Op Num)
  /-- the next operation of a call -/
  | next (p : P)

variable {P : Type} [DecidableEq P]

/-- created without a value; the payloads are what the memory held -/
def init (memory : LazyAtomic Num) : State P Num where
  atomic := { memory with typemix := SHUSO_LUA_SHATOMIC_NIL }
  pc _ := .idle
  writer ty := if ty = SHUSO_LUA_SHATOMIC_NIL then some ⟨none, .nil, .returned true⟩ else none
  added := 0
  got := none

def State.goto (s : State P Num) (p : P) (pc : Pc Num) : State P Num := { s with pc := Function.update s.pc p pc }

def State.wrote (s : State P Num) (ty : ℕ) (w : Writer P Num) : State P Num :=
  { s with writer := Function.update s.writer ty (some w) }

/-- the payload of this type is that of the set that p is in -/
def InPlace (s : State P Num) (p : P) (ty : ℕ) : Prop := ∃ w, s.writer ty = some w ∧ w.who = some p ∧ w.outcome = .running

instance (s : State P Num) (p : P) (ty : ℕ) : Decidable (InPlace s p ty) :=
  match h : s.writer ty with
  | none => isFalse fun ⟨w, hw, _⟩ => by rw [h] at hw; cases hw
  | some w =>
    decidable_of_iff (w.who = some p ∧ w.outcome = .running)
      ⟨fun hw => ⟨w, h, hw⟩, fun ⟨w', hw', hrun⟩ => by rw [h] at hw'; cases hw'; exact hrun⟩

/-- the payload of a set; nil has none -/
def set_store (s : State P Num) (p : P) (v : Value Num) : State P Num :=
  match v with
  | .nil => s
  | v =>
    { (s.wrote v.atype ⟨some p, v, .running⟩) with
      atomic := s.atomic.store v, added := if v.atype = SHUSO_LUA_SHATOMIC_INTEGER then 0 else s.added }

/-- the set of p returns; its payload may have been overwritten by another one -/
def set_return (s : State P Num) (p : P) (v : Value Num) (newval_ok : Bool) : State P Num :=
  if InPlace s p v.atype ∨ v.atype = SHUSO_LUA_SHATOMIC_NIL ∧ newval_ok then s.wrote v.atype ⟨some p, v, .returned newval_ok⟩ else s

/-- `update_type_safely` -/
def update_type_safely (s : State P Num) (p : P) (v : Value Num) (old_typemix : ℕ) : State P Num :=
  if s.atomic.typemix = old_typemix then
    set_return { s with atomic := { s.atomic with typemix := new_typemix old_typemix v.atype } } p v true
  else set_return s p v false

def step (s : State P Num) : Action P Num → Option (State P Num)
  | .call p op =>
    match s.pc p, op with
    | .idle, .set v => some (s.goto p (.loaded v s.atomic.typemix))
    | .idle, .increment n => some (s.goto p (.incrementing n (get_type s.atomic.typemix)))
    | .idle, .value => some (s.goto p (.getting (get_type s.atomic.typemix)))
    | _, _ => none
  | .next p =>
    match s.pc p with
    | .idle => none
    | .loaded v old_typemix => some ((set_store s p v).goto p (.stored v old_typemix))
    | .stored v old_typemix => some ((update_type_safely s p v old_typemix).goto p .idle)
    | .incrementing n atype =>
      if atype = SHUSO_LUA_SHATOMIC_INTEGER then
        some ({ s with atomic := { s.atomic with integer := toInt (s.atomic.integer + n) }, added := s.added + n }.goto p .idle)
      else some (s.goto p .idle)
    | .getting atype => some ({ s with got := some ⟨s.atomic.load atype, s.writer atype, s.added⟩ }.goto p .idle)

/-- the type is in force, or a process other than p has loaded it, or stored a payload of it -/
def Awaited (s : State P Num) (p : P) (ty : ℕ) : Prop :=
  ty = get_type s.atomic.typemix ∨ (∃ q, s.pc q = .getting ty) ∨ ∃ q v old, q ≠ p ∧ s.pc q = .stored v old ∧ v.atype = ty

/-- it is not changed by the conversion to `int` -/
def Fits (i : ℤ) : Prop := toInt i = i

/-- **The condition**: integers that fit, and no set that will be refused with its payload in place and awaited -/
def Ok (s : State P Num) : Action P Num → Prop
  | .call _ _ => True
  | .next p =>
    match s.pc p with
    | .loaded (.integer i) _ => Fits i
    | .incrementing n atype => atype = SHUSO_LUA_SHATOMIC_INTEGER → Fits (s.atomic.integer + n)
    | .stored v old_typemix => s.atomic.typemix ≠ old_typemix → ¬ (InPlace s p v.atype ∧ Awaited s p v.atype)
    | _ => True

/-- a result of `value` comes from a set that was not refused -/
def Justified (g : Got P Num) : Prop :=
  ∃ w, g.writer = some w ∧ w.outcome ≠ .returned false ∧ g.value = w.value.adjust g.added

/-- **The property** -/
def Valued (s : State P Num) : Prop := ∀ g, s.got = some g → Justified g

/-! ## Payloads -/

/-- the integer to store fits -/
def Value.Fits : Value Num → Prop
  | .integer i => LazyAtomics.Fits i
  | _ => True

theorem load_store_self (a : LazyAtomic Num) {v : Value Num} (hv : v.Fits) (h : v.atype ≠ SHUSO_LUA_SHATOMIC_NIL) :
    (a.store v).load v.atype = v.adjust 0 := by
  cases v with
  | nil => exact absurd rfl h
  | integer i =>
    change Value.integer (toInt i) = .integer (i + 0)
    rw [add_zero, hv]
  | boolean | number | pointer => rfl

/-- the payloads of the other types stay -/
theorem load_store_of_ne (a : LazyAtomic Num) {v : Value Num} {ty : ℕ} (h : ty ≠ v.atype) : (a.store v).load ty = a.load ty := by
  unfold LazyAtomic.load
  cases v with
  | nil => rfl
  | boolean b =>
    have hty : ty ≠ SHUSO_LUA_SHATOMIC_BOOLEAN := h
    simp only [if_neg hty, LazyAtomic.store]
  | integer i =>
    have hty : ty ≠ SHUSO_LUA_SHATOMIC_INTEGER := h
    simp only [if_neg hty, LazyAtomic.store]
  | number x =>
    have hty : ty ≠ SHUSO_LUA_SHATOMIC_NUMBER := h
    simp only [if_neg hty, LazyAtomic.store]
  | pointer p =>
    have hty : ty ≠ SHUSO_LUA_SHATOMIC_POINTER := h
    simp only [if_neg hty, LazyAtomic.store]

theorem store_typemix (a : LazyAtomic Num) (v : Value Num) : (a.store v).typemix = a.typemix := by
  cases v with
  | _ => rfl

/-- only an integer is added to -/
theorem adjust_of_ne {v : Value Num} (h : v.atype ≠ SHUSO_LUA_SHATOMIC_INTEGER) (n m : ℤ) : v.adjust n = v.adjust m := by
  cases v with
  | integer i => exact absurd rfl h
  | _ => rfl

theorem load_integer (a : LazyAtomic Num) : a.load SHUSO_LUA_SHATOMIC_INTEGER = .integer a.integer := rfl

theorem load_add (a : LazyAtomic Num) (i : ℤ) {ty : ℕ} (h : ty ≠ SHUSO_LUA_SHATOMIC_INTEGER) :
    ({ a with integer := i } : LazyAtomic Num).load ty = a.load ty := by
  unfold LazyAtomic.load
  simp only [if_neg h]

theorem atype_lt (v : Value Num) : v.atype < 16 := by
  cases v with
  | nil => exact (by decide : SHUSO_LUA_SHATOMIC_NIL < 16)
  | boolean => exact (by decide : SHUSO_LUA_SHATOMIC_BOOLEAN < 16)
  | integer => exact (by decide : SHUSO_LUA_SHATOMIC_INTEGER < 16)
  | number => exact (by decide : SHUSO_LUA_SHATOMIC_NUMBER < 16)
  | pointer => exact (by decide : SHUSO_LUA_SHATOMIC_POINTER < 16)

/-- the type is in the word, whatever its counter -/
theorem get_type_new (old_typemix : ℕ) (v : Value Num) : get_type (new_typemix old_typemix v.atype) = v.atype := by
  have h := atype_lt v
  unfold get_type new_typemix
  omega

/-! ## The invariant -/

/-- a type that some process may read, or will make the one in force -/
def Visible (s : State P Num) (ty : ℕ) : Prop :=
  ty = get_type s.atomic.typemix ∨ (∃ p, s.pc p = .getting ty) ∨ ∃ p v old, s.pc p = .stored v old ∧ v.atype = ty

structure Inv (s : State P Num) : Prop where
  /-- a payload that may be read was stored, by a set that was not refused -/
  visible : ∀ ty, Visible s ty → ∃ w, s.writer ty = some w ∧ w.outcome ≠ .returned false
  atype : ∀ ty w, s.writer ty = some w → w.value.atype = ty
  content : ∀ ty w, s.writer ty = some w → s.atomic.load ty = w.value.adjust s.added
  nil : ∃ w, s.writer SHUSO_LUA_SHATOMIC_NIL = some w ∧ w.outcome = .returned true
  running : ∀ ty w, s.writer ty = some w → w.outcome = .running → ∃ p old, w.who = some p ∧ s.pc p = .stored w.value old
  valued : Valued s

section Steps

variable {s : State P Num} {p : P} {pc : Pc Num} {v : Value Num} {old : ℕ}

@[simp] theorem goto_pc_self : (s.goto p pc).pc p = pc := Function.update_self ..

theorem goto_pc_ne {q : P} (h : q ≠ p) : (s.goto p pc).pc q = s.pc q := Function.update_of_ne h ..

/-- what may be read or put in force after p went on -/
theorem visible_goto {ty : ℕ} (h : Visible (s.goto p pc) ty) :
    Awaited s p ty ∨ pc = .getting ty ∨ ∃ v old, pc = .stored v old ∧ v.atype = ty := by
  rcases h with h | ⟨q, h⟩ | ⟨q, v, old, h, hv⟩
  · exact .inl (.inl h)
  · rcases eq_or_ne q p with rfl | hne
    · exact .inr (.inl (goto_pc_self.symm.trans h))
    · exact .inl (.inr (.inl ⟨q, (goto_pc_ne hne).symm.trans h⟩))
  · rcases eq_or_ne q p with rfl | hne
    · exact .inr (.inr ⟨v, old, goto_pc_self.symm.trans h, hv⟩)
    · exact .inl (.inr (.inr ⟨q, v, old, hne, (goto_pc_ne hne).symm.trans h, hv⟩))

omit [DecidableEq P] in
theorem visible_of_awaited {ty : ℕ} (h : Awaited s p ty) : Visible s ty := by
  rcases h with h | h | ⟨q, v, old, -, h⟩
  · exact .inl h
  · exact .inr (.inl h)
  · exact .inr (.inr ⟨q, v, old, h⟩)

/-- a process goes on: what it may read now was stored, and no payload is left to a set that it is no longer in -/
theorem Inv.goto (h : Inv s)
    (hvis : ∀ ty, (pc = .getting ty ∨ ∃ v old, pc = .stored v old ∧ v.atype = ty) →
      ∃ w, s.writer ty = some w ∧ w.outcome ≠ .returned false)
    (hp : ∀ v old, s.pc p ≠ .stored v old) : Inv (s.goto p pc) := by
  refine ⟨fun ty hty => ?_, h.atype, h.content, h.nil, fun ty w hw hr => ?_, h.valued⟩
  · rcases visible_goto hty with hty | hty
    · exact h.visible ty (visible_of_awaited hty)
    · exact hvis ty hty
  · obtain ⟨q, old, hwho, hq⟩ := h.running ty w hw hr
    have hne : q ≠ p := by
      intro heq
      rw [heq] at hq
      exact hp _ _ hq
    exact ⟨q, old, hwho, (goto_pc_ne hne).trans hq⟩

theorem idle_inv (h : Inv s) (hp : ∀ v old, s.pc p ≠ .stored v old) : Inv (s.goto p .idle) := by
  apply Inv.goto h
  · rintro ty (hty | ⟨u, old, hty, -⟩)
    · cases hty
    · cases hty
  · exact hp

theorem eq_nil_of_atype (h : v.atype = SHUSO_LUA_SHATOMIC_NIL) : v = .nil := by
  cases v with
  | nil => rfl
  | boolean | integer | number | pointer => exact absurd h (Nat.succ_ne_zero _)

omit [DecidableEq P] in
theorem set_store_eq (h : v.atype ≠ SHUSO_LUA_SHATOMIC_NIL) : set_store s p v =
    { (s.wrote v.atype ⟨some p, v, .running⟩) with
      atomic := s.atomic.store v, added := if v.atype = SHUSO_LUA_SHATOMIC_INTEGER then 0 else s.added } := by
  cases v with
  | nil => exact absurd rfl h
  | boolean | integer | number | pointer => rfl

omit [DecidableEq P] in
/-- a writer is one of its type -/
theorem wrote_atype (h : ∀ ty w, s.writer ty = some w → w.value.atype = ty) (w₀ : Writer P Num) {ty : ℕ} {w : Writer P Num}
    (hw : Function.update s.writer w₀.value.atype (some w₀) ty = some w) : w.value.atype = ty := by
  generalize h₀ : w₀.value.atype = ty₀ at hw
  by_cases hty : ty = ty₀
  · rw [hty, Function.update_self] at hw
    cases hw
    rw [h₀, hty]
  · rw [Function.update_of_ne hty] at hw
    exact h ty w hw

/-- the payload is stored over the one that was in its place -/
theorem set_store_inv (h : Inv s) (hp : s.pc p = .loaded v old) (hv : v.Fits) :
    Inv ((set_store s p v).goto p (.stored v old)) := by
  have hnot : ∀ u old', s.pc p ≠ .stored u old' := by
    intro u old' hq
    rw [hp] at hq
    cases hq
  by_cases hnil : v.atype = SHUSO_LUA_SHATOMIC_NIL
  · obtain rfl := eq_nil_of_atype hnil
    obtain ⟨w, hw, hout⟩ := h.nil
    apply Inv.goto h
    · rintro ty (hty | ⟨u, old', hty, rfl⟩)
      · cases hty
      · cases hty
        exact ⟨w, hw, by rw [hout]; decide⟩
    · exact hnot
  rw [set_store_eq hnil]
  refine ⟨fun ty hty => ?_, fun ty w hw => ?_, fun ty w hw => ?_, ?_, fun ty w hw hr => ?_, h.valued⟩
  · change ∃ w, Function.update s.writer v.atype _ ty = some w ∧ _
    by_cases hty' : ty = v.atype
    · rw [hty', Function.update_self]
      exact ⟨_, rfl, by simp⟩
    · rw [Function.update_of_ne hty']
      apply h.visible ty
      rcases visible_goto hty with haw | heq | ⟨u, old', heq, hu⟩
      · rcases visible_of_awaited haw with haw | haw
        · left
          rw [haw]
          exact congrArg get_type (store_typemix s.atomic v)
        · exact .inr haw
      · cases heq
      · cases heq
        exact absurd hu.symm hty'
  · exact wrote_atype h.atype ⟨some p, v, .running⟩ hw
  · change Function.update s.writer v.atype _ ty = some w at hw
    change (s.atomic.store v).load ty = w.value.adjust (if v.atype = SHUSO_LUA_SHATOMIC_INTEGER then 0 else s.added)
    by_cases hty : ty = v.atype
    · rw [hty, Function.update_self] at hw
      cases hw
      rw [hty, load_store_self s.atomic hv hnil]
      split_ifs with hint
      · rfl
      · exact adjust_of_ne hint 0 s.added
    · rw [Function.update_of_ne hty] at hw
      rw [load_store_of_ne s.atomic hty, h.content ty w hw]
      split_ifs with hint
      · have hne : w.value.atype ≠ SHUSO_LUA_SHATOMIC_INTEGER := by
          rw [h.atype ty w hw, ← hint]
          exact hty
        exact adjust_of_ne hne s.added 0
      · rfl
  · change ∃ w, Function.update s.writer v.atype _ SHUSO_LUA_SHATOMIC_NIL = some w ∧ _
    rw [Function.update_of_ne (Ne.symm hnil)]
    exact h.nil
  · change Function.update s.writer v.atype _ ty = some w at hw
    by_cases hty : ty = v.atype
    · rw [hty, Function.update_self] at hw
      cases hw
      exact ⟨p, old, rfl, goto_pc_self⟩
    · rw [Function.update_of_ne hty] at hw
      obtain ⟨q, old', hwho, hq⟩ := h.running ty w hw hr
      have hne : q ≠ p := by
        intro heq
        rw [heq] at hq
        exact hnot _ _ hq
      exact ⟨q, old', hwho, (goto_pc_ne hne).trans hq⟩

/-- a set returns: the type in force stays, or is its own and the set was not refused -/
theorem set_return_inv (h : Inv s) (hp : s.pc p = .stored v old) {typemix : ℕ} {newval_ok : Bool}
    (htype : get_type typemix = get_type s.atomic.typemix ∨ newval_ok = true ∧ get_type typemix = v.atype)
    (hok : newval_ok = false → ¬ (InPlace s p v.atype ∧
      Awaited { s with atomic := { s.atomic with typemix := typemix } } p v.atype)) :
    Inv ((set_return { s with atomic := { s.atomic with typemix := typemix } } p v newval_ok).goto p .idle) := by
  have hvis : ∀ ty, Awaited { s with atomic := { s.atomic with typemix := typemix } } p ty → Visible s ty := by
    rintro ty (hty | hty | ⟨q, u, old', -, hty⟩)
    · rcases htype with ht | ⟨-, ht⟩
      · exact .inl (hty.trans ht)
      · exact .inr (.inr ⟨p, v, old, hp, (hty.trans ht).symm⟩)
    · exact .inr (.inl hty)
    · exact .inr (.inr ⟨q, u, old', hty⟩)
  have hawaited : ∀ {t : State P Num} {ty}, Visible (t.goto p .idle) ty → t.pc = s.pc → t.atomic.typemix = typemix →
      Awaited { s with atomic := { s.atomic with typemix := typemix } } p ty := by
    intro t ty hty hpc hmix
    rcases visible_goto hty with haw | heq | ⟨u, old', heq, -⟩
    · unfold Awaited at haw ⊢
      rw [hpc, hmix] at haw
      exact haw
    · cases heq
    · cases heq
  unfold set_return
  split_ifs with hplace
  · -- what is in place, if anything, is the payload of v
    have hown : ∀ w, s.writer v.atype = some w → s.atomic.load v.atype = v.adjust s.added := by
      intro w hw
      rcases hplace with ⟨w', hw', hwho, hr⟩ | ⟨hnil, -⟩
      · obtain ⟨q, old', hwho', hq⟩ := h.running _ w' hw' hr
        rw [hwho] at hwho'
        cases hwho'
        rw [hp] at hq
        cases hq
        exact h.content _ w' hw'
      · rw [eq_nil_of_atype hnil]
        rfl
    have haccepted : Awaited { s with atomic := { s.atomic with typemix := typemix } } p v.atype → newval_ok = true := by
      intro haw
      rcases hplace with hin | ⟨-, htrue⟩
      · by_contra hf
        exact hok (Bool.eq_false_of_not_eq_true hf) ⟨hin, haw⟩
      · exact htrue
    refine ⟨fun ty hty => ?_, fun ty w hw => ?_, fun ty w hw => ?_, ?_, fun ty w hw hr => ?_, h.valued⟩
    · have haw := hawaited hty rfl rfl
      change ∃ w, Function.update s.writer v.atype _ ty = some w ∧ _
      by_cases hty' : ty = v.atype
      · subst hty'
        rw [Function.update_self, haccepted haw]
        exact ⟨_, rfl, by simp⟩
      · rw [Function.update_of_ne hty']
        exact h.visible ty (hvis ty haw)
    · exact wrote_atype h.atype ⟨some p, v, .returned newval_ok⟩ hw
    · change Function.update s.writer v.atype _ ty = some w at hw
      change s.atomic.load ty = w.value.adjust s.added
      by_cases hty : ty = v.atype
      · obtain ⟨w₀, hw₀, -⟩ := h.visible v.atype (.inr (.inr ⟨p, v, old, hp, rfl⟩))
        rw [hty, Function.update_self] at hw
        cases hw
        rw [hty]
        exact hown w₀ hw₀
      · rw [Function.update_of_ne hty] at hw
        exact h.content ty w hw
    · change ∃ w, Function.update s.writer v.atype _ SHUSO_LUA_SHATOMIC_NIL = some w ∧ _
      by_cases hnil : SHUSO_LUA_SHATOMIC_NIL = v.atype
      · rw [← hnil, Function.update_self]
        refine ⟨_, rfl, ?_⟩
        rcases hplace with ⟨w, hw, -, hr⟩ | ⟨-, htrue⟩
        · -- the one that made it nil has returned
          obtain ⟨w₀, hw₀, hout⟩ := h.nil
          rw [← hnil, hw₀] at hw
          cases hw
          rw [hout] at hr
          cases hr
        · rw [htrue]
      · rw [Function.update_of_ne hnil]
        exact h.nil
    · change Function.update s.writer v.atype _ ty = some w at hw
      by_cases hty : ty = v.atype
      · rw [hty, Function.update_self] at hw
        cases hw
        cases hr
      · rw [Function.update_of_ne hty] at hw
        obtain ⟨q, old', hwho, hq⟩ := h.running ty w hw hr
        have hne : q ≠ p := by
          intro heq
          rw [heq, hp] at hq
          cases hq
          exact hty (h.atype ty w hw).symm
        exact ⟨q, old', hwho, (goto_pc_ne hne).trans hq⟩
  · refine ⟨fun ty hty => ?_, h.atype, h.content, h.nil, fun ty w hw hr => ?_, h.valued⟩
    · exact h.visible ty (hvis ty (hawaited hty rfl rfl))
    · obtain ⟨q, old', hwho, hq⟩ := h.running ty w hw hr
      have hne : q ≠ p := by
        intro heq
        rw [heq] at hwho
        rw [heq, hp] at hq
        cases hq
        refine hplace (.inl ⟨w, ?_, hwho, hr⟩)
        rw [h.atype ty w hw]
        exact hw
      exact ⟨q, old', hwho, (goto_pc_ne hne).trans hq⟩

omit [DecidableEq P] in
/-- an addition to the integer -/
theorem add_inv (h : Inv s) {n : ℤ} (hfits : Fits (s.atomic.integer + n)) :
    Inv { s with atomic := { s.atomic with integer := toInt (s.atomic.integer + n) }, added := s.added + n } := by
  refine ⟨h.visible, h.atype, fun ty w hw => ?_, h.nil, h.running, h.valued⟩
  have hcontent := h.content ty w hw
  have htype := h.atype ty w hw
  change ({ s.atomic with integer := toInt (s.atomic.integer + n) } : LazyAtomic Num).load ty = w.value.adjust (s.added + n)
  rw [hfits]
  by_cases hty : ty = SHUSO_LUA_SHATOMIC_INTEGER
  · rw [hty, load_integer] at hcontent
    rw [hty, load_integer]
    cases hval : w.value with
    | integer i =>
      rw [hval] at hcontent
      have hi : s.atomic.integer = i + s.added := Value.integer.inj hcontent
      calc Value.integer (s.atomic.integer + n)
        _ = .integer (i + s.added + n) := by rw [hi]
        _ = .integer (i + (s.added + n)) := by rw [add_assoc]
    | nil | boolean | number | pointer =>
      rw [hval] at hcontent
      cases hcontent
  · rw [load_add _ _ hty, hcontent]
    apply adjust_of_ne
    rw [htype]
    exact hty

omit [DecidableEq P] in
/-- `value` reads the payload of a set that was not refused -/
theorem got_inv (h : Inv s) {ty : ℕ} (hp : s.pc p = .getting ty) :
    Inv { s with got := some ⟨s.atomic.load ty, s.writer ty, s.added⟩ } := by
  refine ⟨h.visible, h.atype, h.content, h.nil, h.running, fun g hg => ?_⟩
  cases hg
  obtain ⟨w, hw, hout⟩ := h.visible ty (.inr (.inl ⟨p, hp⟩))
  exact ⟨w, hw, hout, h.content ty w hw⟩

theorem next_inv {t : State P Num} (h : Inv s) (hok : Ok s (.next p)) (hst : step s (.next p) = some t) : Inv t := by
  unfold Ok at hok
  unfold step at hst
  cases hpc : s.pc p with
  | idle =>
    simp only [hpc] at hst
    cases hst
  | loaded v old =>
    simp only [hpc] at hok hst
    cases hst
    apply set_store_inv h hpc
    cases v with
    | integer i => exact hok
    | nil | boolean | number | pointer => trivial
  | stored v old =>
    simp only [hpc] at hok hst
    cases hst
    unfold update_type_safely
    split_ifs with hmix
    · exact set_return_inv h hpc (.inr ⟨rfl, get_type_new old v⟩) fun hf => absurd hf (by decide)
    · exact set_return_inv h hpc (.inl rfl) fun _ => hok hmix
  | incrementing n atype =>
    simp only [hpc] at hok hst
    have hnot : ∀ u old', s.pc p ≠ .stored u old' := by
      intro u old' hq
      rw [hpc] at hq
      cases hq
    split_ifs at hst with htype
    · cases hst
      exact idle_inv (add_inv h (hok htype)) hnot
    · cases hst
      exact idle_inv h hnot
  | getting atype =>
    simp only [hpc] at hst
    cases hst
    have hnot : ∀ u old', s.pc p ≠ .stored u old' := by
      intro u old' hq
      rw [hpc] at hq
      cases hq
    exact idle_inv (got_inv h hpc) hnot

theorem call_inv {t : State P Num} {op : Op Num} (h : Inv s) (hst : step s (.call p op) = some t) : Inv t := by
  unfold step at hst
  cases hpc : s.pc p with
  | idle =>
    have hnot : ∀ u old', s.pc p ≠ .stored u old' := by
      intro u old' hq
      rw [hpc] at hq
      cases hq
    cases op with
    | set v =>
      simp only [hpc] at hst
      cases hst
      apply Inv.goto h
      · rintro ty (hty | ⟨u, old, hty, -⟩)
        · cases hty
        · cases hty
      · exact hnot
    | increment n =>
      simp only [hpc] at hst
      cases hst
      apply Inv.goto h
      · rintro ty (hty | ⟨u, old, hty, -⟩)
        · cases hty
        · cases hty
      · exact hnot
    | value =>
      simp only [hpc] at hst
      cases hst
      apply Inv.goto h
      · rintro ty (hty | ⟨u, old, hty, -⟩)
        · -- the type loaded is the one in force
          cases hty
          exact h.visible _ (.inl rfl)
        · cases hty
      · exact hnot
  | loaded | stored | incrementing | getting =>
    simp only [hpc] at hst
    cases hst

theorem step_inv {t : State P Num} {a : Action P Num} (h : Inv s) (hok : Ok s a) (hst : step s a = some t) : Inv t := by
  cases a with
  | call p op => exact call_inv h hst
  | next p => exact next_inv h hok hst

end Steps

omit [DecidableEq P] in
theorem init_inv (memory : LazyAtomic Num) : Inv (init memory : State P Num) := by
  have hwriter : ∀ {ty : ℕ} {w : Writer P Num}, (init memory : State P Num).writer ty = some w →
      ty = SHUSO_LUA_SHATOMIC_NIL ∧ w = ⟨none, .nil, .returned true⟩ := by
    intro ty w hw
    change (if ty = SHUSO_LUA_SHATOMIC_NIL then _ else none) = some w at hw
    obtain ⟨hty, hw⟩ := Option.ite_none_right_eq_some.1 hw
    exact ⟨hty, (Option.some.inj hw).symm⟩
  refine ⟨fun ty hty => ?_, fun ty w hw => ?_, fun ty w hw => ?_, ⟨_, rfl, rfl⟩, fun ty w hw hr => ?_, fun g hg => ?_⟩
  · rcases hty with hty | ⟨q, hq⟩ | ⟨q, v, old, hq, -⟩
    · rw [hty]
      exact ⟨_, rfl, by simp⟩
    · cases hq
    · cases hq
  · obtain ⟨rfl, rfl⟩ := hwriter hw
    rfl
  · obtain ⟨rfl, rfl⟩ := hwriter hw
    rfl
  · obtain ⟨rfl, rfl⟩ := hwriter hw
    cases hr
  · cases hg

/-- **What `value` returns** comes from sets that were not refused, while the integers fit and no set is refused whose payload is
in place and awaited. -/
theorem values_of_ok (memory : LazyAtomic Num) (s : State P Num) (h : Reach step Ok (init memory) s) : Valued s := by
  have hinv : Inv s := h.inv (init_inv memory) fun _ _ _ hs hok hst => step_inv hs hok hst
  exact hinv.valued

/-! ## Sets that are refused -/

/-- **A refused set that shows.** If its payload is in place and its type in force, the next `value` of any process that is
not in a call returns it. -/
theorem refused_visible {s : State P Num} (h : Inv s) {p q : P} {v : Value Num} {old : ℕ} (hp : s.pc p = .stored v old)
    (hmix : s.atomic.typemix ≠ old) (hplace : InPlace s p v.atype) (hforce : get_type s.atomic.typemix = v.atype)
    (hq : s.pc q = .idle) :
    ∃ t, exec step s [.next p, .call q .value, .next q] = some t ∧
      t.got = some ⟨v.adjust s.added, some ⟨some p, v, .returned false⟩, s.added⟩ := by
  obtain ⟨w, hw, hwho, hr⟩ := hplace
  have hcontent : s.atomic.load v.atype = v.adjust s.added := by
    obtain ⟨r, old', hwho', hr'⟩ := h.running _ w hw hr
    rw [hwho] at hwho'
    cases hwho'
    rw [hp] at hr'
    cases hr'
    exact h.content _ w hw
  let t := (s.wrote v.atype ⟨some p, v, .returned false⟩).goto p .idle
  have hrefused : step s (.next p) = some t := by
    unfold step
    simp only [hp]
    unfold update_type_safely set_return
    rw [if_neg hmix, if_pos (.inl ⟨w, hw, hwho, hr⟩)]
  have hidle : t.pc q = .idle := by
    rcases eq_or_ne q p with rfl | hne
    · exact goto_pc_self
    · exact (goto_pc_ne hne).trans hq
  have hcall : step t (.call q .value) = some (t.goto q (.getting v.atype)) := by
    unfold step
    simp only [hidle]
    exact congrArg (fun ty => some (t.goto q (.getting ty))) hforce
  let got : State P Num := { (t.goto q (.getting v.atype)) with
    got := some ⟨s.atomic.load v.atype, t.writer v.atype, s.added⟩ }
  have hget : step (t.goto q (.getting v.atype)) (.next q) = some (got.goto q .idle) := by
    unfold step
    simp only [goto_pc_self]
    rfl
  refine ⟨got.goto q .idle, ?_, ?_⟩
  · rw [exec_cons, hrefused, Option.bind_some, exec_cons, hcall, Option.bind_some, exec_cons, hget]
    rfl
  · change some _ = some _
    rw [hcontent]
    congr 2
    exact Function.update_self ..

/-- an integer is set, and added to by the other process -/
theorem values_of_set : ∃ s : State Bool ℕ, Reach step Ok (init ⟨0, 0, 0, false, 0⟩) s ∧ Valued s ∧
    s.got.map Got.value = some (.integer 7) := by
  have hset : Reach step Ok (init ⟨0, 0, 0, false, 0⟩ : State Bool ℕ) _ :=
    .next (.next (.next .init (show Ok _ (.call false (.set (.integer 5))) from trivial) rfl)
      (show Ok _ (.next false) from rfl) rfl) (show Ok _ (.next false) from fun h => absurd rfl h) rfl
  have hadd := (hset.next (show Ok _ (.call true (.increment 2)) from trivial) rfl).next
    (show Ok _ (.next true) from fun _ => rfl) rfl
  have hgot := (hadd.next (show Ok _ (.call false .value) from trivial) rfl).next
    (show Ok _ (.next false) from trivial) rfl
  exact ⟨_, hgot, values_of_ok _ _ hgot, rfl⟩

/-- **Two sets.** Both load the word; the first returns true, the second stores its payload and is refused, and `value` then
returns that payload. -/
theorem value_of_refused : ∃ s : State Bool ℕ, Reach step always (init ⟨0, 0, 0, false, 0⟩) s ∧ ¬ Valued s ∧
    s.got = some ⟨.integer 2, some ⟨some true, .integer 2, .returned false⟩, 0⟩ := by
  have hrun : (exec step (init ⟨0, 0, 0, false, 0⟩ : State Bool ℕ) [.call false (.set (.integer 1)),
      .call true (.set (.integer 2)), .next false, .next false, .next true, .next true, .call false .value,
      .next false]).any fun s => decide (s.got = some ⟨.integer 2, some ⟨some true, .integer 2, .returned false⟩, 0⟩) := by
    decide
  obtain ⟨s, hs, hgot⟩ := Option.any_eq_true _ _ |>.1 hrun
  have hgot := of_decide_eq_true hgot
  refine ⟨s, Reach.of_exec hs, fun hvalued => ?_, hgot⟩
  obtain ⟨w, hw, hout, -⟩ := hvalued _ hgot
  cases hw
  exact hout rfl

end Shuttlesock.LazyAtomics
