/-
Lua values and tables, as `lua_next`, `lua_gettable` and `lua_settable` show them.

Model: a value is nil, a boolean, a light userdata, an integer (64 bits), a float (its 64 bits), a string of bytes or one
of the types that cannot be sent; a table is a reference t to `tables t`, the list of its keys and values in the order of
`lua_next`. Tables have no metatable. A key is neither nil nor NaN, and a float key is not integral (`lua_settable`
makes it an integer), so equality of keys is equality of values.
- `Reachable tables v w`: w is v, or a key or value of a table that can be reached from v.
- `Isomorphic`: the same values in the same places, up to a one-to-one renaming of the tables.

Results:
- `Isomorphic.reachable`: what is reached from one side has a partner on the other.
- `rawset_new`, `storeAll_eq`: storing under new keys adds entries at the end.
-/
import Mathlib.Tactic

namespace Shuttlesock.Lua

inductive Value (T : Type*) where
  | nil
  | boolean (b : Bool)
  | lightuserdata (p : ℕ)
  | integer (i : BitVec 64)
  | number (x : BitVec 64)
  | string (s : List UInt8)
  | table (t : T)
  | function
  | userdata
  | thread
deriving DecidableEq, Repr

/-- the keys and values of each table -/
abbrev Tables (T : Type*) := T → List (Value T × Value T)

variable {T U : Type*}

/-- `lua_isinteger` -/
def Value.isinteger : Value T → Bool
  | .integer _ => true
  | _ => false

/-- a type that Lua IPC can send -/
def Value.sendable : Value T → Bool
  | .function | .userdata | .thread => false
  | _ => true

def Value.tableRef : Value T → Option T
  | .table t => some t
  | _ => none

inductive Reachable (tables : Tables T) (v : Value T) : Value T → Prop where
  | refl : Reachable tables v v
  | key {t : T} {k w : Value T} : Reachable tables v (.table t) → (k, w) ∈ tables t → Reachable tables v k
  | value {t : T} {k w : Value T} : Reachable tables v (.table t) → (k, w) ∈ tables t → Reachable tables v w

theorem Reachable.trans {tables : Tables T} {u v w : Value T} (h1 : Reachable tables u v) (h2 : Reachable tables v w) :
    Reachable tables u w := by
  induction h2 with
  | refl => exact h1
  | key _ hm ih => exact ih.key hm
  | value _ hm ih => exact ih.value hm

/-- a well-formed Lua state: the keys of a table are different and not nil, the values are not nil -/
structure Wf (tables : Tables T) : Prop where
  keys : ∀ t, ((tables t).map Prod.fst).Nodup
  key : ∀ t, ∀ e ∈ tables t, e.1 ≠ .nil
  value : ∀ t, ∀ e ∈ tables t, e.2 ≠ .nil

/-! ## Isomorphic values -/

/-- the same value, where tables correspond by R -/
def Same (R : T → U → Prop) : Value T → Value U → Prop
  | .nil, .nil => True
  | .boolean b, .boolean b' => b = b'
  | .lightuserdata p, .lightuserdata p' => p = p'
  | .integer i, .integer i' => i = i'
  | .number x, .number x' => x = x'
  | .string s, .string s' => s = s'
  | .table t, .table t' => R t t'
  | _, _ => False

theorem same_flip {R : T → U → Prop} {v : Value T} {w : Value U} : Same R v w ↔ Same (flip R) w v := by
  cases v <;> cases w <;> simp only [Same, flip, eq_comm]

/-- a table has one partner, any other value has itself as its partner -/
theorem same_right {R : T → U → Prop} (hR : ∀ t a b, R t a → R t b → a = b) {v : Value T} {w x : Value U}
    (hw : Same R v w) (hx : Same R v x) : w = x := by
  cases v with
  | table t =>
    cases w with
    | table a =>
      cases x with
      | table b => exact congrArg Value.table (hR t a b hw hx)
      | _ => exact absurd hx id
    | _ => exact absurd hw id
  | _ => cases w <;> cases x <;> simp_all only [Same]

theorem same_biUnique {R : T → U → Prop} (hf : ∀ t a b, R t a → R t b → a = b)
    (hi : ∀ t t' a, R t a → R t' a → t = t') : Relator.BiUnique (Same R) := by
  refine ⟨?_, fun v w x hw hx => same_right hf hw hx⟩
  intro v w x hv hw
  exact same_right (fun a t t' ht ht' => hi t t' a ht ht') (same_flip.1 hv) (same_flip.1 hw)

structure Isomorphism (tables : Tables T) (tables' : Tables U) (R : T → U → Prop) : Prop where
  functional : ∀ t a b, R t a → R t b → a = b
  injective : ∀ t t' a, R t a → R t' a → t = t'
  forth : ∀ t t', R t t' → ∀ e ∈ tables t, ∃ e' ∈ tables' t', Same R e.1 e'.1 ∧ Same R e.2 e'.2
  back : ∀ t t', R t t' → ∀ e' ∈ tables' t', ∃ e ∈ tables t, Same R e.1 e'.1 ∧ Same R e.2 e'.2

/-- the values v and v' with all that can be reached from them -/
def Isomorphic (tables : Tables T) (v : Value T) (tables' : Tables U) (v' : Value U) : Prop :=
  ∃ R, Isomorphism tables tables' R ∧ Same R v v'

theorem Isomorphism.reachable {tables : Tables T} {tables' : Tables U} {R : T → U → Prop}
    (h : Isomorphism tables tables' R) {v w : Value T} {v' : Value U} (hv : Same R v v') (hw : Reachable tables v w) :
    ∃ w', Reachable tables' v' w' ∧ Same R w w' := by
  have table : ∀ {t : T} {w' : Value U}, Same R (.table t) w' → ∃ t', w' = .table t' ∧ R t t' := by
    intro t w' hs
    cases w' with
    | table t' => exact ⟨t', rfl, hs⟩
    | _ => exact absurd hs id
  induction hw with
  | refl => exact ⟨v', .refl, hv⟩
  | key _ hm ih =>
    obtain ⟨w', hr, hs⟩ := ih
    obtain ⟨t', rfl, hR⟩ := table hs
    obtain ⟨e', he', hk, -⟩ := h.forth _ _ hR _ hm
    exact ⟨e'.1, hr.key (w := e'.2) he', hk⟩
  | value _ hm ih =>
    obtain ⟨w', hr, hs⟩ := ih
    obtain ⟨t', rfl, hR⟩ := table hs
    obtain ⟨e', he', -, hw'⟩ := h.forth _ _ hR _ hm
    exact ⟨e'.2, hr.value (k := e'.1) he', hw'⟩

/-! ## Storing -/

variable [DecidableEq T]

/-- `lua_rawset` -/
def rawset (l : List (Value T × Value T)) (k v : Value T) : List (Value T × Value T) :=
  if v = .nil then l.filter fun e => e.1 ≠ k
  else if k ∈ l.map Prod.fst then l.map fun e => if e.1 = k then (k, v) else e
  else l ++ [(k, v)]

theorem rawset_new {l : List (Value T × Value T)} {k v : Value T} (hv : v ≠ .nil) (hk : k ∉ l.map Prod.fst) :
    rawset l k v = l ++ [(k, v)] := by
  rw [rawset, if_neg hv, if_neg hk]

/-- no entry comes from nowhere -/
theorem mem_rawset {l : List (Value T × Value T)} {k v : Value T} {e : Value T × Value T} (h : e ∈ rawset l k v) :
    e ∈ l ∨ e = (k, v) := by
  unfold rawset at h
  split_ifs at h with hv hk
  · exact Or.inl (List.mem_filter.1 h).1
  · obtain ⟨x, hx, he⟩ := List.mem_map.1 h
    split_ifs at he with hxk
    · exact Or.inr he.symm
    · exact Or.inl (he ▸ hx)
  · rcases List.mem_append.1 h with h | h
    · exact Or.inl h
    · exact Or.inr (List.mem_singleton.1 h)

def storeAll (l : List (Value ℕ × Value ℕ)) (ps : List (Value ℕ × Value ℕ)) : List (Value ℕ × Value ℕ) :=
  ps.foldl (fun l e => rawset l e.1 e.2) l

/-- storing entries with new keys one after the other keeps them all -/
theorem storeAll_eq {l ps : List (Value ℕ × Value ℕ)} (hk : ((l ++ ps).map Prod.fst).Nodup)
    (hv : ∀ e ∈ ps, e.2 ≠ .nil) : storeAll l ps = l ++ ps := by
  induction ps generalizing l with
  | nil => exact (List.append_nil l).symm
  | cons e ps ih =>
    have hnew : e.1 ∉ l.map Prod.fst := by
      rw [List.map_append, List.nodup_append] at hk
      intro he
      exact hk.2.2 _ he e.1 (by simp) rfl
    have hset : rawset l e.1 e.2 = l ++ [e] := rawset_new (hv e List.mem_cons_self) hnew
    have hk' : ((l ++ [e] ++ ps).map Prod.fst).Nodup := by rwa [List.append_assoc]
    change storeAll (rawset l e.1 e.2) ps = _
    rw [hset, ih hk' fun x hx => hv x (List.mem_cons_of_mem e hx), List.append_assoc]
    rfl

/-! ## Keys and values in a row -/

def keyFirst {α : Type*} (l : List (α × α)) : List α := l.flatMap fun e => [e.1, e.2]

theorem keyFirst_cons {α : Type*} (e : α × α) (l : List (α × α)) : keyFirst (e :: l) = e.1 :: e.2 :: keyFirst l := rfl

theorem exists_keyFirst {α β : Type*} {P : α → β → Prop} {l : List (α × α)} {ws : List β}
    (h : List.Forall₂ P (keyFirst l) ws) :
    ∃ ps, ws = keyFirst ps ∧ List.Forall₂ (fun e e' => P e.1 e'.1 ∧ P e.2 e'.2) l ps := by
  induction l generalizing ws with
  | nil =>
    cases h
    exact ⟨[], rfl, .nil⟩
  | cons e l ih =>
    rw [keyFirst_cons] at h
    obtain ⟨w, us, hk, h1, rfl⟩ := List.forall₂_cons_left_iff.1 h
    obtain ⟨x, xs, hv, h2, rfl⟩ := List.forall₂_cons_left_iff.1 h1
    obtain ⟨ps, rfl, hps⟩ := ih h2
    exact ⟨(w, x) :: ps, rfl, .cons ⟨hk, hv⟩ hps⟩

/-- two by two -/
def pairs {α : Type*} : List α → List (α × α)
  | a :: b :: l => (a, b) :: pairs l
  | _ => []

theorem pairs_keyFirst {α : Type*} (l : List (α × α)) : pairs (keyFirst l) = l := by
  induction l with
  | nil => rfl
  | cons e l ih => rw [keyFirst_cons, pairs, ih]

end Shuttlesock.Lua
