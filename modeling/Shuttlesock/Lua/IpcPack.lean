/-
What `pack_field` does (`modules/lua_bridge/api/ipc_lua_api.c`).

- `packRules`: a value is copied to its field, a table to the address of its packed table. The fields of a table are its
  values and keys in the order in which the loop packs them.
- `Grows s s' new`: the blocks of `new` came from the slab, in this order, and were saved in the reftable; nothing was
  freed.
- `Outcome`: the three ways in which a call ends.

Results:
- `pack_field_outcome`: with a depth that covers the tables without a packed one, a call either copies its value as the
  rules say or raises an error because a value that cannot be sent is reached. In both cases `Grows` holds.
-/
import Mathlib.Tactic
import Shuttlesock.Core.GraphCopy
import Shuttlesock.Lua.IpcData

namespace Shuttlesock.Lua

open Shuttlesock.GraphCopy

variable {T : Type*}

/-! ## Values and keys in a row -/

def valueFirst {α : Type*} (l : List (α × α)) : List α := l.flatMap fun e => [e.2, e.1]

theorem valueFirst_cons {α : Type*} (e : α × α) (l : List (α × α)) : valueFirst (e :: l) = e.2 :: e.1 :: valueFirst l :=
  rfl

theorem forall₂_valueFirst {α β : Type*} {P : α → β → Prop} {l : List (α × α)} {l' : List (β × β)}
    (h : List.Forall₂ P (valueFirst l) (valueFirst l')) :
    List.Forall₂ (fun e e' => P e.1 e'.1 ∧ P e.2 e'.2) l l' := by
  induction l generalizing l' with
  | nil =>
    cases l' with
    | nil => exact .nil
    | cons e' l' => cases h
  | cons e l ih =>
    cases l' with
    | nil => cases h
    | cons e' l' =>
      rw [valueFirst_cons, valueFirst_cons] at h
      obtain ⟨hv, h⟩ := List.forall₂_cons.1 h
      obtain ⟨hk, h⟩ := List.forall₂_cons.1 h
      exact .cons ⟨hk, hv⟩ (ih h)

/-! ## The rules -/

/-- a packed value that is not a table -/
def PackedLeaf : Value T → Field → Prop
  | .nil, .nil => True
  | .boolean b, .boolean b' => b = b'
  | .lightuserdata p, .lightuserdata p' => p = p'
  | .integer i, .integer i' => i' = i.setWidth 32
  | .number x, .number x' => x = x'
  | .string s, .string _ s' => s = s'
  | _, _ => False

/-- the entries that `unpack_field` reads -/
def Table.entries (t : Table) : List (Field × Field) := (t.keys.zip t.values).take (t.narr + t.nrec)

def packRules (tables : Tables T) : Rules T ℕ (Value T) Field where
  ref := Value.tableRef
  succ := fun t => valueFirst (tables t)
  leaf := PackedLeaf
  point := .table

def Packing.memo (s : Packing T) : Memo T ℕ Field := ⟨s.packed, fun a => valueFirst (s.mem a).entries⟩

/-- packed tables are in memory, each at its own address -/
structure Anchored (s : Packing T) : Prop where
  inj : s.memo.Inj
  used : ∀ t a, s.packed t = some a → a ∈ s.used

structure Grows (s s' : Packing T) (new : List ℕ) : Prop where
  reftable : s'.reftable = s.reftable ++ new
  slab : s'.slab = s.slab ∪ new.toFinset
  nodup : new.Nodup
  fresh : ∀ a ∈ new, a ∉ s.used
  used : s.used ⊆ s'.used
  procnum : s'.procnum = s.procnum
  active : s'.ipc_messages_active = s.ipc_messages_active
  freed : s'.freed = s.freed

theorem Grows.refl (s : Packing T) : Grows s s [] where
  reftable := (List.append_nil _).symm
  slab := by simp
  nodup := List.nodup_nil
  fresh := by
    intro a ha
    cases ha
  used := Finset.Subset.refl _
  procnum := rfl
  active := rfl
  freed := rfl

theorem Grows.trans {s s₁ s₂ : Packing T} {new new' : List ℕ} (h : Grows s s₁ new) (h' : Grows s₁ s₂ new') :
    Grows s s₂ (new ++ new') where
  reftable := by rw [h'.reftable, h.reftable, List.append_assoc]
  slab := by rw [h'.slab, h.slab, List.toFinset_append, Finset.union_assoc]
  nodup := by
    refine List.nodup_append.2 ⟨h.nodup, h'.nodup, ?_⟩
    rintro a ha b hb rfl
    -- what is new in the first part is in use in the second
    apply h'.fresh a hb
    apply Finset.mem_union_left
    rw [h.slab]
    exact Finset.mem_union_right _ (List.mem_toFinset.2 ha)
  fresh := by
    intro a ha
    rcases List.mem_append.1 ha with ha | ha
    · exact h.fresh a ha
    · exact fun hu => h'.fresh a ha (h.used hu)
  used := h.used.trans h'.used
  procnum := h'.procnum.trans h.procnum
  active := h'.active.trans h.active
  freed := h'.freed.trans h.freed

/-- a new block: nothing else changes -/
theorem alloc_grows (A : Allocator) (shared : Bool) (s : Packing T) :
    (∃ new, Grows s (alloc A shared s).2 new) ∧ (alloc A shared s).2.packed = s.packed ∧
      (alloc A shared s).2.mem = s.mem ∧ (alloc A shared s).1 ∈ (alloc A shared s).2.used ∧
      (alloc A shared s).1 ∉ s.used := by
  have hfresh := A.fresh s.used
  cases shared with
  | true =>
    refine ⟨⟨[A.block s.used], rfl, ?_, List.nodup_singleton _, ?_, ?_, rfl, rfl, rfl⟩, rfl, rfl, ?_, hfresh⟩
    · change insert (A.block s.used) s.slab = s.slab ∪ [A.block s.used].toFinset
      rw [List.toFinset_cons, List.toFinset_nil, Finset.union_comm]
      rfl
    · intro a ha
      rw [List.mem_singleton.1 ha]
      exact hfresh
    · exact Finset.union_subset_union_left (Finset.subset_insert _ _)
    · exact Finset.mem_union_left _ (Finset.mem_insert_self _ _)
  | false =>
    refine ⟨⟨[], (List.append_nil _).symm, ?_, List.nodup_nil, ?_, ?_, rfl, rfl, rfl⟩, rfl, rfl, ?_, hfresh⟩
    · change s.slab = s.slab ∪ ∅
      rw [Finset.union_empty]
    · intro a ha
      cases ha
    · exact Finset.union_subset_union_right (Finset.subset_insert _ _)
    · exact Finset.mem_union_right _ (Finset.mem_insert_self _ _)

/-! ## How a call ends -/

variable [DecidableEq T]

structure Packed (tables : Tables T) (s : Packing T) (vs : List (Value T)) (s' : Packing T) (fs : List Field) : Prop where
  copies : Copies (packRules tables) s.memo vs s'.memo fs
  anchored : Anchored s'
  grows : ∃ new, Grows s s' new

def Outcome (tables : Tables T) (s : Packing T) (v : Value T) : Res (Packing T) Field → Prop
  | .ok f s' => Packed tables s [v] s' [f]
  | .raise _ s' => (∃ new, Grows s s' new) ∧ ∃ w, Reachable tables v w ∧ w.sendable = false
  | .deep => False

def EntriesOutcome (tables : Tables T) (s : Packing T) (es : List (Value T × Value T)) :
    Res (Packing T) (List Field × List Field) → Prop
  | .ok (keys, values) s' => keys.length = es.length ∧ values.length = es.length ∧
      Packed tables s (valueFirst es) s' (valueFirst (keys.zip values))
  | .raise _ s' => (∃ new, Grows s s' new) ∧
      ∃ e ∈ es, ∃ w, (Reachable tables e.1 w ∨ Reachable tables e.2 w) ∧ w.sendable = false
  | .deep => False

theorem Packed.todo {tables : Tables T} {s s' : Packing T} {vs : List (Value T)} {fs : List Field} (hs : Anchored s)
    (h : Packed tables s vs s' fs) (P : Finset T) : (todo P s'.packed).card ≤ (todo P s.packed).card :=
  todo_mono fun n a ha => ((h.copies.spec hs.inj).keep n a ha).1

theorem Packed.trans {tables : Tables T} {s s₁ s₂ : Packing T} {vs us : List (Value T)} {fs gs : List Field}
    (h : Packed tables s vs s₁ fs) (h' : Packed tables s₁ us s₂ gs) : Packed tables s (vs ++ us) s₂ (fs ++ gs) := by
  obtain ⟨new, hg⟩ := h.grows
  obtain ⟨new', hg'⟩ := h'.grows
  exact ⟨h.copies.append h'.copies, h'.anchored, _, hg.trans hg'⟩

theorem pack_entries_outcome {tables : Tables T} {P : Finset T} {n : ℕ}
    {pack : Value T → Packing T → Res (Packing T) Field}
    (hpack : ∀ v s, Anchored s → (todo P s.packed).card ≤ n → Outcome tables s v (pack v s))
    (es : List (Value T × Value T)) (s : Packing T) (hs : Anchored s) (hn : (todo P s.packed).card ≤ n) :
    EntriesOutcome tables s es (pack_entries pack es s) := by
  induction es generalizing s with
  | nil => exact ⟨rfl, rfl, .nil _, hs, [], Grows.refl s⟩
  | cons e es ih =>
    obtain ⟨k, v⟩ := e
    have hv := hpack v s hs hn
    cases hpv : pack v s with
    | deep =>
      rw [hpv] at hv
      exact absurd hv id
    | raise msg s₁ =>
      rw [hpv] at hv
      simp only [pack_entries, hpv]
      obtain ⟨hg, w, hw, hsend⟩ := hv
      exact ⟨hg, (k, v), List.mem_cons_self, w, Or.inr hw, hsend⟩
    | ok fv s₁ =>
      rw [hpv] at hv
      have hn₁ : (todo P s₁.packed).card ≤ n := le_trans (Packed.todo hs hv P) hn
      have hk := hpack k s₁ hv.anchored hn₁
      obtain ⟨new, hg⟩ := hv.grows
      cases hpk : pack k s₁ with
      | deep =>
        rw [hpk] at hk
        exact absurd hk id
      | raise msg s₂ =>
        rw [hpk] at hk
        simp only [pack_entries, hpv, hpk]
        obtain ⟨⟨new', hg'⟩, w, hw, hsend⟩ := hk
        exact ⟨⟨_, hg.trans hg'⟩, (k, v), List.mem_cons_self, w, Or.inl hw, hsend⟩
      | ok fk s₂ =>
        rw [hpk] at hk
        have hn₂ : (todo P s₂.packed).card ≤ n := le_trans (Packed.todo hv.anchored hk P) hn₁
        have hvk := hv.trans hk
        obtain ⟨new', hg'⟩ := hvk.grows
        have hrest := ih s₂ hk.anchored hn₂
        cases hpr : pack_entries pack es s₂ with
        | deep =>
          rw [hpr] at hrest
          exact absurd hrest id
        | raise msg s₃ =>
          rw [hpr] at hrest
          simp only [pack_entries, hpv, hpk, hpr]
          obtain ⟨⟨new'', hg''⟩, e, he, hw⟩ := hrest
          exact ⟨⟨_, hg'.trans hg''⟩, e, List.mem_cons_of_mem _ he, hw⟩
        | ok r s₃ =>
          obtain ⟨keys, values⟩ := r
          rw [hpr] at hrest
          simp only [pack_entries, hpv, hpk, hpr]
          obtain ⟨hk1, hv1, hp⟩ := hrest
          exact ⟨congrArg (· + 1) hk1, congrArg (· + 1) hv1, hvk.trans hp⟩

/-- a value that is not a table: what it is packed to, and the state afterwards -/
theorem leaf_outcome {tables : Tables T} {s s' : Packing T} {v : Value T} {f : Field} (href : v.tableRef = none)
    (hleaf : PackedLeaf v f) (hmemo : s'.memo = s.memo) (hs : Anchored s) (hg : ∃ new, Grows s s' new) :
    Packed tables s [v] s' [f] := by
  refine ⟨?_, ⟨?_, ?_⟩, hg⟩
  · rw [hmemo]
    exact .leaf href hleaf (.nil _)
  · rw [hmemo]
    exact hs.inj
  · intro t a ha
    obtain ⟨new, hg⟩ := hg
    have hpacked : s'.packed = s.packed := congrArg Memo.copied hmemo
    rw [hpacked] at ha
    exact hg.used (hs.used t a ha)

omit [DecidableEq T] in
/-- `narr` and `nrec` together are the length of the arrays -/
theorem entries_eq {es : List (Value T × Value T)} {keys values : List Field} (hk : keys.length = es.length) :
    Table.entries ⟨keys, values, es.countP fun e => e.1.isinteger, es.countP fun e => !e.1.isinteger⟩ =
      keys.zip values := by
  have hlen : es.countP (fun e => e.1.isinteger) + es.countP (fun e => !e.1.isinteger) = es.length := by
    have h := @List.length_eq_countP_add_countP _ (fun e : Value T × Value T => e.1.isinteger) es
    simpa only [Bool.not_eq_true, Bool.decide_eq_false] using h.symm
  unfold Table.entries
  apply List.take_of_length_le
  change (keys.zip values).length ≤ es.countP _ + es.countP _
  rw [hlen, List.length_zip, ← hk]
  exact min_le_left _ _

theorem pack_leaf_outcome (A : Allocator) (shared : Bool) (tables : Tables T) (fuel : ℕ) {v : Value T} {s : Packing T}
    (hs : Anchored s) (href : v.tableRef = none) : Outcome tables s v (pack_field A shared tables fuel v s) := by
  have hquiet : ∀ f, PackedLeaf v f → Outcome tables s v (.ok f s) :=
    fun f hf => leaf_outcome href hf rfl hs ⟨[], Grows.refl s⟩
  have hraise : ∀ msg, v.sendable = false → Outcome tables s v (.raise msg s) :=
    fun msg hsend => ⟨⟨[], Grows.refl s⟩, v, .refl, hsend⟩
  cases v with
  | nil => rw [pack_field]; exact hquiet _ trivial
  | boolean b => rw [pack_field]; exact hquiet _ rfl
  | lightuserdata p => rw [pack_field]; exact hquiet _ rfl
  | integer i => rw [pack_field]; exact hquiet _ rfl
  | number x => rw [pack_field]; exact hquiet _ rfl
  | function => rw [pack_field]; exact hraise _ rfl
  | userdata => rw [pack_field]; exact hraise _ rfl
  | thread => rw [pack_field]; exact hraise _ rfl
  | table t => cases href
  | string bytes =>
    rw [pack_field]
    cases shared with
    | false => exact hquiet _ rfl
    | true =>
      obtain ⟨hg, hpacked, hmem, -, -⟩ := alloc_grows A true s
      have hmemo : (alloc A true s).2.memo = s.memo := by
        unfold Packing.memo
        rw [hpacked, hmem]
      exact leaf_outcome rfl rfl hmemo hs hg

/-- a table that is packed for the first time, before its loop: it is found by its address from now on -/
theorem enter_anchored (A : Allocator) (shared : Bool) {s : Packing T} {t : T} (hs : Anchored s)
    (ht : s.packed t = none) :
    let s' := { (alloc A shared s).2 with
      packed := Function.update (alloc A shared s).2.packed t (some (alloc A shared s).1) }
    s'.memo = s.memo.enter t (alloc A shared s).1 ∧ Anchored s' ∧ (∃ new, Grows s s' new) ∧
      ∀ t', ¬ s.memo.Rel t' (alloc A shared s).1 := by
  obtain ⟨⟨new, hg⟩, hpacked, hmem, hused, hfresh⟩ := alloc_grows A shared s
  intro s'
  have hunused : ∀ t', ¬ s.memo.Rel t' (alloc A shared s).1 := fun t' ht' => hfresh (hs.used t' _ ht')
  have hmemo : s'.memo = s.memo.enter t (alloc A shared s).1 := by
    simp only [s', Packing.memo, Memo.enter, hpacked, hmem]
  have hgrows : Grows s s' new :=
    ⟨hg.reftable, hg.slab, hg.nodup, hg.fresh, hg.used, hg.procnum, hg.active, hg.freed⟩
  refine ⟨hmemo, ⟨?_, ?_⟩, ⟨new, hgrows⟩, hunused⟩
  · rw [hmemo]
    exact hs.inj.enter ht hunused
  · intro t' a ha
    have hrel : s'.memo.Rel t' a := ha
    rw [hmemo] at hrel
    rcases (Memo.enter_rel ht).1 hrel with ⟨-, rfl⟩ | hold
    · exact hused
    · exact hg.used (hs.used t' a hold)

/-- a leaf or a table that is packed already needs no depth -/
theorem pack_known_outcome (A : Allocator) (shared : Bool) (tables : Tables T) (fuel : ℕ) {v : Value T} {s : Packing T}
    (hs : Anchored s) (h : ∀ t, v = .table t → s.packed t ≠ none) :
    Outcome tables s v (pack_field A shared tables fuel v s) := by
  cases v with
  | table t =>
    cases ht : s.packed t with
    | none => exact absurd ht (h t rfl)
    | some a =>
      have he : pack_field A shared tables fuel (.table t) s = .ok (.table a) s := by
        cases fuel <;> simp only [pack_field, ht]
      rw [he]
      exact ⟨.seen rfl ht (.nil _), hs, [], Grows.refl s⟩
  | _ => exact pack_leaf_outcome A shared tables fuel hs rfl

/-- **How `pack_field` ends.** -/
theorem pack_field_outcome (A : Allocator) (shared : Bool) (tables : Tables T) {P : Finset T} (hP : ∀ t, t ∈ P)
    (fuel : ℕ) (v : Value T) (s : Packing T) (hs : Anchored s) (hfuel : (todo P s.packed).card ≤ fuel) :
    Outcome tables s v (pack_field A shared tables fuel v s) := by
  induction fuel generalizing v s with
  | zero =>
    apply pack_known_outcome A shared tables 0 hs
    rintro t rfl ht
    have hmem : t ∈ todo P s.packed := Finset.mem_filter.2 ⟨hP t, ht⟩
    exact absurd hfuel (Nat.not_le.2 (Finset.card_pos.2 ⟨t, hmem⟩))
  | succ fuel ih =>
    by_cases hknown : ∀ t, v = .table t → s.packed t ≠ none
    · exact pack_known_outcome A shared tables _ hs hknown
    · push Not at hknown
      obtain ⟨t, rfl, ht⟩ := hknown
      obtain ⟨hmemo, hs', ⟨new, hg⟩, hfresh⟩ := enter_anchored A shared hs ht
      have hn : (todo P (Function.update (alloc A shared s).2.packed t (some (alloc A shared s).1))).card ≤ fuel := by
        have hlt := todo_enter (a := (alloc A shared s).1) (hP t) ht
        rw [(alloc_grows A shared s).2.1]
        omega
      have hes := pack_entries_outcome ih (tables t) _ hs' hn
      rw [pack_field]
      simp only [ht]
      cases hr : pack_entries (pack_field A shared tables fuel) (tables t)
          { (alloc A shared s).2 with
            packed := Function.update (alloc A shared s).2.packed t (some (alloc A shared s).1) } with
      | deep =>
        rw [hr] at hes
        exact absurd hes id
      | raise msg s₁ =>
        rw [hr] at hes
        obtain ⟨⟨new', hg'⟩, e, he, w, hw, hsend⟩ := hes
        refine ⟨⟨_, hg.trans hg'⟩, w, ?_, hsend⟩
        rcases hw with hw | hw
        · exact (Reachable.key (k := e.1) (w := e.2) .refl he).trans hw
        · exact (Reachable.value (k := e.1) (w := e.2) .refl he).trans hw
      | ok r s₁ =>
        obtain ⟨keys, values⟩ := r
        rw [hr] at hes
        obtain ⟨hk, -, hcopies, hanch, new', hg'⟩ := hes
        rw [hmemo] at hcopies
        have hleave : ∀ rec : Table, rec.entries = keys.zip values →
            (⟨s₁.packed, fun a => valueFirst (Function.update s₁.mem (alloc A shared s).1 rec a).entries⟩ :
              Memo T ℕ Field) = s₁.memo.leave (alloc A shared s).1 (valueFirst (keys.zip values)) := by
          intro rec hrec
          unfold Packing.memo Memo.leave
          congr 1
          funext a
          by_cases ha : a = (alloc A shared s).1
          · rw [ha, Function.update_self, Function.update_self, hrec]
          · rw [Function.update_of_ne ha, Function.update_of_ne ha]
        refine ⟨?_, ⟨hanch.inj, hanch.used⟩, new ++ new', ?_⟩
        · refine .new rfl ht hfresh hcopies ?_
          rw [← hleave _ (entries_eq hk)]
          exact .nil _
        · have hg'' := hg.trans hg'
          exact ⟨hg''.reftable, hg''.slab, hg''.nodup, hg''.fresh, hg''.used, hg''.procnum, hg''.active, hg''.freed⟩

theorem pack_data_ok {A : Allocator} {tables : Tables T} {fuel : ℕ} {v : Value T} {name : String} {shared : Bool}
    {w : World} {f : Field} {s : Packing T} (h : pack_field A shared tables fuel v (pack_start A shared w) = .ok f s) :
    luaS_lua_ipc_pack_data A tables fuel v name shared w =
      .ok ⟨A.block w.used, f, s.reftable, name, s.procnum, shared, false⟩
        { s.toWorld with ipc_messages_active := s.ipc_messages_active + 1 } := by
  simp only [luaS_lua_ipc_pack_data, h]

omit [DecidableEq T] in
/-- at the start of a message -/
theorem pack_start_anchored (A : Allocator) (shared : Bool) (w : World) :
    (pack_start A shared w : Packing T).memo.copied = (fun _ => none) ∧
      Anchored (pack_start A shared w : Packing T) := by
  have hnone : (pack_start A shared w : Packing T).packed = fun _ => none := rfl
  refine ⟨hnone, ?_, ?_⟩
  · intro n n' a hn _
    have : (pack_start A shared w : Packing T).packed n = some a := hn
    rw [hnone] at this
    cases this
  · intro t a ha
    rw [hnone] at ha
    cases ha

end Shuttlesock.Lua
