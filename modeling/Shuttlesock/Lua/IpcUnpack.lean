/-
What `unpack_field` does (`modules/lua_bridge/api/ipc_lua_api.c`).

- `unpackRules`: a field is copied to its value, the address of a packed table to the number of the new table. The fields
  of a packed table are its keys and values in the order in which the loop unpacks them.
- `build`: what storing keys and values one after the other makes of an empty table.
- `Unpacked`: what a call does. New tables are built from their copied fields, older ones are left as they are.

Results:
- `unpack_field_spec`: with a depth that covers the packed tables without a new one, a call copies its field as the rules
  say.
-/
import Mathlib.Tactic
import Shuttlesock.Core.GraphCopy
import Shuttlesock.Lua.IpcPack

namespace Shuttlesock.Lua

open Shuttlesock.GraphCopy

/-! ## The rules -/

/-- a field that is not a table, and its value -/
def UnpackedLeaf : Field → Value ℕ → Prop
  | .nil, .nil => True
  | .boolean b, .boolean b' => b = b'
  | .lightuserdata p, .lightuserdata p' => p = p'
  | .integer i, .integer i' => i' = i.signExtend 64
  | .number x, .number x' => x = x'
  | .string _ s, .string s' => s = s'
  | _, _ => False

def Field.tableRef : Field → Option ℕ
  | .table a => some a
  | _ => none

def unpackRules (mem : ℕ → Table) : Rules ℕ ℕ Field (Value ℕ) where
  ref := Field.tableRef
  succ := fun a => keyFirst (mem a).entries
  leaf := UnpackedLeaf
  point := .table

/-- the table that the copied fields make -/
def build (ws : List (Value ℕ)) : List (Value ℕ × Value ℕ) := storeAll [] (pairs ws)

/-- every new table has its number, below `count`, and is the copy of one packed table -/
structure Numbered (s : Unpacking) : Prop where
  inj : ∀ a a' id, s.unpacked a = some id → s.unpacked a' = some id → a = a'
  lt : ∀ a id, s.unpacked a = some id → id < s.count
  onto : ∀ id < s.count, ∃ a, s.unpacked a = some id

theorem start_numbered : Numbered ⟨fun _ => [], 0, fun _ => none⟩ where
  inj := by
    intro a a' id h _
    cases h
  lt := by
    intro a id h
    cases h
  onto := fun id h => absurd h (Nat.not_lt_zero id)

structure Unpacked (mem : ℕ → Table) (s : Unpacking) (m : Memo ℕ ℕ (Value ℕ)) (fs : List Field) (s' : Unpacking)
    (m' : Memo ℕ ℕ (Value ℕ)) (ws : List (Value ℕ)) : Prop where
  copies : Copies (unpackRules mem) m fs m' ws
  memo : m'.copied = s'.unpacked
  numbered : Numbered s'
  count : s.count ≤ s'.count
  frame : ∀ id < s.count, s'.tables id = s.tables id
  built : ∀ id, s.count ≤ id → id < s'.count → s'.tables id = build (m'.out id)

theorem Numbered.memo_inj {s : Unpacking} (hs : Numbered s) {m : Memo ℕ ℕ (Value ℕ)} (hm : m.copied = s.unpacked) :
    m.Inj := by
  intro a a' id ha ha'
  unfold Memo.Rel at ha ha'
  rw [hm] at ha ha'
  exact hs.inj a a' id ha ha'

theorem Unpacked.refl (mem : ℕ → Table) {s : Unpacking} (hs : Numbered s) {m : Memo ℕ ℕ (Value ℕ)}
    (hm : m.copied = s.unpacked) {f : Field} {w : Value ℕ} (hc : Copies (unpackRules mem) m [f] m [w]) :
    Unpacked mem s m [f] s m [w] where
  copies := hc
  memo := hm
  numbered := hs
  count := le_refl _
  frame := fun _ _ => rfl
  built := fun _ h1 h2 => absurd h2 (Nat.not_lt.2 h1)

/-- the table of an older number is built from the same fields -/
theorem Unpacked.out_eq {mem : ℕ → Table} {s s' : Unpacking} {m m' : Memo ℕ ℕ (Value ℕ)} {fs : List Field}
    {ws : List (Value ℕ)} (h : Unpacked mem s m fs s' m' ws) (hs : Numbered s) (hm : m.copied = s.unpacked) {id : ℕ}
    (hid : id < s.count) : m'.out id = m.out id := by
  obtain ⟨a, ha⟩ := hs.onto id hid
  refine ((h.copies.spec (hs.memo_inj hm)).keep a id ?_).2
  unfold Memo.Rel
  rw [hm]
  exact ha

theorem Unpacked.todo {mem : ℕ → Table} {s s' : Unpacking} {m m' : Memo ℕ ℕ (Value ℕ)} {fs : List Field}
    {ws : List (Value ℕ)} (h : Unpacked mem s m fs s' m' ws) (hs : Numbered s) (hm : m.copied = s.unpacked)
    (P : Finset ℕ) : (todo P s'.unpacked).card ≤ (todo P s.unpacked).card := by
  rw [← h.memo, ← hm]
  exact todo_mono fun n a ha => ((h.copies.spec (hs.memo_inj hm)).keep n a ha).1

theorem Unpacked.trans {mem : ℕ → Table} {s s₁ s₂ : Unpacking} {m m₁ m₂ : Memo ℕ ℕ (Value ℕ)} {fs gs : List Field}
    {ws xs : List (Value ℕ)} (h : Unpacked mem s m fs s₁ m₁ ws) (h' : Unpacked mem s₁ m₁ gs s₂ m₂ xs) :
    Unpacked mem s m (fs ++ gs) s₂ m₂ (ws ++ xs) where
  copies := h.copies.append h'.copies
  memo := h'.memo
  numbered := h'.numbered
  count := le_trans h.count h'.count
  frame := by
    intro id hid
    rw [h'.frame id (lt_of_lt_of_le hid h.count), h.frame id hid]
  built := by
    intro id h1 h2
    by_cases hid : id < s₁.count
    · rw [h'.frame id hid, h.built id h1 hid, h'.out_eq h.numbered h.memo hid]
    · exact h'.built id (Nat.not_lt.1 hid) h2

/-! ## The loop over a table -/

/-- what the loop does to the new table id -/
structure EntriesUnpacked (mem : ℕ → Table) (s : Unpacking) (m : Memo ℕ ℕ (Value ℕ)) (id : ℕ)
    (es : List (Field × Field)) (s' : Unpacking) (m' : Memo ℕ ℕ (Value ℕ)) (ps : List (Value ℕ × Value ℕ)) : Prop where
  copies : Copies (unpackRules mem) m (keyFirst es) m' (keyFirst ps)
  memo : m'.copied = s'.unpacked
  numbered : Numbered s'
  count : s.count ≤ s'.count
  self : s'.tables id = storeAll (s.tables id) ps
  frame : ∀ j < s.count, j ≠ id → s'.tables j = s.tables j
  built : ∀ j, s.count ≤ j → j < s'.count → s'.tables j = build (m'.out j)

theorem unpack_entries_spec {mem : ℕ → Table} {P : Finset ℕ} {n : ℕ}
    {unpack : Field → Unpacking → Res Unpacking (Value ℕ)}
    (hunpack : ∀ f s m, m.copied = s.unpacked → Numbered s → (∀ q, f.tableRef = some q → q ∈ P) →
      (todo P s.unpacked).card ≤ n → ∃ w s' m', unpack f s = .ok w s' ∧ Unpacked mem s m [f] s' m' [w])
    (id : ℕ) (es : List (Field × Field)) (s : Unpacking) (m : Memo ℕ ℕ (Value ℕ)) (hm : m.copied = s.unpacked)
    (hs : Numbered s) (hid : id < s.count) (hes : ∀ f ∈ keyFirst es, ∀ q, f.tableRef = some q → q ∈ P)
    (hn : (todo P s.unpacked).card ≤ n) :
    ∃ s' m' ps, unpack_entries unpack id es s = .ok () s' ∧ EntriesUnpacked mem s m id es s' m' ps := by
  induction es generalizing s m with
  | nil =>
    exact ⟨s, m, [], rfl, .nil _, hm, hs, le_refl _, rfl, fun _ _ _ => rfl,
      fun _ h1 h2 => absurd h2 (Nat.not_lt.2 h1)⟩
  | cons e es ih =>
    obtain ⟨fk, fv⟩ := e
    rw [keyFirst_cons] at hes
    obtain ⟨k, s₁, m₁, hk, hku⟩ := hunpack fk s m hm hs (hes fk List.mem_cons_self) hn
    have hn₁ := le_trans (hku.todo hs hm P) hn
    obtain ⟨v, s₂, m₂, hv, hvu⟩ := hunpack fv s₁ m₁ hku.memo hku.numbered
      (hes fv (List.mem_cons_of_mem _ List.mem_cons_self)) hn₁
    have hn₂ := le_trans (hvu.todo hku.numbered hku.memo P) hn₁
    have hkv := hku.trans hvu
    have hid₂ : id < s₂.count := lt_of_lt_of_le hid hkv.count
    -- the table id after the store; the numbers are those of s₂
    obtain ⟨s₃, m₃, ps, hrest, hps⟩ := ih
      { s₂ with tables := Function.update s₂.tables id (rawset (s₂.tables id) k v) } m₂ hvu.memo
      ⟨hvu.numbered.inj, hvu.numbered.lt, hvu.numbered.onto⟩ hid₂
      (fun f hf => hes f (List.mem_cons_of_mem _ (List.mem_cons_of_mem _ hf))) hn₂
    refine ⟨s₃, m₃, (k, v) :: ps, ?_, ?_, hps.memo, hps.numbered, le_trans hkv.count hps.count, ?_, ?_, ?_⟩
    · simp only [unpack_entries, hk, hv]
      exact hrest
    · exact hkv.copies.append hps.copies
    · rw [hps.self]
      simp only [Function.update_self, hkv.frame id hid]
      rfl
    · intro j hj hne
      rw [hps.frame j (lt_of_lt_of_le hj hkv.count) hne]
      simp only [Function.update_of_ne hne]
      exact hkv.frame j hj
    · intro j h1 h2
      by_cases hj : j < s₂.count
      · have hne : j ≠ id := by omega
        obtain ⟨a, ha⟩ := hvu.numbered.onto j hj
        have hout : m₃.out j = m₂.out j := by
          refine ((hps.copies.spec (hvu.numbered.memo_inj hvu.memo)).keep a j ?_).2
          unfold Memo.Rel
          rw [hvu.memo]
          exact ha
        rw [hps.frame j hj hne, hout]
        simp only [Function.update_of_ne hne]
        exact hkv.built j h1 hj
      · exact hps.built j (Nat.not_lt.1 hj) h2

/-! ## A field -/

/-- a leaf or a table that is unpacked already needs no depth -/
theorem unpack_known_spec (mem : ℕ → Table) (fuel : ℕ) {f : Field} {s : Unpacking} {m : Memo ℕ ℕ (Value ℕ)}
    (hm : m.copied = s.unpacked) (hs : Numbered s) (h : ∀ a, f = .table a → s.unpacked a ≠ none) :
    ∃ w, unpack_field mem fuel f s = .ok w s ∧ Unpacked mem s m [f] s m [w] := by
  have hleaf : ∀ w, f.tableRef = none → UnpackedLeaf f w → Unpacked mem s m [f] s m [w] :=
    fun w href hw => Unpacked.refl mem hs hm (.leaf href hw (.nil _))
  cases f with
  | nil => exact ⟨.nil, by rw [unpack_field], hleaf _ rfl trivial⟩
  | boolean b => exact ⟨.boolean b, by rw [unpack_field], hleaf _ rfl rfl⟩
  | lightuserdata p => exact ⟨.lightuserdata p, by rw [unpack_field], hleaf _ rfl rfl⟩
  | integer i => exact ⟨.integer (i.signExtend 64), by rw [unpack_field], hleaf _ rfl rfl⟩
  | number x => exact ⟨.number x, by rw [unpack_field], hleaf _ rfl rfl⟩
  | string data bytes => exact ⟨.string bytes, by rw [unpack_field], hleaf _ rfl rfl⟩
  | table a =>
    cases ha : s.unpacked a with
    | none => exact absurd ha (h a rfl)
    | some id =>
      refine ⟨.table id, ?_, Unpacked.refl mem hs hm (.seen rfl ?_ (.nil _))⟩
      · cases fuel <;> simp only [unpack_field, ha]
      · unfold Memo.Rel
        rw [hm]
        exact ha

/-- a new table, before its loop -/
theorem enter_numbered {s : Unpacking} (hs : Numbered s) {a : ℕ} (ha : s.unpacked a = none)
    (tables : Tables ℕ) : Numbered ⟨tables, s.count + 1, Function.update s.unpacked a (some s.count)⟩ where
  inj := by
    intro b b' id hb hb'
    have hm : (⟨s.unpacked, fun _ => []⟩ : Memo ℕ ℕ (Value ℕ)).Inj := hs.memo_inj rfl
    exact hm.enter ha (fun n hn => absurd (hs.lt n _ hn) (lt_irrefl _)) b b' id hb hb'
  lt := by
    intro b id hb
    change Function.update s.unpacked a (some s.count) b = some id at hb
    by_cases hba : b = a
    · rw [hba, Function.update_self] at hb
      rw [← Option.some.inj hb]
      exact Nat.lt_succ_self _
    · rw [Function.update_of_ne hba] at hb
      exact Nat.lt_succ_of_lt (hs.lt b id hb)
  onto := by
    intro id hid
    rcases Nat.lt_succ_iff_lt_or_eq.1 hid with hlt | rfl
    · obtain ⟨b, hb⟩ := hs.onto id hlt
      have hba : b ≠ a := by
        rintro rfl
        rw [ha] at hb
        cases hb
      exact ⟨b, (Function.update_of_ne hba _ _).trans hb⟩
    · exact ⟨a, Function.update_self _ _ _⟩

/-- **What `unpack_field` does.** -/
theorem unpack_field_spec (mem : ℕ → Table) {P : Finset ℕ}
    (hP : ∀ a ∈ P, ∀ f ∈ keyFirst (mem a).entries, ∀ q, f.tableRef = some q → q ∈ P) (fuel : ℕ) (f : Field)
    (s : Unpacking) (m : Memo ℕ ℕ (Value ℕ)) (hm : m.copied = s.unpacked) (hs : Numbered s)
    (hf : ∀ q, f.tableRef = some q → q ∈ P) (hfuel : (todo P s.unpacked).card ≤ fuel) :
    ∃ w s' m', unpack_field mem fuel f s = .ok w s' ∧ Unpacked mem s m [f] s' m' [w] := by
  induction fuel generalizing f s m with
  | zero =>
    obtain ⟨w, hw, hu⟩ := unpack_known_spec mem 0 hm hs (f := f) (by
      rintro a rfl ha
      have hmem : a ∈ todo P s.unpacked := Finset.mem_filter.2 ⟨hf a rfl, ha⟩
      exact absurd hfuel (Nat.not_le.2 (Finset.card_pos.2 ⟨a, hmem⟩)))
    exact ⟨w, s, m, hw, hu⟩
  | succ fuel ih =>
    by_cases hknown : ∀ a, f = .table a → s.unpacked a ≠ none
    · obtain ⟨w, hw, hu⟩ := unpack_known_spec mem (fuel + 1) hm hs hknown
      exact ⟨w, s, m, hw, hu⟩
    · push Not at hknown
      obtain ⟨a, rfl, ha⟩ := hknown
      have haP : a ∈ P := hf a rfl
      have hma : m.copied a = none := by rw [hm, ha]
      have hfresh : ∀ n, ¬ m.Rel n s.count := by
        intro n hn
        unfold Memo.Rel at hn
        rw [hm] at hn
        exact absurd (hs.lt n _ hn) (lt_irrefl _)
      have henter : (m.enter a s.count).copied = Function.update s.unpacked a (some s.count) := by
        rw [← hm]
        rfl
      have hn : (todo P (Function.update s.unpacked a (some s.count))).card ≤ fuel := by
        have hlt := todo_enter (a := s.count) haP ha
        omega
      obtain ⟨s₁, m₁, ps, hrun, hps⟩ := unpack_entries_spec ih s.count (mem a).entries
        ⟨Function.update s.tables s.count [], s.count + 1, Function.update s.unpacked a (some s.count)⟩
        (m.enter a s.count) henter (enter_numbered hs ha _) (Nat.lt_succ_self _) (hP a haP) hn
      have hlt : s.count < s₁.count := hps.count
      refine ⟨.table s.count, s₁, m₁.leave s.count (keyFirst ps), ?_, ?_, hps.memo, hps.numbered, hlt.le, ?_, ?_⟩
      · rw [unpack_field]
        simp only [ha]
        rw [show unpack_entries _ _ (((mem a).keys.zip (mem a).values).take _) _ = _ from hrun]
      · exact .new rfl hma hfresh hps.copies (.nil _)
      · intro id hid
        have hne : id ≠ s.count := Nat.ne_of_lt hid
        rw [hps.frame id (Nat.lt_succ_of_lt hid) hne]
        exact Function.update_of_ne hne _ _
      · intro id h1 h2
        by_cases hid : id = s.count
        · subst hid
          rw [hps.self]
          simp only [Memo.leave, Function.update_self, build, pairs_keyFirst]
        · have h3 : s.count + 1 ≤ id := by omega
          simp only [Memo.leave, Function.update_of_ne hid]
          exact hps.built id h3 h2

end Shuttlesock.Lua
