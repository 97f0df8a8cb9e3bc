/-
The blocks of the shared slab that a Lua IPC message takes (`modules/lua_bridge/api/ipc_lua_api.c`).

- `Conserves`: packing a value in shared memory and collecting the message frees every block it took exactly once, and
  an error while packing leaves no block behind; the live blocks and `ipc_messages_active` are as before.

Results:
- `gc_frees`: collecting frees the blocks of the reftable, each once, and these are the strings and the tables.
- `pack_shared`: what is allocated after packing, with and without an error.
- `not_conserved`: `Conserves` holds of no value. The block of the message record is not in the reftable, and
  `luaS_lua_ipc_gc_data` does not free it; when packing raises an error, nothing is freed.
-/
import Mathlib.Tactic
import Shuttlesock.Lua.IpcPack

namespace Shuttlesock.Lua

open Shuttlesock.GraphCopy

variable {T : Type*} [DecidableEq T]

def Conserves (A : Allocator) (tables : Tables T) (fuel : ℕ) (v : Value T) (name : String) (w : World) : Prop :=
  match luaS_lua_ipc_pack_data A tables fuel v name true w with
  | .ok d w₁ => ∃ w₂, luaS_lua_ipc_gc_data w₁ d = some w₂ ∧
      (∀ b ∈ w₁.slab, b ∉ w.slab → w₂.freed.count b = w₁.freed.count b + 1) ∧ w₂.slab = w.slab ∧
        w₂.ipc_messages_active = w.ipc_messages_active
  | .raise _ w₁ => w₁.slab = w.slab ∧ w₁.ipc_messages_active = w.ipc_messages_active
  | .deep => True

/-! ## Collecting -/

/-- every block of the list is freed, each as often as it is listed -/
theorem foldl_slab_free (w : World) (l : List ℕ) :
    (l.foldl slab_free w).slab = w.slab \ l.toFinset ∧ (l.foldl slab_free w).freed = w.freed ++ l ∧
      (l.foldl slab_free w).procnum = w.procnum ∧
      (l.foldl slab_free w).ipc_messages_active = w.ipc_messages_active := by
  induction l generalizing w with
  | nil => simp
  | cons b l ih =>
    obtain ⟨h1, h2, h3, h4⟩ := ih (slab_free w b)
    refine ⟨?_, ?_, h3, h4⟩
    · rw [List.foldl_cons, h1, List.toFinset_cons]
      ext x
      simp only [slab_free, Finset.mem_sdiff, Finset.mem_erase, Finset.mem_insert, not_or]
      tauto
    · rw [List.foldl_cons, h2]
      exact List.append_assoc _ _ _

/-- **What collecting frees.** -/
theorem gc_frees {w w' : World} {d : Data} (hshared : d.in_shared_memory = true)
    (h : luaS_lua_ipc_gc_data w d = some w') :
    w'.slab = w.slab \ d.reftable.toFinset ∧ w'.freed = w.freed ++ d.reftable ∧
      w'.ipc_messages_active = w.ipc_messages_active - 1 := by
  obtain ⟨h1, h2, -, h4⟩ := foldl_slab_free w d.reftable
  unfold luaS_lua_ipc_gc_data at h
  simp only [hshared, if_true] at h
  split_ifs at h
  cases h
  exact ⟨h1, h2, congrArg (· - 1) h4⟩

/-! ## Packing -/

/-- what packing in shared memory allocates: the record, and the blocks that the reftable lists -/
theorem pack_shared [Fintype T] (A : Allocator) (tables : Tables T) {fuel : ℕ} (hfuel : Fintype.card T ≤ fuel)
    (v : Value T) (name : String) (w : World) :
    match luaS_lua_ipc_pack_data A tables fuel v name true w with
    | .ok d w₁ => d.block = A.block w.used ∧ d.in_shared_memory = true ∧ d.reftable.Nodup ∧
        A.block w.used ∉ d.reftable ∧ (∀ b ∈ d.reftable, b ∉ w.slab) ∧
        w₁.slab = insert (A.block w.used) w.slab ∪ d.reftable.toFinset ∧
        w₁.ipc_messages_active = w.ipc_messages_active + 1
    | .raise _ w₁ => A.block w.used ∈ w₁.slab
    | .deep => False := by
  have hcard : (todo Finset.univ (pack_start A true w : Packing T).packed).card ≤ fuel :=
    le_trans (Finset.card_filter_le _ _) hfuel
  have hout := pack_field_outcome A true tables Finset.mem_univ fuel v _ (pack_start_anchored A true w).2 hcard
  have hused : insert (A.block w.used) w.slab ⊆ (pack_start A true w : Packing T).used := Finset.subset_union_left
  cases hr : pack_field A true tables fuel v (pack_start A true w) with
  | deep =>
    rw [hr] at hout
    exact absurd hout id
  | raise msg s =>
    rw [hr] at hout
    obtain ⟨⟨new, hg⟩, -⟩ := hout
    have he : luaS_lua_ipc_pack_data A tables fuel v name true w = .raise msg s.toWorld := by
      simp only [luaS_lua_ipc_pack_data, hr]
    rw [he]
    change A.block w.used ∈ s.slab
    rw [hg.slab]
    exact Finset.mem_union_left _ (Finset.mem_insert_self _ _)
  | ok f s =>
    rw [hr] at hout
    obtain ⟨-, -, new, hg⟩ := hout
    have href : s.reftable = new := hg.reftable.trans (List.nil_append new)
    rw [pack_data_ok hr]
    refine ⟨rfl, rfl, ?_, ?_, ?_, ?_, ?_⟩
    · change s.reftable.Nodup
      rw [href]
      exact hg.nodup
    · change _ ∉ s.reftable
      rw [href]
      exact fun hb => hg.fresh _ hb (hused (Finset.mem_insert_self _ _))
    · change ∀ b ∈ s.reftable, _
      rw [href]
      exact fun b hb hw => hg.fresh b hb (hused (Finset.mem_insert_of_mem hw))
    · change s.slab = _ ∪ s.reftable.toFinset
      rw [href]
      exact hg.slab
    · exact congrArg (· + 1) hg.active

/-- no block of the slab is taken -/
def Keeps {S : Type*} (s : Packing T) : Res (Packing T) S → Prop
  | .ok _ s' => s'.slab = s.slab
  | .raise _ _ => True
  | .deep => True

omit [DecidableEq T] in
theorem pack_entries_keeps {pack : Value T → Packing T → Res (Packing T) Field} (h : ∀ v s, Keeps s (pack v s))
    (es : List (Value T × Value T)) (s : Packing T) : Keeps s (pack_entries pack es s) := by
  induction es generalizing s with
  | nil => rfl
  | cons e rest ih =>
    obtain ⟨k, v⟩ := e
    have hv := h v s
    unfold pack_entries
    cases hpv : pack v s with
    | ok fv s₁ =>
      rw [hpv] at hv
      have hk := h k s₁
      cases hpk : pack k s₁ with
      | ok fk s₂ =>
        rw [hpk] at hk
        have hrest := ih s₂
        cases hpr : pack_entries pack rest s₂ with
        | ok r s₃ =>
          rw [hpr] at hrest
          simp only [hpk, hpr]
          exact (Eq.trans hrest hk).trans hv
        | raise msg s₃ => simp only [hpk, hpr, Keeps]
        | deep => simp only [hpk, hpr, Keeps]
      | raise msg s₂ => simp only [hpk, Keeps]
      | deep => simp only [hpk, Keeps]
    | raise msg s₁ => simp only [Keeps]
    | deep => simp only [Keeps]

theorem pack_field_keeps (A : Allocator) (tables : Tables T) (fuel : ℕ) (v : Value T) (s : Packing T) :
    Keeps s (pack_field A false tables fuel v s) := by
  induction fuel generalizing v s with
  | zero =>
    cases v with
    | table t =>
      unfold pack_field
      cases s.packed t with
      | none => trivial
      | some table => rfl
    | function | userdata | thread => trivial
    | _ => rfl
  | succ fuel ih =>
    cases v with
    | table t =>
      unfold pack_field
      cases s.packed t with
      | none =>
        dsimp only
        have hes := pack_entries_keeps ih (tables t) { (alloc A false s).2 with
          packed := Function.update (alloc A false s).2.packed t (some (alloc A false s).1) }
        split <;> first | trivial | skip
        next keys values s' heq =>
          rw [heq] at hes
          exact hes
      | some table => rfl
    | function | userdata | thread => trivial
    | _ => rfl

/-- packing in the heap of the process takes no block of the slab -/
theorem pack_heap {A : Allocator} {tables : Tables T} {fuel : ℕ} {v : Value T} {name : String} {w w₁ : World} {d : Data}
    (h : luaS_lua_ipc_pack_data A tables fuel v name false w = .ok d w₁) : w₁.slab = w.slab := by
  have hkeeps := pack_field_keeps A tables fuel v (pack_start A false w)
  cases hr : pack_field A false tables fuel v (pack_start A false w) with
  | ok f s =>
    rw [pack_data_ok hr] at h
    cases h
    rw [hr] at hkeeps
    exact hkeeps
  | raise msg s =>
    simp only [luaS_lua_ipc_pack_data, hr] at h
    cases h
  | deep =>
    simp only [luaS_lua_ipc_pack_data, hr] at h
    cases h

/-- **No value is conserved.** The record of the message stays allocated. -/
theorem not_conserved [Fintype T] (A : Allocator) (tables : Tables T) (fuel : ℕ) (hfuel : Fintype.card T ≤ fuel)
    (v : Value T) (name : String) (w : World) : ¬ Conserves A tables fuel v name w := by
  intro h
  have hpack := pack_shared A tables hfuel v name w
  have hfresh : A.block w.used ∉ w.slab := fun hb => A.fresh w.used (Finset.mem_union_left _ hb)
  unfold Conserves at h
  cases hr : luaS_lua_ipc_pack_data A tables fuel v name true w with
  | deep =>
    rw [hr] at hpack
    exact hpack
  | raise msg w₁ =>
    rw [hr] at hpack h
    have hmem : A.block w.used ∈ w₁.slab := hpack
    rw [h.1] at hmem
    exact hfresh hmem
  | ok d w₁ =>
    rw [hr] at hpack h
    obtain ⟨-, hshared, -, hrec, -, hslab, -⟩ := hpack
    obtain ⟨w₂, hgc, -, hsame, -⟩ := h
    have hmem : A.block w.used ∈ w₂.slab := by
      rw [(gc_frees hshared hgc).1, hslab]
      refine Finset.mem_sdiff.2 ⟨Finset.mem_union_left _ (Finset.mem_insert_self _ _), ?_⟩
      exact fun hb => hrec (List.mem_toFinset.1 hb)
    rw [hsame] at hmem
    exact hfresh hmem

/-- the table t with t[1] = t -/
theorem not_conserved_cycle :
    ¬ Conserves firstFree (fun _ : Unit => [(.integer 1, .table ())]) 1 (.table ()) "beep" noMessages :=
  not_conserved firstFree (fun _ : Unit => [(.integer 1, .table ())]) 1 (by decide) (.table ()) "beep" noMessages

/-- **The record of a message that holds one string is not freed.** -/
theorem record_leaks :
    ¬ ∀ (v : Value Unit) (w : World), Conserves firstFree (fun _ => []) 1 v "beep" w := by
  intro h
  obtain ⟨w₂, hgc, -, hslab, -⟩ := h (.string [104, 105]) noMessages
  cases hgc
  exact absurd hslab (by decide)

end Shuttlesock.Lua
