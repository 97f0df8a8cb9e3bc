/-
References in a Lua table (`luaL_ref` and `luaL_unref` of Lua 5.4). Library: nothing here is about shuttlesock.

The integer keys of a table hold nil, an integer, or an object. `luaL_ref` stores an object under a key that it returns, and `luaL_unref`
gives the key back: the keys given back form a chain of integers, which starts under the key `freelist`. `lua_rawlen` may return any
border of the table.
- `stored`: the objects, by key.
- `Wf`: the integers are the chain, and nothing else.

Results:
- `ref_spec`: the key is that of no object; the other objects stay where they are.
- `unref_spec`: only the object under the key goes.
- `unref_again`: a key that is given back twice changes the chain.
-/
import Mathlib.Tactic

namespace Shuttlesock.TableRefs

inductive Val (α : Type*) where
  | nil
  | int (n : ℤ)
  | obj (a : α)

variable {α : Type*}

def Val.isnil : Val α → Bool
  | nil => true
  | _ => false

/-- `lua_tointeger` -/
def Val.tointeger : Val α → ℤ
  | int n => n
  | _ => 0

def Val.object : Val α → Option α
  | obj a => some a
  | _ => none

def freelist : ℤ := 3

/-- the first access makes an empty list -/
def opened (slot : ℤ → Val α) : ℤ → Val α := if (slot freelist).isnil then Function.update slot freelist (.int 0) else slot

/-- n is `lua_rawlen` -/
def luaL_ref (slot : ℤ → Val α) (a : α) (n : ℤ) : (ℤ → Val α) × ℤ :=
  let slot := opened slot
  let ref := (slot freelist).tointeger
  if ref ≠ 0 then (Function.update (Function.update slot freelist (slot ref)) ref (.obj a), ref)
  else (Function.update slot (n + 1) (.obj a), n + 1)

def luaL_unref (slot : ℤ → Val α) (ref : ℤ) : ℤ → Val α :=
  if 0 ≤ ref then Function.update (Function.update slot ref (slot freelist)) freelist (.int ref) else slot

def Border (slot : ℤ → Val α) (n : ℤ) : Prop := 0 ≤ n ∧ (n = 0 ∨ (slot n).isnil = false) ∧ (slot (n + 1)).isnil = true

def stored (slot : ℤ → Val α) (r : ℤ) : Option α := (slot r).object

/-! ## The chain -/

/-- from h on, the keys that were given back are l -/
def Chain (slot : ℤ → Val α) : ℤ → List ℤ → Prop
  | h, [] => h = 0
  | h, r :: l => h = r ∧ 0 < r ∧ r ≠ freelist ∧ ∃ h', slot r = .int h' ∧ Chain slot h' l

structure Wf (slot : ℤ → Val α) : Prop where
  chain : ∃ h l, (opened slot) freelist = .int h ∧ Chain slot h l ∧ l.Nodup ∧ ∀ r n, slot r = .int n → r = freelist ∨ r ∈ l
  /-- an object is in the table only after the first access -/
  objects : ∀ r a, slot r = .obj a → 0 < r ∧ r ≠ freelist ∧ (slot freelist).isnil = false

theorem opened_of_not_nil {slot : ℤ → Val α} (h : (slot freelist).isnil = false) : opened slot = slot := by simp [opened, h]

theorem opened_ne {slot : ℤ → Val α} {r : ℤ} (hr : r ≠ freelist) : opened slot r = slot r := by
  unfold opened
  split
  · exact Function.update_of_ne hr _ _
  · rfl

theorem empty_wf : Wf (fun _ : ℤ => (Val.nil : Val α)) where
  chain := ⟨0, [], by simp [opened, Val.isnil], rfl, List.nodup_nil, fun _ _ h => by cases h⟩
  objects _ _ h := by cases h

theorem Chain.congr {slot slot' : ℤ → Val α} {h : ℤ} {l : List ℤ} (hc : Chain slot h l) (heq : ∀ r ∈ l, slot' r = slot r) :
    Chain slot' h l := by
  induction l generalizing h with
  | nil => exact hc
  | cons r l ih =>
    obtain ⟨hr, hpos, hne, h', hslot, hrest⟩ := hc
    refine ⟨hr, hpos, hne, h', ?_, ih hrest fun q hq => heq q (List.mem_cons_of_mem r hq)⟩
    rw [heq r List.mem_cons_self, hslot]

theorem Chain.ne_freelist {slot : ℤ → Val α} {h r : ℤ} {l : List ℤ} (hc : Chain slot h l) (hr : r ∈ l) : r ≠ freelist := by
  induction l generalizing h with
  | nil => exact absurd hr List.not_mem_nil
  | cons q l ih =>
    obtain ⟨-, -, hne, h', -, hrest⟩ := hc
    rcases List.mem_cons.1 hr with rfl | hr
    · exact hne
    · exact ih hrest hr

theorem Chain.pos {slot : ℤ → Val α} {h r : ℤ} {l : List ℤ} (hc : Chain slot h l) (hr : r ∈ l) : 0 < r := by
  induction l generalizing h with
  | nil => exact absurd hr List.not_mem_nil
  | cons q l ih =>
    obtain ⟨-, hpos, -, h', -, hrest⟩ := hc
    rcases List.mem_cons.1 hr with rfl | hr
    · exact hpos
    · exact ih hrest hr

/-- each key of the chain holds an integer -/
theorem Chain.int {slot : ℤ → Val α} {h r : ℤ} {l : List ℤ} (hc : Chain slot h l) (hr : r ∈ l) : ∃ n, slot r = .int n := by
  induction l generalizing h with
  | nil => exact absurd hr List.not_mem_nil
  | cons q l ih =>
    obtain ⟨-, -, -, h', hslot, hrest⟩ := hc
    rcases List.mem_cons.1 hr with rfl | hr
    · exact ⟨h', hslot⟩
    · exact ih hrest hr

/-- the last link of a key is not the key itself -/
theorem Chain.not_loop {slot : ℤ → Val α} {h r : ℤ} {l : List ℤ} (hc : Chain slot h l) (hnd : l.Nodup) (hr : r ∈ l) :
    slot r ≠ .int r := by
  induction l generalizing h with
  | nil => exact absurd hr List.not_mem_nil
  | cons q l ih =>
    obtain ⟨-, hpos, -, h', hslot, hrest⟩ := hc
    rw [List.nodup_cons] at hnd
    rcases List.mem_cons.1 hr with rfl | hr
    · intro heq
      rw [hslot] at heq
      cases heq
      cases l with
      | nil =>
        have h0 : r = 0 := hrest
        omega
      | cons p l =>
        have hp : r = p := hrest.1
        exact hnd.1 (by rw [hp]; exact List.mem_cons_self)
    · exact ih hrest hnd.2 hr

theorem update_freelist_ne {slot : ℤ → Val α} {r q : ℤ} {v w : Val α} (hr : q ≠ r) (hq : q ≠ freelist) :
    Function.update (Function.update slot r v) freelist w q = slot q := by
  rw [Function.update_of_ne hq, Function.update_of_ne hr]

/-! ## The two operations -/

/-- **A key is given back.** -/
theorem unref_spec {slot : ℤ → Val α} {r : ℤ} {a : α} (h : Wf slot) (hr : slot r = .obj a) :
    Wf (luaL_unref slot r) ∧ stored (luaL_unref slot r) = Function.update (stored slot) r none := by
  obtain ⟨k, l, hk, hchain, hnd, hints⟩ := h.chain
  obtain ⟨hpos, hne, hopen⟩ := h.objects r a hr
  rw [opened_of_not_nil hopen] at hk
  have hun : luaL_unref slot r = Function.update (Function.update slot r (.int k)) freelist (.int r) := by
    rw [luaL_unref, if_pos hpos.le, hk]
  have hrl : r ∉ l := by
    intro hmem
    obtain ⟨n, hn⟩ := hchain.int hmem
    rw [hr] at hn
    cases hn
  rw [hun]
  refine ⟨⟨⟨r, r :: l, ?_, ⟨rfl, hpos, hne, k, ?_, hchain.congr fun q hq => ?_⟩, List.nodup_cons.2 ⟨hrl, hnd⟩, ?_⟩, ?_⟩, ?_⟩
  · simp [opened, Val.isnil]
  · rw [Function.update_of_ne hne, Function.update_self]
  · exact update_freelist_ne (fun heq => hrl (heq ▸ hq)) (hchain.ne_freelist hq)
  · intro q n hq
    by_cases hqr : q = r
    · exact .inr (hqr ▸ List.mem_cons_self)
    · by_cases hqf : q = freelist
      · exact .inl hqf
      · rw [update_freelist_ne hqr hqf] at hq
        exact (hints q n hq).imp_right (List.mem_cons_of_mem r)
  · intro q b hq
    by_cases hqf : q = freelist
    · rw [hqf, Function.update_self] at hq
      cases hq
    · by_cases hqr : q = r
      · rw [hqr, Function.update_of_ne hne, Function.update_self] at hq
        cases hq
      · rw [update_freelist_ne hqr hqf] at hq
        exact ⟨(h.objects q b hq).1, hqf, by simp [Val.isnil]⟩
  · funext q
    unfold stored
    by_cases hqr : q = r
    · rw [hqr, Function.update_of_ne hne, Function.update_self, Function.update_self]
      rfl
    · by_cases hqf : q = freelist
      · rw [Function.update_of_ne hqr, hqf, Function.update_self, hk]
        rfl
      · rw [update_freelist_ne hqr hqf, Function.update_of_ne hqr]

/-- **A key that is on the list already** is put there a second time. -/
theorem unref_again {slot : ℤ → Val α} {r n : ℤ} (h : Wf slot) (hr : slot r = .int n) : luaL_unref slot r ≠ slot := by
  obtain ⟨k, l, hk, hchain, hnd, hints⟩ := h.chain
  have hpos : 0 ≤ r := by
    rcases hints r n hr with rfl | hmem
    · decide
    · exact (hchain.pos hmem).le
  intro heq
  rw [luaL_unref, if_pos hpos] at heq
  have hf : slot freelist = .int r := by
    have h1 := congrFun heq freelist
    rw [Function.update_self] at h1
    exact h1.symm
  have hkr : k = r := by
    rw [opened_of_not_nil (by rw [hf]; rfl), hf] at hk
    cases hk
    rfl
  subst hkr
  -- the head of the chain links to itself
  by_cases hrf : k = freelist
  · cases l with
    | nil =>
      have h0 : k = 0 := hchain
      rw [h0] at hrf
      exact absurd hrf (by decide)
    | cons p l =>
      obtain ⟨hp, -, hne, -⟩ := hchain
      exact hne (hp ▸ hrf)
  · have hself : slot k = .int k := by
      have h1 := congrFun heq k
      rw [Function.update_of_ne hrf, Function.update_self, hf] at h1
      exact h1.symm
    exact hchain.not_loop hnd ((hints k k hself).resolve_left hrf) hself

/-- the first access stores no object -/
theorem stored_opened (slot : ℤ → Val α) : stored (opened slot) = stored slot := by
  funext q
  unfold opened stored
  split_ifs with h
  · by_cases hq : q = freelist
    · rw [hq, Function.update_self]
      cases hf : slot freelist with
      | nil => rfl
      | int n => rfl
      | obj a =>
        rw [hf] at h
        cases h
    · rw [Function.update_of_ne hq]
  · rfl

theorem luaL_ref_empty {slot : ℤ → Val α} (a : α) (n : ℤ) (h : opened slot freelist = .int 0) :
    luaL_ref slot a n = (Function.update (opened slot) (n + 1) (.obj a), n + 1) := by
  simp [luaL_ref, h, Val.tointeger]

theorem luaL_ref_head {slot : ℤ → Val α} {r : ℤ} (a : α) (n : ℤ) (h : opened slot freelist = .int r) (hr : r ≠ 0) :
    luaL_ref slot a n = (Function.update (Function.update (opened slot) freelist (opened slot r)) r (.obj a), r) := by
  simp [luaL_ref, h, Val.tointeger, hr]

/-- a new key, behind a border -/
theorem new_spec {slot : ℤ → Val α} (h : Wf slot) (a : α) {n : ℤ} (hn : Border (opened slot) n)
    (hk : opened slot freelist = .int 0) (hints : ∀ r m, slot r = .int m → r = freelist) :
    Wf (Function.update (opened slot) (n + 1) (.obj a)) ∧ stored slot (n + 1) = none := by
  have hne : n + 1 ≠ freelist := by
    intro heq
    have hnil := hn.2.2
    rw [heq, hk] at hnil
    cases hnil
  have hfree : Function.update (opened slot) (n + 1) (.obj a) freelist = .int 0 := by
    rw [Function.update_of_ne (Ne.symm hne), hk]
  have hopen : (Function.update (opened slot) (n + 1) (.obj a) freelist).isnil = false := by
    rw [hfree]
    rfl
  refine ⟨⟨⟨0, [], ?_, rfl, List.nodup_nil, fun q m hq => .inl ?_⟩, fun q b hq => ?_⟩, ?_⟩
  · rw [opened_of_not_nil hopen, hfree]
  · by_contra hqf
    by_cases hqn : q = n + 1
    · rw [hqn, Function.update_self] at hq
      cases hq
    · rw [Function.update_of_ne hqn, opened_ne hqf] at hq
      exact hqf (hints q m hq)
  · by_cases hqn : q = n + 1
    · have hn0 := hn.1
      exact ⟨by omega, by rw [hqn]; exact hne, hopen⟩
    · rw [Function.update_of_ne hqn] at hq
      by_cases hqf : q = freelist
      · rw [hqf, hk] at hq
        cases hq
      · rw [opened_ne hqf] at hq
        exact ⟨(h.objects q b hq).1, hqf, hopen⟩
  · have hnil := hn.2.2
    rw [← stored_opened, stored]
    cases hv : opened slot (n + 1) with
    | nil => rfl
    | int m => rfl
    | obj b =>
      rw [hv] at hnil
      cases hnil

/-- the first key of the chain -/
theorem head_spec {slot : ℤ → Val α} {r h' : ℤ} {l : List ℤ} (h : Wf slot) (a : α) (hne : r ≠ freelist) (hpos : 0 < r)
    (hslot : slot r = .int h') (hrest : Chain slot h' l) (hnd : (r :: l).Nodup)
    (hints : ∀ q m, slot q = .int m → q = freelist ∨ q ∈ r :: l) :
    Wf (Function.update (Function.update (opened slot) freelist (opened slot r)) r (.obj a)) := by
  rw [opened_ne hne, hslot]
  set slot' := Function.update (Function.update (opened slot) freelist (.int h')) r (.obj a) with hslot'
  have hfree : slot' freelist = .int h' := by
    rw [hslot', Function.update_of_ne (Ne.symm hne), Function.update_self]
  have hopen : (slot' freelist).isnil = false := by
    rw [hfree]
    rfl
  have hother : ∀ q, q ≠ r → q ≠ freelist → slot' q = slot q := fun q hqr hqf => by
    rw [hslot', Function.update_of_ne hqr, Function.update_of_ne hqf, opened_ne hqf]
  rw [List.nodup_cons] at hnd
  refine ⟨⟨h', l, by rw [opened_of_not_nil hopen, hfree], hrest.congr fun q hq => ?_, hnd.2, fun q m hq => ?_⟩, fun q b hq => ?_⟩
  · exact hother q (fun heq => hnd.1 (heq ▸ hq)) (hrest.ne_freelist hq)
  · by_cases hqf : q = freelist
    · exact .inl hqf
    · by_cases hqr : q = r
      · rw [hslot', hqr, Function.update_self] at hq
        cases hq
      · rw [hother q hqr hqf] at hq
        exact .inr (List.mem_of_ne_of_mem hqr ((hints q m hq).resolve_left hqf))
  · by_cases hqr : q = r
    · exact ⟨hqr ▸ hpos, hqr ▸ hne, hopen⟩
    · by_cases hqf : q = freelist
      · rw [hqf, hfree] at hq
        cases hq
      · rw [hother q hqr hqf] at hq
        exact ⟨(h.objects q b hq).1, hqf, hopen⟩

/-- **A key is taken.** -/
theorem ref_spec {slot : ℤ → Val α} (h : Wf slot) (a : α) {n : ℤ} (hn : Border (opened slot) n) :
    Wf (luaL_ref slot a n).1 ∧ stored slot (luaL_ref slot a n).2 = none ∧
      stored (luaL_ref slot a n).1 = Function.update (stored slot) (luaL_ref slot a n).2 (some a) := by
  obtain ⟨k, l, hk, hchain, hnd, hints⟩ := h.chain
  cases l with
  | nil =>
    have h0 : k = 0 := hchain
    subst h0
    have hints' : ∀ r m, slot r = .int m → r = freelist := fun r m hr => (hints r m hr).resolve_right List.not_mem_nil
    obtain ⟨hwf, hnone⟩ := new_spec h a hn hk hints'
    rw [luaL_ref_empty a n hk]
    refine ⟨hwf, hnone, ?_⟩
    rw [← stored_opened slot]
    funext q
    dsimp only
    by_cases hq : q = n + 1
    · rw [hq, stored, Function.update_self, Function.update_self]
      rfl
    · rw [stored, Function.update_of_ne hq, Function.update_of_ne hq]
      rfl
  | cons r l =>
    obtain ⟨rfl, hpos, hne, h', hslot, hrest⟩ := hchain
    rw [luaL_ref_head a n hk hpos.ne']
    refine ⟨head_spec h a hne hpos hslot hrest hnd hints, by rw [stored, hslot]; rfl, ?_⟩
    rw [← stored_opened slot, opened_ne hne, hslot]
    funext q
    dsimp only
    by_cases hq : q = k
    · rw [hq, stored, Function.update_self, Function.update_self]
      rfl
    · rw [stored, Function.update_of_ne hq, Function.update_of_ne hq]
      by_cases hqf : q = freelist
      · rw [hqf, Function.update_self, stored, hk]
        rfl
      · rw [Function.update_of_ne hqf]
        rfl

end Shuttlesock.TableRefs
