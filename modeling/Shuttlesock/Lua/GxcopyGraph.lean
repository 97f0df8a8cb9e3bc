/-
A copied value is isomorphic to its source (`lua_utils.c`).

- `HeapReachable`: what can be reached from a value, through keys, values and metatables.
- `PlainAt`: the metatable of a table does not get in the way: it has no `__eq`, and reading a field of it that is not there does
  not raise.
- `Graph`: the values that are copied: finite, of tables and plain values, without loaded packages.
- `gxRules`: a table is copied key by key and value by value, and its metatable last.
- `Copied`: what copying some values does to the tables and the caches of the two states.

Results:
- `gxcopy_any_spec`: with a depth that covers the tables without a copy, a call copies its value as the rules say, and leaves both
  stacks as they were but for the copy on top.
- `session_spec`: the values of a session are related to their copies by one isomorphism, which includes the metatables.
- `gxcopy_isomorphic`: the same for a row of sessions, and the copies of different sessions are different tables.
-/
import Mathlib.Tactic
import Shuttlesock.Core.GraphCopy
import Shuttlesock.Lua.Gxcopy

namespace Shuttlesock.Gxcopy

open Shuttlesock.Lua Shuttlesock.GraphCopy

variable {T : Type*}

/-! ## The graphs -/

inductive HeapReachable (h : Heap T) (v : Value T) : Value T → Prop where
  | refl : HeapReachable h v v
  | key {t : T} {k w : Value T} : HeapReachable h v (.table t) → (k, w) ∈ h.entries t → HeapReachable h v k
  | value {t : T} {k w : Value T} : HeapReachable h v (.table t) → (k, w) ∈ h.entries t → HeapReachable h v w
  | metatable {t m : T} : HeapReachable h v (.table t) → h.metatable t = some m → HeapReachable h v (.table m)

/-- one-to-one between tables with the same entries and metatables -/
structure HeapIsomorphism {U : Type*} (h : Heap T) (tables : Tables U) (metatables : U → Option U) (R : T → U → Prop) : Prop
    extends Isomorphism h.entries tables R where
  metatable : ∀ t a, R t a → Option.Rel R (h.metatable t) (metatables a)

section
variable [DecidableEq T]

/-- the metatable of t does not get in the way -/
structure PlainAt (h : Heap T) (o : Outside T) (t : T) : Prop where
  no_eq : h.metafield t "__eq" = .nil
  getfield : ∀ m, h.metatable t = some m → ∃ w, h.getfield o "__gxcopy_metatable" maxtagloop (.table m) = some w ∧ w ≠ .function

/-- a finite graph of values other than functions, userdata and threads, with plain metatables and no loaded packages -/
structure Graph (h : Heap T) (o : Outside T) (v : Value T) : Prop where
  finite : {t | HeapReachable h v (.table t)}.Finite
  sendable : ∀ w, HeapReachable h v w → w.sendable = true
  plain : ∀ t, HeapReachable h v (.table t) → PlainAt h o t
  no_package : ∀ t, HeapReachable h v (.table t) → t ≠ o.globals ∧ o.loaded (.table t) = false
  globals : h.metafield o.globals "__eq" = .nil

end

/-! ## The rules -/

/-- a metatable as a field -/
def metaField {U : Type*} : Option U → Value U
  | none => .nil
  | some m => .table m

def gxRules (h : Heap T) : Rules T ℕ (Value T) (Value ℕ) where
  ref := Value.tableRef
  succ := fun t => keyFirst (h.entries t) ++ [metaField (h.metatable t)]
  leaf := Same fun _ _ => False
  point := .table

theorem match_same {h : Heap T} {R : T → ℕ → Prop} {v : Value T} {w : Value ℕ} (hm : (gxRules h).Match R v w) : Same R v w := by
  cases v with
  | table t =>
    obtain ⟨a, ha, rfl⟩ := hm
    exact ha
  | _ => cases w <;> exact hm

/-- the copy of a table in the caches of both states -/
def Memory.cached (s : Memory T) (t : T) : Option ℕ :=
  (s.copies (.table t)).bind fun index => (s.refs[index - 1]?).bind Value.tableRef

/-- the copies are the tables from c on, each the copy of one table -/
structure Numbered (c : ℕ) (s : Memory T) : Prop where
  stored : ∀ t index, s.copies (.table t) = some index → 1 ≤ index ∧ index ≤ s.refs.length ∧ s.cached t ≠ none
  inj : ∀ t t' a, s.cached t = some a → s.cached t' = some a → t = t'
  range : ∀ t a, s.cached t = some a → c ≤ a ∧ a < s.count
  onto : ∀ a, c ≤ a → a < s.count → ∃ t, s.cached t = some a

/-- a table of the destination as its fields were copied -/
def Built (s : Memory T) (m : Memo T ℕ (Value ℕ)) (a : ℕ) : Prop :=
  ∃ ps, m.out a = keyFirst ps ++ [metaField (s.metatables a)] ∧ s.tables a = storeAll [] ps

variable [DecidableEq T]

/-- what copying the values vs does; `own` are the tables that are written to, other than the new ones -/
structure Copied (h : Heap T) (c : ℕ) (own : ℕ → Prop) (s : Memory T) (m : Memo T ℕ (Value ℕ)) (vs : List (Value T))
    (s' : Memory T) (m' : Memo T ℕ (Value ℕ)) (ws : List (Value ℕ)) : Prop where
  copies : Copies (gxRules h) m vs m' ws
  memo : m'.copied = s'.cached
  numbered : Numbered c s'
  in_progress : s'.in_progress = s.in_progress
  count : s.count ≤ s'.count
  frame : ∀ a < s.count, ¬ own a → s'.tables a = s.tables a ∧ s'.metatables a = s.metatables a
  built : ∀ a, s.count ≤ a → a < s'.count → Built s' m' a

omit [DecidableEq T] in
theorem Numbered.memo_inj {c : ℕ} {s : Memory T} (hs : Numbered c s) {m : Memo T ℕ (Value ℕ)} (hm : m.copied = s.cached) :
    m.Inj := by
  intro t t' a ha ha'
  unfold Memo.Rel at ha ha'
  rw [hm] at ha ha'
  exact hs.inj t t' a ha ha'

/-- a value that needs no new table -/
theorem Copied.refl (h : Heap T) {c : ℕ} {s : Memory T} (hs : Numbered c s) {m : Memo T ℕ (Value ℕ)} (hm : m.copied = s.cached)
    {vs : List (Value T)} {ws : List (Value ℕ)} (hc : Copies (gxRules h) m vs m ws) (own : ℕ → Prop) :
    Copied h c own s m vs s m ws where
  copies := hc
  memo := hm
  numbered := hs
  in_progress := rfl
  count := le_refl _
  frame := fun _ _ _ => ⟨rfl, rfl⟩
  built := fun _ h1 h2 => absurd h2 (Nat.not_lt.2 h1)

variable {h : Heap T} {c : ℕ} {own : ℕ → Prop}

theorem Copied.widen {s s' : Memory T} {m m' : Memo T ℕ (Value ℕ)} {vs : List (Value T)} {ws : List (Value ℕ)}
    (hc : Copied h c (fun _ => False) s m vs s' m' ws) (own : ℕ → Prop) : Copied h c own s m vs s' m' ws :=
  { hc with frame := fun a ha _ => hc.frame a ha id }

/-- what was copied before stays as it is -/
theorem Copied.keep {s s' : Memory T} {m m' : Memo T ℕ (Value ℕ)} {vs : List (Value T)} {ws : List (Value ℕ)}
    (hc : Copied h c own s m vs s' m' ws) (hs : Numbered c s) (hm : m.copied = s.cached) {a : ℕ} (hca : c ≤ a)
    (ha : a < s.count) : m'.out a = m.out a := by
  obtain ⟨t, ht⟩ := hs.onto a hca ha
  refine ((hc.copies.spec (hs.memo_inj hm)).keep t a ?_).2
  unfold Memo.Rel
  rw [hm]
  exact ht

theorem Copied.todo {s s' : Memory T} {m m' : Memo T ℕ (Value ℕ)} {vs : List (Value T)} {ws : List (Value ℕ)}
    (hc : Copied h c own s m vs s' m' ws) (hs : Numbered c s) (hm : m.copied = s.cached) (P : Finset T) :
    (GraphCopy.todo P s'.cached).card ≤ (GraphCopy.todo P s.cached).card := by
  rw [← hc.memo, ← hm]
  exact todo_mono fun n a ha => ((hc.copies.spec (hs.memo_inj hm)).keep n a ha).1

theorem Copied.trans {s s₁ s₂ : Memory T} {m m₁ m₂ : Memo T ℕ (Value ℕ)} {vs us : List (Value T)} {ws xs : List (Value ℕ)}
    (h1 : Copied h c own s m vs s₁ m₁ ws) (h2 : Copied h c own s₁ m₁ us s₂ m₂ xs) (hown : ∀ a, own a → a < s.count)
    (hc : c ≤ s.count) : Copied h c own s m (vs ++ us) s₂ m₂ (ws ++ xs) where
  copies := h1.copies.append h2.copies
  memo := h2.memo
  numbered := h2.numbered
  in_progress := h2.in_progress.trans h1.in_progress
  count := le_trans h1.count h2.count
  frame := by
    intro a ha hnot
    obtain ⟨htables, hmetatables⟩ := h2.frame a (lt_of_lt_of_le ha h1.count) hnot
    obtain ⟨htables₁, hmetatables₁⟩ := h1.frame a ha hnot
    exact ⟨htables.trans htables₁, hmetatables.trans hmetatables₁⟩
  built := by
    intro a hlow hhigh
    by_cases ha : a < s₁.count
    · obtain ⟨ps, hout, hps⟩ := h1.built a hlow ha
      obtain ⟨htables, hmetatables⟩ := h2.frame a ha fun ho => absurd (hown a ho) (Nat.not_lt.2 hlow)
      refine ⟨ps, ?_, htables.trans hps⟩
      rw [h2.keep h1.numbered h1.memo (hc.trans hlow) ha, hout, hmetatables]
    · exact h2.built a (Nat.not_lt.1 ha) hhigh

/-- only tables of our own are written to -/
theorem Copied.write {s s' : Memory T} {m : Memo T ℕ (Value ℕ)} (hs : Numbered c s) (hm : m.copied = s.cached)
    (hsame : s'.copies = s.copies ∧ s'.refs = s.refs ∧ s'.count = s.count ∧ s'.in_progress = s.in_progress)
    (hframe : ∀ a, ¬ own a → s'.tables a = s.tables a ∧ s'.metatables a = s.metatables a) :
    Copied h c own s m [] s' m [] := by
  obtain ⟨hcopies, hrefs, hcount, hprogress⟩ := hsame
  have hcached : s'.cached = s.cached := by
    unfold Memory.cached
    rw [hcopies, hrefs]
  refine ⟨.nil m, hm.trans hcached.symm, ⟨?_, ?_, ?_, ?_⟩, hprogress, hcount.ge, fun a _ hnot => hframe a hnot, ?_⟩
  · intro t index hindex
    rw [hcopies] at hindex
    rw [hrefs, hcached]
    exact hs.stored t index hindex
  · rw [hcached]
    exact hs.inj
  · rw [hcached, hcount]
    exact hs.range
  · rw [hcached, hcount]
    exact hs.onto
  · intro a h1 h2
    rw [hcount] at h2
    exact absurd h2 (Nat.not_lt.2 h1)

/-! ## One call -/

/-- a value that can be copied, and a table of P -/
structure Ready (P : Finset T) (v : Value T) : Prop where
  sendable : v.sendable = true
  mem : ∀ t, v.tableRef = some t → t ∈ P

/-- P is a graph -/
structure Domain (h : Heap T) (o : Outside T) (P : Finset T) : Prop where
  plain : ∀ t ∈ P, PlainAt h o t
  no_package : ∀ t ∈ P, t ≠ o.globals ∧ o.loaded (.table t) = false
  fields : ∀ t ∈ P, ∀ v ∈ keyFirst (h.entries t) ++ [metaField (h.metatable t)], Ready P v
  globals : ∀ t ∈ P, h.metafield o.globals "__eq" = .nil

/-- what `gxcopy_any` does when less than n tables have no copy yet -/
def CopiesOne (h : Heap T) (c : ℕ) (P : Finset T) (n : ℕ) (any : State T → Res (State T)) : Prop :=
  ∀ (v : Value T) (ls : List (Value T)) (s : State T) (m : Memo T ℕ (Value ℕ)), s.ls = v :: ls → m.copied = s.cached →
    Numbered c s.toMemory → c ≤ s.count → Ready P v → (GraphCopy.todo P s.cached).card < n →
    ∃ w s' m', any s = .ok s' ∧ s'.ls = s.ls ∧ s'.ld = w :: s.ld ∧ Copied h c (fun _ => False) s.toMemory m [v] s'.toMemory m' [w]

omit [DecidableEq T] in
theorem rawset_ld_eq {s : State T} {v k : Value ℕ} {a : ℕ} {ld : List (Value ℕ)} (hld : s.ld = v :: k :: .table a :: ld) :
    s.rawset_ld = .ok { s with ld := .table a :: ld, tables := Function.update s.tables a (rawset (s.tables a) k v) } := by
  unfold State.rawset_ld
  rw [hld]

omit [DecidableEq T] in
theorem setmetatable_ld_eq {s : State T} {m a : ℕ} {ld : List (Value ℕ)} (hld : s.ld = .table m :: .table a :: ld) :
    s.setmetatable_ld = .ok { s with ld := .table a :: ld, metatables := Function.update s.metatables a (some m) } := by
  unfold State.setmetatable_ld
  rw [hld]

/-- **The loop over a table** -/
theorem gxcopy_entries_spec {P : Finset T} {n : ℕ} {any : State T → Res (State T)} (hany : CopiesOne h c P n any) {a : ℕ}
    (es : List (Value T × Value T)) {s : State T} {m : Memo T ℕ (Value ℕ)} {ld : List (Value ℕ)} (hld : s.ld = .table a :: ld)
    (hm : m.copied = s.cached) (hs : Numbered c s.toMemory) (hc : c ≤ s.count) (ha : a < s.count)
    (hes : ∀ v ∈ keyFirst es, Ready P v) (hn : (GraphCopy.todo P s.cached).card < n) :
    ∃ s' m' ps, gxcopy_entries any es s = .ok s' ∧ s'.ls = s.ls ∧ s'.ld = s.ld ∧
      Copied h c (· = a) s.toMemory m (keyFirst es) s'.toMemory m' (keyFirst ps) ∧
      s'.tables a = storeAll (s.tables a) ps ∧ s'.metatables a = s.metatables a := by
  induction es generalizing s m with
  | nil => exact ⟨s, m, [], rfl, rfl, rfl, .refl h hs hm (.nil m) _, rfl, rfl⟩
  | cons e es ih =>
    obtain ⟨k, v⟩ := e
    rw [keyFirst_cons] at hes
    have hown : ∀ b, b = a → b < s.count := fun b hb => hb ▸ ha
    obtain ⟨k', s₁, m₁, hk, hls₁, hld₁, hkc⟩ := hany k (v :: k :: s.ls) (((s.push_ls k).push_ls v).push_ls k) m rfl hm hs hc
      (hes k List.mem_cons_self) hn
    have hc₁ : c ≤ s₁.count := hc.trans hkc.count
    have hn₁ := lt_of_le_of_lt (hkc.todo hs hm P) hn
    have hls₁' : (s₁.pop_ls 1).ls = v :: k :: s.ls := by
      show s₁.ls.drop 1 = _
      rw [hls₁]
      rfl
    obtain ⟨v', s₂, m₂, hv, hls₂, hld₂, hvc⟩ := hany v (k :: s.ls) (s₁.pop_ls 1) m₁ hls₁' hkc.memo hkc.numbered hc₁
      (hes v (List.mem_cons_of_mem _ List.mem_cons_self)) hn₁
    have hn₂ := lt_of_le_of_lt (hvc.todo hkc.numbered hkc.memo P) hn₁
    have hkv := (hkc.widen (· = a)).trans (hvc.widen (· = a)) hown hc
    have hld₂' : (s₂.pop_ls 1).ld = v' :: k' :: .table a :: ld := by
      show s₂.ld = _
      rw [hld₂]
      show v' :: s₁.ld = _
      rw [hld₁]
      show v' :: k' :: s.ld = _
      rw [hld]
    have hset := rawset_ld_eq hld₂'
    set s₃ : State T := { s₂.pop_ls 1 with
      ld := .table a :: ld, tables := Function.update s₂.tables a (rawset (s₂.tables a) k' v') } with hs₃
    have hwrite : Copied h c (· = a) s₂.toMemory m₂ [] s₃.toMemory m₂ [] :=
      .write hvc.numbered hvc.memo ⟨rfl, rfl, rfl, rfl⟩ fun b hb => ⟨Function.update_of_ne hb _ _, rfl⟩
    have hkvw := hkv.trans hwrite hown hc
    obtain ⟨htables₂, hmetatables₂⟩ := (hkc.trans hvc (fun _ => False.elim) hc).frame a ha id
    obtain ⟨s', m', ps, hrest, hls', hld', hrc, hself, hmeta⟩ := ih (s := s₃.pop_ls 1) (m := m₂) rfl hkvw.memo hkvw.numbered
      (hc.trans hkvw.count) (lt_of_lt_of_le ha hkvw.count)
      (fun x hx => hes x (List.mem_cons_of_mem _ (List.mem_cons_of_mem _ hx))) hn₂
    refine ⟨s', m', (k', v') :: ps, ?_, ?_, hld'.trans hld.symm, hkvw.trans hrc hown hc, ?_, hmeta.trans hmetatables₂⟩
    · rw [gxcopy_entries, hk]
      show (any (s₁.pop_ls 1)).bind _ = _
      rw [hv]
      show (s₂.pop_ls 1).rawset_ld.bind _ = _
      rw [hset]
      exact hrest
    · rw [hls']
      show (s₂.ls.drop 1).drop 1 = _
      rw [hls₂, hls₁']
      rfl
    · rw [hself]
      show storeAll (Function.update s₂.tables a (rawset (s₂.tables a) k' v') a) ps = _
      rw [Function.update_self, htables₂]
      rfl

/-- the metatable, behind the entries -/
theorem gxcopy_metatable_spec {o : Outside T} {P : Finset T} (hd : Domain h o P) {n : ℕ} {any : State T → Res (State T)}
    (hany : CopiesOne h c P n any) {t : T} (ht : t ∈ P) {a : ℕ} {s : State T} {m : Memo T ℕ (Value ℕ)} {ld : List (Value ℕ)}
    (hld : s.ld = .table a :: ld) (hm : m.copied = s.cached) (hs : Numbered c s.toMemory) (hc : c ≤ s.count) (ha : a < s.count)
    (hnone : s.metatables a = none) (hn : (GraphCopy.todo P s.cached).card < n) :
    ∃ s' m', gxcopy_metatable h o any t s = .ok s' ∧ s'.ls = s.ls ∧ s'.ld = s.ld ∧
      Copied h c (· = a) s.toMemory m [metaField (h.metatable t)] s'.toMemory m' [metaField (s'.metatables a)] ∧
      s'.tables a = s.tables a := by
  unfold gxcopy_metatable
  cases hmt : h.metatable t with
  | none =>
    refine ⟨s, m, rfl, rfl, rfl, .refl h hs hm ?_ _, rfl⟩
    rw [hnone]
    exact .leaf rfl trivial (.nil m)
  | some mt =>
    obtain ⟨x, hx, hxf⟩ := (hd.plain t ht).getfield mt hmt
    have hready : Ready P (.table mt) := by
      apply hd.fields t ht
      rw [hmt]
      exact List.mem_append_right _ List.mem_cons_self
    have hloaded : o.loaded (.table mt) = false := (hd.no_package mt (hready.mem mt rfl)).2
    obtain ⟨w, s₁, m₁, hrun, hls₁, hld₁, hcopied⟩ := hany (.table mt) s.ls (s.push_ls (.table mt)) m rfl hm hs hc hready hn
    -- the copy of a table is a table
    obtain ⟨b, -, rfl⟩ : ∃ b, m₁.Rel mt b ∧ w = .table b :=
      (List.forall₂_cons.1 (hcopied.copies.spec (hs.memo_inj hm)).fields).1
    have hset := setmetatable_ld_eq (show (s₁.pop_ls 1).ld = .table b :: .table a :: ld by
      show s₁.ld = _
      rw [hld₁]
      show .table b :: s.ld = _
      rw [hld])
    set s₂ : State T := { s₁.pop_ls 1 with
      ld := .table a :: ld, metatables := Function.update s₁.metatables a (some b) } with hs₂
    have hwrite : Copied h c (· = a) s₁.toMemory m₁ [] s₂.toMemory m₁ [] :=
      .write hcopied.numbered hcopied.memo ⟨rfl, rfl, rfl, rfl⟩ fun x hne => ⟨rfl, Function.update_of_ne hne _ _⟩
    have hmeta : s₂.metatables a = some b := Function.update_self _ _ _
    refine ⟨s₂, m₁, ?_, ?_, hld.symm, ?_, (hcopied.frame a ha id).1⟩
    · simp only [hloaded, Bool.false_eq_true, if_false, hx]
      cases x with
      | function => exact absurd rfl hxf
      | _ =>
        show (any (s.push_ls (.table mt))).bind _ = _
        rw [hrun]
        exact hset
    · show s₁.ls.drop 1 = s.ls
      rw [hls₁]
      rfl
    · rw [hmeta]
      exact (hcopied.widen (· = a)).trans hwrite (fun x hx => hx ▸ ha) hc

theorem opeq_globals {o : Outside T} {P : Finset T} (hd : Domain h o P) {t : T} (ht : t ∈ P) :
    h.opeq o o.globals t = some false := by
  unfold Heap.opeq
  rw [if_neg (hd.no_package t ht).1.symm, if_pos (hd.globals t ht), (hd.plain t ht).no_eq]

/-- the caches with a new table -/
theorem cached_store {s : State T} (hs : Numbered c s.toMemory) (t : T) :
    (s.newtable.cache_store (.table t)).cached = Function.update s.cached t (some s.count) := by
  funext t'
  unfold Memory.cached
  by_cases htt : t' = t
  · subst htt
    rw [Function.update_self]
    show (Function.update s.copies (.table t') (some (s.refs.length + 1)) (.table t')).bind _ = _
    rw [Function.update_self]
    show ((s.refs ++ [Value.table s.count])[s.refs.length + 1 - 1]?).bind Value.tableRef = _
    rw [Nat.add_sub_cancel, List.getElem?_concat_length]
    rfl
  · have hne : Value.table t' ≠ Value.table t := fun heq => htt (Value.table.inj heq)
    rw [Function.update_of_ne htt]
    show (Function.update s.copies (.table t) (some (s.refs.length + 1)) (.table t')).bind
      (fun index => ((s.refs ++ [Value.table s.count])[index - 1]?).bind Value.tableRef) = _
    rw [Function.update_of_ne hne]
    cases hcopy : s.copies (.table t') with
    | none => rfl
    | some index =>
      obtain ⟨hpos, hle, -⟩ := hs.stored t' index hcopy
      show ((s.refs ++ [Value.table s.count])[index - 1]?).bind Value.tableRef = ((s.refs[index - 1]?).bind Value.tableRef)
      rw [List.getElem?_append_left (by omega)]

theorem Numbered.store {s : State T} (hs : Numbered c s.toMemory) (hc : c ≤ s.count) {t : T} (ht : s.cached t = none) :
    Numbered c (s.newtable.cache_store (.table t)).toMemory := by
  have hcached := cached_store hs t
  refine ⟨?_, ?_, ?_, ?_⟩
  · intro t' index hindex
    show 1 ≤ index ∧ index ≤ (s.refs ++ [Value.table s.count]).length ∧ _
    rw [hcached, List.length_append, List.length_singleton]
    by_cases htt : t' = t
    · subst htt
      change Function.update s.copies (.table t') (some (s.refs.length + 1)) (.table t') = some index at hindex
      rw [Function.update_self] at hindex
      rw [Function.update_self, ← Option.some.inj hindex]
      exact ⟨Nat.succ_pos _, le_rfl, Option.some_ne_none _⟩
    · have hne : Value.table t' ≠ Value.table t := fun heq => htt (Value.table.inj heq)
      change Function.update s.copies (.table t) (some (s.refs.length + 1)) (.table t') = some index at hindex
      rw [Function.update_of_ne hne] at hindex
      rw [Function.update_of_ne htt]
      obtain ⟨hpos, hle, hsome⟩ := hs.stored t' index hindex
      exact ⟨hpos, Nat.le_succ_of_le hle, hsome⟩
  · rw [hcached]
    have hinj : (⟨s.cached, fun _ => []⟩ : Memo T ℕ (Value ℕ)).Inj := hs.memo_inj rfl
    intro t₁ t₂ a h1 h2
    exact hinj.enter ht (fun t' ht' => absurd (hs.range t' _ ht').2 (lt_irrefl _)) t₁ t₂ a h1 h2
  · intro t' a ha
    rw [hcached] at ha
    show c ≤ a ∧ a < s.count + 1
    by_cases htt : t' = t
    · rw [htt, Function.update_self] at ha
      rw [← Option.some.inj ha]
      exact ⟨hc, Nat.lt_succ_self _⟩
    · rw [Function.update_of_ne htt] at ha
      obtain ⟨hlow, hhigh⟩ := hs.range t' a ha
      exact ⟨hlow, Nat.lt_succ_of_lt hhigh⟩
  · intro a hlow hhigh
    rw [hcached]
    rcases Nat.lt_succ_iff_lt_or_eq.1 hhigh with hlt | rfl
    · obtain ⟨t', ht'⟩ := hs.onto a hlow hlt
      have hne : t' ≠ t := by
        intro heq
        rw [heq, ht] at ht'
        cases ht'
      exact ⟨t', (Function.update_of_ne hne _ _).trans ht'⟩
    · exact ⟨t, Function.update_self _ _ _⟩

/-- **A table** that has a copy, or gets one -/
theorem gxcopy_table_spec {o : Outside T} {P : Finset T} (hd : Domain h o P) {n : ℕ} {any : State T → Res (State T)}
    (hany : CopiesOne h c P n any) {t : T} (ht : t ∈ P) {s : State T} {m : Memo T ℕ (Value ℕ)} (hm : m.copied = s.cached)
    (hs : Numbered c s.toMemory) (hc : c ≤ s.count) (hn : (GraphCopy.todo P s.cached).card < n + 1) :
    ∃ w s' m', gxcopy_table h o any t s = .ok s' ∧ s'.ls = s.ls ∧ s'.ld = w :: s.ld ∧
      Copied h c (fun _ => False) s.toMemory m [.table t] s'.toMemory m' [w] := by
  unfold gxcopy_table
  simp only [opeq_globals hd ht, (hd.no_package t ht).2, Bool.false_eq_true, if_false]
  cases hcopy : s.copies (.table t) with
  | some index =>
    obtain ⟨-, -, hsome⟩ := hs.stored t index hcopy
    obtain ⟨a, ha⟩ := Option.ne_none_iff_exists'.1 hsome
    have href : s.refs[index - 1]? = some (.table a) := by
      unfold Memory.cached at ha
      rw [hcopy] at ha
      change (s.refs[index - 1]?).bind Value.tableRef = some a at ha
      obtain ⟨w, hw, hwa⟩ := Option.bind_eq_some_iff.1 ha
      cases w with
      | table b =>
        cases hwa
        exact hw
      | _ => cases hwa
    have hload : s.cache_load (.table t) = some (s.push_ld (.table a)) := by
      unfold State.cache_load
      simp only [hcopy, href, Option.getD_some]
    rw [hload]
    refine ⟨.table a, _, m, rfl, rfl, rfl, .refl h hs hm (.seen rfl ?_ (.nil m)) _⟩
    unfold Memo.Rel
    rw [hm]
    exact ha
  | none =>
    have hnone : s.cached t = none := by
      unfold Memory.cached
      rw [hcopy]
      rfl
    have hma : m.copied t = none := by rw [hm, hnone]
    have hfresh : ∀ t', ¬ m.Rel t' s.count := by
      intro t' ht'
      unfold Memo.Rel at ht'
      rw [hm] at ht'
      exact absurd (hs.range t' _ ht').2 (lt_irrefl _)
    set s₁ : State T := s.newtable.cache_store (.table t) with hs₁
    have hcached : s₁.cached = Function.update s.cached t (some s.count) := cached_store hs t
    have henter : (m.enter t s.count).copied = s₁.cached := by
      rw [hcached, ← hm]
      rfl
    have hnum : Numbered c s₁.toMemory := hs.store hc hnone
    have hc₁ : c ≤ s₁.count := Nat.le_succ_of_le hc
    have hlt : s.count < s₁.count := Nat.lt_succ_self _
    have hown : ∀ a, a = s.count → a < s₁.count := fun a ha => ha ▸ hlt
    have hn₁ : (GraphCopy.todo P s₁.cached).card < n := by
      rw [hcached]
      exact lt_of_lt_of_le (todo_enter ht hnone) (Nat.le_of_lt_succ hn)
    obtain ⟨s₂, m₂, ps, hloop, hls₂, hld₂, hentries, hself, hmeta⟩ := gxcopy_entries_spec hany (h.entries t) (s := s₁)
      (show s₁.ld = .table s.count :: s.ld from rfl) henter hnum hc₁ hlt
      (fun v hv => hd.fields t ht v (List.mem_append_left _ hv)) hn₁
    have hnone₂ : s₂.metatables s.count = none := hmeta.trans (Function.update_self _ _ _)
    obtain ⟨s₃, m₃, hmetatable, hls₃, hld₃, hlast, htables⟩ := gxcopy_metatable_spec hd hany ht (hld₂.trans rfl) hentries.memo
      hentries.numbered (hc₁.trans hentries.count) (lt_of_lt_of_le hlt hentries.count) hnone₂
      (lt_of_le_of_lt (hentries.todo hnum henter P) hn₁)
    have hall := hentries.trans hlast hown hc₁
    have hload : s.cache_load (.table t) = none := by
      unfold State.cache_load
      simp only [hcopy]
    refine ⟨.table s.count, s₃, m₃.leave s.count (keyFirst ps ++ [metaField (s₃.metatables s.count)]), ?_, hls₃.trans hls₂,
      hld₃.trans hld₂, ⟨?_, hall.memo, hall.numbered, hall.in_progress, hlt.le.trans hall.count, ?_, ?_⟩⟩
    · rw [hload]
      show (gxcopy_entries any (h.entries t) s₁).bind _ = _
      rw [hloop]
      exact hmetatable
    · exact .new rfl hma hfresh hall.copies (.nil _)
    · intro a ha _
      have hne : a ≠ s.count := Nat.ne_of_lt ha
      obtain ⟨ht₃, hmt₃⟩ := hall.frame a (ha.trans hlt) hne
      exact ⟨ht₃.trans (Function.update_of_ne hne _ _), hmt₃.trans (Function.update_of_ne hne _ _)⟩
    · intro a hlow hhigh
      by_cases ha : a = s.count
      · subst ha
        refine ⟨ps, Function.update_self _ _ _, ?_⟩
        rw [htables, hself]
        show storeAll (Function.update s.tables s.count [] s.count) ps = _
        rw [Function.update_self]
      · obtain ⟨qs, hout, hqs⟩ := hall.built a (lt_of_le_of_ne hlow (Ne.symm ha)) hhigh
        exact ⟨qs, (Function.update_of_ne ha _ _).trans hout, hqs⟩

/-- **What `gxcopy_any` does.** -/
theorem gxcopy_any_spec {o : Outside T} {P : Finset T} (hd : Domain h o P) (fuel : ℕ) :
    CopiesOne h c P fuel (gxcopy_any h o fuel) := by
  induction fuel with
  | zero => exact fun v ls s m hls hm hs hc hv hn => absurd hn (Nat.not_lt_zero _)
  | succ n ih =>
    intro v ls s m hls hm hs hc hv hn
    have hone : ∃ w s' m', gxcopy_type h o (gxcopy_any h o n) v s = .ok s' ∧ s'.ls = s.ls ∧ s'.ld = w :: s.ld ∧
        Copied h c (fun _ => False) s.toMemory m [v] s'.toMemory m' [w] := by
      have hleaf : ∀ w, v.tableRef = none → Same (fun _ _ => False) v w →
          Copied h c (fun _ => False) s.toMemory m [v] s.toMemory m [w] :=
        fun w href hw => .refl h hs hm (.leaf href hw (.nil m)) _
      cases v with
      | nil => exact ⟨.nil, s.push_ld .nil, m, rfl, rfl, rfl, hleaf _ rfl trivial⟩
      | boolean b => exact ⟨.boolean b, s.push_ld (.boolean b), m, rfl, rfl, rfl, hleaf _ rfl rfl⟩
      | lightuserdata p => exact ⟨.lightuserdata p, s.push_ld (.lightuserdata p), m, rfl, rfl, rfl, hleaf _ rfl rfl⟩
      | integer i => exact ⟨.integer i, s.push_ld (.integer i), m, rfl, rfl, rfl, hleaf _ rfl rfl⟩
      | number x => exact ⟨.number x, s.push_ld (.number x), m, rfl, rfl, rfl, hleaf _ rfl rfl⟩
      | string bytes => exact ⟨.string bytes, s.push_ld (.string bytes), m, rfl, rfl, rfl, hleaf _ rfl rfl⟩
      | table t => exact gxcopy_table_spec hd ih (hv.mem t rfl) hm hs hc hn
      | function => exact absurd hv.sendable Bool.false_ne_true
      | userdata => exact absurd hv.sendable Bool.false_ne_true
      | thread => exact absurd hv.sendable Bool.false_ne_true
    obtain ⟨w, s', m', hrun, hls', hld', hcopied⟩ := hone
    refine ⟨w, s', m', ?_, hls', hld', hcopied⟩
    rw [gxcopy_any, hls]
    show (gxcopy_type h o (gxcopy_any h o n) v s).bind _ = _
    rw [hrun]
    show (if s'.ld.length = s.ld.length + 1 then _ else _) = _
    rw [hld', if_pos (List.length_cons)]

/-! ## Sessions -/

/-- one value after the other, in a session -/
theorem copy_all_spec {o : Outside T} {P : Finset T} (hd : Domain h o P) {fuel : ℕ} (vs : List (Value T)) {s : State T}
    {m : Memo T ℕ (Value ℕ)} (hp : s.in_progress = true) (hm : m.copied = s.cached) (hs : Numbered c s.toMemory)
    (hc : c ≤ s.count) (hvs : ∀ v ∈ vs, Ready P v) (hn : (GraphCopy.todo P s.cached).card < fuel) :
    ∃ ws s' m', copy_all h o fuel vs s = .ok s' ∧ s'.ls = s.ls ∧ s'.ld = ws.reverse ++ s.ld ∧
      Copied h c (fun _ => False) s.toMemory m vs s'.toMemory m' ws := by
  induction vs generalizing s m with
  | nil => exact ⟨[], s, m, rfl, rfl, rfl, .refl h hs hm (.nil m) _⟩
  | cons v vs ih =>
    obtain ⟨w, s₁, m₁, hrun, hls₁, hld₁, hcopied⟩ := gxcopy_any_spec hd fuel v s.ls (s.push_ls v) m rfl hm hs hc
      (hvs v List.mem_cons_self) hn
    obtain ⟨ws, s', m', hrest, hls', hld', hall⟩ := ih (s := s₁.pop_ls 1) (m := m₁) (hcopied.in_progress.trans hp) hcopied.memo
      hcopied.numbered (hc.trans hcopied.count) (fun x hx => hvs x (List.mem_cons_of_mem v hx))
      (lt_of_le_of_lt (hcopied.todo hs hm P) hn)
    refine ⟨w :: ws, s', m', ?_, ?_, ?_, hcopied.trans hall (fun _ => False.elim) hc⟩
    · unfold copy_all luaS_gxcopy
      rw [if_pos (show (s.push_ls v).in_progress = true from hp), hrun]
      exact hrest
    · rw [hls']
      show s₁.ls.drop 1 = s.ls
      rw [hls₁]
      rfl
    · calc s'.ld
        _ = ws.reverse ++ s₁.ld := hld'
        _ = ws.reverse ++ (w :: s.ld) := by rw [hld₁]; rfl
        _ = (w :: ws).reverse ++ s.ld := by rw [List.reverse_cons, List.append_assoc, List.singleton_append]

omit [DecidableEq T] in
theorem metaField_rel {R : T → ℕ → Prop} {x : Option T} {y : Option ℕ} (hs : Same R (metaField x) (metaField y)) :
    Option.Rel R x y := by
  cases x with
  | none =>
    cases y with
    | none => exact .none
    | some b => exact hs.elim
  | some t =>
    cases y with
    | none => exact hs.elim
    | some b => exact .some hs

omit [DecidableEq T] in
/-- the entries and the metatable of a table, from its fields -/
theorem fields_split {R : T → ℕ → Prop} {t : T} {ps : List (Value ℕ × Value ℕ)} {y : Option ℕ}
    (hf : List.Forall₂ (Same R) (keyFirst (h.entries t) ++ [metaField (h.metatable t)]) (keyFirst ps ++ [metaField y])) :
    List.Forall₂ (fun e e' => Same R e.1 e'.1 ∧ Same R e.2 e'.2) (h.entries t) ps ∧ Option.Rel R (h.metatable t) y := by
  have hlength : (keyFirst ps).length = (keyFirst (h.entries t)).length := by
    have hall := hf.length_eq
    rw [List.length_append, List.length_append] at hall
    exact (Nat.add_right_cancel hall).symm
  have hentries := List.forall₂_take (keyFirst (h.entries t)).length hf
  rw [List.take_left, List.take_left' hlength] at hentries
  have hlast := List.forall₂_drop (keyFirst (h.entries t)).length hf
  rw [List.drop_left, List.drop_left' hlength] at hlast
  obtain ⟨qs, hqs, hsame⟩ := exists_keyFirst hentries
  have heq : ps = qs := by
    calc ps
      _ = pairs (keyFirst ps) := (pairs_keyFirst ps).symm
      _ = pairs (keyFirst qs) := by rw [hqs]
      _ = qs := pairs_keyFirst qs
  rw [heq]
  exact ⟨hsame, metaField_rel (List.forall₂_cons.1 hlast).1⟩

omit [DecidableEq T] in
/-- stored one after the other, the copied entries are all there -/
theorem stored_entries {R : T → ℕ → Prop} (hf : ∀ t a b, R t a → R t b → a = b) (hi : ∀ t t' a, R t a → R t' a → t = t') {t : T}
    {ps : List (Value ℕ × Value ℕ)}
    (hs : List.Forall₂ (fun e e' => Same R e.1 e'.1 ∧ Same R e.2 e'.2) (h.entries t) ps) : storeAll [] ps = ps := by
  have hkeys : (ps.map Prod.fst).Nodup := by
    have hmap : List.Forall₂ (Same R) ((h.entries t).map Prod.fst) (ps.map Prod.fst) :=
      List.forall₂_map_left_iff.2 (List.forall₂_map_right_iff.2 (hs.imp fun _ _ he => he.1))
    exact (List.rel_nodup (same_biUnique hf hi) hmap).1 (h.wf.keys t)
  have hvals : ∀ e' ∈ ps, e'.2 ≠ .nil := by
    intro e' he' hnil
    obtain ⟨e, he, -, hsame⟩ := forall₂_exists_right hs he'
    rw [hnil] at hsame
    have hv := h.wf.value t e he
    cases hval : e.2 with
    | nil => exact hv hval
    | _ =>
      rw [hval] at hsame
      exact hsame
  exact storeAll_eq hkeys hvals

omit [DecidableEq T] in
/-- the tables of a session, as their fields were copied -/
theorem heapIsomorphism_of_iso {s : Memory T} {m : Memo T ℕ (Value ℕ)} (hiso : (gxRules h).Iso m.out m.Rel)
    (hbuilt : ∀ t a, m.Rel t a → Built s m a) : HeapIsomorphism h s.tables s.metatables m.Rel := by
  have hboth : ∀ t a, m.Rel t a →
      List.Forall₂ (fun e e' => Same m.Rel e.1 e'.1 ∧ Same m.Rel e.2 e'.2) (h.entries t) (s.tables a) ∧
        Option.Rel m.Rel (h.metatable t) (s.metatables a) := by
    intro t a hta
    obtain ⟨ps, hout, htables⟩ := hbuilt t a hta
    have hfields := (hiso.fields t a hta).imp fun v w hm => match_same hm
    rw [hout] at hfields
    obtain ⟨hentries, hmetatable⟩ := fields_split hfields
    rw [htables, stored_entries hiso.functional hiso.injective hentries]
    exact ⟨hentries, hmetatable⟩
  refine ⟨⟨hiso.functional, hiso.injective, ?_, ?_⟩, fun t a hta => (hboth t a hta).2⟩
  · exact fun t a hta e he => forall₂_exists_left (hboth t a hta).1 he
  · exact fun t a hta e' he' => forall₂_exists_right (hboth t a hta).1 he'

/-- what a session leaves: copies of the values on the destination stack, related by R, and new tables only -/
structure SessionCopied (h : Heap T) (s : State T) (vs : List (Value T)) (s' : State T) (ws : List (Value ℕ))
    (R : T → ℕ → Prop) : Prop where
  in_progress : s'.in_progress = false
  ls : s'.ls = s.ls
  ld : s'.ld = ws.reverse ++ s.ld
  isomorphism : HeapIsomorphism h s'.tables s'.metatables R
  same : List.Forall₂ (Same R) vs ws
  new : ∀ t a, R t a → s.count ≤ a ∧ a < s'.count
  count : s.count ≤ s'.count
  frame : ∀ a < s.count, s'.tables a = s.tables a ∧ s'.metatables a = s.metatables a

/-- **A session** -/
theorem session_spec {o : Outside T} {P : Finset T} (hd : Domain h o P) {fuel : ℕ} (hfuel : P.card < fuel) {vs : List (Value T)}
    (hvs : ∀ v ∈ vs, Ready P v) {s : State T} (hp : s.in_progress = false) :
    ∃ s' ws R, session h o fuel vs s = .ok s' ∧ SessionCopied h s vs s' ws R := by
  set s₀ : State T := { s with in_progress := true, copies := fun _ => none, refs := [] } with hs₀
  have hnum : Numbered s.count s₀.toMemory := by
    refine ⟨fun t index hindex => (by cases hindex), fun t t' a ha => (by cases ha), fun t a ha => (by cases ha), ?_⟩
    exact fun a h1 h2 => absurd h2 (Nat.not_lt.2 h1)
  have hn : (GraphCopy.todo P s₀.cached).card < fuel := lt_of_le_of_lt (Finset.card_filter_le _ _) hfuel
  obtain ⟨ws, s₁, m, hrun, hls, hld, hcopied⟩ := copy_all_spec hd vs (s := s₀) (m := ⟨fun _ => none, fun _ => []⟩) rfl rfl hnum
    le_rfl hvs hn
  obtain ⟨hiso, hsame⟩ := hcopied.copies.iso fun _ => rfl
  have hrange : ∀ t a, m.Rel t a → s.count ≤ a ∧ a < s₁.count := by
    intro t a hta
    apply hcopied.numbered.range t a
    rw [← hcopied.memo]
    exact hta
  refine ⟨{ s₁ with in_progress := false, copies := fun _ => none, refs := [] }, ws, m.Rel, ?_, rfl, hls, hld, ?_,
    hsame.imp fun _ _ hm => match_same hm, hrange, hcopied.count, fun a ha => hcopied.frame a ha id⟩
  · unfold session luaS_gxcopy_start
    rw [if_neg (by rw [hp]; exact Bool.false_ne_true)]
    show (copy_all h o fuel vs s₀).bind luaS_gxcopy_finish = _
    rw [hrun]
    exact if_pos hcopied.in_progress
  · exact heapIsomorphism_of_iso (s := s₁.toMemory) hiso fun t a hta => hcopied.built a (hrange t a hta).1 (hrange t a hta).2

/-! ## A row of sessions -/

omit [DecidableEq T] in
/-- later tables of the destination do not touch an isomorphism -/
theorem HeapIsomorphism.congr {tables tables' : Tables ℕ} {metatables metatables' : ℕ → Option ℕ} {R : T → ℕ → Prop}
    (hi : HeapIsomorphism h tables metatables R)
    (hsame : ∀ t a, R t a → tables' a = tables a ∧ metatables' a = metatables a) : HeapIsomorphism h tables' metatables' R := by
  refine ⟨⟨hi.functional, hi.injective, ?_, ?_⟩, ?_⟩
  · intro t a hta
    rw [(hsame t a hta).1]
    exact hi.forth t a hta
  · intro t a hta
    rw [(hsame t a hta).1]
    exact hi.back t a hta
  · intro t a hta
    rw [(hsame t a hta).2]
    exact hi.metatable t a hta

/-- what the sessions leave: the values of session i have copies by R i, and no table is in two of them -/
structure SessionsCopied (h : Heap T) (s : State T) (vss : List (List (Value T))) (s' : State T) (wss : List (List (Value ℕ)))
    (R : ℕ → T → ℕ → Prop) : Prop where
  in_progress : s'.in_progress = false
  /-- the source stack is as it was -/
  ls : s'.ls = s.ls
  /-- the destination stack has one more value for each call -/
  ld : s'.ld = wss.flatten.reverse ++ s.ld
  copied : List.Forall₂ (fun vs ws => vs.length = ws.length) vss wss
  isomorphism : ∀ i, HeapIsomorphism h s'.tables s'.metatables (R i)
  same : ∀ i vs ws, vss[i]? = some vs → wss[i]? = some ws → List.Forall₂ (Same (R i)) vs ws
  separate : ∀ i j t t' a, R i t a → R j t' a → i = j
  new : ∀ i t a, R i t a → s.count ≤ a ∧ a < s'.count
  count : s.count ≤ s'.count
  frame : ∀ a < s.count, s'.tables a = s.tables a ∧ s'.metatables a = s.metatables a

theorem sessions_spec {o : Outside T} {P : Finset T} (hd : Domain h o P) {fuel : ℕ} (hfuel : P.card < fuel)
    (vss : List (List (Value T))) (hvss : ∀ vs ∈ vss, ∀ v ∈ vs, Ready P v) {s : State T} (hp : s.in_progress = false) :
    ∃ s' wss R, sessions h o fuel vss s = .ok s' ∧ SessionsCopied h s vss s' wss R := by
  induction vss generalizing s with
  | nil =>
    refine ⟨s, [], fun _ _ _ => False, rfl, hp, rfl, rfl, .nil, ?_, ?_, ?_, ?_, le_rfl, fun a _ => ⟨rfl, rfl⟩⟩
    · exact fun i => ⟨⟨fun t a b => False.elim, fun t t' a => False.elim, fun t a => False.elim, fun t a => False.elim⟩,
        fun t a => False.elim⟩
    · exact fun i vs ws hvs => by cases hvs
    · exact fun i j t t' a => False.elim
    · exact fun i t a => False.elim
  | cons vs vss ih =>
    obtain ⟨s₁, ws, R, hrun, hfirst⟩ := session_spec hd hfuel (hvss vs List.mem_cons_self) hp
    obtain ⟨s', wss, Rs, hrest, hothers⟩ := ih (fun us hus => hvss us (List.mem_cons_of_mem vs hus)) hfirst.in_progress
    have hkeep : ∀ t a, R t a → s'.tables a = s₁.tables a ∧ s'.metatables a = s₁.metatables a :=
      fun t a hta => hothers.frame a (hfirst.new t a hta).2
    refine ⟨s', ws :: wss, fun i => Nat.casesOn i R Rs, ?_, hothers.in_progress, hothers.ls.trans hfirst.ls, ?_, ?_, ?_, ?_, ?_,
      ?_, hfirst.count.trans hothers.count, ?_⟩
    · unfold sessions
      rw [hrun]
      exact hrest
    · rw [hothers.ld, hfirst.ld, List.flatten_cons, List.reverse_append, List.append_assoc]
    · exact .cons hfirst.same.length_eq hothers.copied
    · intro i
      cases i with
      | zero => exact hfirst.isomorphism.congr hkeep
      | succ i => exact hothers.isomorphism i
    · intro i us xs hus hxs
      cases i with
      | zero =>
        cases hus
        cases hxs
        exact hfirst.same
      | succ i => exact hothers.same i us xs hus hxs
    · intro i j t t' a hi hj
      cases i with
      | zero =>
        cases j with
        | zero => rfl
        | succ j => exact absurd (hfirst.new t a hi).2 (Nat.not_lt.2 (hothers.new j t' a hj).1)
      | succ i =>
        cases j with
        | zero => exact absurd (hfirst.new t' a hj).2 (Nat.not_lt.2 (hothers.new i t a hi).1)
        | succ j => exact congrArg Nat.succ (hothers.separate i j t t' a hi hj)
    · intro i t a hi
      cases i with
      | zero => exact ⟨(hfirst.new t a hi).1, (hfirst.new t a hi).2.trans_le hothers.count⟩
      | succ i => exact ⟨hfirst.count.trans (hothers.new i t a hi).1, (hothers.new i t a hi).2⟩
    · intro a ha
      obtain ⟨htables, hmetatables⟩ := hothers.frame a (ha.trans_le hfirst.count)
      exact ⟨htables.trans (hfirst.frame a ha).1, hmetatables.trans (hfirst.frame a ha).2⟩

omit [DecidableEq T] in
theorem reachable_field {v : Value T} {t : T} (ht : HeapReachable h v (.table t)) {w : Value T}
    (hw : w ∈ keyFirst (h.entries t) ++ [metaField (h.metatable t)]) : HeapReachable h v w ∨ w = .nil := by
  rcases List.mem_append.1 hw with hw | hw
  · obtain ⟨e, he, hwe⟩ := List.mem_flatMap.1 hw
    simp only [List.mem_cons, List.not_mem_nil, or_false] at hwe
    rcases hwe with rfl | rfl
    · exact .inl (ht.key (w := e.2) he)
    · exact .inl (ht.value (k := e.1) he)
  · rw [List.mem_singleton.1 hw]
    cases hmt : h.metatable t with
    | none => exact .inr rfl
    | some mt => exact .inl (ht.metatable hmt)

/-- the tables of some graphs -/
theorem domain_of_graphs {o : Outside T} {vss : List (List (Value T))} (hg : ∀ vs ∈ vss, ∀ v ∈ vs, Graph h o v) :
    ∃ P : Finset T, Domain h o P ∧ ∀ vs ∈ vss, ∀ v ∈ vs, Ready P v := by
  have hfinite : {t | ∃ vs ∈ vss, ∃ v ∈ vs, HeapReachable h v (.table t)}.Finite := by
    have hunion : (⋃ vs ∈ {vs | vs ∈ vss}, ⋃ v ∈ {v | v ∈ vs}, {t | HeapReachable h v (.table t)}).Finite :=
      (List.finite_toSet vss).biUnion fun vs hvs => (List.finite_toSet vs).biUnion fun v hv => (hg vs hvs v hv).finite
    refine hunion.subset ?_
    rintro t ⟨vs, hvs, v, hv, ht⟩
    simp only [Set.mem_iUnion]
    exact ⟨vs, hvs, v, hv, ht⟩
  have hmem : ∀ t, t ∈ hfinite.toFinset ↔ ∃ vs ∈ vss, ∃ v ∈ vs, HeapReachable h v (.table t) := fun t => hfinite.mem_toFinset
  have hready : ∀ vs ∈ vss, ∀ v ∈ vs, ∀ w, HeapReachable h v w → Ready hfinite.toFinset w := by
    intro vs hvs v hv w hw
    refine ⟨(hg vs hvs v hv).sendable w hw, ?_⟩
    intro t ht
    cases w with
    | table t' =>
      cases ht
      exact (hmem t).2 ⟨vs, hvs, v, hv, hw⟩
    | _ => cases ht
  refine ⟨hfinite.toFinset, ⟨?_, ?_, ?_, ?_⟩, fun vs hvs v hv => hready vs hvs v hv v .refl⟩
  · intro t ht
    obtain ⟨vs, hvs, v, hv, hr⟩ := (hmem t).1 ht
    exact (hg vs hvs v hv).plain t hr
  · intro t ht
    obtain ⟨vs, hvs, v, hv, hr⟩ := (hmem t).1 ht
    exact (hg vs hvs v hv).no_package t hr
  · intro t ht w hw
    obtain ⟨vs, hvs, v, hv, hr⟩ := (hmem t).1 ht
    rcases reachable_field hr hw with hw | rfl
    · exact hready vs hvs v hv w hw
    · exact ⟨rfl, fun t' ht' => by cases ht'⟩
  · intro t ht
    obtain ⟨vs, hvs, v, hv, -⟩ := (hmem t).1 ht
    exact (hg vs hvs v hv).globals

/-- **A copy is isomorphic to its source**, in any row of sessions with any values in each. One isomorphism serves all calls of a
session, and no table is the copy of two sessions. -/
theorem gxcopy_isomorphic (h : Heap T) (o : Outside T) (vss : List (List (Value T))) (hg : ∀ vs ∈ vss, ∀ v ∈ vs, Graph h o v)
    (s : State T) (hp : s.in_progress = false) :
    ∃ depth, ∀ fuel ≥ depth, ∃ s' wss R, sessions h o fuel vss s = .ok s' ∧ SessionsCopied h s vss s' wss R := by
  obtain ⟨P, hd, hready⟩ := domain_of_graphs hg
  exact ⟨P.card + 1, fun fuel hfuel => sessions_spec hd hfuel vss hready hp⟩

/-! ## A table and its metatable -/

/-- the table 0 with t[1] = t, its metatable 1 with mt.t = t, and the globals table 2 -/
def tableHeap : Heap (Fin 3) where
  entries := fun t =>
    if t = 0 then [(.integer 1, .table 0)] else if t = 1 then [(.string (bytes "t"), .table 0)] else []
  metatable := fun t => if t = 0 then some 1 else none
  wf := by refine ⟨?_, ?_, ?_⟩ <;> decide

def tableOutside : Outside (Fin 3) where
  globals := 2
  dst_globals := 0
  loaded := fun v => v = .table 2
  type_metatable := fun _ => none
  call_eq := fun _ _ _ => none
  call_index := fun _ => none
  package := fun _ => .fail
  metatable := fun _ => .fail
  other := fun _ => .fail

theorem tableGraph : Graph tableHeap tableOutside (.table 0) := by
  have hmetatable : ∀ t m : Fin 3, tableHeap.metatable t = some m → m = 1 := by decide
  have hreach : ∀ w, HeapReachable tableHeap (.table 0) w → w ∈ [.table 0, .table 1, .integer 1, .string (bytes "t")] := by
    intro w hw
    have hentries : ∀ t : Fin 3, .table t ∈ [Value.table (0 : Fin 3), .table 1, .integer 1, .string (bytes "t")] →
        ∀ e ∈ tableHeap.entries t, e.1 ∈ [Value.table (0 : Fin 3), .table 1, .integer 1, .string (bytes "t")] ∧
          e.2 ∈ [Value.table (0 : Fin 3), .table 1, .integer 1, .string (bytes "t")] := by decide
    induction hw with
    | refl => exact List.mem_cons_self
    | key _ he ih => exact (hentries _ ih _ he).1
    | value _ he ih => exact (hentries _ ih _ he).2
    | metatable _ hm _ =>
      rw [hmetatable _ _ hm]
      decide
  have htables : ∀ t, HeapReachable tableHeap (.table 0) (.table t) → t = 0 ∨ t = 1 := by
    have hall : ∀ t : Fin 3, .table t ∈ [Value.table (0 : Fin 3), .table 1, .integer 1, .string (bytes "t")] → t = 0 ∨ t = 1 := by
      decide
    exact fun t ht => hall t (hreach _ ht)
  refine ⟨Set.toFinite _, ?_, ?_, ?_, by decide⟩
  · intro w hw
    have hall : ∀ x ∈ [Value.table (0 : Fin 3), .table 1, .integer 1, .string (bytes "t")], x.sendable = true := by decide
    exact hall w (hreach w hw)
  · intro t ht
    refine ⟨?_, ?_⟩
    · rcases htables t ht with rfl | rfl
      · decide
      · decide
    · intro m hm
      rw [hmetatable t m hm]
      exact ⟨.nil, by decide, by decide⟩
  · intro t ht
    rcases htables t ht with rfl | rfl
    · decide
    · decide

/-- it is copied twice in one session, and once in another -/
theorem gxcopy_isomorphic_table : ∃ depth, ∀ fuel ≥ depth, ∃ s' wss R,
    sessions tableHeap tableOutside fuel [[.table 0, .table 0], [.table 0]] ⟨⟨false, fun _ => none, [], fun _ => [], fun _ => none, 1⟩, [], []⟩ =
      .ok s' ∧
    SessionsCopied tableHeap ⟨⟨false, fun _ => none, [], fun _ => [], fun _ => none, 1⟩, [], []⟩ [[.table 0, .table 0], [.table 0]] s' wss R :=
  gxcopy_isomorphic tableHeap tableOutside _ (by
    intro vs hvs v hv
    have hzero : v = .table 0 := by
      simp only [List.mem_cons, List.not_mem_nil, or_false] at hvs
      rcases hvs with rfl | rfl
      · simpa using hv
      · simpa using hv
    rw [hzero]
    exact tableGraph) _ rfl

end Shuttlesock.Gxcopy
