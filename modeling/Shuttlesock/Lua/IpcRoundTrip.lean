/-
Packing and unpacking a Lua value (`modules/lua_bridge/api/ipc_lua_api.c`).

- `RoundTrips`: packing ends without an error, unpacking too, and the result is isomorphic to the value.
- `Fits`: an integer in the range of the `int` in which a packed field keeps it.

Results:
- `trip`: a value that can be sent is packed and unpacked; the packed data is related one-to-one to the value and to the
  result.
- `Trip.isomorphic`, `Trip.fits`: the result is isomorphic when all integers fit, and holds only integers that fit.
- `round_trips_iff`: a value survives if and only if every integer that can be reached from it fits.
- `round_trip_truncates`: 2^31 comes back as -2^31.
-/
import Mathlib.Tactic
import Shuttlesock.Lua.IpcUnpack

namespace Shuttlesock.Lua

open Shuttlesock.GraphCopy

variable {T : Type*}

/-! ## Integers -/

/-- in the range of `int` -/
def Fits (i : BitVec 64) : Prop := -2 ^ 31 ≤ i.toInt ∧ i.toInt < 2 ^ 31

theorem Fits.signExtend_setWidth {i : BitVec 64} (h : Fits i) : (i.setWidth 32).signExtend 64 = i := by
  obtain ⟨h1, h2⟩ := h
  apply BitVec.eq_of_toInt_eq
  rw [BitVec.toInt_signExtend_of_le (by decide), BitVec.toInt_setWidth]
  unfold BitVec.toInt at *
  simp only [Int.bmod] at *
  omega

theorem fits_signExtend (j : BitVec 32) : Fits (j.signExtend 64) := by
  unfold Fits
  rw [BitVec.toInt_signExtend_of_le (by decide)]
  have h1 := BitVec.toInt_lt (x := j)
  have h2 := BitVec.le_toInt (x := j)
  omega

/-! ## Both ways -/

/-- the keys and the values of two entries match -/
def EntryMatch {N M V W : Type*} (g : Rules N M V W) (R : N → M → Prop) (e : V × V) (e' : W × W) : Prop :=
  g.Match R e.1 e'.1 ∧ g.Match R e.2 e'.2

/-- v and its tables, packed and unpacked: R₁ relates the tables to the packed ones, R₂ these to the new ones -/
structure Trip (tables : Tables T) (v : Value T) (mem : ℕ → Table) (new : Tables ℕ) (v' : Value ℕ) (R₁ : T → ℕ → Prop)
    (R₂ : ℕ → ℕ → Prop) : Prop where
  functional₁ : ∀ t a b, R₁ t a → R₁ t b → a = b
  injective₁ : ∀ t t' a, R₁ t a → R₁ t' a → t = t'
  functional₂ : ∀ a i j, R₂ a i → R₂ a j → i = j
  injective₂ : ∀ a a' i, R₂ a i → R₂ a' i → a = a'
  packed : ∀ t a, R₁ t a → List.Forall₂ (EntryMatch (packRules tables) R₁) (tables t) (mem a).entries
  unpacked : ∀ a i, R₂ a i → ∃ ps, List.Forall₂ (EntryMatch (unpackRules mem) R₂) (mem a).entries ps ∧
    new i = storeAll [] ps
  root : ∃ f, (packRules tables).Match R₁ v f ∧ (unpackRules mem).Match R₂ f v'

/-- the tables that correspond: one that can be reached from v, and the one unpacked from its packed table -/
def Related (tables : Tables T) (v : Value T) (R₁ : T → ℕ → Prop) (R₂ : ℕ → ℕ → Prop) (t : T) (i : ℕ) : Prop :=
  Reachable tables v (.table t) ∧ ∃ a, R₁ t a ∧ R₂ a i

variable {tables : Tables T} {v : Value T} {mem : ℕ → Table} {new : Tables ℕ} {v' : Value ℕ} {R₁ : T → ℕ → Prop}
  {R₂ : ℕ → ℕ → Prop}

theorem same_of_match {x : Value T} {f : Field} {y : Value ℕ} (h1 : (packRules tables).Match R₁ x f)
    (h2 : (unpackRules mem).Match R₂ f y) (hx : Reachable tables v x) (hfit : ∀ i, x = .integer i → Fits i) :
    Same (Related tables v R₁ R₂) x y := by
  cases x with
  | table t =>
    obtain ⟨a, hta, rfl⟩ := h1
    obtain ⟨i, hai, rfl⟩ := h2
    exact ⟨hx, a, hta, hai⟩
  | integer i =>
    cases f with
    | integer j =>
      cases y with
      | integer k =>
        have hj : j = i.setWidth 32 := h1
        have hk : k = j.signExtend 64 := h2
        have hi := (hfit i rfl).signExtend_setWidth
        rw [hk, hj, hi]
        exact rfl
      | _ => exact absurd h2 id
    | table a => exact absurd h1 id
    | _ => exact absurd h1 id
  | nil =>
    cases f with
    | nil => cases y <;> exact h2
    | _ => exact absurd h1 id
  | boolean b =>
    cases f with
    | boolean b' => cases y <;> first | exact absurd h2 id | exact Eq.trans h1 h2
    | _ => exact absurd h1 id
  | lightuserdata p =>
    cases f with
    | lightuserdata p' => cases y <;> first | exact absurd h2 id | exact Eq.trans h1 h2
    | _ => exact absurd h1 id
  | number n =>
    cases f with
    | number n' => cases y <;> first | exact absurd h2 id | exact Eq.trans h1 h2
    | _ => exact absurd h1 id
  | string s =>
    cases f with
    | string d s' => cases y <;> first | exact absurd h2 id | exact Eq.trans h1 h2
    | _ => exact absurd h1 id
  | function => cases f <;> exact absurd h1 id
  | userdata => cases f <;> exact absurd h1 id
  | thread => cases f <;> exact absurd h1 id

/-! ## Values that fit -/

/-- **The result is isomorphic** when all integers fit -/
theorem Trip.isomorphic (h : Trip tables v mem new v' R₁ R₂) (hwf : Wf tables)
    (hfit : ∀ i, Reachable tables v (.integer i) → Fits i) : Isomorphic tables v new v' := by
  have hfun : ∀ t i j, Related tables v R₁ R₂ t i → Related tables v R₁ R₂ t j → i = j := by
    rintro t i j ⟨-, a, ha, hi⟩ ⟨-, b, hb, hj⟩
    rw [h.functional₁ t a b ha hb] at hi
    exact h.functional₂ b i j hi hj
  have hinj : ∀ t t' i, Related tables v R₁ R₂ t i → Related tables v R₁ R₂ t' i → t = t' := by
    rintro t t' i ⟨-, a, ha, hi⟩ ⟨-, b, hb, hj⟩
    rw [h.injective₂ a b i hi hj] at ha
    exact h.injective₁ t t' b ha hb
  -- the entries of a table and of the new one
  have hentries : ∀ t i, Related tables v R₁ R₂ t i →
      List.Forall₂ (fun e e' => Same (Related tables v R₁ R₂) e.1 e'.1 ∧ Same (Related tables v R₁ R₂) e.2 e'.2)
        (tables t) (new i) := by
    rintro t i ⟨hreach, a, hta, hai⟩
    obtain ⟨ps, hps, hnew⟩ := h.unpacked a i hai
    have hsame : List.Forall₂ (fun e e' => Same (Related tables v R₁ R₂) e.1 e'.1 ∧
        Same (Related tables v R₁ R₂) e.2 e'.2) (tables t) ps := by
      refine forall₂_comp (h.packed t a hta) hps ?_
      intro e he f e' hef hfe'
      have hk : Reachable tables v e.1 := hreach.key (w := e.2) he
      have hw : Reachable tables v e.2 := hreach.value (k := e.1) he
      refine ⟨same_of_match hef.1 hfe'.1 hk ?_, same_of_match hef.2 hfe'.2 hw ?_⟩
      · intro i hi
        exact hfit i (hi ▸ hk)
      · intro i hi
        exact hfit i (hi ▸ hw)
    have hkeys : (ps.map Prod.fst).Nodup := by
      have hmap : List.Forall₂ (Same (Related tables v R₁ R₂)) ((tables t).map Prod.fst) (ps.map Prod.fst) :=
        List.forall₂_map_left_iff.2 (List.forall₂_map_right_iff.2 (hsame.imp fun _ _ he => he.1))
      exact (List.rel_nodup (same_biUnique hfun hinj) hmap).1 (hwf.keys t)
    have hvals : ∀ e' ∈ ps, e'.2 ≠ .nil := by
      intro e' he' hnil
      obtain ⟨e, he, hs⟩ := forall₂_exists_right hsame he'
      rw [hnil] at hs
      have hv := hwf.value t e he
      cases hval : e.2 with
      | nil => exact hv hval
      | _ => rw [hval] at hs; exact hs.2
    have hall : storeAll [] ps = [] ++ ps := storeAll_eq hkeys hvals
    rw [hnew, hall]
    exact hsame
  obtain ⟨f, hvf, hfv'⟩ := h.root
  refine ⟨Related tables v R₁ R₂, ⟨hfun, hinj, ?_, ?_⟩, same_of_match hvf hfv' .refl ?_⟩
  · intro t i hti e he
    exact forall₂_exists_left (hentries t i hti) he
  · intro t i hti e' he'
    exact forall₂_exists_right (hentries t i hti) he'
  · intro i hi
    exact hfit i (hi ▸ .refl)

/-! ## Values that do not fit -/

/-- a store adds nothing but its own entry -/
theorem mem_storeAll {l ps : List (Value ℕ × Value ℕ)} {e : Value ℕ × Value ℕ} (h : e ∈ storeAll l ps) :
    e ∈ l ∨ e ∈ ps := by
  induction ps generalizing l with
  | nil => exact Or.inl h
  | cons p ps ih =>
    rcases ih h with hl | hps
    · rcases mem_rawset hl with hl | rfl
      · exact Or.inl hl
      · exact Or.inr List.mem_cons_self
    · exact Or.inr (List.mem_cons_of_mem p hps)

/-- every value that can be reached from the result was unpacked from a field -/
theorem Trip.unpacked_from (h : Trip tables v mem new v' R₁ R₂) {y : Value ℕ} (hy : Reachable new v' y) :
    ∃ f, (unpackRules mem).Match R₂ f y := by
  -- an entry of a new table, both of its values
  have hentry : ∀ {i : ℕ} {e : Value ℕ × Value ℕ}, (∃ f, (unpackRules mem).Match R₂ f (.table i)) → e ∈ new i →
      ∃ f f', (unpackRules mem).Match R₂ f e.1 ∧ (unpackRules mem).Match R₂ f' e.2 := by
    rintro i e ⟨f, hf⟩ he
    cases f with
    | table a =>
      obtain ⟨j, haj, hj⟩ := hf
      cases hj
      obtain ⟨ps, hps, hnew⟩ := h.unpacked a i haj
      rw [hnew] at he
      rcases mem_storeAll he with he | he
      · cases he
      · obtain ⟨e', -, hk, hw⟩ := forall₂_exists_right hps he
        exact ⟨e'.1, e'.2, hk, hw⟩
    | _ => exact absurd hf id
  induction hy with
  | refl =>
    obtain ⟨f, -, hf⟩ := h.root
    exact ⟨f, hf⟩
  | key _ hm ih =>
    obtain ⟨f, -, hf, -⟩ := hentry ih hm
    exact ⟨f, hf⟩
  | value _ hm ih =>
    obtain ⟨-, f, -, hf⟩ := hentry ih hm
    exact ⟨f, hf⟩

/-- **The result holds only integers that fit.** -/
theorem Trip.fits (h : Trip tables v mem new v' R₁ R₂) {i : BitVec 64} (hi : Reachable new v' (.integer i)) :
    Fits i := by
  obtain ⟨f, hf⟩ := h.unpacked_from hi
  cases f with
  | integer j =>
    have hij : i = j.signExtend 64 := hf
    rw [hij]
    exact fits_signExtend j
  | table a =>
    obtain ⟨id, -, hid⟩ := hf
    cases hid
  | _ => exact absurd hf id

/-! ## The round trip -/

variable [DecidableEq T]

def RoundTrips (A : Allocator) (tables : Tables T) (fuel : ℕ) (v : Value T) (name : String) (shared : Bool)
    (w : World) : Prop :=
  match luaS_lua_ipc_pack_data A tables fuel v name shared w with
  | .ok d w₁ =>
    match luaS_lua_ipc_unpack_data w₁.mem fuel d with
    | .ok v' s => Isomorphic tables v s.tables v'
    | _ => False
  | _ => False

/-- the addresses of the packed tables -/
def packedAt [Fintype T] (packed : T → Option ℕ) : Finset ℕ :=
  (Finset.univ.filter fun t => packed t ≠ none).image fun t => (packed t).getD 0

omit [DecidableEq T] in
theorem mem_packedAt [Fintype T] {packed : T → Option ℕ} {a : ℕ} : a ∈ packedAt packed ↔ ∃ t, packed t = some a := by
  unfold packedAt
  constructor
  · intro h
    obtain ⟨t, ht, rfl⟩ := Finset.mem_image.1 h
    have hne := (Finset.mem_filter.1 ht).2
    refine ⟨t, ?_⟩
    cases hp : packed t with
    | none => exact absurd hp hne
    | some a => rfl
  · rintro ⟨t, ht⟩
    refine Finset.mem_image.2 ⟨t, Finset.mem_filter.2 ⟨Finset.mem_univ t, ?_⟩, ?_⟩
    · rw [ht]
      exact Option.some_ne_none a
    · rw [ht]
      rfl

omit [DecidableEq T] in
theorem card_packedAt [Fintype T] (packed : T → Option ℕ) : (packedAt packed).card ≤ Fintype.card T :=
  le_trans Finset.card_image_le (Finset.card_filter_le _ _)

omit [DecidableEq T] in
/-- a field that refers to a table was packed from one -/
theorem ref_packed {R : T → ℕ → Prop} {x : Value T} {f : Field} (h : (packRules tables).Match R x f) {q : ℕ}
    (hq : f.tableRef = some q) : ∃ t, R t q := by
  cases f with
  | table a =>
    cases hq
    cases x with
    | table t =>
      obtain ⟨b, hb, he⟩ := h
      cases he
      exact ⟨t, hb⟩
    | _ => exact absurd h id
  | _ => cases hq

/-- **A value that can be sent is packed and unpacked.** -/
theorem trip [Fintype T] (A : Allocator) (tables : Tables T) {fuel : ℕ} (hfuel : Fintype.card T ≤ fuel) (v : Value T)
    (hsend : ∀ x, Reachable tables v x → x.sendable = true) (name : String) (shared : Bool) (w : World) :
    ∃ d w₁ v' s R₁ R₂, luaS_lua_ipc_pack_data A tables fuel v name shared w = .ok d w₁ ∧
      luaS_lua_ipc_unpack_data w₁.mem fuel d = .ok v' s ∧ Trip tables v w₁.mem s.tables v' R₁ R₂ := by
  have hcard : (todo Finset.univ (pack_start A shared w : Packing T).packed).card ≤ fuel :=
    le_trans (Finset.card_filter_le _ _) hfuel
  obtain ⟨hnone, hanch⟩ := pack_start_anchored (T := T) A shared w
  have hout := pack_field_outcome A shared tables Finset.mem_univ fuel v _ hanch hcard
  cases hr : pack_field A shared tables fuel v (pack_start A shared w) with
  | deep =>
    rw [hr] at hout
    exact absurd hout id
  | raise msg s =>
    rw [hr] at hout
    obtain ⟨-, x, hx, hbad⟩ := hout
    rw [hsend x hx] at hbad
    cases hbad
  | ok f s =>
    rw [hr] at hout
    obtain ⟨hcopies, -, -⟩ := hout
    obtain ⟨hiso₁, hroot₁⟩ := hcopies.iso fun n => congrFun hnone n
    have hroot : (packRules tables).Match s.memo.Rel v f := (List.forall₂_cons.1 hroot₁).1
    have hpacked : ∀ t a, s.packed t = some a →
        List.Forall₂ (EntryMatch (packRules tables) s.memo.Rel) (tables t) (s.mem a).entries :=
      fun t a ha => forall₂_valueFirst (hiso₁.fields t a ha)
    -- the packed tables refer to packed tables only
    have hclosed : ∀ a ∈ packedAt s.packed, ∀ f ∈ keyFirst (s.mem a).entries, ∀ q, f.tableRef = some q →
        q ∈ packedAt s.packed := by
      intro a ha f hf q hq
      obtain ⟨t, ht⟩ := mem_packedAt.1 ha
      obtain ⟨e, he, hfe⟩ := List.mem_flatMap.1 hf
      obtain ⟨x, -, hk, hv⟩ := forall₂_exists_right (hpacked t a ht) he
      simp only [List.mem_cons, List.not_mem_nil, or_false] at hfe
      rcases hfe with rfl | rfl
      · exact mem_packedAt.2 (ref_packed hk hq)
      · exact mem_packedAt.2 (ref_packed hv hq)
    have hfuel₂ : (todo (packedAt s.packed) fun _ => (none : Option ℕ)).card ≤ fuel :=
      le_trans (le_trans (Finset.card_filter_le _ _) (card_packedAt _)) hfuel
    obtain ⟨v', s', m', hrun, hu⟩ := unpack_field_spec s.mem hclosed fuel f ⟨fun _ => [], 0, fun _ => none⟩
      ⟨fun _ => none, fun _ => []⟩ rfl start_numbered (fun q hq => mem_packedAt.2 (ref_packed hroot hq)) hfuel₂
    obtain ⟨hiso₂, hroot₂⟩ := hu.copies.iso fun _ => rfl
    refine ⟨_, _, v', s', s.memo.Rel, m'.Rel, pack_data_ok hr, hrun, hiso₁.functional, hiso₁.injective,
      hiso₂.functional, hiso₂.injective, hpacked, ?_, f, hroot, (List.forall₂_cons.1 hroot₂).1⟩
    intro a i hai
    have hlt : i < s'.count := by
      apply hu.numbered.lt a
      rw [← hu.memo]
      exact hai
    obtain ⟨ps, hps, hmatch⟩ := exists_keyFirst (hiso₂.fields a i hai)
    refine ⟨ps, hmatch, ?_⟩
    rw [hu.built i (Nat.zero_le i) hlt, hps, build, pairs_keyFirst]

/-- **What survives.** A value that can be sent comes back isomorphic if and only if every integer that can be reached
from it fits in an `int`. -/
theorem round_trips_iff [Fintype T] (A : Allocator) (tables : Tables T) (hwf : Wf tables) (fuel : ℕ)
    (hfuel : Fintype.card T ≤ fuel) (v : Value T) (hsend : ∀ x, Reachable tables v x → x.sendable = true)
    (name : String) (shared : Bool) (w : World) :
    RoundTrips A tables fuel v name shared w ↔ ∀ i, Reachable tables v (.integer i) → Fits i := by
  obtain ⟨d, w₁, v', s, R₁, R₂, hpack, hunpack, htrip⟩ := trip A tables hfuel v hsend name shared w
  have hiff : RoundTrips A tables fuel v name shared w ↔ Isomorphic tables v s.tables v' := by
    simp only [RoundTrips, hpack, hunpack]
  rw [hiff]
  constructor
  · rintro ⟨R, hR, hvv'⟩ i hi
    obtain ⟨y, hy, hs⟩ := hR.reachable hvv' hi
    cases y with
    | integer j =>
      have hij : i = j := hs
      rw [hij]
      exact htrip.fits hy
    | _ => exact absurd hs id
  · exact htrip.isomorphic hwf

/-- the table t with t[1] = t, in shared memory -/
theorem round_trip_cycle :
    RoundTrips firstFree (fun _ : Unit => [(.integer 1, .table ())]) 1 (.table ()) "beep" true noMessages ↔
      ∀ i, Reachable (fun _ : Unit => [(.integer 1, .table ())]) (.table ()) (.integer i) → Fits i := by
  apply round_trips_iff
  · refine ⟨?_, ?_, ?_⟩ <;> decide
  · decide
  · intro x hx
    have hcases : x = .table () ∨ x = .integer 1 := by
      induction hx with
      | refl => exact Or.inl rfl
      | key _ hm _ => exact Or.inr (congrArg Prod.fst (List.mem_singleton.1 hm))
      | value _ hm _ => exact Or.inl (congrArg Prod.snd (List.mem_singleton.1 hm))
    rcases hcases with rfl | rfl <;> rfl

/-- **2^31 does not survive**, in either mode -/
theorem round_trip_truncates :
    ¬ ∀ (v : Value Unit) (shared : Bool), (∀ x, Reachable (fun _ => []) v x → x.sendable = true) →
      RoundTrips firstFree (fun _ => []) 1 v "beep" shared noMessages := by
  intro h
  have hsend : ∀ x, Reachable (fun _ : Unit => []) (.integer (2 ^ 31)) x → x.sendable = true := by
    intro x hx
    cases hx with
    | refl => rfl
    | key _ hm => cases hm
    | value _ hm => cases hm
  obtain ⟨R, -, hsame⟩ := h (.integer (2 ^ 31)) true hsend
  have heq : (2 ^ 31 : BitVec 64) = ((2 ^ 31 : BitVec 64).setWidth 32).signExtend 64 := hsame
  exact absurd heq (by decide)

end Shuttlesock.Lua
