/-
Looking up a setting from inside a block: `config:find_setting` and `config:predecessor` of `config.lua`.

Both go up from block to block and return the first setting that fits. `find_setting` fits names, and means to fit modules;
`predecessor` means to fit the handler of the setting that it started with, and compares with the one of the block it is in.

Model: `Frame` is a setting above with its block, the innermost first and the root last. What is returned is a place: how many
blocks up, and the index in the block.

Results:
- `predecessor_head`: the place, and the setting of `predecessor`.
- `predecessor_iff`: the exact condition for it to be the setting with the same handler in the nearest enclosing block.
- `not_inherited`: a setting whose values are not inherited.
- `find_setting_iff`: the exact condition for `find_setting` to return the first setting of the name and module.
- `other_module`: a setting of another module.
-/
import Mathlib.Tactic
import Shuttlesock.Core.First
import Shuttlesock.Config.Handle
import Shuttlesock.Config.Resolve

namespace Shuttlesock.Settings

open Shuttlesock.MatchPath
open Shuttlesock.First

/-! ## predecessor -/

/-- the comparison of the loop -/
def owns (f : Frame) (d : Setting) : Bool := f.head.handled_by.isSome ∧ f.head.handled_by = d.head.handled_by

def predecessor_at : List Frame → Option (ℕ × ℕ)
  | [] => none
  | [_] => none
  | f :: up =>
    match f.settings.findIdx? (owns f) with
    | some i => some (0, i)
    | none => (predecessor_at up).map fun pos => (pos.1 + 1, pos.2)

/-- the setting at a place -/
def setting_at (up : List Frame) (pos : ℕ × ℕ) : Option Setting := (up[pos.1]?).bind fun f => f.settings[pos.2]?

/-- **The property**: the first setting with the same handler, of the blocks around the one that the setting is in -/
def Inherited (h : Head) (up : List Frame) (r : Option (ℕ × ℕ)) : Prop :=
  IsFirst (fun d : Setting => d.head.handled_by = h.handled_by) ([] :: up.tail.map Frame.settings) r

/-- the block has a setting with this handler -/
def Handles (f : Frame) (handled_by : Option Str) : Prop := ∃ d ∈ f.settings, d.head.handled_by = handled_by

/-- the block has a setting with the handler of the setting whose block it is -/
def HandlesOwn (f : Frame) : Prop := ∃ d ∈ f.settings, owns f d = true

/-- **The condition** -/
def Inherits (h : Head) (up : List Frame) : Prop :=
  (∀ f ∈ up.dropLast, ¬ HandlesOwn f) ∧ (∀ f ∈ up.tail, ¬ Handles f h.handled_by) ∨
    ∃ k f, 1 ≤ k ∧ up.dropLast[k]? = some f ∧ HandlesOwn f ∧ f.head.handled_by = h.handled_by ∧
      (∀ j g, j < k → up[j]? = some g → ¬ HandlesOwn g) ∧ ∀ j g, 1 ≤ j → j < k → up[j]? = some g → ¬ Handles g h.handled_by

theorem owns_iff {f : Frame} {d : Setting} :
    owns f d = true ↔ f.head.handled_by.isSome = true ∧ f.head.handled_by = d.head.handled_by := decide_eq_true_iff

/-- the setting that `predecessor` returns is the one at the place -/
theorem predecessor_head (up : List Frame) :
    predecessor up = (predecessor_at up).bind fun pos => (setting_at up pos).map Setting.head := by
  induction up with
  | nil => rfl
  | cons f up ih =>
    cases up with
    | nil => rfl
    | cons g up =>
      have hfind : (f.settings.find? fun d => f.head.handled_by.isSome ∧ f.head.handled_by = d.head.handled_by) =
          (f.settings.findIdx? (owns f)).bind fun i => f.settings[i]? := by
        rw [List.find?_eq_bind_findIdx?_getElem?]
        rfl
      unfold predecessor predecessor_at
      rw [hfind]
      cases hidx : f.settings.findIdx? (owns f) with
      | some i =>
        obtain ⟨hi, -⟩ := List.findIdx?_eq_some_iff_getElem.1 hidx
        simp [setting_at, List.getElem?_eq_getElem hi]
      | none =>
        dsimp only [Option.bind_none]
        rw [ih]
        cases predecessor_at (g :: up) with
        | none => rfl
        | some pos => rfl

/-- the settings that are compared, each with its block -/
def compared (up : List Frame) : List (List (Frame × Setting)) := up.dropLast.map fun f => f.settings.map fun d => (f, d)

theorem predecessor_first (up : List Frame) : predecessor_at up = first (fun p => owns p.1 p.2) (compared up) := by
  induction up with
  | nil => rfl
  | cons f up ih =>
    cases up with
    | nil => rfl
    | cons g up =>
      have hcons : compared (f :: g :: up) = (f.settings.map fun d => (f, d)) :: compared (g :: up) := rfl
      unfold predecessor_at
      rw [hcons, first, List.findIdx?_map, ih]
      rfl

theorem dropLast_some {up : List Frame} {k : ℕ} {f : Frame} (h : up.dropLast[k]? = some f) : up[k]? = some f := by
  rw [List.getElem?_dropLast] at h
  split_ifs at h
  exact h

/-- a block before one that is not the root's is not the root's -/
theorem dropLast_before {up : List Frame} {j k : ℕ} {f g : Frame} (hjk : j < k) (hf : up.dropLast[k]? = some f) (hg : up[j]? = some g) :
    up.dropLast[j]? = some g := by
  rw [List.getElem?_dropLast] at hf ⊢
  split_ifs at hf with hk
  rw [if_pos (hjk.trans hk)]
  exact hg

theorem compared_getElem {up : List Frame} {k : ℕ} {f : Frame} (hf : up.dropLast[k]? = some f) :
    (compared up)[k]? = some (f.settings.map fun d => (f, d)) := by
  rw [compared, List.getElem?_map, hf]
  rfl

/-- the loop finds nothing -/
theorem compared_none {up : List Frame} (h : IsFirst (fun p => owns p.1 p.2 = true) (compared up) none) {f : Frame}
    (hf : f ∈ up.dropLast) : ¬ HandlesOwn f := by
  rintro ⟨d, hd, ho⟩
  exact isFirst_none.1 h _ (List.mem_map_of_mem hf) (f, d) (List.mem_map_of_mem hd) ho

/-- the loop finds a setting: the first one of its block with the handler of the block's, and no block before has one -/
theorem compared_some {up : List Frame} {k i : ℕ} (h : IsFirst (fun p => owns p.1 p.2 = true) (compared up) (some (k, i))) :
    ∃ f d, up.dropLast[k]? = some f ∧ f.settings[i]? = some d ∧ owns f d = true ∧
      (∀ j g, j < k → up[j]? = some g → ¬ HandlesOwn g) ∧
      ∀ j e, j < i → f.settings[j]? = some e → ¬ owns f e = true := by
  have hat := h
  obtain ⟨p, ⟨l, hl, hd⟩, -⟩ := hat
  obtain ⟨ho, hlists, hown⟩ := (isFirst_some hl hd).1 h
  rw [compared, List.getElem?_map, Option.map_eq_some_iff] at hl
  obtain ⟨f, hf, rfl⟩ := hl
  rw [List.getElem?_map, Option.map_eq_some_iff] at hd
  obtain ⟨d, he, rfl⟩ := hd
  refine ⟨f, d, hf, he, ho, fun j g hj hg ⟨e, he, hoe⟩ => ?_, fun j e hj hje => ?_⟩
  · exact hlists j _ hj (compared_getElem (dropLast_before hj hf hg)) (g, e) (List.mem_map_of_mem he) hoe
  · exact hown j (f, e) hj (by rw [List.getElem?_map, hje]; rfl)

theorem inherited_none {h : Head} {up : List Frame} : Inherited h up none ↔ ∀ f ∈ up.tail, ¬ Handles f h.handled_by := by
  simp [Inherited, isFirst_none, Handles, -List.map_tail]

theorem inherited_some {h : Head} {up : List Frame} {k i : ℕ} {f : Frame} {d : Setting} (hf : up[k]? = some f)
    (hd : f.settings[i]? = some d) : Inherited h up (some (k, i)) ↔ 1 ≤ k ∧ d.head.handled_by = h.handled_by ∧
      (∀ j g, 1 ≤ j → j < k → up[j]? = some g → ¬ Handles g h.handled_by) ∧
      ∀ j e, j < i → f.settings[j]? = some e → e.head.handled_by ≠ h.handled_by := by
  cases k with
  | zero =>
    refine iff_of_false ?_ (by simp)
    rintro ⟨e, hat, -⟩
    simp [at_zero] at hat
  | succ k =>
    have hl : ([] :: up.tail.map Frame.settings)[k + 1]? = some f.settings := by
      simp [List.getElem?_tail, hf]
    rw [Inherited, isFirst_some hl hd, and_iff_right (Nat.le_add_left 1 k)]
    refine and_congr_right fun _ => and_congr_left fun _ => ?_
    constructor
    · rintro hlists j g hj1 hj hg ⟨e, he, hh⟩
      obtain ⟨j, rfl⟩ := Nat.exists_eq_add_of_le' hj1
      exact hlists (j + 1) g.settings hj (by simp [List.getElem?_tail, hg]) e he hh
    · intro hnearer j l hj hlj e he hh
      cases j with
      | zero =>
        cases hlj
        cases he
      | succ j =>
        rw [List.getElem?_cons_succ, List.getElem?_map, List.getElem?_tail, Option.map_eq_some_iff] at hlj
        obtain ⟨g, hg, rfl⟩ := hlj
        exact hnearer (j + 1) g (Nat.succ_pos j) hj hg ⟨e, he, hh⟩

/-- **Inheritance.** `predecessor` returns what it should exactly when neither of the two finds anything, or the nearest block with a
setting of its own setting's handler is an enclosing one whose handler is that of the setting, and no nearer one has that. -/
theorem predecessor_iff (h : Head) (up : List Frame) : Inherited h up (predecessor_at up) ↔ Inherits h up := by
  have hcode := isFirst_first (fun p => owns p.1 p.2) (compared up)
  rw [← predecessor_first] at hcode
  unfold Inherits
  generalize predecessor_at up = r at hcode ⊢
  cases r with
  | none =>
    rw [inherited_none]
    constructor
    · exact fun hnone => .inl ⟨fun f hf => compared_none hcode hf, hnone⟩
    · rintro (⟨-, hnone⟩ | ⟨k, f, -, hf, hown, -⟩)
      · exact hnone
      · exact absurd hown (compared_none hcode (List.mem_of_getElem? hf))
  | some pos =>
    obtain ⟨k, i⟩ := pos
    obtain ⟨f, d, hf, hd, ho, hown, hfirst⟩ := compared_some hcode
    have hhandles : HandlesOwn f := ⟨d, List.mem_of_getElem? hd, ho⟩
    obtain ⟨hsome, heq⟩ := owns_iff.1 ho
    rw [inherited_some (dropLast_some hf) hd]
    constructor
    · rintro ⟨hk, hh, hnearer, -⟩
      exact .inr ⟨k, f, hk, hf, hhandles, heq.trans hh, hown, hnearer⟩
    · rintro (⟨hno, -⟩ | ⟨k', f', hk, hf', hhandles', heq', hown', hnearer⟩)
      · exact absurd hhandles (hno f (List.mem_of_getElem? hf))
      · -- the two blocks are the same one
        have hge : ¬ k' < k := fun hlt => hown k' f' hlt (dropLast_some hf') hhandles'
        have hle : ¬ k < k' := fun hlt => hown' k f hlt (dropLast_some hf) hhandles
        obtain rfl : k = k' := by omega
        obtain rfl : f = f' := Option.some.inj (hf.symm.trans hf')
        refine ⟨hk, heq.symm.trans heq', hnearer, fun j e hj he hh => ?_⟩
        exact hfirst j e hj he (owns_iff.2 ⟨hsome, heq'.trans hh.symm⟩)

/-! ## find_setting -/

/-- the module and the name that are looked for; a name that starts with a colon is none -/
def query (name : Str) : Option Str × Option Str :=
  if ':' ∉ name then (none, some name)
  else if name.head? = some '*' then (none, (qualified name).map Prod.snd)
  else ((qualified name).map Prod.fst, (qualified name).map Prod.snd)

/-- `module and module == d.module or true` -/
def module_fits (module_name : Option Str) (d : Setting) : Bool :=
  decide (module_name.isSome ∧ module_name = d.head.module_name) || true

/-- a setting of this name, whose handler has a path that matches -/
def Applies (handlers : List (Str × Handler)) (path : Str) (name : Option Str) (d : Setting) : Prop :=
  name = some d.head.name ∧ ∃ handler, d.head.handled_by.bind (lookup handlers) = some handler ∧ path_matches path handler.path = true

/-- the conditions of the loop -/
def fits (handlers : List (Str × Handler)) (path : Str) (name : Option Str × Option Str) (d : Setting) : Bool :=
  name.2 = some d.head.name && module_fits name.1 d &&
    (d.head.handled_by.bind (lookup handlers)).any fun handler => path_matches path handler.path

def find_from (handlers : List (Str × Handler)) (path : Str) (name : Option Str × Option Str) : List Frame → Option (ℕ × ℕ)
  | [] => none
  | f :: up =>
    match f.settings.findIdx? (fits handlers path name) with
    | some i => some (0, i)
    | none => (find_from handlers path name up).map fun pos => (pos.1 + 1, pos.2)

/-- `find_setting`, of a context and what is above it -/
def find_setting (handlers : List (Str × Handler)) (frames : List Frame) (name : Str) : Option (ℕ × ℕ) :=
  find_from handlers (frames_path frames) (query name) frames

/-- **The property**: the first setting of the name, and of the module if there is one -/
def Finds (handlers : List (Str × Handler)) (frames : List Frame) (name : Str) (r : Option (ℕ × ℕ)) : Prop :=
  IsFirst (fun d => Applies handlers (frames_path frames) (query name).2 d ∧
    ∀ m, (query name).1 = some m → d.head.module_name = some m) (frames.map Frame.settings) r

/-- **The condition**: every setting of the name that is of another module comes behind one of the module -/
def Unshadowed (handlers : List (Str × Handler)) (frames : List Frame) (name : Str) : Prop :=
  ∀ m, (query name).1 = some m → ∀ pos d, At (frames.map Frame.settings) pos d →
    Applies handlers (frames_path frames) (query name).2 d → d.head.module_name ≠ some m →
    ∃ pos' d', Before pos' pos ∧ At (frames.map Frame.settings) pos' d' ∧
      Applies handlers (frames_path frames) (query name).2 d' ∧ d'.head.module_name = some m

theorem fits_iff {handlers : List (Str × Handler)} {path : Str} {name : Option Str × Option Str} {d : Setting} :
    fits handlers path name d = true ↔ Applies handlers path name.2 d := by
  simp [fits, module_fits, Applies, Option.any_eq_true]

theorem find_from_first (handlers : List (Str × Handler)) (path : Str) (name : Option Str × Option Str) (frames : List Frame) :
    find_from handlers path name frames = first (fits handlers path name) (frames.map Frame.settings) := by
  induction frames with
  | nil => rfl
  | cons f up ih =>
    cases hi : f.settings.findIdx? (fits handlers path name) with
    | some i => simp [find_from, first, hi]
    | none => simp [find_from, first, hi, ih]

/-- **The setting of a name**: it is the first one of the module exactly when none of another module comes before that. -/
theorem find_setting_iff (handlers : List (Str × Handler)) (frames : List Frame) (name : Str) :
    Finds handlers frames name (find_setting handlers frames name) ↔ Unshadowed handlers frames name := by
  have hfirst := isFirst_first (fits handlers (frames_path frames) (query name)) (frames.map Frame.settings)
  simp only [fits_iff] at hfirst
  unfold Finds find_setting Unshadowed
  rw [find_from_first, hfirst.and_iff]
  cases hm : (query name).1 with
  | none =>
    constructor
    · exact fun _ m h => by cases h
    · intro _ pos d _ _ hne
      exact absurd (fun m h => by cases h) hne
  | some m => simp only [Option.some.injEq, forall_eq']

/-! ## Runs -/

/-- a setting of any place -/
def any_foo (module_name : Str) : Handler := ⟨module_name, "foo".toList, [], [], 1, 4, .never, none⟩

def any_block : Handler := ⟨['m'], "block".toList, [], [], 0, 4, .always, none⟩

def head_of (name : String) (written : Option Str) (values : List ℕ) : Head := ⟨name.toList, written, none, some values, false, none⟩

/-- the configuration of these settings, with its root -/
def config_of (r : Registry) (settings : List Setting) : Config :=
  ⟨r.handlers, [], [], .block (head_of "::ROOT" (some "config".toList) []) [] settings⟩

/-- **A setting that does not inherit**: `foo` in the root block, and in a block there. -/
theorem not_inherited : ∃ r settings l, register_settings [any_foo ['m'], any_block] = some r ∧
    handle r (fun _ _ => .ok) none
      [.leaf (head_of "foo" none [0]), .block (head_of "block" none []) [] [.leaf (head_of "foo" none [1])]] = .ok settings ∧
    locate (config_of r settings) [1, 0] = some l ∧ Inherited l.head l.up (some (1, 0)) ∧
    ¬ Inherited l.head l.up (predecessor_at l.up) := by
  refine ⟨_, _, _, rfl, rfl, rfl, ?_⟩
  rw [and_iff_left_of_imp]
  · refine ⟨_, ⟨_, rfl, rfl⟩, rfl, ?_⟩
    rintro ⟨k, i⟩ d hlt ⟨l, hl, hd⟩ -
    obtain rfl : k = 0 := by
      unfold Before at hlt
      dsimp only at hlt
      omega
    cases hl
    cases hd
  · intro hin h
    cases IsFirst.unique hin h

/-- **A setting of another module**: `n:foo` behind `m:foo`. -/
theorem other_module : ∃ r settings, register_settings [any_foo ['m'], any_foo ['n']] = some r ∧
    handle r (fun _ _ => .ok) none [.leaf (head_of "foo" (some ['m']) [0]), .leaf (head_of "foo" (some ['n']) [1])] = .ok settings ∧
    find_setting r.handlers [⟨head_of "::ROOT" (some "config".toList) [], [], settings⟩] "n:foo".toList = some (0, 0) ∧
    ¬ Finds r.handlers [⟨head_of "::ROOT" (some "config".toList) [], [], settings⟩] "n:foo".toList (some (0, 0)) := by
  refine ⟨_, _, rfl, rfl, rfl, ?_⟩
  rintro ⟨d, ⟨l, hl, hd⟩, ⟨-, hmodule⟩, -⟩
  cases hl
  cases hd
  cases hmodule ['n'] rfl

end Shuttlesock.Settings
