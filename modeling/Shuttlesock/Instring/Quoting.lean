/-
A string that is written between double quotes, and read back: the parser of the configuration, `Instring.parse`, and
`luaS_instring_lua_to_c_generic` of `instring.c`.

Model: `backslashed s` is s with a backslash in front of every backslash, double quote and dollar. It is written as a value of
some setting, in any configuration that is printed from a tree of settings.

Results:
- `parse_backslashed`: the tokens are one literal with the string, and none for the empty string.
- `literal_to_c`: a literal is converted when its length does not fail the assertion on iovecs.
- `round_trip_iff`: the string comes back, and is converted, exactly when it is not empty and shorter than 1000 bytes.
- `no_round_trip`: the empty string, and one of 1000 bytes.
-/
import Mathlib.Tactic
import Shuttlesock.Config.ParserPrint
import Shuttlesock.Config.Register
import Shuttlesock.Instring.Coherence

namespace Shuttlesock.Quoting

open Shuttlesock.Parser (Str Node Line Escaped Prints Same ShowsLine Value quoted)
open Shuttlesock.InstringParse (Piece push parse_loop next_match ordinary)
open Shuttlesock.Register (instring_of_value)
open Shuttlesock.Instrings (Numbers Instring Kind luaS_instring_lua_to_c value)

/-! ## Writing -/

/-- what a backslash is written in front of -/
def special (c : Char) : Bool := c = '\\' || c = '"' || c = '$'

def backslashed (s : Str) : Str := s.flatMap fun c => if special c then ['\\', c] else [c]

/-- v is a value of one of the settings -/
inductive Occurs (v : Char × Str) : List Node → Prop
  | leaf {l : Line} {nodes : List Node} : v ∈ l.values → Occurs v (.leaf l :: nodes)
  | block {l : Line} {settings nodes : List Node} : v ∈ l.values → Occurs v (.block l settings :: nodes)
  | inside {l : Line} {settings nodes : List Node} : Occurs v settings → Occurs v (.block l settings :: nodes)
  | later {node : Node} {nodes : List Node} : Occurs v nodes → Occurs v (node :: nodes)

section Writing

variable {c : Char} {s t : Str}

@[simp] theorem backslashed_nil : backslashed [] = [] := rfl

theorem backslashed_special (hc : special c = true) (t : Str) : backslashed (c :: t) = '\\' :: c :: backslashed t := by
  simp [backslashed, hc]

theorem backslashed_plain (hc : special c = false) (t : Str) : backslashed (c :: t) = c :: backslashed t := by
  simp [backslashed, hc]

theorem backslashed_append (s t : Str) : backslashed (s ++ t) = backslashed s ++ backslashed t := List.flatMap_append

/-- a run without special characters is written as it is -/
theorem backslashed_run (hs : ∀ c ∈ s, special c = false) : backslashed s = s := by
  induction s with
  | nil => rfl
  | cons c s ih =>
    rw [backslashed_plain (hs c List.mem_cons_self), ih fun d hd => hs d (List.mem_cons_of_mem c hd)]

/-- no quote ends the string -/
theorem escaped_backslashed (s : Str) : Escaped '"' (backslashed s) := by
  induction s with
  | nil => exact .nil
  | cons c s ih =>
    cases hc : special c with
    | true =>
      rw [backslashed_special hc]
      exact .escape ih
    | false =>
      rw [backslashed_plain hc]
      simp [special] at hc
      exact .plain hc.1.2 hc.1.1 ih

/-- a value can be written behind the others of a setting -/
theorem line_ok {l : Line} (hl : l.Ok) (s : Str) : Line.Ok { l with values := l.values ++ [('"', backslashed s)] } := by
  refine ⟨hl.name, hl.module_name, fun v hv => ?_⟩
  rcases List.mem_append.1 hv with hv | hv
  · exact hl.values v hv
  · rw [List.mem_singleton.1 hv]
    exact ⟨.inr rfl, escaped_backslashed s⟩

/-- a value of the tree is one that the parser returns -/
theorem occurs_quoted {values : List Value} {owner n m : ℕ} {settings : List Parser.Setting} {nodes : List Node}
    {v : Char × Str} (hsame : Same values owner n settings nodes m) (hv : Occurs v nodes) : quoted v ∈ values := by
  have hline : ∀ {h : Parser.Head} {l : Line}, ShowsLine values h l → v ∈ l.values → quoted v ∈ values := by
    intro h l hshows hmem
    have hsome : some (quoted v) ∈ h.values.map (fun i => values[i]?) := by
      rw [hshows.values]
      exact List.mem_map_of_mem hmem
    obtain ⟨i, -, hi⟩ := List.mem_map.1 hsome
    exact List.mem_of_getElem? hi
  induction hsame with
  | nil => cases hv
  | leaf _ _ hshows _ ih =>
    cases hv with
    | leaf hmem => exact hline hshows hmem
    | later hv => exact ih hv
  | block _ _ hshows _ _ ih ih' =>
    cases hv with
    | block hmem => exact hline hshows hmem
    | inside hv => exact ih hv
    | later hv => exact ih' hv

end Writing

/-! ## Reading -/

section Reading

variable {c : Char} {s w r : Str}

theorem ordinary_of_plain (hc : special c = false) : ordinary c = true := by
  simp [special] at hc
  exact InstringParse.ordinary_iff.2 ⟨hc.2, hc.1.1⟩

/-- a run up to the next special character is one literal -/
theorem next_match_run (hw : ∀ c ∈ w, special c = false) (hne : w ≠ []) (hr : ∀ c t, r = c :: t → special c = true) :
    next_match (w ++ backslashed r) = .token (.literal (some w)) w.length := by
  have hsome : Parser.some_of ordinary (w ++ backslashed r) = some w := by
    refine Parser.some_of_split (fun c hc => ordinary_of_plain (hw c hc)) hne fun c t heq => ?_
    cases r with
    | nil => cases heq
    | cons d r =>
      rw [backslashed_special (hr d r rfl)] at heq
      cases heq
      rfl
  obtain ⟨c, t, rfl⟩ := List.exists_cons_of_ne_nil hne
  obtain ⟨hdollar, hslash⟩ := InstringParse.ordinary_iff.1 (ordinary_of_plain (hw c List.mem_cons_self))
  have hvariable : InstringParse.variable_token (c :: t ++ backslashed r) = .absent := by
    unfold InstringParse.variable_token
    rw [List.cons_append, Parser.parse_variable_absent hdollar]
  unfold next_match
  rw [hvariable, List.cons_append, InstringParse.escape_absent hslash, ← List.cons_append]
  unfold InstringParse.literal
  rw [hsome]
  rfl

/-- the string is not empty: a first part of it is read as a literal -/
theorem next_match_backslashed (hne : s ≠ []) : ∃ w r len, s = w ++ r ∧ w ≠ [] ∧ 0 < len ∧
    next_match (backslashed s) = .token (.literal (some w)) len ∧ (backslashed s).drop len = backslashed r := by
  obtain ⟨c, t, rfl⟩ := List.exists_cons_of_ne_nil hne
  cases hc : special c with
  | true =>
    refine ⟨[c], t, 2, rfl, List.cons_ne_nil _ _, by decide, ?_, ?_⟩
    · rw [backslashed_special hc]
      simp [special] at hc
      rcases hc with (rfl | rfl) | rfl <;> rfl
    · rw [backslashed_special hc]
      rfl
  | false =>
    have hsplit : (c :: t).takeWhile (fun c => !special c) ++ (c :: t).dropWhile (fun c => !special c) = c :: t :=
      List.takeWhile_append_dropWhile
    have hw : ∀ d ∈ (c :: t).takeWhile (fun c => !special c), special d = false := fun d hd => by
      simpa using List.mem_takeWhile_imp hd
    have hwne : (c :: t).takeWhile (fun c => !special c) ≠ [] := by simp [hc]
    have hr : ∀ d u, (c :: t).dropWhile (fun c => !special c) = d :: u → special d = true := by
      intro d u heq
      have hhead := List.head?_dropWhile_not (fun c => !special c) (c :: t)
      rw [heq] at hhead
      simpa using hhead
    have htext : backslashed (c :: t) = (c :: t).takeWhile (fun c => !special c) ++
        backslashed ((c :: t).dropWhile fun c => !special c) := by
      conv_lhs => rw [← hsplit]
      rw [backslashed_append, backslashed_run hw]
    refine ⟨_, _, _, hsplit.symm, hwne, List.length_pos_of_ne_nil hwne, ?_, ?_⟩
    · rw [htext]
      exact next_match_run hw hwne hr
    · rw [htext, List.drop_left]

/-- the loop puts the parts behind the last literal, one after the other -/
theorem loop_backslashed {n : ℕ} (ps : List Piece) (hn : (backslashed s).length ≤ n) (hne : s ≠ []) :
    parse_loop n (ps.map Piece.token) (backslashed s) = .instring ((push ps (.literal s)).map Piece.token) := by
  induction n generalizing s ps with
  | zero =>
    obtain ⟨w, r, len, -, -, -, hnext, -⟩ := next_match_backslashed hne
    rw [List.length_eq_zero_iff.1 (Nat.le_zero.1 hn)] at hnext
    cases hnext
  | succ n ih =>
    obtain ⟨w, r, len, rfl, hw, hlen, hnext, hdrop⟩ := next_match_backslashed hne
    have htext : backslashed (w ++ r) ≠ [] := by
      intro hnil
      rw [hnil] at hnext
      cases hnext
    have hadd := InstringParse.add_token_push ps (.literal w)
    rw [InstringParse.parse_loop_add htext n hnext hadd, hdrop]
    by_cases hr : r = []
    · rw [hr, backslashed_nil, InstringParse.parse_loop_nil, List.append_nil]
    · have hle : (backslashed r).length ≤ n := by
        have hpos := List.length_pos_of_ne_nil htext
        rw [← hdrop, List.length_drop]
        omega
      rw [ih (push ps (.literal w)) hle hr, InstringParse.push_push]

/-- **Reading back.** A string is one literal, and the empty string is no token. -/
theorem parse_backslashed (s : Str) : instring_of_value (quoted ('"', backslashed s)) =
    .instring (if s = [] then [] else [.literal (some s)]) := by
  have hloop : instring_of_value (quoted ('"', backslashed s)) =
      parse_loop (backslashed s).length ([].map Piece.token) (backslashed s) := rfl
  rw [hloop]
  split_ifs with hs
  · rw [hs]
    rfl
  · rw [loop_backslashed [] (Nat.le_refl _) hs]
    rfl

end Reading

/-! ## The conversion -/

section Conversion

variable {Num : Type*} {P : Numbers Num} {eval : ℕ → Option Str} {reg : Refs.Table Str} {x : Instring Num} {s : Str}

/-- a query on a literal that was not asked for this kind fails on its length, or changes the cache for this kind only -/
theorem value_literal (k : Kind) (hzero : Instrings.varcount x.tokens = 0) (hiov : x.iov = [s])
    (hmark : (x.cached k).mark = .unknown) :
    (1000 ≤ s.length → value P k eval reg x = none) ∧
      (s.length < 1000 → ∃ x' ret, value P k eval reg x = some (reg, x', ret) ∧ x'.tokens = x.tokens ∧ x'.iov = x.iov ∧
        ∀ k', k' ≠ k → x'.cached k' = x.cached k') := by
  have hinterpolate : Instrings.shuso_instring_interpolate eval reg x = (reg, x) := by
    unfold Instrings.shuso_instring_interpolate
    rw [if_pos hzero]
  unfold value
  rw [hinterpolate]
  dsimp only
  rw [hmark, hiov]
  unfold Instrings.luaS_push_iovec_as_string
  constructor
  · intro hlen
    rw [if_neg (by simpa using hlen)]
    rfl
  · intro hlen
    rw [if_pos (by simpa using hlen), Option.bind_some]
    dsimp only
    cases P.convert k [s].flatten with
    | none => exact ⟨_, _, rfl, rfl, hiov, fun k' hk' => Function.update_of_ne hk' ..⟩
    | some v => exact ⟨_, _, rfl, rfl, hiov, fun k' hk' => Function.update_of_ne hk' ..⟩

/-- **A literal is converted** when no assertion fails on its length. -/
theorem literal_to_c (P : Numbers Num) (reg : Refs.Table Str) (s : Str) :
    (∃ r, luaS_instring_lua_to_c P [.literal s] reg = some r) ↔ s.length < 1000 := by
  have hzero : Instrings.varcount [.literal s] = 0 := rfl
  obtain ⟨x, hx, hzero, hiov, hmark⟩ : ∃ x : Instring Num,
      x = { (⟨[.literal s], [s], fun _ => ⟨.unknown, none⟩, none⟩ : Instring Num).store .string ⟨.valid, some (.string s)⟩
        with string_lua_ref := some (reg.ref s).2 } ∧
      Instrings.varcount x.tokens = 0 ∧ x.iov = [s] ∧ ∀ k, k ≠ Kind.string → (x.cached k).mark = .unknown := by
    refine ⟨_, rfl, rfl, rfl, fun k hk => ?_⟩
    unfold Instring.store
    dsimp only
    rw [Function.update_of_ne hk]
  have hquery : luaS_instring_lua_to_c P [.literal s] reg =
      (value P .boolean (fun _ => none) (reg.ref s).1 x).bind fun r =>
        (value P .integer (fun _ => none) r.1 r.2.1).bind fun r =>
          (value P .number (fun _ => none) r.1 r.2.1).bind fun r =>
            (value P .size (fun _ => none) r.1 r.2.1).map fun r => (r.1, r.2.1) := by
    rw [hx]
    rfl
  rw [hquery]
  constructor
  · rintro ⟨r, hr⟩
    by_contra hlen
    rw [(value_literal .boolean hzero hiov (hmark _ (by decide))).1 (Nat.le_of_not_lt hlen)] at hr
    cases hr
  · intro hlen
    obtain ⟨x₁, r₁, h₁, ht₁, hi₁, hc₁⟩ := (value_literal .boolean hzero hiov (hmark _ (by decide))).2 hlen
    obtain ⟨x₂, r₂, h₂, ht₂, hi₂, hc₂⟩ := (value_literal .integer (ht₁ ▸ hzero) (hi₁.trans hiov)
      (by rw [hc₁ _ (by decide)]; exact hmark _ (by decide))).2 hlen
    obtain ⟨x₃, r₃, h₃, ht₃, hi₃, hc₃⟩ := (value_literal .number (ht₂ ▸ ht₁ ▸ hzero) (hi₂.trans (hi₁.trans hiov))
      (by rw [hc₂ _ (by decide), hc₁ _ (by decide)]; exact hmark _ (by decide))).2 hlen
    obtain ⟨x₄, r₄, h₄, -⟩ := (value_literal .size (ht₃ ▸ ht₂ ▸ ht₁ ▸ hzero) (hi₃.trans (hi₂.trans (hi₁.trans hiov)))
      (by rw [hc₃ _ (by decide), hc₂ _ (by decide), hc₁ _ (by decide)]; exact hmark _ (by decide))).2 hlen
    rw [h₁, Option.bind_some, h₂, Option.bind_some, h₃, Option.bind_some, h₄]
    exact ⟨_, rfl⟩

end Conversion

/-! ## The round trip -/

/-- **The property**: the value is one literal with the string, and its conversion fails no assertion -/
structure Round_trip {Num : Type*} (P : Numbers Num) (reg : Refs.Table Str) (v : Value) (s : Str) : Prop where
  instring : instring_of_value v = .instring [.literal (some s)]
  converted : ∃ r, luaS_instring_lua_to_c P [.literal s] reg = some r

theorem round_trip_quoted {Num : Type*} (P : Numbers Num) (reg : Refs.Table Str) (s : Str) :
    Round_trip P reg (quoted ('"', backslashed s)) s ↔ s ≠ [] ∧ s.length < 1000 := by
  constructor
  · rintro ⟨hinstring, hconverted⟩
    refine ⟨fun hs => ?_, (literal_to_c P reg s).1 hconverted⟩
    rw [parse_backslashed, if_pos hs] at hinstring
    cases hinstring
  · rintro ⟨hs, hlen⟩
    refine ⟨?_, (literal_to_c P reg s).2 hlen⟩
    rw [parse_backslashed, if_neg hs]

/-- **Quoting.** Wherever a string is written as a value of a setting, the parser returns it in that place, and it is read back
and converted exactly when it is not empty and shorter than 1000 bytes. -/
theorem round_trip_iff {Num : Type*} (P : Numbers Num) (reg : Refs.Table Str) (s : Str) {nodes : List Node} {text : Str}
    (h : Prints nodes text) (hs : Occurs ('"', backslashed s) nodes) :
    ∃ root settings values m, Parser.parse text = .root (.block root settings) values ∧
      Same values 0 1 settings nodes m ∧ quoted ('"', backslashed s) ∈ values ∧
      (Round_trip P reg (quoted ('"', backslashed s)) s ↔ s ≠ [] ∧ s.length < 1000) := by
  obtain ⟨settings, values, m, hparse, hsame⟩ := Parser.root_of_prints h
  exact ⟨_, settings, values, m, hparse, hsame, occurs_quoted hsame hs, round_trip_quoted P reg s⟩

/-- every string can be written, behind the other values of any setting -/
theorem writable {l : Line} (hl : l.Ok) (s : Str) : ∃ nodes text, Prints nodes text ∧ Occurs ('"', backslashed s) nodes :=
  ⟨_, _, Parser.prints_print (.leaf (line_ok hl s) .nil), .leaf (List.mem_append_right _ List.mem_cons_self)⟩

/-- `a "..";` -/
def one_value (s : Str) : List Node := [.leaf ⟨none, ['a'], [('"', backslashed s)]⟩]

theorem prints_one_value (s : Str) : Prints (one_value s) (Parser.print (one_value s)) := by
  have hname : Line.Ok ⟨none, ['a'], []⟩ := ⟨⟨List.cons_ne_nil _ _, List.all_eq_true.1 rfl⟩, nofun, nofun⟩
  exact Parser.prints_print (.leaf (line_ok hname s) .nil)

theorem round_trip_iff_dollar : ∃ root settings values m,
    Parser.parse (Parser.print (one_value "x$".toList)) = .root (.block root settings) values ∧
      Same values 0 1 settings (one_value "x$".toList) m ∧ quoted ('"', backslashed "x$".toList) ∈ values ∧
      (Round_trip Instrings.decimal (Instrings.start 0) (quoted ('"', backslashed "x$".toList)) "x$".toList ↔
        "x$".toList ≠ [] ∧ "x$".toList.length < 1000) :=
  round_trip_iff _ _ _ (prints_one_value _) (.leaf List.mem_cons_self)

/-- the empty string has no token, and an assertion fails on it and on a string of 1000 bytes -/
theorem no_round_trip : (∃ root, Parser.parse "a \"\";".toList = .root root [quoted ('"', [])]) ∧
    instring_of_value (quoted ('"', [])) = .instring [] ∧
    luaS_instring_lua_to_c Instrings.decimal [] (Instrings.start 0) = none ∧
    luaS_instring_lua_to_c Instrings.decimal [.literal (List.replicate 1000 'x')] (Instrings.start 0) = none ∧
    ¬ ∀ s, Round_trip Instrings.decimal (Instrings.start 0) (quoted ('"', backslashed s)) s := by
  refine ⟨⟨_, rfl⟩, rfl, rfl, ?_, fun hall => ?_⟩
  · by_contra hne
    have hlen := (literal_to_c _ _ _).1 (Option.ne_none_iff_exists'.1 hne)
    rw [List.length_replicate] at hlen
    exact absurd hlen (Nat.lt_irrefl 1000)
  · have hinstring := (hall []).instring
    rw [parse_backslashed, if_pos rfl] at hinstring
    cases hinstring

end Shuttlesock.Quoting
