/-
The parameters of a variable in C: `instring_token_variable_lua_to_c` of `instring.c`.

Model: a token of Lua with its name and its list of parameters; it has no `module_name` and no `value`. The rest of the world is the
input: what `find_variable` answers, whether `eval` succeeds, and which allocation finds no memory. Memory is that of `Core/Cells.lean`, and
what `shuso_palloc` gives is a block of the size that is asked for. A call ends with the variable, or with an error and its text, or with a
store past a block, or with a read through a null pointer.

The array of the parameters is allocated with the size of one pointer.

Results:
- `params_loop_past`: the loop leaves the array when there is no room for all that is left.
- `stored_iff`: exactly for which tokens all parameters are stored, inside what was allocated.
- `not_stored`: two parameters.
-/
import Mathlib.Tactic
import Shuttlesock.Core.Cells

namespace Shuttlesock.InstringParams

open Shuttlesock.Cells

abbrev Str := List Char

/-! ## The model -/

structure Token where
  name : Str
  params : List Str
deriving DecidableEq

/-- what `find_variable` returns -/
structure Found where
  eval : ℕ
  privdata : Option ℕ
  constant : Bool

structure Env where
  setting : ℕ
  block : ℕ
  /-- the variable, or nil with an error that may be nil too -/
  find_variable : Str → Except (Option String) Found
  /-- `var->eval` -/
  evaluates : Bool
  /-- whether `shuso_palloc` finds no memory, when there are so many blocks -/
  no_memory : ℕ → Bool

/-- `shuso_variable_t` -/
structure Variable where
  module : Option ℕ
  setting : ℕ
  block : ℕ
  name : ℕ
  array : Option ℕ
  size : ℕ
  eval : ℕ
  privdata : Option ℕ
deriving DecidableEq

inductive Outcome (α : Type) where
  | ok (a : α)
  | error (text : String)
  | past
  | null
deriving DecidableEq

def Outcome.bind {α β : Type} : Outcome α → (α → Outcome β) → Outcome β
  | .ok a, f => f a
  | .error text, _ => .error text
  | .past, _ => .past
  | .null, _ => .null

@[simp] theorem Outcome.ok_bind {α β : Type} (a : α) (f : α → Outcome β) : (Outcome.ok a).bind f = f a := rfl

@[simp] theorem Outcome.error_bind {α β : Type} (text : String) (f : α → Outcome β) : (Outcome.error text).bind f = .error text := rfl

@[simp] theorem Outcome.past_bind {α β : Type} (f : α → Outcome β) : Outcome.past.bind f = .past := rfl

def int (n : ℕ) : ℤ := (n : ℤ).bmod (2 ^ 32)

def size_t (i : ℤ) : ℕ := (i % 2 ^ 64).toNat

def shuso_palloc (env : Env) (m : Memory) (n : ℕ) (err : String) : Outcome (ℕ × Memory) :=
  if env.no_memory m.blocks.length then .error err else .ok (m.alloc n)

def write (m : Memory) (b i : ℕ) (xs : List Cell) : Outcome Memory :=
  match m.store b i xs with
  | some m => .ok m
  | none => .past

def strcpy (m : Memory) (b : ℕ) (str : Str) : Outcome Memory := write m b 0 (string (c_string str))

/-- the loop over the parameters, from j on -/
def params_loop (env : Env) (array : ℕ) : ℕ → List Str → Memory → Outcome Memory
  | _, [], m => .ok m
  | j, str :: params, m =>
    (shuso_palloc env m (str.length + 1) "no memory for instring variable index").bind fun (b, m) =>
      (write m array (8 * j) (pointer b)).bind fun m =>
        (strcpy m b str).bind fun m => params_loop env array (j + 1) params m

/-- the array with the parameters -/
def array_to_c (env : Env) (params : List Str) (var : Variable) (m : Memory) : Outcome (Variable × Memory) :=
  (shuso_palloc env m 8 "no memory for instring variable index array").bind fun (array, m) =>
    (params_loop env array 0 params m).bind fun m => .ok ({ var with array := some array }, m)

/-- `var->params` -/
def params_to_c (env : Env) (params : List Str) (var : Variable) (m : Memory) : Outcome (Variable × Memory) :=
  let params_count := int params.length
  let var := { var with size := size_t params_count }
  if 0 < params_count then array_to_c env (params.take params_count.toNat) var m else .ok (var, m)

/-- `instring_token_literal_lua_to_c` with a token that has no value -/
def literal_lua_to_c (env : Env) (m : Memory) : Outcome (Variable × Memory) :=
  (shuso_palloc env m 1 "no memory for instring literal").bind fun _ => .null

/-- what comes after the parameters; the text has no argument for %s -/
def constant_to_c (env : Env) (constant : Bool) (var : Variable) (m : Memory) : Outcome (Variable × Memory) :=
  if constant then
    if env.evaluates then literal_lua_to_c env m else .error "constant variable $%s evaluation failed"
  else .ok (var, m)

/-- the fields of the variable before its parameters; there is no module -/
def variable_fields (env : Env) (found : Found) (old : Variable) (name : ℕ) : Variable :=
  { old with
    module := none
    setting := env.setting
    block := env.block
    name := name
    eval := found.eval
    privdata := if found.privdata.isSome then found.privdata else old.privdata }

/-- `instring_token_variable_lua_to_c`, with what was in the memory of the token -/
def instring_token_variable_lua_to_c (env : Env) (token : Token) (old : Variable) (m : Memory) : Outcome (Variable × Memory) :=
  match env.find_variable token.name with
  | .error err => .error (err.getD "unable to find variable for unknown reason")
  | .ok found =>
    (shuso_palloc env m ((c_string token.name).length + 1) "no memory for instring variable name").bind fun (name, m) =>
      (strcpy m name token.name).bind fun m =>
        (params_to_c env token.params (variable_fields env found old name) m).bind fun (var, m) =>
          constant_to_c env found.constant var m

/-! ## The property -/

/-- each parameter at its index -/
structure Params (params : List Str) (var : Variable) (m : Memory) : Prop where
  size : var.size = params.length
  array : ∀ j str, params[j]? = some str → ∃ array cells b string, var.array = some array ∧ m.blocks[array]? = some cells ∧
    pointer_at cells (8 * j) = some b ∧ m.blocks[b]? = some string ∧ text string = some str

/-- **The property** of a token: whatever the rest of the world does, no store goes past an allocation, and when the parameters are
converted, each is stored at its index. -/
structure Stored (token : Token) : Prop where
  inside : ∀ env old m, instring_token_variable_lua_to_c env token old m ≠ .past
  params : ∀ env var m var' m', params_to_c env token.params var m = .ok (var', m') → Params token.params var' m'

/-- **The condition** -/
def Few (token : Token) : Prop := token.params.length ≤ 1 ∧ ∀ str ∈ token.params, '\x00' ∉ str

/-! ## Stores -/

theorem write_fits {m : Memory} {b : ℕ} {cells : List Cell} (h : m.blocks[b]? = some cells) (i : ℕ) (xs : List Cell)
    (hfit : i + xs.length ≤ cells.length) :
    write m b i xs = .ok ⟨m.blocks.set b (cells.take i ++ xs ++ cells.drop (i + xs.length))⟩ := by
  rw [write, exists_store h hfit]

theorem write_past {m : Memory} {b : ℕ} {cells : List Cell} (h : m.blocks[b]? = some cells) (i : ℕ) (xs : List Cell)
    (hpast : cells.length < i + xs.length) :
    write m b i xs = .past := by
  rw [write, store_past h hpast]

theorem strcpy_fits {m : Memory} {b : ℕ} {str : Str} {cells : List Cell} (h : m.blocks[b]? = some cells)
    (hfit : (c_string str).length + 1 ≤ cells.length) :
    strcpy m b str = .ok ⟨m.blocks.set b (string (c_string str) ++ cells.drop ((c_string str).length + 1))⟩ := by
  have hlen : (string (c_string str)).length = (c_string str).length + 1 := string_length _
  have hw := write_fits h 0 (string (c_string str)) (by omega)
  rwa [List.take_zero, List.nil_append, Nat.zero_add, hlen] at hw

theorem shuso_palloc_ok {env : Env} {m : Memory} (h : env.no_memory m.blocks.length = false) (n : ℕ) (err : String) :
    shuso_palloc env m n err = .ok (m.alloc n) := by
  simp [shuso_palloc, h]

/-- one parameter, when there is room for its pointer: the blocks that are there afterwards -/
theorem params_loop_step {env : Env} {array j : ℕ} {m : Memory} {cells : List Cell}
    (henv : env.no_memory m.blocks.length = false) (str : Str) (params : List Str) (h : m.blocks[array]? = some cells)
    (hfit : 8 * j + 8 ≤ cells.length) :
    params_loop env array j (str :: params) m = params_loop env array (j + 1) params
      ⟨m.blocks.set array (cells.take (8 * j) ++ pointer m.blocks.length ++ cells.drop (8 * j + 8)) ++
        [string (c_string str) ++ List.replicate (str.length - (c_string str).length) .undefined]⟩ := by
  obtain ⟨harray, -⟩ := List.getElem?_eq_some_iff.1 h
  have hwrite := write_fits (alloc_get (str.length + 1) h) (8 * j) (pointer m.blocks.length)
    (by rw [pointer_length]; exact hfit)
  rw [pointer_length, alloc_blocks, List.set_append_left _ _ harray] at hwrite
  rw [params_loop, shuso_palloc_ok henv]
  simp only [Outcome.ok_bind, alloc_block]
  rw [hwrite, Outcome.ok_bind]
  -- the block of the string is the last one
  set front := m.blocks.set array (cells.take (8 * j) ++ pointer m.blocks.length ++ cells.drop (8 * j + 8)) with hfront
  have hlen : front.length = m.blocks.length := List.length_set
  have hnew : (front ++ [List.replicate (str.length + 1) Cell.undefined])[m.blocks.length]? =
      some (List.replicate (str.length + 1) Cell.undefined) := by simp [← hlen]
  have hle := c_string_length_le str
  rw [strcpy_fits (m := ⟨_⟩) hnew (by simpa using hle), Outcome.ok_bind]
  simp only [← hlen, List.set_append_right _ _ le_rfl, Nat.sub_self, List.set_cons_zero, List.drop_replicate, Nat.add_sub_add_right]

/-- **The loop leaves the array** when what is left does not fit. -/
theorem params_loop_past {env : Env} (henv : ∀ n, env.no_memory n = false) {array j : ℕ} {params : List Str} {m : Memory}
    {cells : List Cell} (h : m.blocks[array]? = some cells) (hne : params ≠ []) (hpast : cells.length < 8 * (j + params.length)) :
    params_loop env array j params m = .past := by
  induction params generalizing j m cells with
  | nil => exact absurd rfl hne
  | cons str params ih =>
    by_cases hfit : 8 * j + 8 ≤ cells.length
    · obtain ⟨harray, -⟩ := List.getElem?_eq_some_iff.1 h
      rw [params_loop_step (henv _) str params h hfit]
      refine ih (List.getElem?_append_left (by simpa using harray) |>.trans (List.getElem?_set_self harray)) ?_ ?_
      · rintro rfl
        simp only [List.length_singleton] at hpast
        omega
      · simp only [List.length_append, List.length_take, List.length_drop, pointer_length, List.length_cons] at hpast ⊢
        omega
    · have hwrite := write_past (alloc_get (str.length + 1) h) (8 * j) (pointer m.blocks.length) (by simp; omega)
      rw [params_loop, shuso_palloc_ok (henv _)]
      simp only [Outcome.ok_bind, alloc_block]
      rw [hwrite, Outcome.past_bind]

/-! ## One parameter -/

/-- **One parameter is stored**, up to its first null byte. -/
theorem array_to_c_single {env : Env} (str : Str) (var : Variable) {m : Memory} (h1 : env.no_memory m.blocks.length = false)
    (h2 : env.no_memory (m.blocks.length + 1) = false) :
    array_to_c env [str] var m = .ok ({ var with array := some m.blocks.length },
      ⟨m.blocks ++ [pointer (m.blocks.length + 1),
        string (c_string str) ++ List.replicate (str.length - (c_string str).length) .undefined]⟩) := by
  have harray := alloc_new m 8
  have hcells : (List.replicate 8 Cell.undefined).length = 8 := List.length_replicate
  have hlen : (m.alloc 8).2.blocks.length = m.blocks.length + 1 := by simp
  have hstep := params_loop_step (j := 0) (by rwa [hlen]) str [] harray (by rw [hcells])
  rw [array_to_c, shuso_palloc_ok h1]
  simp only [Outcome.ok_bind, alloc_block]
  rw [hstep]
  simp [params_loop]

theorem array_to_c_error {env : Env} (str : Str) (var : Variable) {m : Memory}
    (h : env.no_memory m.blocks.length = true ∨ env.no_memory (m.blocks.length + 1) = true) :
    ∃ err, array_to_c env [str] var m = .error err := by
  cases h1 : env.no_memory m.blocks.length with
  | true => exact ⟨"no memory for instring variable index array", by simp [array_to_c, shuso_palloc, h1]⟩
  | false =>
    have h2 : env.no_memory (m.blocks.length + 1) = true := h.resolve_left (by simp [h1])
    exact ⟨"no memory for instring variable index", by simp [array_to_c, shuso_palloc, h1, h2, params_loop]⟩

/-- the loop leaves the array of one pointer -/
theorem array_to_c_past {env : Env} (henv : ∀ n, env.no_memory n = false) {params : List Str} (h : 2 ≤ params.length) (var : Variable)
    (m : Memory) : array_to_c env params var m = .past := by
  have hcells : (List.replicate 8 Cell.undefined).length = 8 := List.length_replicate
  have hne : params ≠ [] := List.ne_nil_of_length_pos (by omega)
  have hloop := params_loop_past henv (j := 0) (alloc_new m 8) hne (by rw [hcells]; omega)
  rw [array_to_c, shuso_palloc_ok (henv _)]
  simp only [Outcome.ok_bind, alloc_block]
  rw [hloop, Outcome.past_bind]

theorem params_to_c_single (env : Env) {params : List Str} {str : Str} (var : Variable) (m : Memory) (hint : int params.length = 1)
    (hparams : params.take 1 = [str]) : params_to_c env params var m = array_to_c env [str] { var with size := 1 } m := by
  rw [params_to_c, hint, if_pos one_pos, Int.toNat_one, hparams]
  rfl

theorem params_of_single {str : Str} (var : Variable) (m : Memory) (h : '\x00' ∉ str) (rest : List Cell) :
    Params [str] { var with size := 1, array := some m.blocks.length }
      ⟨m.blocks ++ [pointer (m.blocks.length + 1), string (c_string str) ++ rest]⟩ := by
  refine ⟨rfl, fun j str' hj => ?_⟩
  obtain ⟨rfl, rfl⟩ : j = 0 ∧ str' = str := by
    cases j with
    | zero => simpa [eq_comm] using hj
    | succ j => simp at hj
  refine ⟨m.blocks.length, pointer (m.blocks.length + 1), m.blocks.length + 1, string (c_string str') ++ rest, rfl, ?_,
    pointer_at_cells _, ?_, ?_⟩
  · simp
  · simp
  · rw [text_string (not_mem_c_string _), c_string_eq h]

theorem int_one : int 1 = 1 := by decide

theorem int_le (n : ℕ) : int n ≤ n := by
  have h := Int.bmod_lt (x := (n : ℤ)) (m := 2 ^ 32) (by norm_num)
  by_cases hn : n < 2 ^ 31
  · exact (Int.bmod_eq_of_le (by omega) (by omega)).le
  · unfold int
    omega

theorem params_to_c_nil (env : Env) (var : Variable) (m : Memory) : params_to_c env [] var m = .ok ({ var with size := 0 }, m) := rfl

/-! ## When all parameters are stored -/

/-- the parameters of the tokens for which it goes well -/
theorem params_to_c_few {token : Token} (h : Few token) (env : Env) (var : Variable) (m : Memory) :
    (∃ err, params_to_c env token.params var m = .error err) ∨
      ∃ var' m', params_to_c env token.params var m = .ok (var', m') ∧ Params token.params var' m' := by
  obtain ⟨hlen, hnull⟩ := h
  cases hp : token.params with
  | nil => exact .inr ⟨_, m, params_to_c_nil env var m, rfl, fun j str hj => by simp at hj⟩
  | cons str params =>
    rw [hp, List.length_cons] at hlen
    obtain rfl : params = [] := List.length_eq_zero_iff.1 (by omega)
    have hint : int [str].length = 1 := by rw [List.length_singleton, int_one]
    rw [params_to_c_single env var m hint rfl]
    by_cases hmem : env.no_memory m.blocks.length = true ∨ env.no_memory (m.blocks.length + 1) = true
    · exact .inl (array_to_c_error str _ hmem)
    · simp only [not_or, Bool.not_eq_true] at hmem
      exact .inr ⟨_, _, array_to_c_single str _ hmem.1 hmem.2,
        params_of_single var m (hnull str (hp ▸ List.mem_cons_self)) _⟩

/-- a variable that is found and has room for its name goes on with the parameters -/
theorem variable_found {env : Env} {token : Token} {found : Found} (old : Variable) {m : Memory}
    (hfound : env.find_variable token.name = .ok found) (hmem : env.no_memory m.blocks.length = false) :
    ∃ var m', instring_token_variable_lua_to_c env token old m =
      (params_to_c env token.params var m').bind fun (var, m) => constant_to_c env found.constant var m := by
  have hfit : (c_string token.name).length + 1 ≤ (List.replicate ((c_string token.name).length + 1) Cell.undefined).length := by
    rw [List.length_replicate]
  unfold instring_token_variable_lua_to_c
  rw [hfound]
  simp only [shuso_palloc_ok hmem, Outcome.ok_bind, alloc_block]
  rw [strcpy_fits (alloc_new m _) hfit, Outcome.ok_bind]
  exact ⟨variable_fields env found old m.blocks.length, _, rfl⟩

theorem constant_past (env : Env) (constant : Bool) (var : Variable) (m : Memory) : constant_to_c env constant var m ≠ .past := by
  cases constant with
  | false => simp [constant_to_c]
  | true =>
    cases he : env.evaluates with
    | false => simp [constant_to_c, he]
    | true =>
      cases hm : env.no_memory m.blocks.length with
      | true => simp [constant_to_c, he, literal_lua_to_c, shuso_palloc, hm]
      | false => simp [constant_to_c, he, literal_lua_to_c, shuso_palloc, hm]

theorem few_inside {token : Token} (h : Few token) (env : Env) (old : Variable) (m : Memory) :
    instring_token_variable_lua_to_c env token old m ≠ .past := by
  cases hfound : env.find_variable token.name with
  | error err => simp [instring_token_variable_lua_to_c, hfound]
  | ok found =>
    cases hmem : env.no_memory m.blocks.length with
    | true => simp [instring_token_variable_lua_to_c, hfound, shuso_palloc, hmem]
    | false =>
      obtain ⟨var, m', heq⟩ := variable_found old hfound hmem
      rw [heq]
      rcases params_to_c_few h env var m' with ⟨err, he⟩ | ⟨var', m'', hok, -⟩
      · simp [he]
      · rw [hok]
        exact constant_past env found.constant var' m''

/-- the world in which nothing fails -/
def easy : Env := ⟨0, 0, fun _ => .ok ⟨0, none, false⟩, true, fun _ => false⟩

def unset : Variable := ⟨none, 0, 0, 0, none, 0, 0, none⟩

theorem easy_memory (n : ℕ) : easy.no_memory n = false := rfl

theorem easy_past {token : Token} (h : 2 ≤ int token.params.length) (var : Variable) (m : Memory) :
    params_to_c easy token.params var m = .past := by
  have hle := int_le token.params.length
  have hpos : 0 < int token.params.length := by omega
  rw [params_to_c, if_pos hpos]
  apply array_to_c_past easy_memory
  rw [List.length_take]
  omega

/-- **More than one parameter** -/
theorem many_not_stored {token : Token} (h : 2 ≤ token.params.length) : ¬ Stored token := by
  intro hs
  rcases lt_trichotomy (int token.params.length) 1 with hint | hint | hint
  · -- there is no array
    have hnone : ¬ 0 < int token.params.length := by omega
    have hok : params_to_c easy token.params unset ⟨[]⟩ = .ok ({ unset with size := size_t (int token.params.length) }, ⟨[]⟩) := by
      rw [params_to_c, if_neg hnone]
    obtain ⟨str, hstr⟩ : ∃ str, token.params[0]? = some str := ⟨_, List.getElem?_eq_getElem (by omega)⟩
    obtain ⟨array, _, _, _, harray, -⟩ := (hs.params easy unset ⟨[]⟩ _ _ hok).array 0 str hstr
    cases harray
  · -- the size is 1
    obtain ⟨str, hstr⟩ : ∃ str, token.params.take 1 = [str] := by
      rw [← List.length_eq_one_iff, List.length_take]
      omega
    have hok := (params_to_c_single easy unset ⟨[]⟩ hint hstr).trans (array_to_c_single str _ (easy_memory _) (easy_memory _))
    have hsize := (hs.params easy unset ⟨[]⟩ _ _ hok).size
    simp only at hsize
    omega
  · -- the second pointer does not fit
    have hfound : easy.find_variable token.name = .ok ⟨0, none, false⟩ := rfl
    obtain ⟨var, m', heq⟩ := variable_found (m := ⟨[]⟩) unset hfound (easy_memory _)
    exact hs.inside easy unset ⟨[]⟩ (by rw [heq, easy_past (by omega), Outcome.past_bind])

/-- what is read of a parameter with a null byte is shorter -/
theorem null_not_stored {token : Token} {str : Str} (hp : token.params = [str]) (hs : Stored token) : '\x00' ∉ str := by
  have hok : params_to_c easy token.params unset ⟨[]⟩ = .ok _ :=
    (params_to_c_single easy unset ⟨[]⟩ (by rw [hp]; exact int_one) (by rw [hp]; rfl)).trans
      (array_to_c_single str _ (easy_memory _) (easy_memory _))
  obtain ⟨array, cells, b, string, harray, hcells, hb, hstring, htext⟩ :=
    (hs.params easy unset ⟨[]⟩ _ _ hok).array 0 str (by rw [hp]; rfl)
  cases harray
  cases hcells
  obtain rfl := Option.some.inj ((pointer_at_cells 1).symm.trans hb)
  cases hstring
  rw [text_string (not_mem_c_string str)] at htext
  exact Option.some.inj htext ▸ not_mem_c_string str

/-- **When all parameters are stored.** -/
theorem stored_iff (token : Token) : Stored token ↔ Few token := by
  constructor
  · intro hs
    have hlen : token.params.length ≤ 1 := by
      by_contra hlen
      exact many_not_stored (by omega) hs
    refine ⟨hlen, fun str hstr => ?_⟩
    obtain ⟨str', hp⟩ := List.length_eq_one_iff.1 (le_antisymm hlen (List.length_pos_of_mem hstr))
    rw [hp, List.mem_singleton] at hstr
    exact null_not_stored (hstr ▸ hp) hs
  · intro h
    refine ⟨few_inside h, fun env var m var' m' hok => ?_⟩
    rcases params_to_c_few h env var m with ⟨err, he⟩ | ⟨var'', m'', hok', hp⟩
    · simp [he] at hok
    · rw [hok'] at hok
      cases hok
      exact hp

/-- two parameters: the second pointer goes past the array -/
theorem not_stored : ∃ token, ¬ Stored token ∧ instring_token_variable_lua_to_c easy token unset ⟨[]⟩ = .past := by
  have hpast : instring_token_variable_lua_to_c easy ⟨"x".toList, ["a".toList, "b".toList]⟩ unset ⟨[]⟩ = .past := by decide +kernel
  exact ⟨_, fun hs => hs.inside easy unset ⟨[]⟩ hpast, hpast⟩

end Shuttlesock.InstringParams
