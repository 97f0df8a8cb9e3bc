/-
Instrings as tables: `instring:copy`, `instring:remove`, `instring:insert` and `instring:join_literal_tokens` of `instring.lua`.

The methods change the instring and its tokens in place; what is inserted is copied first. So a copy can be changed without a change
of what it was copied from, or of what was inserted.

Model: the tables of tokens, and those of instrings with references to their tokens, numbered as they are made. `none` is an error
that is raised: of a literal without a value that is joined, or of a table that does not exist.

Results:
- `join_loop_spec`: the loop of `join_literal_tokens`, told without tables.
- `substituted_spec`: a copy with a token replaced by the tokens of another instring; every table that was there is as it was.
-/
import Mathlib.Tactic
import Shuttlesock.Config.Substitution

namespace Shuttlesock.InstringHeap

open Shuttlesock.Settings (Token Instring join_literal_tokens concat_literals)

/-! ## Tables -/

structure Heap where
  tokens : List Token
  instrings : List (List ℕ)

/-- the tokens with these references -/
def Heap.Reads (h : Heap) (refs : List ℕ) (l : List Token) : Prop := refs.map (h.tokens[·]?) = l.map some

/-- the tokens of an instring -/
def Heap.Holds (h : Heap) (ins : ℕ) (l : List Token) : Prop := ∃ refs, h.instrings[ins]? = some refs ∧ h.Reads refs l

/-- the tables of h are in h' as they are in h -/
structure Extends (h h' : Heap) : Prop where
  tokens : h.tokens <+: h'.tokens
  instrings : h.instrings <+: h'.instrings

/-! ## The methods -/

/-- `deep_copy` of tokens -/
def copy_tokens (h : Heap) : List ℕ → Option (List ℕ × Heap)
  | [] => some ([], h)
  | t :: refs =>
    (h.tokens[t]?).bind fun token => (copy_tokens { h with tokens := h.tokens ++ [token] } refs).map fun p =>
      (h.tokens.length :: p.1, p.2)

def copy (h : Heap) (ins : ℕ) : Option (ℕ × Heap) :=
  (h.instrings[ins]?).bind fun refs => (copy_tokens h refs).map fun p =>
    (p.2.instrings.length, { p.2 with instrings := p.2.instrings ++ [p.1] })

def remove (h : Heap) (ins i : ℕ) : Option Heap :=
  (h.instrings[ins]?).map fun refs => { h with instrings := h.instrings.set ins (refs.eraseIdx i) }

/-- the loop, with the token before -/
def join_loop : ℕ → Heap → ℕ → ℕ → Option ℕ → Option Heap
  | 0, h, _, _, _ => some h
  | n + 1, h, ins, i, prev =>
    (h.instrings[ins]?).bind fun refs =>
      match refs[i]? with
      | none => some h
      | some cur =>
        match prev.bind fun p => h.tokens[p]?, h.tokens[cur]? with
        | some (.literal a), some (.literal b) =>
          (concat_literals (.literal a) (.literal b)).bind fun w =>
            join_loop n ⟨h.tokens.set (prev.getD 0) w, h.instrings.set ins (refs.eraseIdx i)⟩ ins i prev
        | _, _ => join_loop n h ins (i + 1) (some cur)

def join (h : Heap) (ins : ℕ) : Option Heap :=
  (h.instrings[ins]?).bind fun refs => join_loop (refs.length + 1) h ins 0 none

/-- the loop over the tokens of another instring -/
def insert_tokens (h : Heap) (ins position : ℕ) : List ℕ → Option Heap
  | [] => some h
  | t :: refs =>
    (h.tokens[t]?).bind fun token => (h.instrings[ins]?).bind fun tokens =>
      insert_tokens ⟨h.tokens ++ [token], h.instrings.set ins (tokens.insertIdx position h.tokens.length)⟩ ins (position + 1) refs

def insert (h : Heap) (ins position other : ℕ) : Option Heap :=
  (h.instrings[other]?).bind fun refs => (insert_tokens h ins position refs).bind fun h => join h ins

/-- what the loop over the tokens does with a variable: `ins:copy()`, `ins:remove(i)` and `ins:insert(i, other)` -/
def substituted (h : Heap) (ins i other : ℕ) : Option (ℕ × Heap) :=
  (copy h ins).bind fun p => (remove p.2 p.1 i).bind fun h => (insert h p.1 i other).map fun h => (p.1, h)

/-! ## Reading -/

variable {h h' h₀ : Heap} {refs refs' : List ℕ} {l l' m : List Token} {ins i : ℕ} {t : Token}

theorem Extends.refl (h : Heap) : Extends h h := ⟨List.prefix_refl _, List.prefix_refl _⟩

theorem Extends.trans {h'' : Heap} (h₁ : Extends h h') (h₂ : Extends h' h'') : Extends h h'' :=
  ⟨h₁.tokens.trans h₂.tokens, h₁.instrings.trans h₂.instrings⟩

theorem reads_nil : h.Reads [] [] := rfl

theorem reads_cons {r : ℕ} : h.Reads (r :: refs) (t :: l) ↔ h.tokens[r]? = some t ∧ h.Reads refs l := by
  simp [Heap.Reads]

theorem reads_append : h.Reads (refs ++ refs') m ↔ ∃ l l', m = l ++ l' ∧ h.Reads refs l ∧ h.Reads refs' l' := by
  unfold Heap.Reads
  constructor
  · intro hm
    rw [List.map_append, eq_comm, List.map_eq_append_iff] at hm
    obtain ⟨l, l', rfl, hl, hl'⟩ := hm
    exact ⟨l, l', rfl, hl.symm, hl'.symm⟩
  · rintro ⟨l, l', rfl, hl, hl'⟩
    rw [List.map_append, List.map_append, hl, hl']

theorem reads_length (hr : h.Reads refs l) : refs.length = l.length := by
  simpa using congrArg List.length hr

theorem reads_lt {r : ℕ} (hr : h.Reads refs l) (hmem : r ∈ refs) : r < h.tokens.length := by
  have hsome : h.tokens[r]? ∈ l.map some := hr ▸ List.mem_map_of_mem hmem
  obtain ⟨t, -, ht⟩ := List.mem_map.1 hsome
  exact (List.getElem?_eq_some_iff.1 ht.symm).1

theorem prefix_getElem {α : Type} {a b : List α} {k : ℕ} {x : α} (hp : a <+: b) (hk : a[k]? = some x) : b[k]? = some x := by
  obtain ⟨c, rfl⟩ := hp
  have hlt := (List.getElem?_eq_some_iff.1 hk).1
  rwa [List.getElem?_append_left hlt]

/-- what is read stays, when the tokens do -/
theorem reads_mono (hp : h.tokens <+: h'.tokens) (hr : h.Reads refs l) : h'.Reads refs l := by
  induction refs generalizing l with
  | nil => exact hr
  | cons r refs ih =>
    cases l with
    | nil => simp [Heap.Reads] at hr
    | cons t l =>
      obtain ⟨ht, hl⟩ := reads_cons.1 hr
      exact reads_cons.2 ⟨prefix_getElem hp ht, ih hl⟩

theorem Heap.Holds.mono (he : Extends h h') (hl : h.Holds ins l) : h'.Holds ins l := by
  obtain ⟨refs, hrefs, hr⟩ := hl
  exact ⟨refs, prefix_getElem he.instrings hrefs, reads_mono he.tokens hr⟩

/-- the tokens that are read stay when another one is changed -/
theorem reads_set {r : ℕ} (hr : h.Reads refs l) (hnot : r ∉ refs) (t : Token) (instrings : List (List ℕ)) :
    Heap.Reads ⟨h.tokens.set r t, instrings⟩ refs l := by
  unfold Heap.Reads at hr ⊢
  rw [← hr]
  refine List.map_congr_left fun k hk => ?_
  have hne : r ≠ k := by
    rintro rfl
    exact hnot hk
  exact List.getElem?_set_ne hne

/-! ## A copy -/

/-- the copy of an instring: the last one, with tokens of its own -/
structure Own (h₀ h : Heap) (refs : List ℕ) : Prop where
  instrings : h.instrings = h₀.instrings ++ [refs]
  tokens : h₀.tokens <+: h.tokens
  above : ∀ t ∈ refs, h₀.tokens.length ≤ t
  nodup : refs.Nodup

theorem Own.read (ho : Own h₀ h refs) : h.instrings[h₀.instrings.length]? = some refs := by
  rw [ho.instrings]
  simp

theorem Own.extends (ho : Own h₀ h refs) : Extends h₀ h := by
  refine ⟨ho.tokens, ?_⟩
  rw [ho.instrings]
  exact List.prefix_append _ _

theorem Own.set (ho : Own h₀ h refs) (refs' : List ℕ) :
    h.instrings.set h₀.instrings.length refs' = h₀.instrings ++ [refs'] := by
  rw [ho.instrings, List.set_append_right _ _ le_rfl, Nat.sub_self]
  rfl

theorem copy_tokens_spec (hr : h.Reads refs l) :
    copy_tokens h refs = some (List.range' h.tokens.length l.length, { h with tokens := h.tokens ++ l }) := by
  induction refs generalizing h l with
  | nil =>
    cases l with
    | nil => simp [copy_tokens]
    | cons t l => simp [Heap.Reads] at hr
  | cons r refs ih =>
    cases l with
    | nil => simp [Heap.Reads] at hr
    | cons t l =>
      obtain ⟨ht, hl⟩ := reads_cons.1 hr
      have hnext : Heap.Reads { h with tokens := h.tokens ++ [t] } refs l := reads_mono (List.prefix_append _ _) hl
      unfold copy_tokens
      rw [ht, Option.bind_some, ih hnext]
      simp [List.range'_succ]

theorem reads_range (h : Heap) (l : List Token) :
    Heap.Reads { h with tokens := h.tokens ++ l } (List.range' h.tokens.length l.length) l := by
  unfold Heap.Reads
  refine List.ext_getElem (by simp) fun k hk hk' => ?_
  have hlt : k < l.length := by simpa using hk'
  simp [hlt]

theorem copy_spec (hl : h.Holds ins l) : ∃ h' refs, copy h ins = some (h.instrings.length, h') ∧ Own h h' refs ∧ h'.Reads refs l := by
  obtain ⟨refs, hrefs, hr⟩ := hl
  refine ⟨⟨h.tokens ++ l, h.instrings ++ [List.range' h.tokens.length l.length]⟩, List.range' h.tokens.length l.length, ?_,
    ⟨rfl, List.prefix_append _ _, ?_, List.nodup_range'⟩, ?_⟩
  · unfold copy
    rw [hrefs, Option.bind_some, copy_tokens_spec hr]
    rfl
  · intro t ht
    exact (List.mem_range'_1.1 ht).1
  · exact reads_range h l

theorem remove_spec (ho : Own h₀ h refs) (hr : h.Reads refs l) (i : ℕ) :
    ∃ h', remove h h₀.instrings.length i = some h' ∧ Own h₀ h' (refs.eraseIdx i) ∧ h'.Reads (refs.eraseIdx i) (l.eraseIdx i) := by
  refine ⟨⟨h.tokens, h₀.instrings ++ [refs.eraseIdx i]⟩, ?_, ⟨rfl, ho.tokens, fun t ht => ?_, ?_⟩, ?_⟩
  · unfold remove
    rw [ho.read, Option.map_some, ho.set]
  · exact ho.above t ((List.eraseIdx_sublist refs i).subset ht)
  · exact ho.nodup.sublist (List.eraseIdx_sublist refs i)
  · unfold Heap.Reads at hr ⊢
    rw [← List.eraseIdx_map, ← List.eraseIdx_map, hr]

theorem insertIdx_between {α : Type} (before after : List α) (x : α) :
    (before ++ after).insertIdx before.length x = (before ++ [x]) ++ after := by
  induction before with
  | nil => rfl
  | cons y before ih => simpa using ih

/-- tokens of another instring are put between those of the copy -/
theorem insert_tokens_spec {orefs before after : List ℕ} {a m b : List Token} (hi : before.length = i)
    (ho : Own h₀ h (before ++ after)) (hbefore : h.Reads before a) (hafter : h.Reads after b) (hm : h₀.Reads orefs m) :
    ∃ h' refs', insert_tokens h h₀.instrings.length i orefs = some h' ∧ Own h₀ h' refs' ∧ h'.Reads refs' (a ++ (m ++ b)) := by
  induction orefs generalizing h before a m i with
  | nil =>
    cases m with
    | nil => exact ⟨h, before ++ after, rfl, ho, reads_append.2 ⟨a, b, rfl, hbefore, hafter⟩⟩
    | cons t m => simp [Heap.Reads] at hm
  | cons r orefs ih =>
    cases m with
    | nil => simp [Heap.Reads] at hm
    | cons t m =>
      obtain ⟨ht, hm⟩ := reads_cons.1 hm
      have hpre : h.tokens <+: h.tokens ++ [t] := List.prefix_append _ _
      have hnew : (h.tokens ++ [t])[h.tokens.length]? = some t := by simp
      have hinsert := insertIdx_between before after h.tokens.length
      rw [hi] at hinsert
      have hfresh : h.tokens.length ∉ before ++ after := fun hmem =>
        lt_irrefl _ (reads_lt (reads_append.2 ⟨a, b, rfl, hbefore, hafter⟩) hmem)
      have hperm : ((before ++ [h.tokens.length]) ++ after).Perm (h.tokens.length :: (before ++ after)) := by
        simp
      have ho' : Own h₀ ⟨h.tokens ++ [t], h₀.instrings ++ [(before ++ [h.tokens.length]) ++ after]⟩
          ((before ++ [h.tokens.length]) ++ after) := by
        refine ⟨rfl, ho.tokens.trans hpre, fun k hk => ?_, hperm.nodup_iff.2 (List.nodup_cons.2 ⟨hfresh, ho.nodup⟩)⟩
        rcases List.mem_cons.1 (hperm.mem_iff.1 hk) with rfl | hk
        · exact ho.tokens.length_le
        · exact ho.above k hk
      obtain ⟨h', refs', hres, hown, hreads⟩ := ih (a := a ++ [t]) (i := i + 1) (by simp [hi]) ho'
        (reads_append.2 ⟨a, [t], rfl, reads_mono hpre hbefore, reads_cons.2 ⟨hnew, reads_nil⟩⟩) (reads_mono hpre hafter) hm
      refine ⟨h', refs', ?_, hown, by simpa using hreads⟩
      unfold insert_tokens
      rw [prefix_getElem ho.tokens ht, Option.bind_some, ho.read, Option.bind_some, hinsert, ho.set]
      exact hres

/-! ## Joining -/

theorem join_none_left (a : List Token) (h : join_literal_tokens l = none) : join_literal_tokens (a ++ l) = none := by
  induction a with
  | nil => exact h
  | cons t a ih => rw [List.cons_append, Settings.join_cons_eq, ih, Option.bind_none]

/-- two literals that cannot be joined -/
theorem join_middle_none {p c : Option MatchPath.Str} (a r : List Token)
    (h : concat_literals (.literal p) (.literal c) = none) :
    join_literal_tokens (a ++ .literal p :: .literal c :: r) = none := by
  apply join_none_left
  rw [Settings.join_cons_eq, Settings.join_cons_eq]
  cases join_literal_tokens r with
  | none => rfl
  | some r =>
    match p, c, r with
    | none, none, [] => rfl
    | none, none, .literal _ :: _ => rfl
    | none, none, .var _ _ :: _ => rfl
    | none, some _, [] => rfl
    | none, some _, .literal none :: _ => rfl
    | none, some _, .literal (some _) :: _ => rfl
    | none, some _, .var _ _ :: _ => rfl
    | some _, none, [] => rfl
    | some _, none, .literal _ :: _ => rfl
    | some _, none, .var _ _ :: _ => rfl
    | some _, some _, _ => cases h

theorem joined_last {a : List Token} {t w : Token} (h : Settings.Joined (a ++ [t])) (hw : w.isLiteral = t.isLiteral) :
    Settings.Joined (a ++ [w]) := by
  unfold Settings.Joined at h ⊢
  rw [List.isChain_append] at h ⊢
  simpa [hw] using h

theorem joined_concat {a : List Token} {t c : Token} (h : Settings.Joined (a ++ [t])) (hc : ¬ (t.isLiteral ∧ c.isLiteral)) :
    Settings.Joined (a ++ [t] ++ [c]) := by
  unfold Settings.Joined at h ⊢
  rw [List.isChain_append]
  exact ⟨h, List.isChain_singleton c, by simpa using hc⟩

theorem prefix_set {α : Type} {a b : List α} {k : ℕ} (hp : a <+: b) (hk : a.length ≤ k) (x : α) : a <+: b.set k x := by
  obtain ⟨c, rfl⟩ := hp
  rw [List.set_append_right _ _ hk]
  exact List.prefix_append _ _

/-- what the loop makes of what it has gone over and the rest -/
structure JoinsTo (h₀ : Heap) (r : Option Heap) (l : List Token) : Prop where
  some : ∀ l', join_literal_tokens l = some l' → ∃ h' refs', r = some h' ∧ Own h₀ h' refs' ∧ h'.Reads refs' l'
  none : join_literal_tokens l = none → r = none

/-- the token p is written and the one behind it is taken out -/
theorem own_joined {done rest : List ℕ} {p c : ℕ} {d r : List Token} (w : Token) (ho : Own h₀ h (done ++ [p] ++ c :: rest))
    (hbound : p < h.tokens.length) (hdone : h.Reads done d) (hrest : h.Reads rest r) :
    Own h₀ ⟨h.tokens.set p w, h₀.instrings ++ [done ++ [p] ++ rest]⟩ (done ++ [p] ++ rest) ∧
      Heap.Reads ⟨h.tokens.set p w, h₀.instrings ++ [done ++ [p] ++ rest]⟩ (done ++ [p]) (d ++ [w]) ∧
      Heap.Reads ⟨h.tokens.set p w, h₀.instrings ++ [done ++ [p] ++ rest]⟩ rest r := by
  have hnotin : p ∉ done ∧ p ∉ rest ∧ (done ++ [p] ++ rest).Nodup := by
    have hnodup := ho.nodup
    grind
  have hself : (h.tokens.set p w)[p]? = some w := by simp [hbound]
  refine ⟨⟨rfl, prefix_set ho.tokens (ho.above p (by simp)) w, fun t ht => ho.above t ?_, hnotin.2.2⟩, ?_,
    reads_set hrest hnotin.2.1 w _⟩
  · simp only [List.mem_append, List.mem_cons] at ht ⊢
    tauto
  · exact reads_append.2 ⟨d, [w], rfl, reads_set hdone hnotin.1 w _, reads_cons.2 ⟨hself, reads_nil⟩⟩

/-- **The loop of `join_literal_tokens`** -/
theorem join_loop_spec {n : ℕ} {done rest : List ℕ} {d r : List Token} (hn : rest.length < n) (ho : Own h₀ h (done ++ rest))
    (hd : h.Reads done d) (hr : h.Reads rest r) (hj : Settings.Joined d) :
    JoinsTo h₀ (join_loop n h h₀.instrings.length done.length done.getLast?) (d ++ r) := by
  induction n generalizing h done rest d r with
  | zero => exact absurd hn (Nat.not_lt_zero _)
  | succ n ih =>
    unfold join_loop
    rw [ho.read, Option.bind_some]
    cases rest with
    | nil =>
      have hread : (done ++ [])[done.length]? = none := by simp
      rw [hread]
      cases r with
      | cons t r => simp [Heap.Reads] at hr
      | nil =>
        simp only [List.append_nil] at ho ⊢
        have hself := Settings.join_self hj
        refine ⟨fun l' hl' => ⟨h, done, rfl, ho, ?_⟩, fun hnone => ?_⟩
        · rw [hself] at hl'
          cases hl'
          exact hd
        · rw [hself] at hnone
          cases hnone
    | cons c rest =>
      cases r with
      | nil => simp [Heap.Reads] at hr
      | cons tc r =>
        obtain ⟨hc, hrest⟩ := reads_cons.1 hr
        have hlen : rest.length < n := by simpa using hn
        have hcur : (done ++ c :: rest)[done.length]? = some c := by simp
        rw [hcur]
        dsimp only
        rw [hc]
        -- the token is gone over
        have hpass (hnext : Settings.Joined (d ++ [tc])) :
            JoinsTo h₀ (join_loop n h h₀.instrings.length (done.length + 1) (some c)) (d ++ tc :: r) := by
          have hmove : done ++ c :: rest = (done ++ [c]) ++ rest := by simp
          rw [hmove] at ho
          have hread : h.Reads (done ++ [c]) (d ++ [tc]) := reads_append.2 ⟨d, [tc], rfl, hd, reads_cons.2 ⟨hc, reads_nil⟩⟩
          simpa using ih hlen ho hread hrest hnext
        rcases List.eq_nil_or_concat' done with rfl | ⟨done, p, rfl⟩
        · obtain rfl : d = [] := List.length_eq_zero_iff.1 (reads_length hd).symm
          exact hpass (List.isChain_singleton tc)
        · obtain ⟨d, d', rfl, hdone, hp⟩ := reads_append.1 hd
          obtain ⟨tp, rfl⟩ := List.length_eq_one_iff.1 (reads_length hp).symm
          have htp := (reads_cons.1 hp).1
          have hlast : (done ++ [p]).getLast? = some p := by simp
          rw [hlast, Option.bind_some, htp]
          cases tp with
          | var name params => exact hpass (joined_concat hj (by simp [Token.isLiteral]))
          | literal a =>
          cases tc with
          | var name params => exact hpass (joined_concat hj (by simp [Token.isLiteral]))
          | literal b =>
            -- the two are joined, into the table of the first one
            dsimp only
            cases hw : concat_literals (.literal a) (.literal b) with
            | none =>
              have hnone : join_literal_tokens (d ++ [.literal a] ++ .literal b :: r) = none := by
                simpa using join_middle_none d r hw
              refine ⟨fun l' hl' => ?_, fun _ => rfl⟩
              rw [hnone] at hl'
              cases hl'
            | some w =>
              have herase : (done ++ [p] ++ c :: rest).eraseIdx (done ++ [p]).length = done ++ [p] ++ rest := by
                rw [List.eraseIdx_append_of_length_le le_rfl, Nat.sub_self, List.eraseIdx_cons_zero]
              have hbound : p < h.tokens.length := (List.getElem?_eq_some_iff.1 htp).1
              obtain ⟨ho', hd', hrest'⟩ := own_joined w ho hbound hdone hrest
              have hjoin : join_literal_tokens (d ++ [.literal a] ++ .literal b :: r) = join_literal_tokens (d ++ [w] ++ r) := by
                simpa using Settings.join_prefix (Settings.join_concat hw r) d
              have hnext := ih hlen ho' hd' hrest' (joined_last hj (Settings.concat_literal hw))
              rw [hlast] at hnext
              rw [Option.bind_some, herase, ho.set, Option.getD_some]
              exact ⟨fun l' hl' => hnext.some l' (hjoin ▸ hl'), fun hnone => hnext.none (hjoin ▸ hnone)⟩

/-! ## A variable is replaced -/

/-- the tokens around a removed one -/
theorem reads_erase (hr : h.Reads refs l) (hi : i < l.length) : ∃ before after, refs.eraseIdx i = before ++ after ∧
    before.length = i ∧ h.Reads before (l.take i) ∧ h.Reads after (l.drop (i + 1)) := by
  refine ⟨refs.take i, refs.drop (i + 1), List.eraseIdx_eq_take_drop_succ refs i, ?_, ?_, ?_⟩
  · rw [← reads_length hr] at hi
    exact List.length_take_of_le hi.le
  · unfold Heap.Reads at hr ⊢
    rw [List.map_take, List.map_take, hr]
  · unfold Heap.Reads at hr ⊢
    rw [List.map_drop, List.map_drop, hr]

theorem join_spec (ho : Own h₀ h refs) (hr : h.Reads refs l) : JoinsTo h₀ (join h h₀.instrings.length) l := by
  have hnil : h.Reads [] [] := reads_nil
  have hloop := join_loop_spec (Nat.lt_succ_self refs.length) (by exact ho) hnil hr List.isChain_nil
  unfold join
  rw [ho.read, Option.bind_some]
  exact hloop

theorem replace_none {ins ins₀ : Instring} (hn : ins.replace i ins₀ = none) :
    join_literal_tokens (ins.tokens.take i ++ (ins₀.tokens ++ ins.tokens.drop (i + 1))) = none := by
  unfold Instring.replace at hn
  split at hn
  · cases hn
  · assumption

/-- **A replacement in a copy**, and the tables that were there before -/
theorem substituted_spec {other : ℕ} {ins ins₀ : Instring} {r : ℕ} (hins : h.Holds r ins.tokens) (hi : i < ins.tokens.length)
    (hother : h.Holds other ins₀.tokens) :
    (∀ ins', ins.replace i ins₀ = some ins' →
      ∃ h', substituted h r i other = some (h.instrings.length, h') ∧ Extends h h' ∧ h'.Holds h.instrings.length ins'.tokens) ∧
    (ins.replace i ins₀ = none → substituted h r i other = none) := by
  obtain ⟨h₁, refs₁, hcopy, ho₁, hr₁⟩ := copy_spec hins
  obtain ⟨h₂, hremove, ho₂, -⟩ := remove_spec ho₁ hr₁ i
  obtain ⟨orefs, horefs, hm⟩ := hother
  have hread₂ : h₂.tokens = h₁.tokens := by
    unfold remove at hremove
    rw [ho₁.read] at hremove
    cases hremove
    rfl
  obtain ⟨before, after, heq, hlen, hbefore, hafter⟩ := reads_erase hr₁ hi
  rw [heq] at ho₂
  have hpre : h₁.tokens <+: h₂.tokens := hread₂ ▸ List.prefix_refl _
  obtain ⟨h₃, refs₃, hinsert, ho₃, hr₃⟩ :=
    insert_tokens_spec hlen ho₂ (reads_mono hpre hbefore) (reads_mono hpre hafter) hm
  have hjoin := join_spec ho₃ hr₃
  have hcall : substituted h r i other = (join h₃ h.instrings.length).map fun h' => (h.instrings.length, h') := by
    have horefs₂ : h₂.instrings[other]? = some orefs := prefix_getElem ho₂.extends.instrings horefs
    unfold substituted insert
    rw [hcopy, Option.bind_some, hremove, Option.bind_some, horefs₂, Option.bind_some, hinsert, Option.bind_some]
  rw [hcall]
  constructor
  · intro ins' hrep
    obtain ⟨h', refs', hres, ho', hr'⟩ := hjoin.some _ (Settings.replace_some hrep)
    exact ⟨h', by rw [hres]; rfl, ho'.extends, refs', ho'.read, hr'⟩
  · intro hnone
    rw [hjoin.none (replace_none hnone)]
    rfl

end Shuttlesock.InstringHeap
