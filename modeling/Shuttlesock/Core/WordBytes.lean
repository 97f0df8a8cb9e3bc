/-
The bytes of a 64 bit word, the lowest first. Library: nothing here is about shuttlesock.

`byte w i` is the byte i of w, `setByte w i x` the word with x for it, `clearLow w r` the word with zeros for the first r bytes.
- `word_ext`: a word is its eight bytes;
- `byte_setByte`, `byte_clearLow`: the bytes of the words made by the other two.
-/
import Mathlib.Tactic

namespace Shuttlesock.WordBytes

def byte (w : BitVec 64) (i : ℕ) : BitVec 8 := w.extractLsb' (8 * i) 8

def setByte (w : BitVec 64) (i : ℕ) (x : BitVec 8) : BitVec 64 := w &&& ~~~(0xff#64 <<< (8 * i)) ||| x.setWidth 64 <<< (8 * i)

def clearLow (w : BitVec 64) (r : ℕ) : BitVec 64 := w &&& ~~~(1#64 <<< (8 * r) - 1)

variable {w v : BitVec 64} {i j r : ℕ} {x : BitVec 8}

theorem getLsbD_byte (w : BitVec 64) (i : ℕ) {b : ℕ} (hb : b < 8) : (byte w i).getLsbD b = w.getLsbD (8 * i + b) := by
  rw [byte, BitVec.getLsbD_extractLsb', decide_eq_true hb, Bool.true_and]

theorem byte_eq_iff : byte w i = byte v j ↔ ∀ b < 8, w.getLsbD (8 * i + b) = v.getLsbD (8 * j + b) := by
  constructor
  · intro h b hb
    rw [← getLsbD_byte w i hb, ← getLsbD_byte v j hb, h]
  · intro h
    refine BitVec.eq_of_getLsbD_eq fun b hb => ?_
    rw [getLsbD_byte w i hb, getLsbD_byte v j hb]
    exact h b hb

@[simp] theorem byte_zero (i : ℕ) : byte 0 i = 0 := by simp [byte]

theorem word_ext (h : ∀ i < 8, byte w i = byte v i) : w = v := by
  refine BitVec.eq_of_getLsbD_eq fun k hk => ?_
  have hbit := byte_eq_iff.1 (h (k / 8) (by omega)) (k % 8) (Nat.mod_lt _ (by norm_num))
  rwa [Nat.div_add_mod] at hbit

theorem getLsbD_ff (k : ℕ) : (0xff#64).getLsbD k = decide (k < 8) := by
  have h : 0xff#64 = (BitVec.allOnes 8).setWidth 64 := by decide
  rw [h, BitVec.getLsbD_setWidth, BitVec.getLsbD_allOnes]
  by_cases hk : k < 8
  · simp [hk]
    omega
  · simp [hk]

theorem getLsbD_setByte (hi : i < 8) (k : ℕ) : (setByte w i x).getLsbD k =
    if 8 * i ≤ k ∧ k < 8 * i + 8 then x.getLsbD (k - 8 * i) else w.getLsbD k := by
  have hmask : (0xff#64 <<< (8 * i)).getLsbD k = decide (8 * i ≤ k ∧ k < 8 * i + 8) := by
    rw [BitVec.getLsbD_shiftLeft, getLsbD_ff, Bool.eq_iff_iff]
    simp only [Bool.and_eq_true, decide_eq_true_eq, Bool.not_eq_true', decide_eq_false_iff_not]
    omega
  rw [setByte, BitVec.getLsbD_or, BitVec.getLsbD_and, BitVec.getLsbD_not, hmask, BitVec.getLsbD_shiftLeft, BitVec.getLsbD_setWidth]
  split_ifs with h
  · have h1 : k < 64 := by omega
    have h2 : ¬ k < 8 * i := by omega
    have h3 : k - 8 * i < 64 := by omega
    simp [h, h1, h2, h3]
  · by_cases hk : k < 64
    · by_cases hki : k < 8 * i
      · simp [h, hk, hki]
      · have h8 : 8 ≤ k - 8 * i := by omega
        have hx : x.getLsbD (k - 8 * i) = false := BitVec.getLsbD_of_ge x _ h8
        simp [h, hk, hx]
    · have hw : w.getLsbD k = false := BitVec.getLsbD_of_ge w _ (by omega)
      simp [h, hk, hw]

theorem byte_setByte (hi : i < 8) : byte (setByte w i x) i = x := by
  refine BitVec.eq_of_getLsbD_eq fun b hb => ?_
  rw [getLsbD_byte _ _ hb, getLsbD_setByte hi, if_pos (by omega), Nat.add_sub_cancel_left]

theorem byte_setByte_ne (hi : i < 8) (h : j ≠ i) : byte (setByte w i x) j = byte w j := by
  refine byte_eq_iff.2 fun b hb => ?_
  rw [getLsbD_setByte hi, if_neg (by omega)]

theorem getLsbD_clearLow (hr : r < 8) (k : ℕ) : (clearLow w r).getLsbD k = if k < 8 * r then false else w.getLsbD k := by
  have hlt : 2 ^ (8 * r) < 2 ^ 64 := Nat.pow_lt_pow_right (by norm_num) (by omega)
  have hmask : 1#64 <<< (8 * r) - 1 = BitVec.ofNat 64 (2 ^ (8 * r) - 1) := by
    have hpos : 0 < 2 ^ (8 * r) := Nat.two_pow_pos _
    refine BitVec.eq_of_toNat_eq ?_
    rw [← BitVec.twoPow_eq]
    simp only [BitVec.toNat_sub, BitVec.toNat_twoPow, BitVec.toNat_ofNat]
    have h1 : (1 : BitVec 64).toNat = 1 := rfl
    rw [h1]
    omega
  rw [clearLow, BitVec.getLsbD_and, BitVec.getLsbD_not, hmask, BitVec.getLsbD_ofNat, Nat.testBit_two_pow_sub_one]
  by_cases hk : k < 64
  · split_ifs with h <;> simp [hk, h]
  · have hw : w.getLsbD k = false := BitVec.getLsbD_of_ge w _ (by omega)
    simp [hk, hw]

theorem byte_clearLow (hr : r < 8) : byte (clearLow w r) i = if i < r then 0 else byte w i := by
  refine BitVec.eq_of_getLsbD_eq fun b hb => ?_
  rw [getLsbD_byte _ _ hb, getLsbD_clearLow hr]
  split_ifs with h1 h2 h2
  · simp
  · omega
  · omega
  · exact (getLsbD_byte _ _ hb).symm

end Shuttlesock.WordBytes
