import Mathlib.Data.BitVec
import Mathlib.Data.Nat.Bitwise
import Mathlib.Tactic.Ring

/-!
# Numbers as lists of words

A list of words, the least significant first, is the number with these digits at base `2 ^ W`. The lemmas read
the number's bits out of the words, and its low and high parts out of the list's.
-/

open List BitVec Nat

namespace Tir.Words

variable {W : Nat}

/-- The number a list of words spells. -/
def value : List (BitVec W) → Nat
 | [] => 0
 | w :: ws => w.toNat + 2 ^ W * value ws

@[simp] theorem value_nil : value ([] : List (BitVec W)) = 0 := rfl

@[simp] theorem value_cons (w : BitVec W) (ws : List (BitVec W)) : value (w :: ws) = w.toNat + 2 ^ W * value ws := rfl

theorem value_append (ws vs : List (BitVec W)) : value (ws ++ vs) = value ws + 2 ^ (W * ws.length) * value vs := by
 induction ws with
 | nil => simp
 | cons w ws ih =>
  rw [List.cons_append, value_cons, value_cons, ih, length_cons, Nat.mul_succ, pow_add]
  ring

theorem value_lt (ws : List (BitVec W)) : value ws < 2 ^ (W * ws.length) := by
 induction ws with
 | nil => simp
 | cons w ws ih =>
  have hmul := Nat.mul_le_mul_left (2 ^ W) (show value ws + 1 ≤ 2 ^ (W * ws.length) from ih)
  rw [value_cons, length_cons, Nat.mul_succ, pow_add, mul_comm (2 ^ (W * ws.length))]
  rw [Nat.mul_succ] at hmul
  omega

@[simp] theorem value_replicate_zero (n : Nat) : value (List.replicate n 0#W) = 0 := by
  induction n with
  | zero => rfl
  | succ n ih => rw [List.replicate_succ, value_cons, ih, Nat.mul_zero, toNat_zero]

theorem value_replicate_ones (n : Nat) : value (List.replicate n (allOnes W)) + 1 = 2 ^ (W * n) := by
 induction n with
 | zero => rfl
 | succ n ih =>
  have hpos := Nat.two_pow_pos W
  rw [List.replicate_succ, value_cons, toNat_allOnes, Nat.mul_succ, pow_add, ← ih]
  rw [mul_comm _ (2 ^ W), Nat.mul_succ]
  omega

theorem value_take (ws : List (BitVec W)) (n : Nat) : value (ws.take n) = value ws % 2 ^ (W * n) := by
 have hsplit := value_append (ws.take n) (ws.drop n)
 rw [take_append_drop] at hsplit
 by_cases hn : n ≤ ws.length
 · have hlt := value_lt (ws.take n)
   rw [length_take_of_le hn] at hsplit hlt
   rw [hsplit, add_mul_mod_self_left, mod_eq_of_lt hlt]
 · have hle : W * ws.length ≤ W * n := Nat.mul_le_mul_left W (by omega)
   rw [take_of_length_le (by omega), mod_eq_of_lt]
   exact (value_lt ws).trans_le (Nat.pow_le_pow_right (by decide) hle)

theorem value_drop (ws : List (BitVec W)) (n : Nat) : value (ws.drop n) = value ws / 2 ^ (W * n) := by
 have hsplit := value_append (ws.take n) (ws.drop n)
 rw [take_append_drop] at hsplit
 by_cases hn : n ≤ ws.length
 · have hlt := value_lt (ws.take n)
   rw [length_take_of_le hn] at hsplit hlt
   rw [hsplit, add_mul_div_left _ _ (Nat.two_pow_pos _), div_eq_of_lt hlt, zero_add]
 · have hle : W * ws.length ≤ W * n := Nat.mul_le_mul_left W (by omega)
   rw [drop_eq_nil_of_le (by omega), div_eq_of_lt, value_nil]
   exact (value_lt ws).trans_le (Nat.pow_le_pow_right (by decide) hle)

theorem value_eq_zero (ws : List (BitVec W)) : value ws = 0 ↔ ∀ w ∈ ws, w = 0#W := by
 induction ws with
 | nil => simp
 | cons w ws ih =>
  have hpow : (2 : Nat) ^ W ≠ 0 := ne_of_gt (Nat.two_pow_pos W)
  rw [value_cons, Nat.add_eq_zero_iff, Nat.mul_eq_zero, or_iff_right hpow, ih, forall_mem_cons]
  rw [← toNat_inj]
  rfl

/-! ## Bits -/

section Bits

variable (hW : 0 < W)

include hW

/-- A bit of the number is a bit of the word it lies in. -/
theorem testBit_value (ws : List (BitVec W)) (i : Nat) : (value ws).testBit i = (ws.getD (i / W) 0#W).getLsbD (i % W) := by
 induction ws generalizing i with
 | nil => simp
 | cons w ws ih =>
  rw [value_cons, add_comm, testBit_two_pow_mul_add _ w.isLt]
  by_cases hi : i < W
  · rw [if_pos hi, div_eq_of_lt hi, mod_eq_of_lt hi]
    rfl
  · obtain ⟨k, rfl⟩ : ∃ k, i = k + W := ⟨i - W, by omega⟩
    rw [if_neg hi, ih, Nat.add_sub_cancel, add_div_right k hW, add_mod_right]
    rfl

theorem testBit_range_map (n : Nat) (f : Nat → BitVec W) (i : Nat) :
  (value ((List.range n).map f)).testBit i = (decide (i < W * n) && (f (i / W)).getLsbD (i % W)) := by
 have hlt : i / W < n ↔ i < W * n := by rw [Nat.div_lt_iff_lt_mul hW, mul_comm]
 rw [testBit_value hW]
 by_cases hi : i / W < n
 · simp [hlt.mp hi, getElem?_range hi]
 · simp [show ¬ i < W * n from fun h => hi (hlt.mpr h), not_lt.1 hi]

/-- The words of two lists of one length combined bit by bit. -/
theorem testBit_zipWith {ws vs : List (BitVec W)} (hlen : ws.length = vs.length) (f : BitVec W → BitVec W → BitVec W) (i : Nat) :
  (value (List.zipWith f ws vs)).testBit i
   = (decide (i < W * ws.length) && (f (ws.getD (i / W) 0#W) (vs.getD (i / W) 0#W)).getLsbD (i % W)) := by
 have hlt : i / W < ws.length ↔ i < W * ws.length := by rw [Nat.div_lt_iff_lt_mul hW, mul_comm]
 rw [testBit_value hW]
 simp only [getD_eq_getElem?_getD, getElem?_zipWith]
 by_cases hi : i / W < ws.length
 · simp [hlt.mp hi, List.getElem?_eq_getElem hi, List.getElem?_eq_getElem (hlen ▸ hi)]
 · simp [show ¬ i < W * ws.length from fun h => hi (hlt.mpr h), List.getElem?_eq_none (not_lt.1 hi)]

end Bits

/-! ## One word changed -/

theorem value_modify (ws : List (BitVec W)) (f : BitVec W → BitVec W) {i : Nat} (hi : i < ws.length) :
  value (ws.modify i f) + 2 ^ (W * i) * (ws.getD i 0#W).toNat = value ws + 2 ^ (W * i) * (f (ws.getD i 0#W)).toNat := by
 induction ws generalizing i with
 | nil => exact absurd hi (Nat.not_lt_zero i)
 | cons w ws ih =>
  cases i with
  | zero => simp; omega
  | succ i =>
   have hrest := congrArg (2 ^ W * ·) (ih (lt_of_succ_lt_succ hi))
   simp only [Nat.mul_add] at hrest
   simp only [modify_succ_cons, value_cons, getD_cons_succ, Nat.mul_succ, Nat.pow_add]
   rw [Nat.mul_comm (2 ^ (W * i)), Nat.mul_assoc, Nat.mul_assoc]
   omega

/-- Bits set in one word are set in the number. -/
theorem value_or_at (ws : List (BitVec W)) (m : BitVec W) {i : Nat} (hi : i < ws.length) :
  value (ws.modify i (· ||| m)) = value ws ||| m.toNat * 2 ^ (W * i) := by
 induction ws generalizing i with
 | nil => exact absurd hi (Nat.not_lt_zero i)
 | cons w ws ih =>
  apply eq_of_testBit_eq
  intro j
  cases i with
  | zero =>
   have hor : (w ||| m).toNat = w.toNat ||| m.toNat := toNat_or w m
   simp only [modify_zero_cons, value_cons, Nat.mul_zero, Nat.pow_zero, Nat.mul_one, testBit_or]
   rw [Nat.add_comm, testBit_two_pow_mul_add _ (w ||| m).isLt, Nat.add_comm w.toNat,
    testBit_two_pow_mul_add _ w.isLt, hor, testBit_or]
   by_cases hj : j < W
   · rw [if_pos hj, if_pos hj]
   · rw [if_neg hj, if_neg hj, testBit_lt_two_pow (Nat.lt_of_lt_of_le m.isLt
      (Nat.pow_le_pow_right (by decide) (not_lt.1 hj))), Bool.or_false]
  | succ i =>
   have hmove : m.toNat * 2 ^ (W * (i + 1)) = 2 ^ W * (m.toNat * 2 ^ (W * i)) + 0 := by
    rw [Nat.mul_succ, Nat.pow_add]
    ring
   simp only [modify_succ_cons, value_cons, testBit_or]
   rw [Nat.add_comm, testBit_two_pow_mul_add _ w.isLt, Nat.add_comm w.toNat, testBit_two_pow_mul_add _ w.isLt,
    hmove, testBit_two_pow_mul_add _ (Nat.two_pow_pos W), ih (lt_of_succ_lt_succ hi)]
   by_cases hj : j < W
   · rw [if_pos hj, if_pos hj, if_pos hj, zero_testBit, Bool.or_false]
   · rw [if_neg hj, if_neg hj, if_neg hj, testBit_or]

end Tir.Words
