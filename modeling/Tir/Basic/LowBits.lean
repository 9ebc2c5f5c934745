import Tir.Basic.Limbs

/-!
# Low bits, extensions and masks

Equalities of bit vectors in which a register of `w` bits is read by its low `n` bits on one side and whole on
the other, and the masks that stand for a choice.
-/

open BitVec Nat Bool

namespace Tir.LowBits

variable {w n : Nat} (p q : BitVec w)

/-! ## Extensions of the low bits -/

theorem signExtend_low (hpos : 0 < n) (hle : n ≤ w) :
  (p.setWidth n).signExtend w = (p <<< (w - n)).sshiftRight (w - n) := by
 apply eq_of_getLsbD_eq
 intro i hi
 have hlast : n - 1 < n := by omega
 have hshifted : ¬ w - 1 < w - n := by omega
 have hmsb : w - 1 - (w - n) = n - 1 := by omega
 have hin : w - 1 < w := by omega
 rw [getLsbD_signExtend, getLsbD_sshiftRight, msb_eq_getLsbD_last, msb_eq_getLsbD_last]
 simp only [getLsbD_setWidth, getLsbD_shiftLeft, hi, hlast, hin, hshifted, hmsb, decide_true, decide_false,
  Bool.true_and, Bool.not_false, Nat.not_le_of_lt hi]
 by_cases hlow : i < n
 · have hbelow : w - n + i < w := by omega
   have hback : w - n + i - (w - n) = i := by omega
   have hshifted' : ¬ w - n + i < w - n := by omega
   simp [hlow, hbelow, hback, hshifted']
 · have habove : ¬ w - n + i < w := by omega
   simp [hlow, habove]

theorem setWidth_low_eq_and : (p.setWidth n).setWidth w = BitVec.ofNat w (2 ^ n - 1) &&& p := by
 apply eq_of_getLsbD_eq
 intro i hi
 simp only [getLsbD_setWidth, getLsbD_and, getLsbD_ofNat, testBit_two_pow_sub_one, hi,
  decide_true, Bool.true_and]

theorem setWidth_low_eq_shifts (hle : n ≤ w) : (p.setWidth n).setWidth w = (p <<< (w - n)) >>> (w - n) := by
 apply eq_of_getLsbD_eq
 intro i hi
 have hback : w - n + i - (w - n) = i := by omega
 have hin : w - n + i < w ↔ i < n := by omega
 have hshifted : ¬ w - n + i < w - n := by omega
 simp [hi, hback, hin, hshifted]

/-! ## An extension after another -/

variable {m k : Nat} (r : BitVec n)

theorem setWidth_setWidth_wide (hle : n ≤ m) : (r.setWidth m).setWidth k = r.setWidth k := by
 apply eq_of_getLsbD_eq
 intro i hi
 simp only [getLsbD_setWidth, hi, decide_true, Bool.true_and]
 by_cases hin : i < m
 · rw [decide_eq_true hin, Bool.true_and]
 · rw [getLsbD_of_ge r i (by omega), Bool.and_false]

theorem signExtend_setWidth_wide (hlt : n < m) : (r.setWidth m).signExtend k = r.setWidth k := by
 have hmsb : (r.setWidth m).msb = false := by
  rw [msb_eq_getLsbD_last, getLsbD_setWidth, getLsbD_of_ge r (m - 1) (by omega), Bool.and_false]
 rw [signExtend_eq_setWidth_of_msb_false hmsb, setWidth_setWidth_wide r (le_of_lt hlt)]

theorem msb_signExtend (hpos : 0 < n) (hle : n ≤ m) : (r.signExtend m).msb = r.msb := by
 have hlast : m - 1 < m := by omega
 rw [msb_eq_getLsbD_last, getLsbD_signExtend, decide_eq_true hlast, Bool.true_and]
 split
 · have hsame : m - 1 = n - 1 := by omega
   rw [hsame, msb_eq_getLsbD_last]
 · rfl

theorem signExtend_signExtend_wide (hpos : 0 < n) (hle : n ≤ m) : (r.signExtend m).signExtend k = r.signExtend k := by
 have hmsb : (r.signExtend m).msb = r.msb := msb_signExtend r hpos hle
 apply eq_of_getLsbD_eq
 intro i hi
 simp only [getLsbD_signExtend, hmsb, hi, decide_true, Bool.true_and]
 by_cases hin : i < n
 · have hin' : i < m := by omega
   simp [hin, hin']
 · by_cases hin' : i < m
   · simp [hin, hin']
   · simp [hin, hin']

/-! ## Comparisons of extensions -/

section Compare

variable (hle : w ≤ m)

include hle

theorem setWidth_beq : (p.setWidth m == q.setWidth m) = (p == q) := by
 rw [Bool.eq_iff_iff, beq_iff_eq, beq_iff_eq, ← toNat_inj, ← toNat_inj, toNat_setWidth_of_le hle,
  toNat_setWidth_of_le hle]

theorem setWidth_ult : (p.setWidth m).ult (q.setWidth m) = p.ult q := by
 rw [BitVec.ult, BitVec.ult, toNat_setWidth_of_le hle, toNat_setWidth_of_le hle]

theorem setWidth_ule : (p.setWidth m).ule (q.setWidth m) = p.ule q := by
 rw [BitVec.ule, BitVec.ule, toNat_setWidth_of_le hle, toNat_setWidth_of_le hle]

theorem signExtend_slt : (p.signExtend m).slt (q.signExtend m) = p.slt q := by
 rw [BitVec.slt, BitVec.slt, toInt_signExtend_of_le hle, toInt_signExtend_of_le hle]

theorem signExtend_sle : (p.signExtend m).sle (q.signExtend m) = p.sle q := by
 rw [BitVec.sle, BitVec.sle, toInt_signExtend_of_le hle, toInt_signExtend_of_le hle]

end Compare

/-! ## Shifts and divisions of extensions -/

theorem low_ushiftRight (hle : w ≤ m) (amount : Nat) :
  ((p.setWidth m) >>> amount).setWidth w = p >>> amount := by
 apply eq_of_getLsbD_eq
 intro i hi
 simp only [getLsbD_setWidth, getLsbD_ushiftRight, hi, decide_true, Bool.true_and]
 by_cases hin : amount + i < m
 · rw [decide_eq_true hin, Bool.true_and]
 · rw [getLsbD_of_ge p (amount + i) (by omega), Bool.and_false]

theorem low_sshiftRight (hpos : 0 < w) (hle : w ≤ m) (amount : Nat) :
  ((p.signExtend m).sshiftRight amount).setWidth w = p.sshiftRight amount := by
 have hmsb : (p.signExtend m).msb = p.msb := msb_signExtend p hpos hle
 apply eq_of_getLsbD_eq
 intro i hi
 have hin : i < m := by omega
 simp only [getLsbD_setWidth, getLsbD_sshiftRight, getLsbD_signExtend, hmsb, hi, decide_true,
  Bool.true_and, Nat.not_le_of_lt hi, Nat.not_le_of_lt hin, decide_false, Bool.not_false]
 by_cases hshift : amount + i < w
 · have hshift' : amount + i < m := by omega
   simp [hshift, hshift']
 · by_cases hshift' : amount + i < m
   · simp [hshift, hshift']
   · simp [hshift, hshift']

theorem setWidth_ofInt (hle : w ≤ m) (z : Int) : (BitVec.ofInt m z).setWidth w = BitVec.ofInt w z := by
 cases z with
 | ofNat value => rw [Int.ofNat_eq_natCast, ofInt_natCast, ofInt_natCast, setWidth_ofNat_of_le hle]
 | negSucc value =>
  rw [ofInt_negSucc_eq_not_ofNat, ofInt_negSucc_eq_not_ofNat, setWidth_not hle,
   setWidth_ofNat_of_le hle]

/-! ## Negation and complement -/

theorem allOnes_eq : BitVec.ofNat w (2 ^ w - 1) = allOnes w := by
 apply eq_of_toNat_eq
 rw [toNat_ofNat, toNat_allOnes, mod_eq_of_lt (sub_lt (Nat.two_pow_pos w) Nat.one_pos)]

theorem neg_eq_mul : -p = allOnes w * p := by
 rw [← neg_one_eq_allOnes, BitVec.neg_mul, BitVec.one_mul]

theorem not_eq_sub_one : ~~~p = 0 - p - 1 := by
 rw [not_eq_neg_add, BitVec.sub_eq_add_neg 0 p, ofNat_eq_ofNat, BitVec.zero_add, ofNat_eq_ofNat]

/-! ## Powers of two -/

theorem mul_two_pow {amount : Nat} : p * BitVec.ofNat w (2 ^ amount) = p <<< amount := by
 rw [shiftLeft_eq_mul_twoPow]
 congr 1
 apply eq_of_toNat_eq
 rw [toNat_ofNat, toNat_twoPow]

/-! ## Truth values -/

theorem eq_iff_xor_lt (hpos : 0 < w) : (p == q) = (p ^^^ q).ult 1 := by
 have hone : (1 : BitVec w).toNat = 1 := by
  rw [ofNat_eq_ofNat, toNat_ofNat, mod_eq_of_lt (Nat.one_lt_two_pow (ne_of_gt hpos))]
 rw [Bool.eq_iff_iff, beq_iff_eq, BitVec.ult, hone, decide_eq_true_iff, Nat.lt_one_iff, ← BitVec.xor_eq_zero_iff,
  ← toNat_inj, toNat_ofNat, zero_mod]

theorem ofBool_not (b : Bool) : ofBool (!b) = ofBool b ^^^ 1 := by
 cases b <;> rfl

/-- A bit is its own truth value. -/
theorem choice_eq (c : BitVec 1) : (if c.getLsbD 0 then 1 else 0) = c := by
 revert c
 decide

theorem choice_then (c p : BitVec 1) : (if c.getLsbD 0 then c else p) = if c.getLsbD 0 then 1 else p := by
 revert c p
 decide

theorem choice_else (c p : BitVec 1) : (if c.getLsbD 0 then p else c) = if c.getLsbD 0 then p else 0 := by
 revert c p
 decide

/-! ## Masks -/

theorem getLsbD_mask (c : BitVec 1) {i : Nat} (hi : i < w) : (c.signExtend w).getLsbD i = c.getLsbD 0 := by
 rw [getLsbD_signExtend, decide_eq_true hi, Bool.true_and, msb_eq_getLsbD_last]
 split
 · rename_i hzero
   rw [Nat.lt_one_iff.1 hzero]
 · rfl

theorem select_mask (t f : BitVec w) (c : BitVec 1) :
  t &&& c.signExtend w ||| f &&& (c.signExtend w ^^^ allOnes w) = if c.getLsbD 0 then t else f := by
 apply eq_of_getLsbD_eq
 intro i hi
 simp only [getLsbD_or, getLsbD_and, getLsbD_xor, getLsbD_allOnes, getLsbD_mask c hi, hi,
  decide_true]
 cases c.getLsbD 0 with
 | true => simp only [Bool.and_true, Bool.xor_true, Bool.not_true, Bool.and_false, Bool.or_false, if_true]
 | false => simp only [Bool.and_false, false_xor, Bool.and_true, Bool.false_or, false_eq_true, if_false]

theorem mask_blend (t m f : BitVec w) : t &&& m ||| f &&& (m ^^^ allOnes w) = (m &&& (t ^^^ f)) ^^^ f := by
 apply eq_of_getLsbD_eq
 intro i hi
 simp only [getLsbD_or, getLsbD_and, getLsbD_xor, getLsbD_allOnes, hi, decide_true]
 cases t.getLsbD i <;> cases m.getLsbD i <;> cases f.getLsbD i <;> rfl

theorem signExtend_and_one (c : BitVec 1) : c.signExtend w &&& 1 = c.setWidth w := by
 apply eq_of_getLsbD_eq
 intro i hi
 rw [getLsbD_and, getLsbD_mask c hi, getLsbD_setWidth, decide_eq_true hi, Bool.true_and,
  ofNat_eq_ofNat, getLsbD_ofNat, decide_eq_true hi, Bool.true_and]
 cases i with
 | zero => simp
 | succ i => rw [getLsbD_of_ge c (i + 1) (by omega), testBit_succ]; simp

theorem low_byte_eq (hle : 8 ≤ w) :
  ((p ^^^ q) &&& BitVec.ofNat w (2 ^ 8 - 1) == 0) = (p.extractLsb' 0 8 == q.extractLsb' 0 8) := by
 have hzero : ((p ^^^ q).setWidth 8).setWidth w = (0 : BitVec 8).setWidth w ↔ (p ^^^ q).setWidth 8 = 0 := by
  rw [← beq_iff_eq, setWidth_beq _ _ hle, beq_iff_eq]
 rw [BitVec.and_comm, ← setWidth_low_eq_and, Limbs.slice_eq_setWidth, Limbs.slice_eq_setWidth, Bool.eq_iff_iff, beq_iff_eq,
  beq_iff_eq, ← BitVec.xor_eq_zero_iff (x := p.setWidth 8), ← setWidth_xor]
 simpa using hzero

end Tir.LowBits
