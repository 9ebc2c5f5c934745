import Mathlib.Data.BitVec
import Mathlib.Tactic.Linarith
import Mathlib.Tactic.LinearCombination
import Mathlib.Tactic.Positivity
import Mathlib.Tactic.Ring

/-!
# Two limbs of a bit vector

A vector of `h + n` bits is its `high` part before its `low` part. Each operation on such vectors is spelled
over the two parts: the arithmetic with a carry out of the low part, the shifts with the bits that cross
between the parts, the comparisons with the high parts first.
-/

open Nat Int Bool

namespace Tir.Limbs

variable {h n : Nat}

/-- The bits from `n` on. -/
def high (x : BitVec (h + n)) : BitVec h :=
 x.extractLsb' n h

def low (x : BitVec (h + n)) : BitVec n :=
 x.extractLsb' 0 n

variable (x y : BitVec (h + n))

@[simp] theorem getLsbD_high (i : Nat) : (high x).getLsbD i = (decide (i < h) && x.getLsbD (n + i)) := by
  rw [high, BitVec.getLsbD_extractLsb']

@[simp] theorem getLsbD_low (i : Nat) : (low x).getLsbD i = (decide (i < n) && x.getLsbD i) := by
  rw [low, BitVec.getLsbD_extractLsb', zero_add]

/-- A vector with given parts. -/
theorem eq_append {a : BitVec h} {b : BitVec n} (hlow : ∀ i < n, x.getLsbD i = b.getLsbD i)
  (hhigh : ∀ i < h, x.getLsbD (n + i) = a.getLsbD i) : x = a ++ b := by
 apply BitVec.eq_of_getLsbD_eq
 grind

theorem high_append_low : high x ++ low x = x := by
 symm
 apply eq_append
 · grind [getLsbD_low]
 grind [getLsbD_high]

theorem toNat_append_eq (a : BitVec h) (b : BitVec n) : (a ++ b).toNat = a.toNat * 2 ^ n + b.toNat := by
 rw [BitVec.toNat_append, Nat.shiftLeft_eq, mul_comm, ← two_pow_add_eq_or_of_lt b.isLt]

theorem toNat_eq : x.toNat = (high x).toNat * 2 ^ n + (low x).toNat := by
 rw [← toNat_append_eq, high_append_low]

/-! ## Arithmetic -/

/-- A number as a part of `h` bits before one of `n`. -/
theorem ofInt_eq_append (q : Int) (r : BitVec n) : BitVec.ofInt (h + n) (q * 2 ^ n + r.toNat) = BitVec.ofInt h q ++ r := by
 have hpos : (0 : Int) < 2 ^ h := by positivity
 have hlt : (r.toNat : Int) < 2 ^ n := by exact_mod_cast r.isLt
 have hmod := emod_nonneg q (ne_of_gt hpos)
 have hmod' := emod_lt_of_pos q hpos
 have hrest : (q * 2 ^ n + r.toNat) % (2 ^ (h + n) : Int) = q % 2 ^ h * 2 ^ n + r.toNat := by
  have hsplit : q * 2 ^ n + r.toNat = q % 2 ^ h * 2 ^ n + r.toNat + 2 ^ (h + n) * (q / 2 ^ h) := by
   conv_lhs => rw [← mul_ediv_add_emod q (2 ^ h)]
   ring
  rw [hsplit, add_mul_emod_self_left]
  apply emod_eq_of_lt
  · positivity
  · rw [pow_add]
    nlinarith
 apply BitVec.eq_of_toNat_eq
 have hcast : ((2 ^ (h + n) : Nat) : Int) = 2 ^ (h + n) := by norm_cast
 have hcast' : ((2 ^ h : Nat) : Int) = 2 ^ h := by norm_cast
 rw [toNat_append_eq, BitVec.toNat_ofInt, BitVec.toNat_ofInt, hcast, hcast', hrest]
 zify
 rw [toNat_of_nonneg (by positivity), toNat_of_nonneg hmod]

theorem ofInt_sub (w : Nat) (a b : Int) : BitVec.ofInt w (a - b) = BitVec.ofInt w a - BitVec.ofInt w b := by
 rw [Int.sub_eq_add_neg, BitVec.ofInt_add, BitVec.ofInt_neg, BitVec.sub_eq_add_neg]

theorem ofInt_toNat {w : Nat} (a : BitVec w) : BitVec.ofInt w a.toNat = a := by
 rw [BitVec.ofInt_natCast, BitVec.ofNat_toNat, BitVec.setWidth_eq]

theorem ofInt_parts : x = BitVec.ofInt (h + n) ((high x).toNat * 2 ^ n + (low x).toNat) := by
 conv_lhs => rw [← ofInt_toNat x, toNat_eq]
 rfl

theorem ofBool_setWidth (c : Bool) : (BitVec.ofBool c).setWidth h = BitVec.ofInt h c.toNat := by
 cases c with
 | false =>
  simp_all
 | true =>
  apply BitVec.eq_of_toNat_eq
  simp_all

theorem add_limbs : x + y =
  (high x + high y + (BitVec.ofBool (BitVec.ult (low x + low y) (low x))).setWidth h) ++ (low x + low y) := by
 have hsum : ((low x).toNat + (low y).toNat : Int) =
   (BitVec.ult (low x + low y) (low x)).toNat * 2 ^ n + (low x + low y).toNat := by
  rw [BitVec.ult, BitVec.toNat_add]
  norm_cast
  by_cases hcarry : (low x).toNat + (low y).toNat < 2 ^ n
  · rw [mod_eq_of_lt hcarry, decide_eq_false (by omega)]
    simp
  · rw [mod_eq_sub_mod (by omega), mod_eq_of_lt (by omega), decide_eq_true (by omega)]
    grind
 conv_lhs => rw [ofInt_parts x, ofInt_parts y, ← BitVec.ofInt_add]
 have hall : ((high x).toNat * 2 ^ n + (low x).toNat + ((high y).toNat * 2 ^ n + (low y).toNat) : Int) =
   ((high x).toNat + (high y).toNat + (BitVec.ult (low x + low y) (low x)).toNat) * 2 ^ n + (low x + low y).toNat := by
  linear_combination hsum
 rw [hall, ofInt_eq_append, BitVec.ofInt_add, BitVec.ofInt_add, ofInt_toNat, ofInt_toNat, ofBool_setWidth]

theorem sub_limbs : x - y =
  (high x - high y - (BitVec.ofBool (BitVec.ult (low x) (low y))).setWidth h) ++ (low x - low y) := by
 have hdiff : ((low x).toNat - (low y).toNat : Int) =
   - (BitVec.ult (low x) (low y)).toNat * 2 ^ n + (low x - low y).toNat := by
  rw [BitVec.ult, BitVec.toNat_sub]
  by_cases hborrow : (low x).toNat < (low y).toNat
  · rw [mod_eq_of_lt (by omega), decide_eq_true hborrow]
    grind
  · rw [show 2 ^ n - (low y).toNat + (low x).toNat = (low x).toNat - (low y).toNat + 2 ^ n by omega, add_mod_right,
     mod_eq_of_lt (by omega), decide_eq_false hborrow]
    grind
 conv_lhs => rw [ofInt_parts x, ofInt_parts y, ← ofInt_sub]
 have hall : ((high x).toNat * 2 ^ n + (low x).toNat - ((high y).toNat * 2 ^ n + (low y).toNat) : Int) =
   ((high x).toNat - (high y).toNat - (BitVec.ult (low x) (low y)).toNat) * 2 ^ n + (low x - low y).toNat := by
  linear_combination hdiff
 rw [hall, ofInt_eq_append, ofInt_sub, ofInt_sub, ofInt_toNat, ofInt_toNat, ofBool_setWidth]

theorem high_zero : high (0 : BitVec (h + n)) = 0 := by
 apply BitVec.eq_of_getLsbD_eq
 intro i hi
 simp

theorem low_zero : low (0 : BitVec (h + n)) = 0 := by
 apply BitVec.eq_of_getLsbD_eq
 intro i hi
 simp

theorem neg_limbs : -x = (-high x - (BitVec.ofBool (low x != 0)).setWidth h) ++ -low x := by
 have hborrow : BitVec.ult 0 (low x) = (low x != 0) := by
  rw [BitVec.ult, Bool.eq_iff_iff, decide_eq_true_iff, bne_iff_ne, ne_eq, ← BitVec.toNat_inj]
  grind
 have hsub := sub_limbs 0 x
 rw [high_zero, low_zero, hborrow] at hsub
 simpa using hsub

theorem ofInt_setWidth {w v : Nat} (a : BitVec w) : BitVec.ofInt v a.toNat = a.setWidth v := by
 rw [BitVec.ofInt_natCast, BitVec.ofNat_toNat]

/-- The full product of two parts. -/
def product (a b : BitVec n) : BitVec (n + n) :=
 a.setWidth (n + n) * b.setWidth (n + n)

theorem toNat_product (a b : BitVec n) : (product a b).toNat = a.toNat * b.toNat := by
 have hlt : a.toNat * b.toNat < 2 ^ (n + n) := by
  rw [pow_add]
  exact Nat.mul_lt_mul'' a.isLt b.isLt
 have hle : 2 ^ n ≤ 2 ^ (n + n) := Nat.pow_le_pow_right (by decide) (by omega)
 rw [product, BitVec.toNat_mul, BitVec.toNat_setWidth, BitVec.toNat_setWidth, mod_eq_of_lt (a.isLt.trans_le hle),
  mod_eq_of_lt (b.isLt.trans_le hle), mod_eq_of_lt hlt]

theorem mul_limbs : x * y =
  ((high (product (low x) (low y))).setWidth h + (low x).setWidth h * high y + high x * y.setWidth h) ++
    low (product (low x) (low y)) := by
 have hproduct : ((low x).toNat * (low y).toNat : Int) =
   (high (product (low x) (low y))).toNat * 2 ^ n + (low (product (low x) (low y))).toNat := by
  have hparts := toNat_eq (product (low x) (low y))
  grind [toNat_product]
 have hy : (y.toNat : Int) = (high y).toNat * 2 ^ n + (low y).toNat := by
  exact_mod_cast toNat_eq y
 have hall : (((high x).toNat * 2 ^ n + (low x).toNat) * y.toNat : Int) =
   ((high (product (low x) (low y))).toNat + (low x).toNat * (high y).toNat + (high x).toNat * y.toNat) * 2 ^ n +
     (low (product (low x) (low y))).toNat := by
  linear_combination (low x).toNat * hy + hproduct
 conv_lhs => rw [ofInt_parts x, ← ofInt_toNat y, ← BitVec.ofInt_mul]
 rw [hall, ofInt_eq_append, BitVec.ofInt_add, BitVec.ofInt_add, BitVec.ofInt_mul, BitVec.ofInt_mul, ofInt_setWidth,
  ofInt_setWidth, ofInt_toNat, ofInt_toNat, ofInt_setWidth]

/-! ## Logic -/

theorem and_limbs : x &&& y = (high x &&& high y) ++ (low x &&& low y) := by
 apply eq_append
 · intro i hi
   simp [- BitVec.getLsbD_eq_getElem, hi]
 · intro i hi
   simp [- BitVec.getLsbD_eq_getElem, hi]

theorem or_limbs : x ||| y = (high x ||| high y) ++ (low x ||| low y) := by
 apply eq_append
 · intro i hi
   simp [- BitVec.getLsbD_eq_getElem, hi]
 · intro i hi
   simp [- BitVec.getLsbD_eq_getElem, hi]

theorem xor_limbs : x ^^^ y = (high x ^^^ high y) ++ (low x ^^^ low y) := by
 apply eq_append
 · intro i hi
   simp [- BitVec.getLsbD_eq_getElem, hi]
 · intro i hi
   simp [- BitVec.getLsbD_eq_getElem, hi]

theorem not_limbs : ~~~x = ~~~(high x) ++ ~~~(low x) := by
 apply eq_append
 · intro i hi
   have hlt : i < h + n := by omega
   simp [- BitVec.getLsbD_eq_getElem, hi, hlt]
 · intro i hi
   have hlt : n + i < h + n := by omega
   simp [- BitVec.getLsbD_eq_getElem, hi, hlt]

/-! ## Shifts -/

/-- Below `n` bits cross from the low part; from `n` on the high part is the low bits of the whole. -/
theorem shl_limbs (s : Nat) : x <<< s =
  (if s < n then (high x <<< s) ||| (low x >>> (n - s)).setWidth h else x.setWidth h <<< (s - n)) ++
   (if s < n then low x <<< s else 0) := by
 apply eq_append
 · intro i hi
   have hlt : i < h + n := by omega
   split
   · simp [- BitVec.getLsbD_eq_getElem, hi, hlt]
     grind
   grind
 · intro i hi
   have hlt : n + i < h + n := by omega
   split
   · by_cases hcross : i < s
     · have hin : n - s + i < n := by omega
       have hat : n + i - s = n - s + i := by omega
       have hup : ¬ n + i < s := by omega
       simp [- BitVec.getLsbD_eq_getElem, hi, hlt, hcross, hin, hat, hup]
     · have hin : ¬ n - s + i < n := by omega
       have hat : n + (i - s) = n + i - s := by omega
       have hup : ¬ n + i < s := by omega
       have hdown : i - s < h := by omega
       simp [- BitVec.getLsbD_eq_getElem, hi, hlt, hcross, hin, hat, hup, hdown]
   grind

/-- Below `n` bits cross from the high part; from `n` on the low part is of the high part alone. -/
theorem lshr_limbs (s : Nat) : x >>> s = (high x >>> s) ++
   (if s < n then (low x >>> s) ||| ((high x).setWidth n <<< (n - s)) else (high x >>> (s - n)).setWidth n) := by
 apply eq_append
 · intro i hi
   split
   · by_cases hcross : s + i < n
     · have hup : i < n - s := by omega
       simp [- BitVec.getLsbD_eq_getElem, hi, hcross, hup]
     · have hup : ¬ i < n - s := by omega
       have hat : n + (i - (n - s)) = s + i := by omega
       have hin : i - (n - s) < n := by omega
       simp [- BitVec.getLsbD_eq_getElem, hi, hcross, hup, hat, hin]
       grind
   · have hat : n + (s - n + i) = s + i := by omega
     simp [- BitVec.getLsbD_eq_getElem, hi, hat]
     grind
 · intro i hi
   have hat : n + (s + i) = s + (n + i) := by omega
   simp [- BitVec.getLsbD_eq_getElem, hat]
   grind

theorem msb_high (hpos : 0 < h) : (high x).msb = x.msb := by
 have hlt : h - 1 < h := by omega
 have hat : n + (h - 1) = h + n - 1 := by omega
 rw [BitVec.msb_eq_getLsbD_last, BitVec.msb_eq_getLsbD_last, getLsbD_high, decide_eq_true hlt, Bool.true_and, hat]

theorem ashr_limbs (hpos : 0 < h) (s : Nat) : x.sshiftRight s = (high x).sshiftRight s ++
   (if s < n then (low x >>> s) ||| ((high x).signExtend n <<< (n - s))
    else ((high x).sshiftRight (s - n)).signExtend n) := by
 apply eq_append
 · intro i hi
   have hlt : ¬ h + n ≤ i := by omega
   split
   · rw [BitVec.getLsbD_sshiftRight, BitVec.getLsbD_or, BitVec.getLsbD_ushiftRight, BitVec.getLsbD_shiftLeft,
      BitVec.getLsbD_signExtend, getLsbD_low, getLsbD_high, msb_high x hpos]
     grind
   · have hat : n + (s - n + i) = s + i := by omega
     have hmsb : ((high x).sshiftRight (s - n)).msb = x.msb := by
      rw [BitVec.msb_sshiftRight, msb_high x hpos]
     rw [BitVec.getLsbD_sshiftRight, BitVec.getLsbD_signExtend, BitVec.getLsbD_sshiftRight, getLsbD_high, hmsb,
      msb_high x hpos, hat, decide_eq_true hi, Bool.true_and, decide_eq_false hlt, Bool.not_false, Bool.true_and]
     by_cases hin : i < h
     · grind
     · rw [if_neg hin, if_neg (by omega)]
 grind [getLsbD_high, msb_high]

/-! ## Comparisons -/

theorem eq_limbs : (x == y) = ((high x == high y) && (low x == low y)) := by
 rw [Bool.eq_iff_iff, and_eq_true, beq_iff_eq, beq_iff_eq, beq_iff_eq]
 constructor
 · grind
 grind [high_append_low]

section

variable {b q s r r' : Int} (hr : 0 ≤ r) (hlt : r < b) (hr' : 0 ≤ r') (hlt' : r' < b)

include hr hlt hr' hlt'

/-- Numbers over two parts are in the order of the first, then of the second. -/
theorem lt_parts :
  q * b + r < s * b + r' ↔ q < s ∨ q = s ∧ r < r' := by
 constructor
 · intro hless
   rcases lt_trichotomy q s with hq | rfl | hq
   · exact .inl hq
   · exact .inr ⟨rfl, by linarith⟩
   · nlinarith
 · rintro (hq | ⟨rfl, hless⟩)
   · nlinarith
   · linarith

theorem le_parts :
  q * b + r ≤ s * b + r' ↔ q < s ∨ q = s ∧ r ≤ r' := by
 rw [← not_lt, lt_parts hr' hlt' hr hlt, ← not_lt (a := r') (b := r)]
 constructor
 · intro hnot
   rcases lt_trichotomy q s with hq | rfl | hq
   · exact .inl hq
   · exact .inr ⟨rfl, fun hless => hnot (.inr ⟨rfl, hless⟩)⟩
   · exact absurd (.inl hq) hnot
 grind

end

section

variable {x y}

theorem toNat_low_lt : ((low x).toNat : Int) < 2 ^ n := by
 exact_mod_cast (low x).isLt

theorem intCast_toNat_eq : (x.toNat : Int) = (high x).toNat * 2 ^ n + (low x).toNat := by
 exact_mod_cast toNat_eq x

theorem toInt_eq (hpos : 0 < h) : x.toInt = (high x).toInt * 2 ^ n + (low x).toNat := by
 grind [high_append_low]

theorem high_toNat_eq_iff : ((high x).toNat : Int) = (high y).toNat ↔ high x = high y := by
 rw [natCast_inj, BitVec.toNat_inj]

theorem ult_limbs : x.ult y = ((high x).ult (high y) || ((high x == high y) && (low x).ult (low y))) := by
 have hparts := lt_parts (q := (high x).toNat) (s := (high y).toNat) (natCast_nonneg _) (toNat_low_lt (x := x))
  (natCast_nonneg _) (toNat_low_lt (x := y))
 rw [← intCast_toNat_eq, ← intCast_toNat_eq, high_toNat_eq_iff] at hparts
 rw [Bool.eq_iff_iff, or_eq_true, and_eq_true, beq_iff_eq, BitVec.ult, BitVec.ult, BitVec.ult, decide_eq_true_iff,
  decide_eq_true_iff, decide_eq_true_iff]
 exact_mod_cast hparts

theorem ule_limbs : x.ule y = ((high x).ult (high y) || ((high x == high y) && (low x).ule (low y))) := by
 have hparts := le_parts (q := (high x).toNat) (s := (high y).toNat) (natCast_nonneg _) (toNat_low_lt (x := x))
  (natCast_nonneg _) (toNat_low_lt (x := y))
 rw [← intCast_toNat_eq, ← intCast_toNat_eq, high_toNat_eq_iff] at hparts
 rw [Bool.eq_iff_iff, or_eq_true, and_eq_true, beq_iff_eq, BitVec.ule, BitVec.ult, BitVec.ule, decide_eq_true_iff,
  decide_eq_true_iff, decide_eq_true_iff]
 exact_mod_cast hparts

theorem slt_limbs (hpos : 0 < h) : x.slt y = ((high x).slt (high y) || ((high x == high y) && (low x).ult (low y))) := by
 have hparts := lt_parts (q := (high x).toInt) (s := (high y).toInt) (natCast_nonneg _) (toNat_low_lt (x := x))
  (natCast_nonneg _) (toNat_low_lt (x := y))
 rw [← toInt_eq hpos, ← toInt_eq hpos, BitVec.toInt_inj] at hparts
 rw [Bool.eq_iff_iff, or_eq_true, and_eq_true, beq_iff_eq, BitVec.slt, BitVec.slt, BitVec.ult, decide_eq_true_iff,
  decide_eq_true_iff, decide_eq_true_iff]
 exact_mod_cast hparts

theorem sle_limbs (hpos : 0 < h) : x.sle y = ((high x).slt (high y) || ((high x == high y) && (low x).ule (low y))) := by
 have hparts := le_parts (q := (high x).toInt) (s := (high y).toInt) (natCast_nonneg _) (toNat_low_lt (x := x))
  (natCast_nonneg _) (toNat_low_lt (x := y))
 rw [← toInt_eq hpos, ← toInt_eq hpos, BitVec.toInt_inj] at hparts
 rw [Bool.eq_iff_iff, or_eq_true, and_eq_true, beq_iff_eq, BitVec.sle, BitVec.slt, BitVec.ule, decide_eq_true_iff,
  decide_eq_true_iff, decide_eq_true_iff]
 exact_mod_cast hparts

end

/-! ## Extensions and slices -/

variable {m w : Nat}

theorem zext_limbs (a : BitVec m) (hle : m ≤ n) : a.setWidth (h + n) = (0 : BitVec h) ++ a.setWidth n := by
 apply eq_append
 · grind
 grind

theorem zext_wide_limbs (a : BitVec (m + n)) : a.setWidth (h + n) = (high a).setWidth h ++ low a := by
 apply eq_append
 · intro i hi
   have hlt : i < h + n := by omega
   simp [- BitVec.getLsbD_eq_getElem, hi, hlt]
 grind [getLsbD_high]

theorem sext_limbs (a : BitVec m) (hle : m ≤ n) :
  a.signExtend (h + n) = (a.extractLsb' (m - 1) 1).signExtend h ++ a.signExtend n := by
 apply eq_append
 · grind
 grind

theorem sext_wide_limbs (a : BitVec (m + n)) (hpos : 0 < m) : a.signExtend (h + n) = (high a).signExtend h ++ low a := by
 apply eq_append
 · grind [getLsbD_low]
 grind [getLsbD_high, msb_high]

variable (a : BitVec m)

include a

theorem slice_setWidth {k : Nat} (hle : k ≤ w) : (a.setWidth w).extractLsb' 0 k = a.setWidth k := by
 grind

theorem slice_signExtend {k : Nat} (hle : k ≤ w) : (a.signExtend w).extractLsb' 0 k = a.signExtend k := by
 grind

theorem slice_eq_setWidth {k : Nat} : a.extractLsb' 0 k = a.setWidth k := by
 grind

end Tir.Limbs
