import Mathlib.Data.BitVec
import Mathlib.Data.Nat.Bitwise
import Mathlib.Tactic.Ring

/-!
# Offsets modulo a mask

Offsets are words, read modulo a power of two that depends on what they are added to. `lowMask` is
the mask of a width, and `Offsets` is a type of values that take offsets, each modulo a mask of its
own: modular integers of several widths beside values that take no offset at all.
-/

open BitVec Nat

namespace Tir

abbrev Word := BitVec 64

/-- All ones below `width`. -/
def lowMask (width : Nat) : Word :=
 match width with
 | 0 => 0
 | width + 1 => allOnes 64 >>> (64 - min (width + 1) 64)

/-- The masks of some width. -/
def IsLowMask (mask : Word) : Prop :=
 ∃ width, mask = lowMask width

theorem toNat_lowMask (width : Nat) : (lowMask width).toNat = 2 ^ min width 64 - 1 := by
 cases width with
 | zero => rfl
 | succ width =>
  have hle : min (width + 1) 64 ≤ 64 := min_le_right _ _
  generalize hbits : min (width + 1) 64 = bits at hle
  have hsplit : 2 ^ 64 = 2 ^ bits * 2 ^ (64 - bits) := by
   rw [← pow_add]
   congr 1
   omega
  rw [lowMask, hbits, toNat_ushiftRight, toNat_allOnes, shiftRight_eq_div_pow]
  have hpos : 0 < 2 ^ (64 - bits) := Nat.two_pow_pos _
  rw [hsplit]
  -- one short of a multiple leaves the quotient one short
  rw [Nat.div_eq_iff hpos]
  have hbits : 0 < 2 ^ bits := Nat.two_pow_pos _
  obtain ⟨pred, hpred⟩ := exists_eq_succ_of_ne_zero (ne_of_gt hbits)
  rw [hpred, Nat.succ_mul, succ_sub_one]
  constructor
  · omega
  · omega

theorem toNat_and_lowMask (width : Nat) (x : Word) :
  (x &&& lowMask width).toNat = x.toNat % 2 ^ min width 64 := by
 rw [toNat_and, toNat_lowMask, and_two_pow_sub_one_eq_mod]

theorem isLowMask_zero : IsLowMask 0 :=
 ⟨0, rfl⟩

theorem isLowMask_lowMask (width : Nat) : IsLowMask (lowMask width) :=
 ⟨width, rfl⟩

theorem two_pow_dvd (width : Nat) : 2 ^ min width 64 ∣ 2 ^ 64 :=
 Nat.pow_dvd_pow 2 (min_le_right _ _)

/-! ## Arithmetic under a mask -/

section Arithmetic

variable {mask : Word} (h : IsLowMask mask) (x y k : Word)
include h

theorem and_add_and : (x &&& mask) + y &&& mask = x + y &&& mask := by
 obtain ⟨width, rfl⟩ := h
 apply eq_of_toNat_eq
 rw [toNat_and_lowMask, toNat_and_lowMask, toNat_add, toNat_add, toNat_and_lowMask,
  mod_mod_of_dvd _ (two_pow_dvd width), mod_mod_of_dvd _ (two_pow_dvd width), mod_add_mod]

theorem add_and_and : x + (y &&& mask) &&& mask = x + y &&& mask := by
 rw [add_comm, and_add_and h, add_comm]

omit h in
theorem and_mask_and_mask : x &&& mask &&& mask = x &&& mask := by
 rw [BitVec.and_assoc, BitVec.and_self]

end Arithmetic

/-! ## Values that take offsets -/

/-- A value takes an offset modulo its mask. -/
class Offsets (V : Type*) where
 shift : V → Word → V
 mask : V → Word
 isLowMask : ∀ v, IsLowMask (mask v)
 shift_zero : ∀ v, shift v 0 = v
 shift_shift : ∀ v a b, shift (shift v a) b = shift v (a + b)
 shift_mask : ∀ v a, shift v (a &&& mask v) = shift v a
 mask_shift : ∀ v a, mask (shift v a) = mask v

namespace Offsets

attribute [simp] shift_zero shift_shift shift_mask mask_shift

variable {V : Type*} [Offsets V]

/-- Offsets that agree under the mask of a value move it alike. -/
theorem shift_congr {v : V} {a b : Word} (h : a &&& mask v = b &&& mask v) : shift v a = shift v b := by
 rw [← shift_mask, h, shift_mask]

theorem shift_eq_iff {v w : V} {a : Word} : shift v a = w ↔ v = shift w (-a) := by
 constructor
 · rintro rfl
   rw [shift_shift, add_neg_cancel, shift_zero]
 · rintro rfl
   rw [shift_shift, neg_add_cancel, shift_zero]

end Offsets

end Tir
