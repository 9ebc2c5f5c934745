import Tir.Basic.LowBits
import Mathlib.Data.Nat.Log

/-!
# Classes of immediate offsets

A row of `imm` tells the offsets of a class apart by one addition, one mask and one comparison. `fits` builds the cells of what an
operand admits and `opposite` those of the negated offsets. The sum is the offset plus a bias modulo the word (`fits_iff`), so a
class holds an interval of the word, and the cells admit what the operand does but for a signed field without bits
(`classes_exact_iff`).
-/

open BitVec

namespace Tir.Backend.Immediates

/-! ## The cells -/

/-- The encoding range of an immediate operand. The operand checks admit no alignment but a power of two. -/
structure ImmRange where
 width : Nat
 signed : Bool
 align : Nat
 nonzero : Bool
 align_pow : ∃ scale < 32, align = 2 ^ scale

/-- What an operand's offset is to a pattern: any, a class a field holds, or one value. -/
inductive Offset where
 | any
 | field (range : ImmRange)
 | exact (value : BitVec 64)

/-- The last eight cells of an `imm` row. -/
structure Cells where
 width : Nat
 add : Nat
 sub : Nat
 high : Nat
 sign : Nat
 bits : Nat
 align : Nat
 nonzero : Nat
deriving DecidableEq

def ones (bits : Nat) : BitVec 64 :=
 if 64 ≤ bits then allOnes 64 else BitVec.ofNat 64 (2 ^ bits - 1)

/-- Whether the offset `delta` is of the class. -/
def Cells.fits (c : Cells) (delta : BitVec 64) : Bool :=
 let moved := delta + BitVec.ofNat 64 c.add - BitVec.ofNat 64 c.sub
 let moved := (moved + ones c.high + BitVec.ofNat 64 c.sign) &&& ones c.width
 moved == moved &&& ones c.bits && delta &&& BitVec.ofNat 64 c.align == 0#64 && !(c.nonzero != 0 && delta == 0#64)

/-- The low bits of a pattern as a number of its width. -/
def signedBits (bits : BitVec 64) (width : Nat) : Int :=
 if width = 0 ∨ 64 ≤ width then bits.toInt else ((bits <<< (64 - width)).sshiftRight (64 - width)).toInt

def clampWidth (width : Nat) : Nat :=
 max 1 (min width 64)

def nextPowerOfTwo (n : Nat) : Nat :=
 2 ^ Nat.clog 2 n

/-- The cells of the offsets of a child `width` bits wide, unless a literal is further from zero than a cell holds. -/
def fits (offset : Offset) (width : Nat) : Option Cells :=
 let width := clampWidth width
 match offset with
 | .any => some ⟨width, 0, 0, 0, 0, width, 0, 0⟩
 | .exact value =>
  let value := signedBits value width
  let near := value.natAbs
  if near < 2 ^ 32 then
   if value < 0 then some ⟨width, near, 0, 0, 0, 0, 0, 0⟩ else some ⟨width, 0, near, 0, 0, 0, 0, 0⟩
  else none
 | .field field =>
  let align := nextPowerOfTwo (max field.align 1) - 1
  let nonzero := field.nonzero.toNat
  if width ≤ field.width then some ⟨width, 0, 0, 0, 0, width, align, nonzero⟩
  else if field.signed then some ⟨width, 0, 0, field.width - 1, 1, field.width, align, nonzero⟩
  else some ⟨width, 0, 0, 0, 0, field.width, align, nonzero⟩

/-- The cells of the offsets whose negation is of the class. -/
def opposite (c : Cells) : Cells :=
 let high := match c.sign with
  | 0 => c.bits
  | _ => c.high
 ⟨c.width, c.sub, c.add, high, 0, c.bits, c.align, c.nonzero⟩

/-! ## What an operand admits -/

variable {w : Nat}

/-- A constant as a field of the range gives it back: its low bits, extended. -/
def ImmRange.readBack (f : ImmRange) (d : BitVec w) : BitVec w :=
 if f.signed then (d.setWidth f.width).signExtend w else (d.setWidth f.width).setWidth w

/-- The field gives the constant back, and the constant is what the operand declares. -/
def ImmRange.Encodes (f : ImmRange) (d : BitVec w) : Prop :=
 f.readBack d = d ∧ f.align ∣ d.toNat ∧ (f.nonzero = true → d ≠ 0#w)

def Offset.Admits (d : BitVec w) : Offset → Prop
 | .any => True
 | .field f => f.Encodes d
 | .exact value => d = value.setWidth w

/-- A signed field without bits, unless its operand admits nothing at all. -/
def Offset.Degenerate : Offset → Prop
 | .field f => f.signed = true ∧ f.width = 0 ∧ ¬ (f.nonzero = true ∧ 1 < f.align)
 | _ => False

/-- The cells admit the word-wide constants that the operand does, and the opposite cells those whose negation the cells admit. -/
def Exact (offset : Offset) (w : Nat) (c : Cells) : Prop :=
 (∀ d : BitVec w, c.fits (d.setWidth 64) = true ↔ offset.Admits d) ∧
  ∀ d : BitVec w, (opposite c).fits (d.setWidth 64) = c.fits ((-d).setWidth 64)

/-! ## The masked sum -/

theorem ones_toNat {bits : Nat} (h : bits ≤ 64) : (ones bits).toNat = 2 ^ bits - 1 := by
 unfold ones
 split
 · obtain rfl : bits = 64 := by omega
   rfl
 · have hlt : 2 ^ bits < 2 ^ 64 := Nat.pow_lt_pow_right (by decide) (by omega)
   rw [toNat_ofNat, Nat.mod_eq_of_lt (by omega)]

theorem and_ones_toNat {bits : Nat} (h : bits ≤ 64) (x : BitVec 64) : (x &&& ones bits).toNat = x.toNat % 2 ^ bits := by
 rw [toNat_and, ones_toNat h, Nat.and_two_pow_sub_one_eq_mod]

/-- What the cells add to an offset. -/
def Cells.bias (c : Cells) : Int :=
 c.add - c.sub + (2 ^ c.high - 1) + c.sign

theorem ones_eq {bits : Nat} (h : bits ≤ 64) : ones bits = BitVec.ofInt 64 (2 ^ bits - 1) := by
 have hcast : ((2 ^ bits - 1 : Nat) : Int) = 2 ^ bits - 1 := by
  rw [Nat.cast_sub Nat.one_le_two_pow]
  norm_num
 rw [← hcast, ofInt_natCast, ← ones_toNat h, ofNat_toNat, setWidth_eq]

theorem moved_eq (c : Cells) (hw : c.width ≤ 64) (hhigh : c.high ≤ 64) (delta : BitVec 64) :
  (((delta + BitVec.ofNat 64 c.add - BitVec.ofNat 64 c.sub + ones c.high + BitVec.ofNat 64 c.sign) &&&
   ones c.width).toNat : Int) = (delta.toNat + c.bias) % 2 ^ c.width := by
 have hsum : delta + BitVec.ofNat 64 c.add - BitVec.ofNat 64 c.sub + ones c.high + BitVec.ofNat 64 c.sign =
   BitVec.ofInt 64 (delta.toNat + c.bias) := by
  have hbias : delta.toNat + c.bias = delta.toNat + c.add + -(c.sub : Int) + (2 ^ c.high - 1) + c.sign := by
   rw [Cells.bias]
   ring
  rw [hbias, ofInt_add, ofInt_add, ofInt_add, ofInt_add, ofInt_neg, ← ones_eq hhigh, ← BitVec.sub_eq_add_neg]
  simp
 have hdvd : (2 ^ c.width : Int) ∣ 2 ^ 64 := pow_dvd_pow 2 hw
 rw [and_ones_toNat hw, hsum, Int.natCast_emod, toNat_ofInt, Int.toNat_of_nonneg (Int.emod_nonneg _ (by decide))]
 exact Int.emod_emod_of_dvd _ hdvd

/-- Cells admit the offsets that stay below `2 ^ bits` past the bias. -/
theorem fits_iff (c : Cells) (hw : c.width ≤ 64) (hhigh : c.high ≤ 64) (hbits : c.bits ≤ c.width) (delta : BitVec 64) :
  c.fits delta = true ↔ (delta.toNat + c.bias) % 2 ^ c.width < 2 ^ c.bits ∧ delta &&& BitVec.ofNat 64 c.align = 0#64 ∧
   (c.nonzero ≠ 0 → delta ≠ 0#64) := by
 have hmoved := moved_eq c hw hhigh delta
 generalize hx : (delta + BitVec.ofNat 64 c.add - BitVec.ofNat 64 c.sub + ones c.high + BitVec.ofNat 64 c.sign) &&&
  ones c.width = x at hmoved
 have hlow : x = x &&& ones c.bits ↔ (delta.toNat + c.bias) % 2 ^ c.width < 2 ^ c.bits := by
  rw [← hmoved, ← toNat_inj, and_ones_toNat (hbits.trans hw)]
  have hpos : 0 < 2 ^ c.bits := Nat.two_pow_pos _
  constructor
  · intro h
    rw [h]
    exact_mod_cast Nat.mod_lt _ hpos
  · intro h
    exact (Nat.mod_eq_of_lt (by exact_mod_cast h)).symm
 simp only [Cells.fits, hx]
 rw [← hlow]
 simp only [Bool.and_eq_true, beq_iff_eq, Bool.not_eq_true', Bool.and_eq_false_imp, bne_iff_ne, beq_eq_false_iff_ne]
 tauto

theorem clampWidth_eq (hpos : 0 < w) (hle : w ≤ 64) : clampWidth w = w := by
 rw [clampWidth]
 omega

theorem mask_eq (f : ImmRange) : ∃ scale < 32, f.align = 2 ^ scale ∧ nextPowerOfTwo (max f.align 1) - 1 = 2 ^ scale - 1 := by
 obtain ⟨scale, hlt, halign⟩ := f.align_pow
 refine ⟨scale, hlt, halign, ?_⟩
 rw [nextPowerOfTwo, halign, max_eq_left Nat.one_le_two_pow, Nat.clog_pow 2 scale (by decide)]

/-- An offset clear under the mask is aligned. -/
theorem and_mask_eq_zero_iff {scale : Nat} (hscale : scale < 32) (hle : w ≤ 64) (d : BitVec w) :
  d.setWidth 64 &&& BitVec.ofNat 64 (2 ^ scale - 1) = 0#64 ↔ 2 ^ scale ∣ d.toNat := by
 have hlt : 2 ^ scale < 2 ^ 64 := Nat.pow_lt_pow_right (by decide) (by omega)
 rw [← toNat_inj, toNat_and, toNat_setWidth_of_le hle, toNat_ofNat, Nat.mod_eq_of_lt (by omega), Nat.and_two_pow_sub_one_eq_mod,
  Nat.dvd_iff_mod_eq_zero]
 rfl

theorem setWidth_eq_zero_iff (hle : w ≤ 64) (d : BitVec w) : d.setWidth 64 = 0#64 ↔ d = 0#w := by
 rw [← toNat_inj, ← toNat_inj, toNat_setWidth_of_le hle]
 rfl

/-! ## The fields -/

theorem readBack_of_le {f : ImmRange} (h : w ≤ f.width) (d : BitVec w) : f.readBack d = d := by
 rw [ImmRange.readBack]
 split
 · rw [signExtend_eq_setWidth_of_le _ h, setWidth_setWidth_of_le _ h, setWidth_eq]
 · rw [setWidth_setWidth_of_le _ h, setWidth_eq]

theorem readBack_unsigned {f : ImmRange} (hlt : f.width < w) (hsigned : f.signed = false) (d : BitVec w) :
  f.readBack d = d ↔ d.toNat < 2 ^ f.width := by
 rw [ImmRange.readBack, hsigned, if_neg (by decide), ← toNat_inj, toNat_setWidth, toNat_setWidth,
  Nat.mod_eq_of_lt (lt_of_lt_of_le (Nat.mod_lt _ (Nat.two_pow_pos _)) (Nat.pow_le_pow_right (by decide) hlt.le))]
 constructor
 · intro h
   rw [← h]
   exact Nat.mod_lt _ (Nat.two_pow_pos _)
 · exact Nat.mod_eq_of_lt

/-- A signed field holds the constants within half its reach of zero. -/
theorem readBack_signed {f : ImmRange} (hpos : 0 < f.width) (hlt : f.width < w) (hsigned : f.signed = true) (d : BitVec w) :
  f.readBack d = d ↔ (d.toNat + 2 ^ (f.width - 1)) % 2 ^ w < 2 ^ f.width := by
 have hhalf : 2 ^ f.width = 2 * 2 ^ (f.width - 1) := by
  rw [← pow_succ', Nat.sub_one_add_one hpos.ne']
 have hword : 2 ^ w = 2 ^ f.width * 2 ^ (w - f.width) := by
  rw [← pow_add, Nat.add_sub_cancel' hlt.le]
 have hdvd : ((2 ^ f.width : Nat) : Int) ∣ d.toInt - d.toNat := by
  rw [toInt_eq_toNat_cond]
  split
  · simp
  · rw [hword]
    exact ⟨-2 ^ (w - f.width), by push_cast; ring⟩
 have hround : f.readBack d = d ↔ -((2 ^ f.width : Nat) / 2 : Int) ≤ d.toInt ∧ d.toInt < ((2 ^ f.width : Nat) + 1 : Int) / 2 := by
  rw [ImmRange.readBack, hsigned, if_pos rfl, ← toInt_inj, toInt_signExtend_of_le hlt.le, toInt_setWidth,
   Int.bmod_eq_iff (Nat.two_pow_pos _)]
  simp only [hdvd, and_true]
 have hd := d.isLt
 have hwide : 2 * 2 ^ f.width ≤ 2 ^ w := by
  rw [← pow_succ']
  exact Nat.pow_le_pow_right (by decide) hlt
 rw [hround, toInt_eq_toNat_cond]
 generalize 2 ^ (f.width - 1) = half at *
 generalize 2 ^ f.width = reach at *
 generalize 2 ^ w = word at *
 by_cases hover : d.toNat + half < word
 · rw [Nat.mod_eq_of_lt hover]
   split <;> omega
 · rw [Nat.mod_eq_sub_mod (by omega), Nat.mod_eq_of_lt (by omega)]
   split <;> omega

/-! ## The opposite class -/

theorem dvd_neg_iff (scale : Nat) (d : BitVec w) : 2 ^ scale ∣ (-d).toNat ↔ 2 ^ scale ∣ d.toNat := by
 have hd := d.isLt
 by_cases hle : scale ≤ w
 · rw [toNat_neg, Nat.dvd_mod_iff (Nat.pow_dvd_pow 2 hle), Nat.dvd_sub_iff_right hd.le (Nat.pow_dvd_pow 2 hle)]
 · have hlt : 2 ^ w < 2 ^ scale := Nat.pow_lt_pow_right (by decide) (by omega)
   have hzero : ∀ x : BitVec w, 2 ^ scale ∣ x.toNat ↔ x = 0#w := fun x => by
    rw [← toNat_inj, toNat_zero]
    exact ⟨fun h => Nat.eq_zero_of_dvd_of_lt h (x.isLt.trans hlt), fun h => h ▸ Nat.dvd_zero _⟩
   rw [hzero, hzero, BitVec.neg_eq_zero_iff]

theorem neg_toNat_emod (d : BitVec w) (z : Int) : (((-d).toNat : Int) + z) % 2 ^ w = (z - d.toNat) % 2 ^ w := by
 rw [toNat_neg, Int.natCast_emod, Nat.cast_sub d.isLt.le]
 push_cast
 rw [Int.emod_add_emod, show (2 ^ w - d.toNat + z : Int) = z - d.toNat + 2 ^ w by ring, Int.add_emod_right]

/-- An interval of the word, mirrored. -/
theorem mirror_lt_iff {word reach : Int} (hreach : reach ≤ word) (hpos : 0 < reach) (z : Int) :
  (reach - 1 - z) % word < reach ↔ z % word < reach := by
 have hword : 0 < word := hpos.trans_le hreach
 have hlow := Int.emod_nonneg z hword.ne'
 have hhigh := Int.emod_lt_of_pos z hword
 rw [← Int.sub_emod_emod]
 generalize z % word = y at *
 by_cases hin : y < reach
 · rw [Int.emod_eq_of_lt (by omega) (by omega)]
   omega
 · rw [← Int.add_emod_right, Int.emod_eq_of_lt (by omega) (by omega)]
   omega

section

variable (c : Cells) (hle : c.width ≤ 64) (hhigh : c.high ≤ 64) {scale : Nat}
include hle hhigh

/-- Where the opposite bias is the mirrored one, the opposite cells admit what the cells admit negated. -/
theorem opposite_fits (hbits : c.bits ≤ c.width) (hscale : scale < 32) (halign : c.align = 2 ^ scale - 1)
  (hbias : (opposite c).bias = 2 ^ c.bits - 1 - c.bias) (d : BitVec c.width) :
  (opposite c).fits (d.setWidth 64) = c.fits ((-d).setWidth 64) := by
 have hopposite : (opposite c).high ≤ 64 := by
  unfold opposite
  split
  · exact hbits.trans hle
  · exact hhigh
 have hreach : (2 ^ c.bits : Int) ≤ 2 ^ c.width := by
  exact_mod_cast Nat.pow_le_pow_right (by decide) hbits
 rw [Bool.eq_iff_iff, fits_iff (opposite c) hle hopposite hbits, fits_iff c hle hhigh hbits, hbias, toNat_setWidth_of_le hle,
  toNat_setWidth_of_le hle, neg_toNat_emod]
 have halign' : (opposite c).align = 2 ^ scale - 1 := halign
 have hsum : ((d.toNat : Int) + (2 ^ c.bits - 1 - c.bias)) = 2 ^ c.bits - 1 - (c.bias - d.toNat) := by ring
 rw [halign, halign', and_mask_eq_zero_iff hscale hle, and_mask_eq_zero_iff hscale hle, dvd_neg_iff, hsum]
 refine and_congr (mirror_lt_iff hreach (by exact_mod_cast Nat.two_pow_pos c.bits) _) (and_congr Iff.rfl ?_)
 refine imp_congr Iff.rfl (not_congr ?_)
 rw [setWidth_eq_zero_iff hle, setWidth_eq_zero_iff hle, BitVec.neg_eq_zero_iff]

/-! ## The classes -/

theorem fits_of_whole (hbits : c.bits = c.width) (halign : c.align = 0) (hnz : c.nonzero = 0) (d : BitVec c.width) :
  c.fits (d.setWidth 64) = true := by
 rw [fits_iff c hle hhigh hbits.le, hbits, halign, hnz]
 exact ⟨Int.emod_lt_of_pos _ (by exact_mod_cast Nat.two_pow_pos _), by simp, fun h => absurd rfl h⟩

theorem fits_of_value (hbits : c.bits = 0) (halign : c.align = 0) (hnz : c.nonzero = 0) {x : BitVec c.width}
  (hbias : c.bias = -x.toInt) (d : BitVec c.width) : c.fits (d.setWidth 64) = true ↔ d = x := by
 have hdiff : BitVec.ofInt c.width (d.toNat + -x.toInt) = d - x := by
  rw [ofInt_add, ofInt_neg, ofInt_natCast, ofInt_toInt, ofNat_toNat, setWidth_eq, BitVec.sub_eq_add_neg]
 have hsum : ((d.toNat : Int) + -x.toInt) % 2 ^ c.width = (d - x).toNat := by
  rw [← hdiff, toNat_ofInt, Int.toNat_of_nonneg (Int.emod_nonneg _ (by exact_mod_cast (Nat.two_pow_pos _).ne'))]
  norm_num
 rw [fits_iff c hle hhigh (by omega), toNat_setWidth_of_le hle, hbias, hsum, hbits, halign, hnz]
 have hzero : ((d - x).toNat : Int) < 2 ^ 0 ↔ d = x := by
  have hsub : d = x ↔ (d - x).toNat = 0 := by
   rw [← sub_eq_zero, ← toNat_inj]
   simp
  rw [hsub]
  omega
 rw [hzero]
 simp

theorem fits_of_field {f : ImmRange} (hbits : c.bits ≤ c.width) (hscale : scale < 32) (halign : f.align = 2 ^ scale)
  (hcell : c.align = 2 ^ scale - 1) (hnz : c.nonzero = f.nonzero.toNat) (d : BitVec c.width)
  (hheld : ((d.toNat : Int) + c.bias) % 2 ^ c.width < 2 ^ c.bits ↔ f.readBack d = d) :
  c.fits (d.setWidth 64) = true ↔ f.Encodes d := by
 rw [fits_iff c hle hhigh hbits, toNat_setWidth_of_le hle, hheld, hcell, and_mask_eq_zero_iff hscale hle, ImmRange.Encodes, halign,
  hnz, ne_eq, ne_eq, setWidth_eq_zero_iff hle]
 cases f.nonzero <;> simp

end

theorem signedBits_eq (value : BitVec 64) (hpos : 0 < w) (hle : w ≤ 64) : signedBits value w = (value.setWidth w).toInt := by
 rw [signedBits]
 split
 · obtain rfl : w = 64 := by omega
   rw [setWidth_eq]
 · rw [← LowBits.signExtend_low value hpos hle, toInt_signExtend_of_le hle]

theorem exact_any (hle : w ≤ 64) : Exact .any w ⟨w, 0, 0, 0, 0, w, 0, 0⟩ := by
 let c : Cells := ⟨w, 0, 0, 0, 0, w, 0, 0⟩
 refine ⟨fun d => iff_of_true (fits_of_whole c hle (Nat.zero_le 64) rfl rfl rfl d) trivial, ?_⟩
 exact opposite_fits c hle (Nat.zero_le 64) le_rfl (by decide : 0 < 32) rfl (by simp [c, opposite, Cells.bias])

theorem exact_value {value : BitVec 64} {add sub : Nat} (hle : w ≤ 64) (h : (sub : Int) - add = (value.setWidth w).toInt) :
  Exact (.exact value) w ⟨w, add, sub, 0, 0, 0, 0, 0⟩ := by
 let c : Cells := ⟨w, add, sub, 0, 0, 0, 0, 0⟩
 have hbias : c.bias = -(value.setWidth w).toInt := by
  simp only [c, Cells.bias]
  omega
 refine ⟨fits_of_value c hle (Nat.zero_le 64) rfl rfl rfl hbias, ?_⟩
 exact opposite_fits c hle (Nat.zero_le 64) (Nat.zero_le _) (by decide : 0 < 32) rfl (by simp [c, opposite, Cells.bias])

/-- Cells of a field whose shifted interval is what the field gives back. -/
theorem exact_field {f : ImmRange} {scale bits high sign : Nat} (halign : f.align = 2 ^ scale) (hscale : scale < 32)
  (hle : w ≤ 64) (hbits : bits ≤ w) (hhigh : high ≤ 64) (hsign : high = 0 ∧ sign = 0 ∨ bits = high + 1 ∧ sign = 1)
  (hheld : ∀ d : BitVec w, (d.toNat + (2 ^ high - 1 + sign)) % 2 ^ w < 2 ^ bits ↔ f.readBack d = d) :
  Exact (.field f) w ⟨w, 0, 0, high, sign, bits, 2 ^ scale - 1, f.nonzero.toNat⟩ := by
 let c : Cells := ⟨w, 0, 0, high, sign, bits, 2 ^ scale - 1, f.nonzero.toNat⟩
 have hbias : c.bias = (2 ^ high - 1 + sign : Nat) := by
  have hpos : 1 ≤ 2 ^ high := Nat.one_le_two_pow
  simp only [c, Cells.bias]
  push_cast [hpos]
  ring
 refine ⟨fun d => fits_of_field c hle hhigh hbits hscale halign rfl rfl d ?_, ?_⟩
 · rw [← hheld d, hbias]
   norm_cast
 · refine opposite_fits c hle hhigh hbits hscale rfl ?_
   rcases hsign with ⟨rfl, rfl⟩ | ⟨rfl, rfl⟩
   · simp [c, opposite, Cells.bias]
   · simp only [c, opposite, Cells.bias]
     ring

/-- Without bits a signed field's cells admit the constant of all ones, or nothing. -/
theorem exact_empty_iff {f : ImmRange} {scale : Nat} (hpos : 0 < w) (hle : w ≤ 64) (halign : f.align = 2 ^ scale)
  (hscale : scale < 32) (hwid : f.width = 0) (hsigned : f.signed = true) :
  Exact (.field f) w ⟨w, 0, 0, 0, 1, 0, 2 ^ scale - 1, f.nonzero.toNat⟩ ↔ f.nonzero = true ∧ 1 < f.align := by
 let c : Cells := ⟨w, 0, 0, 0, 1, 0, 2 ^ scale - 1, f.nonzero.toNat⟩
 have hword : 2 ^ w = 2 * 2 ^ (w - 1) := by
  rw [← Nat.pow_succ', Nat.succ_eq_add_one, Nat.sub_add_cancel hpos]
 have hmid : 0 < 2 ^ (w - 1) := Nat.two_pow_pos _
 have hback : ∀ d : BitVec w, f.readBack d = 0#w := fun d => by
  rw [ImmRange.readBack, if_pos hsigned, ← toInt_inj, toInt_signExtend_of_le (by omega), toInt_setWidth, hwid]
  simp [Int.bmod_one]
 have hencodes : ∀ d : BitVec w, f.Encodes d ↔ d = 0#w ∧ f.nonzero = false := fun d => by
  rw [ImmRange.Encodes, hback]
  constructor
  · rintro ⟨rfl, -, hne⟩
    exact ⟨rfl, Bool.eq_false_of_not_eq_true fun h => hne h rfl⟩
  · rintro ⟨rfl, hnz⟩
    exact ⟨rfl, by simp, by simp [hnz]⟩
 have hfits : ∀ d : BitVec w, c.fits (d.setWidth 64) = true ↔
   d.toNat + 1 = 2 ^ w ∧ 2 ^ scale ∣ d.toNat ∧ (f.nonzero = true → d ≠ 0#w) := fun d => by
  have hsum : ((d.toNat : Int) + c.bias) % 2 ^ c.width < 2 ^ c.bits ↔ d.toNat + 1 = 2 ^ w := by
   have hbias : ((d.toNat : Int) + c.bias) % 2 ^ c.width = ((d.toNat + 1) % 2 ^ w : Nat) := by
    simp [c, Cells.bias]
   rw [hbias]
   by_cases hlast : d.toNat + 1 = 2 ^ w
   · simp [c, hlast]
   · rw [Nat.mod_eq_of_lt (by omega)]
     simp only [c, pow_zero]
     omega
  rw [fits_iff c hle (Nat.zero_le 64) (Nat.zero_le _), toNat_setWidth_of_le hle, hsum, and_mask_eq_zero_iff hscale hle]
  refine and_congr Iff.rfl (and_congr Iff.rfl (imp_congr ?_ (not_congr (setWidth_eq_zero_iff hle d))))
  cases hnz : f.nonzero <;> simp [c, hnz]
 rw [halign]
 constructor
 · rintro ⟨hexact, -⟩
   have hzero := (hfits 0#w).symm.trans ((hexact 0#w).trans (hencodes 0#w))
   have hones := (hfits (allOnes w)).symm.trans ((hexact (allOnes w)).trans (hencodes (allOnes w)))
   rw [toNat_zero] at hzero
   rw [toNat_allOnes] at hones
   have hne : allOnes w ≠ 0#w := fun h => by
    have := congrArg BitVec.toNat h
    rw [toNat_allOnes, toNat_zero] at this
    omega
   refine ⟨Bool.eq_true_of_not_eq_false fun h => ?_, ?_⟩
   · have := (hzero.2 ⟨rfl, h⟩).1
     omega
   · by_contra hunit
     have hone : 2 ^ scale = 1 := by
      have := Nat.two_pow_pos scale
      omega
     refine hne (hones.1 ⟨by omega, ?_, fun _ => hne⟩).1
     rw [hone]
     exact Nat.one_dvd _
 · rintro ⟨hnz, hscaled⟩
   have hodd : ∀ d : BitVec w, ¬ (d.toNat + 1 = 2 ^ w ∧ 2 ^ scale ∣ d.toNat) := fun d ⟨hlast, hdvd⟩ => by
    have htwo : 2 ∣ d.toNat := (dvd_pow_self 2 (by rintro rfl; simp at hscaled)).trans hdvd
    omega
   refine ⟨fun d => (hfits d).trans (Iff.trans ?_ (hencodes d).symm), fun d => ?_⟩
   · rw [hnz]
     exact iff_of_false (fun h => hodd d ⟨h.1, h.2.1⟩) fun h => nomatch h.2
   · have hneg : ¬ c.fits ((-d).setWidth 64) = true := fun h => hodd (-d) ⟨((hfits _).1 h).1, ((hfits _).1 h).2.1⟩
     have hopposite : ¬ (opposite c).fits (d.setWidth 64) = true := fun h => by
      obtain ⟨hlow, -, hne⟩ := (fits_iff (opposite c) hle (Nat.zero_le 64) (Nat.zero_le _) _).1 h
      refine hne (by simp [opposite, c, hnz]) ((setWidth_eq_zero_iff hle d).2 ?_)
      have hbias : (opposite c).bias = 0 := by simp [opposite, c, Cells.bias]
      have hzero : (d.toNat : Int) % (2 ^ w : Nat) < 1 := by
       rw [toNat_setWidth_of_le hle, hbias, add_zero] at hlow
       exact_mod_cast hlow
      rw [Int.emod_eq_of_lt (by omega) (by exact_mod_cast d.isLt)] at hzero
      rw [← toNat_inj, toNat_zero]
      omega
     rw [Bool.eq_false_of_not_eq_true hneg, Bool.eq_false_of_not_eq_true hopposite]

/-- A class is exact for every operand, unless a signed field has no bits. -/
theorem classes_exact_iff (offset : Offset) {w : Nat} (hpos : 0 < w) (hle : w ≤ 64) {c : Cells} (h : fits offset w = some c) :
  Exact offset w c ↔ ¬ offset.Degenerate := by
 simp only [fits, clampWidth_eq hpos hle] at h
 cases offset with
 | any =>
  obtain rfl := Option.some.inj h
  exact iff_of_true (exact_any hle) not_false
 | exact value =>
  simp only [signedBits_eq value hpos hle] at h
  refine iff_of_true ?_ not_false
  split at h
  · split at h
    all_goals
     obtain rfl := Option.some.inj h
     refine exact_value hle ?_
     omega
  · exact nomatch h
 | field f =>
  obtain ⟨scale, hscale, halign, hmask⟩ := mask_eq f
  simp only [hmask] at h
  split at h
  case isTrue hwide =>
   obtain rfl := Option.some.inj h
   refine iff_of_true (exact_field halign hscale hle le_rfl (Nat.zero_le 64) (.inl ⟨rfl, rfl⟩) fun d => ?_) fun hdegenerate => ?_
   · exact iff_of_true (Nat.mod_lt _ (Nat.two_pow_pos _)) (readBack_of_le hwide d)
   · have := hdegenerate.2.1
     omega
  case isFalse hnarrow =>
   have hlt : f.width < w := by omega
   split at h
   case isFalse hsigned =>
    obtain rfl := Option.some.inj h
    refine iff_of_true (exact_field halign hscale hle hlt.le (Nat.zero_le 64) (.inl ⟨rfl, rfl⟩) fun d => ?_)
     fun hdegenerate => hsigned hdegenerate.1
    rw [readBack_unsigned hlt (Bool.eq_false_of_not_eq_true hsigned), pow_zero, Nat.sub_self, Nat.add_zero, Nat.mod_eq_of_lt d.isLt]
   case isTrue hsigned =>
    obtain rfl := Option.some.inj h
    by_cases hempty : f.width = 0
    · rw [hempty, exact_empty_iff hpos hle halign hscale hempty hsigned]
      simp only [Offset.Degenerate, hsigned, hempty, true_and, Classical.not_not]
    · refine iff_of_true (exact_field halign hscale hle hlt.le (by omega) (.inr ⟨by omega, rfl⟩) fun d => ?_)
       fun hdegenerate => hempty hdegenerate.2.1
      rw [readBack_signed (Nat.pos_of_ne_zero hempty) hlt hsigned, Nat.sub_add_cancel Nat.one_le_two_pow]

/-- The signed field without bits. -/
def emptyField : ImmRange := ⟨0, true, 1, false, 0, by decide, by decide⟩

/-- On a byte its cells admit the constant of all ones, and not zero, which the field gives back. -/
theorem empty_not_exact : ∃ c, fits (.field emptyField) 8 = some c ∧ ¬ Exact (.field emptyField) 8 c := by
 refine ⟨⟨8, 0, 0, 0, 1, 0, 0, 0⟩, by decide, fun h => ?_⟩
 have hzero : (⟨8, 0, 0, 0, 1, 0, 0, 0⟩ : Cells).fits ((0#8).setWidth 64) = true :=
  (h.1 0#8).2 ⟨by decide, by decide, by decide⟩
 exact absurd hzero (by decide)

theorem classes_exact_iff_byte :
  Exact (.field ⟨5, true, 2, true, 1, by decide, by decide⟩) 8 ⟨8, 0, 0, 4, 1, 5, 1, 1⟩ ↔
   ¬ (Offset.field ⟨5, true, 2, true, 1, by decide, by decide⟩).Degenerate :=
 classes_exact_iff _ (by decide) (by decide) (by decide)

end Tir.Backend.Immediates
