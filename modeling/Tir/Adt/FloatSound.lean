import Tir.Adt.FloatArith

/-!
# Operations are correctly rounded

Every operation of `eval_float`, in every width and rounding direction, on every bit pattern, delivers its exact
result rounded once and the flags of that rounding (`evalFloat_correct`).
-/

namespace Tir.Adt

open Rounding Format Exact Decoded

/-! ## Packing -/

section Pack

variable {format : Format} {value : Finite} {v : ℝ}

/-- A packed value meets the real it stands for. -/
theorem pack_value (hfits : format.Fits) (h : Stands value v) (mode : RoundingMode) :
  Meets format mode (.value v) (format.pack value mode) := by
 obtain ⟨hpos, hlt, x, hsticky, hwide, rfl⟩ := h
 have hfrac := hfits.fraction_le
 have hxpos : 0 < x := by
  rcases hsticky with rfl | ⟨hodd, hlow, -⟩
  · exact Nat.cast_pos.2 hpos
  · have hone : (1 : ℝ) ≤ value.significand := by exact_mod_cast hpos
    linarith
 refine ⟨value.negative, (signed_neg_iff (mul_pos hxpos (two_zpow_pos _))).symm, ?_⟩
 apply pack_rounds hfits hpos hlt hsticky
 exact hwide.imp_right fun hle => le_trans (Nat.pow_le_pow_right (by omega) (by omega)) hle

theorem pack_zero (hzero : value.significand = 0) (mode : RoundingMode) :
  format.pack value mode = ⟨format.fields value.negative 0 0, 0⟩ := by
 rw [pack.eq_def, if_pos hzero, zero_eq]

theorem real_stands (hpos : 0 < value.significand) (hlt : value.significand < 2 ^ 128) : Stands value value.real :=
 ⟨hpos, hlt, value.significand, .exact _, .inl rfl, rfl⟩

theorem real_eq_zero_iff : value.real = 0 ↔ value.significand = 0 := by
 rw [Finite.real, signed_eq_zero, mul_eq_zero, Nat.cast_eq_zero]
 exact or_iff_left (two_zpow_pos _).ne'

theorem magnitude_eq_zero_iff : value.magnitude = 0 ↔ value.significand = 0 := by
 rw [Finite.magnitude, mul_eq_zero, Nat.cast_eq_zero]
 exact or_iff_left (two_zpow_pos _).ne'

/-- A packed value meets its own real. -/
theorem pack_ofReal (hfits : format.Fits) (hlt : value.significand < 2 ^ 128) {negativeZero : Bool}
  (hzero : value.significand = 0 → value.negative = negativeZero) (mode : RoundingMode) :
  Meets format mode (Exact.ofReal negativeZero value.real) (format.pack value mode) := by
 rw [ofReal]
 by_cases h : value.significand = 0
 · rw [if_pos (real_eq_zero_iff.2 h), pack_zero h, hzero h]
   rfl
 grind [real_eq_zero_iff, pack_value, real_stands]

end Pack

/-! ## Values and data -/

/-- A decoded value that is no NaN denotes a datum, with a significand of bounded length. -/
inductive Denotes (bound : Nat) : Decoded → Datum → Prop
 | infinity (negative : Bool) : Denotes bound (.infinity negative) (.infinity negative)
 | finite (value : Finite) (hlt : value.significand < 2 ^ bound) :
   Denotes bound (.finite value) (.finite value.negative value.magnitude)

variable {datum : Datum} {destination source : Format}

theorem Denotes.mono {bound bound' : Nat} {value : Decoded} (h : Denotes bound value datum)
  (hle : bound ≤ bound') : Denotes bound' value datum := by
 cases h with
 | infinity negative => exact .infinity negative
 | finite value hlt => exact .finite value (hlt.trans_le (Nat.pow_le_pow_right (by omega) hle))

theorem denotes_of_reads {format : Format} (hfits : format.Fits) {value : Decoded}
  (h : Format.Reads format value datum) (hnan : firstNan [datum] = none) : Denotes 53 value datum := by
 cases h with
 | nan negative _ _ => nomatch hnan
 | infinity negative => exact .infinity negative
 | finite negative hlt hleast =>
  have hfrac := hfits.fraction_le
  exact .finite _ (hlt.trans_le (Nat.pow_le_pow_right (by omega) (by omega)))

theorem firstNan_cons {data : List Datum} (h : firstNan (datum :: data) = none) :
  firstNan [datum] = none ∧ firstNan data = none := by
 cases datum with
 | nan negative fraction => nomatch h
 | infinity negative => exact ⟨rfl, h⟩
 | finite negative magnitude => exact ⟨rfl, h⟩

section Operations

variable {format : Format} {a b : Decoded} {x y : Datum} {bound : Nat}

theorem add_meets (hfits : format.Fits) (ha : Denotes 110 a x) (hb : Denotes 110 b y) (mode : RoundingMode) :
  Meets format mode (Exact.add mode x y) (add format a b mode) := by
 cases ha with
 | infinity s =>
  cases hb with
  | infinity t =>
   by_cases hst : s = t
   · rw [Exact.add, if_pos hst, add, if_neg (not_not_intro hst), finish, Format.infinity_eq]
     rfl
   · rw [Exact.add, if_neg hst, add, if_pos hst, invalid, Format.quietNan_eq hfits]
     rfl
  | finite right hr =>
   rw [Exact.add, add, finish, Format.infinity_eq]
   · rfl
   · nofun
 | finite left hl =>
  cases hb with
  | infinity t =>
   rw [Exact.add, add, finish, Format.infinity_eq]
   · rfl
   · nofun
  | finite right hr =>
   rw [Exact.add, add]
   change Meets format mode (Exact.ofReal _ (left.real + right.real)) _
   by_cases hlz : left.significand = 0
   · have hlreal : left.real = 0 := real_eq_zero_iff.2 hlz
     by_cases hrz : right.significand = 0
     · have hrreal : right.real = 0 := real_eq_zero_iff.2 hrz
       rw [hlreal, hrreal, add_zero, ofReal, if_pos rfl, addFinite_zeros hlz hrz, pack_zero rfl]
       rfl
     grind [addFinite_zero_left, pack_ofReal]
   · by_cases hrz : right.significand = 0
     · grind [real_eq_zero_iff, addFinite_zero_right, pack_ofReal]
     · obtain ⟨hcancel, hstands⟩ := addFinite_spec (Nat.pos_of_ne_zero hlz) (Nat.pos_of_ne_zero hrz) hl hr mode
       rw [ofReal]
       split
       · rename_i hzero
         obtain ⟨hne, hnegative, hsig⟩ := hcancel hzero
         rw [pack_zero hsig, hnegative, if_neg hne]
         rfl
       grind [pack_value]

/-- A product is undefined for an infinity and a zero, else it is denoted by the product of the values. -/
theorem multiply_denotes (ha : Denotes 53 a x) (hb : Denotes 53 b y) :
  (a.isInfinity && b.isZero || b.isInfinity && a.isZero) = true ∧ Exact.product x y = none ∨
   (a.isInfinity && b.isZero || b.isInfinity && a.isZero) = false ∧
    ∃ z, Exact.product x y = some z ∧ Denotes 106 (multiply a b) z := by
 cases ha with
 | infinity s =>
  cases hb with
  | infinity t => exact .inr ⟨rfl, _, rfl, .infinity _⟩
  | finite right hr =>
   by_cases hzero : right.significand = 0
   · refine .inl ⟨?_, if_pos (magnitude_eq_zero_iff.2 hzero)⟩
     simp [isInfinity, isZero, hzero]
   · refine .inr ⟨?_, _, if_neg (mt magnitude_eq_zero_iff.1 hzero), .infinity _⟩
     simp [isInfinity, isZero, hzero]
 | finite left hl =>
  cases hb with
  | infinity t =>
   by_cases hzero : left.significand = 0
   · refine .inl ⟨?_, if_pos (magnitude_eq_zero_iff.2 hzero)⟩
     simp [isInfinity, isZero, hzero]
   · refine .inr ⟨?_, _, if_neg (mt magnitude_eq_zero_iff.1 hzero), .infinity _⟩
     simp [isInfinity, isZero, hzero]
  | finite right hr =>
   have hlt : left.significand * right.significand < 2 ^ 106 :=
    calc left.significand * right.significand ≤ left.significand * 2 ^ 53 := Nat.mul_le_mul_left _ hr.le
     _ < 2 ^ 53 * 2 ^ 53 := Nat.mul_lt_mul_of_pos_right hl (Nat.two_pow_pos _)
     _ = 2 ^ 106 := by norm_num
   have hu128 : u128 (left.significand * right.significand) = left.significand * right.significand :=
    Nat.mod_eq_of_lt (hlt.trans (by norm_num))
   refine .inr ⟨rfl, _, rfl, ?_⟩
   have hmagnitude : left.magnitude * right.magnitude =
     Finite.magnitude ⟨left.negative ^^ right.negative, left.significand * right.significand, left.exponent + right.exponent⟩ := by
    rw [Finite.magnitude, Finite.magnitude, Finite.magnitude, zpow_add₀ (by norm_num)]
    push_cast
    ring
   rw [hmagnitude, multiply]
   rw [hu128]
   exact .finite _ hlt

theorem finish_meets (hfits : format.Fits) (ha : Denotes 106 a x) (mode : RoundingMode) :
  Meets format mode (Exact.ofDatum x) (finish format a mode) := by
 cases ha with
 | infinity s =>
  rw [finish, infinity_eq]
  rfl
 | finite value hlt => exact pack_ofReal hfits (hlt.trans (by norm_num)) (fun _ => rfl) mode

theorem divide_meets (hfits : format.Fits) (ha : Denotes 53 a x) (hb : Denotes 53 b y) (mode : RoundingMode) :
  Meets format mode (Exact.div x y) (divide format a b mode) := by
 cases ha with
 | infinity s =>
  cases hb with
  | infinity t =>
   rw [divide, invalid, quietNan_eq hfits]
   rfl
  | finite right hr =>
   rw [divide, infinity_eq]
   · rfl
   · nofun
 | finite left hl =>
  cases hb with
  | infinity t =>
   rw [divide, zero_eq]
   · rfl
   · nofun
  | finite right hr =>
   rw [div, divide]
   by_cases hrz : right.significand = 0
   · rw [if_pos (magnitude_eq_zero_iff.2 hrz), if_pos hrz]
     by_cases hlz : left.significand = 0
     · rw [if_pos (magnitude_eq_zero_iff.2 hlz), if_pos hlz, invalid, quietNan_eq hfits]
       rfl
     · rw [if_neg (mt magnitude_eq_zero_iff.1 hlz), if_neg hlz, infinity_eq]
       rfl
   · rw [if_neg (mt magnitude_eq_zero_iff.1 hrz), if_neg hrz, ofReal]
     by_cases hlz : left.significand = 0
     · rw [if_pos (by rw [signed_eq_zero, magnitude_eq_zero_iff.2 hlz, zero_div]), if_pos hlz, zero_eq]
       rfl
     · have hlpos := Finite.magnitude_pos (Nat.pos_of_ne_zero hlz)
       have hrpos := Finite.magnitude_pos (Nat.pos_of_ne_zero hrz)
       rw [if_neg (by rw [signed_eq_zero]; exact (div_pos hlpos hrpos).ne'), if_neg hlz]
       exact pack_value hfits (quotient_stands (Nat.pos_of_ne_zero hlz) (Nat.pos_of_ne_zero hrz) hl hr _) mode

theorem sqrt_meets (hfits : format.Fits) (ha : Denotes 53 a x) (mode : RoundingMode) :
  Meets format mode (Exact.sqrt x) (sqrt format a mode) := by
 cases ha with
 | infinity s =>
  cases s with
  | false =>
   rw [sqrt, finish, infinity_eq]
   rfl
  | true =>
   rw [sqrt, invalid, quietNan_eq hfits]
   rfl
 | finite value hlt =>
  rw [Exact.sqrt, sqrt]
  by_cases hzero : value.significand = 0
  · rw [if_pos (magnitude_eq_zero_iff.2 hzero), if_pos hzero, pack_zero hzero]
    rfl
  · rw [if_neg (mt magnitude_eq_zero_iff.1 hzero), if_neg hzero]
    by_cases hnegative : value.negative = true
    · rw [if_pos hnegative, if_pos hnegative, invalid, quietNan_eq hfits]
      rfl
    · rw [if_neg hnegative, if_neg hnegative]
      exact pack_value hfits (root_stands (Nat.pos_of_ne_zero hzero) hlt) mode

end Operations

/-! ## NaNs -/

section Nans

variable {format : Format}

/-- An operation propagates the first NaN, and else delivers what it computes. -/
theorem delivers (hfits : format.Fits) {values : List Decoded} {data : List Datum}
  (h : List.Forall₂ (Format.Reads format) values data) {invalidProduct : Bool} {undefinedProduct : Prop}
  (hproduct : invalidProduct = true ↔ undefinedProduct) {mode : RoundingMode} {exact : Exact} {computed : FloatResult}
  (hmeets : firstNan data = none → Meets format mode exact computed) : Delivers format mode data undefinedProduct exact
   (match format.propagateNan values invalidProduct with
   | some result => result
   | none => computed) := by
 obtain ⟨signals, hsignals, heq⟩ := propagateNan_spec hfits h invalidProduct
 rw [heq, Delivers]
 grind

/-- The test of `eval` tells the products of an infinity and a zero. -/
theorem invalidProduct_iff {a b : Decoded} {x y : Datum} (ha : Format.Reads format a x) (hb : Format.Reads format b y) :
  (a.isInfinity && b.isZero || b.isInfinity && a.isZero) = true ↔ InvalidProduct x y := by
 have hzero : ∀ (m : ℕ) (e : ℤ), (m : ℝ) * 2 ^ e = 0 ↔ m = 0 := by
  intro m e
  rw [mul_eq_zero, Nat.cast_eq_zero]
  exact or_iff_left (two_zpow_pos e).ne'
 cases ha <;> cases hb <;> simp [isInfinity, isZero, InvalidProduct, hzero]

theorem negate_denotes {bound : Nat} {value : Decoded} {datum : Datum} (h : Denotes bound value datum) :
  Denotes bound value.negate (match datum with
   | .finite negative magnitude => .finite (!negative) magnitude
   | .infinity negative => .infinity !negative
   | .nan negative fraction => .nan negative fraction) := by
 cases h with
 | infinity negative => exact .infinity _
 | finite value hlt => exact .finite { value with negative := !value.negative } hlt

end Nans

section Choice

variable {format : Format} {mode : RoundingMode} {invalidProduct : Bool} {computed : FloatResult}

theorem meets_invalid (hfits : format.Fits) (h : invalidProduct = true) :
  Meets format mode .invalid (if invalidProduct then invalid format else computed) := by
 rw [if_pos h, invalid, quietNan_eq hfits]
 rfl

theorem meets_valid {exact : Exact} (h : invalidProduct = false) (hmeets : Meets format mode exact computed) :
  Meets format mode exact (if invalidProduct then invalid format else computed) := by
 rw [h]
 exact hmeets

end Choice

/-! ## Conversions -/

theorem fromInteger_meets {format : Format} (hfits : format.Fits) (bits : BitVec 64) (source : FloatWidth) (isSigned : Bool)
  (mode : RoundingMode) :
  Meets format mode (Exact.ofReal false (integerOf source isSigned bits)) (fromInteger bits source format isSigned mode) := by
 have hpack : ∀ n : ℤ, n.natAbs < 2 ^ 128 → Meets format mode (ofReal false n) (format.pack ⟨decide (n < 0), n.natAbs, 0⟩ mode) := by
  intro n hn
  have hreal : (n : ℝ) = Finite.real ⟨decide (n < 0), n.natAbs, 0⟩ := by
   rw [Finite.real, zpow_zero, mul_one]
   by_cases hneg : n < 0
   · rw [decide_eq_true hneg]
     change (n : ℝ) = -((n.natAbs : ℕ) : ℝ)
     rw [← Int.cast_natCast, ← Int.cast_neg]
     congr 1
     omega
   · rw [decide_eq_false hneg]
     change (n : ℝ) = ((n.natAbs : ℕ) : ℝ)
     rw [← Int.cast_natCast]
     congr 1
     omega
  grind [pack_ofReal]
 have hnat : ∀ n : ℕ, n < 2 ^ 128 → Meets format mode (ofReal false (n : ℤ)) (format.pack ⟨false, n, 0⟩ mode) :=
  fun n hn => hpack n hn
 have hlt := bits.isLt
 have hlt' := (bits.setWidth 32).isLt
 cases source <;> cases isSigned
 · exact hnat _ (hlt'.trans (by norm_num))
 · have hlow := (bits.setWidth 32).le_toInt
   have hhigh := (bits.setWidth 32).toInt_lt
   exact hpack (bits.setWidth 32).toInt (by omega)
 · exact hnat _ (hlt.trans (by norm_num))
 · have hlow := bits.le_toInt
   have hhigh := bits.toInt_lt
   exact hpack bits.toInt (by omega)

/-- Shifting a fraction to another format and quieting it. -/
theorem or_quietNan (hfits : destination.Fits) (negative : Bool) {payload : Nat}
  (hpayload : payload < 2 ^ destination.fraction) : destination.sign negative ||| destination.quietNan ||| payload =
   destination.fields negative destination.special (destination.quieted payload) := by
 have hzero : destination.sign false = 0 := by rw [Format.sign_eq, Bool.toNat_false, zero_mul]
 rw [← Format.fields_or_quiet hfits negative hpayload, ← Format.or_fields negative Format.special_lt hpayload,
  Format.quietNan, Format.infinity, Format.special_eq, hzero, Nat.zero_or, Nat.or_assoc, Nat.or_assoc, Nat.or_assoc,
  Nat.or_assoc, Nat.or_comm (1 <<< _)]

theorem nan_fields (negative : Bool) {fraction : Nat} (hlt : fraction < 2 ^ source.fraction) :
  source.fields negative source.special fraction &&& ((1 <<< source.fraction) - 1) = fraction ∧
   decide (source.fields negative source.special fraction &&& source.sign true ≠ 0) = negative := by
 have hspecial : source.special < 2 ^ source.exponent := special_lt
 have hbody : source.special * 2 ^ source.fraction + fraction < 2 ^ (source.fraction + source.exponent) := by
  rw [pow_add]
  calc source.special * 2 ^ source.fraction + fraction < (source.special + 1) * 2 ^ source.fraction := by
        rw [Nat.succ_mul]
        omega
   _ ≤ 2 ^ source.exponent * 2 ^ source.fraction := Nat.mul_le_mul_right _ hspecial
   _ = 2 ^ source.fraction * 2 ^ source.exponent := mul_comm _ _
 constructor
 · rw [Nat.one_shiftLeft, Nat.and_two_pow_sub_one_eq_mod, fields, pow_add, ← mul_assoc,
    mul_right_comm, ← add_mul, Nat.mul_add_mod_self_right, Nat.mod_eq_of_lt hlt]
 · rw [and_sign, fields, add_assoc, add_comm, Nat.add_mul_div_right _ _ (Nat.two_pow_pos _),
    Nat.div_eq_of_lt hbody, zero_add]
   cases negative <;> rfl

theorem convert_delivers (hsrc : source.Fits) (hdestination : destination.Fits) (bits : Nat) (mode : RoundingMode) :
  DeliversConversion source destination mode (source.datum bits) (convertFloat bits source destination mode) := by
 have hread := decode_reads source bits
 rw [convertFloat]
 generalize source.decode bits = value at hread
 generalize source.datum bits = datum at hread
 cases hread with
 | nan negative hpos hlt =>
  rename_i fraction
  obtain ⟨hfrac, hsign⟩ := nan_fields negative hlt
  have hpayload : (if source.fraction ≤ destination.fraction then fraction <<< (destination.fraction - source.fraction)
    else fraction >>> (source.fraction - destination.fraction)) = fraction * 2 ^ destination.fraction / 2 ^ source.fraction := by
   split
   · rename_i hle
     have hpow : 2 ^ destination.fraction = 2 ^ (destination.fraction - source.fraction) * 2 ^ source.fraction := by
      rw [← pow_add]
      congr 1
      omega
     rw [hpow, ← mul_assoc, Nat.mul_div_cancel _ (Nat.two_pow_pos _), Nat.shiftLeft_eq]
   · rename_i hlt
     have hpow : 2 ^ source.fraction = 2 ^ (source.fraction - destination.fraction) * 2 ^ destination.fraction := by
      rw [← pow_add]
      congr 1
      omega
     rw [hpow, Nat.mul_div_mul_right _ _ (Nat.two_pow_pos _), Nat.shiftRight_eq_div_pow]
  have hless : fraction * 2 ^ destination.fraction / 2 ^ source.fraction < 2 ^ destination.fraction := by
   rw [Nat.div_lt_iff_lt_mul (Nat.two_pow_pos _), mul_comm]
   exact Nat.mul_lt_mul_of_pos_left hlt (Nat.two_pow_pos _)
  dsimp only
  rw [hfrac, hsign, hpayload, or_quietNan hdestination negative hless]
  change _ = _
  cases source.isSignaling fraction <;> rfl
 | infinity negative =>
  dsimp only
  rw [infinity_eq]
  rfl
 | finite negative hlt hleast =>
  rename_i significand exponent
  have hfrac := hsrc.fraction_le
  have hshort : (Finite.mk negative significand exponent).significand < 2 ^ 128 :=
   hlt.trans (Nat.pow_lt_pow_right (by omega) (by omega))
  exact pack_ofReal hdestination hshort (fun _ => rfl) mode

/-- The limits of `to_integer` are those of the width. -/
theorem inRange_iff (destination : FloatWidth) (isSigned negative : Bool) (magnitude : ℕ) :
  InRange destination isSigned (signed negative (magnitude : ℤ)) ↔
   ¬((if isSigned then (1 <<< (destination.bitWidth - 1)) - (!negative).toNat else (1 <<< destination.bitWidth) - 1) < magnitude ∨
     (isSigned = false ∧ negative = true ∧ magnitude ≠ 0)) := by
 cases destination <;> cases isSigned <;> cases negative <;>
  simp [InRange, FloatWidth.bitWidth, signed] <;> omega

theorem word_eq (destination : FloatWidth) (negative : Bool) (magnitude : ℕ) : (((if destination.bitWidth = 32 then
    (if negative then (2 ^ 64 - magnitude % 2 ^ 64) % 2 ^ 64 else magnitude % 2 ^ 64) % 2 ^ 32
    else if negative then (2 ^ 64 - magnitude % 2 ^ 64) % 2 ^ 64 else magnitude % 2 ^ 64 : ℕ) : ℤ)) =
    signed negative (magnitude : ℤ) % 2 ^ destination.bitWidth := by
 cases destination <;> cases negative <;> simp [FloatWidth.bitWidth, signed] <;> omega

theorem limit_le (destination : FloatWidth) (isSigned negative : Bool) :
  (if isSigned then (1 <<< (destination.bitWidth - 1)) - (!negative).toNat else (1 <<< destination.bitWidth) - 1) ≤
   2 ^ destination.bitWidth := by
 cases destination <;> cases isSigned <;> cases negative <;> decide

theorem toInteger_delivers (hfits : source.Fits) (bits : Nat) (destination : FloatWidth) (isSigned : Bool)
  (mode : RoundingMode) :
  DeliversInteger (source.datum bits) destination isSigned mode (toInteger bits source destination isSigned mode) := by
 have hread := decode_reads source bits
 rw [toInteger]
 generalize source.decode bits = value at hread
 generalize source.datum bits = datum at hread
 cases hread with
 | nan negative hpos hlt => rfl
 | infinity negative => rfl
 | finite negative hlt hleast =>
  rename_i significand exponent
  have hfrac := hfits.fraction_le
  have hbias := (bias_eq hfits.exponent_ge).2.2
  have hwid : destination.bitWidth ≤ 64 := by cases destination <;> decide
  have hshort : significand < 2 ^ 53 := hlt.trans_le (Nat.pow_le_pow_right (by omega) (by omega))
  dsimp only
  by_cases hlarge : 0 ≤ exponent ∧ (destination.bitWidth : ℤ) ≤ exponent
  · -- the value is a multiple of a power of two beyond the width
    have hnormal := hleast.resolve_right fun heq => by
     have hge := hfits.fraction_ge
     rw [minimum] at heq
     omega
    have hcast : (significand : ℝ) * 2 ^ exponent = ((significand * 2 ^ exponent.toNat : ℕ) : ℝ) := by
     push_cast
     rw [← zpow_natCast (2 : ℝ), Int.toNat_of_nonneg hlarge.1]
    have hbeyond : ¬InRange destination isSigned (signed negative ((significand * 2 ^ exponent.toNat : ℕ) : ℤ)) := by
     rw [inRange_iff, not_not]
     refine .inl ((limit_le destination isSigned negative).trans_lt ?_)
     calc 2 ^ destination.bitWidth < 2 ^ source.fraction * 2 ^ destination.bitWidth := by
           have hone : 2 ^ 1 ≤ 2 ^ source.fraction := Nat.pow_le_pow_right (by omega) (one_le_two.trans hfits.fraction_ge)
           have hpos := Nat.two_pow_pos destination.bitWidth
           nlinarith
      _ ≤ significand * 2 ^ exponent.toNat :=
        Nat.mul_le_mul hnormal (Nat.pow_le_pow_right (by omega) (by omega))
    rw [if_pos hlarge, DeliversInteger]
    rw [hcast, toInt_natCast]
    exact ⟨fun hin => absurd hin hbeyond, fun _ => rfl⟩
  · have hscaled : (if exponent < 0 then roundShift significand (-exponent).toNat negative mode
      else (u128 (significand <<< exponent.toNat), false)) = scaled ⟨negative, significand, exponent⟩ 0 mode := by
     rw [scaled]
     by_cases hneg : exponent < 0
     · grind
     grind
    obtain ⟨hround, hinexact⟩ := scaled_spec 0 mode
     (show (Finite.mk negative significand exponent).significand < 2 ^ 128 from hshort.trans (by norm_num)) (.exact significand) (.inl rfl) (by
      calc significand * 2 ^ (exponent - 0).toNat ≤ significand * 2 ^ 64 :=
            Nat.mul_le_mul_left _ (Nat.pow_le_pow_right (by omega) (by omega))
       _ < 2 ^ 128 := by omega)
    rw [zpow_zero, div_one] at hround hinexact
    rw [if_neg hlarge, hscaled]
    generalize scaled ⟨negative, significand, exponent⟩ 0 mode = rounded at hround hinexact ⊢
    rw [DeliversInteger]
    rw [hround, inRange_iff]
    constructor
    · grind [word_eq]
    grind

/-! ## Operations -/

/-- The result of every operation is the exact one, rounded once, with the flags of the rounding. -/
theorem evalFloat_correct (op : FloatOp) (source destination : FloatWidth) (operands : Fin 3 → BitVec 64) (mode : RoundingMode) :
  Correct op source destination operands mode (evalFloat op source destination operands mode) := by
 have hfits := fits_new source
 have hx := decode_reads (.new source) (operands 0).toNat
 have hy := decode_reads (.new source) (operands 1).toNat
 have hz := decode_reads (.new source) (operands 2).toNat
 cases op with
 | add =>
  apply delivers hfits (.cons hx (.cons hy .nil)) ⟨nofun, nofun⟩
  intro hnan
  obtain ⟨hxn, hyn⟩ := firstNan_cons hnan
  exact add_meets hfits ((denotes_of_reads hfits hx hxn).mono (by omega)) ((denotes_of_reads hfits hy hyn).mono (by omega)) mode
 | sub =>
  apply delivers hfits (.cons hx (.cons hy .nil)) ⟨nofun, nofun⟩
  intro hnan
  obtain ⟨hxn, hyn⟩ := firstNan_cons hnan
  have hx' := (denotes_of_reads hfits hx hxn).mono (show 53 ≤ 110 by omega)
  have hy' := (denotes_of_reads hfits hy hyn).mono (show 53 ≤ 110 by omega)
  have hsum := add_meets hfits hx' (negate_denotes hy') mode
  generalize (new source).datum (operands 1).toNat = y at hy' hsum ⊢
  generalize (new source).decode (operands 1).toNat = b at hy' hsum ⊢
  cases hy' with
  | infinity negative => exact hsum
  | finite value hlt => exact hsum
 | mul =>
  apply delivers hfits (.cons hx (.cons hy .nil)) (invalidProduct_iff hx hy)
  intro hnan
  obtain ⟨hxn, hyn⟩ := firstNan_cons hnan
  rw [mul]
  rcases multiply_denotes (denotes_of_reads hfits hx hxn) (denotes_of_reads hfits hy hyn) with
   ⟨hinvalid, hproduct⟩ | ⟨hvalid, z, hproduct, hz⟩
  · rw [hproduct]
    exact meets_invalid hfits hinvalid
  · rw [hproduct]
    exact meets_valid hvalid (finish_meets hfits hz mode)
 | div =>
  apply delivers hfits (.cons hx (.cons hy .nil)) ⟨nofun, nofun⟩
  intro hnan
  obtain ⟨hxn, hyn⟩ := firstNan_cons hnan
  exact divide_meets hfits (denotes_of_reads hfits hx hxn) (denotes_of_reads hfits hy hyn) mode
 | fma =>
  apply delivers hfits (.cons hx (.cons hy (.cons hz .nil))) (invalidProduct_iff hx hy)
  intro hnan
  obtain ⟨hxn, hrest⟩ := firstNan_cons hnan
  obtain ⟨hyn, hzn⟩ := firstNan_cons hrest
  rw [fma]
  rcases multiply_denotes (denotes_of_reads hfits hx hxn) (denotes_of_reads hfits hy hyn) with
   ⟨hinvalid, hproduct⟩ | ⟨hvalid, w, hproduct, hw⟩
  · rw [hproduct]
    exact meets_invalid hfits hinvalid
  · rw [hproduct]
    exact meets_valid hvalid (add_meets hfits (hw.mono (by omega)) ((denotes_of_reads hfits hz hzn).mono (by omega)) mode)
 | sqrt =>
  apply delivers hfits (.cons hx .nil) ⟨nofun, nofun⟩
  intro hnan
  exact sqrt_meets hfits (denotes_of_reads hfits hx hnan) mode
 | convert => exact convert_delivers hfits (fits_new destination) _ mode
 | signedToFloat => exact fromInteger_meets (fits_new destination) _ source true mode
 | unsignedToFloat => exact fromInteger_meets (fits_new destination) _ source false mode
 | floatToSigned => exact toInteger_delivers hfits _ destination true mode
 | floatToUnsigned => exact toInteger_delivers hfits _ destination false mode

end Tir.Adt
