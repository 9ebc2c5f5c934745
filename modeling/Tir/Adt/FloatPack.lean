import Tir.Adt.FloatBits

/-!
# Packing rounds once

`round_shift` rounds what its shift leaves (`roundShift_eq`), and `pack` encodes the real that a sticky
significand stands for, rounded once, with the flags that rounding raises (`pack_rounds`).
-/

open Nat Int

namespace Tir.Adt

open Rounding RoundingMode

/-! ## Rounding a shift -/

/-- The comparison of what is shifted out with the half. -/
theorem roundShift_parts {value : Nat} (hlt : value < 2 ^ 128) (shift : Nat) : (if shift < 128 then
    let remainder := value &&& ((1 <<< shift) - 1)
    (value >>> shift, remainder, compare remainder (1 <<< (shift - 1)))
   else (0, value, if shift = 128 then compare value (1 <<< 127) else .lt)) =
   (value / 2 ^ shift, value % 2 ^ shift, compare (value % 2 ^ shift) (2 ^ (shift - 1))) := by
 split
 · rw [Nat.one_shiftLeft, Nat.one_shiftLeft, and_two_pow_sub_one_eq_mod, Nat.shiftRight_eq_div_pow]
 · have hless : value < 2 ^ shift := hlt.trans_le (Nat.pow_le_pow_right (by omega) (by omega))
   rw [div_eq_of_lt hless, mod_eq_of_lt hless]
   split
   · grind
   · have hhalf : value < 2 ^ (shift - 1) := hlt.trans_le (Nat.pow_le_pow_right (by omega) (by omega))
     rw [compare_lt_iff_lt.2 hhalf]

theorem increment_shifted (value k : Nat) (negative : Bool) (rounding : RoundingMode) :
  (decide (value % 2 ^ (k + 1) ≠ 0) && match rounding with
   | .tiesToEven => decide (compare (value % 2 ^ (k + 1)) (2 ^ k) = .gt) ||
     (decide (compare (value % 2 ^ (k + 1)) (2 ^ k) = .eq) && decide (value / 2 ^ k / 2 &&& 1 ≠ 0))
   | .tiesToAway => decide (compare (value % 2 ^ (k + 1)) (2 ^ k) ≠ .lt)
   | .towardZero => false
   | .towardNegative => negative
   | .towardPositive => !negative) = rounding.increment negative (value / 2 ^ k) (decide (value % 2 ^ k ≠ 0)) := by
 have hrest := mod_lt value (Nat.two_pow_pos k)
 -- What is shifted out, by the half and the rest.
 rw [Nat.mod_pow_succ, and_one_is_mod]
 rcases mod_two_eq_zero_or_one (value / 2 ^ k) with heven | hodd
 · rw [heven, mul_zero, add_zero, compare_lt_iff_lt.2 hrest]
   cases rounding <;> simp [increment, heven, Bool.and_comm]
 · rw [hodd, mul_one]
   by_cases hzero : value % 2 ^ k = 0
   · rw [hzero, zero_add, compare_eq_iff_eq.2 rfl]
     cases rounding <;> simp [increment, hodd]
   · rw [compare_gt_iff_gt.2 (by omega)]
     cases rounding <;> simp [increment, hodd, hzero]

theorem roundShift_eq {value k : Nat} (hlt : value < 2 ^ 128) (negative : Bool) (rounding : RoundingMode) :
  roundShift value (k + 1) negative rounding =
   (rounding.pick negative (value / 2 ^ k) (decide (value % 2 ^ k ≠ 0)), decide (value % 2 ^ (k + 1) ≠ 0)) := by
 have hparts := roundShift_parts hlt (k + 1)
 have hdiv : value / 2 ^ (k + 1) = value / 2 ^ k / 2 := by rw [pow_succ, Nat.div_div_eq_div_mul]
 rw [roundShift, if_neg (succ_ne_zero k)]
 rw [hparts]
 rw [Nat.add_sub_cancel, hdiv]
 apply (congrArg (fun increment : Bool => (u128 (value / 2 ^ k / 2 + increment.toNat), decide (value % 2 ^ (k + 1) ≠ 0)))
  (increment_shifted ..)).trans
 have hsmall : value / 2 ^ k / 2 < 2 ^ 127 := by
  have hle := Nat.div_le_self value (2 ^ k)
  omega
 rw [pick, u128, mod_eq_of_lt]
 · cases rounding.increment negative (value / 2 ^ k) (decide (value % 2 ^ k ≠ 0)) <;> rfl
 · cases rounding.increment negative (value / 2 ^ k) (decide (value % 2 ^ k ≠ 0))
   · rw [Bool.toNat_false]
     omega
   · rw [Bool.toNat_true]
     omega

/-! ## Scaling to a quantum -/

/-- A significand rounded to a multiple of a quantum, and whether that loses bits. -/
def scaled (value : Finite) (quantum : Int) (rounding : RoundingMode) : Nat × Bool :=
 if 0 < quantum - value.exponent then
  roundShift value.significand (quantum - value.exponent).toNat value.negative rounding
 else (u128 (value.significand <<< (-(quantum - value.exponent)).toNat), false)

section Scaled

variable {value : Finite} {x : ℝ}

theorem two_zpow_pos (e : Int) : (0 : ℝ) < 2 ^ e :=
 zpow_pos (by norm_num) e

/-- Scaling rounds the real that the significand stands for. -/
theorem scaled_spec (quantum : Int) (rounding : RoundingMode) (hlt : value.significand < 2 ^ 128) (hsticky : Sticky value.significand x)
  (hwide : x = value.significand ∨ 2 ≤ quantum - value.exponent)
  (hfits : value.significand * 2 ^ (value.exponent - quantum).toNat < 2 ^ 128) :
  rounding.toInt (signed value.negative (x * 2 ^ value.exponent / 2 ^ quantum)) =
    signed value.negative ((scaled value quantum rounding).1 : ℤ) ∧ ((scaled value quantum rounding).2 = true ↔
     (rounding.toInt (signed value.negative (x * 2 ^ value.exponent / 2 ^ quantum)) : ℝ) ≠
      signed value.negative (x * 2 ^ value.exponent / 2 ^ quantum)) := by
 rw [scaled]
 split
 · rename_i hpos
   obtain ⟨k, hk⟩ : ∃ k : ℕ, (quantum - value.exponent).toNat = k + 1 := ⟨(quantum - value.exponent).toNat - 1, by omega⟩
   have hscale : x * 2 ^ value.exponent / 2 ^ quantum = x / 2 ^ (k + 1) := by
    have hq : quantum = value.exponent + ((k + 1 : ℕ) : ℤ) := by omega
    rw [hq, zpow_add₀ (by norm_num), zpow_natCast, mul_comm, mul_div_mul_left _ _ (two_zpow_pos _).ne']
   have hk' : x = value.significand ∨ 1 ≤ k := hwide.imp_right fun hle => by omega
   rw [hscale, hk, roundShift_eq hlt, hsticky.toInt_shift rounding value.negative hk']
   refine ⟨rfl, ?_⟩
   rw [decide_eq_true_iff, ne_eq, ne_eq, not_iff_not, ← hsticky.toInt_shift rounding value.negative hk',
    hsticky.toInt_shift_eq_iff rounding value.negative hk']
 · rename_i hneg
   have hx : x = value.significand := hwide.resolve_right fun hle => by omega
   have hscale : x * 2 ^ value.exponent / 2 ^ quantum =
     ((value.significand * 2 ^ (value.exponent - quantum).toNat : ℕ) : ℝ) := by
    have he : value.exponent = quantum + (((value.exponent - quantum).toNat : ℕ) : ℤ) := by omega
    rw [hx, div_eq_iff (two_zpow_pos quantum).ne']
    conv_lhs => rw [he, zpow_add₀ (by norm_num), zpow_natCast]
    push_cast
    ring
   rw [hscale, toInt_natCast, show (-(quantum - value.exponent)).toNat = (value.exponent - quantum).toNat by omega,
    Nat.shiftLeft_eq, u128, Nat.mod_eq_of_lt hfits]
   refine ⟨rfl, ⟨nofun, fun hne => absurd ?_ hne⟩⟩
   rw [cast_signed, Int.cast_natCast]

end Scaled

/-! ## Encoding -/

namespace Format

variable {format : Format}

/-- What `pack` does with a rounded significand. -/
def encode (format : Format) (negative : Bool) (significand : Nat) (quantum : Int) (inexact tiny : Bool)
  (rounding : RoundingMode) : FloatResult :=
 let (significand, quantum) := if 1 <<< (format.fraction + 1) ≤ significand then (significand >>> 1, quantum + 1)
  else (significand, quantum)
 if format.bias < quantum + format.fraction then
  ⟨format.infinity negative - (!toInfinity rounding negative).toNat, 5⟩
 else
  ⟨format.sign negative |||
    ((if significand < 1 <<< format.fraction then 0 else (quantum + format.fraction + format.bias).toNat) <<< format.fraction) |||
    (significand &&& ((1 <<< format.fraction) - 1)),
   inexact.toNat ||| ((inexact && tiny).toNat <<< 1)⟩

theorem top_eq {significand : Nat} (hpos : 0 < significand) (hlt : significand < 2 ^ 128) :
  (127 : Int) - leadingZeros significand = Nat.log2 significand := by
 have hlog : Nat.log2 significand < 128 := (log2_lt hpos.ne').2 hlt
 rw [leadingZeros, if_neg hpos.ne']
 omega

/-- Packing scales to the format's quantum and encodes what comes out. -/
theorem pack_eq {value : Finite} (hpos : 0 < value.significand) (hlt : value.significand < 2 ^ 128) (rounding : RoundingMode) :
  format.pack value rounding =
   let leading := value.exponent + Nat.log2 value.significand
   let quantum := max leading format.minimum - format.fraction
   format.encode value.negative (scaled value quantum rounding).1 quantum (scaled value quantum rounding).2
    (if leading = format.minimum - 1 then
     decide ((scaled value (leading - format.fraction) rounding).1 < 1 <<< (format.fraction + 1))
    else decide (leading < format.minimum)) rounding := by
 have hshift : value.exponent + (Nat.log2 value.significand : Int) - format.fraction - value.exponent =
   Nat.log2 value.significand - format.fraction := by omega
 have htiny : (scaled value (value.exponent + (Nat.log2 value.significand : Int) - format.fraction) rounding).1 =
   if 0 < (Nat.log2 value.significand : Int) - format.fraction then
    (roundShift value.significand ((Nat.log2 value.significand : Int) - format.fraction).toNat value.negative rounding).1
   else u128 (value.significand <<< (-((Nat.log2 value.significand : Int) - format.fraction)).toNat) := by
  rw [scaled, hshift]
  split <;> rfl
 rw [pack.eq_def, if_neg hpos.ne', top_eq hpos hlt]
 dsimp only
 rw [htiny, scaled]
 cases rounding <;> rfl

section

variable (hexponent : 2 ≤ format.exponent)

include hexponent

theorem bias_eq : format.bias = (2 ^ (format.exponent - 1) : Nat) - 1 ∧
  (format.special : Int) = 2 * format.bias + 1 ∧ 1 ≤ format.bias := by
 have hpow : 2 ^ format.exponent = 2 * 2 ^ (format.exponent - 1) := by
  rw [← pow_succ']
  congr 1
  omega
 have htwo : 2 ^ 1 ≤ 2 ^ (format.exponent - 1) := Nat.pow_le_pow_right (by omega) (by omega)
 rw [special, bias, Nat.one_shiftLeft, hpow]
 omega

theorem minimum_le_bias : format.minimum ≤ format.bias := by
 have hbias := (bias_eq hexponent).2.2
 rw [minimum]
 omega

theorem maxFinite_eq :
  format.maxFinite = (2 ^ (format.fraction + 1) - 1) * 2 ^ (format.bias - format.fraction) := by
 obtain ⟨-, hspecial, hbias⟩ := bias_eq hexponent
 rw [maxFinite, magnitude, if_neg (by omega)]
 have hexp : ((format.special - 1 : Nat) : Int) - format.bias = format.bias := by omega
 rw [hexp, Nat.cast_sub Nat.one_le_two_pow, pow_succ]
 push_cast
 ring

end

/-- A rounded significand after the roll-over of the rounding is undone. -/
structure Renormalized (format : Format) (s : Nat) (q : Int) (s' : Nat) (q' : Int) : Prop where
 eq : (if 1 <<< (format.fraction + 1) ≤ s then (s >>> 1, q + 1) else (s, q)) = (s', q')
 lt : s' < 2 ^ (format.fraction + 1)
 normal : 2 ^ format.fraction ≤ s' ∨ q' = format.minimum - format.fraction
 least : format.minimum - format.fraction ≤ q'
 same : (s' : ℝ) * 2 ^ q' = s * 2 ^ q

variable {q : Int} {s : Nat}

theorem renormalize (hle : s ≤ 2 ^ (format.fraction + 1)) (hleast : format.minimum - format.fraction ≤ q)
  (hnormal : 2 ^ format.fraction ≤ s ∨ q = format.minimum - format.fraction) :
  ∃ s' q', Renormalized format s q s' q' := by
 by_cases hover : 1 <<< (format.fraction + 1) ≤ s
 · rw [Nat.one_shiftLeft] at hover
   obtain rfl : s = 2 ^ (format.fraction + 1) := le_antisymm hle hover
   have hhalf : 2 ^ (format.fraction + 1) >>> 1 = 2 ^ format.fraction := by
    rw [Nat.shiftRight_eq_div_pow, pow_succ, pow_one, Nat.mul_div_cancel _ (by omega)]
   refine ⟨2 ^ format.fraction, q + 1, ⟨?_, ?_, .inl le_rfl, by omega, ?_⟩⟩
   · rw [if_pos (by rw [Nat.one_shiftLeft]), hhalf]
   · exact Nat.pow_lt_pow_right (by omega) (by omega)
   · rw [zpow_add₀ (by norm_num), zpow_one]
     push_cast
     ring
 · refine ⟨s, q, ⟨if_neg hover, ?_, hnormal, hleast, rfl⟩⟩
   rw [Nat.one_shiftLeft] at hover
   omega

/-- The exponent exceeds the format exactly where the value does. -/
theorem Renormalized.exceeds_iff (hexponent : 2 ≤ format.exponent) {s' : Nat} {q' : Int} (h : Renormalized format s q s' q') :
  format.bias < q' + format.fraction ↔ format.maxFinite < (s : ℝ) * 2 ^ q := by
 have hscale := two_zpow_pos (format.bias - format.fraction)
 have hle := minimum_le_bias hexponent
 rw [← h.same, maxFinite_eq hexponent]
 constructor
 · intro hexceeds
   have hnormal := h.normal.resolve_right fun heq => by omega
   have hfrac : (2 : ℝ) ^ format.fraction ≤ s' := by exact_mod_cast hnormal
   have hgrow : (2 : ℝ) ^ (format.bias - format.fraction + 1) ≤ 2 ^ q' := zpow_le_zpow_right₀ (by norm_num) (by omega)
   rw [zpow_add₀ (by norm_num), zpow_one] at hgrow
   calc (2 ^ (format.fraction + 1) - 1) * (2 : ℝ) ^ (format.bias - format.fraction)
     < 2 ^ (format.fraction + 1) * 2 ^ (format.bias - format.fraction) := mul_lt_mul_of_pos_right (by linarith) hscale
    _ = 2 ^ format.fraction * (2 ^ (format.bias - format.fraction) * 2) := by rw [pow_succ]; ring
    _ ≤ s' * 2 ^ q' := mul_le_mul hfrac hgrow (by positivity) (Nat.cast_nonneg _)
 · intro hgreater
   by_contra hnot
   have hless : (s' : ℝ) ≤ 2 ^ (format.fraction + 1) - 1 := by
    have hsucc : s' + 1 ≤ 2 ^ (format.fraction + 1) := h.lt
    have hcast : (s' : ℝ) + 1 ≤ 2 ^ (format.fraction + 1) := by exact_mod_cast hsucc
    linarith
   have hgrow : (2 : ℝ) ^ q' ≤ 2 ^ (format.bias - format.fraction) := zpow_le_zpow_right₀ (by norm_num) (by omega)
   exact absurd (mul_le_mul hless hgrow (two_zpow_pos q').le ((Nat.cast_nonneg _).trans hless)) (not_le.2 hgreater)

/-- Beyond the format, the rounding direction takes an infinity or the largest number. -/
theorem encode_overflow (hfits : format.Fits) (hle : s ≤ 2 ^ (format.fraction + 1))
  (hleast : format.minimum - format.fraction ≤ q) (hnormal : 2 ^ format.fraction ≤ s ∨ q = format.minimum - format.fraction)
  (hexceeds : format.maxFinite < (s : ℝ) * 2 ^ q) (negative inexact tiny : Bool) (rounding : RoundingMode) :
  format.encode negative s q inexact tiny rounding = ⟨if toInfinity rounding negative then
    format.fields negative format.special 0
   else format.fields negative (format.special - 1) (2 ^ format.fraction - 1), 5⟩ := by
 obtain ⟨s', q', h⟩ := renormalize hle hleast hnormal
 obtain ⟨-, hspecial, hbias⟩ := bias_eq hfits.exponent_ge
 rw [encode, h.eq]
 dsimp only
 rw [if_pos ((h.exceeds_iff hfits.exponent_ge).2 hexceeds), infinity_eq]
 cases toInfinity rounding negative with
 | true => rfl
 | false =>
  have hpos := Nat.two_pow_pos format.fraction
  obtain ⟨n, hn⟩ : ∃ n, format.special = n + 1 := ⟨format.special - 1, by omega⟩
  rw [if_neg Bool.false_ne_true, Bool.not_false, Bool.toNat_true, fields, fields, hn, Nat.add_sub_cancel, succ_mul]
  congr 1
  omega

theorem or_inexact (inexact tiny : Bool) :
  inexact.toNat ||| ((inexact && tiny).toNat <<< 1) = inexact.toNat + 2 * (inexact && tiny).toNat := by
 cases inexact <;> cases tiny <;> rfl

/-- Within the format, the fields are those of the rounded significand. -/
theorem encode_finite (hfits : format.Fits) (hle : s ≤ 2 ^ (format.fraction + 1))
  (hleast : format.minimum - format.fraction ≤ q) (hnormal : 2 ^ format.fraction ≤ s ∨ q = format.minimum - format.fraction)
  (hwithin : ¬format.maxFinite < (s : ℝ) * 2 ^ q) (negative inexact tiny : Bool) (rounding : RoundingMode) :
  (format.encode negative s q inexact tiny rounding).flags = inexact.toNat + 2 * (inexact && tiny).toNat ∧
  ∃ biased fraction, biased < format.special ∧ fraction < 2 ^ format.fraction ∧
   (format.encode negative s q inexact tiny rounding).bits = format.fields negative biased fraction ∧
   format.magnitude biased fraction = (s : ℝ) * 2 ^ q := by
 obtain ⟨s', q', h⟩ := renormalize hle hleast hnormal
 obtain ⟨-, hspecial, hbias⟩ := bias_eq hfits.exponent_ge
 have hexponent : ¬format.bias < q' + format.fraction := mt (h.exceeds_iff hfits.exponent_ge).1 hwithin
 have hless := h.lt
 have hlow := h.least
 rw [encode, h.eq]
 dsimp only
 rw [if_neg hexponent]
 refine ⟨or_inexact inexact tiny, ?_⟩
 rw [Nat.one_shiftLeft, and_two_pow_sub_one_eq_mod, ← h.same]
 have hmod := mod_lt s' (Nat.two_pow_pos format.fraction)
 by_cases hsubnormal : s' < 2 ^ format.fraction
 · have hq : q' = format.minimum - format.fraction := h.normal.resolve_left (by omega)
   rw [if_pos hsubnormal, mod_eq_of_lt hsubnormal]
   refine ⟨0, s', by omega, hsubnormal, or_fields negative (Nat.two_pow_pos _) hsubnormal, ?_⟩
   rw [magnitude, if_pos rfl, hq]
 · rw [if_neg hsubnormal]
   rw [minimum] at hlow
   have hfields : (q' + format.fraction + format.bias).toNat < format.special := by omega
   refine ⟨_, _, hfields, hmod, or_fields negative (hfields.trans special_lt) hmod, ?_⟩
   have hsplit : s' = 2 ^ format.fraction + s' % 2 ^ format.fraction := by
    rw [pow_succ] at hless
    have hsub := mod_eq_sub_mod (not_lt.1 hsubnormal)
    rw [mod_eq_of_lt (show s' - 2 ^ format.fraction < 2 ^ format.fraction by omega)] at hsub
    omega
   have hexp : (((q' + format.fraction + format.bias).toNat : Nat) : Int) - format.bias - format.fraction = q' := by omega
   rw [magnitude, if_neg (by omega), hexp]
   congr 1
   conv_rhs => rw [hsplit]
   push_cast
   rfl

/-! ## Packing -/

section Pack

variable {value : Finite} {x : ℝ} {rounding : RoundingMode}

variable {s : Nat}

/-- The magnitude of a rounded real is the scaled significand. -/
theorem abs_roundTo {quantum : Int} {v : ℝ} (h : rounding.toInt (v / 2 ^ quantum) = signed value.negative (s : ℤ)) :
  roundTo rounding v quantum = signed value.negative ((s : ℝ) * 2 ^ quantum) ∧ |roundTo rounding v quantum| = (s : ℝ) * 2 ^ quantum := by
 have heq : roundTo rounding v quantum = signed value.negative ((s : ℝ) * 2 ^ quantum) := by
  rw [roundTo, h, cast_signed, cast_natCast, signed_mul]
 refine ⟨heq, ?_⟩
 rw [heq, abs_signed (mul_nonneg (Nat.cast_nonneg _) (two_zpow_pos quantum).le)]

/-- What `scaled` leaves of a real whose leading bit is known, at a quantum no finer than the precision. -/
structure Scales (value : Finite) (rounding : RoundingMode) (v : ℝ) (leading quantum : Int) : Prop where
 rounds : rounding.toInt (v / 2 ^ quantum) = signed value.negative ((scaled value quantum rounding).1 : ℤ)
 inexact : (scaled value quantum rounding).2 = true ↔ roundTo rounding v quantum ≠ v
 ge : ∀ n : ℕ, quantum + n ≤ leading → 2 ^ n ≤ (scaled value quantum rounding).1
 le : ∀ n : ℕ, leading + 1 ≤ quantum + n → (scaled value quantum rounding).1 ≤ 2 ^ n

theorem scales (hfits : format.Fits) (hpos : 0 < value.significand) (hlt : value.significand < 2 ^ 128)
  (hsticky : Sticky value.significand x) (hwide : x = value.significand ∨ 2 ^ (format.fraction + 2) ≤ value.significand)
  (rounding : RoundingMode) {quantum : Int}
  (hquantum : Int.log 2 (x * 2 ^ value.exponent) - format.fraction ≤ quantum) (hxpos : 0 < x)
  (hlog : Int.log 2 (x * 2 ^ value.exponent) = (Nat.log2 value.significand : ℤ) + value.exponent) :
  Scales value rounding (signed value.negative (x * 2 ^ value.exponent)) (Int.log 2 (x * 2 ^ value.exponent)) quantum := by
 have hapos : 0 < x * 2 ^ value.exponent := mul_pos hxpos (two_zpow_pos _)
 have hqpos := two_zpow_pos quantum
 have hbits := Nat.lt_log2_self (n := value.significand)
 have hlogbits : Nat.log2 value.significand < 128 := (Nat.log2_lt hpos.ne').2 hlt
 have hfrac := hfits.fraction_le
 obtain ⟨hround, hinexact⟩ := scaled_spec quantum rounding hlt hsticky
  (hwide.imp_right fun hle => by
   have hle := (Nat.le_log2 hpos.ne').2 hle
   omega)
  (calc value.significand * 2 ^ (value.exponent - quantum).toNat
    < 2 ^ (Nat.log2 value.significand + 1) * 2 ^ (value.exponent - quantum).toNat :=
     Nat.mul_lt_mul_of_pos_right hbits (Nat.two_pow_pos _)
   _ = 2 ^ (Nat.log2 value.significand + 1 + (value.exponent - quantum).toNat) := (pow_add ..).symm
   _ ≤ 2 ^ 128 := Nat.pow_le_pow_right (by omega) (by omega))
 obtain ⟨hfloor, hceil⟩ := magnitude_bounds hround
 refine ⟨by rw [signed_div]; exact hround, ?_, fun n hn => ?_, fun n hn => ?_⟩
 · rw [hinexact, roundTo, ne_eq, ne_eq, not_iff_not, ← signed_div, eq_div_iff hqpos.ne']
 · have hle : (((2 ^ n : ℕ) : ℤ) : ℝ) ≤ x * 2 ^ value.exponent / 2 ^ quantum := by
    rw [le_div_iff₀ hqpos, Int.cast_natCast, Nat.cast_pow, Nat.cast_ofNat, ← zpow_natCast, ← zpow_add₀ (by norm_num)]
    apply (zpow_le_zpow_right₀ (by norm_num) _).trans (Int.zpow_log_le_self (b := 2) (by norm_num) hapos)
    omega
   have hint := (Int.le_floor.2 hle).trans hfloor
   exact_mod_cast hint
 · have hle : x * 2 ^ value.exponent / 2 ^ quantum ≤ (((2 ^ n : ℕ) : ℤ) : ℝ) := by
    rw [div_le_iff₀ hqpos, Int.cast_natCast, Nat.cast_pow, Nat.cast_ofNat, ← zpow_natCast, ← zpow_add₀ (by norm_num)]
    apply (Int.lt_zpow_succ_log_self (b := 2) (by norm_num) _).le.trans (zpow_le_zpow_right₀ (by norm_num) _)
    omega
   have hint := hceil.trans (Int.ceil_le.2 hle)
   exact_mod_cast hint

theorem two_pow_bias_le (hfits : format.Fits) : (2 : ℝ) ^ format.bias ≤ format.maxFinite := by
 have hone : (1 : ℝ) ≤ 2 ^ format.fraction := one_le_pow₀ (by norm_num)
 have hsplit : (2 : ℝ) ^ format.bias = 2 ^ format.fraction * 2 ^ (format.bias - format.fraction) := by
  rw [← zpow_natCast, ← zpow_add₀ (by norm_num)]
  congr 1
  omega
 rw [maxFinite_eq hfits.exponent_ge, hsplit, pow_succ]
 apply mul_le_mul_of_nonneg_right _ (two_zpow_pos _).le
 linarith

theorem zpow_le_scaled {n : Nat} (h : 2 ^ n ≤ s) (q : Int) : (2 : ℝ) ^ (q + n) ≤ s * 2 ^ q := by
 rw [zpow_add₀ (by norm_num), zpow_natCast, mul_comm]
 apply mul_le_mul_of_nonneg_right _ (two_zpow_pos q).le
 exact_mod_cast h

theorem scaled_le_zpow {n : Nat} (h : s ≤ 2 ^ n) (q : Int) : (s : ℝ) * 2 ^ q ≤ 2 ^ (q + n) := by
 rw [zpow_add₀ (by norm_num), zpow_natCast, mul_comm ((2 : ℝ) ^ q)]
 apply mul_le_mul_of_nonneg_right _ (two_zpow_pos q).le
 exact_mod_cast h

section Leading

variable {v : ℝ} {leading : Int}

/-- The real exceeds the format exactly where the scaled significand does: below the least normal exponent neither
does. -/
theorem overflows_iff (hfits : format.Fits) (hlogv : Int.log 2 |v| = leading)
  (hquantum : Scales value rounding v leading (max leading format.minimum - format.fraction))
  (hprecision : Scales value rounding v leading (leading - format.fraction)) :
  format.Overflows rounding v ↔ format.maxFinite <
   ((scaled value (max leading format.minimum - format.fraction) rounding).1 : ℝ) *
     2 ^ (max leading format.minimum - format.fraction) := by
 rw [Overflows, roundUnbounded, hlogv, (abs_roundTo hprecision.rounds).2]
 rcases le_or_gt format.minimum leading with hle | hless
 · rw [max_eq_left hle]
 · have hbias := two_pow_bias_le hfits
   have hmin := zpow_le_zpow_right₀ (show (1 : ℝ) ≤ 2 by norm_num) (minimum_le_bias hfits.exponent_ge)
   have hfinite := scaled_le_zpow (hquantum.le format.fraction (by omega)) (max leading format.minimum - format.fraction)
   have hunbounded := scaled_le_zpow (hprecision.le (format.fraction + 1) (by push_cast; omega)) (leading - format.fraction)
   have hexp' : leading - format.fraction + ((format.fraction + 1 : ℕ) : ℤ) ≤ format.minimum := by push_cast; omega
   have hgrow := zpow_le_zpow_right₀ (show (1 : ℝ) ≤ 2 by norm_num) hexp'
   grind

/-- The test of `pack` tells the reals that are tiny after rounding. -/
theorem tiny_iff (hlogv : Int.log 2 |v| = leading)
  (hprecision : Scales value rounding v leading (leading - format.fraction)) : (if leading = format.minimum - 1 then
    decide ((scaled value (leading - format.fraction) rounding).1 < 1 <<< (format.fraction + 1))
   else decide (leading < format.minimum)) = true ↔ format.Tiny rounding v := by
 rw [Tiny, roundUnbounded, hlogv, (abs_roundTo hprecision.rounds).2]
 have hle := scaled_le_zpow (hprecision.le (format.fraction + 1) (by push_cast; omega)) (leading - format.fraction)
 have hge := zpow_le_scaled (hprecision.ge format.fraction (by omega)) (leading - format.fraction)
 split
 · rename_i heq
   have hmin : (2 : ℝ) ^ format.minimum = ((2 ^ (format.fraction + 1) : ℕ) : ℝ) * 2 ^ (leading - format.fraction) := by
    rw [Nat.cast_pow, Nat.cast_ofNat, ← zpow_natCast, ← zpow_add₀ (by norm_num)]
    grind
   rw [decide_eq_true_iff, Nat.one_shiftLeft, hmin, mul_lt_mul_iff_left₀ (two_zpow_pos _), Nat.cast_lt]
 · rename_i hne
   rw [decide_eq_true_iff]
   constructor
   · intro hless
     apply lt_of_le_of_lt hle
     apply zpow_lt_zpow_right₀ (by norm_num)
     omega
   · intro hless
     by_contra hnot
     have hgrow := zpow_le_zpow_right₀ (show (1 : ℝ) ≤ 2 by norm_num)
      (show format.minimum ≤ leading - format.fraction + (format.fraction : ℕ) by omega)
     exact absurd (hgrow.trans hge) hless.not_ge

/-- Encoding a scaled real rounds it once. -/
theorem encode_rounds (hfits : format.Fits) (hlogv : Int.log 2 |v| = leading)
  (hquantum : Scales value rounding v leading (max leading format.minimum - format.fraction))
  (hprecision : Scales value rounding v leading (leading - format.fraction)) :
  format.Rounds rounding v value.negative (format.encode value.negative
   (scaled value (max leading format.minimum - format.fraction) rounding).1 (max leading format.minimum - format.fraction)
   (scaled value (max leading format.minimum - format.fraction) rounding).2 (if leading = format.minimum - 1 then
    decide ((scaled value (leading - format.fraction) rounding).1 < 1 <<< (format.fraction + 1))
   else decide (leading < format.minimum)) rounding) := by
 have hle := hquantum.le (format.fraction + 1) (by push_cast; omega)
 have hnormal : 2 ^ format.fraction ≤ (scaled value (max leading format.minimum - format.fraction) rounding).1 ∨
   max leading format.minimum - format.fraction = format.minimum - format.fraction := by
  rcases le_or_gt format.minimum leading with hmin | hmin
  · exact .inl (hquantum.ge format.fraction (by omega))
  · exact .inr (by omega)
 have hleast : format.minimum - format.fraction ≤ max leading format.minimum - format.fraction := by omega
 have hoverflows := overflows_iff hfits hlogv hquantum hprecision
 constructor
 · grind [encode_overflow]
 · intro hwithin
   obtain ⟨hflags, biased, fraction, hbiased, hfrac, hbits, hmagnitude⟩ := encode_finite hfits hle hleast hnormal
    (mt hoverflows.2 hwithin) value.negative (scaled value (max leading format.minimum - format.fraction) rounding).2
    (if leading = format.minimum - 1 then
     decide ((scaled value (leading - format.fraction) rounding).1 < 1 <<< (format.fraction + 1))
    else decide (leading < format.minimum)) rounding
   refine ⟨⟨biased, fraction, hbiased, hfrac, hbits, ?_⟩, _, _, ?_, tiny_iff hlogv hprecision, hflags⟩
   · rw [roundFinite, hlogv, (abs_roundTo hquantum.rounds).1, hmagnitude]
   · rw [roundFinite, hlogv]
     exact hquantum.inexact

end Leading

/-- `pack` rounds once the real that the significand stands for. -/
theorem pack_rounds (hfits : format.Fits) (hpos : 0 < value.significand) (hlt : value.significand < 2 ^ 128)
  (hsticky : Sticky value.significand x) (hwide : x = value.significand ∨ 2 ^ (format.fraction + 2) ≤ value.significand)
  (rounding : RoundingMode) :
  format.Rounds rounding (signed value.negative (x * 2 ^ value.exponent)) value.negative (format.pack value rounding) := by
 have hlog : Int.log 2 (x * 2 ^ value.exponent) = (Nat.log2 value.significand : ℤ) + value.exponent := by
  apply hsticky.log_eq hpos
  exact hwide.imp_right fun hle => le_trans (Nat.pow_le_pow_right (show 0 < 2 by omega) (show 1 ≤ format.fraction + 2 by omega)) hle
 have hxpos : 0 < x := by
  rcases hsticky with rfl | ⟨hodd, hlow, -⟩
  · exact Nat.cast_pos.2 hpos
  · have hone : (1 : ℝ) ≤ value.significand := by exact_mod_cast hpos
    linarith
 have hscales : ∀ quantum, Int.log 2 (x * 2 ^ value.exponent) - format.fraction ≤ quantum → Scales value rounding
   (signed value.negative (x * 2 ^ value.exponent)) (Int.log 2 (x * 2 ^ value.exponent)) quantum :=
  fun quantum hquantum => scales hfits hpos hlt hsticky hwide rounding hquantum hxpos hlog
 have hlogv : Int.log 2 |signed value.negative (x * 2 ^ value.exponent)| = Int.log 2 (x * 2 ^ value.exponent) := by
  rw [abs_signed (mul_pos hxpos (two_zpow_pos _)).le]
 have hleading : value.exponent + (Nat.log2 value.significand : ℤ) = Int.log 2 (x * 2 ^ value.exponent) := by omega
 rw [pack_eq hpos hlt, hleading]
 grind [encode_rounds]

end Pack

end Format

end Tir.Adt
