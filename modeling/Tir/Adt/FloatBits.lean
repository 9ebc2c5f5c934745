import Mathlib.Data.Nat.Bitwise
import Tir.Adt.FloatSpec

/-!
# Bit patterns of a format

The words the code builds and takes apart, as signs, biased exponents and fractions: what is decoded stands for
the datum of the bits (`decode_reads`), and the first NaN is propagated quieted (`propagateNan_spec`).
-/

open List Bool Nat Option

namespace Tir.Adt

open Rounding

namespace Format

variable {format : Format}

/-- The formats whose arithmetic fits in 128 bits. -/
structure Fits (format : Format) : Prop where
 fraction_ge : 2 ≤ format.fraction
 fraction_le : format.fraction ≤ 52
 exponent_ge : 2 ≤ format.exponent
 exponent_le : format.exponent ≤ 11

theorem fits_new (width : FloatWidth) : (new width).Fits := by
 cases width <;> exact ⟨by decide, by decide, by decide, by decide⟩

/-! ## Words -/

theorem or_eq_add {i a b : Nat} (hb : b < 2 ^ i) : a * 2 ^ i ||| b = a * 2 ^ i + b := by
 rw [mul_comm, two_pow_add_eq_or_of_lt hb]

theorem sign_eq (negative : Bool) : format.sign negative = negative.toNat * 2 ^ (format.fraction + format.exponent) :=
 shiftLeft_eq _ _

theorem special_eq : (1 <<< format.exponent) - 1 = format.special := by
 rw [one_shiftLeft, special]

theorem special_lt : format.special < 2 ^ format.exponent :=
 sub_lt (Nat.two_pow_pos _) Nat.one_pos

/-- A sign, a biased exponent and a fraction, put together by bits. -/
theorem or_fields (negative : Bool) {biased fraction : Nat} (hbiased : biased < 2 ^ format.exponent)
  (hfrac : fraction < 2 ^ format.fraction) :
  format.sign negative ||| (biased <<< format.fraction) ||| fraction = format.fields negative biased fraction := by
 have hlow : biased * 2 ^ format.fraction + fraction < 2 ^ (format.fraction + format.exponent) := by
  rw [pow_add]
  calc biased * 2 ^ format.fraction + fraction < biased * 2 ^ format.fraction + 2 ^ format.fraction := by omega
   _ = (biased + 1) * 2 ^ format.fraction := by ring
   _ ≤ 2 ^ format.exponent * 2 ^ format.fraction := Nat.mul_le_mul_right _ hbiased
   _ = 2 ^ format.fraction * 2 ^ format.exponent := mul_comm _ _
 rw [Nat.or_assoc, shiftLeft_eq, or_eq_add hfrac, sign_eq, or_eq_add hlow, fields, add_assoc]

theorem infinity_eq (negative : Bool) : format.infinity negative = format.fields negative format.special 0 := by
 rw [← or_fields negative special_lt (Nat.two_pow_pos _), or_zero, infinity, special_eq]

theorem quietNan_eq (hfits : format.Fits) : format.quietNan = format.fields false format.special (format.quieted 0) := by
 have hlt : 2 ^ (format.fraction - 1) < 2 ^ format.fraction := Nat.pow_lt_pow_right (by omega) (by have := hfits.fraction_ge; omega)
 rw [quietNan, infinity, special_eq, one_shiftLeft, or_fields false special_lt hlt, quieted, zero_mod, zero_add]

theorem zero_eq (negative : Bool) : format.sign negative = format.fields negative 0 0 := by
 rw [sign_eq, fields, zero_mul]
 rfl

/-- Setting the leading bit of a fraction quiets it. -/
theorem or_quiet (hfits : format.Fits) {fraction : Nat} (hfrac : fraction < 2 ^ format.fraction) :
  fraction ||| 2 ^ (format.fraction - 1) = format.quieted fraction := by
 have hpow : 2 ^ format.fraction = 2 ^ (format.fraction - 1) * 2 := by
  rw [← pow_succ]
  congr 1
  have := hfits.fraction_ge
  omega
 have hmod := div_add_mod fraction (2 ^ (format.fraction - 1))
 have hrest := mod_lt fraction (Nat.two_pow_pos (format.fraction - 1))
 have hdiv : fraction / 2 ^ (format.fraction - 1) < 2 := by
  rw [Nat.div_lt_iff_lt_mul (Nat.two_pow_pos _), mul_comm, ← hpow]
  exact hfrac
 have hsplit : fraction = fraction / 2 ^ (format.fraction - 1) * 2 ^ (format.fraction - 1) ||| fraction % 2 ^ (format.fraction - 1) := by
  rw [or_eq_add hrest, mul_comm]
  exact hmod.symm
 rw [quieted]
 conv_lhs => rw [hsplit]
 rw [Nat.or_right_comm]
 have hbit : fraction / 2 ^ (format.fraction - 1) * 2 ^ (format.fraction - 1) ||| 2 ^ (format.fraction - 1) =
   1 * 2 ^ (format.fraction - 1) := by
  rcases le_one_iff_eq_zero_or_eq_one.1 (le_of_lt_succ hdiv) with hzero | hone
  · rw [hzero, zero_mul, zero_or, one_mul]
  · rw [hone, one_mul, Nat.or_self]
 rw [hbit, or_eq_add hrest]
 omega

theorem fields_or_quiet (hfits : format.Fits) (negative : Bool) {fraction : Nat} (hfrac : fraction < 2 ^ format.fraction) :
  format.fields negative format.special fraction ||| (1 <<< (format.fraction - 1)) =
   format.fields negative format.special (format.quieted fraction) := by
 have hlt : format.quieted fraction < 2 ^ format.fraction := by
  rw [← or_quiet hfits hfrac]
  exact or_lt_two_pow hfrac (Nat.pow_lt_pow_right (by omega) (by have := hfits.fraction_ge; omega))
 rw [← or_fields negative special_lt hfrac, ← or_fields negative special_lt hlt, one_shiftLeft, Nat.or_assoc,
  or_quiet hfits hfrac]

/-! ## Decoding -/

/-- A decoded value stands for a datum. -/
inductive Reads (format : Format) : Decoded → Datum → Prop
 | nan (negative : Bool) {fraction : Nat} (hpos : 0 < fraction) (hlt : fraction < 2 ^ format.fraction) :
   Reads format (.nan (format.fields negative format.special fraction) (format.isSignaling fraction)) (.nan negative fraction)
 | infinity (negative : Bool) : Reads format (.infinity negative) (.infinity negative)
 | finite (negative : Bool) {significand : Nat} {exponent : Int} (hlt : significand < 2 ^ (format.fraction + 1))
   (hleast : 2 ^ format.fraction ≤ significand ∨ exponent = format.minimum - format.fraction) :
   Reads format (.finite ⟨negative, significand, exponent⟩) (.finite negative (significand * 2 ^ exponent))

theorem and_sign (bits : Nat) :
  (decide (bits &&& format.sign true ≠ 0)) = decide (bits / 2 ^ (format.fraction + format.exponent) % 2 = 1) := by
 rw [sign_eq, toNat_true, one_mul, and_two_pow, decide_eq_decide, testBit_eq_decide_div_mod_eq]
 by_cases h : bits / 2 ^ (format.fraction + format.exponent) % 2 = 1
 · simp [h]
 · simp [h]

theorem and_leading (fraction : Nat) :
  (decide (fraction &&& (1 <<< (format.fraction - 1)) = 0)) = format.isSignaling fraction := by
 rw [one_shiftLeft, and_two_pow, isSignaling, decide_eq_decide, testBit_eq_decide_div_mod_eq]
 by_cases h : fraction / 2 ^ (format.fraction - 1) % 2 = 1
 · simp [h]
 · have hzero : fraction / 2 ^ (format.fraction - 1) % 2 = 0 := by omega
   simp [hzero]

/-- What is decoded stands for the datum of the bits. -/
theorem decode_reads (format : Format) (bits : Nat) : Reads format (format.decode bits) (format.datum bits) := by
 have hfrac : bits &&& ((1 <<< format.fraction) - 1) = bits % 2 ^ format.fraction := by
  rw [one_shiftLeft, and_two_pow_sub_one_eq_mod]
 have hexp : (bits >>> format.fraction) &&& ((1 <<< format.exponent) - 1) =
   bits / 2 ^ format.fraction % 2 ^ format.exponent := by
  rw [one_shiftLeft, and_two_pow_sub_one_eq_mod, shiftRight_eq_div_pow]
 have hlt : bits % 2 ^ format.fraction < 2 ^ format.fraction := mod_lt _ (Nat.two_pow_pos _)
 rw [decode, datum, hfrac, hexp, and_sign, special_eq]
 split
 · split
   · exact .infinity _
   · rename_i hne
     rw [and_leading, infinity, special_eq, ← Nat.or_assoc]
     have hzero : format.sign false = 0 := by rw [sign_eq, toNat_false, zero_mul]
     rw [hzero, or_zero, or_fields _ special_lt hlt]
     exact .nan _ (Nat.pos_of_ne_zero hne) hlt
 · generalize bits / 2 ^ format.fraction % 2 ^ format.exponent = biased
   rw [magnitude]
   by_cases hzero : biased = 0
   · subst hzero
     rw [if_pos rfl]
     simp only [ne_eq, not_true_eq_false, decide_false, toNat_false, zero_shiftLeft, or_zero]
     rw [show max 0 1 = 1 from rfl]
     exact .finite _ (hlt.trans (Nat.pow_lt_pow_right (by omega) (by omega))) (.inr rfl)
   · rw [if_neg hzero]
     have hsig : bits % 2 ^ format.fraction ||| ((decide (biased ≠ 0)).toNat <<< format.fraction) =
       2 ^ format.fraction + bits % 2 ^ format.fraction := by
      rw [decide_eq_true hzero, toNat_true, shiftLeft_eq, Nat.or_comm, or_eq_add hlt, one_mul]
     have hmax : max biased 1 = biased := by omega
     have hcast : ((2 ^ format.fraction + bits % 2 ^ format.fraction : Nat) : ℝ) =
       2 ^ format.fraction + (bits % 2 ^ format.fraction : Nat) := by
      push_cast
      rfl
     rw [hsig, hmax, ← hcast]
     exact .finite _ (by rw [pow_succ]; omega) (.inl (by omega))

/-! ## NaNs -/

theorem or_flags (a b : Bool) : 16 * a.toNat ||| (b.toNat <<< 4) = 16 * (a || b).toNat := by
 cases a <;> cases b <;> rfl

variable {values : List Decoded} {data : List Datum} (hfits : format.Fits) (h : Forall₂ (Reads format) values data)

include hfits h

/-- The fold keeps the first NaN and gathers the signals. -/
theorem foldl_propagates (found : Option Nat) (invalid : Bool) :
  ∃ signals : Bool, (signals = true ↔ Signals format data) ∧
   values.foldl (fun (acc : Option Nat × Nat) value => match value with
    | .nan bits signaling =>
     (some (acc.1.getD (bits ||| (1 <<< (format.fraction - 1)))), acc.2 ||| (signaling.toNat <<< 4))
    | _ => acc) (found, 16 * invalid.toNat) =
   (found.or ((firstNan data).map fun first => format.fields first.1 format.special (format.quieted first.2)),
    16 * (invalid || signals).toNat) := by
 induction h generalizing found invalid with
 | nil =>
  refine ⟨false, ⟨nofun, fun hsignals => ?_⟩, ?_⟩
  · obtain ⟨_, _, hmem, -⟩ := hsignals
    nomatch hmem
  · rw [Bool.or_false, firstNan, map_none, or_none]
    rfl
 | cons hread _ ih =>
  rw [foldl_cons]
  cases hread with
  | nan negative hpos hlt =>
   rename_i fraction
   obtain ⟨signals, hiff, heq⟩ := ih
    (some (found.getD (format.fields negative format.special fraction ||| (1 <<< (format.fraction - 1)))))
    (invalid || format.isSignaling fraction)
   refine ⟨format.isSignaling fraction || signals, ?_, ?_⟩
   · rw [or_eq_true, hiff]
     constructor
     · rintro (hsignaling | ⟨negative', fraction', hmem, hsignaling⟩)
       · exact ⟨negative, fraction, .head _, hsignaling⟩
       · exact ⟨negative', fraction', .tail _ hmem, hsignaling⟩
     · rintro ⟨negative', fraction', hmem, hsignaling⟩
       rcases mem_cons.1 hmem with heq' | hrest
       · obtain ⟨rfl, rfl⟩ := Datum.nan.inj heq'
         exact .inl hsignaling
       · exact .inr ⟨negative', fraction', hrest, hsignaling⟩
   · dsimp only
     rw [or_flags, heq, fields_or_quiet hfits negative hlt, Bool.or_assoc, firstNan, map_some]
     cases found <;> rfl
  | infinity negative =>
   obtain ⟨signals, hiff, heq⟩ := ih found invalid
   refine ⟨signals, hiff.trans ?_, heq⟩
   simp [Signals]
  | finite negative hlt hleast =>
   obtain ⟨signals, hiff, heq⟩ := ih found invalid
   refine ⟨signals, hiff.trans ?_, heq⟩
   simp [Signals]

/-- The first NaN is propagated quieted, and the signals of all operands are raised. -/
theorem propagateNan_spec (invalid : Bool) : ∃ signals : Bool, (signals = true ↔ Signals format data) ∧
   format.propagateNan values invalid = (firstNan data).map fun first =>
    ⟨format.fields first.1 format.special (format.quieted first.2), 16 * (invalid || signals).toNat⟩ := by
 obtain ⟨signals, hiff, heq⟩ := foldl_propagates hfits h none invalid
 refine ⟨signals, hiff, ?_⟩
 rw [propagateNan, show invalid.toNat <<< 4 = 16 * invalid.toNat by rw [shiftLeft_eq, mul_comm]]
 apply (congrArg (fun acc : Option Nat × Nat => acc.1.map fun bits => FloatResult.mk bits acc.2) heq).trans
 cases firstNan data <;> rfl

end Format

end Tir.Adt
