import Tir.Adt.FloatPack
import Tir.Bitblast.IntToFloat

/-!
# What the integer to float circuit computes

The circuit encodes the integer rounded to nearest, as long as the rounded integer stays in the format. Past it the
exponent wraps, and the bits are the infinity's only where the wrapped exponent is all ones over an empty fraction
(`encodes_floatBits_iff`).
-/

open Nat Int

namespace Tir.Bitblast

open Tir.Sat Tir.Adt Tir.Rounding Format Valued

/-- The bits are the encoding of the integer, rounded to nearest with ties to even: an infinity where that is beyond the
format, and a zero without a sign. -/
def Encodes (format : Format) (i : Int) (bits : Nat) : Prop :=
 (i = 0 → bits = 0) ∧
 (i ≠ 0 → (format.Overflows .tiesToEven i → bits = format.fields (decide (i < 0)) format.special 0) ∧
  (¬format.Overflows .tiesToEven i → ∃ biased fraction, biased < format.special ∧ fraction < 2 ^ format.fraction ∧
   bits = format.fields (decide (i < 0)) biased fraction ∧
   signed (decide (i < 0)) (format.magnitude biased fraction) = format.roundFinite .tiesToEven i))

/-- The rounded integer is a power of two whose exponent is all ones where it wraps. -/
def WrapsToInfinity (format : Format) (i : Int) : Prop :=
 ∃ k : Nat, |format.roundUnbounded .tiesToEven i| = 2 ^ k ∧ (k + (2 ^ (format.exponent - 1) - 1)) % 2 ^ format.exponent = format.special

section Rounded

variable {e m : Nat} {i : Int}

theorem cast_natAbs_signed (i : Int) : ((i : Int) : ℝ) = signed (decide (i < 0)) (i.natAbs : ℝ) := by
 rw [cast_natAbs, cast_abs]
 rcases lt_or_ge i 0 with h | h
 · rw [decide_eq_true h, abs_of_neg (cast_lt_zero.2 h)]
   exact (neg_neg _).symm
 · rw [decide_eq_false (not_lt.2 h), abs_of_nonneg (Int.cast_nonneg h)]
   rfl

theorem roundedMagnitude_bounds (m : Nat) {n : Nat} (hn : n ≠ 0) :
  2 ^ m ≤ roundedMagnitude m n ∧ roundedMagnitude m n ≤ 2 ^ (m + 1) := by
 have hlow := log2_self_le hn
 have hhigh := lt_log2_self (n := n)
 have hge : 2 ^ (m + 1) ≤ n * 2 ^ (m + 1) / 2 ^ Nat.log2 n := by
  rw [Nat.le_div_iff_mul_le (Nat.two_pow_pos _), mul_comm]
  exact Nat.mul_le_mul_right _ hlow
 have hlt : n * 2 ^ (m + 1) / 2 ^ Nat.log2 n < 2 * 2 ^ (m + 1) := by
  rw [Nat.div_lt_iff_lt_mul (Nat.two_pow_pos _), mul_right_comm]
  exact Nat.mul_lt_mul_of_pos_right (by rwa [mul_comm, ← pow_succ]) (Nat.two_pow_pos _)
 rw [roundedMagnitude, nearestEven, RoundingMode.pick]
 rw [pow_succ] at hge hlt ⊢
 split <;> omega

/-- Scaled to the precision, the integer rounds to the rounded magnitude. -/
theorem toInt_scaled (m : Nat) (i : Int) :
  RoundingMode.tiesToEven.toInt ((i : ℝ) / 2 ^ ((Nat.log2 i.natAbs : Int) - m)) =
   signed (decide (i < 0)) (roundedMagnitude m i.natAbs : ℤ) := by
 have hscale : (i.natAbs : ℝ) / 2 ^ ((Nat.log2 i.natAbs : Int) - m) =
   ((i.natAbs * 2 ^ (m + 1) : Nat) : ℝ) / 2 ^ (Nat.log2 i.natAbs + 1) := by
  rw [zpow_sub₀ (by norm_num), zpow_natCast, zpow_natCast]
  push_cast
  field_simp
  ring
 rw [cast_natAbs_signed, signed_div, hscale, (Sticky.exact _).toInt_shift _ _ (.inl rfl)]
 rfl

theorem log_abs_int (i : Int) : Int.log 2 |(i : ℝ)| = Nat.log2 i.natAbs := by
 rw [← cast_abs, abs_eq_natAbs, cast_natCast, log_natCast, log2_eq_log_two]

theorem roundUnbounded_int (i : Int) : Format.roundUnbounded ⟨m, e⟩ .tiesToEven i =
  signed (decide (i < 0)) ((roundedMagnitude m i.natAbs : ℝ) * 2 ^ ((Nat.log2 i.natAbs : Int) - m)) := by
 rw [roundUnbounded, log_abs_int, roundTo, toInt_scaled, cast_signed, cast_natCast, signed_mul]

theorem abs_roundUnbounded (i : Int) : |Format.roundUnbounded ⟨m, e⟩ .tiesToEven i| =
  (roundedMagnitude m i.natAbs : ℝ) * 2 ^ ((Nat.log2 i.natAbs : Int) - m) := by
 rw [roundUnbounded_int, abs_signed (by positivity)]

/-- The rounded integer as a significand with its leading one at `m` and an exponent. -/
structure Significand (e m : Nat) (i : Int) (significand exponent : Nat) : Prop where
 ge : 2 ^ m ≤ significand
 lt : significand < 2 ^ (m + 1)
 same : (roundedMagnitude m i.natAbs : ℝ) * 2 ^ ((Nat.log2 i.natAbs : Int) - m) = significand * 2 ^ ((exponent : Int) - m)
 overflows : Format.Overflows ⟨m, e⟩ .tiesToEven i ↔ 2 ^ (e - 1) - 1 < exponent
 bits : floatBits e m i = Format.fields ⟨m, e⟩ (decide (i < 0)) ((exponent + (2 ^ (e - 1) - 1)) % 2 ^ e) (significand % 2 ^ m)

theorem exists_significand (he : 2 ≤ e) (m : Nat) (hi : i ≠ 0) : ∃ significand exponent, Significand e m i significand exponent := by
 obtain ⟨hge, hle⟩ := roundedMagnitude_bounds m (natAbs_ne_zero.2 hi)
 obtain ⟨hbias, -, hone⟩ := bias_eq (show 2 ≤ (⟨m, e⟩ : Format).exponent from he)
 have hbits : floatBits e m i = fields ⟨m, e⟩ (decide (i < 0))
   ((Nat.log2 i.natAbs + (2 ^ (e - 1) - 1) + ((roundedMagnitude m i.natAbs).testBit (m + 1)).toNat) % 2 ^ e)
   (roundedMagnitude m i.natAbs % 2 ^ m) := by
  rw [floatBits, if_neg hi, fields, pow_add]
  ring
 have hoverflows : Format.Overflows ⟨m, e⟩ .tiesToEven i ↔ maxFinite ⟨m, e⟩ <
   (roundedMagnitude m i.natAbs : ℝ) * 2 ^ ((Nat.log2 i.natAbs : Int) - m) := by
  rw [Format.Overflows, abs_roundUnbounded]
 obtain ⟨rounded, hr⟩ : ∃ rounded, roundedMagnitude m i.natAbs = rounded := ⟨_, rfl⟩
 obtain ⟨leading, hl⟩ : ∃ leading, Nat.log2 i.natAbs = leading := ⟨_, rfl⟩
 rw [hr] at hge hle
 rw [hr, hl] at hbits hoverflows
 obtain ⟨s, q, h⟩ := @Format.renormalize ⟨m, e⟩ (leading - m) _ hle
  (by rw [minimum]; dsimp only; omega) (.inl hge)
 have hexceeds := hoverflows.trans (h.exceeds_iff he).symm
 have hsame := h.same
 have hlt := h.lt
 have heq := h.eq
 dsimp only at hexceeds hlt heq hbias
 rw [Nat.one_shiftLeft] at heq
 -- only the rounding up to the next power of two carries out of the significand
 split at heq
 · rename_i hover
   obtain rfl : rounded = 2 ^ (m + 1) := le_antisymm hle hover
   cases heq
   have hhalf : 2 ^ (m + 1) >>> 1 = 2 ^ m := by
    rw [Nat.shiftRight_eq_div_pow, pow_succ, pow_one, Nat.mul_div_cancel _ (by omega)]
   rw [hhalf] at hsame hlt
   rw [testBit_two_pow_self, Bool.toNat_true, pow_succ, mul_mod_right] at hbits
   have hexp : (leading : Int) - m + 1 = ((leading + 1 : Nat) : Int) - m := by push_cast; ring
   refine ⟨2 ^ m, leading + 1, le_rfl, hlt, ?_, ?_, ?_⟩
   · rw [hr, hl, ← hexp]
     exact hsame.symm
   · rw [hexceeds]
     omega
   · rw [hbits, mod_self, add_right_comm]
 · rename_i hunder
   cases heq
   rw [testBit_lt_two_pow hlt, Bool.toNat_false, add_zero] at hbits
   refine ⟨rounded, leading, hge, hlt, by rw [hr, hl], ?_, hbits⟩
   rw [hexceeds]
   omega

theorem overflows_zero (he : 2 ≤ e) (m : Nat) : ¬Format.Overflows ⟨m, e⟩ .tiesToEven ((0 : Int) : ℝ) := by
 have hzero : roundedMagnitude m (0 : Int).natAbs = 0 := by
  rw [roundedMagnitude, natAbs_zero, zero_mul]
  rfl
 have hmax : (0 : ℝ) ≤ maxFinite ⟨m, e⟩ := by
  rw [maxFinite_eq he]
  have hone : (1 : ℝ) ≤ 2 ^ (m + 1) := one_le_pow₀ (by norm_num)
  exact mul_nonneg (sub_nonneg.2 hone) (two_zpow_pos _).le
 rw [Format.Overflows, abs_roundUnbounded, hzero, Nat.cast_zero, zero_mul]
 exact not_lt.2 hmax

section

variable {significand exponent : Nat} (h : Significand e m i significand exponent)

include h

/-- Within the format the significand and the exponent are the fields. -/
theorem Significand.encodes (he : 2 ≤ e)
  (hwithin : exponent ≤ 2 ^ (e - 1) - 1) : ∃ biased fraction, biased < Format.special ⟨m, e⟩ ∧ fraction < 2 ^ m ∧
   floatBits e m i = Format.fields ⟨m, e⟩ (decide (i < 0)) biased fraction ∧
   signed (decide (i < 0)) (Format.magnitude ⟨m, e⟩ biased fraction) = Format.roundFinite ⟨m, e⟩ .tiesToEven i := by
 obtain ⟨hbias, hspecial, hone⟩ := bias_eq (show 2 ≤ (⟨m, e⟩ : Format).exponent from he)
 have hge := h.ge
 have hlt := h.lt
 dsimp only at hbias
 have hbiased : exponent + (2 ^ (e - 1) - 1) < special ⟨m, e⟩ := by omega
 have hless : exponent + (2 ^ (e - 1) - 1) < 2 ^ e := hbiased.trans special_lt
 refine ⟨_, _, hbiased, mod_lt significand (Nat.two_pow_pos m), by rw [h.bits, mod_eq_of_lt hless], ?_⟩
 have hquantum : max (Int.log 2 |(i : ℝ)|) (minimum ⟨m, e⟩) = Nat.log2 i.natAbs := by
  rw [log_abs_int, minimum, max_eq_left (by omega)]
 have hfinite : roundFinite ⟨m, e⟩ .tiesToEven i = roundUnbounded ⟨m, e⟩ .tiesToEven i := by
  rw [roundFinite, hquantum, roundUnbounded, log_abs_int]
 have hsplit : significand = 2 ^ m + significand % 2 ^ m := by
  rw [pow_succ] at hlt
  have hsub := mod_eq_sub_mod hge
  rw [mod_eq_of_lt (show significand - 2 ^ m < 2 ^ m by omega)] at hsub
  omega
 have hexp : ((exponent + (2 ^ (e - 1) - 1) : Nat) : Int) - bias ⟨m, e⟩ - m = exponent - m := by omega
 rw [hfinite, roundUnbounded_int, h.same, magnitude, if_neg (by omega), hexp]
 conv_rhs => rw [hsplit]
 push_cast
 rfl

/-- The rounded integer is a power of two exactly where its fraction is empty. -/
theorem Significand.power_iff (k : Nat) :
  |Format.roundUnbounded ⟨m, e⟩ .tiesToEven i| = 2 ^ k ↔ k = exponent ∧ significand % 2 ^ m = 0 := by
 have hgrow : (1 : ℝ) < 2 := by norm_num
 have hscale := two_zpow_pos ((exponent : Int) - m)
 have hge : (2 : ℝ) ^ (m : Int) ≤ significand := by rw [zpow_natCast]; exact_mod_cast h.ge
 have hlt : (significand : ℝ) < 2 ^ ((m : Int) + 1) := by
  rw [← cast_succ, zpow_natCast]
  exact_mod_cast h.lt
 rw [abs_roundUnbounded, h.same]
 constructor
 · intro hpower
   have hsig : (significand : ℝ) = 2 ^ ((k : Int) - exponent + m) := by
    rw [← zpow_natCast, ← eq_div_iff hscale.ne', ← zpow_sub₀ (by norm_num)] at hpower
    rw [hpower]
    congr 1
    ring
   rw [hsig] at hge hlt
   have hlow := (zpow_le_zpow_iff_right₀ hgrow).1 hge
   have hhigh := (zpow_lt_zpow_iff_right₀ hgrow).1 hlt
   obtain rfl : k = exponent := by omega
   rw [sub_self, zero_add, zpow_natCast] at hsig
   have hnat : significand = 2 ^ m := by exact_mod_cast hsig
   exact ⟨rfl, by rw [hnat, mod_self]⟩
 · rintro ⟨rfl, hmod⟩
   have hlt := h.lt
   obtain ⟨q, hq⟩ := dvd_of_mod_eq_zero hmod
   obtain rfl : q = 1 := by
    have hge := h.ge
    rw [pow_succ] at hlt
    rw [hq] at hge hlt
    have hupper := Nat.lt_of_mul_lt_mul_left hlt
    rcases q with _ | q
    · omega
    · omega
   rw [hq, mul_one, Nat.cast_pow, Nat.cast_ofNat, ← zpow_natCast, ← zpow_natCast, ← zpow_add₀ (by norm_num)]
   congr 1
   ring

end

theorem fields_inj {a b c d k : Nat} (hb : b < k) (hd : d < k) (h : a * k + b = c * k + d) : a = c ∧ b = d := by
 have hpos : 0 < k := by omega
 have hdiv := congrArg (· / k) h
 have hmod := congrArg (· % k) h
 simp only [mul_comm _ k, mul_add_div hpos, mul_add_mod, div_eq_of_lt hb, div_eq_of_lt hd, add_zero,
  mod_eq_of_lt hb, mod_eq_of_lt hd] at hdiv hmod
 exact ⟨hdiv, hmod⟩

/-- The circuit's bits encode the rounded integer exactly where it stays in the format or wraps to the infinity. -/
theorem encodes_floatBits_iff (he : 2 ≤ e) (m : Nat) (i : Int) : Encodes ⟨m, e⟩ i (floatBits e m i) ↔
  ¬Format.Overflows ⟨m, e⟩ .tiesToEven i ∨ WrapsToInfinity ⟨m, e⟩ i := by
 by_cases hi : i = 0
 · subst hi
   exact iff_of_true ⟨fun _ => rfl, fun hne => absurd rfl hne⟩ (.inl (overflows_zero he m))
 obtain ⟨significand, exponent, h⟩ := exists_significand he m hi
 have hiff := h.overflows
 constructor
 · intro hencodes
   by_contra hnot
   obtain ⟨hover, hwraps⟩ := not_or.1 hnot
   apply hwraps
   have hbits := ((hencodes.2 hi).1 (not_not.1 hover)).symm.trans h.bits
   rw [fields, fields] at hbits
   dsimp only at hbits
   have hmod := mod_lt significand (Nat.two_pow_pos m)
   obtain ⟨hspecial, hfrac⟩ := fields_inj (Nat.two_pow_pos m) hmod (show special ⟨m, e⟩ * 2 ^ m + 0 =
    (exponent + (2 ^ (e - 1) - 1)) % 2 ^ e * 2 ^ m + significand % 2 ^ m by omega)
   exact ⟨exponent, (h.power_iff exponent).2 ⟨rfl, hfrac.symm⟩, hspecial.symm⟩
 · intro hcond
   refine ⟨fun hzero => absurd hzero hi, fun _ => ⟨fun hover => ?_, fun hwithin => ?_⟩⟩
   · obtain ⟨k, hpower, hwrap⟩ := hcond.resolve_left (not_not.2 hover)
     obtain ⟨rfl, hmod⟩ := (h.power_iff k).1 hpower
     rw [h.bits, hmod, hwrap]
   · exact h.encodes he (not_lt.1 (mt hiff.2 hwithin))

end Rounded

/-! ## The circuit -/

/-- The circuit is built, and its bits are the encoding of the integer that its operand spells. -/
def EncodesInteger (s : Valued) (value : List Lit) (signed : Bool) (e m : Nat) (i : Int) : Prop :=
 ∃ act, Blaster.intToFloat value signed e m = some act ∧ s.Yields act fun t r =>
  r.length = m + (e + 1) ∧ ∃ bits, t.Spells r bits ∧ Encodes ⟨m, e⟩ i bits

theorem encodesInteger_iff {s : Valued} {value : List Lit} {signed : Bool} {n e m : Nat} (h : s.Spells value n)
  (hvalue : value ≠ []) (he : 2 ≤ e) : EncodesInteger s value signed e m (integer signed value.length n) ↔
   e ≤ 64 ∧ Encodes ⟨m, e⟩ (integer signed value.length n) (floatBits e m (integer signed value.length n)) := by
 constructor
 · rintro ⟨act, hact, t, hext, hstate, -, bits, hbits, hencodes⟩
   have he' : e ≤ 64 := by
    by_contra hgt
    rw [Blaster.intToFloat, if_pos (.inr (.inr (by omega)))] at hact
    cases hact
   obtain ⟨act', hact', u, hext', hstate', -, hspells⟩ :=
    yields_intToFloat (m := m) h (show signed = true → value ≠ [] from fun _ => hvalue) (by omega) he'
   cases hact.symm.trans hact'
   rw [← (hbits.mono (hext.of_same hext' (hstate'.trans hstate.symm))).unique hspells]
   exact ⟨he', hencodes⟩
 · rintro ⟨he', hencodes⟩
   obtain ⟨act, hact, hyields⟩ := yields_intToFloat (m := m) h (show signed = true → value ≠ [] from fun _ => hvalue) (by omega) he'
   exact ⟨act, hact, hyields.mono fun t r _ hr => ⟨hr.1, _, hr.2, hencodes⟩⟩

/-- The circuit encodes its operand exactly where the field's width fits a word and the rounded integer stays in the format
or wraps to the infinity. -/
theorem intToFloat_encodes_iff {s : Valued} {value : List Lit} {n e m : Nat} (signed : Bool) (h : s.Spells value n)
  (hvalue : value ≠ []) (he : 2 ≤ e) : EncodesInteger s value signed e m (integer signed value.length n) ↔
   e ≤ 64 ∧ (¬Format.Overflows ⟨m, e⟩ .tiesToEven (integer signed value.length n) ∨
    WrapsToInfinity ⟨m, e⟩ (integer signed value.length n)) := by
 rw [encodesInteger_iff h hvalue he, encodes_floatBits_iff he]

theorem intToFloat_encodes_one : EncodesInteger .start [Valued.start.blaster.one] false 5 10 1 ↔
  5 ≤ 64 ∧ (¬Format.Overflows ⟨10, 5⟩ .tiesToEven ((1 : Int) : ℝ) ∨ WrapsToInfinity ⟨10, 5⟩ 1) :=
 intToFloat_encodes_iff (n := 1) false (spells_cons start.means_one (n := 0) rfl) (by decide) (by decide)

/-- `2 ^ 20` as a 32-bit operand is beyond half precision, and the bits are those of a small number. -/
theorem intToFloat_wraps : ¬EncodesInteger .start (Valued.start.constants (2 ^ 20) 32) false 5 10 (2 ^ 20) := by
 have hspells := start.spells_constants (2 ^ 20) 32
 have hoverflows : Format.Overflows ⟨10, 5⟩ .tiesToEven ((2 ^ 20 : Int) : ℝ) := by
  have hlog : Nat.log2 (2 ^ 20 : Int).natAbs = 20 := by decide +kernel
  have hrounded : roundedMagnitude 10 (2 ^ 20 : Int).natAbs = 2 ^ 10 := by decide +kernel
  have hbias : bias ⟨10, 5⟩ = 15 := by decide
  rw [Format.Overflows, abs_roundUnbounded, maxFinite_eq (by decide), hlog, hrounded, hbias]
  norm_num
 intro hencodes
 obtain ⟨-, -, hbits⟩ := (encodesInteger_iff (e := 5) (m := 10) hspells (by decide) (by decide)).1 hencodes
 have hvalue := (hbits (by decide)).1 hoverflows
 revert hvalue
 decide +kernel

end Tir.Bitblast
