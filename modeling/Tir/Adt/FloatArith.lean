import Tir.Adt.FloatPack

/-!
# Sums, products, quotients and roots

The finite value that each operation hands to `pack` stands for the exact result: products and small sums exactly,
sums of far operands, quotients and square roots by a sticky bit far below the format's precision.
-/

open Nat

namespace Tir.Adt

open Rounding Finite

/-! ## Alignment -/

/-- A shift that jams leaves a significand that stands for the quotient. -/
theorem shiftRightJam_sticky {value : Nat} (hlt : value < 2 ^ 128) (shift : Nat) :
  Sticky (shiftRightJam value shift) ((value : ℝ) / 2 ^ shift) := by
 rw [shiftRightJam]
 split
 · rename_i hzero
   rw [hzero, pow_zero, div_one]
   exact .exact value
 · split
   · rename_i hpos hsmall
     have hjam : (u128 (value <<< (128 - shift)) ≠ 0) ↔ (value % 2 ^ shift ≠ 0) := by
      have hpow : 2 ^ 128 = 2 ^ shift * 2 ^ (128 - shift) := by
       rw [← pow_add]
       congr 1
       omega
      rw [u128, shiftLeft_eq, hpow, mul_mod_mul_right]
      simp
     have hquotient := Sticky.quotient value (Nat.two_pow_pos shift)
     rw [← decide_eq_decide.2 hjam, cast_pow, cast_ofNat] at hquotient
     rw [shiftRight_eq_div_pow]
     exact hquotient
   · rename_i hpos hlarge
     have hless : value < 2 ^ shift := hlt.trans_le (Nat.pow_le_pow_right (by omega) (by omega))
     have hquotient := Sticky.quotient value (Nat.two_pow_pos shift)
     rw [div_eq_of_lt hless, mod_eq_of_lt hless, zero_or, cast_pow, cast_ofNat] at hquotient
     exact hquotient

/-- A significand at the common exponent of a sum. -/
def align (exponent : Int) (value : Finite) : Nat :=
 if 0 ≤ value.exponent - exponent then u128 (value.significand <<< (value.exponent - exponent).toNat)
 else shiftRightJam value.significand (-(value.exponent - exponent)).toNat

/-- The magnitude that a significand has at the common exponent. -/
noncomputable def aligned (exponent : Int) (value : Finite) : ℝ :=
 value.significand * 2 ^ (value.exponent - exponent)

section Align

variable {value : Finite} {exponent : Int}

theorem aligned_pos (exponent : Int) (hpos : 0 < value.significand) : 0 < aligned exponent value :=
 mul_pos (cast_pos.2 hpos) (two_zpow_pos _)

theorem align_of_le (hle : exponent ≤ value.exponent)
  (htop : value.exponent + Nat.log2 value.significand ≤ exponent + 120) :
  aligned exponent value = align exponent value ∧
   align exponent value = value.significand * 2 ^ (value.exponent - exponent).toNat ∧ align exponent value < 2 ^ 121 := by
 have hbits := lt_log2_self (n := value.significand)
 have hless : value.significand * 2 ^ (value.exponent - exponent).toNat < 2 ^ 121 :=
  calc value.significand * 2 ^ (value.exponent - exponent).toNat
    < 2 ^ (Nat.log2 value.significand + 1) * 2 ^ (value.exponent - exponent).toNat :=
     Nat.mul_lt_mul_of_pos_right hbits (Nat.two_pow_pos _)
   _ = 2 ^ (Nat.log2 value.significand + 1 + (value.exponent - exponent).toNat) := (pow_add ..).symm
   _ ≤ 2 ^ 121 := Nat.pow_le_pow_right (by omega) (by omega)
 have halign : align exponent value = value.significand * 2 ^ (value.exponent - exponent).toNat := by
  rw [align, if_pos (by omega), shiftLeft_eq, u128, mod_eq_of_lt (hless.trans (by norm_num))]
 refine ⟨?_, halign, by rw [halign]; exact hless⟩
 rw [halign, aligned]
 push_cast
 rw [← zpow_natCast (2 : ℝ), Int.toNat_of_nonneg (by omega)]

/-- A significand shifted down is sticky, and far below the other one. -/
theorem align_of_gt (hlt : value.significand < 2 ^ 110) (hgt : value.exponent < exponent) :
  Sticky (align exponent value) (aligned exponent value) ∧ align exponent value ≤ 2 ^ 119 := by
 obtain ⟨k, hk⟩ : ∃ k : ℕ, (-(value.exponent - exponent)).toNat = k + 1 := ⟨(-(value.exponent - exponent)).toNat - 1, by omega⟩
 have heq : aligned exponent value = (value.significand : ℝ) / 2 ^ (k + 1) := by
  rw [aligned, show value.exponent - exponent = -((k + 1 : ℕ) : ℤ) by omega, zpow_neg, zpow_natCast, div_eq_mul_inv]
 have hsticky := shiftRightJam_sticky (hlt.trans (by norm_num)) (k + 1)
 have halign : align exponent value = shiftRightJam value.significand (k + 1) := by
  rw [align, if_neg (by omega), hk]
 rw [heq, halign]
 refine ⟨hsticky, ?_⟩
 apply (hsticky.lt_iff (.inr (even_pow.2 ⟨even_two, by norm_num⟩))).1 _ |>.le
 rw [div_lt_iff₀ (by positivity)]
 have hcast : (value.significand : ℝ) < ((2 ^ 110 : ℕ) : ℝ) := cast_lt.2 hlt
 have hone : (1 : ℝ) ≤ 2 ^ (k + 1) := one_le_pow₀ (by norm_num)
 calc (value.significand : ℝ) < ((2 ^ 110 : ℕ) : ℝ) := hcast
  _ ≤ ((2 ^ 119 : ℕ) : ℝ) * 1 := by norm_num
  _ ≤ ((2 ^ 119 : ℕ) : ℝ) * 2 ^ (k + 1) := mul_le_mul_of_nonneg_left hone (cast_nonneg _)

/-- The larger operand is shifted up, by more than one bit. -/
theorem align_top (hpos : 0 < value.significand) (hlt : value.significand < 2 ^ 110)
  (htop : value.exponent + Nat.log2 value.significand = exponent + 120) :
  aligned exponent value = align exponent value ∧ Even (align exponent value) ∧ 2 ^ 120 ≤ align exponent value ∧
   align exponent value < 2 ^ 121 := by
 have hlog : Nat.log2 value.significand < 110 := (log2_lt hpos.ne').2 hlt
 obtain ⟨heq, halign, hless⟩ := align_of_le (show exponent ≤ value.exponent by omega) htop.le
 refine ⟨heq, ?_, ?_, hless⟩
 · grind
 · rw [halign]
   calc 2 ^ 120 = 2 ^ Nat.log2 value.significand * 2 ^ (value.exponent - exponent).toNat := by
         rw [← pow_add]
         congr 1
         omega
    _ ≤ value.significand * 2 ^ (value.exponent - exponent).toNat :=
      Nat.mul_le_mul_right _ (log2_self_le hpos.ne')

end Align

/-! ## Sums -/

/-- Two aligned operands: both exact, or the larger one exact and even and the smaller one sticky. -/
def AlignedPair (a b : Nat) (x y : ℝ) : Prop :=
 (x = a ∧ y = b) ∨ (x = a ∧ Even a ∧ 2 ^ 120 ≤ a ∧ Sticky b y ∧ b ≤ 2 ^ 119) ∨
  (y = b ∧ Even b ∧ 2 ^ 120 ≤ b ∧ Sticky a x ∧ a ≤ 2 ^ 119)

namespace AlignedPair

variable {a b : Nat} {x y : ℝ}

variable (h : AlignedPair a b x y)

include h

theorem comm : AlignedPair b a y x := by
 rcases h with ⟨hx, hy⟩ | hleft | hright
 · exact .inl ⟨hy, hx⟩
 · exact .inr (.inr hleft)
 · exact .inr (.inl hright)

theorem add : Sticky (a + b) (x + y) ∧ (x + y = (a + b : ℕ) ∨ 2 ^ 118 ≤ a + b) := by
 rcases h with ⟨rfl, rfl⟩ | ⟨rfl, heven, hle, hsticky, -⟩ | ⟨rfl, heven, hle, hsticky, -⟩
 · rw [← cast_add]
   exact ⟨.exact _, .inl rfl⟩
 · exact ⟨hsticky.even_add heven, .inr (by omega)⟩
 · rw [add_comm, add_comm x]
   exact ⟨hsticky.even_add heven, .inr (by omega)⟩

theorem sub (hlt : b < a) :
  Sticky (a - b) (x - y) ∧ (x - y = (a - b : ℕ) ∨ 2 ^ 118 ≤ a - b) := by
 rcases h with ⟨rfl, rfl⟩ | ⟨rfl, heven, hle, hsticky, hsmall⟩ | ⟨rfl, -, hle, -, hsmall⟩
 · rw [← cast_sub hlt.le]
   exact ⟨.exact _, .inl rfl⟩
 · exact ⟨hsticky.even_sub heven hlt.le, .inr (by omega)⟩
 · omega

theorem eq_iff : a = b ↔ x = y := by
 rcases h with ⟨rfl, rfl⟩ | ⟨rfl, heven, hle, hsticky, hsmall⟩ | ⟨rfl, heven, hle, hsticky, hsmall⟩
 · exact Nat.cast_inj.symm
 · rw [eq_comm, ← hsticky.eq_iff (.inr heven), eq_comm]
 · rw [hsticky.eq_iff (.inr heven)]

end AlignedPair

/-- The exponent that a sum aligns its operands to. -/
def commonExponent (left right : Finite) : Int :=
 max (left.exponent + 127 - leadingZeros left.significand) (right.exponent + 127 - leadingZeros right.significand) - 120

variable {left right : Finite}

theorem alignedPair (hl : 0 < left.significand) (hr : 0 < right.significand)
  (hl' : left.significand < 2 ^ 110) (hr' : right.significand < 2 ^ 110) :
  AlignedPair (align (commonExponent left right) left) (align (commonExponent left right) right)
    (aligned (commonExponent left right) left) (aligned (commonExponent left right) right) ∧
   align (commonExponent left right) left < 2 ^ 121 ∧ align (commonExponent left right) right < 2 ^ 121 := by
 have htopl := Format.top_eq hl (hl'.trans (by norm_num))
 have htopr := Format.top_eq hr (hr'.trans (by norm_num))
 have hcommon : commonExponent left right =
   max (left.exponent + Nat.log2 left.significand) (right.exponent + Nat.log2 right.significand) - 120 := by
  rw [commonExponent]
  omega
 generalize commonExponent left right = exponent at hcommon ⊢
 rcases le_total (right.exponent + (Nat.log2 right.significand : ℤ)) (left.exponent + Nat.log2 left.significand) with hle | hle
 · rw [max_eq_left hle] at hcommon
   obtain ⟨heq, heven, hge, hless⟩ := align_top hl hl'
    (show left.exponent + (Nat.log2 left.significand : ℤ) = exponent + 120 by omega)
   by_cases hexact : exponent ≤ right.exponent
   · obtain ⟨heq', -, hless'⟩ := align_of_le hexact
      (show right.exponent + (Nat.log2 right.significand : ℤ) ≤ exponent + 120 by omega)
     exact ⟨.inl ⟨heq, heq'⟩, hless, hless'⟩
   · obtain ⟨hsticky, hsmall⟩ := align_of_gt hr' (not_le.1 hexact)
     exact ⟨.inr (.inl ⟨heq, heven, hge, hsticky, hsmall⟩), hless, by omega⟩
 · rw [max_eq_right hle] at hcommon
   obtain ⟨heq, heven, hge, hless⟩ := align_top hr hr'
    (show right.exponent + (Nat.log2 right.significand : ℤ) = exponent + 120 by omega)
   by_cases hexact : exponent ≤ left.exponent
   · obtain ⟨heq', -, hless'⟩ := align_of_le hexact
      (show left.exponent + (Nat.log2 left.significand : ℤ) ≤ exponent + 120 by omega)
     exact ⟨.inl ⟨heq', heq⟩, hless', hless⟩
   · obtain ⟨hsticky, hsmall⟩ := align_of_gt hl' (not_le.1 hexact)
     exact ⟨.inr (.inr ⟨heq, heven, hge, hsticky, hsmall⟩), by omega, hless⟩

/-- A finite value stands for a real: by its significand, or by a sticky one far longer than a format's. -/
def Stands (value : Finite) (v : ℝ) : Prop :=
 0 < value.significand ∧ value.significand < 2 ^ 128 ∧ ∃ x, Sticky value.significand x ∧
  (x = value.significand ∨ 2 ^ 60 ≤ value.significand) ∧ v = signed value.negative (x * 2 ^ value.exponent)

noncomputable def Finite.real (value : Finite) : ℝ :=
 signed value.negative (value.significand * 2 ^ value.exponent)

theorem real_eq_aligned (value : Finite) (exponent : Int) :
  value.real = signed value.negative (aligned exponent value) * 2 ^ exponent := by
 rw [real, aligned, signed_mul, mul_assoc, ← zpow_add₀ (by norm_num)]
 congr 3
 omega

theorem addFinite_zeros (hl : left.significand = 0) (hr : right.significand = 0)
  (rounding : RoundingMode) : addFinite left right rounding =
   ⟨if left.negative = right.negative then left.negative else rounding = .towardNegative, 0, 0⟩ := by
 rw [addFinite, if_pos ⟨hl, hr⟩]

theorem addFinite_zero_left (hl : left.significand = 0) (hr : right.significand ≠ 0)
  (rounding : RoundingMode) : addFinite left right rounding = right := by
 rw [addFinite, if_neg fun h => hr h.2, if_pos hl]

theorem addFinite_zero_right (hl : left.significand ≠ 0) (hr : right.significand = 0)
  (rounding : RoundingMode) : addFinite left right rounding = left := by
 rw [addFinite, if_neg fun h => hl h.1, if_neg hl, if_pos hr]

/-- The sum of two values that are not zero: zero where they cancel, else what the result stands for. -/
theorem addFinite_spec (hl : 0 < left.significand) (hr : 0 < right.significand)
  (hl' : left.significand < 2 ^ 110) (hr' : right.significand < 2 ^ 110) (rounding : RoundingMode) :
  (left.real + right.real = 0 → left.negative ≠ right.negative ∧
   (addFinite left right rounding).negative = decide (rounding = .towardNegative) ∧
   (addFinite left right rounding).significand = 0) ∧
  (left.real + right.real ≠ 0 → Stands (addFinite left right rounding) (left.real + right.real)) := by
 obtain ⟨hpair, hlessa, hlessb⟩ := alignedPair hl hr hl' hr'
 have hadd : addFinite left right rounding =
   if left.negative = right.negative then ⟨left.negative, u128 (align (commonExponent left right) left +
    align (commonExponent left right) right), commonExponent left right⟩
   else if align (commonExponent left right) left = align (commonExponent left right) right then
    ⟨rounding = .towardNegative, 0, commonExponent left right⟩
   else if align (commonExponent left right) right < align (commonExponent left right) left then
    ⟨left.negative, align (commonExponent left right) left - align (commonExponent left right) right, commonExponent left right⟩
   else ⟨right.negative, align (commonExponent left right) right - align (commonExponent left right) left,
    commonExponent left right⟩ := by
  rw [addFinite, if_neg (by omega), if_neg hl.ne', if_neg hr.ne']
  rfl
 rw [hadd, real_eq_aligned left (commonExponent left right), real_eq_aligned right (commonExponent left right)]
 have hx := aligned_pos (commonExponent left right) hl
 have hy := aligned_pos (commonExponent left right) hr
 generalize commonExponent left right = exponent at hpair hlessa hlessb hx hy ⊢
 generalize align exponent left = a at hpair hlessa ⊢
 generalize align exponent right = b at hpair hlessb ⊢
 generalize aligned exponent left = x at hpair hx ⊢
 generalize aligned exponent right = y at hpair hy ⊢
 have hscale := two_zpow_pos exponent
 by_cases hsame : left.negative = right.negative
 · rw [if_pos hsame, ← hsame]
   have hsum : signed left.negative x * 2 ^ exponent + signed left.negative y * 2 ^ exponent =
     signed left.negative ((x + y) * 2 ^ exponent) := by
    rw [← add_mul, ← signed_mul, signed_add]
   have hu128 : u128 (a + b) = a + b := mod_eq_of_lt (by omega)
   obtain ⟨hsticky, hwide⟩ := hpair.add
   rw [hsum, hu128]
   constructor
   · intro hzero
     have habs : |signed left.negative ((x + y) * 2 ^ exponent)| = (x + y) * 2 ^ exponent :=
      abs_signed (mul_pos (add_pos hx hy) hscale).le
     rw [hzero, abs_zero] at habs
     exact absurd habs (mul_pos (add_pos hx hy) hscale).ne
   · exact fun _ => ⟨hsticky.pos (add_pos hx hy), by dsimp only; omega, x + y, hsticky,
      hwide.imp_right fun hle => le_trans (by norm_num) hle, rfl⟩
 · rw [if_neg hsame]
   have hsign : right.negative = !left.negative := by
    cases hl : left.negative <;> cases hr : right.negative <;> simp_all
   have hdiff : signed left.negative x * 2 ^ exponent + signed right.negative y * 2 ^ exponent =
     signed left.negative ((x - y) * 2 ^ exponent) := by
    rw [hsign, ← add_mul, ← signed_mul, signed_add_not]
   have hdiff' : signed left.negative ((x - y) * 2 ^ exponent) = signed right.negative ((y - x) * 2 ^ exponent) := by
    rw [hsign, signed_not]
    congr 1
    ring
   rw [hdiff]
   rcases lt_trichotomy a b with hless | heq | hgreater
   · obtain ⟨hsticky, hwide⟩ := hpair.comm.sub hless
     have hne : x ≠ y := mt hpair.eq_iff.2 hless.ne
     rw [if_neg hless.ne, if_neg hless.not_gt, hdiff']
     have hposd : 0 < b - a := Nat.sub_pos_of_lt hless
     constructor
     · grind [signed_eq_zero]
     · exact fun _ => ⟨hposd, by dsimp only; omega, y - x, hsticky, hwide.imp_right fun hle => le_trans (by norm_num) hle, rfl⟩
   · have hxy := hpair.eq_iff.1 heq
     rw [if_pos heq]
     constructor
     · exact fun _ => ⟨hsame, rfl, rfl⟩
     grind [signed_eq_zero]
   · obtain ⟨hsticky, hwide⟩ := hpair.sub hgreater
     have hne : x ≠ y := mt hpair.eq_iff.2 hgreater.ne'
     rw [if_neg hgreater.ne', if_pos hgreater]
     have hposd : 0 < a - b := Nat.sub_pos_of_lt hgreater
     constructor
     · grind [signed_eq_zero]
     · exact fun _ => ⟨hposd, by dsimp only; omega, x - y, hsticky, hwide.imp_right fun hle => le_trans (by norm_num) hle, rfl⟩

/-! ## Quotients -/

noncomputable def Finite.magnitude (value : Finite) : ℝ :=
 value.significand * 2 ^ value.exponent

theorem Finite.magnitude_pos {value : Finite} (hpos : 0 < value.significand) : 0 < value.magnitude :=
 mul_pos (cast_pos.2 hpos) (two_zpow_pos _)

/-- The shift that takes a leading bit to a place. -/
theorem shift_leading {significand place : Nat} (hpos : 0 < significand) (hlog : Nat.log2 significand ≤ place) (hplace : place < 128) :
  u128 (significand <<< (place - (127 - leadingZeros significand))) = significand * 2 ^ (place - Nat.log2 significand) ∧
   2 ^ place ≤ significand * 2 ^ (place - Nat.log2 significand) ∧
   significand * 2 ^ (place - Nat.log2 significand) < 2 ^ (place + 1) := by
 have hzeros : 127 - leadingZeros significand = Nat.log2 significand := by
  rw [leadingZeros, if_neg hpos.ne']
  omega
 have hlow : 2 ^ place ≤ significand * 2 ^ (place - Nat.log2 significand) := by
  calc 2 ^ place = 2 ^ Nat.log2 significand * 2 ^ (place - Nat.log2 significand) := by
        rw [← pow_add]
        congr 1
        omega
   _ ≤ significand * 2 ^ (place - Nat.log2 significand) := Nat.mul_le_mul_right _ (log2_self_le hpos.ne')
 have hhigh : significand * 2 ^ (place - Nat.log2 significand) < 2 ^ (place + 1) := by
  calc significand * 2 ^ (place - Nat.log2 significand)
    < 2 ^ (Nat.log2 significand + 1) * 2 ^ (place - Nat.log2 significand) :=
     Nat.mul_lt_mul_of_pos_right lt_log2_self (Nat.two_pow_pos _)
   _ = 2 ^ (place + 1) := by
     rw [← pow_add]
     congr 1
     omega
 refine ⟨?_, hlow, hhigh⟩
 rw [hzeros, shiftLeft_eq, u128, mod_eq_of_lt]
 exact hhigh.trans_le (Nat.pow_le_pow_right (by omega) (by omega))

/-- The finite value that a quotient packs. -/
def quotient (negative : Bool) (a b : Finite) : Finite :=
 let aTop := 127 - leadingZeros a.significand
 let bTop := 127 - leadingZeros b.significand
 let numerator := u128 (a.significand <<< (126 - aTop))
 let denominator := u128 (b.significand <<< (63 - bTop))
 let significand := (numerator / denominator) ||| (decide (numerator % denominator ≠ 0)).toNat
 ⟨negative, significand, a.exponent - b.exponent + aTop - bTop - 63⟩

theorem quotient_stands {a b : Finite} (ha : 0 < a.significand) (hb : 0 < b.significand) (ha' : a.significand < 2 ^ 53)
  (hb' : b.significand < 2 ^ 53) (negative : Bool) :
  Stands (quotient negative a b) (signed negative (a.magnitude / b.magnitude)) := by
 have hloga : Nat.log2 a.significand < 53 := (log2_lt ha.ne').2 ha'
 have hlogb : Nat.log2 b.significand < 53 := (log2_lt hb.ne').2 hb'
 obtain ⟨hnumerator, hnlow, hnhigh⟩ := shift_leading ha (show Nat.log2 a.significand ≤ 126 by omega) (by omega)
 obtain ⟨hdenominator, hdlow, hdhigh⟩ := shift_leading hb (show Nat.log2 b.significand ≤ 63 by omega) (by omega)
 have hzerosa : 127 - leadingZeros a.significand = Nat.log2 a.significand := by
  rw [leadingZeros, if_neg ha.ne']
  omega
 have hzerosb : 127 - leadingZeros b.significand = Nat.log2 b.significand := by
  rw [leadingZeros, if_neg hb.ne']
  omega
 rw [quotient, hnumerator, hdenominator, hzerosa, hzerosb]
 generalize hn : a.significand * 2 ^ (126 - Nat.log2 a.significand) = n at hnlow hnhigh ⊢
 generalize hd : b.significand * 2 ^ (63 - Nat.log2 b.significand) = d at hdlow hdhigh ⊢
 have hdpos : 0 < d := (Nat.two_pow_pos 63).trans_le hdlow
 have hsticky := Sticky.quotient n hdpos
 have hqlow : 2 ^ 62 ≤ n / d := (Nat.le_div_iff_mul_le hdpos).2 (by omega)
 have hqhigh : n / d < 2 ^ 64 := (Nat.div_lt_iff_lt_mul hdpos).2 (by omega)
 have hle : n / d ≤ n / d ||| (decide (n % d ≠ 0)).toNat := left_le_or
 have hlt : n / d ||| (decide (n % d ≠ 0)).toNat < 2 ^ 64 :=
  or_lt_two_pow hqhigh ((Bool.toNat_le _).trans_lt (by norm_num))
 refine ⟨by dsimp only; omega, by dsimp only; omega, (n : ℝ) / d, hsticky, .inr (by dsimp only; omega), ?_⟩
 congr 1
 rw [← hn, ← hd, magnitude, magnitude]
 have hexp : a.exponent - b.exponent + (Nat.log2 a.significand : ℤ) - (Nat.log2 b.significand : ℤ) - 63 =
   a.exponent + ((63 - Nat.log2 b.significand : ℕ) : ℤ) - (b.exponent + ((126 - Nat.log2 a.significand : ℕ) : ℤ)) := by omega
 rw [hexp, zpow_sub₀ (by norm_num), zpow_add₀ (by norm_num), zpow_add₀ (by norm_num), zpow_natCast, zpow_natCast]
 push_cast
 field_simp

/-! ## Roots -/

/-- The finite value that a square root packs. -/
def root (value : Finite) : Finite :=
 let value := if value.exponent % 2 ≠ 0 then
     { value with significand := u128 (value.significand <<< 1), exponent := value.exponent - 1 } else value
 let top := 127 - leadingZeros value.significand
 let shift := (126 - top) / 2 * 2
 let radicand := u128 (value.significand <<< shift)
 let root := Nat.sqrt radicand
 ⟨false, root ||| (decide (u128 (root * root) ≠ radicand)).toNat, value.exponent.tdiv 2 - (shift / 2 : Nat)⟩

theorem root_even (value : Finite) (hlt : value.significand < 2 ^ 53) :
  ∃ m : ℕ, ∃ e : ℤ, (if value.exponent % 2 ≠ 0 then
    { value with significand := u128 (value.significand <<< 1), exponent := value.exponent - 1 } else value) =
      ⟨value.negative, m, 2 * e⟩ ∧ m < 2 ^ 54 ∧ (0 < value.significand → 0 < m) ∧ value.magnitude = m * 2 ^ (2 * e) := by
 split
 · rename_i hodd
   have hu128 : u128 (value.significand <<< 1) = value.significand * 2 := by
    rw [shiftLeft_eq, pow_one, u128, mod_eq_of_lt (by omega)]
   refine ⟨value.significand * 2, value.exponent / 2, ?_, by omega, by omega, ?_⟩
   · grind
   · have hexp : value.exponent = 2 * (value.exponent / 2) + 1 := by omega
     rw [magnitude]
     conv_lhs => rw [hexp, zpow_add₀ (by norm_num), zpow_one]
     push_cast
     ring
 · rename_i heven
   have hexp : 2 * (value.exponent / 2) = value.exponent := by omega
   refine ⟨value.significand, value.exponent / 2, ?_, by omega, id, ?_⟩
   · rw [hexp]
   · rw [hexp, magnitude]

theorem root_stands {value : Finite} (hpos : 0 < value.significand) (hlt : value.significand < 2 ^ 53) :
  Stands (root value) (Real.sqrt value.magnitude) := by
 obtain ⟨m, e, heq, hm, hmpos, hmagnitude⟩ := root_even value hlt
 have hmpos := hmpos hpos
 have hlog : Nat.log2 m < 54 := (log2_lt hmpos.ne').2 hm
 have hzeros : 127 - leadingZeros m = Nat.log2 m := by
  rw [leadingZeros, if_neg hmpos.ne']
  omega
 rw [root, heq]
 rw [hzeros]
 generalize hk : (126 - Nat.log2 m) / 2 = k
 have hbits := lt_log2_self (n := m)
 have hself := log2_self_le hmpos.ne'
 have hhigh : m * 2 ^ (k * 2) < 2 ^ 127 :=
  calc m * 2 ^ (k * 2) < 2 ^ (Nat.log2 m + 1) * 2 ^ (k * 2) := Nat.mul_lt_mul_of_pos_right hbits (Nat.two_pow_pos _)
   _ = 2 ^ (Nat.log2 m + 1 + k * 2) := (pow_add ..).symm
   _ ≤ 2 ^ 127 := Nat.pow_le_pow_right (by omega) (by omega)
 have hlow : 2 ^ 125 ≤ m * 2 ^ (k * 2) :=
  calc 2 ^ 125 ≤ 2 ^ (Nat.log2 m + k * 2) := Nat.pow_le_pow_right (by omega) (by omega)
   _ = 2 ^ Nat.log2 m * 2 ^ (k * 2) := pow_add ..
   _ ≤ m * 2 ^ (k * 2) := Nat.mul_le_mul_right _ hself
 have hradicand : u128 (m <<< (k * 2)) = m * 2 ^ (k * 2) := by
  rw [shiftLeft_eq, u128, mod_eq_of_lt (hhigh.trans (by norm_num))]
 rw [hradicand, Nat.mul_div_cancel _ (by omega), Int.mul_tdiv_cancel_left _ (by norm_num)]
 generalize hn : m * 2 ^ (k * 2) = n at hhigh hlow ⊢
 have hsqrt := sqrt_le n
 have hsucc := lt_succ_sqrt n
 have hrlow : 2 ^ 62 ≤ Nat.sqrt n := le_sqrt.2 (by omega)
 have hrhigh : Nat.sqrt n < 2 ^ 64 := sqrt_lt.2 (by omega)
 have hu128 : u128 (Nat.sqrt n * Nat.sqrt n) = Nat.sqrt n * Nat.sqrt n := mod_eq_of_lt (by omega)
 rw [hu128]
 have hsticky : Sticky (Nat.sqrt n ||| (decide (Nat.sqrt n * Nat.sqrt n ≠ n)).toNat) (Real.sqrt n) := by
  apply Sticky.jam
  · apply Real.le_sqrt_of_sq_le
    rw [sq]
    exact_mod_cast hsqrt
  · rw [Real.sqrt_lt' (by positivity), sq]
    exact_mod_cast hsucc
  · rw [decide_eq_true_iff, ne_eq, ne_eq, not_iff_not, Real.sqrt_eq_iff_mul_self_eq (cast_nonneg _) (cast_nonneg _)]
    rw [eq_comm]
    norm_cast
 have hle : Nat.sqrt n ≤ Nat.sqrt n ||| (decide (Nat.sqrt n * Nat.sqrt n ≠ n)).toNat := left_le_or
 have hlt' : Nat.sqrt n ||| (decide (Nat.sqrt n * Nat.sqrt n ≠ n)).toNat < 2 ^ 64 :=
  or_lt_two_pow hrhigh ((Bool.toNat_le _).trans_lt (by norm_num))
 refine ⟨by dsimp only; omega, by dsimp only; omega, Real.sqrt n, hsticky, .inr (by dsimp only; omega), ?_⟩
 change Real.sqrt value.magnitude = Real.sqrt n * 2 ^ (e - (k : ℤ))
 have hscale : value.magnitude = n * (2 ^ (e - (k : ℤ))) ^ 2 := by
  rw [hmagnitude, ← hn, ← zpow_natCast, ← zpow_mul]
  push_cast
  rw [mul_assoc, ← zpow_natCast, ← zpow_add₀ (by norm_num)]
  congr 2
  push_cast
  ring
 rw [hscale, Real.sqrt_mul (cast_nonneg _), Real.sqrt_sq (two_zpow_pos _).le]

end Tir.Adt
