import Tir.Sem.SelectionSound

/-!
# Conversions between integers and floats

An unsigned conversion through the signed one of 64 bits. Where the unsigned conversion of a float is poison
nothing is required; elsewhere the number fits the signed conversion as well.
-/

open List Option BitVec Bool Int

namespace Tir.Sem.Selection

open Tir.Adt Tir.Lang Tir.LowBits APInt Term

variable {rule : Rule} {widths : Widths} {port : ThetaPort} {symbols : Nat → Value}

/-! ## Integers to floats -/

/-- A zero extension to 64 bits is no negative number. -/
theorem toFloat_zext {w : Nat} {p : BitVec w} {hpos : 0 < w} {hpos' : 0 < 64} {s s' : Bool} (hlt : w < 64)
  (format : FloatWidth) : toFloat true ⟨64, hpos', s', p.setWidth 64⟩ format = toFloat false ⟨w, hpos, s, p⟩ format := by
 have hlow : p.toNat < 2 ^ 63 := p.isLt.trans_le (Nat.pow_le_pow_right (by decide) (by omega))
 have hnat : (p.setWidth 64).toNat = p.toNat := toNat_setWidth_of_le (le_of_lt hlt)
 have hmsb : (p.setWidth 64).msb = false := by
  rw [msb_eq_false_iff_two_mul_lt, hnat]
  omega
 have hint : (p.setWidth 64).toInt = p.toNat := by
  rw [toInt_eq_toNat_of_msb hmsb, hnat]
 have hsigned : ((⟨64, hpos', s', p.setWidth 64⟩ : APInt).withSigned true).toI64 = p.toNat := by
  simp only [withSigned, toI64, isNegative, hmsb, Bool.and_false, false_eq_true, if_false,
   setWidth_eq, hint]
 have hunsigned : ((⟨w, hpos, s, p⟩ : APInt).withSigned false).toU64 = p.toNat := by
  simp only [withSigned, toU64]
  omega
 have hbits : (BitVec.ofNat 64 p.toNat).toInt = p.toNat := by
  rw [BitVec.ofNat_toNat, hint]
 have hbits' : (BitVec.ofNat 64 p.toNat).toNat = p.toNat := by
  rw [BitVec.ofNat_toNat, hnat]
 simp only [toFloat, hsigned, hunsigned, ofInt_natCast, if_true, false_eq_true, if_false, Adt.evalFloat, fromInteger,
  hbits, hbits', natAbs_natCast, not_lt.2 (natCast_nonneg _), decide_false]

theorem eq_of_guard {e e' : WidthExpr} {n n' : Nat} (h : (Guard.eq e e').holds widths = true) (he : e.eval widths = some n)
  (he' : e'.eval widths = some n') : n = n' := by
 simpa [Guard.holds, he, he'] using h

/-- The conversion of an integer, by its sign. -/
def toFloatKind (signed : Bool) : SymKind :=
 if signed then .siToFP else .uiToFP

/-- The conversion of a bit vector to a format. -/
theorem builds_toFloat {w exponent mantissa : Nat} {p : BitVec w} {x y z : Node} {side : Side} {format : FloatWidth}
  (signed : Bool) (hx : Builds rule widths port symbols side x p) (hy : Counts rule widths port symbols side y exponent)
  (hz : Counts rule widths port symbols side z mantissa) (hformat : formatOf exponent mantissa = some format) :
  ∃ term hpos s, rule.realize widths side port (.ternary (toFloatKind signed) x y z) = some term ∧
   term.eval symbols = some (toFloat signed ⟨w, hpos, s, p⟩ format) := by
 obtain ⟨term, hterm, hpos, s, heval⟩ := hx
 obtain ⟨term', a, hterm', heval', rfl⟩ := hy
 obtain ⟨term'', b, hterm'', heval'', rfl⟩ := hz
 refine ⟨.ternary (toFloatKind signed) term term' term'', hpos, s, ?_, ?_⟩
 · simp [Rule.realize, hterm, hterm', hterm'']
 · have hval : nodeValue (toFloatKind signed) [.int ⟨w, hpos, s, p⟩, .int a, .int b] =
     (formatOf a.toU64 b.toU64).map (toFloat signed ⟨w, hpos, s, p⟩) := by
    cases signed <;> rfl
   simp [Term.eval, heval, heval', heval'', hval, hformat]

/-- An unsigned conversion is the signed one of the zero extension. -/
theorem conversion_sound {w exponent mantissa : Nat} {x y y' z z' : Node} {format : FloatWidth} (hlt : w < 64)
  (hlhs : rule.lhs = .ternary .uiToFP (.hole 0) y z) (hrhs : rule.rhs = .ternary .siToFP (zext x 64) y' z')
  (hroot : rule.rhs.usesRoot = false) (hformat : formatOf exponent mantissa = some format)
  (hleft : ∀ port symbols, Counts rule widths port symbols .lhs y exponent ∧ Counts rule widths port symbols .lhs z mantissa)
  (hright : ∀ port symbols, Counts rule widths port symbols .rhs y' exponent ∧
   Counts rule widths port symbols .rhs z' mantissa)
  (h : ∀ port symbols, rule.Typed widths symbols → ∃ p : BitVec w, Builds rule widths port symbols .lhs (.hole 0) p ∧
   Builds rule widths port symbols .rhs x p) : rule.Sound widths := by
 intro port symbols htyped
 obtain ⟨p, hp, hp'⟩ := h port symbols htyped
 have hzext : Builds rule widths port symbols .rhs (zext x 64) (p.setWidth 64) :=
  builds_extension rfl hp' rfl (le_of_lt hlt) (by decide)
 obtain ⟨left, hpos, s, hleftTerm, hleftValue⟩ := builds_toFloat false hp (hleft port symbols).1 (hleft port symbols).2 hformat
 obtain ⟨right, hpos', s', hrightTerm, hrightValue⟩ :=
  builds_toFloat true hzext (hright port symbols).1 (hright port symbols).2 hformat
 have hinstance : rule.proofInstance widths port = some (left, right) := by
  rw [Rule.proofInstance, hroot, hlhs, hrhs]
  change (rule.realize widths .lhs port (.ternary (toFloatKind false) _ _ _)).bind _ = _
  rw [hleftTerm, bind_some]
  change (rule.realize widths .rhs port (.ternary (toFloatKind true) _ _ _)).bind _ = _
  rw [hrightTerm, bind_some]
 rw [hinstance]
 dsimp only
 rw [hleftValue, hrightValue, @toFloat_zext w p hpos hpos' s s' hlt format]
 exact .inr ⟨_, _, rfl, rfl, rfl, rfl⟩

theorem uitofp32ViaSitofp_sound (hguard : (Guard.eq N 32).holds widths = true) : uitofp32ViaSitofp.Sound widths := by
 have hn : widths.value .narrow = 32 := eq_of_guard hguard eval_N rfl
 have hw : uitofp32ViaSitofp.registerWidth widths = 32 := by
  simp only [Rule.registerWidth, uitofp32ViaSitofp, intN, map_cons, map_nil, foldl_cons, foldl_nil,
   WidthBinding.value, hn, max_self]
  decide
 apply conversion_sound (w := 32) (by decide) rfl rfl rfl (rfl : formatOf 8 23 = some .w32)
 · intro port symbols
   exact ⟨counts_of_builds (builds_literal rfl hw (by decide)) (by decide) (by decide),
    counts_of_builds (builds_literal rfl hw (by decide)) (by decide) (by decide)⟩
 · intro port symbols
   exact ⟨counts_of_builds (builds_const rfl rfl (by decide : 0 < 4) (by decide)) (by decide) (by decide),
    counts_of_builds (builds_const rfl rfl (by decide : 0 < 5) (by decide)) (by decide) (by decide)⟩
 · intro port symbols htyped
   obtain ⟨p, hp⟩ : ∃ p : BitVec 32, ∀ side, Builds uitofp32ViaSitofp widths port symbols side (.hole 0) p :=
    capture_whole htyped rfl rfl hw hn
   exact ⟨p, hp .lhs, hp .rhs⟩

theorem uitofpViaSitofp_sound (hguard : (Guard.eq N 32).holds widths = true) : uitofpViaSitofp.Sound widths := by
 have hn : widths.value .narrow = 32 := eq_of_guard hguard eval_N rfl
 have hw : uitofpViaSitofp.registerWidth widths = 64 := by
  simp only [Rule.registerWidth, uitofpViaSitofp, intN, map_cons, map_nil, foldl_cons, foldl_nil,
   WidthBinding.value, hn]
  decide
 apply conversion_sound (w := 32) (by decide) rfl rfl rfl (rfl : formatOf 11 52 = some .w64)
 · intro port symbols
   exact ⟨counts_of_builds (builds_literal rfl hw (by decide)) (by decide) (by decide),
    counts_of_builds (builds_literal rfl hw (by decide)) (by decide) (by decide)⟩
 · intro port symbols
   exact ⟨counts_of_builds (builds_const rfl rfl (by decide : 0 < 4) (by decide)) (by decide) (by decide),
    counts_of_builds (builds_const rfl rfl (by decide : 0 < 6) (by decide)) (by decide) (by decide)⟩
 · intro port symbols htyped
   obtain ⟨p, hp, hp'⟩ : ∃ p : BitVec 64, Builds uitofpViaSitofp widths port symbols .rhs (.hole 0) p ∧
     Builds uitofpViaSitofp widths port symbols .lhs (.hole 0) (p.setWidth 32) :=
    capture htyped rfl rfl hw hn (by decide) (by decide) (by decide)
   have hhigh : Counts uitofpViaSitofp widths port symbols .rhs (const 6 31) 31 :=
    counts_of_builds (builds_const rfl rfl (by decide : 0 < 6) (by decide)) (by decide) (by decide)
   have hlow : Counts uitofpViaSitofp widths port symbols .rhs (const 1 0) 0 :=
    counts_of_builds (builds_const rfl rfl Nat.one_pos (by decide)) (by decide) (by decide)
   have hslice := builds_extract (n := 32) hp hhigh hlow (by decide) rfl (by decide)
   rw [Limbs.slice_eq_setWidth] at hslice
   exact ⟨_, hp', hslice⟩

/-! ## Floats to integers -/

theorem fits_signed {n : Int} (h : fitsInteger false 32 n = true) : fitsInteger true 64 n = true := by
 simp only [fitsInteger, false_eq_true, if_false, if_true, and_eq_true, decide_eq_true_eq] at h ⊢
 omega

theorem width_pos (format : FloatWidth) : 0 < format.bitWidth := by
 cases format <;> decide

theorem eval_toInteger (signed : Bool) {format : FloatWidth} {bits width w : Nat} (hsymbol : symbols 0 = .float format bits)
  (hpos : 0 < w) (hfits : width < 2 ^ w) (hword : width < 2 ^ 64) :
  (Term.binary (if signed then .fpToSI else .fpToUI) (.symbol 0) (.con width w)).eval symbols =
   toInteger signed format bits width := by
 have hwid : (⟨w, hpos, false, BitVec.ofNat w width⟩ : APInt).toU64 = width := toU64_ofNat hfits hword
 have hval : ∀ a, nodeValue (if signed then .fpToSI else .fpToUI) [.float format bits, .int a] =
   toInteger signed format bits a.toU64 := by
  intro a
  cases signed <;> rfl
 rw [Term.eval, eval_con hpos, Term.eval, hsymbol]
 simp [hval, hwid]

/-- The conversion to 32 unsigned bits is the low half of the one to 64 signed bits, where it is defined. -/
theorem fptouiVia_sound (format : FloatWidth) : (fptouiVia format).Sound widths := by
 intro port symbols htyped
 obtain ⟨bits, hsymbol, -⟩ : ∃ bits, symbols 0 = .float format bits ∧ bits < 2 ^ format.bitWidth := by
  have hroot : (fptouiVia format).rhs.usesRoot = false := rfl
  rw [Rule.Typed, hroot] at htyped
  exact htyped 0 _ rfl
 have hinstance : (fptouiVia format).proofInstance widths port =
   some (.binary .fpToUI (.symbol 0) (.con 32 format.bitWidth),
    .ternary .extract (.binary .fpToSI (.symbol 0) (.con 64 7)) (.con 31 6) (.con 0 1)) := by
  cases format <;> rfl
 have hfits : 32 < 2 ^ format.bitWidth := by
  cases format <;> decide
 have hleft : (binary .fpToUI (.symbol 0) (.con 32 format.bitWidth)).eval symbols = toInteger false format bits 32 :=
  eval_toInteger false hsymbol (width_pos format) hfits (by decide)
 have hright : (binary .fpToSI (.symbol 0) (.con 64 7)).eval symbols = toInteger true format bits 64 :=
  eval_toInteger true hsymbol (by decide : 0 < 7) (by decide : 64 < 2 ^ 7) (by decide)
 rw [hinstance]
 dsimp only
 rw [hleft]
 simp only [toInteger] at hright ⊢
 cases hdecode : (Format.new format).decode bits with
 | infinity negative => exact .inl rfl
 | nan payload signaling => exact .inl rfl
 | finite value =>
  rw [hdecode] at hright
  dsimp only at hright ⊢
  by_cases hfit : fitsInteger false 32 (truncate value) = true
  · -- the number fits both conversions, and its low half is the number at 32 bits
    rw [if_pos (fits_signed hfit)] at hright
    rw [if_pos hfit]
    have hmeans : Means ((binary .fpToSI (.symbol 0) (.con 64 7)).eval symbols) (BitVec.ofInt 64 (truncate value)) :=
     ⟨by decide, true, hright⟩
    have hslice : Means (eval symbols _) ((BitVec.ofInt 64 (truncate value)).extractLsb' 0 32) :=
     means_extract (n := 32) hmeans (eval_con (n := 31) (by decide : 0 < 6))
     (eval_con (n := 0) (by decide : 0 < 1))
     (by decide) rfl (by decide)
    rw [Limbs.slice_eq_setWidth, setWidth_ofInt (by decide)] at hslice
    exact refines_of_means ⟨by decide, false, rfl⟩ hslice
  · rw [if_neg hfit]
    exact .inl rfl

theorem fptoui32ViaFptosi_sound : fptoui32ViaFptosi.Sound widths :=
 fptouiVia_sound .w32

theorem fptouiViaFptosi_sound : fptouiViaFptosi.Sound widths :=
 fptouiVia_sound .w64

end Tir.Sem.Selection
