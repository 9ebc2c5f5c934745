import Tir.Adt.WordSound

/-!
# The order of integers

Two integers of at most 64 bits are compared as 128-bit numbers, wider ones after both are widened past their widths. Both
ways compare the values (`numericCmp_eq`), so the order, which goes on to the widths and the flags, is total and agrees with
equality (`cmp_total`).
-/

open Int BitVec List

namespace Tir.Adt.Limbs.APInt

/-- The word as an `i64`, filled up past the width where negative. -/
def toI64 (x : APInt) : Word :=
 if x.signed && x.isNegative then x.value ||| if 64 ≤ x.width then 0#64 else allOnes 64 <<< x.width else x.value

def numericKey (x : APInt) : Int :=
 if x.signed then x.toI64.toInt else x.value.toNat

def widen (x : APInt) (width : Nat) : Option APInt :=
 if x.isNegative then x.signExtend width else x.zeroExtend width

/-- The numeric order of two values of any widths: a signed value's high bit is its sign. -/
def numericCmp (x y : APInt) : Option Ordering :=
 if x.width ≤ 64 ∧ y.width ≤ 64 then some (compare x.numericKey y.numericKey)
 else do
  let width := max x.width y.width + 1
  let x ← x.widen width
  let y ← y.widen width
  scmp x y

/-- Numeric value, then width and signedness. -/
def cmp (x y : APInt) : Option Ordering := do
 let numeric ← numericCmp x y
 some ((numeric.then (compare x.width y.width)).then (compare x.signed y.signed))

section Single

variable {x : APInt}

variable (hx : Valid x)

include hx

theorem s_eq_bmod : x.s = (x.u : Int).bmod (2 ^ x.width) := by
 have hclear : (x.u : Int) < 2 ^ x.width := by exact_mod_cast hx.clear
 have hhalf : 2 ^ x.width = 2 * 2 ^ (x.width - 1) := by rw [← Nat.pow_succ', Nat.succ_eq_add_one, Nat.sub_add_cancel hx.width_pos]
 have hcast : ((2 ^ x.width : Nat) : Int) = 2 ^ x.width := by push_cast; rfl
 rw [s_eq, hx.topBit_eq, bmod_def, hcast, emod_eq_of_lt (by positivity) hclear]
 simp only [decide_eq_true_eq]
 split <;> split <;> omega

/-- The two's-complement value of a widened integer is the number it was widened from. -/
theorem s_of_mod {n : Int} (hu : (x.u : Int) = n % 2 ^ x.width) (hle : -2 ^ (x.width - 1) ≤ n)
  (hlt : n < 2 ^ (x.width - 1)) : x.s = n := by
 have hhalf : (2 : Int) ^ x.width = 2 * 2 ^ (x.width - 1) := by rw [← pow_succ', Nat.sub_add_cancel hx.width_pos]
 have hcast : ((2 ^ x.width : Nat) : Int) = 2 ^ x.width := by push_cast; rfl
 rw [s_eq_bmod hx, hu, ← hcast, emod_bmod]
 apply bmod_eq_of_le <;> omega

theorem reading_bounds : -2 ^ (x.width - 1) ≤ x.reading ∧ x.reading < 2 ^ x.width ∧
  (x.signed = true → x.reading < 2 ^ (x.width - 1)) := by
 have hclear : (x.u : Int) < 2 ^ x.width := by exact_mod_cast hx.clear
 have hhalf : (2 : Int) ^ x.width = 2 * 2 ^ (x.width - 1) := by rw [← pow_succ', Nat.sub_add_cancel hx.width_pos]
 have hcast : ((2 ^ (x.width - 1) : Nat) : Int) = 2 ^ (x.width - 1) := by push_cast; rfl
 rw [reading, s_eq, hx.topBit_eq]
 cases x.signed
 · rw [if_neg Bool.false_ne_true]
   exact ⟨by omega, by omega, by rintro ⟨⟩⟩
 · simp only [if_true, decide_eq_true_eq]
   split <;> omega

theorem numericKey_eq (hnarrow : x.width ≤ 64) : x.numericKey = x.reading := by
 have hu := hx.u_narrow (not_lt.2 hnarrow)
 cases hsigned : x.signed with
 | false => simp [numericKey, reading, hsigned, hu]
 | true =>
  -- the word is the low half of the 128-bit pattern
  have hlow : x.toI64 = x.sextU128.setWidth 64 := by
   rw [toI64, sextU128, hsigned, Bool.true_and]
   split
   · ext i hi
     split <;> simp
     omega
   · simp
  have hmod : (x.toI64.toNat : Int) = x.reading % 2 ^ 64 := by
   rw [hlow, toNat_setWidth, natCast_mod, sextU128_mod hx (not_lt.2 hnarrow)]
   exact emod_emod_of_dvd _ (pow_dvd_pow 2 (by decide))
  obtain ⟨hle, -, hlt⟩ := reading_bounds hx
  have hlt := hlt hsigned
  have hpow : (2 : Int) ^ (x.width - 1) ≤ 2 ^ 63 := pow_le_pow_right₀ (by decide) (by omega)
  rw [numericKey, if_pos hsigned, toInt_eq_toNat_bmod, hmod]
  have hcast : ((2 ^ 64 : Nat) : Int) = 2 ^ 64 := by norm_num
  rw [← hcast, emod_bmod]
  apply bmod_eq_of_le <;> norm_num <;> omega

theorem widen_spec {width : Nat} (h : x.width < width) :
  ∃ z, x.widen width = some z ∧ Valid z ∧ z.width = width ∧ z.s = x.reading := by
 obtain ⟨hle, hlt, -⟩ := reading_bounds hx
 have hyields : Yields (x.widen width) width x.reading := by
  rw [widen]
  split
  next => exact signExtend_yields hx h.le
  next hpositive =>
   have hreading := reading_eq x
   rw [if_neg hpositive] at hreading
   exact hreading ▸ zeroExtend_yields hx h.le
 obtain ⟨z, hz, hvalid, hwid, hu⟩ := hyields
 refine ⟨z, hz, hvalid, hwid, s_of_mod hvalid (hwid ▸ hu) ?_ ?_⟩
 · have hpow : (2 : Int) ^ (x.width - 1) ≤ 2 ^ (z.width - 1) := pow_le_pow_right₀ (by decide) (by omega)
   omega
 · have hpow : (2 : Int) ^ x.width ≤ 2 ^ (z.width - 1) := pow_le_pow_right₀ (by decide) (by omega)
   omega

end Single

section Pair

variable {x y : APInt}

variable (hx : Valid x) (hy : Valid y)

include hx hy

theorem numericCmp_eq : numericCmp x y = some (compare x.reading y.reading) := by
 rw [numericCmp]
 split
 next hnarrow => rw [numericKey_eq hx hnarrow.1, numericKey_eq hy hnarrow.2]
 next =>
  obtain ⟨z, hz, hvalid, hwid, hs⟩ := widen_spec hx (show x.width < max x.width y.width + 1 by omega)
  obtain ⟨z', hz', hvalid', hwid', hs'⟩ := widen_spec hy (show y.width < max x.width y.width + 1 by omega)
  have hscmp := scmp_eq hvalid hvalid' (hwid.trans hwid'.symm)
  simp [hz, hz', hscmp, hs, hs']

/-- The order is that of the value, the width and the flag. -/
theorem cmp_eq : cmp x y =
  some (compareLex (compareLex (compareOn reading) (compareOn width)) (compareOn signed) x y) := by
 rw [cmp, numericCmp_eq hx hy]
 rfl

theorem eq_of_value (hwid : x.width = y.width) (hsigned : x.signed = y.signed)
  (hreading : x.reading = y.reading) : x = y := by
 have hu : x.u = y.u := by
  have hx' := hx.reading_mod
  rw [hreading, hwid, hy.reading_mod] at hx'
  exact_mod_cast hx'.symm
 have hlen : x.limbs.length = y.limbs.length := by rw [hx.length_limbs, hy.length_limbs, hwid]
 have hlimbs : x.limbs = y.limbs := by
  apply ext_getElem hlen
  intro i hi hi'
  ext j hj
  have hx' := testBit_u x (64 * i + j)
  have hy' := testBit_u y (64 * i + j)
  have hdiv : (64 * i + j) / 64 = i := by omega
  have hmod : (64 * i + j) % 64 = j := by omega
  rw [hdiv, hmod, getD_eq_getElem?_getD, List.getElem?_eq_getElem (by assumption)] at hx' hy'
  rw [hu] at hx'
  exact hx'.symm.trans hy'
 obtain ⟨w, flag, value, high⟩ := x
 obtain ⟨w', flag', value', high'⟩ := y
 obtain rfl : w = w' := hwid
 obtain rfl : flag = flag' := hsigned
 obtain ⟨rfl, hrest⟩ := List.cons.inj hlimbs
 have hhigh := hx.high_length
 have hhigh' := hy.high_length
 cases high <;> cases high' <;> simp_all
 omega

end Pair

/-- The order is total, on values first, and agrees with equality. -/
theorem cmp_total (x y z : {x : APInt // Valid x}) : (∃ order, cmp x y = some order ∧ cmp y x = some order.swap) ∧
  (cmp x y ≠ some .gt → cmp y z ≠ some .gt → cmp x z ≠ some .gt) ∧
  (x.1.reading < y.1.reading → cmp x y = some .lt) ∧ (cmp x y = some .eq ↔ x = y) := by
 obtain ⟨x, hx⟩ := x
 obtain ⟨y, hy⟩ := y
 obtain ⟨z, hz⟩ := z
 rw [cmp_eq hx hy, cmp_eq hy hx, cmp_eq hy hz, cmp_eq hx hz]
 refine ⟨⟨_, rfl, congrArg some Std.OrientedCmp.eq_swap⟩, fun hxy hyz hxz => ?_, fun hlt => ?_, ?_⟩
 · have hle := Std.TransCmp.isLE_trans (Ordering.isLE_iff_ne_gt.2 fun h => hxy (congrArg some h))
    (Ordering.isLE_iff_ne_gt.2 fun h => hyz (congrArg some h))
   exact Ordering.isLE_iff_ne_gt.1 hle (Option.some.inj hxz)
 · have hcompare : compareOn reading x y = .lt := compare_lt_iff_lt.2 hlt
   simp [compareLex, hcompare]
 · simp only [Option.some.injEq, compareLex_eq_eq, compareOn, compare_eq_iff_eq, Subtype.mk.injEq]
   constructor
   · rintro ⟨⟨hreading, hwid⟩, hsigned⟩
     exact eq_of_value hx hy hwid hsigned hreading
   · rintro rfl
     exact ⟨⟨rfl, rfl⟩, rfl⟩

end Tir.Adt.Limbs.APInt
