import Tir.Basic.Limbs
import Tir.Sem.Denote
import Tir.Sem.Legalize

/-!
# Limb legalization is sound

At every native width, every wide width and every captures of their declared widths, the two sides of each
limb rule denote one bit vector (`legalize_sound`), wherever an extension on the left is to no fewer bits than
it reads.
-/

open List BitVec Nat

namespace Tir.Sem.Legalize

open Tir.Adt Tir.Lang Tir.Limbs

variable {widths : Widths} {captures : Nat → APInt}

/-! ## Widths -/

variable {e e' : WidthExpr} {v v' : Nat} {rule : Axiom}

section

variable (h : e.eval widths = some v) (h' : e'.eval widths = some v')

include h h'

theorem eval_sub (hle : v' ≤ v) :
  (e - e').eval widths = some (v - v') := by
 have hunfold : (e - e').eval widths = (do
  let x ← e.eval widths
  let y ← e'.eval widths
  if y ≤ x then some (x - y) else none) := rfl
 grind

theorem eval_add
  (hlt : v + v' < 2 ^ 64) : (e + e').eval widths = some (v + v') := by
 have hunfold : (e + e').eval widths = (do
  let x ← e.eval widths
  let y ← e'.eval widths
  if x + y < 2 ^ 64 then some (x + y) else none) := rfl
 grind

end

theorem eval_one : (1 : WidthExpr).eval widths = some 1 :=
 rfl

/-- A wide width as its high part and the native width. -/
structure Split (widths : Widths) (h n : Nat) : Prop where
 native : NATIVE.eval widths = some n
 w : W.eval widths = some (h + n)
 pos : 0 < h
 pos' : 0 < n
 lt : h + n < 2 ^ 63

theorem split_of_lt (hlt : widths.value .native < widths.value .w) :
  ∃ h n, Split widths h n ∧ widths.value .w = h + n ∧ widths.value .native = n := by
 have hsum : widths.value .w = (widths.value .w - widths.value .native) + widths.value .native := by omega
 refine ⟨_, _, ⟨rfl, congrArg some hsum, by omega, widths.pos .native, ?_⟩, hsum, rfl⟩
 rw [← hsum]
 exact widths.lt .w

theorem split_of_guard (hguard : (Guard.lt NATIVE W).holds widths = true) :
  ∃ h n, Split widths h n ∧ widths.value .w = h + n ∧ widths.value .native = n :=
 split_of_lt (guard_lt hguard rfl rfl)

/-- Two sides that denote one vector agree. -/
theorem agrees_of {w : Nat} {p q : BitVec w} (hl : Denotes (rule.lhs.eval widths captures) p)
  (hr : Denotes (rule.rhs.eval widths captures) q) (heq : p = q) (hroot : w = rule.rootWidth.value widths) :
  rule.Agrees widths captures := by
 obtain ⟨hpos, signed, heval⟩ := hl
 obtain ⟨hpos', signed', heval'⟩ := hr
 exact ⟨_, _, heval, heval', hroot, rfl, by rw [heq]⟩

theorem carries_number (h : e.eval widths = some v) (hlt : v < 2 ^ 64) : Carries ((number e).eval widths captures) v :=
 carries_register h hlt

theorem carries_zero : Carries ((number 0).eval widths captures) 0 :=
 carries_register rfl (by decide)

/-! ## Parts -/

section Parts

variable {h n : Nat} {t u : AxNode} {p q : BitVec (h + n)} (hs : Split widths h n)

include hs

theorem Split.lt_two : h + n < 2 ^ 64 := by
 have := hs.lt
 omega

theorem eval_high : (W - NATIVE).eval widths = some h := by
 have hsub := eval_sub hs.w hs.native (by omega)
 rwa [Nat.add_sub_cancel] at hsub

theorem denotes_highPart (hp : Denotes (t.eval widths captures) p) : Denotes ((highPart t).eval widths captures) (high p) := by
 have hlt := hs.lt
 have hpos := hs.pos
 exact denotes_extract hp (carries_number (eval_sub hs.w eval_one (by omega)) (by omega)) (carries_number hs.native (by omega))
  hpos (by omega) (by omega)

theorem denotes_lowPart (hp : Denotes (t.eval widths captures) p) : Denotes ((lowPart t).eval widths captures) (low p) := by
 have hlt := hs.lt
 have hpos := hs.pos'
 exact denotes_extract hp (carries_number (eval_sub hs.native eval_one (by omega)) (by omega)) carries_zero
  hpos (by omega) (by omega)

section

variable {v : Nat} {r : BitVec v} (hr : Denotes (t.eval widths captures) r)

include hr

/-- The low bits of a wide value, as many as the high part has. -/
theorem denotes_cut (hle : h ≤ v) :
  Denotes ((extract t (W - NATIVE - 1) 0).eval widths captures) (r.setWidth h) := by
 have hlt := hs.lt
 have hpos := hs.pos
 have hcut := denotes_extract hr (carries_number (eval_sub (eval_high hs) eval_one (by omega)) (by omega)) carries_zero
  hpos (by omega) (by omega)
 rwa [slice_eq_setWidth] at hcut

/-- A value cut or widened to the width of the high part, by way of the wide width. -/
theorem denotes_detour (hle : v ≤ h + n) :
  Denotes ((extract (zext t W) (W - NATIVE - 1) 0).eval widths captures) (r.setWidth h) := by
 have hcut := denotes_cut hs (denotes_zext hr (carries_number hs.w hs.lt_two) hle) (by omega)
 rwa [setWidth_setWidth_of_le _ (by omega)] at hcut

end

/-- A truth value as a carry into the high part. -/
theorem denotes_carry {c : Bool} (hc : Denotes (t.eval widths captures) (BitVec.ofBool c)) :
  Denotes ((zext t (W - NATIVE)).eval widths captures) ((BitVec.ofBool c).setWidth h) := by
 have hlt := hs.lt
 have hpos := hs.pos
 exact denotes_zext hc (carries_number (eval_high hs) (by omega)) (by omega)

end Parts

/-! ## Arithmetic -/

section Rules

variable {h n : Nat} (hs : Split widths h n)

variable {p q : BitVec (h + n)} (hp : Denotes (a.eval widths captures) p) (hq : Denotes (b.eval widths captures) q)
 (hroot : h + n = widths.value .w)

include hs hp hroot

theorem notLimbs_agrees : notLimbs.Agrees widths captures :=
 agrees_of (denotes_not hp)
  (denotes_concat (denotes_not (denotes_highPart hs hp)) (denotes_not (denotes_lowPart hs hp))) (not_limbs p) hroot

theorem negLimbs_agrees : negLimbs.Agrees widths captures := by
 have hzero : Denotes ((const NATIVE 0).eval widths captures) (0 : BitVec n) := denotes_const rfl hs.native hs.pos'
 refine agrees_of (denotes_neg hp) ?_ (neg_limbs p) hroot
 apply denotes_concat _ (denotes_neg (denotes_lowPart hs hp))
 exact denotes_sub (denotes_neg (denotes_highPart hs hp)) (denotes_carry hs (denotes_ne (denotes_lowPart hs hp) hzero))

include hq

theorem addLimbs_agrees : addLimbs.Agrees widths captures := by
 have hlow := denotes_add (denotes_lowPart hs hp) (denotes_lowPart hs hq)
 refine agrees_of (denotes_add hp hq) ?_ (add_limbs p q) hroot
 apply denotes_concat _ hlow
 apply denotes_add (denotes_add (denotes_highPart hs hp) (denotes_highPart hs hq))
 exact denotes_carry hs (denotes_ult hlow (denotes_lowPart hs hp))

theorem subLimbs_agrees : subLimbs.Agrees widths captures := by
 refine agrees_of (denotes_sub hp hq) ?_ (sub_limbs p q) hroot
 apply denotes_concat _ (denotes_sub (denotes_lowPart hs hp) (denotes_lowPart hs hq))
 apply denotes_sub (denotes_sub (denotes_highPart hs hp) (denotes_highPart hs hq))
 exact denotes_carry hs (denotes_ult (denotes_lowPart hs hp) (denotes_lowPart hs hq))

theorem mulLimbs_agrees : mulLimbs.Agrees widths captures := by
 have hlt := hs.lt
 have hpos' := hs.pos'
 have hdouble : (NATIVE + NATIVE).eval widths = some (n + n) := eval_add hs.native hs.native (by omega)
 have hwide : Carries ((number (NATIVE + NATIVE)).eval widths captures) (n + n) := carries_number hdouble (by omega)
 have hproduct : Denotes (lowProduct.eval widths captures) (product (low p) (low q)) :=
  denotes_mul (denotes_zext (denotes_lowPart hs hp) hwide (by omega)) (denotes_zext (denotes_lowPart hs hq) hwide (by omega))
 have hupper := denotes_extract hproduct (carries_number (eval_sub hdouble eval_one (by omega)) (by omega))
  (carries_number hs.native (by omega)) hpos' (by omega) (by omega)
 have hlower := denotes_extract hproduct (carries_number (eval_sub hs.native eval_one (by omega)) (by omega)) carries_zero
  hpos' (by omega) (by omega)
 refine agrees_of (denotes_mul hp hq) ?_ (mul_limbs p q) hroot
 apply denotes_concat _ hlower
 apply denotes_add
 · apply denotes_add (denotes_detour hs hupper (by omega))
   exact denotes_mul (denotes_detour hs (denotes_lowPart hs hp) (by omega)) (denotes_highPart hs hq)
 · exact denotes_mul (denotes_highPart hs hp) (denotes_cut hs hq (by omega))

theorem andLimbs_agrees : andLimbs.Agrees widths captures :=
 agrees_of (denotes_and hp hq)
  (denotes_concat (denotes_and (denotes_highPart hs hp) (denotes_highPart hs hq))
   (denotes_and (denotes_lowPart hs hp) (denotes_lowPart hs hq))) (and_limbs p q) hroot

theorem orLimbs_agrees : orLimbs.Agrees widths captures :=
 agrees_of (denotes_or hp hq)
  (denotes_concat (denotes_or (denotes_highPart hs hp) (denotes_highPart hs hq))
   (denotes_or (denotes_lowPart hs hp) (denotes_lowPart hs hq))) (or_limbs p q) hroot

theorem xorLimbs_agrees : xorLimbs.Agrees widths captures :=
 agrees_of (denotes_xor hp hq)
  (denotes_concat (denotes_xor (denotes_highPart hs hp) (denotes_highPart hs hq))
   (denotes_xor (denotes_lowPart hs hp) (denotes_lowPart hs hq))) (xor_limbs p q) hroot

end Rules

/-! ## Comparisons -/

section Comparisons

variable {h n : Nat} (hs : Split widths h n) {p q : BitVec (h + n)} (hp : Denotes (a.eval widths captures) p)
 (hq : Denotes (b.eval widths captures) q)

include hs hp hq

theorem eqLimbs_agrees : eqLimbs.Agrees widths captures := by
 refine agrees_of (denotes_eq hp hq) (denotes_and (denotes_eq (denotes_highPart hs hp) (denotes_highPart hs hq))
  (denotes_eq (denotes_lowPart hs hp) (denotes_lowPart hs hq))) ?_ rfl
 rw [eq_limbs, ofBool_and_ofBool]

theorem neLimbs_agrees : neLimbs.Agrees widths captures := by
 refine agrees_of (denotes_ne hp hq) (denotes_or (denotes_ne (denotes_highPart hs hp) (denotes_highPart hs hq))
  (denotes_ne (denotes_lowPart hs hp) (denotes_lowPart hs hq))) ?_ rfl
 rw [bne, eq_limbs, Bool.not_and, ofBool_or_ofBool]
 rfl

/-- A comparison by its parts. -/
theorem compareLimbs_agrees {kind above below : SymKind} {whole upper lower : Bool}
  (hwhole : Denotes ((AxNode.binary kind a b).eval widths captures) (BitVec.ofBool whole))
  (hupper : Denotes ((AxNode.binary above (highPart a) (highPart b)).eval widths captures) (BitVec.ofBool upper))
  (hlower : Denotes ((AxNode.binary below (lowPart a) (lowPart b)).eval widths captures) (BitVec.ofBool lower))
  (heq : whole = (upper || (high p == high q && lower))) : (compareLimbs kind above below).Agrees widths captures := by
 refine agrees_of hwhole (denotes_or hupper
  (denotes_and (denotes_eq (denotes_highPart hs hp) (denotes_highPart hs hq)) hlower)) ?_ rfl
 rw [heq, ofBool_and_ofBool, ofBool_or_ofBool]

theorem ultLimbs_agrees : ultLimbs.Agrees widths captures :=
 compareLimbs_agrees hs hp hq (denotes_ult hp hq) (denotes_ult (denotes_highPart hs hp) (denotes_highPart hs hq))
  (denotes_ult (denotes_lowPart hs hp) (denotes_lowPart hs hq)) ult_limbs

theorem uleLimbs_agrees : uleLimbs.Agrees widths captures :=
 compareLimbs_agrees hs hp hq (denotes_ule hp hq) (denotes_ult (denotes_highPart hs hp) (denotes_highPart hs hq))
  (denotes_ule (denotes_lowPart hs hp) (denotes_lowPart hs hq)) ule_limbs

theorem ltLimbs_agrees : ltLimbs.Agrees widths captures :=
 compareLimbs_agrees hs hp hq (denotes_lt hp hq) (denotes_lt (denotes_highPart hs hp) (denotes_highPart hs hq))
  (denotes_ult (denotes_lowPart hs hp) (denotes_lowPart hs hq)) (slt_limbs hs.pos)

theorem leLimbs_agrees : leLimbs.Agrees widths captures :=
 compareLimbs_agrees hs hp hq (denotes_le hp hq) (denotes_lt (denotes_highPart hs hp) (denotes_highPart hs hq))
  (denotes_ule (denotes_lowPart hs hp) (denotes_lowPart hs hq)) (sle_limbs hs.pos)

theorem ugtLimbs_agrees : ugtLimbs.Agrees widths captures :=
 compareLimbs_agrees hs hp hq (denotes_ugt hp hq) (denotes_ugt (denotes_highPart hs hp) (denotes_highPart hs hq))
  (denotes_ugt (denotes_lowPart hs hp) (denotes_lowPart hs hq)) (by rw [ult_limbs, BEq.comm (a := high q)])

theorem ugeLimbs_agrees : ugeLimbs.Agrees widths captures :=
 compareLimbs_agrees hs hp hq (denotes_uge hp hq) (denotes_ugt (denotes_highPart hs hp) (denotes_highPart hs hq))
  (denotes_uge (denotes_lowPart hs hp) (denotes_lowPart hs hq)) (by rw [ule_limbs, BEq.comm (a := high q)])

theorem gtLimbs_agrees : gtLimbs.Agrees widths captures :=
 compareLimbs_agrees hs hp hq (denotes_gt hp hq) (denotes_gt (denotes_highPart hs hp) (denotes_highPart hs hq))
  (denotes_ugt (denotes_lowPart hs hp) (denotes_lowPart hs hq)) (by rw [slt_limbs hs.pos, BEq.comm (a := high q)])

theorem geLimbs_agrees : geLimbs.Agrees widths captures :=
 compareLimbs_agrees hs hp hq (denotes_ge hp hq) (denotes_gt (denotes_highPart hs hp) (denotes_highPart hs hq))
  (denotes_uge (denotes_lowPart hs hp) (denotes_lowPart hs hq)) (by rw [sle_limbs hs.pos, BEq.comm (a := high q)])

end Comparisons

/-! ## Shifts -/

section Shifts

variable {h n : Nat} (hs : Split widths h n)

include hs

theorem denotes_wide_const {e : WidthExpr} {v : Nat} (he : e.eval widths = some v) :
  Denotes ((const W e).eval widths captures) (BitVec.ofNat (h + n) v) :=
 denotes_const he hs.w (by have := hs.pos; omega)

omit hs in
theorem toNat_wide {v : Nat} (hle : v ≤ h + n) : (BitVec.ofNat (h + n) v).toNat = v :=
 (toNat_ofNat ..).trans (mod_eq_of_lt (hle.trans_lt Nat.lt_two_pow_self))

section

variable {amount : AxNode} {q : BitVec (h + n)} (hq : Denotes (amount.eval widths captures) q)

include hq

/-- An amount for the high part is cut to its width. -/
theorem denotes_clamp :
  ∃ r : BitVec h, Denotes ((clamp amount).eval widths captures) r ∧ r.toNat = min q.toNat h := by
 have hwide : Denotes (AxNode.eval widths captures _) _ := denotes_wide_const hs (eval_high hs)
 refine ⟨_, denotes_ite_ofBool (denotes_ult hq hwide) (denotes_cut hs hq (by omega)) (denotes_cut hs hwide (by omega)), ?_⟩
 rw [BitVec.ult, toNat_wide (by omega)]
 have hlt : h < 2 ^ h := Nat.lt_two_pow_self
 split
 · rename_i hless
   have hless := of_decide_eq_true hless
   rw [toNat_setWidth, mod_eq_of_lt (by omega), min_eq_left (by omega)]
 simp_all

/-- Whether an amount stays within the low part. -/
theorem denotes_within :
  Denotes ((ult amount (const W NATIVE)).eval widths captures) (BitVec.ofBool (decide (q.toNat < n))) := by
 have hwithin := denotes_ult hq (denotes_wide_const hs hs.native)
 rwa [BitVec.ult, toNat_wide (by omega)] at hwithin

/-- An amount past the low part, as one for the high part. -/
theorem denotes_past : ∃ r : BitVec h, Denotes ((clamp (sub amount (const W NATIVE))).eval widths captures) r ∧
   (n ≤ q.toNat → r.toNat = min (q.toNat - n) h) := by
 obtain ⟨r, hr, heq⟩ := denotes_clamp hs (denotes_sub hq (denotes_wide_const hs hs.native))
 refine ⟨r, hr, fun hle => ?_⟩
 have hnative := toNat_wide (h := h) (n := n) (v := n) (by omega)
 rw [heq, toNat_sub_of_le (by rw [le_def, hnative]; exact hle), hnative]

end

omit hs in
theorem toNat_low_eq {q : BitVec (h + n)} (hlt : q.toNat < n) : (low q).toNat = q.toNat := by
 have hself : n < 2 ^ n := Nat.lt_two_pow_self
 rw [low, slice_eq_setWidth, toNat_setWidth, mod_eq_of_lt (by omega)]

/-- What is left of the low part past an amount within it. -/
theorem denotes_rest {amount : AxNode} {q : BitVec (h + n)} (hq : Denotes (amount.eval widths captures) q) :
  ∃ r : BitVec n, Denotes ((sub (const NATIVE NATIVE) (lowPart amount)).eval widths captures) r ∧
   (q.toNat < n → r.toNat = n - q.toNat) := by
 refine ⟨_, denotes_sub (denotes_const hs.native hs.native hs.pos') (denotes_lowPart hs hq), fun hlt => ?_⟩
 have hself : n < 2 ^ n := Nat.lt_two_pow_self
 have hnative : (BitVec.ofNat n n).toNat = n := by rw [toNat_ofNat, mod_eq_of_lt hself]
 have hlow := toNat_low_eq hlt
 rw [toNat_sub_of_le (by rw [le_def, hnative, hlow]; omega), hnative, hlow]

omit hs in
theorem shl_min (v : BitVec h) (amount : Nat) : v <<< min amount h = v <<< amount := by
 rcases le_total amount h with hle | hle
 · rw [min_eq_left hle]
 · rw [min_eq_right hle, shiftLeft_eq_zero le_rfl, shiftLeft_eq_zero hle]

omit hs in
theorem lshr_min (v : BitVec h) (amount : Nat) : v >>> min amount h = v >>> amount := by
 rcases le_total amount h with hle | hle
 · rw [min_eq_left hle]
 · rw [min_eq_right hle, ushiftRight_eq_zero le_rfl, ushiftRight_eq_zero hle]

section

variable {t : AxNode} {v : BitVec h} (hv : Denotes (t.eval widths captures) v)

include hv

theorem denotes_low_zext :
  Denotes ((extract (zext t W) (NATIVE - 1) 0).eval widths captures) (v.setWidth n) := by
 have hlt := hs.lt_two
 have hpos := hs.pos'
 have hslice := denotes_extract (denotes_zext hv (carries_number hs.w hlt) (by omega))
  (carries_number (eval_sub hs.native eval_one (by omega)) (by omega)) carries_zero hpos (by omega) (by omega)
 rwa [slice_setWidth _ (by omega)] at hslice

theorem denotes_low_sext :
  Denotes ((extract (sext t W) (NATIVE - 1) 0).eval widths captures) (v.signExtend n) := by
 have hlt := hs.lt_two
 have hpos := hs.pos'
 have hslice := denotes_extract (denotes_sext hv (carries_number hs.w hlt) (by omega))
  (carries_number (eval_sub hs.native eval_one (by omega)) (by omega)) carries_zero hpos (by omega) (by omega)
 rwa [slice_signExtend _ (by omega)] at hslice

end

variable {p q : BitVec (h + n)} (hp : Denotes (x.eval widths captures) p) (hq : Denotes (s.eval widths captures) q)
 (hroot : h + n = widths.value .w)

include hp hq hroot

theorem shlLimbs_agrees : shlLimbs.Agrees widths captures := by
 have hlt := hs.lt_two
 obtain ⟨amount, hamount, heq⟩ := denotes_clamp hs hq
 obtain ⟨past, hpast, heq'⟩ := denotes_past hs hq
 obtain ⟨rest, hrest, heq''⟩ := denotes_rest hs hq
 have hwithin := denotes_within hs hq
 have hcross := denotes_detour hs (denotes_lshr (denotes_lowPart hs hp) hrest (by omega)) (by omega)
 have hzero : Denotes ((const NATIVE 0).eval widths captures) (0 : BitVec n) := denotes_const rfl hs.native hs.pos'
 refine agrees_of (denotes_shl hp hq hlt) (denotes_concat
  (denotes_ite_ofBool hwithin (denotes_or (denotes_shl (denotes_highPart hs hp) hamount (by omega)) hcross)
   (denotes_shl (denotes_cut hs hp (by omega)) hpast (by omega)))
  (denotes_ite_ofBool hwithin (denotes_shl (denotes_lowPart hs hp) (denotes_lowPart hs hq) (by omega)) hzero)) ?_ hroot
 rw [shl_limbs, heq, shl_min]
 by_cases hless : q.toNat < n
 · simp [hless, heq'' hless, toNat_low_eq hless]
 · simp [hless, heq' (not_lt.1 hless), shl_min]

theorem lshrLimbs_agrees : lshrLimbs.Agrees widths captures := by
 have hlt := hs.lt_two
 obtain ⟨amount, hamount, heq⟩ := denotes_clamp hs hq
 obtain ⟨past, hpast, heq'⟩ := denotes_past hs hq
 obtain ⟨rest, hrest, heq''⟩ := denotes_rest hs hq
 have hwithin := denotes_within hs hq
 refine agrees_of (denotes_lshr hp hq hlt) (denotes_concat (denotes_lshr (denotes_highPart hs hp) hamount (by omega))
  (denotes_ite_ofBool hwithin
   (denotes_or (denotes_lshr (denotes_lowPart hs hp) (denotes_lowPart hs hq) (by omega))
    (denotes_shl (denotes_low_zext hs (denotes_highPart hs hp)) hrest (by omega)))
   (denotes_low_zext hs (denotes_lshr (denotes_highPart hs hp) hpast (by omega))))) ?_ hroot
 rw [lshr_limbs, heq, lshr_min]
 by_cases hless : q.toNat < n
 · simp [hless, heq'' hless, toNat_low_eq hless]
 · simp [hless, heq' (not_lt.1 hless), lshr_min]

theorem ashrLimbs_agrees : ashrLimbs.Agrees widths captures := by
 have hlt := hs.lt_two
 obtain ⟨amount, hamount, heq⟩ := denotes_clamp hs hq
 obtain ⟨past, hpast, heq'⟩ := denotes_past hs hq
 obtain ⟨rest, hrest, heq''⟩ := denotes_rest hs hq
 have hwithin := denotes_within hs hq
 refine agrees_of (denotes_ashr hp hq hlt) (denotes_concat (denotes_ashr (denotes_highPart hs hp) hamount (by omega))
  (denotes_ite_ofBool hwithin
   (denotes_or (denotes_lshr (denotes_lowPart hs hp) (denotes_lowPart hs hq) (by omega))
    (denotes_shl (denotes_low_sext hs (denotes_highPart hs hp)) hrest (by omega)))
   (denotes_low_sext hs (denotes_ashr (denotes_highPart hs hp) hpast (by omega))))) ?_ hroot
 rw [ashr_limbs p hs.pos, heq, sshiftRight_min]
 by_cases hless : q.toNat < n
 · simp [hless, heq'' hless, toNat_low_eq hless]
 · simp [hless, heq' (not_lt.1 hless), sshiftRight_min]

end Shifts

/-! ## Choices and extensions -/

theorem ifLimbs_agrees {h n : Nat} (hs : Split widths h n) {c : BitVec 1} {p q : BitVec (h + n)}
  (hc : Denotes ((AxNode.hole 0).eval widths captures) c) (hp : Denotes ((AxNode.hole 1).eval widths captures) p)
  (hq : Denotes ((AxNode.hole 2).eval widths captures) q) (hroot : h + n = widths.value .w) :
  ifLimbs.Agrees widths captures := by
 refine agrees_of (denotes_ite hc hp hq)
  (denotes_concat (denotes_ite hc (denotes_highPart hs hp) (denotes_highPart hs hq))
   (denotes_ite hc (denotes_lowPart hs hp) (denotes_lowPart hs hq))) ?_ hroot
 split
 · exact (high_append_low q).symm
 · exact (high_append_low p).symm

theorem denotes_one_zero : Denotes ((const 1 0).eval widths captures) (0 : BitVec 1) :=
 denotes_const rfl rfl Nat.one_pos

theorem setWidth_zero_one {h : Nat} : (0 : BitVec 1).setWidth h = 0 := by
 apply eq_of_toNat_eq
 simp

/-- The whole of a value as a slice. -/
theorem denotes_all {t : AxNode} {m : Nat} {p : BitVec m} (hp : Denotes (t.eval widths captures) p)
  (he : e.eval widths = some m) (hlt : m < 2 ^ 63) : Denotes ((extract t (e - 1) 0).eval widths captures) p := by
 have hpos := hp.pos
 have hslice := denotes_extract hp (carries_number (eval_sub he eval_one (by omega)) (by omega)) carries_zero hpos
  (by omega) (by omega)
 rwa [extractLsb'_eq_self] at hslice

section Extensions

variable {h n m : Nat} (hs : Split widths h n) (hroot : h + n = widths.value .w)

include hs hroot

theorem zextLimbs_agrees {p : BitVec m} (hp : Denotes (x.eval widths captures) p) (hm : M.eval widths = some m)
  (hle : m ≤ n) : zextLimbs.Agrees widths captures := by
 have hlt := hs.lt
 have hpos := hs.pos
 refine agrees_of (denotes_zext hp (carries_number hs.w hs.lt_two) (by omega)) (denotes_concat
  (denotes_zext denotes_one_zero (carries_number (eval_high hs) (by omega)) (by omega))
  (denotes_zext (denotes_all hp hm (by omega)) (carries_number hs.native (by omega)) hle)) ?_ hroot
 rw [setWidth_zero_one, zext_limbs p hle]

theorem zextWideLimbs_agrees {p : BitVec (m + n)} (hp : Denotes (x.eval widths captures) p)
  (hm : M.eval widths = some (m + n)) (hpos : 0 < m) (hle : m ≤ h) : zextWideLimbs.Agrees widths captures := by
 have hlt := hs.lt
 have hpos' := hs.pos'
 have hhigh := denotes_extract hp (carries_number (eval_sub hm eval_one (by omega)) (by omega))
  (carries_number hs.native (by omega)) hpos (by omega) (by omega)
 have hlow := denotes_extract hp (carries_number (eval_sub hs.native eval_one (by omega)) (by omega)) carries_zero hpos'
  (by omega) (by omega)
 exact agrees_of (denotes_zext hp (carries_number hs.w hs.lt_two) (by omega))
  (denotes_concat (denotes_zext hhigh (carries_number (eval_high hs) (by omega)) hle) hlow) (zext_wide_limbs p) hroot

theorem sextLimbs_agrees {p : BitVec m} (hp : Denotes (x.eval widths captures) p) (hm : M.eval widths = some m)
  (hle : m ≤ n) : sextLimbs.Agrees widths captures := by
 have hlt := hs.lt
 have hpos := hs.pos
 have hpos' := hp.pos
 have hlast := eval_sub hm eval_one (by omega)
 have hsign := denotes_extract hp (carries_number hlast (by omega)) (carries_number hlast (by omega)) Nat.one_pos
  (by omega) (by omega)
 exact agrees_of (denotes_sext hp (carries_number hs.w hs.lt_two) (by omega)) (denotes_concat
  (denotes_sext hsign (carries_number (eval_high hs) (by omega)) (by omega))
  (denotes_sext (denotes_all hp hm (by omega)) (carries_number hs.native (by omega)) hle)) (sext_limbs p hle) hroot

theorem sextWideLimbs_agrees {p : BitVec (m + n)} (hp : Denotes (x.eval widths captures) p)
  (hm : M.eval widths = some (m + n)) (hpos : 0 < m) (hle : m ≤ h) : sextWideLimbs.Agrees widths captures := by
 have hlt := hs.lt
 have hpos' := hs.pos'
 have hhigh := denotes_extract hp (carries_number (eval_sub hm eval_one (by omega)) (by omega))
  (carries_number hs.native (by omega)) hpos (by omega) (by omega)
 have hlow := denotes_extract hp (carries_number (eval_sub hs.native eval_one (by omega)) (by omega)) carries_zero hpos'
  (by omega) (by omega)
 exact agrees_of (denotes_sext hp (carries_number hs.w hs.lt_two) (by omega))
  (denotes_concat (denotes_sext hhigh (carries_number (eval_high hs) (by omega)) hle) hlow) (sext_wide_limbs p hpos) hroot

end Extensions

/-! ## Slices -/

section Slices

variable {h l : Nat} {p : BitVec h} {q : BitVec l}

section

variable (hp : Denotes ((AxNode.hole 0).eval widths captures) p) (hq : Denotes ((AxNode.hole 1).eval widths captures) q)

include hp hq

theorem extractConcatLow_agrees (hl : widths.value .l = l) :
  extractConcatLow.Agrees widths captures := by
 have hlt := widths.lt .l
 have hslice := denotes_extract (denotes_concat hp hq)
  (carries_number (eval_sub (show L.eval widths = some _ from congrArg some hl) eval_one hq.pos) (by omega)) carries_zero hq.pos
  (by have := hq.pos; omega) (by omega)
 exact agrees_of hslice hq extractLsb'_append_eq_right hl.symm

theorem extractConcatHigh_agrees (hh : widths.value .h = h) (hl : widths.value .l = l) :
  extractConcatHigh.Agrees widths captures := by
 have hlt := widths.lt .h
 have hlt' := widths.lt .l
 have hpos := hp.pos
 have hsum : (H + L).eval widths = some (h + l) := eval_add (congrArg some hh) (congrArg some hl) (by omega)
 have hslice := denotes_extract (denotes_concat hp hq) (carries_number (eval_sub hsum eval_one (by omega)) (by omega))
  (carries_number (e := L) (congrArg some hl) (by omega)) hpos (by omega) (by omega)
 exact agrees_of hslice hp extractLsb'_append_eq_left hh.symm

end

section Extended

variable {m w k : Nat} {p : BitVec m} (hp : Denotes (x.eval widths captures) p)
 (hw : W.eval widths = some w) (hlt : w < 2 ^ 63) (hle : m ≤ w)

include hp hw hlt hle

section

variable {e : WidthExpr} (he : e.eval widths = some k) (hpos : 0 < k) (hin : k ≤ w)

include he hpos hin

/-- A slice of an extension, as many bits as are asked for. -/
theorem denotes_slice_zext :
  Denotes ((extract (zext x W) (e - 1) 0).eval widths captures) (p.setWidth k) := by
 have hslice := denotes_extract (denotes_zext hp (carries_number hw (by omega)) hle)
  (carries_number (eval_sub he eval_one hpos) (by omega)) carries_zero hpos (by omega) (by omega)
 rwa [slice_setWidth _ hin] at hslice

theorem denotes_slice_sext :
  Denotes ((extract (sext x W) (e - 1) 0).eval widths captures) (p.signExtend k) := by
 have hslice := denotes_extract (denotes_sext hp (carries_number hw (by omega)) hle)
  (carries_number (eval_sub he eval_one hpos) (by omega)) carries_zero hpos (by omega) (by omega)
 rwa [slice_signExtend _ hin] at hslice

end

variable (hk : K.eval widths = some k) (hroot : k = widths.value .k)

include hk hroot

theorem extractZextCut_agrees (hless : k < m) : extractZextCut.Agrees widths captures := by
 have hpos : 0 < k := hroot ▸ widths.pos .k
 have hslice := denotes_extract hp (carries_number (eval_sub hk eval_one hpos) (by omega)) carries_zero hpos
  (by omega) (by omega)
 refine agrees_of (denotes_slice_zext hp hw hlt hle hk hpos (by omega)) hslice ?_ hroot
 rw [slice_eq_setWidth]

theorem extractSextCut_agrees (hless : k < m) : extractSextCut.Agrees widths captures := by
 have hpos : 0 < k := hroot ▸ widths.pos .k
 have hslice := denotes_extract hp (carries_number (eval_sub hk eval_one hpos) (by omega)) carries_zero hpos
  (by omega) (by omega)
 refine agrees_of (denotes_slice_sext hp hw hlt hle hk hpos (by omega)) hslice ?_ hroot
 rw [slice_eq_setWidth, signExtend_eq_setWidth_of_le _ (by omega)]

variable (hm : M.eval widths = some m)

include hm

theorem extractZextWiden_agrees (hless : m < k) (hin : k ≤ w) : extractZextWiden.Agrees widths captures := by
 have hpos : 0 < k := by omega
 exact agrees_of (denotes_slice_zext hp hw hlt hle hk hpos hin)
  (denotes_zext (denotes_all hp hm (by omega)) (carries_number hk (by omega)) (by omega)) rfl hroot

theorem extractSextWiden_agrees (hless : m < k) (hin : k ≤ w) : extractSextWiden.Agrees widths captures := by
 have hpos : 0 < k := by omega
 exact agrees_of (denotes_slice_sext hp hw hlt hle hk hpos hin)
  (denotes_sext (denotes_all hp hm (by omega)) (carries_number hk (by omega)) (by omega)) rfl hroot

omit hk hroot

theorem extractZextSame_agrees (hroot : m = widths.value .m) : extractZextSame.Agrees widths captures :=
 agrees_of (denotes_slice_zext hp hw hlt hle hm hp.pos hle) hp (setWidth_eq p) hroot

theorem extractSextSame_agrees (hroot : m = widths.value .m) : extractSextSame.Agrees widths captures :=
 agrees_of (denotes_slice_sext hp hw hlt hle hm hp.pos hle) hp (signExtend_eq p) hroot

end Extended

end Slices

/-! ## Every rule -/

section

variable (hvars : rule.vars = [.name .w, .name .w]) (hrule : rule.guards = [.lt NATIVE W])

include hvars hrule

/-- The two captures of a rule over two wide values. -/
theorem wide_captures (htyped : rule.Typed widths captures) (hguards : rule.guards.all (Guard.holds widths) = true) :
  ∃ h n, Split widths h n ∧ h + n = widths.value .w ∧ ∃ p q : BitVec (h + n),
   Denotes (a.eval widths captures) p ∧ Denotes (b.eval widths captures) q := by
 rw [hrule, all_cons, Bool.and_eq_true] at hguards
 obtain ⟨h, n, hs, hw, -⟩ := split_of_guard hguards.1
 obtain ⟨p, hp⟩ := denotes_hole widths ((htyped 0 (.name .w) (by rw [hvars]; rfl)).trans hw)
 obtain ⟨q, hq⟩ := denotes_hole widths ((htyped 1 (.name .w) (by rw [hvars]; rfl)).trans hw)
 exact ⟨h, n, hs, hw.symm, p, q, hp, hq⟩

/-- The rules over two wide values. -/
theorem wide_agrees (hagrees : ∀ {h n : Nat}, Split widths h n → h + n = widths.value .w → ∀ {p q : BitVec (h + n)},
   Denotes (a.eval widths captures) p → Denotes (b.eval widths captures) q → rule.Agrees widths captures)
  (htyped : rule.Typed widths captures) (hguards : rule.guards.all (Guard.holds widths) = true) :
  rule.Agrees widths captures := by
 grind [wide_captures]

end

/-- The slices of an extension that is to no fewer bits than its operand has. -/
theorem extension_captures {extend : SymKind} (hextend : extend = .zext ∨ extend = .sext)
  (hvars : rule.vars = [.name .m]) (hlhs : rule.lhs = extract (.binary extend x (number W)) (e - 1) 0)
  (htyped : rule.Typed widths captures) (hwidens : rule.lhs.narrows rule.vars widths = false) :
  widths.value .m ≤ widths.value .w ∧ ∃ p : BitVec (widths.value .m), Denotes (x.eval widths captures) p := by
 obtain ⟨p, hp⟩ := denotes_hole widths (htyped 0 (.name .m) (by rw [hvars]; rfl))
 refine ⟨?_, p, hp⟩
 rw [hlhs, hvars] at hwidens
 have hwide : decide (widths.value .w < widths.value .m) = false := by
  rcases hextend with rfl | rfl
  · simp [extract, number, x, AxNode.narrows, W, WidthExpr.eval, WidthBinding.value] at hwidens
    exact hwidens
  · simp [extract, number, x, AxNode.narrows, W, WidthExpr.eval, WidthBinding.value] at hwidens
    exact hwidens
 exact not_lt.1 (of_decide_eq_false hwide)

/-- A value wider than the native width to be extended: its width over the native one. -/
theorem wide_operand (hvars : rule.vars = [.name .m]) (hrule : rule.guards = [.lt NATIVE M, .lt M W])
  (htyped : rule.Typed widths captures) (hguards : rule.guards.all (Guard.holds widths) = true) :
  ∃ h n m, Split widths h n ∧ h + n = widths.value .w ∧ M.eval widths = some (m + n) ∧ 0 < m ∧ m ≤ h ∧
   ∃ p : BitVec (m + n), Denotes (x.eval widths captures) p := by
 rw [hrule, all_cons, all_cons, Bool.and_eq_true, Bool.and_eq_true] at hguards
 have hless : widths.value .native < widths.value .m := guard_lt hguards.1 rfl rfl
 have hless' : widths.value .m < widths.value .w := guard_lt hguards.2.1 rfl rfl
 obtain ⟨h, n, hs, hw, hn⟩ := split_of_lt (hless.trans hless')
 have hsum : widths.value .m = (widths.value .m - n) + n := by omega
 obtain ⟨p, hp⟩ := denotes_hole widths ((htyped 0 (.name .m) (by rw [hvars]; rfl)).trans hsum)
 exact ⟨h, n, widths.value .m - n, hs, hw.symm, congrArg some hsum, by omega, by omega, p, hp⟩

/-- **The two sides of every limb rule denote one bit vector.** -/
theorem legalize_sound (rule : Axiom) (hrule : rule ∈ rules) (widths : Widths) (captures : Nat → APInt)
  (hguards : rule.guards.all (Guard.holds widths) = true) (htyped : rule.Typed widths captures)
  (hwidens : rule.lhs.narrows rule.vars widths = false) : rule.Agrees widths captures := by
 have hlt := widths.lt
 have hpos := widths.pos
 simp only [rules, List.mem_cons, List.not_mem_nil, or_false] at hrule
 rcases hrule with rfl | rfl | rfl | rfl | rfl | rfl | rfl | rfl | rfl | rfl | rfl | rfl | rfl | rfl | rfl | rfl | rfl |
  rfl | rfl | rfl | rfl | rfl | rfl | rfl | rfl | rfl | rfl | rfl | rfl | rfl | rfl | rfl | rfl | rfl
 · exact wide_agrees rfl rfl (fun hs hroot _ _ hp hq => addLimbs_agrees hs hp hq hroot) htyped hguards
 · exact wide_agrees rfl rfl (fun hs hroot _ _ hp hq => subLimbs_agrees hs hp hq hroot) htyped hguards
 · rw [negLimbs, List.all_cons, Bool.and_eq_true] at hguards
   obtain ⟨h, n, hs, hw, -⟩ := split_of_guard hguards.1
   obtain ⟨p, hp⟩ := denotes_hole widths ((htyped 0 (.name .w) rfl).trans hw)
   exact negLimbs_agrees hs hp hw.symm
 · exact wide_agrees rfl rfl (fun hs hroot _ _ hp hq => mulLimbs_agrees hs hp hq hroot) htyped hguards
 · exact wide_agrees rfl rfl (fun hs hroot _ _ hp hq => andLimbs_agrees hs hp hq hroot) htyped hguards
 · exact wide_agrees rfl rfl (fun hs hroot _ _ hp hq => orLimbs_agrees hs hp hq hroot) htyped hguards
 · exact wide_agrees rfl rfl (fun hs hroot _ _ hp hq => xorLimbs_agrees hs hp hq hroot) htyped hguards
 · rw [notLimbs, List.all_cons, Bool.and_eq_true] at hguards
   obtain ⟨h, n, hs, hw, -⟩ := split_of_guard hguards.1
   obtain ⟨p, hp⟩ := denotes_hole widths ((htyped 0 (.name .w) rfl).trans hw)
   exact notLimbs_agrees hs hp hw.symm
 · rw [ifLimbs, List.all_cons, Bool.and_eq_true] at hguards
   obtain ⟨h, n, hs, hw, -⟩ := split_of_guard hguards.1
   obtain ⟨c, hc⟩ := denotes_hole widths (htyped 0 (.lit 1) rfl)
   obtain ⟨p, hp⟩ := denotes_hole widths ((htyped 1 (.name .w) rfl).trans hw)
   obtain ⟨q, hq⟩ := denotes_hole widths ((htyped 2 (.name .w) rfl).trans hw)
   exact ifLimbs_agrees hs hc hp hq hw.symm
 · exact wide_agrees rfl rfl (fun hs hroot _ _ hp hq => shlLimbs_agrees hs hp hq hroot) htyped hguards
 · exact wide_agrees rfl rfl (fun hs hroot _ _ hp hq => lshrLimbs_agrees hs hp hq hroot) htyped hguards
 · exact wide_agrees rfl rfl (fun hs hroot _ _ hp hq => ashrLimbs_agrees hs hp hq hroot) htyped hguards
 · exact wide_agrees rfl rfl (fun hs _ _ _ hp hq => eqLimbs_agrees hs hp hq) htyped hguards
 · exact wide_agrees rfl rfl (fun hs _ _ _ hp hq => neLimbs_agrees hs hp hq) htyped hguards
 · exact wide_agrees rfl rfl (fun hs _ _ _ hp hq => ultLimbs_agrees hs hp hq) htyped hguards
 · exact wide_agrees rfl rfl (fun hs _ _ _ hp hq => uleLimbs_agrees hs hp hq) htyped hguards
 · exact wide_agrees rfl rfl (fun hs _ _ _ hp hq => ugtLimbs_agrees hs hp hq) htyped hguards
 · exact wide_agrees rfl rfl (fun hs _ _ _ hp hq => ugeLimbs_agrees hs hp hq) htyped hguards
 · exact wide_agrees rfl rfl (fun hs _ _ _ hp hq => ltLimbs_agrees hs hp hq) htyped hguards
 · exact wide_agrees rfl rfl (fun hs _ _ _ hp hq => leLimbs_agrees hs hp hq) htyped hguards
 · exact wide_agrees rfl rfl (fun hs _ _ _ hp hq => gtLimbs_agrees hs hp hq) htyped hguards
 · exact wide_agrees rfl rfl (fun hs _ _ _ hp hq => geLimbs_agrees hs hp hq) htyped hguards
 · rw [zextLimbs, List.all_cons, List.all_cons, Bool.and_eq_true, Bool.and_eq_true] at hguards
   obtain ⟨h, n, hs, hw, hn⟩ := split_of_guard hguards.1
   obtain ⟨p, hp⟩ := denotes_hole widths (htyped 0 (.name .m) rfl)
   have hless := guard_lt hguards.2.1 (eval_sub rfl eval_one (hpos .m)) hs.native
   exact zextLimbs_agrees hs hw.symm hp rfl (Nat.le_of_pred_lt hless)
 · obtain ⟨h, n, m, hs, hroot, hm, hmpos, hle, p, hp⟩ := wide_operand rfl rfl htyped hguards
   exact zextWideLimbs_agrees hs hroot hp hm hmpos hle
 · rw [sextLimbs, List.all_cons, List.all_cons, Bool.and_eq_true, Bool.and_eq_true] at hguards
   obtain ⟨h, n, hs, hw, hn⟩ := split_of_guard hguards.1
   obtain ⟨p, hp⟩ := denotes_hole widths (htyped 0 (.name .m) rfl)
   have hless := guard_lt hguards.2.1 (eval_sub rfl eval_one (hpos .m)) hs.native
   exact sextLimbs_agrees hs hw.symm hp rfl (Nat.le_of_pred_lt hless)
 · obtain ⟨h, n, m, hs, hroot, hm, hmpos, hle, p, hp⟩ := wide_operand rfl rfl htyped hguards
   exact sextWideLimbs_agrees hs hroot hp hm hmpos hle
 · exact extractConcatLow_agrees (denotes_hole widths (htyped 0 (.name .h) rfl)).choose_spec
    (denotes_hole widths (htyped 1 (.name .l) rfl)).choose_spec rfl
 · exact extractConcatHigh_agrees (denotes_hole widths (htyped 0 (.name .h) rfl)).choose_spec
    (denotes_hole widths (htyped 1 (.name .l) rfl)).choose_spec rfl rfl
 · rw [extractZextCut, extractCut, List.all_cons, Bool.and_eq_true] at hguards
   obtain ⟨hle, p, hp⟩ := extension_captures (.inl rfl) rfl rfl htyped hwidens
   exact extractZextCut_agrees hp rfl (hlt .w) hle rfl rfl (guard_lt hguards.1 rfl rfl)
 · obtain ⟨hle, p, hp⟩ := extension_captures (.inl rfl) rfl rfl htyped hwidens
   exact extractZextSame_agrees hp rfl (hlt .w) hle rfl rfl
 · rw [extractZextWiden, extractWiden, List.all_cons, List.all_cons, Bool.and_eq_true, Bool.and_eq_true] at hguards
   obtain ⟨hle, p, hp⟩ := extension_captures (.inl rfl) rfl rfl htyped hwidens
   have hin := guard_lt hguards.2.1 (eval_sub rfl eval_one (hpos .k)) rfl
   exact extractZextWiden_agrees hp rfl (hlt .w) hle rfl rfl rfl (guard_lt hguards.1 rfl rfl) (Nat.le_of_pred_lt hin)
 · rw [extractSextCut, extractCut, List.all_cons, Bool.and_eq_true] at hguards
   obtain ⟨hle, p, hp⟩ := extension_captures (.inr rfl) rfl rfl htyped hwidens
   exact extractSextCut_agrees hp rfl (hlt .w) hle rfl rfl (guard_lt hguards.1 rfl rfl)
 · obtain ⟨hle, p, hp⟩ := extension_captures (.inr rfl) rfl rfl htyped hwidens
   exact extractSextSame_agrees hp rfl (hlt .w) hle rfl rfl
 · rw [extractSextWiden, extractWiden, List.all_cons, List.all_cons, Bool.and_eq_true, Bool.and_eq_true] at hguards
   obtain ⟨hle, p, hp⟩ := extension_captures (.inr rfl) rfl rfl htyped hwidens
   have hin := guard_lt hguards.2.1 (eval_sub rfl eval_one (hpos .k)) rfl
   exact extractSextWiden_agrees hp rfl (hlt .w) hle rfl rfl rfl (guard_lt hguards.1 rfl rfl) (Nat.le_of_pred_lt hin)

/-- Five bits over a native width of two, an arithmetic shift by three. -/
def fiveBits : Widths where
 value name := if name = .native then 2 else 5
 pos name := by split <;> decide
 lt name := by split <;> decide

theorem legalize_sound_ashr : ashrLimbs.Agrees fiveBits fun i => ⟨5, by decide, false, if i = 0 then 0b10110 else 3⟩ :=
 legalize_sound ashrLimbs (by simp [rules]) fiveBits _ (by decide) (by
  intro i binding hbinding
  rcases i with _ | _ | i
  · cases hbinding
    rfl
  · cases hbinding
    rfl
  · exact absurd hbinding nofun) (by decide)

/-- A two-bit value extended to one bit has no value, whatever is cut of it. -/
def oneBit : Widths where
 value name := if name = .m then 2 else 1
 pos name := by split <;> decide
 lt name := by split <;> decide

theorem legalize_narrowing : ¬ ∀ rule ∈ rules, ∀ widths captures, rule.guards.all (Guard.holds widths) = true →
  rule.Typed widths captures → rule.Agrees widths captures := by
 intro h
 obtain ⟨l, r, hl, -⟩ := h extractZextCut (by simp [rules]) oneBit (fun _ => ⟨2, by decide, false, 1⟩) (by decide) (by
  intro i binding hbinding
  rcases i with _ | i
  · cases hbinding
    rfl
  · exact absurd hbinding nofun)
 nomatch hl

end Tir.Sem.Legalize
