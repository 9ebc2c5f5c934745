import Tir.Basic.LowBits
import Tir.Sem.SelectionTerms

/-!
# Soundness of the selection axioms
-/

open List Option BitVec

namespace Tir.Sem.Selection

open Tir.Adt Tir.Lang Tir.LowBits Rule

variable {rule : Rule} {widths : Widths} {port : ThetaPort} {symbols : Nat → Value}

theorem value_name (name : WidthName) : (WidthBinding.name name).value widths = widths.value name :=
 rfl

/-! ## From the two sides to the rule -/

variable {w : Nat} {name : WidthName} {binding : WidthBinding}

theorem refines_of_means {p : BitVec w} {left right : Option Value} (hl : Means left p) (hr : Means right p) :
  Refines left right := by
 obtain ⟨hpos, signed, hleft⟩ := hl
 obtain ⟨hpos', signed', hright⟩ := hr
 exact .inr ⟨_, _, hleft, hright, rfl, rfl⟩

/-- Both sides of an instance have one bit vector. -/
theorem sound_of_builds (hroot : rule.rhs.usesRoot = false)
  (h : ∀ port symbols, rule.Typed widths symbols → ∃ w, ∃ p : BitVec w,
   Builds rule widths port symbols .lhs rule.lhs p ∧ Builds rule widths port symbols .rhs rule.rhs p) :
  rule.Sound widths := by
 intro port symbols htyped
 obtain ⟨w, p, ⟨left, hleft, hmeans⟩, right, hright, hmeans'⟩ := h port symbols htyped
 simp only [proofInstance, hroot, hleft, hright, bind_eq_bind, bind_some, Bool.false_eq_true, if_false]
 exact refines_of_means hmeans hmeans'

/-- A rule without an instance holds of nothing. -/
theorem sound_of_unbuilt (hroot : rule.rhs.usesRoot = false) (hwide : 64 < widths.value name)
  (h : ∀ port, rule.realize widths .lhs port rule.lhs = none ∨ rule.realize widths .rhs port rule.rhs = none) :
  rule.Sound widths := by
 intro port symbols htyped
 have hnone : rule.proofInstance widths port = none := by
  simp only [proofInstance, hroot, Bool.false_eq_true, if_false]
  rcases h port with hleft | hright
  · rw [hleft]
    rfl
  simp_all
 grind

theorem registerWidth_lt : rule.registerWidth widths < 2 ^ 32 :=
 Nat.mod_lt _ (by decide)

theorem proofWidth_eq (hlt : binding.value widths < 2 ^ 32) : Rule.proofWidth widths binding = binding.value widths :=
 Nat.mod_eq_of_lt hlt

section

variable (htyped : rule.Typed widths symbols) (hroot : rule.rhs.usesRoot = false)

include htyped hroot

/-- A capture of `n` bits is the register on the right and its low bits on the left. -/
theorem capture {n index : Nat} (hbinder : rule.vars[index]? = some ⟨binding, none⟩)
  (hw : rule.registerWidth widths = w) (hclass : binding.value widths = n) (hn : 0 < n) (hle : n ≤ w) (hsmall : n < 2 ^ 16) :
  ∃ p : BitVec w, Builds rule widths port symbols .rhs (.hole index) p ∧
   Builds rule widths port symbols .lhs (.hole index) (p.setWidth n) := by
 rw [Rule.Typed, hroot] at htyped
 obtain ⟨a, hsymbol, hwid⟩ := htyped index _ hbinder
 rw [hw] at hwid
 subst hwid
 have hval : Means (some (symbols index)) a.bits := ⟨a.width_pos, a.signed, by rw [hsymbol]⟩
 have hproof : proofWidth widths binding = n := by
  rw [proofWidth_eq (by rw [hclass]; omega), hclass]
 refine ⟨a.bits, builds_hole hbinder hval (.inl rfl), ?_⟩
 rcases Nat.eq_or_lt_of_le hle with rfl | hlt
 · rw [setWidth_eq]
   exact builds_hole hbinder hval (.inr (by rw [hproof, hw]))
 · rw [← Limbs.slice_eq_setWidth]
   exact builds_low hbinder hval hproof hn hlt hw (by omega)

/-- A capture of the register's width is read whole on both sides. -/
theorem capture_whole {index : Nat} (hbinder : rule.vars[index]? = some ⟨binding, none⟩)
  (hw : rule.registerWidth widths = w) (hclass : binding.value widths = w) :
  ∃ p : BitVec w, ∀ side, Builds rule widths port symbols side (.hole index) p := by
 rw [Rule.Typed, hroot] at htyped
 obtain ⟨a, hsymbol, hwid⟩ := htyped index _ hbinder
 rw [hw] at hwid
 subst hwid
 have hval : Means (some (symbols index)) a.bits := ⟨a.width_pos, a.signed, by rw [hsymbol]⟩
 have hproof : proofWidth widths binding = a.width := by
  rw [proofWidth_eq (by rw [hclass, ← hw]; exact registerWidth_lt), hclass]
 exact ⟨a.bits, fun side => builds_hole hbinder hval (.inr (by rw [hproof, hw]))⟩

end

theorem sound_one (hlt : widths.value name < 2 ^ 32) (hvars : rule.vars = [⟨.name name, none⟩])
  (hle : rule.rootWidth.value widths ≤ widths.value name) (hroot : rule.rhs.usesRoot = false)
  (h : ∀ port symbols (p : BitVec (widths.value name)), rule.registerWidth widths = widths.value name →
   (∀ side, Builds rule widths port symbols side (.hole 0) p) → ∃ v, ∃ r : BitVec v,
    Builds rule widths port symbols .lhs rule.lhs r ∧ Builds rule widths port symbols .rhs rule.rhs r) :
  rule.Sound widths := by
 have hw : rule.registerWidth widths = widths.value name := by
  simp only [registerWidth, hvars, map_cons, map_nil, foldl_cons, foldl_nil,
   value_name, max_eq_right hle, Nat.mod_eq_of_lt hlt]
 apply sound_of_builds hroot
 intro port symbols htyped
 obtain ⟨p, hp⟩ : ∃ p : BitVec (widths.value name), ∀ side, Builds rule widths port symbols side (.hole 0) p :=
  capture_whole htyped hroot (by rw [hvars]; rfl) hw rfl
 exact h port symbols p hw hp

/-- A rule over two captures as wide as its register. -/
theorem sound_two (hlt : widths.value name < 2 ^ 32) (hvars : rule.vars = [⟨.name name, none⟩, ⟨.name name, none⟩])
  (hle : rule.rootWidth.value widths ≤ widths.value name) (hroot : rule.rhs.usesRoot = false)
  (h : ∀ port symbols (p q : BitVec (widths.value name)), rule.registerWidth widths = widths.value name →
   (∀ side, Builds rule widths port symbols side (.hole 0) p) →
    (∀ side, Builds rule widths port symbols side (.hole 1) q) → ∃ v, ∃ r : BitVec v,
     Builds rule widths port symbols .lhs rule.lhs r ∧ Builds rule widths port symbols .rhs rule.rhs r) :
  rule.Sound widths := by
 have hw : rule.registerWidth widths = widths.value name := by
  simp only [registerWidth, hvars, map_cons, map_nil, foldl_cons, foldl_nil,
   value_name, max_eq_right hle, max_self, Nat.mod_eq_of_lt hlt]
 apply sound_of_builds hroot
 intro port symbols htyped
 obtain ⟨p, hp⟩ : ∃ p : BitVec (widths.value name), ∀ side, Builds rule widths port symbols side (.hole 0) p :=
  capture_whole htyped hroot (by rw [hvars]; rfl) hw rfl
 obtain ⟨q, hq⟩ : ∃ q : BitVec (widths.value name), ∀ side, Builds rule widths port symbols side (.hole 1) q :=
  capture_whole htyped hroot (by rw [hvars]; rfl) hw rfl
 exact h port symbols p q hw hp hq

/-- A rule over one narrow capture, with a wider root. -/
theorem sound_narrow (hvars : rule.vars = [⟨.name name, none⟩])
  (hrootWidth : rule.rootWidth.value widths = w) (hle : widths.value name ≤ w) (hsmall : widths.value name < 2 ^ 16)
  (hlt : w < 2 ^ 32) (hroot : rule.rhs.usesRoot = false)
  (h : ∀ port symbols (p : BitVec w), rule.registerWidth widths = w → Builds rule widths port symbols .rhs (.hole 0) p →
    Builds rule widths port symbols .lhs (.hole 0) (p.setWidth (widths.value name)) → ∃ v, ∃ r : BitVec v,
     Builds rule widths port symbols .lhs rule.lhs r ∧ Builds rule widths port symbols .rhs rule.rhs r) :
  rule.Sound widths := by
 have hw : rule.registerWidth widths = w := by
  simp only [registerWidth, hvars, map_cons, map_nil, foldl_cons, foldl_nil,
   value_name, hrootWidth, max_eq_left hle, Nat.mod_eq_of_lt hlt]
 apply sound_of_builds hroot
 intro port symbols htyped
 obtain ⟨p, hp, hp'⟩ : ∃ p : BitVec w, Builds rule widths port symbols .rhs (.hole 0) p ∧
   Builds rule widths port symbols .lhs (.hole 0) (p.setWidth (widths.value name)) :=
  capture htyped hroot (by rw [hvars]; rfl) hw rfl (widths.pos name) hle hsmall
 exact h port symbols p hw hp hp'

/-! ## Widths and slices -/

theorem eval_W : W.eval widths = some (widths.value .w) :=
 rfl

theorem eval_N : N.eval widths = some (widths.value .narrow) :=
 rfl

/-- The distance of the widths, as a shift amount. -/
theorem eval_distance (hlt : widths.value .narrow < widths.value .w) :
  (W - N).eval widths = some (widths.value .w - widths.value .narrow) := by
 change (WidthExpr.sub W N).eval widths = _
 simp [WidthExpr.eval, eval_W, eval_N, if_pos (le_of_lt hlt)]

theorem toNat_distance (n : Nat) : (BitVec.ofNat w (w - n)).toNat = w - n := by
 have hless : w - n < 2 ^ w := (Nat.sub_le w n).trans_lt Nat.lt_two_pow_self
 rw [toNat_ofNat, Nat.mod_eq_of_lt hless]

theorem word_lt (name : WidthName) : widths.value name < 2 ^ 64 :=
 (widths.lt name).trans (by decide)

/-- The captured bits below the position `N`, as the slice from `N - 1` on down. -/
theorem builds_slice {v : Nat} {p : BitVec v} {x : Node} {side : Side} (hx : Builds rule widths port symbols side x p)
  (hw : rule.registerWidth widths = w) (hle : widths.value .narrow ≤ w) (hin : widths.value .narrow ≤ v) :
  Builds rule widths port symbols side (extract x (N - 1) 0) (p.setWidth (widths.value .narrow)) := by
 have hpos := widths.pos .narrow
 have heval : (N - 1).eval widths = some (widths.value .narrow - 1) := by
  change (WidthExpr.sub N (.lit 1)).eval widths = _
  simp [WidthExpr.eval, eval_N, if_pos (Nat.succ_le_of_lt hpos)]
 have hlt : widths.value .narrow - 1 < 2 ^ w := by
  have hself : w < 2 ^ w := Nat.lt_two_pow_self
  omega
 have hword : widths.value .narrow < 2 ^ 64 := word_lt .narrow
 have hhigh : Counts rule widths port symbols side (number (N - 1)) (widths.value .narrow - 1) :=
  counts_of_builds (builds_number heval hw (by omega)) hlt (by omega)
 have hlow : Counts rule widths port symbols side (number 0) 0 :=
  counts_of_builds (builds_number rfl hw (by omega)) (Nat.two_pow_pos w) (by decide)
 rw [← Limbs.slice_eq_setWidth]
 exact builds_extract hx hhigh hlow hpos (by omega) (by omega)

/-! ## Constants and extensions -/

section Rules

variable (h32 : widths.value .w < 2 ^ 32)

include h32

theorem mulConstants_sound : mulConstants.Sound widths :=
 sound_two h32 rfl le_rfl rfl fun _ _ _ _ _ hp hq =>
  ⟨_, _, builds_op (hp .lhs) (hq .lhs) rfl denotes_mul, builds_op (hp .rhs) (hq .rhs) rfl denotes_mul⟩

theorem mulOne_sound : mulOne.Sound widths := by
 apply sound_one h32 rfl le_rfl rfl
 intro port symbols p hw hp
 refine ⟨_, p, ?_, hp .rhs⟩
 have hmul := builds_op (hp .lhs) (builds_literal (e := 1) (n := 1) rfl hw (widths.pos .w)) rfl denotes_mul
 rwa [BitVec.mul_one] at hmul

theorem mulZero_sound : mulZero.Sound widths := by
 apply sound_one h32 rfl le_rfl rfl
 intro port symbols p hw hp
 refine ⟨_, 0, ?_, builds_const rfl eval_W (widths.pos .w) h32⟩
 have hmul := builds_op (hp .lhs) (builds_literal (e := 0) (n := 0) rfl hw (widths.pos .w)) rfl denotes_mul
 rwa [mul_zero] at hmul

theorem andZero_sound : andZero.Sound widths := by
 apply sound_one h32 rfl le_rfl rfl
 intro port symbols p hw hp
 refine ⟨_, 0, ?_, builds_const rfl eval_W (widths.pos .w) h32⟩
 have hand := builds_op (hp .lhs) (builds_literal (e := 0) (n := 0) rfl hw (widths.pos .w)) rfl denotes_and
 rwa [and_zero] at hand

theorem orZero_sound : orZero.Sound widths := by
 apply sound_one h32 rfl le_rfl rfl
 intro port symbols p hw hp
 refine ⟨_, p, ?_, hp .rhs⟩
 have hor := builds_op (hp .lhs) (builds_literal (e := 0) (n := 0) rfl hw (widths.pos .w)) rfl denotes_or
 rwa [or_zero] at hor

end Rules

section Bridges

variable (hfits : widths.value .w < 2 ^ 16)

include hfits

section

variable (hguard : (Guard.lt N W).holds widths = true)

include hguard

theorem sextBridge_sound : sextBridge.Sound widths := by
 have hlt := guard_lt hguard eval_N eval_W
 apply sound_narrow (w := widths.value .w) rfl rfl (le_of_lt hlt) (hlt.trans hfits) (hfits.trans (by decide)) rfl
 intro port symbols p hw hp hp'
 have hamount : Builds sextBridge widths port symbols .rhs (number (W - N)) _ :=
  builds_number (eval_distance hlt) hw (widths.pos .w)
 have hshl := builds_op hp hamount rfl fun hx hy => denotes_shl hx hy (word_lt .w)
 have hashr := builds_op hshl hamount rfl fun hx hy => denotes_ashr hx hy (word_lt .w)
 rw [toNat_distance, ← signExtend_low p (widths.pos .narrow) (le_of_lt hlt)] at hashr
 exact ⟨_, _, builds_extendsTo rfl hp' (le_of_lt hlt) hfits, hashr⟩

theorem zextShifts_sound : zextShifts.Sound widths := by
 have hlt := guard_lt hguard eval_N eval_W
 apply sound_narrow (w := widths.value .w) rfl rfl (le_of_lt hlt) (hlt.trans hfits) (hfits.trans (by decide)) rfl
 intro port symbols p hw hp hp'
 have hamount : Builds zextShifts widths port symbols .rhs (number (W - N)) _ :=
  builds_number (eval_distance hlt) hw (widths.pos .w)
 have hshl := builds_op hp hamount rfl fun hx hy => denotes_shl hx hy (word_lt .w)
 have hlshr := builds_op hshl hamount rfl fun hx hy => denotes_lshr hx hy (word_lt .w)
 rw [toNat_distance, ← setWidth_low_eq_shifts p (le_of_lt hlt)] at hlshr
 exact ⟨_, _, builds_extendsTo rfl hp' (le_of_lt hlt) hfits, hlshr⟩

theorem zextMask_sound : zextMask.Sound widths := by
 have hlt := guard_lt hguard eval_N eval_W
 by_cases hones : widths.value .narrow ≤ 64
 · have heval : (WidthExpr.ones N).eval widths = some (2 ^ widths.value .narrow - 1) := by
    simp [WidthExpr.eval, eval_N, if_pos hones]
   apply sound_narrow (w := widths.value .w) rfl rfl (le_of_lt hlt) (hlt.trans hfits) (hfits.trans (by decide)) rfl
   intro port symbols p hw hp hp'
   have hmask : Builds zextMask widths port symbols .rhs (number (.ones N)) _ :=
    builds_number heval hw (widths.pos .w)
   have hand := builds_op hmask hp rfl denotes_and
   rw [← setWidth_low_eq_and] at hand
   exact ⟨_, _, builds_extendsTo rfl hp' (le_of_lt hlt) hfits, hand⟩
 · -- the mask is no 64-bit constant
   have heval : (WidthExpr.ones N).eval widths = none := by
    simp [WidthExpr.eval, eval_N, if_neg hones]
   have hwide : 64 < widths.value .narrow := not_le.1 hones
   apply sound_of_unbuilt rfl hwide
   intro port
   exact .inr (by simp [zextMask, number, realize, heval])

end

theorem zextZero_sound : zextZero.Sound widths := by
 apply sound_of_builds rfl
 intro port symbols htyped
 have h32 : widths.value .w < 2 ^ 32 := hfits.trans (by decide)
 have hw : zextZero.registerWidth widths = widths.value .w := Nat.mod_eq_of_lt h32
 have hzero : Builds zextZero widths port symbols .lhs (literal 0) (BitVec.ofNat (widths.value .w) 0) :=
  builds_literal rfl hw (widths.pos .w)
 have hzext : Builds zextZero widths port symbols .lhs (zextTo (literal 0) .w) _ :=
  builds_extendsTo rfl hzero le_rfl hfits
 refine ⟨_, _, hzext, ?_⟩
 rw [extended, if_neg (by decide), setWidth_eq]
 exact builds_const rfl eval_W (widths.pos .w) h32

theorem extendTwice_sound {inner outer : SymKind} (hinner : Rule.extendsTo inner = true) (houter : Rule.extendsTo outer = true)
  (htwice : ∀ {n k : Nat} (r : BitVec n), 0 < n → n < 32 → extended outer (extended inner r 32) k = extended inner r k)
  (hguards : (Guard.lt N 32).holds widths = true ∧ (Guard.lt 32 W).holds widths = true) :
  (extendTwice inner outer).Sound widths := by
 have hnarrow : widths.value .narrow < 32 := guard_lt hguards.1 eval_N rfl
 have hwide : 32 < widths.value .w := guard_lt hguards.2 rfl eval_W
 have hle : widths.value .narrow ≤ widths.value .w := by omega
 apply sound_narrow (w := widths.value .w) rfl rfl hle (hnarrow.trans (by decide)) (hfits.trans (by decide)) (by cases inner <;> rfl)
 intro port symbols p hw hp hp'
 have hword : Counts (extendTwice inner outer) widths port symbols .lhs (literal 32) 32 :=
  counts_of_builds (builds_literal rfl hw (widths.pos .w)) (hwide.trans Nat.lt_two_pow_self) (by decide)
 have hfst := builds_extendsBy hinner hp' hword rfl (le_of_lt hnarrow)
 have hsnd := builds_extendsTo houter hfst (le_of_lt hwide) hfits
 rw [htwice _ (widths.pos .narrow) hnarrow] at hsnd
 exact ⟨_, _, hsnd, builds_extension hinner (builds_slice hp hw hle hle) eval_W hle hfits⟩

variable (hguards : (Guard.lt N 32).holds widths = true ∧ (Guard.lt 32 W).holds widths = true)

include hguards

theorem zextZext32_sound : zextZext32.Sound widths :=
 extendTwice_sound hfits rfl rfl (fun r _ hlt => setWidth_setWidth_wide r (le_of_lt hlt)) hguards

theorem sextSext32_sound : sextSext32.Sound widths :=
 extendTwice_sound hfits rfl rfl (fun r hpos hlt => signExtend_signExtend_wide r hpos (le_of_lt hlt)) hguards

theorem sextZext32_sound : sextZext32.Sound widths :=
 extendTwice_sound hfits rfl rfl (fun r _ hlt => signExtend_setWidth_wide r hlt) hguards

end Bridges

/-! ## Choices and copies -/

theorem ifSame_sound (h32 : widths.value .w < 2 ^ 32) : ifSame.Sound widths := by
 have hw : ifSame.registerWidth widths = widths.value .w := by
  simp only [registerWidth, ifSame, int1, intW, map_cons, map_nil, foldl_cons, foldl_nil,
   WidthBinding.value, Nat.max_eq_left (widths.pos .w), Nat.max_self,
   Nat.mod_eq_of_lt h32]
 apply sound_of_builds rfl
 intro port symbols htyped
 obtain ⟨c, hc, hc'⟩ : ∃ c : BitVec (widths.value .w), Builds ifSame widths port symbols .rhs (.hole 0) c ∧
   Builds ifSame widths port symbols .lhs (.hole 0) (c.setWidth 1) :=
  capture htyped rfl rfl hw rfl Nat.one_pos (widths.pos .w) (by decide)
 obtain ⟨p, hp⟩ : ∃ p : BitVec (widths.value .w), ∀ side, Builds ifSame widths port symbols side (.hole 1) p :=
  capture_whole htyped rfl rfl hw rfl
 have hite := builds_ite hc' (hp .lhs) (hp .lhs)
 rw [ite_self] at hite
 exact ⟨_, p, hite, hp .rhs⟩

/-- The captures of a rule over two bits. -/
theorem bits_whole (hvars : rule.vars = [int1, int1]) (hrootWidth : rule.rootWidth = .lit 1) (hroot : rule.rhs.usesRoot = false)
  (port : ThetaPort) (htyped : rule.Typed widths symbols) :
  (∃ c : BitVec 1, ∀ side, Builds rule widths port symbols side (.hole 0) c) ∧
   ∃ p : BitVec 1, ∀ side, Builds rule widths port symbols side (.hole 1) p := by
 have hw : rule.registerWidth widths = 1 := by
  rw [registerWidth, hvars, hrootWidth]
  rfl
 exact ⟨capture_whole htyped hroot (by rw [hvars]; rfl) hw rfl, capture_whole htyped hroot (by rw [hvars]; rfl) hw rfl⟩

theorem ifThenCondition_sound : ifThenCondition.Sound widths := by
 apply sound_of_builds rfl
 intro port symbols htyped
 obtain ⟨⟨c, hc⟩, p, hp⟩ := bits_whole rfl rfl rfl port htyped
 have hone : Builds ifThenCondition widths port symbols .rhs (const 1 1) (1 : BitVec 1) :=
  builds_const rfl rfl Nat.one_pos (by decide)
 have hite := builds_ite (hc .rhs) hone (hp .rhs)
 rw [← choice_then] at hite
 exact ⟨_, _, builds_ite (hc .lhs) (hc .lhs) (hp .lhs), hite⟩

theorem ifElseCondition_sound : ifElseCondition.Sound widths := by
 apply sound_of_builds rfl
 intro port symbols htyped
 obtain ⟨⟨c, hc⟩, p, hp⟩ := bits_whole rfl rfl rfl port htyped
 have hzero : Builds ifElseCondition widths port symbols .rhs (const 1 0) (0 : BitVec 1) :=
  builds_const rfl rfl Nat.one_pos (by decide)
 have hite := builds_ite (hc .rhs) (hp .rhs) hzero
 rw [← choice_else] at hite
 exact ⟨_, _, builds_ite (hc .lhs) (hp .lhs) (hc .lhs), hite⟩

theorem thetaSame_sound (h32 : widths.value .w < 2 ^ 32) : thetaSame.Sound widths :=
 sound_one h32 rfl le_rfl rfl fun _ _ p _ hp => ⟨_, p, builds_theta (hp .lhs) (hp .lhs), hp .rhs⟩

theorem freezeCopy_sound (h32 : widths.value .w < 2 ^ 32) : freezeCopy.Sound widths :=
 sound_one h32 rfl le_rfl rfl fun _ _ p _ hp => ⟨_, p, builds_freeze (hp .lhs), hp .rhs⟩

end Tir.Sem.Selection
