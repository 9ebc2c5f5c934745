import Tir.Sem.SelectionCompare

/-!
# Powers of two, widened operations and masks
-/

open List Option BitVec Nat

namespace Tir.Sem.Selection

open Tir.Adt Tir.Lang Tir.LowBits WidthBinding

variable {rule : Rule} {widths : Widths} {port : ThetaPort} {symbols : Nat → Value}

/-! ## Multiplication by a power of two -/

/-- A product with a power of two is a shift, where the width holds the shift amount as far as it matters. -/
theorem mulToShl_sound {factor amount : WidthExpr} {k : Nat} (hfactor : factor.eval widths = some (2 ^ k))
  (hamount : amount.eval widths = some k)
  (h32 : widths.value .w < 2 ^ 32) (hshift : ∀ p : BitVec (widths.value .w), p <<< (k % 2 ^ widths.value .w) = p <<< k) :
  (mulToShl factor amount).Sound widths := by
 refine sound_one h32 rfl le_rfl rfl ?_
 intro port symbols p hw hp
 have hmul := builds_op (hp .lhs) (builds_literal hfactor hw (widths.pos .w)) rfl denotes_mul
 have hconst : Builds (mulToShl factor amount) widths port symbols .rhs (const W amount) _ :=
  builds_const hamount eval_W (widths.pos .w) h32
 have hshl := builds_op (hp .rhs) hconst rfl fun hx hy => denotes_shl hx hy (word_lt .w)
 rw [mul_two_pow] at hmul
 rw [toNat_ofNat, hshift] at hshl
 exact ⟨_, _, hmul, hshl⟩

section

variable (h32 : widths.value .w < 2 ^ 32)

include h32

theorem mul2ToShl_sound : mul2ToShl.Sound widths := by
 refine mulToShl_sound (k := 1) rfl rfl h32 fun p => ?_
 rw [mod_eq_of_lt (Nat.one_lt_two_pow (ne_of_gt (widths.pos .w)))]

theorem mul4ToShl_sound (hw : widths.value .w ≠ 1) : mul4ToShl.Sound widths := by
 refine mulToShl_sound (k := 2) rfl rfl h32 fun p => ?_
 have hle : 2 ≤ widths.value .w := by
  have hpos := widths.pos .w
  omega
 have hpow : 2 ^ 2 ≤ 2 ^ widths.value .w := Nat.pow_le_pow_right (by decide) hle
 rw [mod_eq_of_lt (by omega)]

theorem mul8ToShl_sound : mul8ToShl.Sound widths := by
 refine mulToShl_sound (k := 3) rfl rfl h32 fun p => ?_
 by_cases hone : widths.value .w = 1
 · -- at one bit the amount is cut to one, and both shifts are past the width
   simp_all
 · have hle : 2 ≤ widths.value .w := by
    have hpos := widths.pos .w
    omega
   have hpow : 2 ^ 2 ≤ 2 ^ widths.value .w := Nat.pow_le_pow_right (by decide) hle
   rw [mod_eq_of_lt (by omega)]

end

/-! ## Widening -/

section Widening

variable {limit : WidthExpr} {n : Nat}

/-- A comparison that an extension keeps. -/
theorem compareWiden_sound {kind extension : SymKind} (hkind : compares kind = true)
  (hextension : Rule.extendsTo extension = true) (hlimit : limit.eval widths = some n) (hsmall : n < 2 ^ 16)
  (hkept : ∀ {w : Nat} (p q : BitVec w), w ≤ n →
   compared kind (extended extension p n) (extended extension q n) = compared kind p q)
  (hguard : (Guard.lt N limit).holds widths = true) : (compareWiden kind extension limit).Sound widths := by
 have hlt := guard_lt hguard eval_N hlimit
 refine sound_two (by omega) rfl (widths.pos .narrow) rfl ?_
 intro port symbols p q hw hp hq
 have hwide := builds_compare hkind
  (builds_extension hextension (hp .rhs) hlimit (le_of_lt hlt) hsmall)
  (builds_extension hextension (hq .rhs) hlimit (le_of_lt hlt) hsmall)
 rw [hkept p q (le_of_lt hlt)] at hwide
 exact ⟨_, _, builds_compare hkind (hp .lhs) (hq .lhs), hwide⟩

/-- A comparison of bit patterns is kept by zero extension. -/
theorem compared_zext {w : Nat} {kind : SymKind} (hkind : kind ∈ [SymKind.eq, .ne, .ult, .ule, .ugt, .uge])
  (p q : BitVec w) (hle : w ≤ n) : compared kind (extended .zext p n) (extended .zext q n) = compared kind p q := by
 simp only [mem_cons, not_mem_nil, or_false] at hkind
 rcases hkind with rfl | rfl | rfl | rfl | rfl | rfl
 · exact setWidth_beq p q hle
 · exact congrArg (!·) (setWidth_beq p q hle)
 · exact setWidth_ult p q hle
 · exact setWidth_ule p q hle
 · exact setWidth_ult q p hle
 · exact setWidth_ule q p hle

/-- A comparison of signed numbers is kept by sign extension. -/
theorem compared_sext {w : Nat} {kind : SymKind} (hkind : kind ∈ [SymKind.lt, .le, .gt, .ge]) (p q : BitVec w) (hle : w ≤ n) :
  compared kind (extended .sext p n) (extended .sext q n) = compared kind p q := by
 simp only [mem_cons, not_mem_nil, or_false] at hkind
 rcases hkind with rfl | rfl | rfl | rfl
 · exact signExtend_slt p q hle
 · exact signExtend_sle p q hle
 · exact signExtend_slt q p hle
 · exact signExtend_sle q p hle

/-- An operation that is the cut of the one at 32 bits. -/
theorem opWiden32_sound {kind first second : SymKind} (hfst : Rule.extendsTo first = true)
  (hsnd : Rule.extendsTo second = true) (hlt : widths.value .narrow < 32)
  (f : {w : Nat} → BitVec w → BitVec w → BitVec w)
  (hbuilds : ∀ {w : Nat} {p q : BitVec w} {x y : Node} {side : Side} {port : ThetaPort} {symbols : Nat → Value}, w < 2 ^ 64 →
   Builds (opWiden32 kind first second limit) widths port symbols side x p →
    Builds (opWiden32 kind first second limit) widths port symbols side y q →
     Builds (opWiden32 kind first second limit) widths port symbols side (.binary kind x y) (f p q))
  (hcut : ∀ {w : Nat} (p q : BitVec w), 0 < w → w ≤ 32 → (f (extended first p 32) (extended second q 32)).setWidth w = f p q) :
  (opWiden32 kind first second limit).Sound widths := by
 refine sound_two (hlt.trans (by decide)) rfl le_rfl rfl ?_
 intro port symbols p q hw hp hq
 have hx : Builds (opWiden32 kind first second limit) widths port symbols .rhs (.binary first a (number 32)) _ :=
  builds_extension (n := 32) hfst (hp .rhs) rfl (le_of_lt hlt) (by decide)
 have hy : Builds (opWiden32 kind first second limit) widths port symbols .rhs (.binary second b (number 32)) _ :=
  builds_extension (n := 32) hsnd (hq .rhs) rfl (le_of_lt hlt) (by decide)
 have hslice := builds_slice (hbuilds (by decide) hx hy) hw le_rfl (le_of_lt hlt)
 rw [hcut p q (widths.pos .narrow) (le_of_lt hlt)] at hslice
 exact ⟨_, _, hbuilds (word_lt .narrow) (hp .lhs) (hq .lhs), hslice⟩

theorem lshrWiden32_sound (hguard : (Guard.lt N 32).holds widths = true) : lshrWiden32.Sound widths := by
 apply opWiden32_sound rfl rfl (guard_lt hguard eval_N rfl) (fun p q => p >>> q.toNat)
 · intro w p q x y side port symbols hword hx hy
   exact builds_op hx hy rfl fun hx hy => denotes_lshr hx hy hword
 · intro w p q hpos hle
   have hamount : (extended .zext q 32).toNat = q.toNat := toNat_setWidth_of_le hle
   rw [hamount]
   exact low_ushiftRight p hle q.toNat

theorem ashrWiden32_sound (hguard : (Guard.lt N 32).holds widths = true) : ashrWiden32.Sound widths := by
 apply opWiden32_sound rfl rfl (guard_lt hguard eval_N rfl) (fun p q => p.sshiftRight q.toNat)
 · intro w p q x y side port symbols hword hx hy
   exact builds_op hx hy rfl fun hx hy => denotes_ashr hx hy hword
 · intro w p q hpos hle
   have hamount : (extended .zext q 32).toNat = q.toNat := toNat_setWidth_of_le hle
   rw [hamount]
   exact low_sshiftRight p hpos hle q.toNat

/-- A division of extended operands divides the same numbers. -/
theorem divWiden_sound {kind extension : SymKind} {signed quotient : Bool} (hextension : Rule.extendsTo extension = true)
  (hkind : divisionOf kind = some (signed, quotient))
  (hkept : ∀ {w : Nat} (p : BitVec w), w ≤ 32 → numberOf signed (extended extension p 32) = numberOf signed p)
  (hguard : (Guard.lt N 16).holds widths = true) : (opWiden32 kind extension extension 16).Sound widths := by
 have hlt : widths.value .narrow < 16 := guard_lt hguard eval_N rfl
 apply opWiden32_sound hextension hextension (by omega)
  (fun p q => BitVec.ofInt _ (quotientOf signed quotient (numberOf signed p) (numberOf signed q)))
 · grind [builds_divrem]
 grind [setWidth_ofInt]

theorem numberOf_zext {w : Nat} (p : BitVec w) (hle : w ≤ 32) : numberOf false (extended .zext p 32) = numberOf false p :=
 congrArg Nat.cast (toNat_setWidth_of_le hle)

theorem numberOf_sext {w : Nat} (p : BitVec w) (hle : w ≤ 32) : numberOf true (extended .sext p 32) = numberOf true p :=
 toInt_signExtend_of_le hle

variable (hguard : (Guard.lt N 16).holds widths = true)

include hguard

theorem udivWiden32_sound : udivWiden32.Sound widths :=
 divWiden_sound rfl rfl numberOf_zext hguard

theorem uremWiden32_sound : uremWiden32.Sound widths :=
 divWiden_sound rfl rfl numberOf_zext hguard

theorem divWiden32_sound : divWiden32.Sound widths :=
 divWiden_sound rfl rfl numberOf_sext hguard

theorem sremWiden32_sound : sremWiden32.Sound widths :=
 divWiden_sound rfl rfl numberOf_sext hguard

end Widening

/-! ## Masks -/

section Masks

/-- The complement of a mask, at the widths whose all-ones value is a 64-bit constant. -/
theorem builds_notMask {w : Nat} {m : BitVec w} {x : Node} {side : Side} (hx : Builds rule widths port symbols side x m)
  (hw : rule.registerWidth widths = w) (hW : widths.value .w = w) (hones : w ≤ 64) :
  Builds rule widths port symbols side (.binary .xor x (literal (.ones W))) (m ^^^ allOnes w) := by
 subst hW
 have heval : (WidthExpr.ones W).eval widths = some (2 ^ widths.value .w - 1) := by
  simp [WidthExpr.eval, eval_W, if_pos hones]
 have hmask : Builds rule widths port symbols side (literal (.ones W)) _ := builds_literal heval hw (widths.pos .w)
 rw [allOnes_eq] at hmask
 exact builds_op hx hmask rfl denotes_xor

/-- Above 64 bits no constant is the mask. -/
theorem realize_notMask {x y z : Node} {side : Side} (hwide : 64 < widths.value .w) :
  rule.realize widths side port (.binary .or y (.binary .and z (.binary .xor x (literal (.ones W))))) = none := by
 have heval : (WidthExpr.ones W).eval widths = none := by
  simp [WidthExpr.eval, eval_W, if_neg (Nat.not_le_of_lt hwide)]
 have hmask : rule.realize widths side port (literal (.ones W)) = none := by
  simp [literal, Rule.realize, heval]
 rw [realize_binary rfl, realize_binary rfl, realize_binary rfl, hmask]
 simp

theorem selectMaskToIf_sound (hfits : widths.value .w < 2 ^ 16) : selectMaskToIf.Sound widths := by
 by_cases hones : widths.value .w ≤ 64
 · have h32 : widths.value .w < 2 ^ 32 := hfits.trans (by decide)
   have hw : selectMaskToIf.registerWidth widths = widths.value .w := by
    simp only [Rule.registerWidth, selectMaskToIf, int1, intW, map_cons, map_nil, foldl_cons, foldl_nil,
     value, Nat.max_eq_left (widths.pos .w), Nat.max_self,
     mod_eq_of_lt h32]
   apply sound_of_builds rfl
   intro port symbols htyped
   obtain ⟨t, ht⟩ : ∃ t : BitVec (widths.value .w), ∀ side, Builds selectMaskToIf widths port symbols side (.hole 0) t :=
    capture_whole htyped rfl rfl hw rfl
   obtain ⟨c, hc, hc'⟩ : ∃ c : BitVec (widths.value .w), Builds selectMaskToIf widths port symbols .rhs (.hole 1) c ∧
     Builds selectMaskToIf widths port symbols .lhs (.hole 1) (c.setWidth 1) :=
    capture htyped rfl rfl hw rfl Nat.one_pos (widths.pos .w) (by decide)
   obtain ⟨f, hf⟩ : ∃ f : BitVec (widths.value .w), ∀ side, Builds selectMaskToIf widths port symbols side (.hole 2) f :=
    capture_whole htyped rfl rfl hw rfl
   have hmask : Builds selectMaskToIf widths port symbols .lhs (sextTo (.hole 1) .w) ((c.setWidth 1).signExtend _) :=
    builds_extendsTo rfl hc' (widths.pos .w) hfits
   have hor := builds_op (builds_op (ht .lhs) hmask rfl denotes_and)
    (builds_op (hf .lhs) (builds_notMask hmask hw rfl hones) rfl denotes_and) rfl denotes_or
   have hbit : (c.setWidth 1).getLsbD 0 = c.getLsbD 0 := by
    simp
   rw [select_mask, hbit] at hor
   exact ⟨_, _, hor, builds_ite hc (ht .rhs) (hf .rhs)⟩
 · have hwide : 64 < widths.value .w := not_le.1 hones
   exact sound_of_unbuilt rfl hwide fun port => .inl (realize_notMask hwide)

theorem constantMaskBlend_sound (h32 : widths.value .w < 2 ^ 32) : constantMaskBlend.Sound widths := by
 by_cases hones : widths.value .w ≤ 64
 · have hw : constantMaskBlend.registerWidth widths = widths.value .w := by
    simp only [Rule.registerWidth, constantMaskBlend, intW, map_cons, map_nil, foldl_cons, foldl_nil,
     value, max_self, mod_eq_of_lt h32]
   apply sound_of_builds rfl
   intro port symbols htyped
   obtain ⟨t, ht⟩ : ∃ t : BitVec (widths.value .w), ∀ side, Builds constantMaskBlend widths port symbols side (.hole 0) t :=
    capture_whole htyped rfl rfl hw rfl
   obtain ⟨m, hm⟩ : ∃ m : BitVec (widths.value .w), ∀ side, Builds constantMaskBlend widths port symbols side (.hole 1) m :=
    capture_whole htyped rfl rfl hw rfl
   obtain ⟨f, hf⟩ : ∃ f : BitVec (widths.value .w), ∀ side, Builds constantMaskBlend widths port symbols side (.hole 2) f :=
    capture_whole htyped rfl rfl hw rfl
   have hor := builds_op (builds_op (ht .lhs) (hm .lhs) rfl denotes_and)
    (builds_op (hf .lhs) (builds_notMask (hm .lhs) hw rfl hones) rfl denotes_and) rfl denotes_or
   have hblend := builds_op (builds_op (hm .rhs) (builds_op (ht .rhs) (hf .rhs) rfl denotes_xor) rfl denotes_and) (hf .rhs) rfl
    denotes_xor
   rw [mask_blend] at hor
   exact ⟨_, _, hor, hblend⟩
 · have hwide : 64 < widths.value .w := not_le.1 hones
   exact sound_of_unbuilt rfl hwide fun port => .inl (realize_notMask hwide)

theorem sextBoolLowBit_sound (hfits : widths.value .w < 2 ^ 16)
  (hguard : (Guard.lt 1 W).holds widths = true) : sextBoolLowBit.Sound widths := by
 have hlt : 1 < widths.value .w := guard_lt hguard rfl eval_W
 have h32 : widths.value .w < 2 ^ 32 := hfits.trans (by decide)
 have hw : sextBoolLowBit.registerWidth widths = widths.value .w := by
  simp only [Rule.registerWidth, sextBoolLowBit, int1, map_cons, map_nil, foldl_cons, foldl_nil,
   value, max_eq_left (le_of_lt hlt), mod_eq_of_lt h32]
 apply sound_of_builds rfl
 intro port symbols htyped
 obtain ⟨c, hc, hc'⟩ : ∃ c : BitVec (widths.value .w), Builds sextBoolLowBit widths port symbols .rhs (.hole 0) c ∧
   Builds sextBoolLowBit widths port symbols .lhs (.hole 0) (c.setWidth 1) :=
  capture htyped rfl rfl hw rfl Nat.one_pos (le_of_lt hlt) (by decide)
 have hsext : Builds sextBoolLowBit widths port symbols .lhs (sextTo (.hole 0) .w) ((c.setWidth 1).signExtend _) :=
  builds_extendsTo rfl hc' (le_of_lt hlt) hfits
 have hone : Builds sextBoolLowBit widths port symbols .lhs (literal 1) (BitVec.ofNat (widths.value .w) 1) :=
  builds_literal rfl hw (widths.pos .w)
 have hand := builds_op hsext hone rfl denotes_and
 have hzero : Counts sextBoolLowBit widths port symbols .rhs (number 0) 0 :=
  counts_of_builds (builds_number rfl hw (widths.pos .w)) (Nat.two_pow_pos _) (by decide)
 have hbit := builds_extract hc hzero hzero Nat.one_pos rfl (widths.pos .w)
 have hzext : Builds sextBoolLowBit widths port symbols .rhs (zext (extract (.hole 0) 0 0) W) _ :=
  builds_extension rfl hbit eval_W (le_of_lt hlt) hfits
 rw [← ofNat_eq_ofNat, signExtend_and_one, ← Limbs.slice_eq_setWidth c] at hand
 exact ⟨_, _, hand, hzext⟩

/-- Equality or difference of the low bytes. -/
theorem lowByteXor_sound {kind : SymKind} (h32 : widths.value .w < 2 ^ 32) (hkind : kind = .eq ∨ kind = .ne)
  (hguard : (Guard.lt 8 W).holds widths = true) : (lowByteXor kind).Sound widths := by
 have hlt : 8 < widths.value .w := guard_lt hguard rfl eval_W
 have hcompares : compares kind = true := by
  rcases hkind with rfl | rfl <;> rfl
 refine sound_two h32 rfl (widths.pos .w) rfl ?_
 intro port symbols p q hw hp hq
 have hmask : Builds (lowByteXor kind) widths port symbols .lhs (literal 255) (BitVec.ofNat (widths.value .w) (2 ^ 8 - 1)) :=
  builds_literal rfl hw (widths.pos .w)
 have hzero : Builds (lowByteXor kind) widths port symbols .lhs (literal 0) (BitVec.ofNat (widths.value .w) 0) :=
  builds_literal rfl hw (widths.pos .w)
 have hleft := builds_compare hcompares (builds_op (builds_op (hp .lhs) (hq .lhs) rfl denotes_xor) hmask rfl denotes_and) hzero
 have hhigh : Counts (lowByteXor kind) widths port symbols .rhs (const 3 7) 7 :=
  counts_of_builds (builds_const rfl rfl (by decide : 0 < 3) (by decide)) (by decide) (by decide)
 have hlow : Counts (lowByteXor kind) widths port symbols .rhs (const 1 0) 0 :=
  counts_of_builds (builds_const rfl rfl Nat.one_pos (by decide)) (by decide) (by decide)
 have hbyte := builds_extract (n := 8) (hp .rhs) hhigh hlow (by decide) rfl (le_of_lt hlt)
 have hbyte' := builds_extract (n := 8) (hq .rhs) hhigh hlow (by decide) rfl (le_of_lt hlt)
 have hright := builds_compare hcompares hbyte hbyte'
 have hsame := low_byte_eq p q (le_of_lt hlt)
 have hcompared : compared kind ((p ^^^ q) &&& BitVec.ofNat (widths.value .w) (2 ^ 8 - 1)) (BitVec.ofNat _ 0) =
   compared kind (p.extractLsb' 0 8) (q.extractLsb' 0 8) := by
  rcases hkind with rfl | rfl
  · exact hsame
  · exact congrArg (!·) hsame
 rw [hcompared] at hleft
 exact ⟨_, _, hleft, hright⟩

end Masks

end Tir.Sem.Selection
