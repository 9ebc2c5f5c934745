import Tir.Sem.SelectionSound

/-!
# Comparisons, complements and widened operations

A comparison kind is read as a predicate of bit vectors; the rules that differ in the kind alone are proved
once for every comparison.
-/

open Option BitVec

namespace Tir.Sem.Selection

open Tir.Adt Tir.Lang Tir.LowBits

variable {rule : Rule} {widths : Widths} {port : ThetaPort} {symbols : Nat → Value}

/-- The truth value of a comparison of bit vectors. -/
def compared {w : Nat} (kind : SymKind) (p q : BitVec w) : Bool :=
 match kind with
 | .eq => p == q
 | .ne => p != q
 | .lt => p.slt q
 | .le => p.sle q
 | .gt => q.slt p
 | .ge => q.sle p
 | .ult => p.ult q
 | .ule => p.ule q
 | .ugt => q.ult p
 | .uge => q.ule p
 | _ => false

/-- The kinds that compare two integers. -/
def compares (kind : SymKind) : Bool :=
 match kind with
 | .eq | .ne | .lt | .le | .gt | .ge | .ult | .ule | .ugt | .uge => true
 | _ => false

theorem builds_compare {w : Nat} {p q : BitVec w} {x y : Node} {side : Side} {kind : SymKind} (hkind : compares kind = true)
  (hx : Builds rule widths port symbols side x p) (hy : Builds rule widths port symbols side y q) :
  Builds rule widths port symbols side (.binary kind x y) (ofBool (compared kind p q)) := by
 cases kind <;> first | exact absurd hkind (by decide) | skip
 case eq => exact builds_op hx hy rfl denotes_eq
 case ne => exact builds_op hx hy rfl denotes_ne
 case lt => exact builds_op hx hy rfl denotes_lt
 case le => exact builds_op hx hy rfl denotes_le
 case gt => exact builds_op hx hy rfl denotes_gt
 case ge => exact builds_op hx hy rfl denotes_ge
 case ult => exact builds_op hx hy rfl denotes_ult
 case ule => exact builds_op hx hy rfl denotes_ule
 case ugt => exact builds_op hx hy rfl denotes_ugt
 case uge => exact builds_op hx hy rfl denotes_uge

/-! ## Comparisons with zero -/

section Zero

variable (hfits : widths.value .w < 2 ^ 16)

include hfits

theorem builds_zeroRegister {w : Nat} (hw : widths.value .w = w) :
  Builds rule widths port symbols .rhs zeroRegister (BitVec.ofNat w 0) := by
 subst hw
 have hzero : Builds rule widths port symbols .rhs (const 1 0) (BitVec.ofNat 1 0) := builds_const rfl rfl Nat.one_pos (by decide)
 have hzext : Builds rule widths port symbols .rhs (zext (const 1 0) W) _ :=
  builds_extension rfl hzero eval_W (widths.pos .w) hfits
 rwa [extended, if_neg (by decide), setWidth_zero] at hzext

theorem compareZero_sound {kind : SymKind} (hkind : compares kind = true) : (compareZero kind).Sound widths := by
 refine sound_one (hfits.trans (by decide)) rfl (widths.pos .w) rfl ?_
 intro port symbols p hw hp
 exact ⟨_, _, builds_compare hkind (hp .lhs) (builds_literal rfl hw (widths.pos .w)),
  builds_compare hkind (hp .rhs) (builds_zeroRegister hfits rfl)⟩

theorem zeroCompare_sound {kind : SymKind} (hkind : compares kind = true) : (zeroCompare kind).Sound widths := by
 refine sound_one (hfits.trans (by decide)) rfl (widths.pos .w) rfl ?_
 intro port symbols p hw hp
 exact ⟨_, _, builds_compare hkind (builds_literal rfl hw (widths.pos .w)) (hp .lhs),
  builds_compare hkind (builds_zeroRegister hfits rfl) (hp .rhs)⟩

end Zero

/-! ## Negation and complement -/

section Negation

variable (h32 : widths.value .w < 2 ^ 32)

include h32

theorem negSub_sound : negSub.Sound widths := by
 apply sound_one h32 rfl le_rfl rfl
 intro port symbols p hw hp
 have hzero : Builds negSub widths port symbols .rhs (number 0) (BitVec.ofNat _ 0) := builds_number rfl hw (widths.pos .w)
 have hsub := builds_op hzero (hp .rhs) rfl denotes_sub
 rw [BitVec.zero_sub] at hsub
 exact ⟨_, _, builds_unary (hp .lhs) rfl denotes_neg, hsub⟩

/-- A rule with the mask of its own width holds at 64 bits and below; above it has no instance. -/
theorem sound_ones (hvars : rule.vars = [intW]) (hrootWidth : rule.rootWidth = .name .w) (hroot : rule.rhs.usesRoot = false)
  {kind : SymKind} (hrhs : rule.rhs = .binary kind (number (.ones W)) x) (hkind : plain kind = true)
  (h : ∀ port symbols (p : BitVec (widths.value .w)), (∀ side, Builds rule widths port symbols side (.hole 0) p) →
   Builds rule widths port symbols .rhs (number (.ones W)) (allOnes (widths.value .w)) → ∃ v, ∃ r : BitVec v,
    Builds rule widths port symbols .lhs rule.lhs r ∧ Builds rule widths port symbols .rhs rule.rhs r) :
  rule.Sound widths := by
 by_cases hones : widths.value .w ≤ 64
 · have heval : (WidthExpr.ones W).eval widths = some (2 ^ widths.value .w - 1) := by
    simp [WidthExpr.eval, eval_W, if_pos hones]
   apply sound_one h32 hvars (by rw [hrootWidth, value_name]) hroot
   intro port symbols p hw hp
   have hmask : Builds rule widths port symbols .rhs (number (.ones W)) _ := builds_number heval hw (widths.pos .w)
   rw [allOnes_eq] at hmask
   exact h port symbols p hp hmask
 · have heval : (WidthExpr.ones W).eval widths = none := by
    simp [WidthExpr.eval, eval_W, if_neg hones]
   have hwide : 64 < widths.value .w := not_le.1 hones
   have htable : (scalarOp kind).isSome = true := (Bool.and_eq_true _ _ ▸ hkind).1
   apply sound_of_unbuilt hroot hwide
   intro port
   refine .inr ?_
   rw [hrhs, realize_binary htable]
   simp [number, Rule.realize, heval]

theorem negMul_sound : negMul.Sound widths := by
 apply sound_ones h32 rfl rfl rfl rfl rfl
 intro port symbols p hp hmask
 have hmul := builds_op hmask (hp .rhs) rfl denotes_mul
 rw [← neg_eq_mul] at hmul
 exact ⟨_, _, builds_unary (hp .lhs) rfl denotes_neg, hmul⟩

theorem notSub_sound : notSub.Sound widths := by
 apply sound_ones h32 rfl rfl rfl rfl rfl
 intro port symbols p hp hmask
 have hsub := builds_op hmask (hp .rhs) rfl denotes_sub
 rw [allOnes_sub_eq_not] at hsub
 exact ⟨_, _, builds_unary (hp .lhs) rfl denotes_not, hsub⟩

theorem notSubOne_sound : notSubOne.Sound widths := by
 apply sound_one h32 rfl le_rfl rfl
 intro port symbols p hw hp
 have hzero : Builds notSubOne widths port symbols .rhs (number 0) (BitVec.ofNat _ 0) := builds_number rfl hw (widths.pos .w)
 have hone : Builds notSubOne widths port symbols .rhs (number 1) (BitVec.ofNat _ 1) := builds_number rfl hw (widths.pos .w)
 have hsub := builds_op (builds_op hzero (hp .rhs) rfl denotes_sub) hone rfl denotes_sub
 rw [← ofNat_eq_ofNat, ← ofNat_eq_ofNat, ← not_eq_sub_one] at hsub
 exact ⟨_, _, builds_unary (hp .lhs) rfl denotes_not, hsub⟩

theorem notXor_sound : notXor.Sound widths := by
 apply sound_ones h32 rfl rfl rfl rfl rfl
 intro port symbols p hp hmask
 have hxor := builds_op hmask (hp .rhs) rfl denotes_xor
 rw [← BitVec.not_def] at hxor
 exact ⟨_, _, builds_unary (hp .lhs) rfl denotes_not, hxor⟩

end Negation

/-! ## Truth values -/

/-- A rule that chooses by its own root holds of every root of one bit. -/
theorem rootChoice_sound (hrhs : rule.rhs = rootChoice) (hrootWidth : rule.registerWidth widths = 1) :
  rule.Sound widths := by
 intro port symbols htyped
 have hroot : rule.rhs.usesRoot = true := by
  rw [hrhs]
  rfl
 rw [Rule.Typed, hroot, hrootWidth] at htyped
 obtain ⟨⟨w, hpos, signed, bits⟩, hsymbol, hwid⟩ := htyped
 obtain rfl : w = 1 := hwid
 have hbit : Builds rule widths port symbols .rhs .root bits :=
  ⟨.symbol 0, rfl, hpos, signed, by rw [Term.eval, hsymbol]⟩
 have hword : Counts rule widths port symbols .rhs (const 1 1) 1 :=
  counts_of_builds (builds_const rfl rfl Nat.one_pos (by decide)) (by decide) (by decide)
 have htrue : Builds rule widths port symbols .rhs (.binary .zext (const 1 1) (const 1 1)) _ :=
  builds_extendsBy rfl (builds_const rfl rfl Nat.one_pos (by decide)) hword rfl (le_refl 1)
 have hfalse : Builds rule widths port symbols .rhs (.binary .zext (const 1 0) (const 1 1)) _ :=
  builds_extendsBy rfl (builds_const rfl rfl Nat.one_pos (by decide)) hword rfl (le_refl 1)
 obtain ⟨right, hright, hmeans⟩ := builds_ite hbit htrue hfalse
 have hchoice : (if bits.getLsbD 0 then extended .zext (BitVec.ofNat 1 1) 1 else extended .zext (BitVec.ofNat 1 0) 1) =
   bits := choice_eq bits
 rw [hchoice] at hmeans
 have hinstance : rule.proofInstance widths port = some (.symbol 0, right) := by
  rw [Rule.proofInstance, if_pos hroot, hrhs, rootChoice, hright]
  rfl
 rw [hinstance]
 exact refines_of_means ⟨hpos, signed, by rw [Term.eval, hsymbol]⟩ hmeans

theorem compareViaIf_sound (kind : SymKind) : (compareViaIf kind).Sound widths :=
 rootChoice_sound rfl rfl

theorem bitViaIf_sound (kind : SymKind) : (bitViaIf kind).Sound widths :=
 rootChoice_sound rfl rfl

section Complement

theorem builds_complement {x : Node} {side : Side} {c : Bool} (hx : Builds rule widths port symbols side x (ofBool c)) :
  Builds rule widths port symbols side (.binary .xor x (const 1 1)) (ofBool (!c)) := by
 rw [ofBool_not]
 exact builds_op hx (builds_const rfl rfl Nat.one_pos (by decide)) rfl denotes_xor

theorem eqViaCmp_sound (h32 : widths.value .w < 2 ^ 32) : eqViaCmp.Sound widths := by
 refine sound_two h32 rfl (widths.pos .w) rfl ?_
 intro port symbols p q hw hp hq
 have hone : Builds eqViaCmp widths port symbols .rhs (number 1) (BitVec.ofNat _ 1) := builds_number rfl hw (widths.pos .w)
 have hult := builds_op (builds_op (hp .rhs) (hq .rhs) rfl denotes_xor) hone rfl denotes_ult
 rw [← ofNat_eq_ofNat, ← eq_iff_xor_lt p q (widths.pos .w)] at hult
 exact ⟨_, _, builds_op (hp .lhs) (hq .lhs) rfl denotes_eq, hult⟩

theorem neViaCmp_sound (h32 : widths.value .w < 2 ^ 32) : neViaCmp.Sound widths := by
 refine sound_two h32 rfl (widths.pos .w) rfl ?_
 intro port symbols p q hw hp hq
 have hone : Builds neViaCmp widths port symbols .rhs (number 1) (BitVec.ofNat _ 1) := builds_number rfl hw (widths.pos .w)
 have hult := builds_op (builds_op (hp .rhs) (hq .rhs) rfl denotes_xor) hone rfl denotes_ult
 rw [← ofNat_eq_ofNat, ← eq_iff_xor_lt p q (widths.pos .w)] at hult
 exact ⟨_, _, builds_op (hp .lhs) (hq .lhs) rfl denotes_ne, builds_complement hult⟩

section

variable {kind other : SymKind} (hkind : compares kind = true) (hother : compares other = true) (h32 : widths.value .w < 2 ^ 32)

include hkind hother h32

theorem complement_sound (h : ∀ {w : Nat} (p q : BitVec w), compared kind p q = !compared other p q) :
  (complement kind other a b).Sound widths := by
 refine sound_two h32 rfl (widths.pos .w) rfl ?_
 intro port symbols p q hw hp hq
 have hnot := builds_complement (builds_compare hother (hp .rhs) (hq .rhs))
 rw [← h] at hnot
 exact ⟨_, _, builds_compare hkind (hp .lhs) (hq .lhs), hnot⟩

theorem complement_swap_sound (h : ∀ {w : Nat} (p q : BitVec w), compared kind p q = !compared other q p) :
  (complement kind other b a).Sound widths := by
 refine sound_two h32 rfl (widths.pos .w) rfl ?_
 intro port symbols p q hw hp hq
 have hnot := builds_complement (builds_compare hother (hq .rhs) (hp .rhs))
 rw [← h] at hnot
 exact ⟨_, _, builds_compare hkind (hp .lhs) (hq .lhs), hnot⟩

end

variable (h32 : widths.value .w < 2 ^ 32)

include h32

theorem geViaCmp_sound : geViaCmp.Sound widths :=
 complement_sound rfl rfl h32 fun _ _ => sle_eq_not_slt

theorem leViaCmp_sound : leViaCmp.Sound widths :=
 complement_swap_sound rfl rfl h32 fun _ _ => sle_eq_not_slt

theorem ugeViaCmp_sound : ugeViaCmp.Sound widths :=
 complement_sound rfl rfl h32 fun p q => ule_eq_not_ult q p

theorem uleViaCmp_sound : uleViaCmp.Sound widths :=
 complement_swap_sound rfl rfl h32 ule_eq_not_ult

end Complement

end Tir.Sem.Selection
