import Tir.Sem.SelectionFloat
import Tir.Sem.SelectionWiden

/-!
# Every selection axiom

The rules of `isel.pdl` hold at every width that a 16-bit constant holds, multiplication by four at one bit
aside.
-/

open Option List

namespace Tir.Sem.Selection

open Tir.Adt Tir.Lang

variable {widths : Widths}

/-- A width assignment that the guards of a rule admit. -/
def Rule.Admits (rule : Rule) (widths : Widths) : Prop :=
 rule.guards.all (Guard.holds widths) = true

theorem guard_of_admits {rule : Rule} {guard : Guard} (hadmits : rule.Admits widths) (hguards : rule.guards = [guard]) :
  guard.holds widths = true := by
 rw [Rule.Admits, hguards] at hadmits
 simpa using hadmits

theorem guards_of_admits {rule : Rule} {guard guard' : Guard} (hadmits : rule.Admits widths)
  (hguards : rule.guards = [guard, guard']) : guard.holds widths = true ∧ guard'.holds widths = true := by
 rw [Rule.Admits, hguards] at hadmits
 simpa using hadmits

/-- The widths that a tree extends to. -/
def Node.extensions : Node → List WidthExpr
 | .widthName name => [.name name]
 | .hole _ | .wildcard | .root | .const _ _ | .constMatch _ => []
 | .unary _ x => x.extensions
 | .binary kind x y => x.extensions ++
   match if Rule.extendsTo kind then y.immediate else none with
   | some width => [width]
   | none => y.extensions
 | .ternary _ x y z => x.extensions ++ y.extensions ++ z.extensions

/-- The widths a rule extends to are 16-bit constants. -/
def Rule.Fits (rule : Rule) (widths : Widths) : Prop :=
 ∀ e ∈ rule.lhs.extensions ++ rule.rhs.extensions, ∀ n, e.eval widths = some n → n < 2 ^ 16

theorem fits_w {rule : Rule} (hfits : rule.Fits widths) (hmem : W ∈ rule.lhs.extensions ++ rule.rhs.extensions) :
  widths.value .w < 2 ^ 16 :=
 hfits W hmem _ eval_W

/-- **Every selection axiom holds** at the widths that its guards admit and that its width constants hold. -/
theorem selection_sound (rule : Rule) (hrule : rule ∈ rules) (widths : Widths) (hadmits : rule.Admits widths)
  (hproof : ∀ name, widths.value name < 2 ^ 32) (hfits : rule.Fits widths)
  (hliteral : rule = mul4ToShl → widths.value .w ≠ 1) : rule.Sound widths := by
 have h32 := hproof .w
 simp only [rules, mem_cons, not_mem_nil, or_false] at hrule
 rcases hrule with rfl | rfl | rfl | rfl | rfl | rfl | rfl | rfl | rfl | rfl | rfl | rfl | rfl | rfl | rfl | rfl |
  rfl | rfl | rfl | rfl | rfl | rfl | rfl | rfl | rfl | rfl | rfl | rfl | rfl | rfl | rfl | rfl | rfl | rfl | rfl |
  rfl | rfl | rfl | rfl | rfl | rfl | rfl | rfl | rfl | rfl | rfl | rfl | rfl | rfl | rfl | rfl | rfl | rfl | rfl |
  rfl | rfl | rfl | rfl | rfl | rfl | rfl | rfl | rfl | rfl | rfl | rfl | rfl | rfl | rfl | rfl | rfl | rfl | rfl |
  rfl | rfl | rfl | rfl | rfl | rfl | rfl | rfl | rfl | rfl | rfl | rfl | rfl | rfl | rfl | rfl | rfl | rfl | rfl |
  rfl | rfl | rfl | rfl
 · exact mulConstants_sound h32
 · exact mulOne_sound h32
 · exact mulZero_sound h32
 · exact andZero_sound h32
 · exact orZero_sound h32
 · exact sextBridge_sound (fits_w hfits (.head _)) (guard_of_admits hadmits rfl)
 · exact zextMask_sound (fits_w hfits (.head _)) (guard_of_admits hadmits rfl)
 · exact zextShifts_sound (fits_w hfits (.head _)) (guard_of_admits hadmits rfl)
 · exact zextZero_sound (fits_w hfits (.head _))
 · exact zextZext32_sound (fits_w hfits (.head _)) (guards_of_admits hadmits rfl)
 · exact sextSext32_sound (fits_w hfits (.head _)) (guards_of_admits hadmits rfl)
 · exact sextZext32_sound (fits_w hfits (.head _)) (guards_of_admits hadmits rfl)
 · exact ifSame_sound h32
 · exact ifThenCondition_sound
 · exact ifElseCondition_sound
 · exact thetaSame_sound h32
 · exact freezeCopy_sound h32
 · exact compareZero_sound (fits_w hfits (.head _)) rfl
 · exact compareZero_sound (fits_w hfits (.head _)) rfl
 iterate 8
  · exact compareZero_sound (fits_w hfits (.head _)) rfl
  · exact zeroCompare_sound (fits_w hfits (.head _)) rfl
 · exact negSub_sound h32
 · exact negMul_sound h32
 · exact notSub_sound h32
 · exact notSubOne_sound h32
 · exact notXor_sound h32
 · exact compareViaIf_sound .eq
 · exact compareViaIf_sound .ne
 · exact compareViaIf_sound .lt
 · exact compareViaIf_sound .le
 · exact compareViaIf_sound .gt
 · exact compareViaIf_sound .ge
 · exact compareViaIf_sound .ult
 · exact compareViaIf_sound .ule
 · exact compareViaIf_sound .ugt
 · exact compareViaIf_sound .uge
 · exact bitViaIf_sound .and
 · exact bitViaIf_sound .xor
 · exact eqViaCmp_sound h32
 · exact neViaCmp_sound h32
 · exact geViaCmp_sound h32
 · exact leViaCmp_sound h32
 · exact ugeViaCmp_sound h32
 · exact uleViaCmp_sound h32
 · exact mul2ToShl_sound h32
 · exact mul4ToShl_sound h32 (hliteral rfl)
 · exact mul8ToShl_sound h32
 iterate 4
  · exact compareWiden_sound rfl rfl rfl (by decide) (compared_zext (by decide)) (guard_of_admits hadmits rfl)
 iterate 8
  · exact compareWiden_sound rfl rfl rfl (by decide) (compared_sext (by decide)) (guard_of_admits hadmits rfl)
 iterate 8
  · exact compareWiden_sound rfl rfl rfl (by decide) (compared_zext (by decide)) (guard_of_admits hadmits rfl)
 · exact lshrWiden32_sound (guard_of_admits hadmits rfl)
 · exact ashrWiden32_sound (guard_of_admits hadmits rfl)
 · exact udivWiden32_sound (guard_of_admits hadmits rfl)
 · exact uremWiden32_sound (guard_of_admits hadmits rfl)
 · exact divWiden32_sound (guard_of_admits hadmits rfl)
 · exact sremWiden32_sound (guard_of_admits hadmits rfl)
 · exact uitofp32ViaSitofp_sound (guard_of_admits hadmits rfl)
 · exact uitofpViaSitofp_sound (guard_of_admits hadmits rfl)
 · exact fptoui32ViaFptosi_sound
 · exact fptouiViaFptosi_sound
 · exact selectMaskToIf_sound (fits_w hfits (.head _))
 · exact constantMaskBlend_sound h32
 · exact sextBoolLowBit_sound (fits_w hfits (.head _)) (guard_of_admits hadmits rfl)
 · exact lowByteXor_sound h32 (.inl rfl) (guard_of_admits hadmits rfl)
 · exact lowByteXor_sound h32 (.inr rfl) (guard_of_admits hadmits rfl)

/-- A byte in a register of 32 bits. -/
def byteInWord : Widths where
 value name := if name = .narrow then 8 else 32
 pos name := by split <;> decide
 lt name := by split <;> decide

theorem selection_sound_sextBridge : sextBridge.Sound byteInWord :=
 selection_sound sextBridge (by simp [rules]) byteInWord rfl (fun name => by cases name <;> decide) (by
  intro e he n hn
  obtain rfl := mem_singleton.1 he
  cases hn
  decide) fun _ => by decide

def uniform (n : Nat) (hpos : 0 < n) (hlt : n < 2 ^ 63) : Widths :=
 ⟨fun _ => n, fun _ => hpos, fun _ => hlt⟩

/-- Four is no number of one bit, 65536 is no width of 16 bits, and a proof cuts widths to 32 bits. -/
theorem selection_limits : (mul4ToShl ∈ rules ∧ mul4ToShl.Admits (uniform 1 (by decide) (by decide)) ∧
   ¬ mul4ToShl.Sound (uniform 1 (by decide) (by decide))) ∧
  (zextZero ∈ rules ∧ zextZero.Admits (uniform 65536 (by decide) (by decide)) ∧
   ¬ zextZero.Sound (uniform 65536 (by decide) (by decide))) ∧
  (lowByteXorEq ∈ rules ∧ lowByteXorEq.Admits (uniform (2 ^ 32 + 4) (by decide) (by decide)) ∧
   ¬ lowByteXorEq.Sound (uniform (2 ^ 32 + 4) (by decide) (by decide))) := by
 refine ⟨⟨by simp [rules], by rfl, fun h => ?_⟩, ⟨by simp [rules], by rfl, fun h => ?_⟩, by simp [rules], by rfl, fun h => ?_⟩
 · have htyped : mul4ToShl.Typed (uniform 1 (by decide) (by decide)) fun _ => .int ⟨1, by decide, false, 1⟩ := by
    intro i binder hbinder
    cases i with
    | zero =>
     cases hbinder
     exact ⟨_, rfl, rfl⟩
    | succ i => nomatch hbinder
   -- the product with zero, and the value shifted by zero
   rcases h .init _ htyped with hpoison | ⟨v, v', hv, hv', hsame⟩
   · nomatch hpoison
   · obtain rfl : v = .int ⟨1, by decide, false, 0⟩ := some.inj (hv.symm.trans (by decide))
     obtain rfl : v' = .int ⟨1, by decide, false, 1⟩ := some.inj (hv'.symm.trans (by decide))
     nomatch hsame.2
 · have htyped : zextZero.Typed (uniform 65536 (by decide) (by decide)) fun _ => .poison := by
    intro i binder hbinder
    nomatch hbinder
   rcases h .init _ htyped with hpoison | ⟨v, v', hv, -⟩
   · nomatch hpoison
   · exact absurd (hv.symm.trans (rfl : _ = none)) nofun
 · have htyped : lowByteXorEq.Typed (uniform (2 ^ 32 + 4) (by decide) (by decide)) fun _ => .int ⟨4, by decide, false, 0⟩ := by
    intro i binder hbinder
    match i with
    | 0 | 1 =>
     cases hbinder
     exact ⟨_, rfl, rfl⟩
    | i + 2 => nomatch hbinder
   -- no byte is cut of four bits
   rcases h .init _ htyped with hpoison | ⟨v, v', -, hv', -⟩
   · nomatch hpoison
   · exact absurd (hv'.symm.trans (rfl : _ = none)) nofun

end Tir.Sem.Selection
