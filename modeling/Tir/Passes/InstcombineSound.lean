import Tir.Basic.LowBits
import Tir.Passes.Instcombine
import Mathlib.Tactic.Ring
import Mathlib.Tactic.Positivity

/-!
# The integer rules of instcombine preserve meaning

A pattern matches code that means what the pattern says of its binders (`Matches.eval`), and a
replacement is built from its parts (`Builds.operation`, `Builds.literal`). A rule is then sound when
its two sides are one function of the bit vectors its binders stand for (`Rule.sound_of`). What the
guards say of a literal is read off its bits: a literal with every bit set is all ones, one with a
single bit set is a power of two.
-/

open List BitVec

namespace Tir.Passes.Pdl

open Tir.Adt

variable {w : Nat} {env : Env w}

/-! ## Patterns -/

/-- What a pattern says, a function of its binders. -/
def Term.denote (env : Env w) : Term → BitVec w
 | .operation operator lhs rhs => operator.eval (lhs.denote env) (rhs.denote env)
 | .binder name _ => env.value name
 | .value literal => BitVec.ofInt w literal
 | .constant _ _ => 0

/-- What the declared types of a pattern's binders say. -/
def Term.Bound (env : Env w) : Term → Prop
 | .operation _ lhs rhs => lhs.Bound env ∧ rhs.Bound env
 | .binder name ty => match ty with
   | none => True
   | some (.int width) => env.widths width = w
   | some .const => (env.constants name).Of w ∧ env.value name = BitVec.ofNat w (env.constants name).value
 | .value _ => True
 | .constant _ _ => True

variable {constant : Constant} {t : Term}

/-- An accepted number is the literal modulo the width. -/
theorem ofNat_of_accepts (hle : w ≤ 64) {literal : Int} (hof : constant.Of w)
  (haccepts : acceptsLiteral literal constant) : BitVec.ofNat w constant.value = BitVec.ofInt w literal := by
 obtain ⟨mask, hmask, hval⟩ := haccepts
 obtain ⟨rfl, hlt⟩ := hof
 rw [ones, if_pos hle] at hmask
 cases hmask
 have hcut := congrArg (BitVec.setWidth constant.width) hval
 rw [setWidth_and, setWidth_ofNat_of_le hle, setWidth_ofNat_of_le hle] at hcut
 have hall : BitVec.ofNat constant.width (2 ^ constant.width - 1) = BitVec.allOnes constant.width := by
  apply eq_of_toNat_eq
  grind
 rw [hcut, hall, and_allOnes, LowBits.setWidth_ofInt hle]

theorem Term.Matches.bound {code : Code} (h : t.Matches env code) : t.Bound env := by
 induction t generalizing code with
 | operation operator lhs rhs ihl ihr =>
  obtain ⟨left, right, hl, hr, -⟩ := h
  exact ⟨ihl hl, ihr hr⟩
 | binder name ty => exact h.2
 | value _ => trivial
 | constant _ _ => trivial

/-- Matched code means what the pattern says. -/
theorem Term.Matches.eval (hle : w ≤ 64) {code : Code} (h : t.Matches env code) :
  code.eval env = some (t.denote env) := by
 induction t generalizing code with
 | operation operator lhs rhs ihl ihr =>
  obtain ⟨left, right, hl, hr, rfl⟩ := h
  rw [Code.eval, ihl hl, ihr hr]
  rfl
 | binder name ty =>
  obtain ⟨rfl, -⟩ := h
  rfl
 | value literal =>
  obtain ⟨constant, hof, haccepts, rfl⟩ := h
  rw [Code.eval, if_pos hof.1, ofNat_of_accepts hle hof haccepts]
  rfl
 | constant _ _ => nomatch h

/-! ## Replacements -/

/-- A replacement is built, means `value` and runs. -/
def Builds (scope : Scope) (env : Env w) (t : Term) (value : BitVec w) : Prop :=
 ∃ built, t.build scope = some built ∧ built.eval env = some value ∧ built.Runs env

section Replacements

variable {scope : Scope}

theorem Builds.binder {name : String} {ty : Option BindingType} (hin : name ∈ scope.binders) :
  Builds scope env (.binder name ty) (env.value name) :=
 ⟨.binder name, by rw [Term.build, if_pos hin], rfl, trivial⟩

theorem Builds.operation {operator : Operation} {lhs rhs : Term} {a b : BitVec w} (hl : Builds scope env lhs a)
  (hr : Builds scope env rhs b) (hruns : operator.Runs a b) :
  Builds scope env (.operation operator lhs rhs) (operator.eval a b) := by
 obtain ⟨left, hleft, ha, hruns_left⟩ := hl
 obtain ⟨right, hright, hb, hruns_right⟩ := hr
 refine ⟨.operation operator left right, ?_, ?_, hruns_left, hruns_right, a, b, ha, hb, hruns⟩
 · rw [Term.build, hleft, hright]
   rfl
 · rw [Code.eval, ha, hb]
   rfl

theorem asI64_of_lt {n : Nat} (hlt : n < 2 ^ 63) : asI64 n = n := by
 have hmod : n % 2 ^ 64 = n := Nat.mod_eq_of_lt (by omega)
 rw [asI64, toInt_eq_toNat_of_lt, toNat_ofNat, hmod]
 grind

theorem asI64_of_le {n : Nat} (hle : n ≤ 64) : asI64 n = n :=
 asI64_of_lt (by omega)

/-- A literal at the named width is its value modulo the width. -/
theorem Builds.literal {number : Expr} {literal : APInt} (hpos : 1 ≤ w) (hle : w ≤ 64) (hout : "W" ∉ scope.binders)
  (hwid : scope.widths "W" = w) (hnum : number.modular scope w = some literal) :
  Builds scope env (Rules.constant number) (BitVec.ofNat w literal.toU64) := by
 have hread : (Expr.name "W").number scope = some (w : Int) := by
  rw [Expr.number, if_neg hout, hwid, asI64_of_le hle]
 refine ⟨.konst w literal.toU64, ?_, ?_, trivial⟩
 · have hboth : (1 : Int) ≤ w ∧ (w : Int) ≤ 64 := by omega
   rw [Rules.constant, Term.build, hread]
   grind
 · rw [Code.eval, if_pos rfl]

/-- A number that is no sum, difference or product is cut to the width. -/
theorem Builds.number {number : Expr} {value : Int} (hpos : 1 ≤ w) (hle : w ≤ 64) (hout : "W" ∉ scope.binders)
  (hwid : scope.widths "W" = w) (hmodular : number.modular scope w = do
   let value ← number.number scope
   APInt.new w (BitVec.ofInt 64 value).toNat) (hnum : number.number scope = some value) :
  Builds scope env (Rules.constant number) (BitVec.ofInt w value) := by
 have hliteral : number.modular scope w = some ⟨w, hpos, false, BitVec.ofNat w (BitVec.ofInt 64 value).toNat⟩ := by
  rw [hmodular, hnum]
  show APInt.new w _ = _
  rw [APInt.new, dif_pos (Nat.one_pos.trans_le hpos)]
 have hbuilds : Builds scope env (Rules.constant number) _ := Builds.literal hpos hle hout hwid hliteral
 have hval : BitVec.ofNat w (APInt.toU64 ⟨w, hpos, false, BitVec.ofNat w (BitVec.ofInt 64 value).toNat⟩) =
   BitVec.ofInt w value := by
  rw [← LowBits.setWidth_ofInt hle value]
  apply eq_of_toNat_eq
  have hdvd : 2 ^ w ∣ 2 ^ 64 := Nat.pow_dvd_pow 2 hle
  rw [APInt.toU64, toNat_ofNat, toNat_ofNat, toNat_setWidth, Nat.mod_mod_of_dvd _ hdvd,
   Nat.mod_mod]
 rwa [hval] at hbuilds

end Replacements

/-! ## Rules -/

/-- A rule is sound when its replacement is built to mean what its pattern says. -/
theorem Rule.sound_of {rule : Rule} (h : ∀ w, 1 ≤ w → w ≤ 64 → ∀ env : Env w, rule.lhs.Bound env →
  (∀ guard ∈ rule.guards, guard.boolean (rule.scope env) = some true) →
  Builds (rule.scope env) env rule.rhs (rule.lhs.denote env)) : rule.Sound := by
 intro w hpos hle env code hmatch hguards
 obtain ⟨built, hbuild, hval, hruns⟩ := h w hpos hle env hmatch.bound hguards
 exact ⟨built, hbuild, ⟨_, hmatch.eval hle, hval⟩, fun _ => hruns⟩

/-- Whether a binder of the pattern names the width. -/
def Term.declares (width : String) : Term → Bool
 | .operation _ lhs rhs => lhs.declares width || rhs.declares width
 | .binder _ ty => ty == some (.int width)
 | .value _ => false
 | .constant _ _ => false

theorem Term.Bound.width {width : String} (h : t.Bound env) (hdecls : t.declares width = true) :
  env.widths width = w := by
 induction t with
 | operation operator lhs rhs ihl ihr =>
  rcases Bool.or_eq_true_iff.1 hdecls with hl | hr
  · exact ihl h.1 hl
  · exact ihr h.2 hr
 | binder name ty =>
  obtain rfl := beq_iff_eq.1 hdecls
  exact h
 | value _ => nomatch hdecls
 | constant _ _ => nomatch hdecls

section Shapes

variable {lhs : Term} {guards : List Expr}

/-- What a rule may assume of a match. -/
def Assumed (rule : Rule) (env : Env w) : Prop :=
 rule.lhs.Bound env ∧ ∀ guard ∈ rule.guards, guard.boolean (rule.scope env) = some true

variable {ty : Option BindingType}

/-- A pattern that says a binder. -/
theorem sound_of_binder {name : String} (hin : name ∈ lhs.binders)
  (h : ∀ w, 1 ≤ w → w ≤ 64 → ∀ env : Env w, Assumed ⟨lhs, .binder name ty, guards⟩ env →
   lhs.denote env = env.value name) : Rule.Sound ⟨lhs, .binder name ty, guards⟩ := by
 apply Rule.sound_of
 intro w hpos hle env hbound hguards
 rw [h w hpos hle env ⟨hbound, hguards⟩]
 exact Builds.binder hin

section

variable {scope : Scope} (hpos : 1 ≤ w) (hle : w ≤ 64) (hout : "W" ∉ scope.binders) (hwid : scope.widths "W" = w)

include hpos hle hout hwid

/-- The numbers the rules spell without a constant. -/
theorem Builds.integer {value : Int} : Builds scope env (Rules.constant (.integer value)) (BitVec.ofInt w value) :=
 Builds.number hpos hle hout hwid rfl rfl

theorem Builds.minusOne
  : Builds scope env (Rules.constant Rules.minusOne) (BitVec.allOnes w) := by
 have hbuilds : Builds scope env (Rules.constant Rules.minusOne) (BitVec.ofInt w (-1)) :=
  Builds.number hpos hle hout hwid rfl rfl
 have hval : BitVec.ofInt w (-1) = BitVec.allOnes w := by
  rw [← neg_one_eq_allOnes, ofInt_neg]
  rfl
 rwa [hval] at hbuilds

end

section

variable (hdecls : lhs.declares "W" = true) (hout : "W" ∉ lhs.binders)

include hdecls hout

theorem sound_of_zero (h : ∀ w, 1 ≤ w → w ≤ 64 → ∀ env : Env w, Assumed ⟨lhs, Rules.constant (.integer 0), guards⟩ env →
   lhs.denote env = 0) : Rule.Sound ⟨lhs, Rules.constant (.integer 0), guards⟩ := by
 apply Rule.sound_of
 intro w hpos hle env hbound hguards
 rw [h w hpos hle env ⟨hbound, hguards⟩]
 exact Builds.integer hpos hle hout (hbound.width hdecls)

theorem sound_of_allOnes
  (h : ∀ w, 1 ≤ w → w ≤ 64 → ∀ env : Env w, Assumed ⟨lhs, Rules.constant Rules.minusOne, guards⟩ env →
   lhs.denote env = BitVec.allOnes w) : Rule.Sound ⟨lhs, Rules.constant Rules.minusOne, guards⟩ := by
 apply Rule.sound_of
 intro w hpos hle env hbound hguards
 rw [h w hpos hle env ⟨hbound, hguards⟩]
 exact Builds.minusOne hpos hle hout (hbound.width hdecls)

end

/-- A pattern that says an operation on two binders. -/
theorem sound_of_operation {operator : Operation} {first second : String} {ty' : Option BindingType}
  (hfst : first ∈ lhs.binders) (hsnd : second ∈ lhs.binders)
  (hruns : ∀ (w : Nat) (a b : BitVec w), operator.Runs a b)
  (h : ∀ (w : Nat) (env : Env w), lhs.denote env = operator.eval (env.value first) (env.value second)) :
  Rule.Sound ⟨lhs, .operation operator (.binder first ty) (.binder second ty'), guards⟩ := by
 apply Rule.sound_of
 intro w _ _ env _ _
 rw [h]
 exact Builds.operation (Builds.binder hfst) (Builds.binder hsnd) (hruns w _ _)

/-- A pattern that says the negation of a binder. -/
theorem sound_of_negation {name : String} (hin : name ∈ lhs.binders)
  (hdecls : lhs.declares "W" = true) (hout : "W" ∉ lhs.binders) (h : ∀ w, 1 ≤ w → w ≤ 64 → ∀ env : Env w,
   Assumed ⟨lhs, Rules.subi (Rules.constant (.integer 0)) (.binder name ty), guards⟩ env →
   lhs.denote env = 0 - env.value name) :
  Rule.Sound ⟨lhs, Rules.subi (Rules.constant (.integer 0)) (.binder name ty), guards⟩ := by
 apply Rule.sound_of
 intro w hpos hle env hbound hguards
 rw [h w hpos hle env ⟨hbound, hguards⟩]
 have hzero : Builds (Rule.scope ⟨lhs, Rules.subi (Rules.constant (.integer 0)) (.binder name ty), guards⟩ env) env
   (Rules.constant (.integer 0)) (BitVec.ofInt w 0) :=
  Builds.integer hpos hle hout (hbound.width hdecls)
 have hruns : Operation.subi.Runs (BitVec.ofInt w 0) (env.value name) := trivial
 exact hzero.operation (Builds.binder hin) hruns

end Shapes

/-! ## Literals -/

theorem Constant.Of.read (h : constant.Of w) (hpos : 1 ≤ w) :
  constant.read = some ⟨w, hpos, false, BitVec.ofNat w constant.value⟩ := by
 obtain ⟨rfl, -⟩ := h
 rw [Constant.read, APInt.new, dif_pos (Nat.one_pos.trans_le hpos)]

/-- Every bit is set where as many are as there are. -/
theorem eq_allOnes_of_countOnes {a : APInt} (h : countOnes a = a.width) : a.bits = BitVec.allOnes a.width := by
 have hall : (List.range a.width).countP a.bits.getLsbD = (List.range a.width).length := by
  rw [length_range]
  exact h
 apply eq_of_getLsbD_eq
 intro i hi
 rw [countP_eq_length.1 hall i (mem_range.2 hi), getLsbD_allOnes, decide_eq_true hi]

/-- One set bit is a power of two, at the lowest set bit. -/
theorem eq_twoPow_of_countOnes {a : APInt} (h : countOnes a = 1) : countTrailingZeros a < a.width ∧
  a.bits = BitVec.twoPow a.width (countTrailingZeros a) := by
 obtain ⟨i, hi, hset⟩ : ∃ i ∈ List.range a.width, a.bits.getLsbD i = true := by
  rw [← countP_pos_iff]
  exact Nat.lt_of_lt_of_eq Nat.one_pos h.symm
 have hlt : (List.range a.width).findIdx a.bits.getLsbD < (List.range a.width).length :=
  findIdx_lt_length_of_exists ⟨i, hi, hset⟩
 have hlow : a.bits.getLsbD (countTrailingZeros a) = true := by
  have hfound := findIdx_getElem (w := hlt)
  rw [getElem_range] at hfound
  exact hfound
 rw [length_range] at hlt
 change countTrailingZeros a < a.width at hlt
 refine ⟨hlt, ?_⟩
 apply eq_of_getLsbD_eq
 intro j hj
 rw [getLsbD_twoPow, decide_eq_true hlt, Bool.true_and]
 by_cases heq : countTrailingZeros a = j
 · rw [decide_eq_true heq, ← heq, hlow]
 · rw [decide_eq_false heq]
   by_contra hother
   rw [Bool.not_eq_false] at hother
   -- two set bits are counted twice
   have hnd : [countTrailingZeros a, j].Nodup := by simp [heq]
   have hsub : [countTrailingZeros a, j] ⊆ (List.range a.width).filter a.bits.getLsbD := by
    simp [hlt, hj, hlow, hother]
   have hle := (subperm_of_subset hnd hsub).length_le
   rw [← countP_eq_length_filter] at hle
   have htwo : 2 ≤ countOnes a := hle
   omega

/-- A literal a modular expression names is its constant, at the width. -/
theorem modular_name {scope : Scope} {name : String} (hpos : 1 ≤ w) (hle : w ≤ 64) (hin : name ∈ scope.binders)
  (hof : (scope.constants name).Of w) : (Expr.name name).modular scope w =
   some ⟨w, hpos, false, BitVec.ofNat w (scope.constants name).value⟩ := by
 have hpow : 2 ^ w ≤ 2 ^ 64 := Nat.pow_le_pow_right (by decide) hle
 have hword : (BitVec.ofNat w (scope.constants name).value).toNat % 2 ^ 64 = (scope.constants name).value := by
  rw [toNat_ofNat, Nat.mod_eq_of_lt hof.2, Nat.mod_eq_of_lt (hof.2.trans_le hpow)]
 have hnum : (Expr.name name).number scope = some (asI64 (scope.constants name).value) := by
  rw [Expr.number, if_pos hin, hof.read hpos, Option.map_some, APInt.toU64, hword]
 have hbits : (BitVec.ofInt 64 (asI64 (scope.constants name).value)).toNat = (scope.constants name).value := by
  rw [asI64, ofInt_toInt, toNat_ofNat, Nat.mod_eq_of_lt (hof.2.trans_le hpow)]
 rw [Expr.modular, hnum]
 · show APInt.new w (BitVec.ofInt 64 _).toNat = _
   rw [hbits, APInt.new, dif_pos (Nat.one_pos.trans_le hpos)]
 · exact fun _ _ => nofun
 · exact fun _ _ => nofun
 · exact fun _ _ => nofun

/-! ## Guards on a literal -/

section Guards

variable {scope : Scope} {constant : Constant}

theorem countOnes_of_guard {a : APInt} {value : Expr} {n : Nat} (hread : (scope.constants "c").read = some a)
  (hval : value.number scope = some (n : Int)) (hguard : (Rules.popcountIs value).boolean scope = some true) :
  countOnes a = n := by
 have hcnt : (Expr.call .popcount "c").number scope = some (countOnes a : Int) := by
  rw [Expr.number, hread]
  rfl
 rw [Rules.popcountIs, Expr.boolean, hcnt, hval] at hguard
 grind

/-- A literal with as many bits set as its width is all ones. -/
theorem eq_allOnes_of_guard {bits : BitVec w} (hpos : 1 ≤ w) (hle : w ≤ 64) (hout : "W" ∉ scope.binders)
  (hwid : scope.widths "W" = w) (hof : (scope.constants "c").Of w)
  (hbits : bits = BitVec.ofNat w (scope.constants "c").value)
  (hguard : (Rules.popcountIs (.name "W")).boolean scope = some true) : bits = BitVec.allOnes w := by
 have hnum : (Expr.name "W").number scope = some (w : Int) := by
  rw [Expr.number, if_neg hout, hwid, asI64_of_le hle]
 have hcnt := countOnes_of_guard (hof.read hpos) hnum hguard
 rw [hbits]
 exact eq_allOnes_of_countOnes hcnt

/-- A literal that is wide as a host word is no shift below the width. -/
theorem le_of_isWide (hpos : 1 ≤ w) (hle : w ≤ 64) (hin : "c" ∈ scope.binders) (hout : "W" ∉ scope.binders)
  (hwid : scope.widths "W" = w) (hof : (scope.constants "c").Of w)
  (hguard : Rules.isWide.boolean scope = some true) : w ≤ (scope.constants "c").value := by
 have hwide : (Expr.name "W").number scope = some (w : Int) := by
  rw [Expr.number, if_neg hout, hwid, asI64_of_le hle]
 have hread := hof.read hpos
 have hnum : (Expr.name "c").number scope = some (asI64 (scope.constants "c").value) := by
  rw [Expr.number, if_pos hin, hread]
  have hpow : 2 ^ w ≤ 2 ^ 64 := Nat.pow_le_pow_right (by decide) hle
  show some (asI64 ((BitVec.ofNat w (scope.constants "c").value).toNat % 2 ^ 64)) = _
  rw [toNat_ofNat, Nat.mod_eq_of_lt hof.2, Nat.mod_eq_of_lt (hof.2.trans_le hpow)]
 by_contra hsmall
 rw [asI64_of_le (by omega)] at hnum
 have hneg : (Expr.binary .less (.name "c") (.integer 0)).boolean scope = some false := by
  rw [Expr.boolean, hnum]
  show some (decide (((scope.constants "c").value : Int) < 0)) = some false
  rw [decide_eq_false (by omega)]
 have hless : (Expr.binary .greaterEqual (.name "c") (.name "W")).boolean scope = some false := by
  rw [Expr.boolean, hnum, hwide]
  grind
 rw [Rules.isWide, Expr.boolean, hneg] at hguard
 grind

variable {rule : Rule} (hassumed : Assumed rule env) (hpos : 1 ≤ w) (hle : w ≤ 64)

include hassumed hpos hle

/-- The literal of a rule that counts its bits is all ones. -/
theorem Assumed.allOnes (hguard : Rules.popcountIs (.name "W") ∈ rule.guards) (hdecls : rule.lhs.declares "W" = true)
  (hout : "W" ∉ rule.lhs.binders) (hof : (env.constants "c").Of w)
  (hval : env.value "c" = BitVec.ofNat w (env.constants "c").value) : env.value "c" = BitVec.allOnes w := by
 have hscope : (rule.scope env).widths "W" = w := hassumed.1.width hdecls
 have hconst : ((rule.scope env).constants "c").Of w := hof
 exact eq_allOnes_of_guard hpos hle hout hscope hconst hval (hassumed.2 _ hguard)

/-- The literal of a rule for wide shifts is no amount below the width. -/
theorem Assumed.wide
  (hguard : Rules.isWide ∈ rule.guards) (hdecls : rule.lhs.declares "W" = true) (hin : "c" ∈ rule.lhs.binders)
  (hout : "W" ∉ rule.lhs.binders) (hof : (env.constants "c").Of w)
  (hval : env.value "c" = BitVec.ofNat w (env.constants "c").value) : w ≤ (env.value "c").toNat := by
 have hscope : (rule.scope env).widths "W" = w := hassumed.1.width hdecls
 have hconst : ((rule.scope env).constants "c").Of w := hof
 have hle := le_of_isWide hpos hle hin hout hscope hconst (hassumed.2 _ hguard)
 rw [hval, toNat_ofNat, Nat.mod_eq_of_lt hof.2]
 exact hle

end Guards

/-! ## Integer rules -/

namespace Rules

theorem mulOne_sound : mulOne.Sound := by
 apply sound_of_binder (by decide)
 intro w _ _ env _
 show env.value "x" * BitVec.ofInt w 1 = env.value "x"
 exact BitVec.mul_one _

theorem mulZero_sound : mulZero.Sound := by
 apply sound_of_zero (by decide) (by decide)
 intro w _ _ env _
 show env.value "x" * BitVec.ofInt w 0 = 0
 exact mul_zero

/-- A literal with one bit set is a power of two: multiplying by it shifts by where the bit stands. -/
theorem mulPow2ToShl_sound : mulPow2ToShl.Sound := by
 apply Rule.sound_of
 intro w hpos hle env hbound hguards
 obtain ⟨hwid, hof, hval⟩ := hbound
 have hread := hof.read hpos
 have hcnt := countOnes_of_guard (n := 1) hread rfl (hguards _ (.head _))
 obtain ⟨hlt, hpower⟩ := eq_twoPow_of_countOnes hcnt
 rw [← hval] at hlt hpower
 generalize hshift : countTrailingZeros ⟨w, hpos, false, env.value "c"⟩ = shift at hlt hpower
 simp only at hlt hpower
 have hnum : (Expr.call .ctz "c").number (mulPow2ToShl.scope env) = some (shift : Int) := by
  rw [Expr.number]
  show (env.constants "c").read.map _ = _
  rw [hread, ← hval, Option.map_some]
  show some ((countTrailingZeros _ : Nat) : Int) = _
  rw [hshift]
 have hin : "x" ∈ mulPow2ToShl.lhs.binders := by decide
 have hout : "W" ∉ mulPow2ToShl.lhs.binders := by decide
 have hamount : (BitVec.ofInt w (shift : Int)).toNat = shift := by
  have hpow : w < 2 ^ w := Nat.lt_two_pow_self
  grind
 have hx : Builds (mulPow2ToShl.scope env) env x (env.value "x") := Builds.binder hin
 have hliteral : Builds (mulPow2ToShl.scope env) env (constant (.call .ctz "c")) (BitVec.ofInt w (shift : Int)) :=
  Builds.number hpos hle hout hwid rfl hnum
 have hruns : Operation.shli.Runs (env.value "x") (BitVec.ofInt w (shift : Int)) := by
  rw [Operation.Runs, hamount]
  exact hlt
 have hbuilds := hx.operation hliteral hruns
 have hsame : mulPow2ToShl.lhs.denote env = env.value "x" <<< shift := by
  show env.value "x" * env.value "c" = _
  rw [hpower, mul_twoPow_eq_shiftLeft]
 rw [hsame]
 rw [Operation.eval, hamount] at hbuilds
 exact hbuilds

theorem subSelf_sound : subSelf.Sound := by
 apply sound_of_zero (by decide) (by decide)
 intro w _ _ env _
 show env.value "x" - env.value "x" = 0
 exact BitVec.sub_self _

theorem subAddCancel_sound : subAddCancel.Sound := by
 apply sound_of_binder (by decide)
 intro w _ _ env _
 show env.value "x" + env.value "y" - env.value "y" = env.value "x"
 ring

theorem addSubCancel_sound : addSubCancel.Sound := by
 apply sound_of_binder (by decide)
 intro w _ _ env _
 show env.value "x" - env.value "y" + env.value "y" = env.value "x"
 ring

theorem subSubCancel_sound : subSubCancel.Sound := by
 apply sound_of_binder (by decide)
 intro w _ _ env _
 show env.value "x" - (env.value "x" - env.value "y") = env.value "y"
 ring

theorem addSubTelescope_sound : addSubTelescope.Sound := by
 apply sound_of_operation (by decide) (by decide)
 · exact fun _ _ _ => trivial
 · intro w env
   show env.value "x" - env.value "y" + (env.value "y" - env.value "z") = env.value "x" - env.value "z"
   ring

theorem subAddNegateRight_sound : subAddNegateRight.Sound := by
 apply sound_of_negation (by decide) (by decide) (by decide)
 intro w _ _ env _
 show env.value "x" - (env.value "x" + env.value "y") = 0 - env.value "y"
 ring

theorem subSubLeft_sound : subSubLeft.Sound := by
 apply sound_of_negation (by decide) (by decide) (by decide)
 intro w _ _ env _
 show env.value "x" - env.value "y" - env.value "x" = 0 - env.value "y"
 ring

theorem subCommonLeft_sound : subCommonLeft.Sound := by
 apply sound_of_operation (by decide) (by decide)
 · exact fun _ _ _ => trivial
 · intro w env
   show env.value "x" - env.value "y" - (env.value "x" - env.value "z") = env.value "z" - env.value "y"
   ring

theorem subCommonRight_sound : subCommonRight.Sound := by
 apply sound_of_operation (by decide) (by decide)
 · exact fun _ _ _ => trivial
 · intro w env
   show env.value "x" - env.value "y" - (env.value "z" - env.value "y") = env.value "x" - env.value "z"
   ring

theorem subAddCommonLeft_sound : subAddCommonLeft.Sound := by
 apply sound_of_operation (by decide) (by decide)
 · exact fun _ _ _ => trivial
 · intro w env
   show env.value "x" + env.value "y" - (env.value "x" + env.value "z") = env.value "y" - env.value "z"
   ring

theorem addAddSubCancel_sound : addAddSubCancel.Sound := by
 apply sound_of_operation (by decide) (by decide)
 · exact fun _ _ _ => trivial
 · intro w env
   show env.value "x" + env.value "y" + (env.value "z" - env.value "y") = env.value "x" + env.value "z"
   ring

theorem mulConstReassociate_sound : mulConstReassociate.Sound := by
 apply Rule.sound_of
 intro w hpos hle env hbound _
 obtain ⟨⟨hwid, hofa, ha⟩, hofb, hb⟩ := hbound
 have hin : "x" ∈ mulConstReassociate.lhs.binders := by decide
 have hina : "a" ∈ mulConstReassociate.lhs.binders := by decide
 have hinb : "b" ∈ mulConstReassociate.lhs.binders := by decide
 have hout : "W" ∉ mulConstReassociate.lhs.binders := by decide
 generalize hscope : mulConstReassociate.scope env = scope
 have hproduct : (Expr.binary .multiply (.name "a") (.name "b")).modular scope w =
   some ⟨w, hpos, false, env.value "a" * env.value "b"⟩ := by
  subst hscope
  rw [Expr.modular, modular_name hpos hle hina hofa, modular_name hpos hle hinb hofb]
  show APInt.mul ⟨w, hpos, false, BitVec.ofNat w (env.constants "a").value⟩
   ⟨w, hpos, false, BitVec.ofNat w (env.constants "b").value⟩ = _
  rw [← ha, ← hb, APInt.mul, APInt.zipWith, dif_pos rfl]
  rfl
 have hliteral : Builds scope env (constant (.binary .multiply (.name "a") (.name "b"))) _ :=
  Builds.literal hpos hle (hscope ▸ hout) (hscope ▸ hwid) hproduct
 have hx : Builds scope env x (env.value "x") := Builds.binder (hscope ▸ hin)
 have hbuilds : Builds scope env mulConstReassociate.rhs _ := hx.operation hliteral trivial
 have hval : Operation.muli.eval (env.value "x")
   (BitVec.ofNat w (APInt.toU64 ⟨w, hpos, false, env.value "a" * env.value "b"⟩)) =
   mulConstReassociate.lhs.denote env := by
  show env.value "x" * _ = env.value "x" * env.value "a" * env.value "b"
  have hpow : 2 ^ w ≤ 2 ^ 64 := Nat.pow_le_pow_right (by decide) hle
  have hlt := (env.value "a" * env.value "b").isLt
  rw [APInt.toU64, Nat.mod_eq_of_lt (hlt.trans_le hpow), ofNat_toNat, setWidth_eq,
   BitVec.mul_assoc]
 rwa [hval] at hbuilds

theorem mulNegOne_sound : mulNegOne.Sound := by
 apply sound_of_negation (by decide) (by decide) (by decide)
 intro w hpos hle env hassumed
 obtain ⟨-, hof, hval⟩ := hassumed.1
 have hones := hassumed.allOnes hpos hle (.head _) (by decide) (by decide) hof hval
 show env.value "x" * env.value "c" = 0 - env.value "x"
 rw [hones, ← neg_one_eq_allOnes, mul_neg, BitVec.mul_one, zero_sub]

/-! ### Division by one -/

theorem smtUDiv_one (hpos : 1 ≤ w) (x : BitVec w) : x.smtUDiv 1 = x := by
 have hne : (1 : BitVec w) ≠ 0#w := by
  intro heq
  simp_all
 rw [smtUDiv_eq, if_neg hne]
 exact udiv_one

/-- One is its own negation at width one, where it has the sign bit. -/
theorem smtSDiv_one (hpos : 1 ≤ w) (x : BitVec w) : x.smtSDiv 1 = x := by
 have hmsb : (1 : BitVec w).msb = decide (w = 1) := msb_one
 rw [smtSDiv_eq, hmsb]
 by_cases hone : w = 1
 · subst hone
   grind
 grind [smtUDiv_one]

theorem udivOne_sound : udivOne.Sound := by
 apply sound_of_binder (by decide)
 intro w hpos _ env _
 show (env.value "x").smtUDiv (BitVec.ofInt w 1) = env.value "x"
 exact smtUDiv_one hpos _

theorem sdivOne_sound : sdivOne.Sound := by
 apply sound_of_binder (by decide)
 intro w hpos _ env _
 show (env.value "x").smtSDiv (BitVec.ofInt w 1) = env.value "x"
 exact smtSDiv_one hpos _

theorem uremOne_sound : uremOne.Sound := by
 apply sound_of_zero (by decide) (by decide)
 intro w hpos _ env _
 show env.value "x" - (env.value "x").smtUDiv 1 * 1 = 0
 rw [smtUDiv_one hpos, mul_one, sub_self]

theorem sremOne_sound : sremOne.Sound := by
 apply sound_of_zero (by decide) (by decide)
 intro w hpos _ env _
 show env.value "x" - (env.value "x").smtSDiv 1 * 1 = 0
 rw [smtSDiv_one hpos, mul_one, sub_self]

/-! ## Bitwise rules -/

theorem andZero_sound : andZero.Sound := by
 apply sound_of_zero (by decide) (by decide)
 intro w _ _ env _
 show env.value "x" &&& BitVec.ofInt w 0 = 0
 exact and_zero

theorem andAllones_sound : andAllones.Sound := by
 apply sound_of_binder (by decide)
 intro w hpos hle env hassumed
 obtain ⟨-, hof, hval⟩ := hassumed.1
 have hones := hassumed.allOnes hpos hle (.head _) (by decide) (by decide) hof hval
 show env.value "x" &&& env.value "c" = env.value "x"
 rw [hones, and_allOnes]

theorem andSelf_sound : andSelf.Sound := by
 apply sound_of_binder (by decide)
 intro w _ _ env _
 show env.value "x" &&& env.value "x" = env.value "x"
 exact BitVec.and_self

theorem orZero_sound : orZero.Sound := by
 apply sound_of_binder (by decide)
 intro w _ _ env _
 show env.value "x" ||| BitVec.ofInt w 0 = env.value "x"
 exact or_zero

theorem orAllones_sound : orAllones.Sound := by
 apply sound_of_allOnes (by decide) (by decide)
 intro w hpos hle env hassumed
 obtain ⟨-, hof, hval⟩ := hassumed.1
 have hones := hassumed.allOnes hpos hle (.head _) (by decide) (by decide) hof hval
 show env.value "x" ||| env.value "c" = BitVec.allOnes w
 rw [hones, or_allOnes]

theorem orSelf_sound : orSelf.Sound := by
 apply sound_of_binder (by decide)
 intro w _ _ env _
 show env.value "x" ||| env.value "x" = env.value "x"
 exact BitVec.or_self

theorem xorZero_sound : xorZero.Sound := by
 apply sound_of_binder (by decide)
 intro w _ _ env _
 show env.value "x" ^^^ BitVec.ofInt w 0 = env.value "x"
 exact xor_zero

theorem xorSelf_sound : xorSelf.Sound := by
 apply sound_of_zero (by decide) (by decide)
 intro w _ _ env _
 show env.value "x" ^^^ env.value "x" = 0
 exact BitVec.xor_self

theorem andAbsorption_sound : andAbsorption.Sound := by
 apply sound_of_binder (by decide)
 intro w _ _ env _
 show (env.value "x" ||| env.value "y") &&& env.value "x" = env.value "x"
 grind

theorem xorXorAnd_sound : xorXorAnd.Sound := by
 apply sound_of_operation (by decide) (by decide)
 · exact fun _ _ _ => trivial
 · intro w env
   show (env.value "x" ^^^ env.value "y") ^^^ (env.value "x" &&& env.value "y") = env.value "x" ||| env.value "y"
   grind

theorem orAbsorption_sound : orAbsorption.Sound := by
 apply sound_of_binder (by decide)
 intro w _ _ env _
 show (env.value "x" &&& env.value "y") ||| env.value "x" = env.value "x"
 grind

theorem xorCancel_sound : xorCancel.Sound := by
 apply sound_of_binder (by decide)
 intro w _ _ env _
 show (env.value "x" ^^^ env.value "y") ^^^ env.value "y" = env.value "x"
 rw [xor_assoc, BitVec.xor_self, xor_zero]

/-- The complement of a value is what all ones takes it to. -/
theorem andComplement_sound : andComplement.Sound := by
 apply sound_of_zero (by decide) (by decide)
 intro w hpos hle env hassumed
 obtain ⟨-, -, hof, hval⟩ := hassumed.1
 have hones := hassumed.allOnes hpos hle (.head _) (by decide) (by decide) hof hval
 show env.value "x" &&& (env.value "x" ^^^ env.value "c") = 0
 rw [hones, xor_allOnes, BitVec.and_not_self]

theorem orComplement_sound : orComplement.Sound := by
 apply sound_of_allOnes (by decide) (by decide)
 intro w hpos hle env hassumed
 obtain ⟨-, -, hof, hval⟩ := hassumed.1
 have hones := hassumed.allOnes hpos hle (.head _) (by decide) (by decide) hof hval
 show env.value "x" ||| (env.value "x" ^^^ env.value "c") = BitVec.allOnes w
 rw [hones, xor_allOnes, or_not_self]

theorem toNat_ofInt_zero (w : Nat) : (BitVec.ofInt w 0).toNat = 0 := by
 rw [toNat_ofInt]
 simp

theorem shlZero_sound : shlZero.Sound := by
 apply sound_of_binder (by decide)
 intro w _ _ env _
 show env.value "x" <<< (BitVec.ofInt w 0).toNat = env.value "x"
 rw [toNat_ofInt_zero, shiftLeft_zero]

theorem shruiZero_sound : shruiZero.Sound := by
 apply sound_of_binder (by decide)
 intro w _ _ env _
 show env.value "x" >>> (BitVec.ofInt w 0).toNat = env.value "x"
 rw [toNat_ofInt_zero, ushiftRight_zero]

theorem shrsiZero_sound : shrsiZero.Sound := by
 apply sound_of_binder (by decide)
 intro w _ _ env _
 show (env.value "x").sshiftRight (BitVec.ofInt w 0).toNat = env.value "x"
 rw [toNat_ofInt_zero, sshiftRight_zero]

theorem shlWide_sound : shlWide.Sound := by
 apply sound_of_zero (by decide) (by decide)
 intro w hpos hle env hassumed
 obtain ⟨-, hof, hval⟩ := hassumed.1
 have hwide := hassumed.wide hpos hle (.head _) (by decide) (by decide) (by decide) hof hval
 show env.value "x" <<< (env.value "c").toNat = 0
 exact shiftLeft_eq_zero hwide

theorem shruiWide_sound : shruiWide.Sound := by
 apply sound_of_zero (by decide) (by decide)
 intro w hpos hle env hassumed
 obtain ⟨-, hof, hval⟩ := hassumed.1
 have hwide := hassumed.wide hpos hle (.head _) (by decide) (by decide) (by decide) hof hval
 show env.value "x" >>> (env.value "c").toNat = 0
 exact ushiftRight_eq_zero hwide

theorem xorOrAnd_sound : xorOrAnd.Sound := by
 apply sound_of_operation (by decide) (by decide)
 · exact fun _ _ _ => trivial
 · intro w env
   show (env.value "x" ||| env.value "y") ^^^ (env.value "x" &&& env.value "y") = env.value "x" ^^^ env.value "y"
   grind

end Rules

/-! ## The main result -/

/-- **Every integer rule of instcombine preserves meaning at every width.** -/
theorem instcombine_sound (rule : Rule) (hrule : rule ∈ Rules.integer ++ Rules.bitwise) : rule.Sound := by
 rcases mem_append.1 hrule with hinteger | hbitwise
 · simp only [Rules.integer, mem_cons, not_mem_nil, or_false] at hinteger
   rcases hinteger with rfl | rfl | rfl | rfl | rfl | rfl | rfl | rfl | rfl | rfl | rfl | rfl | rfl | rfl | rfl |
    rfl | rfl | rfl | rfl | rfl
   · exact Rules.mulOne_sound
   · exact Rules.mulZero_sound
   · exact Rules.mulPow2ToShl_sound
   · exact Rules.subSelf_sound
   · exact Rules.subAddCancel_sound
   · exact Rules.addSubCancel_sound
   · exact Rules.subSubCancel_sound
   · exact Rules.addSubTelescope_sound
   · exact Rules.subAddNegateRight_sound
   · exact Rules.subSubLeft_sound
   · exact Rules.subCommonLeft_sound
   · exact Rules.subCommonRight_sound
   · exact Rules.subAddCommonLeft_sound
   · exact Rules.addAddSubCancel_sound
   · exact Rules.mulConstReassociate_sound
   · exact Rules.mulNegOne_sound
   · exact Rules.udivOne_sound
   · exact Rules.sdivOne_sound
   · exact Rules.uremOne_sound
   · exact Rules.sremOne_sound
 · simp only [Rules.bitwise, mem_cons, not_mem_nil, or_false] at hbitwise
   rcases hbitwise with rfl | rfl | rfl | rfl | rfl | rfl | rfl | rfl | rfl | rfl | rfl | rfl | rfl | rfl | rfl |
    rfl | rfl | rfl | rfl | rfl
   · exact Rules.andZero_sound
   · exact Rules.andAllones_sound
   · exact Rules.andSelf_sound
   · exact Rules.orZero_sound
   · exact Rules.orAllones_sound
   · exact Rules.orSelf_sound
   · exact Rules.xorZero_sound
   · exact Rules.xorSelf_sound
   · exact Rules.andAbsorption_sound
   · exact Rules.xorXorAnd_sound
   · exact Rules.orAbsorption_sound
   · exact Rules.xorCancel_sound
   · exact Rules.andComplement_sound
   · exact Rules.orComplement_sound
   · exact Rules.shlZero_sound
   · exact Rules.shruiZero_sound
   · exact Rules.shrsiZero_sound
   · exact Rules.shlWide_sound
   · exact Rules.shruiWide_sound
   · exact Rules.xorOrAnd_sound

/-- A match of a product with the sign bit of 64 bits, negative as a host word. -/
def signBit : Env 64 where
 value name := if name = "x" then 3 else 2 ^ 63
 constants _ := ⟨64, 2 ^ 63⟩
 widths _ := 64

theorem instcombine_sound_signBit : ∃ built, Rules.mulPow2ToShl.rhs.build (Rules.mulPow2ToShl.scope signBit) = some built ∧
  (∃ value, (Code.operation .muli (.binder "x") (.binder "c")).eval signBit = some value ∧
   built.eval signBit = some value) ∧
  ((Code.operation .muli (.binder "x") (.binder "c")).Runs signBit → built.Runs signBit) := by
 have hconst : (signBit.constants "c").Of 64 := ⟨rfl, by decide +kernel⟩
 have hval : signBit.value "c" = BitVec.ofNat 64 (signBit.constants "c").value := by decide +kernel
 have hmatch : Rules.mulPow2ToShl.lhs.Matches signBit (.operation .muli (.binder "x") (.binder "c")) :=
  ⟨.binder "x", .binder "c", ⟨rfl, rfl⟩, ⟨rfl, hconst, hval⟩, rfl⟩
 have hguards : ∀ guard ∈ Rules.mulPow2ToShl.guards,
   guard.boolean (Rules.mulPow2ToShl.scope signBit) = some true := by decide +kernel
 exact instcombine_sound Rules.mulPow2ToShl (by simp [Rules.integer]) 64 (by decide) (by decide) signBit _ hmatch hguards

end Tir.Passes.Pdl
