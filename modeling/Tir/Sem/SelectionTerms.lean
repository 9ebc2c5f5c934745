import Tir.Sem.Denote
import Tir.Sem.SelectionRules

/-!
# What the trees of an instance denote

`Builds` says that a tree of a rule is realized on a side and that its value is a bit vector known
beforehand. The operators of the integer table have the bit vectors of `Denotes`; extensions, slices,
choices and divisions are read here.
-/

open Option BitVec Bool Nat Int

namespace Tir.Sem.Selection

open Tir.Adt Tir.Lang Rule APInt

/-- A value is a bit vector, whatever its signedness. -/
def Means {w : Nat} (value : Option Value) (p : BitVec w) : Prop :=
 ∃ hpos signed, value = some (.int ⟨w, hpos, signed, p⟩)

/-- A tree has an instance on a side, and a bit vector as its value there. -/
def Builds {w : Nat} (rule : Rule) (widths : Widths) (port : ThetaPort) (symbols : Nat → Value) (side : Side) (node : Node)
  (p : BitVec w) : Prop :=
 ∃ term, rule.realize widths side port node = some term ∧ Means (term.eval symbols) p

/-- A tree has an instance on a side that is a number. -/
def Counts (rule : Rule) (widths : Widths) (port : ThetaPort) (symbols : Nat → Value) (side : Side) (node : Node)
  (n : Nat) : Prop :=
 ∃ term a, rule.realize widths side port node = some term ∧ term.eval symbols = some (.int a) ∧ a.toU64 = n

variable {rule : Rule} {widths : Widths} {port : ThetaPort} {symbols : Nat → Value} {side : Side}
variable {w v : Nat} {x y z : Node} {p q : BitVec w} {kind : SymKind}

/-! ## Captures and constants -/

/-- A capture is read whole on the right, and on the left where its class is as wide as the register. -/
theorem builds_hole {index : Nat} {binder : Binder} (hbinder : rule.vars[index]? = some binder)
  (hval : Means (some (symbols index)) p) (hwhole : side = .rhs ∨ Rule.proofWidth widths binder.width = rule.registerWidth widths) :
  Builds rule widths port symbols side (.hole index) p := by
 refine ⟨.symbol index, ?_, hval⟩
 simp [realize, hbinder, if_pos hwhole]

variable {n : Nat} {e : WidthExpr} {b : APInt} {term : Term} {signed : Bool}

theorem toU64_ofNat {hpos : 0 < w} (hlt : n < 2 ^ w) (hword : n < 2 ^ 64) :
  (⟨w, hpos, false, BitVec.ofNat w n⟩ : APInt).toU64 = n := by
 rw [toU64, toNat_ofNat, mod_eq_of_lt hlt, mod_eq_of_lt hword]

theorem eval_con (hpos : 0 < w) :
  (Term.con n w).eval symbols = some (.int ⟨w, hpos, false, BitVec.ofNat w n⟩) := by
 simp [Term.eval, APInt.new, dif_pos hpos]

section

variable (he : e.eval widths = some n) (hw : rule.registerWidth widths = w) (hpos : 0 < w)

include he hw hpos

theorem builds_number
  : Builds rule widths port symbols side (number e) (BitVec.ofNat w n) := by
 refine ⟨.con n w, ?_, hpos, false, eval_con hpos⟩
 simp [number, realize, he, hw]

theorem builds_literal
  : Builds rule widths port symbols side (literal e) (BitVec.ofNat w n) := by
 refine ⟨.con n w, ?_, hpos, false, eval_con hpos⟩
 simp [literal, realize, he, hw]

end

theorem builds_const {width : WidthExpr} (he : e.eval widths = some n) (hwid : width.eval widths = some w)
  (hpos : 0 < w) (hlt : w < 2 ^ 32) : Builds rule widths port symbols side (const width e) (BitVec.ofNat w n) := by
 refine ⟨.con n w, ?_, hpos, false, eval_con hpos⟩
 simp only [const, realize, he, hwid, if_pos hlt, bind_eq_bind, bind_some]

/-- A tree that builds a small constant is a number. -/
theorem counts_of_builds (h : Builds rule widths port symbols side x (BitVec.ofNat w n)) (hlt : n < 2 ^ w)
  (hword : n < 2 ^ 64) : Counts rule widths port symbols side x n := by
 obtain ⟨term, hterm, hpos, signed, heval⟩ := h
 refine ⟨term, _, hterm, heval, ?_⟩
 rw [toU64, toNat_ofNat, mod_eq_of_lt hlt, mod_eq_of_lt hword]

/-! ## The integer table -/

/-- An operator of the integer table that is no division. -/
def plain (kind : SymKind) : Bool :=
 (scalarOp kind).isSome && !divides kind

theorem nodeValue_unary (h : plain kind = true) (a : APInt) :
  nodeValue kind [.int a] = (opValue kind [a]).bind fun v => some (.int v) := by
 cases kind <;> first | rfl | nomatch h

theorem nodeValue_binary (h : plain kind = true) (a b : APInt) :
  nodeValue kind [.int a, .int b] = (opValue kind [a, b]).bind fun v => some (.int v) := by
 cases kind <;> first | rfl | nomatch h

theorem realize_binary (h : (scalarOp kind).isSome = true) : rule.realize widths side port (.binary kind x y) =
   (rule.realize widths side port x).bind fun first =>
    (rule.realize widths side port y).bind fun second => some (.binary kind first second) := by
 cases kind <;> first | rfl | nomatch h

theorem builds_unary {r : BitVec v} (hx : Builds rule widths port symbols side x p) (hkind : plain kind = true)
  (h : ∀ {captures : Nat → APInt}, Denotes ((AxNode.hole 0).eval widths captures) p →
   Denotes ((AxNode.unary kind (.hole 0)).eval widths captures) r) :
  Builds rule widths port symbols side (.unary kind x) r := by
 obtain ⟨term, hterm, hpos, signed, heval⟩ := hx
 obtain ⟨hpos', signed', hval⟩ := @h (fun _ => ⟨w, hpos, signed, p⟩) ⟨hpos, signed, rfl⟩
 refine ⟨.unary kind term, ?_, hpos', signed', ?_⟩
 · simp [Rule.realize, hterm]
 · simp only [Term.eval, heval, bind_eq_bind, bind_some, nodeValue_unary hkind]
   exact congrArg (Option.bind · fun v => some (Value.int v)) hval

/-- An operator of the table has the bit vector it denotes on two captures. -/
theorem builds_op {u : Nat} {q : BitVec u} {r : BitVec v} (hx : Builds rule widths port symbols side x p)
  (hy : Builds rule widths port symbols side y q) (hkind : plain kind = true)
  (h : ∀ {captures : Nat → APInt}, Denotes ((AxNode.hole 0).eval widths captures) p →
   Denotes ((AxNode.hole 1).eval widths captures) q →
    Denotes ((AxNode.binary kind (.hole 0) (.hole 1)).eval widths captures) r) :
  Builds rule widths port symbols side (.binary kind x y) r := by
 obtain ⟨term, hterm, hpos, signed, heval⟩ := hx
 obtain ⟨term', hterm', hpos', signed', heval'⟩ := hy
 obtain ⟨hpos'', signed'', hval⟩ := @h
  (fun index => if index = 0 then ⟨w, hpos, signed, p⟩ else ⟨u, hpos', signed', q⟩)
  ⟨hpos, signed, rfl⟩ ⟨hpos', signed', rfl⟩
 have htable : (scalarOp kind).isSome = true := (and_eq_true _ _ ▸ hkind).1
 refine ⟨.binary kind term term', ?_, hpos'', signed'', ?_⟩
 · rw [realize_binary htable, hterm, hterm', bind_some, bind_some]
 · simp only [Term.eval, heval, heval', bind_eq_bind, bind_some, nodeValue_binary hkind]
   exact congrArg (Option.bind · fun v => some (Value.int v)) hval

/-! ## Extensions, slices and choices -/

theorem realize_zext (he : e.eval widths = some n) : rule.realize widths side port (zext x e) =
   (rule.realize widths side port x).bind fun first => some (.binary .zext first (.con n 16)) := by
 simp [zext, number, realize, extendsTo, Node.immediate, he]

theorem realize_sext (he : e.eval widths = some n) : rule.realize widths side port (sext x e) =
   (rule.realize widths side port x).bind fun first => some (.binary .sext first (.con n 16)) := by
 simp [sext, number, realize, extendsTo, Node.immediate, he]

theorem realize_zextTo {name : WidthName} : rule.realize widths side port (zextTo x name) =
   (rule.realize widths side port x).bind fun first => some (.binary .zext first (.con (widths.value name) 16)) := by
 rfl

theorem realize_sextTo {name : WidthName} : rule.realize widths side port (sextTo x name) =
   (rule.realize widths side port x).bind fun first => some (.binary .sext first (.con (widths.value name) 16)) := by
 rfl

/-- The two extensions to a width that the second operand holds. -/
theorem means_extend (widths : Widths) {second : Term} (h : Means (term.eval symbols) p)
  (hb : second.eval symbols = some (.int b)) (hle : w ≤ b.toU64) :
  Means ((Term.binary .zext term second).eval symbols) (p.setWidth b.toU64) ∧
   Means ((Term.binary .sext term second).eval symbols) (p.signExtend b.toU64) := by
 obtain ⟨hpos, signed, heval⟩ := h
 have hcaptures : Denotes ((AxNode.hole 0).eval widths fun index =>
   if index = 0 then ⟨w, hpos, signed, p⟩ else b) p := ⟨hpos, signed, rfl⟩
 have hcarries : Carries ((AxNode.hole 1).eval widths fun index =>
   if index = 0 then ⟨w, hpos, signed, p⟩ else b) b.toU64 := ⟨b, rfl, rfl⟩
 constructor
 · obtain ⟨hpos', signed', hval⟩ := denotes_zext hcaptures hcarries hle
   refine ⟨hpos', signed', ?_⟩
   simp only [Term.eval, heval, hb, bind_eq_bind, bind_some]
   exact congrArg (Option.bind · fun v => some (Value.int v)) hval
 · obtain ⟨hpos', signed', hval⟩ := denotes_sext hcaptures hcarries hle
   refine ⟨hpos', signed', ?_⟩
   simp only [Term.eval, heval, hb, bind_eq_bind, bind_some]
   exact congrArg (Option.bind · fun v => some (Value.int v)) hval

/-- An extension kind, with the extension of bit vectors it stands for. -/
def extended (kind : SymKind) (p : BitVec w) (n : Nat) : BitVec n :=
 if kind = .sext then p.signExtend n else p.setWidth n

theorem means_extended (widths : Widths) {second : Term} (hkind : Rule.extendsTo kind = true)
  (h : Means (term.eval symbols) p) (hb : second.eval symbols = some (.int b)) (hn : b.toU64 = n) (hle : w ≤ n) :
  Means ((Term.binary kind term second).eval symbols) (extended kind p n) := by
 subst hn
 obtain ⟨hzext, hsext⟩ := means_extend widths h hb hle
 cases kind <;> first | exact absurd hkind (by decide) | skip
 · exact hzext
 · exact hsext

section Extend

variable (hkind : Rule.extendsTo kind = true) (hx : Builds rule widths port symbols side x p)

include hkind hx

/-- An extension to a written width, which a 16-bit constant holds. -/
theorem builds_extension {e : WidthExpr} {n : Nat} (he : e.eval widths = some n) (hle : w ≤ n) (hlt : n < 2 ^ 16) :
  Builds rule widths port symbols side (.binary kind x (number e)) (extended kind p n) := by
 obtain ⟨term, hterm, hmeans⟩ := hx
 refine ⟨.binary kind term (.con n 16), ?_, ?_⟩
 · cases kind <;> first | exact absurd hkind (by decide) | skip
   · rw [← zext, realize_zext he, hterm, bind_some]
   · rw [← sext, realize_sext he, hterm, bind_some]
 · exact means_extended widths hkind hmeans (eval_con (by decide)) (toU64_ofNat hlt (by omega)) hle

theorem builds_extendsTo {name : WidthName} (hle : w ≤ widths.value name) (hlt : widths.value name < 2 ^ 16) :
  Builds rule widths port symbols side (.binary kind x (.widthName name)) (extended kind p (widths.value name)) := by
 obtain ⟨term, hterm, hmeans⟩ := hx
 refine ⟨.binary kind term (.con (widths.value name) 16), ?_, ?_⟩
 · cases kind <;> first | exact absurd hkind (by decide) | skip
   · rw [← zextTo, realize_zextTo, hterm, bind_some]
   · rw [← sextTo, realize_sextTo, hterm, bind_some]
 · exact means_extended widths hkind hmeans (eval_con (by decide)) (toU64_ofNat hlt (by omega)) hle

/-- An extension to an operand that is a number of its own. -/
theorem builds_extendsBy {n : Nat} (hy : Counts rule widths port symbols side y n) (himmediate : y.immediate = none)
  (hle : w ≤ n) : Builds rule widths port symbols side (.binary kind x y) (extended kind p n) := by
 obtain ⟨term, hterm, hmeans⟩ := hx
 obtain ⟨second, b, hsnd, hb, hn⟩ := hy
 refine ⟨.binary kind term second, ?_, means_extended widths hkind hmeans hb hn hle⟩
 cases kind <;> first | exact absurd hkind (by decide) | skip
 all_goals simp only [realize, himmediate, hterm, hsnd, ite_self, bind_eq_bind, bind_some]

end Extend

/-- The value of a slice of `n` bits from `low` on. -/
theorem means_extract {highTerm lowTerm : Term} {a : APInt} (h : Means (term.eval symbols) p)
  (ha : highTerm.eval symbols = some (.int a)) (hb : lowTerm.eval symbols = some (.int b)) (hn : 0 < n)
  (hhigh : a.toU64 + 1 = b.toU64 + n) (hle : b.toU64 + n ≤ w) :
  Means ((Term.ternary .extract term highTerm lowTerm).eval symbols) (p.extractLsb' b.toU64 n) := by
 obtain ⟨hpos, signed, heval⟩ := h
 obtain rfl : n = a.toU64 - b.toU64 + 1 := by omega
 have hin : b.toU64 ≤ a.toU64 ∧ a.toU64 < w := by omega
 refine ⟨hn, false, ?_⟩
 have hval : nodeValue .extract [.int ⟨w, hpos, signed, p⟩, .int a, .int b] =
   ((⟨w, hpos, signed, p⟩ : APInt).extractBits a.toU64 b.toU64).bind fun v => some (.int v) := rfl
 simp [Term.eval, heval, ha, hb, hval, APInt.extractBits, if_pos hin]

theorem builds_extract {high low : Nat} (hx : Builds rule widths port symbols side x p)
  (hy : Counts rule widths port symbols side y high) (hz : Counts rule widths port symbols side z low) (hn : 0 < n)
  (hhigh : high + 1 = low + n) (hle : low + n ≤ w) :
  Builds rule widths port symbols side (.ternary .extract x y z) (p.extractLsb' low n) := by
 obtain ⟨term, hterm, hmeans⟩ := hx
 obtain ⟨highTerm, a, hhighTerm, ha, rfl⟩ := hy
 obtain ⟨lowTerm, b, hlowTerm, hb, rfl⟩ := hz
 refine ⟨.ternary .extract term highTerm lowTerm, ?_, means_extract hmeans ha hb hn hhigh hle⟩
 simp [realize, hterm, hhighTerm, hlowTerm]

/-- On the left a capture is the low bits its class has of the register. -/
theorem builds_low {index : Nat} {binder : Binder} (hbinder : rule.vars[index]? = some binder)
  (hval : Means (some (symbols index)) p) (hclass : Rule.proofWidth widths binder.width = n) (hn : 0 < n) (hlt : n < w)
  (hw : rule.registerWidth widths = w) (hsmall : n ≤ 2 ^ 16) :
  Builds rule widths port symbols .lhs (.hole index) (p.extractLsb' 0 n) := by
 have hhigh : n - 1 < 2 ^ 16 := by omega
 have hnum : (⟨16, by decide, false, BitVec.ofNat 16 (n - 1)⟩ : APInt).toU64 = n - 1 := toU64_ofNat hhigh (by omega)
 refine ⟨.ternary .extract (.symbol index) (.con (n - 1) 16) (.con 0 16), ?_, ?_⟩
 · have hnarrow : ¬ (Side.lhs = .rhs ∨ n = w) := by
    rintro (h | h)
    · nomatch h
    · omega
   simp only [realize, hbinder, hclass, hw, hnarrow, hlt, if_false, if_true, bind_eq_bind, bind_some]
 · have hsymbol : Means ((Term.symbol index).eval symbols) p := hval
   exact means_extract hsymbol (eval_con (by decide)) (eval_con (by decide)) hn
    (by rw [hnum]; simp [toU64]; omega) (by simp [toU64]; omega)

/-- A choice reads the low bit of its condition. -/
theorem builds_ite {u : Nat} {r : BitVec u} (hz : Builds rule widths port symbols side z r)
  (hx : Builds rule widths port symbols side x p) (hy : Builds rule widths port symbols side y q) :
  Builds rule widths port symbols side (ite z x y) (if r.getLsbD 0 then p else q) := by
 obtain ⟨term, hterm, hpos, signed, heval⟩ := hz
 obtain ⟨term', hterm', hpos', signed', heval'⟩ := hx
 obtain ⟨term'', hterm'', hpos'', signed'', heval''⟩ := hy
 refine ⟨.ternary .ite term term' term'', ?_, ?_⟩
 · simp [ite, Rule.realize, hterm, hterm', hterm'', bind_eq_bind, bind_some]
 · simp only [Term.eval, heval, heval', heval'', bind_eq_bind, bind_some, nodeValue]
   split
   · exact ⟨hpos', signed', rfl⟩
   · exact ⟨hpos'', signed'', rfl⟩

theorem builds_freeze (hx : Builds rule widths port symbols side x p) :
  Builds rule widths port symbols side (.unary .freeze x) p := by
 obtain ⟨term, hterm, hpos, signed, heval⟩ := hx
 refine ⟨.unary .freeze term, ?_, hpos, signed, ?_⟩
 · simp [Rule.realize, hterm]
 · simp [Term.eval, heval, nodeValue]

/-- A loop-carried value is the value of the port that the instance reads. -/
theorem builds_theta (hx : Builds rule widths port symbols side x p) (hy : Builds rule widths port symbols side y p) :
  Builds rule widths port symbols side (.binary .theta x y) p := by
 obtain ⟨term, hterm, hmeans⟩ := hx
 obtain ⟨term', hterm', hmeans'⟩ := hy
 cases port with
 | init => exact ⟨term, hterm, hmeans⟩
 | next => exact ⟨term', hterm', hmeans'⟩

/-! ## Divisions -/

/-- The number that a division computes of two numbers; `bits` is the sign of a signed dividend. -/
def quotientOf (signed quotient : Bool) (a b : Int) : Int :=
 if b = 0 then
  if quotient then (if signed && a < 0 then 1 else -1) else a
 else if quotient then a.tdiv b else a.tmod b

/-- The number of a bit vector, signed or not. -/
def numberOf (signed : Bool) (p : BitVec w) : Int :=
 if signed then p.toInt else p.toNat

theorem sdiv_eq_ofInt : p.sdiv q = BitVec.ofInt w (p.toInt.tdiv q.toInt) := by
 apply eq_of_toInt_eq
 rw [toInt_sdiv, toInt_ofInt]

theorem srem_eq_ofInt : p.srem q = BitVec.ofInt w (p.toInt.tmod q.toInt) := by
 rw [← toInt_srem, ofInt_toInt]

theorem udiv_eq_ofInt : p.udiv q = BitVec.ofInt w ((p.toNat : Int).tdiv q.toNat) := by
 apply eq_of_toNat_eq
 have hlt : p.toNat / q.toNat < 2 ^ w := (Nat.div_le_self _ _).trans_lt p.isLt
 rw [udiv_eq, toNat_udiv, ← ofNat_tdiv, ofInt_natCast, toNat_ofNat, mod_eq_of_lt hlt]

theorem umod_eq_ofInt : p.umod q = BitVec.ofInt w ((p.toNat : Int).tmod q.toNat) := by
 apply eq_of_toNat_eq
 have hlt : p.toNat % q.toNat < 2 ^ w := (mod_le _ _).trans_lt p.isLt
 rw [umod_eq, toNat_umod, ← ofNat_tmod, ofInt_natCast, toNat_ofNat, mod_eq_of_lt hlt]

theorem numberOf_eq_zero : numberOf signed p = 0 ↔ p.toNat = 0 := by
 cases signed with
 | false => simp [numberOf]
 | true =>
  rw [numberOf, if_pos rfl, ← toInt_zero (w := w), toInt_inj, ← toNat_inj, toNat_ofNat,
   zero_mod]

theorem ofInt_numberOf (signed : Bool) : BitVec.ofInt w (numberOf signed p) = p := by
 cases signed with
 | false => simp [numberOf]
 | true => simp [numberOf]

theorem ofInt_neg_one : BitVec.ofInt w (-1) = allOnes w := by
 rw [ofInt_neg, ← neg_one_eq_allOnes]
 rfl

/-- A division of integers of one width is the division of their numbers, cut to the width. -/
theorem divrem_eq {quotient s s' : Bool} {hpos hpos' : 0 < w} :
  ∃ flag, divrem signed quotient ⟨w, hpos, s, p⟩ ⟨w, hpos', s', q⟩ =
   some ⟨w, hpos, flag, BitVec.ofInt w (quotientOf signed quotient (numberOf signed p) (numberOf signed q))⟩ := by
 simp only [divrem, coerceInts_same, bind_eq_bind, bind_some, isZero, beq_iff_eq, quotientOf,
  numberOf_eq_zero]
 by_cases hzero : q.toNat = 0
 · -- a quotient by zero is 1 or -1, and a remainder its dividend
   rw [if_pos hzero, if_pos hzero]
   cases quotient with
   | false => exact ⟨s, by cases signed <;> simp [ofInt_numberOf]⟩
   | true =>
    cases signed with
    | false => exact ⟨false, by simp [maxUnsigned, ofInt_neg_one]⟩
    | true =>
     refine ⟨true, ?_⟩
     simp only [withSigned, isNegative, Bool.true_and, newSigned, dif_pos hpos, numberOf,
      if_true, msb_eq_toInt, decide_eq_true_eq]
     split <;> rfl
 · -- the widths are equal and the divisor is no zero, so the operation is the one of bit vectors
   have hdivide : ∀ (f : {w : Nat} → BitVec w → BitVec w → BitVec w) flag,
     APInt.divide f flag ⟨w, hpos, s, p⟩ ⟨w, hpos', s', q⟩ = some ⟨w, hpos, flag, f p q⟩ := by
    intro f flag
    simp [APInt.divide, APInt.isZero, hzero, APInt.zipWith]
   rw [if_neg hzero, if_neg hzero]
   cases signed with
   | true =>
    cases quotient with
    | true => exact ⟨true, by simp [APInt.sdiv, hdivide, sdiv_eq_ofInt, numberOf]⟩
    | false => exact ⟨true, by simp [APInt.srem, hdivide, srem_eq_ofInt, numberOf]⟩
   | false =>
    cases quotient with
    | true => exact ⟨false, by simp only [APInt.udiv, hdivide, udiv_eq_ofInt, numberOf, if_true, false_eq_true,
      if_false]⟩
    | false => exact ⟨false, by simp only [APInt.urem, hdivide, umod_eq_ofInt, numberOf, false_eq_true, if_false]⟩

/-- The division kinds, by the sign of their operands and what they keep. -/
def divisionOf : SymKind → Option (Bool × Bool)
 | .div => some (true, true)
 | .udiv => some (false, true)
 | .srem => some (true, false)
 | .urem => some (false, false)
 | _ => none

theorem builds_divrem {quotient : Bool} (hx : Builds rule widths port symbols side x p)
  (hy : Builds rule widths port symbols side y q) (hkind : divisionOf kind = some (signed, quotient)) :
  Builds rule widths port symbols side (.binary kind x y)
   (BitVec.ofInt w (quotientOf signed quotient (numberOf signed p) (numberOf signed q))) := by
 obtain ⟨term, hterm, hpos, s, heval⟩ := hx
 obtain ⟨term', hterm', hpos', s', heval'⟩ := hy
 obtain ⟨flag, hval⟩ := @divrem_eq w p q signed quotient s s' hpos hpos'
 have hnode : ∀ a b, nodeValue kind [.int a, .int b] = (divrem signed quotient a b).bind fun v => some (.int v) := by
  intro a b
  cases kind <;> cases hkind <;> rfl
 refine ⟨.binary kind term term', ?_, hpos, flag, ?_⟩
 · have htable : (scalarOp kind).isSome = true := by
    cases kind <;> cases hkind <;> rfl
   rw [realize_binary htable, hterm, hterm', bind_some, bind_some]
 · simp [Term.eval, heval, heval', hnode, hval]

end Tir.Sem.Selection
