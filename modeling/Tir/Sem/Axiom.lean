import Tir.Lang.PureAgrees

/-!
# Semantic axioms

An axiom is a rule between two trees of semantic operators, over captures whose widths are names or literals.
`opValue` is what the interpreter computes for an operator whose operands are integers (`evalReady_opValue`),
and `AxNode.eval` the value of a side of an axiom.
-/

open List Option

namespace Tir.Sem

open Tir.Adt Tir.Lang

/-! ## Widths -/

inductive WidthName where
 | w | native | m | k | h | l | narrow
deriving DecidableEq

/-- A width for each name: a positive integer that the rule engine's signed 64-bit scalars hold. -/
structure Widths where
 value : WidthName → Nat
 pos : ∀ name, 0 < value name
 lt : ∀ name, value name < 2 ^ 63

/-- A width position of a binder or a root. -/
inductive WidthBinding where
 | lit (width : Nat)
 | name (name : WidthName)

def WidthBinding.value (widths : Widths) : WidthBinding → Nat
 | lit width => width
 | name n => widths.value n

/-- An integer expression over bound widths. -/
inductive WidthExpr where
 | lit (value : Nat)
 | name (name : WidthName)
 | add (a b : WidthExpr)
 | sub (a b : WidthExpr)
 /-- The all-ones value of as many bits. -/
 | ones (e : WidthExpr)

instance : Add WidthExpr := ⟨WidthExpr.add⟩

instance : Sub WidthExpr := ⟨WidthExpr.sub⟩

instance (n : Nat) : OfNat WidthExpr n := ⟨WidthExpr.lit n⟩

def WidthExpr.eval (widths : Widths) : WidthExpr → Option Nat
 | lit value => some value
 | name n => some (widths.value n)
 | add a b => do
   let x ← a.eval widths
   let y ← b.eval widths
   if x + y < 2 ^ 64 then some (x + y) else none
 | sub a b => do
   let x ← a.eval widths
   let y ← b.eval widths
   if y ≤ x then some (x - y) else none
 | ones e => do
   let v ← e.eval widths
   if v ≤ 64 then some (2 ^ v - 1) else none

inductive Guard where
 | lt (a b : WidthExpr)
 | eq (a b : WidthExpr)

def Guard.holds (widths : Widths) : Guard → Bool
 | lt a b => ((do some (decide ((← a.eval widths) < (← b.eval widths)))) : Option Bool).getD false
 | eq a b => ((do some (decide ((← a.eval widths) = (← b.eval widths)))) : Option Bool).getD false

theorem guard_lt {widths : Widths} {e e' : WidthExpr} {v v' : Nat} (h : (Guard.lt e e').holds widths = true)
  (he : e.eval widths = some v) (he' : e'.eval widths = some v') : v < v' := by
 simpa [Guard.holds, he, he'] using h

/-! ## Trees -/

/-- The width a template constant materializes at. -/
inductive ConstWidth where
 /-- A bare expression: an immediate of 64 bits. -/
 | register
 | explicit (width : WidthExpr)

/-- A tree of one side of an axiom. -/
inductive AxNode where
 /-- A capture, by the position of its binder. -/
 | hole (index : Nat)
 /-- A constant operand; on a left side it is matched by value. -/
 | const (value : WidthExpr) (width : ConstWidth)
 | unary (kind : SymKind) (x : AxNode)
 | binary (kind : SymKind) (x y : AxNode)
 | ternary (kind : SymKind) (x y z : AxNode)

/-- The value of an operator of integers. -/
def opValue (kind : SymKind) (operands : List APInt) : Option APInt :=
 match scalarOp kind with
 | some op => op.evalInt operands
 | none =>
  match kind, operands with
  | .ite, [cond, x, y] => some (if cond.isZero then y else x)
  | .extract, [value, high, low] =>
   (RawBits.fromAPInt value).toAPInt.bind fun value => value.extractBits high.toU64 low.toU64
  | .zext, [value, width] => value.zeroExtend width.toU64
  | .sext, [value, width] => (value.withSigned true).signExtend width.toU64
  | _, _ => none

section Eval

variable (widths : Widths) (captures : Nat → APInt)

def AxNode.eval : AxNode → Option APInt
 | hole index => some (captures index)
 | const value .register => do APInt.new 64 (← value.eval widths)
 | const value (.explicit width) => do APInt.new (← width.eval widths) (← value.eval widths)
 | unary kind x => do opValue kind [← x.eval]
 | binary kind x y => do opValue kind [← x.eval, ← y.eval]
 | ternary kind x y z => do opValue kind [← x.eval, ← y.eval, ← z.eval]

end Eval

/-- The tree extends a capture to fewer bits than it has. -/
def AxNode.narrows (vars : List WidthBinding) (widths : Widths) : AxNode → Bool
 | hole _ => false
 | const _ _ => false
 | unary _ x => x.narrows vars widths
 | binary kind x y => x.narrows vars widths || y.narrows vars widths ||
   match x, y with
   | hole i, const e .register => (kind = .zext || kind = .sext) &&
     ((e.eval widths).bind fun width => vars[i]?.map fun var => decide (width < var.value widths)).getD false
   | _, _ => false
 | ternary _ x y z => x.narrows vars widths || y.narrows vars widths || z.narrows vars widths

/-- A rule between two trees. -/
structure Axiom where
 /-- The width of each binder of the left side. -/
 vars : List WidthBinding
 rootWidth : WidthBinding
 guards : List Guard
 lhs : AxNode
 rhs : AxNode

/-- Captures of the widths an axiom's binders declare. -/
def Axiom.Typed (rule : Axiom) (widths : Widths) (captures : Nat → APInt) : Prop :=
 ∀ i binding, rule.vars[i]? = some binding → (captures i).width = binding.value widths

/-- Both sides denote one bit vector of the root's width. -/
def Axiom.Agrees (rule : Axiom) (widths : Widths) (captures : Nat → APInt) : Prop :=
 ∃ l r, rule.lhs.eval widths captures = some l ∧ rule.rhs.eval widths captures = some r ∧
  l.width = rule.rootWidth.value widths ∧ r.width = l.width ∧ r.bits.toNat = l.bits.toNat

/-! ## The interpreter's operators -/

section Interpreter

variable {V F : Type} {fl : Floats F} {g : Lang.Graph V F} {node : Nat} {kind : SymKind} {cache : Cache F}

theorem integerOperands_eq {c : Nat → Option (Value F)} {indices : List Nat} {operands : List APInt}
  (h : Forall₂ (fun index operand => c index = some (.int operand)) indices operands) :
  integerOperands c indices = some (some operands) := by
 induction h with
 | nil => rfl
 | cons hidx _ ih =>
  rw [integerOperands, hidx]
  simp only [bind_eq_bind, bind_some, Value.integerView, ih]
  rfl

theorem operands_length {op : ScalarOp} {operands : List APInt} {v : APInt} (h : op.evalInt operands = some v) :
  operands.length = op.arity := by
 cases operands with
 | nil => cases h
 | cons x rest =>
  cases rest with
  | nil =>
   rw [ScalarOp.evalInt] at h
   split at h
   · rename_i harity
     exact harity.symm
   · cases h
  | cons y rest =>
   cases rest with
   | nil =>
    rw [ScalarOp.evalInt] at h
    split at h
    · rename_i harity
      exact harity.symm
    · cases h
   | cons z rest => cases h

/-- The integer divisions, which are total. -/
def divides (kind : SymKind) : Bool :=
 kind = .div || kind = .udiv || kind = .srem || kind = .urem

theorem evalDivrem_eq_none {c : Nat → Option (Value F)} (h : divides kind = false) : evalDivrem kind c = some none := by
 cases kind <;> first | rfl | cases h

/-- Where an operator of integers has a value, it is what the interpreter computes for a node of the kind
with the operands as its children. -/
theorem evalReady_opValue {symbols args : List (Value F)} {operands : List APInt} {v : APInt}
  (hkind : kindOf g node = some kind) (hdivides : divides kind = false)
  (hkids : ∀ i operand, operands[i]? = some operand → childVal g node i cache = some (.int operand))
  (h : opValue kind operands = some v) : evalReady fl g node symbols cache args = some (.value (.int v)) := by
 simp only [evalReady, hkind, bind_eq_bind, bind_some, evalDivrem_eq_none hdivides, evalScalar]
 unfold opValue at h
 cases hop : scalarOp kind with
 | some op =>
  rw [hop] at h
  have hall : Forall₂ (fun index operand => childVal g node index cache = some (.int operand))
    (List.range op.arity) operands := by
   rw [forall₂_iff_get]
   refine ⟨by rw [length_range, operands_length h], fun i hi hi' => ?_⟩
   simpa using hkids i _ (getElem?_eq_getElem hi')
  simp only [integerOperands_eq hall, bind_some, h, map_some]
 | none =>
  rw [hop] at h
  dsimp only at h
  split at h
  · rename_i cond x y
    have hval : evalControl fl .ite (fun index => childVal g node index cache) = some (.int v) := by
     cases h
     rw [evalControl, hkids 0 cond rfl, hkids 1 x rfl, hkids 2 y rfl]
     simp only [bind_eq_bind, bind_some, scalarIsZero]
     split <;> rfl
    exact congrArg (Option.map Ready.value) hval
  · rename_i value high low
    obtain ⟨bits, hbits, hextract⟩ := bind_eq_some_iff.1 h
    have hinside : ¬ bits.width ≤ low.toU64 := by
     rw [APInt.extractBits] at hextract
     split at hextract
     · rename_i hin
       omega
     · cases hextract
    have hchild := hkids 0 value rfl
    obtain ⟨source, hsrc, -⟩ := bind_eq_some_iff.1 hchild
    have hval : evalExtract fl g node cache (fun index => childVal g node index cache) = some (.int v) := by
     rw [evalExtract, hchild, hkids 1 high rfl, hkids 2 low rfl, hsrc]
     simp only [bind_eq_bind, bind_some, Value.asInt, asRawBits, hbits, hinside, false_and, if_false,
      hextract]
    exact congrArg (Option.map Ready.value) hval
  · rename_i value width
    have hval : evalMath fl g node cache .zext (fun index => childVal g node index cache) = some (.int v) := by
     rw [evalMath, hkids 0 value rfl, hkids 1 width rfl]
     simp only [bind_eq_bind, bind_some, Value.asInt, h]
    exact congrArg (Option.map Ready.value) hval
  · rename_i value width
    have hval : evalMath fl g node cache .sext (fun index => childVal g node index cache) = some (.int v) := by
     unfold evalMath
     dsimp only
     rw [hkids 0 value rfl, hkids 1 width rfl]
     simp only [bind_eq_bind, bind_some, Value.asInt, h]
    exact congrArg (Option.map Ready.value) hval
  · cases h

/-- The extension of `sextOfBits`, of an integer. -/
theorem evalReady_opValue_sext : evalReady noFloats sextOfBits 3 [] [none, some (.int ⟨8, by decide, false, 5#8⟩),
  some (.int ⟨64, by decide, false, 16#64⟩)] [] = some (.value (.int ⟨16, by decide, true, 5#16⟩)) := by
 have hvalue : opValue .sext [⟨8, by decide, false, 5#8⟩, ⟨64, by decide, false, 16#64⟩] = some ⟨16, by decide, true, 5#16⟩ := by rfl
 refine evalReady_opValue rfl rfl ?_ hvalue
 rintro (_ | _ | i) operand h
 · cases h
   rfl
 · cases h
   rfl
 · cases h

end Interpreter

end Tir.Sem
