import Tir.Adt.FloatEnv
import Tir.Sem.Axiom

/-!
# Selection axioms

The rules of `isel.pdl` and the proof instances the prover builds of them. A capture is a symbol of the
register's width: the left side reads the low bits its class has, the right side reads the register whole.
`Term.eval` evaluates an instance as the prover's circuits do: a condition is its low bit, and a float that
does not fit the integer it is converted to is poison.
-/

namespace Tir.Sem.Selection

open Tir.Adt Tir.Lang

/-! ## Values -/

/-- A float is the bits of its format. -/
inductive Value where
 | int (value : APInt)
 | float (format : FloatWidth) (bits : Nat)
 | poison
deriving DecidableEq

def Value.asInt : Value → Option APInt
 | .int value => some value
 | _ => none

/-- Division and remainder of integers of one width, total as in SMT-LIB. -/
def divrem (signed quotient : Bool) (a b : APInt) : Option APInt := do
 let (a, b) ← coerceInts a b
 if b.isZero then
  match signed, quotient with
  | false, true => some a.maxUnsigned
  | true, true => if (a.withSigned true).isNegative then APInt.newSigned a.width 1 else APInt.newSigned a.width (-1)
  | _, false => some a
 else
  match signed, quotient with
  | true, true => a.sdiv b
  | false, true => a.udiv b
  | true, false => a.srem b
  | false, false => a.urem b

/-- The value of an operator of integers. -/
def intValue (kind : SymKind) (operands : List APInt) : Option APInt :=
 match kind, operands with
 | .div, [a, b] => divrem true true a b
 | .udiv, [a, b] => divrem false true a b
 | .srem, [a, b] => divrem true false a b
 | .urem, [a, b] => divrem false false a b
 | .extract, [value, high, low] => value.extractBits high.toU64 low.toU64
 | _, _ => opValue kind operands

/-- The float format of these exponent and mantissa widths. -/
def formatOf (exponent mantissa : Nat) : Option FloatWidth :=
 if exponent = 8 ∧ mantissa = 23 then some .w32
 else if exponent = 11 ∧ mantissa = 52 then some .w64
 else none

/-- An integer rounded to a float. -/
def toFloat (signed : Bool) (value : APInt) (format : FloatWidth) : Value :=
 let op := if signed then FloatOp.signedToFloat else FloatOp.unsignedToFloat
 let bits := if signed then BitVec.ofInt 64 (value.withSigned true).toI64
  else BitVec.ofNat 64 (value.withSigned false).toU64
 .float format (evalFloat op .w64 format (fun operand => if operand = 0 then bits else 0) .tiesToEven).bits

/-- A finite float cut to an integer. -/
def truncate (value : Finite) : Int :=
 let magnitude := if value.exponent < 0 then value.significand >>> (-value.exponent).toNat
  else value.significand <<< value.exponent.toNat
 if value.negative then -(magnitude : Int) else magnitude

def fitsInteger (signed : Bool) (width : Nat) (n : Int) : Bool :=
 if signed then -2 ^ (width - 1) ≤ n && n < 2 ^ (width - 1) else 0 ≤ n && n < 2 ^ width

/-- A float cut to an integer; one that does not fit is poison. -/
def toInteger (signed : Bool) (format : FloatWidth) (bits width : Nat) : Option Value :=
 match (Format.new format).decode bits with
 | .finite value =>
  if fitsInteger signed width (truncate value) then
   if h : 0 < width then some (.int ⟨width, h, signed, BitVec.ofInt width (truncate value)⟩) else none
  else some .poison
 | _ => some .poison

/-- The value of an operator; poison passes through all of them but a choice and a freeze. -/
def nodeValue (kind : SymKind) (operands : List Value) : Option Value :=
 match kind, operands with
 | .ite, [.poison, _, _] => some .poison
 | .ite, [.int cond, x, y] => some (if cond.bits.getLsbD 0 then x else y)
 | .freeze, [.int x] => some (.int x)
 | .freeze, _ => none
 | _, _ =>
  if .poison ∈ operands then some .poison
  else match kind, operands with
   | .siToFP, [.int x, .int exponent, .int mantissa] =>
    (formatOf exponent.toU64 mantissa.toU64).map (toFloat true x)
   | .uiToFP, [.int x, .int exponent, .int mantissa] =>
    (formatOf exponent.toU64 mantissa.toU64).map (toFloat false x)
   | .fpToSI, [.float format bits, .int width] => toInteger true format bits width.toU64
   | .fpToUI, [.float format bits, .int width] => toInteger false format bits width.toU64
   | _, _ => do some (.int (← intValue kind (← operands.mapM Value.asInt)))

/-! ## Proof instances -/

/-- A tree of a proof instance, over symbols of the register's width. -/
inductive Term where
 | symbol (index : Nat)
 | con (value width : Nat)
 | unary (kind : SymKind) (x : Term)
 | binary (kind : SymKind) (x y : Term)
 | ternary (kind : SymKind) (x y z : Term)

def Term.eval (symbols : Nat → Value) : Term → Option Value
 | symbol index => some (symbols index)
 | con value width => (APInt.new width value).map .int
 | unary kind x => do nodeValue kind [← x.eval symbols]
 | binary kind x y => do nodeValue kind [← x.eval symbols, ← y.eval symbols]
 | ternary kind x y z => do nodeValue kind [← x.eval symbols, ← y.eval symbols, ← z.eval symbols]

/-- A tree of one side of a rule. -/
inductive Node where
 /-- A capture, by the position of its binder. -/
 | hole (index : Nat)
 /-- A width name as an operand of the left side. -/
 | widthName (name : WidthName)
 /-- An operand of the left side without a type. -/
 | wildcard
 | root
 | const (value : WidthExpr) (width : ConstWidth)
 /-- A constant operand of the left side, matched by value. -/
 | constMatch (value : WidthExpr)
 | unary (kind : SymKind) (x : Node)
 | binary (kind : SymKind) (x y : Node)
 | ternary (kind : SymKind) (x y z : Node)

def Node.usesRoot : Node → Bool
 | root => true
 | hole _ | widthName _ | wildcard | const _ _ | constMatch _ => false
 | unary _ x => x.usesRoot
 | binary _ x y => x.usesRoot || y.usesRoot
 | ternary _ x y z => x.usesRoot || y.usesRoot || z.usesRoot

/-- A bare expression, as the width operand of an extension may be. -/
def Node.immediate : Node → Option WidthExpr
 | const value .register => some value
 | _ => none

/-- A typed binder of the left side: the width of its class, and its format where it is a float. -/
structure Binder where
 width : WidthBinding
 format : Option FloatWidth

structure Rule where
 vars : List Binder
 rootWidth : WidthBinding
 guards : List Guard
 lhs : Node
 rhs : Node

inductive Side where
 | lhs | rhs
deriving DecidableEq

/-- The port of a loop-carried value that one instance reads. -/
inductive ThetaPort where
 | init | next
deriving DecidableEq

namespace Rule

variable (rule : Rule) (widths : Widths)

/-- A width as the 32-bit one of a proof. -/
def proofWidth (binding : WidthBinding) : Nat :=
 binding.value widths % 2 ^ 32

/-- The longest of the widths of the captures and the root. -/
def registerWidth : Nat :=
 (rule.vars.map fun binder => binder.width.value widths).foldl max (rule.rootWidth.value widths) % 2 ^ 32

/-- An operator extends to a width that is no value of the register. -/
def extendsTo (kind : SymKind) : Bool :=
 kind = .zext || kind = .sext

/-- The tree of a side in a proof instance. -/
def realize (side : Side) (port : ThetaPort) : Node → Option Term
 | .root => if side = .rhs then some (.symbol 0) else none
 | .hole index => do
   let binder ← rule.vars[index]?
   let classWidth := proofWidth widths binder.width
   if side = .rhs ∨ classWidth = rule.registerWidth widths then some (.symbol index)
   else if classWidth < rule.registerWidth widths then
    some (.ternary .extract (.symbol index) (.con (classWidth - 1) 16) (.con 0 16))
   else none
 | .widthName name => some (.con (widths.value name) 16)
 | .wildcard => none
 | .const value .register => do some (.con (← value.eval widths) (rule.registerWidth widths))
 | .const value (.explicit width) => do
   let width ← width.eval widths
   if width < 2 ^ 32 then some (.con (← value.eval widths) width) else none
 | .constMatch value => do some (.con (← value.eval widths) (rule.registerWidth widths))
 | .unary kind x => do some (.unary kind (← realize side port x))
 | .binary .theta init next => match port with
  | .init => realize side port init
  | .next => realize side port next
 | .binary kind x y => do
   let first ← realize side port x
   match if extendsTo kind then y.immediate else none with
   | some width => some (.binary kind first (.con (← width.eval widths) 16))
   | none => some (.binary kind first (← realize side port y))
 | .ternary kind x y z => do
   some (.ternary kind (← realize side port x) (← realize side port y) (← realize side port z))

/-- The two sides of an instance. A right side that reads the root has it as an opaque value. -/
def proofInstance (port : ThetaPort) : Option (Term × Term) := do
 let lhs ← if rule.rhs.usesRoot then some (.symbol 0) else rule.realize widths .lhs port rule.lhs
 let rhs ← rule.realize widths .rhs port rule.rhs
 some (lhs, rhs)

/-- Values for the symbols of an instance: the opaque root, or the captures. -/
def Typed (symbols : Nat → Value) : Prop :=
 if rule.rhs.usesRoot then ∃ a : APInt, symbols 0 = .int a ∧ a.width = rule.registerWidth widths
 else ∀ (i : Nat) (binder : Binder), rule.vars[i]? = some binder → match binder.format with
  | none => ∃ a : APInt, symbols i = .int a ∧ a.width = rule.registerWidth widths
  | some format => ∃ bits, symbols i = .float format bits ∧ bits < 2 ^ format.bitWidth

end Rule

def Value.Same : Value → Value → Prop
 | .int a, .int b => a.width = b.width ∧ a.bits.toNat = b.bits.toNat
 | .float format bits, .float format' bits' => format = format' ∧ bits = bits'
 | _, _ => False

/-- The right side has the bits of the left, which may be anything where the left is poison. -/
def Refines (lhs rhs : Option Value) : Prop :=
 lhs = some .poison ∨ ∃ v v', lhs = some v ∧ rhs = some v' ∧ v.Same v'

/-- Every instance that the prover builds holds, and it builds one unless a width is above 64. -/
def Rule.Sound (rule : Rule) (widths : Widths) : Prop :=
 ∀ port symbols, rule.Typed widths symbols → match rule.proofInstance widths port with
  | some (lhs, rhs) => Refines (lhs.eval symbols) (rhs.eval symbols)
  | none => ∃ name, 64 < widths.value name

end Tir.Sem.Selection
