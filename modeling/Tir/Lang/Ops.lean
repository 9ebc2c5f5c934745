import Tir.Lang.Kind

/-!
# The table of integer operators

`scalarOp` is the source's `SCALAR_OPS` table (arity, width rule and evaluation rule), and
`ScalarOp.evalInt` the integer meaning of an entry. Operands of different widths are
first widened to the longer one, each by its own signedness flag.
-/

namespace Tir.Lang

open Tir.Adt

/-- How the width of a result follows from the operands. -/
inductive WidthRule where
 | first | bool | sum
deriving DecidableEq, Repr

inductive EvalRule where
 | add | sub | mul | sdiv | udiv | srem | urem | neg
 | eq | ne | slt | sle | sgt | sge | ult | ule | ugt | uge
 | shl | ashr | lshr | or | and | xor | xnor | not | concat
deriving DecidableEq, Repr

structure ScalarOp where
 arity : Nat
 width : WidthRule
 eval : EvalRule

def scalarOp : SymKind → Option ScalarOp
 | .add => some ⟨2, .first, .add⟩
 | .sub => some ⟨2, .first, .sub⟩
 | .mul => some ⟨2, .first, .mul⟩
 | .div => some ⟨2, .first, .sdiv⟩
 | .udiv => some ⟨2, .first, .udiv⟩
 | .srem => some ⟨2, .first, .srem⟩
 | .urem => some ⟨2, .first, .urem⟩
 | .neg => some ⟨1, .first, .neg⟩
 | .eq => some ⟨2, .bool, .eq⟩
 | .ne => some ⟨2, .bool, .ne⟩
 | .lt => some ⟨2, .bool, .slt⟩
 | .le => some ⟨2, .bool, .sle⟩
 | .gt => some ⟨2, .bool, .sgt⟩
 | .ge => some ⟨2, .bool, .sge⟩
 | .ult => some ⟨2, .bool, .ult⟩
 | .ule => some ⟨2, .bool, .ule⟩
 | .ugt => some ⟨2, .bool, .ugt⟩
 | .uge => some ⟨2, .bool, .uge⟩
 | .shiftLeft => some ⟨2, .first, .shl⟩
 | .shiftRightArithmetic => some ⟨2, .first, .ashr⟩
 | .shiftRightLogic => some ⟨2, .first, .lshr⟩
 | .or => some ⟨2, .first, .or⟩
 | .and => some ⟨2, .first, .and⟩
 | .xor => some ⟨2, .first, .xor⟩
 | .xnor => some ⟨2, .first, .xnor⟩
 | .not => some ⟨1, .first, .not⟩
 | .concat => some ⟨2, .sum, .concat⟩
 | _ => none

/-- Structural arity: the number of operand children. -/
def SymKind.arity (kind : SymKind) : Nat :=
 match scalarOp kind with
 | some op => op.arity
 | none =>
  match kind with
  | .symbol | .constant | .arg => 0
  | .bitcast | .log2Ceil | .sqrt | .asFloat | .port | .freeze | .fpFlags => 1
  | .iterConcat => 1
  | .ite | .clamp | .extract | .loadMemory | .loadReserved | .fence | .fma
  | .siToFP | .uiToFP | .fcvt
  | .faddRound | .fsubRound | .fmulRound | .fdivRound | .fpToSIRound | .fpToUIRound => 3
  | .fmaRound | .fcvtRound | .siToFPRound | .uiToFPRound => 4
  | .storeMemory | .storeConditional | .loop => 4
  | .atomicRmw => 5
  | _ => 2

def widen (value : APInt) (width : Nat) : Option APInt :=
 if width ≤ value.width then some value
 else if value.signed then value.signExtend width
 else value.zeroExtend width

/-- Both operands at the longer of their widths. -/
def coerceInts (lhs rhs : APInt) : Option (APInt × APInt) := do
 let width := max lhs.width rhs.width
 let a ← widen lhs width
 let b ← widen rhs width
 some (a, b)

/-- A shift amount, cut to the width: past 64 significant bits it is the width itself. -/
def shiftAmount (value : APInt) (width : Nat) : Nat :=
 if 64 < value.width - value.countLeadingZeros then width
 else min value.toU64 width

def boolean (b : Bool) : APInt := ⟨1, Nat.one_pos, false, BitVec.ofBool b⟩

namespace ScalarOp

def evalUnary (op : ScalarOp) (value : APInt) : Option APInt :=
 match op.eval with
 | .neg => some value.neg
 | .not => some value.not
 | _ => none

def evalBinary (op : ScalarOp) (first second : APInt) : Option APInt := do
 let (lhs, rhs) ← coerceInts first second
 match op.eval with
 | .add => lhs.add rhs
 | .sub => lhs.sub rhs
 | .mul => lhs.mul rhs
 | .sdiv => lhs.sdiv rhs
 | .udiv => lhs.udiv rhs
 | .srem => lhs.srem rhs
 | .urem => lhs.urem rhs
 | .eq => some (boolean (lhs.withSigned false = rhs.withSigned false))
 | .ne => some (boolean (lhs.withSigned false ≠ rhs.withSigned false))
 | .slt => (lhs.slt rhs).map boolean
 | .sle => (lhs.sle rhs).map boolean
 | .sgt => (lhs.sgt rhs).map boolean
 | .sge => (lhs.sge rhs).map boolean
 | .ult => (lhs.ult rhs).map boolean
 | .ule => (lhs.ule rhs).map boolean
 | .ugt => (lhs.ugt rhs).map boolean
 | .uge => (lhs.uge rhs).map boolean
 | .shl => some (lhs.shl (shiftAmount rhs lhs.width))
 | .ashr => some ((lhs.withSigned true).ashr (shiftAmount rhs lhs.width))
 | .lshr => some (lhs.lshr (shiftAmount rhs lhs.width))
 | .or => lhs.or rhs
 | .and => lhs.and rhs
 | .xor => lhs.xor rhs
 | .xnor => (lhs.xor rhs).map APInt.not
 | .concat => do
   -- The operands as they came: concatenation does not widen to a common width.
   let width := first.width + second.width
   let high ← first.zeroExtend width
   let low ← second.zeroExtend width
   (high.shl second.width).or low
 | .neg => none
 | .not => none

/-- The integer meaning of a table entry. -/
def evalInt (op : ScalarOp) : List APInt → Option APInt
 | [value] => if op.arity = 1 then op.evalUnary value else none
 | [first, second] => if op.arity = 2 then op.evalBinary first second else none
 | _ => none

end ScalarOp

end Tir.Lang
