import Tir.Adt.APInt

/-!
# Rewrite rules over integers

A rule has a pattern, a replacement and guards. The generated matcher binds the classes of the
pattern, and host functions compute on the words it bound: the guards in checked 64-bit arithmetic,
the literals of the replacement modulo their width. `Term.Matches` gives the code a pattern matches
and `Term.build` the code a replacement inserts; `Code.eval` is what either means at a width and
`Code.Runs` that no operation in it is poison or outside its domain.
-/

namespace Tir.Passes.Pdl

open Tir.Adt

/-! ## Syntax -/

inductive UnaryOp where
 | negate
 | not
deriving DecidableEq

inductive BinaryOp where
 | multiply
 | divide
 | remainder
 | add
 | subtract
 | shiftLeft
 | shiftRight
 | bitAnd
 | bitXor
 | bitOr
 | equal
 | notEqual
 | less
 | lessEqual
 | greater
 | greaterEqual
 | logicalAnd
 | logicalOr
deriving DecidableEq

/-- The functions an expression may call on a constant binder. -/
inductive BitCount where
 | popcount
 | ctz
 | clz
deriving DecidableEq

inductive Expr where
 | integer (value : Int)
 | name (name : String)
 | call (function : BitCount) (argument : String)
 | unary (op : UnaryOp) (value : Expr)
 | binary (op : BinaryOp) (lhs rhs : Expr)

/-- What a binder is declared to be: an integer type whose width it names, or a constant. -/
inductive BindingType where
 | int (width : String)
 | const
deriving DecidableEq

inductive Operation where
 | addi
 | subi
 | muli
 | divui
 | divsi
 | remui
 | remsi
 | andi
 | ori
 | xori
 | shli
 | shrui
 | shrsi
deriving DecidableEq

inductive Term where
 | operation (operator : Operation) (lhs rhs : Term)
 | binder (name : String) (ty : Option BindingType)
 /-- A number in place of an operand. -/
 | value (literal : Int)
 | constant (width value : Expr)

/-- The names a pattern binds. -/
def Term.binders : Term → List String
 | .operation _ lhs rhs => lhs.binders ++ rhs.binders
 | .binder name _ => [name]
 | .value _ => []
 | .constant _ _ => []

structure Rule where
 lhs : Term
 rhs : Term
 guards : List Expr

/-! ## The host's arithmetic -/

/-- A class known to be a constant: the width of its carrier and its value there. -/
structure Constant where
 width : Nat
 value : Nat
deriving DecidableEq

/-- The words a match hands to the host. -/
structure Scope where
 binders : List String
 constants : String → Constant
 widths : String → Nat

/-- An `i64` from the bits of a word. -/
def asI64 (word : Nat) : Int :=
 (BitVec.ofNat 64 word).toInt

/-- The result of checked `i64` arithmetic. -/
def checked (value : Int) : Option Int :=
 if -2 ^ 63 ≤ value ∧ value < 2 ^ 63 then some value else none

/-- A shift amount: a `u32` below the width of an `i64`. -/
def shiftAmount (value : Int) : Option Nat :=
 if 0 ≤ value ∧ value < 64 then some value.toNat else none

def Constant.read (constant : Constant) : Option APInt :=
 APInt.new constant.width constant.value

def countOnes (a : APInt) : Nat :=
 (List.range a.width).countP a.bits.getLsbD

/-- The lowest set bit, or the width. -/
def countTrailingZeros (a : APInt) : Nat :=
 (List.range a.width).findIdx a.bits.getLsbD

def BitCount.count : BitCount → APInt → Nat
 | .popcount, a => countOnes a
 | .ctz, a => countTrailingZeros a
 | .clz, a => a.countLeadingZeros

/-- `i64` arithmetic; nothing where the host function gives up. -/
def BinaryOp.number : BinaryOp → Int → Int → Option Int
 | .multiply, x, y => checked (x * y)
 | .divide, x, y => if y = 0 then none else checked (x.tdiv y)
 | .remainder, x, y => if y = 0 ∨ x = -2 ^ 63 ∧ y = -1 then none else some (x.tmod y)
 | .add, x, y => checked (x + y)
 | .subtract, x, y => checked (x - y)
 | .shiftLeft, x, y => (shiftAmount y).map fun shift => (BitVec.ofInt 64 x <<< shift).toInt
 | .shiftRight, x, y => (shiftAmount y).map fun shift => ((BitVec.ofInt 64 x).sshiftRight shift).toInt
 | .bitAnd, x, y => some (BitVec.ofInt 64 x &&& BitVec.ofInt 64 y).toInt
 | .bitXor, x, y => some (BitVec.ofInt 64 x ^^^ BitVec.ofInt 64 y).toInt
 | .bitOr, x, y => some (BitVec.ofInt 64 x ||| BitVec.ofInt 64 y).toInt
 | _, _, _ => none

/-- An expression as an `i64`. A name is a constant the pattern binds, or a width. -/
def Expr.number (scope : Scope) : Expr → Option Int
 | .integer value => some value
 | .name spelled =>
  if spelled ∈ scope.binders then (scope.constants spelled).read.map fun read => asI64 read.toU64
  else some (asI64 (scope.widths spelled))
 | .call function argument => (scope.constants argument).read.map fun read => (function.count read : Int)
 | .unary .negate value => do
   let value ← value.number scope
   checked (-value)
 | .unary .not _ => none
 | .binary op lhs rhs => do
   let lhs ← lhs.number scope
   let rhs ← rhs.number scope
   op.number lhs rhs

/-- An expression as a condition. `and` and `or` run their right side only where it decides. -/
def Expr.boolean (scope : Scope) : Expr → Option Bool
 | .unary .not value => (value.boolean scope).map (!·)
 | .binary .equal lhs rhs => do
   return (← lhs.number scope) == (← rhs.number scope)
 | .binary .notEqual lhs rhs => do
   return (← lhs.number scope) != (← rhs.number scope)
 | .binary .less lhs rhs => do
   return decide ((← lhs.number scope) < (← rhs.number scope))
 | .binary .lessEqual lhs rhs => do
   return decide ((← lhs.number scope) ≤ (← rhs.number scope))
 | .binary .greater lhs rhs => do
   return decide ((← lhs.number scope) > (← rhs.number scope))
 | .binary .greaterEqual lhs rhs => do
   return decide ((← lhs.number scope) ≥ (← rhs.number scope))
 | .binary .logicalAnd lhs rhs => do
   if ← lhs.boolean scope then rhs.boolean scope else return false
 | .binary .logicalOr lhs rhs => do
   if ← lhs.boolean scope then return true else rhs.boolean scope
 | e => (e.number scope).map (· != 0)

/-- An expression as a literal of `width` bits: sums, differences and products wrap there. -/
def Expr.modular (scope : Scope) (width : Nat) : Expr → Option APInt
 | .binary .add lhs rhs => do
   APInt.add (← lhs.modular scope width) (← rhs.modular scope width)
 | .binary .subtract lhs rhs => do
   APInt.sub (← lhs.modular scope width) (← rhs.modular scope width)
 | .binary .multiply lhs rhs => do
   APInt.mul (← lhs.modular scope width) (← rhs.modular scope width)
 | e => do
   let value ← e.number scope
   APInt.new width (BitVec.ofInt 64 value).toNat

/-! ## Code and what it means -/

/-- The code a pattern matches or a replacement inserts. -/
inductive Code where
 | operation (operator : Operation) (lhs rhs : Code)
 | binder (name : String)
 | konst (width value : Nat)

/-- A match at a width: the value of each bound class, and the words the host reads. -/
structure Env (w : Nat) where
 value : String → BitVec w
 constants : String → Constant
 widths : String → Nat

variable {w : Nat}

/-- The semantics each operation declares. -/
def Operation.eval : Operation → BitVec w → BitVec w → BitVec w
 | .addi, x, y => x + y
 | .subi, x, y => x - y
 | .muli, x, y => x * y
 | .divui, x, y => x.smtUDiv y
 | .divsi, x, y => x.smtSDiv y
 | .remui, x, y => x - x.smtUDiv y * y
 | .remsi, x, y => x - x.smtSDiv y * y
 | .andi, x, y => x &&& y
 | .ori, x, y => x ||| y
 | .xori, x, y => x ^^^ y
 | .shli, x, y => x <<< y.toNat
 | .shrui, x, y => x >>> y.toNat
 | .shrsi, x, y => x.sshiftRight y.toNat

/-- What an operation requires of its operands, and where it is not poison. -/
def Operation.Runs : Operation → BitVec w → BitVec w → Prop
 | .divui, _, y => y ≠ 0
 | .remui, _, y => y ≠ 0
 | .divsi, x, y => y ≠ 0 ∧ ¬ (x = BitVec.intMin w ∧ y = BitVec.allOnes w)
 | .remsi, x, y => y ≠ 0 ∧ ¬ (x = BitVec.intMin w ∧ y = BitVec.allOnes w)
 | .shli, _, y => y.toNat < w
 | .shrui, _, y => y.toNat < w
 | .shrsi, _, y => y.toNat < w
 | _, _, _ => True

/-- A literal of another width has no value here. -/
def Code.eval (env : Env w) : Code → Option (BitVec w)
 | .operation operator lhs rhs => do
   return operator.eval (← lhs.eval env) (← rhs.eval env)
 | .binder name => some (env.value name)
 | .konst width value => if width = w then some (BitVec.ofNat w value) else none

def Code.Runs (env : Env w) : Code → Prop
 | .operation operator lhs rhs => lhs.Runs env ∧ rhs.Runs env ∧
   ∃ x y, lhs.eval env = some x ∧ rhs.eval env = some y ∧ operator.Runs x y
 | .binder _ => True
 | .konst _ _ => True

/-! ## Matching and building -/

/-- The value of all ones at a width. -/
def ones (bits : Nat) : Option (BitVec 64) :=
 if bits ≤ 64 then some (BitVec.ofNat 64 (2 ^ bits - 1)) else none

/-- A number matches the constant it is at the width the class spells it. -/
def acceptsLiteral (literal : Int) (constant : Constant) : Prop :=
 ∃ mask, ones constant.width = some mask ∧ BitVec.ofNat 64 constant.value = BitVec.ofInt 64 literal &&& mask

/-- A class known to be this constant: it has the width its operation types it at. -/
def Constant.Of (constant : Constant) (w : Nat) : Prop :=
 constant.width = w ∧ constant.value < 2 ^ w

/-- The code the generated matcher accepts for a pattern. -/
def Term.Matches (env : Env w) : Term → Code → Prop
 | .operation operator lhs rhs, code =>
  ∃ left right, lhs.Matches env left ∧ rhs.Matches env right ∧ code = .operation operator left right
 | .binder name ty, code => code = .binder name ∧ match ty with
   | none => True
   | some (.int width) => env.widths width = w
   | some .const => (env.constants name).Of w ∧ env.value name = BitVec.ofNat w (env.constants name).value
 | .value literal, code =>
  ∃ constant : Constant, constant.Of w ∧ acceptsLiteral literal constant ∧ code = .konst constant.width constant.value
 | .constant _ _, _ => False

def Rule.scope (rule : Rule) (env : Env w) : Scope :=
 ⟨rule.lhs.binders, env.constants, env.widths⟩

/-- The code a replacement inserts, its literals computed by the host. -/
def Term.build (scope : Scope) : Term → Option Code
 | .operation operator lhs rhs => do
   return .operation operator (← lhs.build scope) (← rhs.build scope)
 | .binder name _ => if name ∈ scope.binders then some (.binder name) else none
 | .value _ => none
 | .constant width number => do
   let width ← width.number scope
   if 1 ≤ width ∧ width ≤ 64 then
    let literal ← number.modular scope width.toNat
    return .konst width.toNat literal.toU64
   else none

/-- A rule preserves meaning: at every width, whatever code its pattern matches and its guards admit,
its replacement is built, means the same, and runs where the matched code does. -/
def Rule.Sound (rule : Rule) : Prop :=
 ∀ w, 1 ≤ w → w ≤ 64 → ∀ (env : Env w) (code : Code), rule.lhs.Matches env code →
  (∀ guard ∈ rule.guards, guard.boolean (rule.scope env) = some true) →
  ∃ built, rule.rhs.build (rule.scope env) = some built ∧
   (∃ value, code.eval env = some value ∧ built.eval env = some value) ∧
   (code.Runs env → built.Runs env)

end Tir.Passes.Pdl
