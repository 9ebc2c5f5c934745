import Tir.Passes.Pdl

/-!
# The integer rules of instcombine

The rules of the two integer rule files, in their order. `x` is declared `int<W>` where it is first
bound, which names the width, and `c` is a constant.
-/

namespace Tir.Passes.Pdl

namespace Rules

/-- The binder `x: int<W>`. -/
def x : Term := .binder "x" (some (.int "W"))

def y : Term := .binder "y" none

def z : Term := .binder "z" none

/-- A binder declared `const`. -/
def const (name : String) : Term := .binder name (some .const)

def c : Term := const "c"

/-- The replacement `const<W>(value)`. -/
def constant (value : Expr) : Term := .constant (.name "W") value

def addi (a b : Term) : Term := .operation .addi a b

def subi (a b : Term) : Term := .operation .subi a b

def muli (a b : Term) : Term := .operation .muli a b

def andi (a b : Term) : Term := .operation .andi a b

def ori (a b : Term) : Term := .operation .ori a b

def xori (a b : Term) : Term := .operation .xori a b

def shli (a b : Term) : Term := .operation .shli a b

/-- The guard `popcount(c) == value`. -/
def popcountIs (value : Expr) : Expr := .binary .equal (.call .popcount "c") value

/-- The guard `c < 0 || c >= W`. -/
def isWide : Expr :=
 .binary .logicalOr (.binary .less (.name "c") (.integer 0)) (.binary .greaterEqual (.name "c") (.name "W"))

/-! ## Integer rules -/

def mulOne : Rule := ⟨muli x (.value 1), x, []⟩

def mulZero : Rule := ⟨muli x (.value 0), constant (.integer 0), []⟩

def mulPow2ToShl : Rule where
 lhs := muli x c
 rhs := shli x (constant (.call .ctz "c"))
 guards := [popcountIs (.integer 1), .binary .notEqual (.name "c") (.integer 1)]

def subSelf : Rule := ⟨subi x x, constant (.integer 0), []⟩

def subAddCancel : Rule := ⟨subi (addi x y) y, x, []⟩

def addSubCancel : Rule := ⟨addi (subi x y) y, x, []⟩

def subSubCancel : Rule := ⟨subi x (subi x y), y, []⟩

def addSubTelescope : Rule := ⟨addi (subi x y) (subi y z), subi x z, []⟩

def subAddNegateRight : Rule := ⟨subi x (addi x y), subi (constant (.integer 0)) y, []⟩

def subSubLeft : Rule := ⟨subi (subi x y) x, subi (constant (.integer 0)) y, []⟩

def subCommonLeft : Rule := ⟨subi (subi x y) (subi x z), subi z y, []⟩

def subCommonRight : Rule := ⟨subi (subi x y) (subi z y), subi x z, []⟩

def subAddCommonLeft : Rule := ⟨subi (addi x y) (addi x z), subi y z, []⟩

def addAddSubCancel : Rule := ⟨addi (addi x y) (subi z y), addi x z, []⟩

def mulConstReassociate : Rule where
 lhs := muli (muli x (const "a")) (const "b")
 rhs := muli x (constant (.binary .multiply (.name "a") (.name "b")))
 guards := []

def mulNegOne : Rule := ⟨muli x c, subi (constant (.integer 0)) x, [popcountIs (.name "W")]⟩

def udivOne : Rule := ⟨.operation .divui x (.value 1), x, []⟩

def sdivOne : Rule := ⟨.operation .divsi x (.value 1), x, []⟩

def uremOne : Rule := ⟨.operation .remui x (.value 1), constant (.integer 0), []⟩

def sremOne : Rule := ⟨.operation .remsi x (.value 1), constant (.integer 0), []⟩

def integer : List Rule :=
 [mulOne, mulZero, mulPow2ToShl, subSelf, subAddCancel, addSubCancel, subSubCancel, addSubTelescope,
  subAddNegateRight, subSubLeft, subCommonLeft, subCommonRight, subAddCommonLeft, addAddSubCancel,
  mulConstReassociate, mulNegOne, udivOne, sdivOne, uremOne, sremOne]

/-! ## Bitwise rules -/

def minusOne : Expr := .unary .negate (.integer 1)

def andZero : Rule := ⟨andi x (.value 0), constant (.integer 0), []⟩

def andAllones : Rule := ⟨andi x c, x, [popcountIs (.name "W")]⟩

def andSelf : Rule := ⟨andi x x, x, []⟩

def orZero : Rule := ⟨ori x (.value 0), x, []⟩

def orAllones : Rule := ⟨ori x c, constant minusOne, [popcountIs (.name "W")]⟩

def orSelf : Rule := ⟨ori x x, x, []⟩

def xorZero : Rule := ⟨xori x (.value 0), x, []⟩

def xorSelf : Rule := ⟨xori x x, constant (.integer 0), []⟩

def andAbsorption : Rule := ⟨andi (ori x y) x, x, []⟩

def xorXorAnd : Rule := ⟨xori (xori x y) (andi x y), ori x y, []⟩

def orAbsorption : Rule := ⟨ori (andi x y) x, x, []⟩

def xorCancel : Rule := ⟨xori (xori x y) y, x, []⟩

def andComplement : Rule := ⟨andi x (xori x c), constant (.integer 0), [popcountIs (.name "W")]⟩

def orComplement : Rule := ⟨ori x (xori x c), constant minusOne, [popcountIs (.name "W")]⟩

def shlZero : Rule := ⟨shli x (.value 0), x, []⟩

def shruiZero : Rule := ⟨.operation .shrui x (.value 0), x, []⟩

def shrsiZero : Rule := ⟨.operation .shrsi x (.value 0), x, []⟩

def shlWide : Rule := ⟨shli x c, constant (.integer 0), [isWide]⟩

def shruiWide : Rule := ⟨.operation .shrui x c, constant (.integer 0), [isWide]⟩

def xorOrAnd : Rule := ⟨xori (ori x y) (andi x y), xori x y, []⟩

def bitwise : List Rule :=
 [andZero, andAllones, andSelf, orZero, orAllones, orSelf, xorZero, xorSelf, andAbsorption, xorXorAnd,
  orAbsorption, xorCancel, andComplement, orComplement, shlZero, shruiZero, shrsiZero, shlWide, shruiWide,
  xorOrAnd]

end Rules

end Tir.Passes.Pdl
