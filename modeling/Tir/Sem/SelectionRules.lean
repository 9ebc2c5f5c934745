import Tir.Sem.Selection

/-!
# The rules of `isel.pdl`

Each rule stands as the source spells it; the binders of its left side are at positions 0, 1 and 2. Rules
that differ in their operator alone are one definition applied to the operator.
-/

namespace Tir.Sem.Selection

open Tir.Adt Tir.Lang

/-! ## Terms -/

def W : WidthExpr := .name .w

def N : WidthExpr := .name .narrow

/-- `int<W>`. -/
def intW : Binder := ⟨.name .w, none⟩

/-- `int<N>`. -/
def intN : Binder := ⟨.name .narrow, none⟩

/-- `int<1>`. -/
def int1 : Binder := ⟨.lit 1, none⟩

def floatBinder (format : FloatWidth) : Binder := ⟨.lit format.bitWidth, some format⟩

/-- A bare expression of the right side. -/
def number (value : WidthExpr) : Node := .const value .register

/-- `const<width>(value)` of the right side. -/
def const (width value : WidthExpr) : Node := .const value (.explicit width)

/-- A constant of the left side. -/
def literal (value : WidthExpr) : Node := .constMatch value

def zext (x : Node) (width : WidthExpr) : Node := .binary .zext x (number width)

def sext (x : Node) (width : WidthExpr) : Node := .binary .sext x (number width)

/-- An extension on the left side, to a width name. -/
def zextTo (x : Node) (name : WidthName) : Node := .binary .zext x (.widthName name)

def sextTo (x : Node) (name : WidthName) : Node := .binary .sext x (.widthName name)

def extract (x : Node) (high low : WidthExpr) : Node := .ternary .extract x (number high) (number low)

def shl (x y : Node) : Node := .binary .shiftLeft x y

def lshr (x y : Node) : Node := .binary .shiftRightLogic x y

def ashr (x y : Node) : Node := .binary .shiftRightArithmetic x y

def ite (cond x y : Node) : Node := .ternary .ite cond x y

def x : Node := .hole 0

def a : Node := .hole 0

def b : Node := .hole 1

/-! ## Constants and extensions -/

def mulConstants : Rule := ⟨[intW, intW], .name .w, [], .binary .mul a b, .binary .mul a b⟩

def mulOne : Rule := ⟨[intW], .name .w, [], .binary .mul x (literal 1), x⟩

def mulZero : Rule := ⟨[intW], .name .w, [], .binary .mul x (literal 0), const W 0⟩

def andZero : Rule := ⟨[intW], .name .w, [], .binary .and x (literal 0), const W 0⟩

def orZero : Rule := ⟨[intW], .name .w, [], .binary .or x (literal 0), x⟩

def sextBridge : Rule where
 vars := [intN]
 rootWidth := .name .w
 guards := [.lt N W]
 lhs := sextTo x .w
 rhs := ashr (shl x (number (W - N))) (number (W - N))

def zextMask : Rule where
 vars := [intN]
 rootWidth := .name .w
 guards := [.lt N W]
 lhs := zextTo x .w
 rhs := .binary .and (number (.ones N)) x

def zextShifts : Rule where
 vars := [intN]
 rootWidth := .name .w
 guards := [.lt N W]
 lhs := zextTo x .w
 rhs := lshr (shl x (number (W - N))) (number (W - N))

def zextZero : Rule := ⟨[], .name .w, [], zextTo (literal 0) .w, const W 0⟩

/-- An extension to 32 bits and one of it, as one extension of the original. -/
def extendTwice (inner outer : SymKind) : Rule where
 vars := [intN]
 rootWidth := .name .w
 guards := [.lt N 32, .lt 32 W]
 lhs := .binary outer (.binary inner x (literal 32)) (.widthName .w)
 rhs := .binary inner (extract x (N - 1) 0) (number W)

def zextZext32 : Rule := extendTwice .zext .zext

def sextSext32 : Rule := extendTwice .sext .sext

def sextZext32 : Rule := extendTwice .zext .sext

/-! ## Choices and copies -/

def ifSame : Rule := ⟨[int1, intW], .name .w, [], ite (.hole 0) (.hole 1) (.hole 1), .hole 1⟩

def ifThenCondition : Rule :=
 ⟨[int1, int1], .lit 1, [], ite (.hole 0) (.hole 0) (.hole 1), ite (.hole 0) (const 1 1) (.hole 1)⟩

def ifElseCondition : Rule :=
 ⟨[int1, int1], .lit 1, [], ite (.hole 0) (.hole 1) (.hole 0), ite (.hole 0) (.hole 1) (const 1 0)⟩

def thetaSame : Rule := ⟨[intW], .name .w, [], .binary .theta x x, x⟩

def freezeCopy : Rule := ⟨[intW], .name .w, [], .unary .freeze x, x⟩

/-! ## Comparisons with zero -/

def zeroRegister : Node := zext (const 1 0) W

def compareZero (kind : SymKind) : Rule :=
 ⟨[intW], .lit 1, [], .binary kind x (literal 0), .binary kind x zeroRegister⟩

def zeroCompare (kind : SymKind) : Rule :=
 ⟨[intW], .lit 1, [], .binary kind (literal 0) x, .binary kind zeroRegister x⟩

def eqZero : Rule := compareZero .eq

def neZero : Rule := compareZero .ne

def ltZero : Rule := compareZero .lt

def zeroLt : Rule := zeroCompare .lt

def leZero : Rule := compareZero .le

def zeroLe : Rule := zeroCompare .le

def gtZero : Rule := compareZero .gt

def zeroGt : Rule := zeroCompare .gt

def geZero : Rule := compareZero .ge

def zeroGe : Rule := zeroCompare .ge

def ultZero : Rule := compareZero .ult

def zeroUlt : Rule := zeroCompare .ult

def uleZero : Rule := compareZero .ule

def zeroUle : Rule := zeroCompare .ule

def ugtZero : Rule := compareZero .ugt

def zeroUgt : Rule := zeroCompare .ugt

def ugeZero : Rule := compareZero .uge

def zeroUge : Rule := zeroCompare .uge

/-! ## Negation and complement -/

def negSub : Rule := ⟨[intW], .name .w, [], .unary .neg x, .binary .sub (number 0) x⟩

def negMul : Rule := ⟨[intW], .name .w, [], .unary .neg x, .binary .mul (number (.ones W)) x⟩

def notSub : Rule := ⟨[intW], .name .w, [], .unary .not x, .binary .sub (number (.ones W)) x⟩

def notSubOne : Rule :=
 ⟨[intW], .name .w, [], .unary .not x, .binary .sub (.binary .sub (number 0) x) (number 1)⟩

def notXor : Rule := ⟨[intW], .name .w, [], .unary .not x, .binary .xor (number (.ones W)) x⟩

/-! ## Truth values -/

/-- The root, chosen by itself. -/
def rootChoice : Node :=
 ite .root (.binary .zext (const 1 1) (const 1 1)) (.binary .zext (const 1 0) (const 1 1))

def compareViaIf (kind : SymKind) : Rule :=
 ⟨[], .lit 1, [], .binary kind .wildcard .wildcard, rootChoice⟩

def bitViaIf (kind : SymKind) : Rule := ⟨[int1, int1], .lit 1, [], .binary kind a b, rootChoice⟩

def eqViaIf : Rule := compareViaIf .eq

def neViaIf : Rule := compareViaIf .ne

def ltViaIf : Rule := compareViaIf .lt

def leViaIf : Rule := compareViaIf .le

def gtViaIf : Rule := compareViaIf .gt

def geViaIf : Rule := compareViaIf .ge

def ultViaIf : Rule := compareViaIf .ult

def uleViaIf : Rule := compareViaIf .ule

def ugtViaIf : Rule := compareViaIf .ugt

def ugeViaIf : Rule := compareViaIf .uge

def andViaIf : Rule := bitViaIf .and

def xorViaIf : Rule := bitViaIf .xor

def eqViaCmp : Rule :=
 ⟨[intW, intW], .lit 1, [], .binary .eq a b, .binary .ult (.binary .xor a b) (number 1)⟩

def neViaCmp : Rule :=
 ⟨[intW, intW], .lit 1, [], .binary .ne a b,
   .binary .xor (.binary .ult (.binary .xor a b) (number 1)) (const 1 1)⟩

/-- A comparison as the complement of another, of these operands. -/
def complement (kind other : SymKind) (first second : Node) : Rule :=
 ⟨[intW, intW], .lit 1, [], .binary kind a b, .binary .xor (.binary other first second) (const 1 1)⟩

def geViaCmp : Rule := complement .ge .lt a b

def leViaCmp : Rule := complement .le .lt b a

def ugeViaCmp : Rule := complement .uge .ult a b

def uleViaCmp : Rule := complement .ule .ult b a

/-! ## Multiplication by a power of two -/

def mulToShl (factor amount : WidthExpr) : Rule :=
 ⟨[intW], .name .w, [], .binary .mul x (literal factor), shl x (const W amount)⟩

def mul2ToShl : Rule := mulToShl 2 1

def mul4ToShl : Rule := mulToShl 4 2

def mul8ToShl : Rule := mulToShl 8 3

/-! ## Widening -/

/-- A comparison of operands extended to a register width. -/
def compareWiden (kind extension : SymKind) (width : WidthExpr) : Rule where
 vars := [intN, intN]
 rootWidth := .lit 1
 guards := [.lt N width]
 lhs := .binary kind a b
 rhs := .binary kind (.binary extension a (number width)) (.binary extension b (number width))

def eqWiden32 : Rule := compareWiden .eq .zext 32

def eqWiden64 : Rule := compareWiden .eq .zext 64

def neWiden32 : Rule := compareWiden .ne .zext 32

def neWiden64 : Rule := compareWiden .ne .zext 64

def ltWiden32 : Rule := compareWiden .lt .sext 32

def ltWiden64 : Rule := compareWiden .lt .sext 64

def leWiden32 : Rule := compareWiden .le .sext 32

def leWiden64 : Rule := compareWiden .le .sext 64

def gtWiden32 : Rule := compareWiden .gt .sext 32

def gtWiden64 : Rule := compareWiden .gt .sext 64

def geWiden32 : Rule := compareWiden .ge .sext 32

def geWiden64 : Rule := compareWiden .ge .sext 64

def ultWiden32 : Rule := compareWiden .ult .zext 32

def ultWiden64 : Rule := compareWiden .ult .zext 64

def uleWiden32 : Rule := compareWiden .ule .zext 32

def uleWiden64 : Rule := compareWiden .ule .zext 64

def ugtWiden32 : Rule := compareWiden .ugt .zext 32

def ugtWiden64 : Rule := compareWiden .ugt .zext 64

def ugeWiden32 : Rule := compareWiden .uge .zext 32

def ugeWiden64 : Rule := compareWiden .uge .zext 64

/-- An operation at 32 bits, on operands each extended its way, cut back to the narrow width. -/
def opWiden32 (kind first second : SymKind) (limit : WidthExpr) : Rule where
 vars := [intN, intN]
 rootWidth := .name .narrow
 guards := [.lt N limit]
 lhs := .binary kind a b
 rhs := extract (.binary kind (.binary first a (number 32)) (.binary second b (number 32))) (N - 1) 0

def lshrWiden32 : Rule := opWiden32 .shiftRightLogic .zext .zext 32

def ashrWiden32 : Rule := opWiden32 .shiftRightArithmetic .sext .zext 32

def udivWiden32 : Rule := opWiden32 .udiv .zext .zext 16

def uremWiden32 : Rule := opWiden32 .urem .zext .zext 16

def divWiden32 : Rule := opWiden32 .div .sext .sext 16

def sremWiden32 : Rule := opWiden32 .srem .sext .sext 16

/-! ## Floats -/

def uitofp32ViaSitofp : Rule where
 vars := [intN]
 rootWidth := .lit 32
 guards := [.eq N 32]
 lhs := .ternary .uiToFP x (literal 8) (literal 23)
 rhs := .ternary .siToFP (zext x 64) (const 4 8) (const 5 23)

def uitofpViaSitofp : Rule where
 vars := [intN]
 rootWidth := .lit 64
 guards := [.eq N 32]
 lhs := .ternary .uiToFP x (literal 11) (literal 52)
 rhs := .ternary .siToFP (zext (.ternary .extract x (const 6 31) (const 1 0)) 64) (const 4 11) (const 6 52)

/-- An unsigned conversion to 32 bits as a signed one to 64, cut. -/
def fptouiVia (format : FloatWidth) : Rule where
 vars := [floatBinder format]
 rootWidth := .lit 32
 guards := []
 lhs := .binary .fpToUI x (literal 32)
 rhs := .ternary .extract (.binary .fpToSI x (const 7 64)) (const 6 31) (const 1 0)

def fptoui32ViaFptosi : Rule := fptouiVia .w32

def fptouiViaFptosi : Rule := fptouiVia .w64

/-! ## Masks -/

/-- The binders `t`, `c` and `f` in this order. -/
def selectMaskToIf : Rule where
 vars := [intW, int1, intW]
 rootWidth := .name .w
 guards := []
 lhs := .binary .or (.binary .and (.hole 0) (sextTo (.hole 1) .w))
  (.binary .and (.hole 2) (.binary .xor (sextTo (.hole 1) .w) (literal (.ones W))))
 rhs := ite (.hole 1) (.hole 0) (.hole 2)

/-- The binders `t`, `m` and `f` in this order. -/
def constantMaskBlend : Rule where
 vars := [intW, intW, intW]
 rootWidth := .name .w
 guards := []
 lhs := .binary .or (.binary .and (.hole 0) (.hole 1))
  (.binary .and (.hole 2) (.binary .xor (.hole 1) (literal (.ones W))))
 rhs := .binary .xor (.binary .and (.hole 1) (.binary .xor (.hole 0) (.hole 2))) (.hole 2)

def sextBoolLowBit : Rule where
 vars := [int1]
 rootWidth := .name .w
 guards := [.lt 1 W]
 lhs := .binary .and (sextTo x .w) (literal 1)
 rhs := zext (extract x 0 0) W

/-- Equality of the low bytes. -/
def lowByteXor (kind : SymKind) : Rule where
 vars := [intW, intW]
 rootWidth := .lit 1
 guards := [.lt 8 W]
 lhs := .binary kind (.binary .and (.binary .xor a b) (literal 255)) (literal 0)
 rhs := .binary kind (.ternary .extract a (const 3 7) (const 1 0)) (.ternary .extract b (const 3 7) (const 1 0))

def lowByteXorEq : Rule := lowByteXor .eq

def lowByteXorNe : Rule := lowByteXor .ne

/-- The rules of the file, in its order. -/
def rules : List Rule :=
 [mulConstants, mulOne, mulZero, andZero, orZero, sextBridge, zextMask, zextShifts, zextZero, zextZext32, sextSext32,
  sextZext32, ifSame, ifThenCondition, ifElseCondition, thetaSame, freezeCopy, eqZero, neZero, ltZero, zeroLt, leZero,
  zeroLe, gtZero, zeroGt, geZero, zeroGe, ultZero, zeroUlt, uleZero, zeroUle, ugtZero, zeroUgt, ugeZero, zeroUge,
  negSub, negMul, notSub, notSubOne, notXor, eqViaIf, neViaIf, ltViaIf, leViaIf, gtViaIf, geViaIf, ultViaIf, uleViaIf,
  ugtViaIf, ugeViaIf, andViaIf, xorViaIf, eqViaCmp, neViaCmp, geViaCmp, leViaCmp, ugeViaCmp, uleViaCmp, mul2ToShl,
  mul4ToShl, mul8ToShl, eqWiden32, eqWiden64, neWiden32, neWiden64, ltWiden32, ltWiden64, leWiden32, leWiden64,
  gtWiden32, gtWiden64, geWiden32, geWiden64, ultWiden32, ultWiden64, uleWiden32, uleWiden64, ugtWiden32, ugtWiden64,
  ugeWiden32, ugeWiden64, lshrWiden32, ashrWiden32, udivWiden32, uremWiden32, divWiden32, sremWiden32,
  uitofp32ViaSitofp, uitofpViaSitofp, fptoui32ViaFptosi, fptouiViaFptosi, selectMaskToIf, constantMaskBlend,
  sextBoolLowBit, lowByteXorEq, lowByteXorNe]

end Tir.Sem.Selection
