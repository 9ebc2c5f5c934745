import Tir.Sem.Axiom

/-!
# Limb legalization

The rules of `legalize.pdl`: an integer wider than the target's native width as its low limb of that width and
the rest. Each rule stands as the source spells it, the binders of its left side at positions 0, 1 and 2.
-/

namespace Tir.Sem.Legalize

open Tir.Lang

/-! ## Terms -/

def W : WidthExpr := .name .w

def NATIVE : WidthExpr := .name .native

def M : WidthExpr := .name .m

def K : WidthExpr := .name .k

def H : WidthExpr := .name .h

def L : WidthExpr := .name .l

/-- A bare number. -/
def number (value : WidthExpr) : AxNode := .const value .register

/-- A number of a width. -/
def const (width value : WidthExpr) : AxNode := .const value (.explicit width)

def extract (x : AxNode) (high low : WidthExpr) : AxNode := .ternary .extract x (number high) (number low)

def zext (x : AxNode) (width : WidthExpr) : AxNode := .binary .zext x (number width)

def sext (x : AxNode) (width : WidthExpr) : AxNode := .binary .sext x (number width)

def concat (high low : AxNode) : AxNode := .binary .concat high low

def ite (cond x y : AxNode) : AxNode := .ternary .ite cond x y

def add (x y : AxNode) : AxNode := .binary .add x y

def sub (x y : AxNode) : AxNode := .binary .sub x y

def neg (x : AxNode) : AxNode := .unary .neg x

def mul (x y : AxNode) : AxNode := .binary .mul x y

def or (x y : AxNode) : AxNode := .binary .or x y

def not (x : AxNode) : AxNode := .unary .not x

def shl (x y : AxNode) : AxNode := .binary .shiftLeft x y

def lshr (x y : AxNode) : AxNode := .binary .shiftRightLogic x y

def eq (x y : AxNode) : AxNode := .binary .eq x y

def ne (x y : AxNode) : AxNode := .binary .ne x y

def ult (x y : AxNode) : AxNode := .binary .ult x y

/-- `#extract(x, W - 1, NATIVE)`. -/
def highPart (x : AxNode) : AxNode := extract x (W - 1) NATIVE

/-- `#extract(x, NATIVE - 1, 0)`. -/
def lowPart (x : AxNode) : AxNode := extract x (NATIVE - 1) 0

/-- The binders of a rule over `a` and `b`. -/
def a : AxNode := .hole 0

def b : AxNode := .hole 1

/-! ## Arithmetic and logic -/

def addLimbs : Axiom where
 vars := [.name .w, .name .w]
 rootWidth := .name .w
 guards := [.lt NATIVE W]
 lhs := add a b
 rhs := concat
  (add (add (highPart a) (highPart b)) (zext (ult (add (lowPart a) (lowPart b)) (lowPart a)) (W - NATIVE)))
  (add (lowPart a) (lowPart b))

def subLimbs : Axiom where
 vars := [.name .w, .name .w]
 rootWidth := .name .w
 guards := [.lt NATIVE W]
 lhs := sub a b
 rhs := concat
  (sub (sub (highPart a) (highPart b)) (zext (ult (lowPart a) (lowPart b)) (W - NATIVE)))
  (sub (lowPart a) (lowPart b))

def negLimbs : Axiom where
 vars := [.name .w]
 rootWidth := .name .w
 guards := [.lt NATIVE W]
 lhs := neg a
 rhs := concat
  (sub (neg (highPart a)) (zext (ne (lowPart a) (const NATIVE 0)) (W - NATIVE)))
  (neg (lowPart a))

/-- The full product of the low limbs. -/
def lowProduct : AxNode := mul (zext (lowPart a) (NATIVE + NATIVE)) (zext (lowPart b) (NATIVE + NATIVE))

def mulLimbs : Axiom where
 vars := [.name .w, .name .w]
 rootWidth := .name .w
 guards := [.lt NATIVE W]
 lhs := mul a b
 rhs := concat
  (add
   (add
    (extract (zext (extract lowProduct (NATIVE + NATIVE - 1) NATIVE) W) (W - NATIVE - 1) 0)
    (mul (extract (zext (lowPart a) W) (W - NATIVE - 1) 0) (highPart b)))
   (mul (highPart a) (extract b (W - NATIVE - 1) 0)))
  (extract lowProduct (NATIVE - 1) 0)

/-- The logic operators act on each part. -/
def logicLimbs (kind : SymKind) : Axiom where
 vars := [.name .w, .name .w]
 rootWidth := .name .w
 guards := [.lt NATIVE W]
 lhs := .binary kind a b
 rhs := concat (.binary kind (highPart a) (highPart b)) (.binary kind (lowPart a) (lowPart b))

def andLimbs : Axiom := logicLimbs .and

def orLimbs : Axiom := logicLimbs .or

def xorLimbs : Axiom := logicLimbs .xor

def notLimbs : Axiom where
 vars := [.name .w]
 rootWidth := .name .w
 guards := [.lt NATIVE W]
 lhs := not a
 rhs := concat (not (highPart a)) (not (lowPart a))

/-- The binders are the condition and the two values. -/
def ifLimbs : Axiom where
 vars := [.lit 1, .name .w, .name .w]
 rootWidth := .name .w
 guards := [.lt NATIVE W]
 lhs := ite (.hole 0) (.hole 1) (.hole 2)
 rhs := concat (ite (.hole 0) (highPart (.hole 1)) (highPart (.hole 2)))
  (ite (.hole 0) (lowPart (.hole 1)) (lowPart (.hole 2)))

/-! ## Shifts -/

/-- The value shifted and the amount. -/
def x : AxNode := .hole 0

def s : AxNode := .hole 1

/-- An amount the high part cannot hold is cut to its width. -/
def clamp (amount : AxNode) : AxNode :=
 ite (ult amount (const W (W - NATIVE)))
  (extract amount (W - NATIVE - 1) 0)
  (extract (const W (W - NATIVE)) (W - NATIVE - 1) 0)

def shlLimbs : Axiom where
 vars := [.name .w, .name .w]
 rootWidth := .name .w
 guards := [.lt NATIVE W]
 lhs := shl x s
 rhs := concat
  (ite (ult s (const W NATIVE))
   (or (shl (highPart x) (clamp s))
    (extract (zext (lshr (lowPart x) (sub (const NATIVE NATIVE) (lowPart s))) W) (W - NATIVE - 1) 0))
   (shl (extract x (W - NATIVE - 1) 0) (clamp (sub s (const W NATIVE)))))
  (ite (ult s (const W NATIVE)) (shl (lowPart x) (lowPart s)) (const NATIVE 0))

/-- A right shift whose high part is shifted by `shift` and read wider through `extend`. -/
def rightShiftLimbs (shift extend : SymKind) : Axiom where
 vars := [.name .w, .name .w]
 rootWidth := .name .w
 guards := [.lt NATIVE W]
 lhs := .binary shift x s
 rhs := concat
  (.binary shift (highPart x) (clamp s))
  (ite (ult s (const W NATIVE))
   (or (lshr (lowPart x) (lowPart s))
    (shl (extract (.binary extend (highPart x) (number W)) (NATIVE - 1) 0) (sub (const NATIVE NATIVE) (lowPart s))))
   (extract (.binary extend (.binary shift (highPart x) (clamp (sub s (const W NATIVE)))) (number W)) (NATIVE - 1) 0))

def lshrLimbs : Axiom := rightShiftLimbs .shiftRightLogic .zext

def ashrLimbs : Axiom := rightShiftLimbs .shiftRightArithmetic .sext

/-! ## Comparisons -/

def eqLimbs : Axiom where
 vars := [.name .w, .name .w]
 rootWidth := .lit 1
 guards := [.lt NATIVE W]
 lhs := eq a b
 rhs := .binary .and (eq (highPart a) (highPart b)) (eq (lowPart a) (lowPart b))

def neLimbs : Axiom where
 vars := [.name .w, .name .w]
 rootWidth := .lit 1
 guards := [.lt NATIVE W]
 lhs := ne a b
 rhs := or (ne (highPart a) (highPart b)) (ne (lowPart a) (lowPart b))

/-- A comparison reads the high parts by `high`, and where they are equal the low parts by `low`. -/
def compareLimbs (kind high low : SymKind) : Axiom where
 vars := [.name .w, .name .w]
 rootWidth := .lit 1
 guards := [.lt NATIVE W]
 lhs := .binary kind a b
 rhs := or (.binary high (highPart a) (highPart b))
  (.binary .and (eq (highPart a) (highPart b)) (.binary low (lowPart a) (lowPart b)))

def ultLimbs : Axiom := compareLimbs .ult .ult .ult

def uleLimbs : Axiom := compareLimbs .ule .ult .ule

def ugtLimbs : Axiom := compareLimbs .ugt .ugt .ugt

def ugeLimbs : Axiom := compareLimbs .uge .ugt .uge

def ltLimbs : Axiom := compareLimbs .lt .lt .ult

def leLimbs : Axiom := compareLimbs .le .lt .ule

def gtLimbs : Axiom := compareLimbs .gt .gt .ugt

def geLimbs : Axiom := compareLimbs .ge .gt .uge

/-! ## Extensions -/

def zextLimbs : Axiom where
 vars := [.name .m]
 rootWidth := .name .w
 guards := [.lt NATIVE W, .lt (M - 1) NATIVE]
 lhs := zext x W
 rhs := concat (zext (const 1 0) (W - NATIVE)) (zext (extract x (M - 1) 0) NATIVE)

def zextWideLimbs : Axiom where
 vars := [.name .m]
 rootWidth := .name .w
 guards := [.lt NATIVE M, .lt M W]
 lhs := zext x W
 rhs := concat (zext (extract x (M - 1) NATIVE) (W - NATIVE)) (extract x (NATIVE - 1) 0)

def sextLimbs : Axiom where
 vars := [.name .m]
 rootWidth := .name .w
 guards := [.lt NATIVE W, .lt (M - 1) NATIVE]
 lhs := sext x W
 rhs := concat (sext (extract x (M - 1) (M - 1)) (W - NATIVE)) (sext (extract x (M - 1) 0) NATIVE)

def sextWideLimbs : Axiom where
 vars := [.name .m]
 rootWidth := .name .w
 guards := [.lt NATIVE M, .lt M W]
 lhs := sext x W
 rhs := concat (sext (extract x (M - 1) NATIVE) (W - NATIVE)) (extract x (NATIVE - 1) 0)

/-! ## Slices -/

/-- The binders are the high part and the low part. -/
def extractConcatLow : Axiom where
 vars := [.name .h, .name .l]
 rootWidth := .name .l
 guards := []
 lhs := extract (concat (.hole 0) (.hole 1)) (L - 1) 0
 rhs := .hole 1

def extractConcatHigh : Axiom where
 vars := [.name .h, .name .l]
 rootWidth := .name .h
 guards := []
 lhs := extract (concat (.hole 0) (.hole 1)) (H + L - 1) L
 rhs := .hole 0

/-- The low bits of an extension that its operand has. -/
def extractCut (extend : SymKind) : Axiom where
 vars := [.name .m]
 rootWidth := .name .k
 guards := [.lt K M]
 lhs := extract (.binary extend x (number W)) (K - 1) 0
 rhs := extract x (K - 1) 0

def extractSame (extend : SymKind) : Axiom where
 vars := [.name .m]
 rootWidth := .name .m
 guards := []
 lhs := extract (.binary extend x (number W)) (M - 1) 0
 rhs := x

def extractWiden (extend : SymKind) : Axiom where
 vars := [.name .m]
 rootWidth := .name .k
 guards := [.lt M K, .lt (K - 1) W]
 lhs := extract (.binary extend x (number W)) (K - 1) 0
 rhs := .binary extend (extract x (M - 1) 0) (number K)

def extractZextCut : Axiom := extractCut .zext

def extractZextSame : Axiom := extractSame .zext

def extractZextWiden : Axiom := extractWiden .zext

def extractSextCut : Axiom := extractCut .sext

def extractSextSame : Axiom := extractSame .sext

def extractSextWiden : Axiom := extractWiden .sext

/-- The rules in the order of the file. -/
def rules : List Axiom :=
 [addLimbs, subLimbs, negLimbs, mulLimbs, andLimbs, orLimbs, xorLimbs, notLimbs, ifLimbs,
  shlLimbs, lshrLimbs, ashrLimbs,
  eqLimbs, neLimbs, ultLimbs, uleLimbs, ugtLimbs, ugeLimbs, ltLimbs, leLimbs, gtLimbs, geLimbs,
  zextLimbs, zextWideLimbs, sextLimbs, sextWideLimbs,
  extractConcatLow, extractConcatHigh,
  extractZextCut, extractZextSame, extractZextWiden, extractSextCut, extractSextSame, extractSextWiden]

end Tir.Sem.Legalize
