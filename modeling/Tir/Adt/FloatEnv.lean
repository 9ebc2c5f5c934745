import Tir.Basic.Rounding

/-!
# Software floating point

`eval_float` of `float_env.rs` and its parts: decoding and packing a format, rounding a shift, arithmetic and
conversions. Words of 64 and 128 bits are natural numbers, cut where a shift, a sum or a product may leave the
width; exponents are exact integers.
-/

namespace Tir.Adt

open Rounding

/-- IEEE floating-point operations with explicit rounding and exception flags. -/
inductive FloatOp where
 | add | sub | mul | div | fma | sqrt | convert | signedToFloat | unsignedToFloat | floatToSigned | floatToUnsigned
deriving DecidableEq

/-- Binary floating-point or integer interchange width. -/
inductive FloatWidth where
 | w32 | w64
deriving DecidableEq

def FloatWidth.bitWidth : FloatWidth → Nat
 | .w32 => 32
 | .w64 => 64

/-- Result bits and IEEE flags ordered as invalid, divide-by-zero, overflow, underflow, and inexact in bits four
through zero. -/
structure FloatResult where
 bits : Nat
 flags : Nat
deriving DecidableEq

structure Format where
 fraction : Nat
 exponent : Nat
deriving DecidableEq

structure Finite where
 negative : Bool
 significand : Nat
 exponent : Int
deriving DecidableEq

inductive Decoded where
 | finite (value : Finite)
 | infinity (negative : Bool)
 | nan (bits : Nat) (signaling : Bool)
deriving DecidableEq

/-- A word of 128 bits. -/
def u128 (value : Nat) : Nat :=
 value % 2 ^ 128

def leadingZeros (value : Nat) : Nat :=
 if value = 0 then 128 else 127 - Nat.log2 value

/-! ## Rounding a shift -/

/-- The bits above a shift, rounded, and whether the shift loses any. -/
def roundShift (value shift : Nat) (negative : Bool) (rounding : RoundingMode) : Nat × Bool :=
 if shift = 0 then (value, false) else
  let (truncated, remainder, half) := if shift < 128 then
      let remainder := value &&& ((1 <<< shift) - 1)
      (value >>> shift, remainder, compare remainder (1 <<< (shift - 1)))
   else (0, value, if shift = 128 then compare value (1 <<< 127) else .lt)
  let inexact := remainder ≠ 0
  let increment := inexact && match rounding with
   | .tiesToEven => half = .gt || (half = .eq && truncated &&& 1 ≠ 0)
   | .tiesToAway => half ≠ .lt
   | .towardZero => false
   | .towardNegative => negative
   | .towardPositive => !negative
  (u128 (truncated + increment.toNat), inexact)

/-- The bits above a shift, the lowest of them sticky. -/
def shiftRightJam (value shift : Nat) : Nat :=
 if shift = 0 then value
 else if shift ≤ 127 then (value >>> shift) ||| (decide (u128 (value <<< (128 - shift)) ≠ 0)).toNat
 else (decide (value ≠ 0)).toNat

/-! ## Formats -/

namespace Format

def new : FloatWidth → Format
 | .w32 => ⟨23, 8⟩
 | .w64 => ⟨52, 11⟩

variable (format : Format)

def sign (negative : Bool) : Nat :=
 negative.toNat <<< (format.fraction + format.exponent)

def infinity (negative : Bool) : Nat :=
 format.sign negative ||| (((1 <<< format.exponent) - 1) <<< format.fraction)

def quietNan : Nat :=
 format.infinity false ||| (1 <<< (format.fraction - 1))

def bias : Int :=
 (1 <<< (format.exponent - 1) : Nat) - 1

def decode (bits : Nat) : Decoded :=
 let negative := bits &&& format.sign true ≠ 0
 let fraction := bits &&& ((1 <<< format.fraction) - 1)
 let exponent := (bits >>> format.fraction) &&& ((1 <<< format.exponent) - 1)
 if exponent = (1 <<< format.exponent) - 1 then
  if fraction = 0 then .infinity negative
  else .nan (format.sign negative ||| format.infinity false ||| fraction) (fraction &&& (1 <<< (format.fraction - 1)) = 0)
 else
  .finite ⟨negative, fraction ||| ((decide (exponent ≠ 0)).toNat <<< format.fraction),
   max exponent 1 - format.bias - format.fraction⟩

def pack (value : Finite) (rounding : RoundingMode) : FloatResult :=
 if value.significand = 0 then ⟨format.sign value.negative, 0⟩ else
  let top : Int := 127 - leadingZeros value.significand
  let minimum := 1 - format.bias
  let unboundedExponent := value.exponent + top
  let tiny := if unboundedExponent = minimum - 1 then
      let shift := top - format.fraction
      let rounded := if 0 < shift then (roundShift value.significand shift.toNat value.negative rounding).1
       else u128 (value.significand <<< (-shift).toNat)
      decide (rounded < 1 <<< (format.fraction + 1))
   else decide (unboundedExponent < minimum)
  let quantum := max (value.exponent + top) minimum - format.fraction
  let shift := quantum - value.exponent
  let (significand, inexact) := if 0 < shift then roundShift value.significand shift.toNat value.negative rounding
   else (u128 (value.significand <<< (-shift).toNat), false)
  let (significand, quantum) := if 1 <<< (format.fraction + 1) ≤ significand then (significand >>> 1, quantum + 1)
   else (significand, quantum)
  let exponent := quantum + format.fraction
  if format.bias < exponent then
   let infinite := match rounding with
    | .tiesToEven => true
    | .tiesToAway => true
    | .towardZero => false
    | .towardNegative => value.negative
    | .towardPositive => !value.negative
   ⟨format.infinity value.negative - (!infinite).toNat, 5⟩
  else
   let subnormal := significand < 1 <<< format.fraction
   let biased := if subnormal then 0 else (exponent + format.bias).toNat
   ⟨format.sign value.negative ||| (biased <<< format.fraction) ||| (significand &&& ((1 <<< format.fraction) - 1)),
    inexact.toNat ||| ((inexact && tiny).toNat <<< 1)⟩

/-- The first NaN among the operands, quieted; invalid where one of them is signaling. -/
def propagateNan (values : List Decoded) (invalid : Bool) : Option FloatResult :=
 let (result, flags) := values.foldl (fun (acc : Option Nat × Nat) value =>
  match value with
  | .nan bits signaling =>
   (some (acc.1.getD (bits ||| (1 <<< (format.fraction - 1)))), acc.2 ||| (signaling.toNat <<< 4))
  | _ => acc) (none, invalid.toNat <<< 4)
 result.map fun bits => ⟨bits, flags⟩

end Format

/-! ## Arithmetic -/

def invalid (format : Format) : FloatResult :=
 ⟨format.quietNan, 16⟩

namespace Decoded

def isZero : Decoded → Bool
 | .finite value => value.significand = 0
 | _ => false

/-- The sign of a value that is no NaN. -/
def negative : Decoded → Bool
 | .finite value => value.negative
 | .infinity negative => negative
 | .nan _ _ => false

def negate : Decoded → Decoded
 | .finite value => .finite { value with negative := !value.negative }
 | .infinity negative => .infinity !negative
 | .nan bits signaling => .nan bits signaling

def isInfinity : Decoded → Bool
 | .infinity _ => true
 | _ => false

end Decoded

/-- Where the source cannot go: a NaN is taken care of before. -/
def unreachable : FloatResult :=
 ⟨0, 0⟩

def finish (format : Format) (value : Decoded) (rounding : RoundingMode) : FloatResult :=
 match value with
 | .finite value => format.pack value rounding
 | .infinity negative => ⟨format.infinity negative, 0⟩
 | .nan _ _ => unreachable

def addFinite (left right : Finite) (rounding : RoundingMode) : Finite :=
 if left.significand = 0 ∧ right.significand = 0 then
  ⟨if left.negative = right.negative then left.negative else rounding = .towardNegative, 0, 0⟩
 else if left.significand = 0 then right
 else if right.significand = 0 then left
 else
  let top (value : Finite) : Int := value.exponent + 127 - leadingZeros value.significand
  let exponent := max (top left) (top right) - 120
  let align (value : Finite) : Nat :=
   let shift := value.exponent - exponent
   if 0 ≤ shift then u128 (value.significand <<< shift.toNat) else shiftRightJam value.significand (-shift).toNat
  let a := align left
  let b := align right
  if left.negative = right.negative then ⟨left.negative, u128 (a + b), exponent⟩
  else if a = b then ⟨rounding = .towardNegative, 0, exponent⟩
  else if b < a then ⟨left.negative, a - b, exponent⟩
  else ⟨right.negative, b - a, exponent⟩

def add (format : Format) (left right : Decoded) (rounding : RoundingMode) : FloatResult :=
 match left, right with
 | .infinity a, .infinity b => if a ≠ b then invalid format else finish format (.infinity a) rounding
 | .infinity sign, _ => finish format (.infinity sign) rounding
 | _, .infinity sign => finish format (.infinity sign) rounding
 | .finite left, .finite right => format.pack (addFinite left right rounding) rounding
 | _, _ => unreachable

def multiply (left right : Decoded) : Decoded :=
 let negative := left.negative ^^ right.negative
 match left, right with
 | .finite a, .finite b => .finite ⟨negative, u128 (a.significand * b.significand), a.exponent + b.exponent⟩
 | _, _ => .infinity negative

def divide (format : Format) (left right : Decoded) (rounding : RoundingMode) : FloatResult :=
 let negative := left.negative ^^ right.negative
 match left, right with
 | .infinity _, .infinity _ => invalid format
 | .infinity _, _ => ⟨format.infinity negative, 0⟩
 | _, .infinity _ => ⟨format.sign negative, 0⟩
 | .finite a, .finite b =>
  if b.significand = 0 then
   if a.significand = 0 then invalid format else ⟨format.infinity negative, 8⟩
  else if a.significand = 0 then ⟨format.sign negative, 0⟩
  else
   let aTop := 127 - leadingZeros a.significand
   let bTop := 127 - leadingZeros b.significand
   let numerator := u128 (a.significand <<< (126 - aTop))
   let denominator := u128 (b.significand <<< (63 - bTop))
   let significand := (numerator / denominator) ||| (decide (numerator % denominator ≠ 0)).toNat
   format.pack ⟨negative, significand, a.exponent - b.exponent + aTop - bTop - 63⟩ rounding
 | _, _ => unreachable

def sqrt (format : Format) (value : Decoded) (rounding : RoundingMode) : FloatResult :=
 match value with
 | .infinity false => finish format value rounding
 | .infinity true => invalid format
 | .finite value =>
  if value.significand = 0 then format.pack value rounding
  else if value.negative then invalid format
  else
   let value := if value.exponent % 2 ≠ 0 then
       { value with significand := u128 (value.significand <<< 1), exponent := value.exponent - 1 } else value
   let top := 127 - leadingZeros value.significand
   let shift := (126 - top) / 2 * 2
   let radicand := u128 (value.significand <<< shift)
   let root := Nat.sqrt radicand
   format.pack ⟨false, root ||| (decide (u128 (root * root) ≠ radicand)).toNat,
    value.exponent.tdiv 2 - (shift / 2 : Nat)⟩ rounding
 | .nan _ _ => unreachable

/-- Arithmetic on bit patterns of one format. -/
def eval (op : FloatOp) (format : Format) (operands : Nat × Nat × Nat) (rounding : RoundingMode) : FloatResult :=
 let a := format.decode operands.1
 let b := format.decode operands.2.1
 let c := format.decode operands.2.2
 let count := match op with
  | .sqrt => 1
  | .fma => 3
  | _ => 2
 let invalidProduct := (op = .mul || op = .fma) && (a.isInfinity && b.isZero || b.isInfinity && a.isZero)
 match format.propagateNan ([a, b, c].take count) invalidProduct with
 | some result => result
 | none =>
  if invalidProduct then invalid format
  else match op with
   | .add => add format a b rounding
   | .sub => add format a b.negate rounding
   | .mul => finish format (multiply a b) rounding
   | .fma => add format (multiply a b) c rounding
   | .div => divide format a b rounding
   | .sqrt => sqrt format a rounding
   | _ => unreachable

/-! ## Conversions -/

def fromInteger (bits : BitVec 64) (source : FloatWidth) (destination : Format) (isSigned : Bool) (rounding : RoundingMode) :
  FloatResult :=
 let (negative, significand) := match source, isSigned with
  | .w32, true => (decide ((bits.setWidth 32).toInt < 0), (bits.setWidth 32).toInt.natAbs)
  | .w64, true => (decide (bits.toInt < 0), bits.toInt.natAbs)
  | .w32, false => (false, (bits.setWidth 32).toNat)
  | .w64, false => (false, bits.toNat)
 destination.pack ⟨negative, significand, 0⟩ rounding

def convertFloat (bits : Nat) (source destination : Format) (rounding : RoundingMode) : FloatResult :=
 match source.decode bits with
 | .finite value => destination.pack value rounding
 | .infinity negative => ⟨destination.infinity negative, 0⟩
 | .nan bits signaling =>
  let payload := bits &&& ((1 <<< source.fraction) - 1)
  let payload := if source.fraction ≤ destination.fraction then payload <<< (destination.fraction - source.fraction)
   else payload >>> (source.fraction - destination.fraction)
  ⟨destination.sign (bits &&& source.sign true ≠ 0) ||| destination.quietNan ||| payload, signaling.toNat <<< 4⟩

def toInteger (bits : Nat) (source : Format) (destination : FloatWidth) (isSigned : Bool) (rounding : RoundingMode) : FloatResult :=
 match source.decode bits with
 | .finite value =>
  let width := destination.bitWidth
  if 0 ≤ value.exponent ∧ (width : Int) ≤ value.exponent then ⟨0, 16⟩ else
   let (magnitude, inexact) := if value.exponent < 0 then
       roundShift value.significand (-value.exponent).toNat value.negative rounding
    else (u128 (value.significand <<< value.exponent.toNat), false)
   let limit := if isSigned then (1 <<< (width - 1)) - (!value.negative).toNat else (1 <<< width) - 1
   if limit < magnitude ∨ (isSigned = false ∧ value.negative = true ∧ magnitude ≠ 0) then ⟨0, 16⟩
   else
    let bits := if value.negative then (2 ^ 64 - magnitude % 2 ^ 64) % 2 ^ 64 else magnitude % 2 ^ 64
    ⟨if width = 32 then bits % 2 ^ 32 else bits, inexact.toNat⟩
 | _ => ⟨0, 16⟩

scoped instance operand_neZero : NeZero 3 := ⟨by decide⟩

/-- Raw bits evaluated with one rounding. -/
def evalFloat (op : FloatOp) (source destination : FloatWidth) (operands : Fin 3 → BitVec 64) (rounding : RoundingMode) :
  FloatResult :=
 match op with
 | .signedToFloat => fromInteger (operands 0) source (.new destination) true rounding
 | .unsignedToFloat => fromInteger (operands 0) source (.new destination) false rounding
 | .floatToSigned => toInteger (operands 0).toNat (.new source) destination true rounding
 | .floatToUnsigned => toInteger (operands 0).toNat (.new source) destination false rounding
 | .convert => convertFloat (operands 0).toNat (.new source) (.new destination) rounding
 | _ => eval op (.new source) ((operands 0).toNat, (operands 1).toNat, (operands 2).toNat) rounding

end Tir.Adt
