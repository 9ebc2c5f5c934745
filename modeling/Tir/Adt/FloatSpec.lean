import Mathlib.Analysis.Real.Sqrt
import Tir.Adt.FloatEnv

/-!
# What floating-point operations compute

The data that bit patterns stand for, the exact result of each operation on them, and what it is to round an exact
result once: the bits encode the rounded real, and the flags say what rounding did (`Correct`).
-/

namespace Tir.Adt

open Rounding

/-! ## Data -/

/-- What a bit pattern stands for. -/
inductive Datum where
 | nan (negative : Bool) (fraction : Nat)
 | infinity (negative : Bool)
 | finite (negative : Bool) (magnitude : ℝ)

namespace Format

variable (format : Format)

/-- The bit pattern of a sign, a biased exponent and a fraction. -/
def fields (negative : Bool) (biased fraction : Nat) : Nat :=
 negative.toNat * 2 ^ (format.fraction + format.exponent) + biased * 2 ^ format.fraction + fraction

/-- The exponent field of infinities and NaNs. -/
def special : Nat :=
 2 ^ format.exponent - 1

/-- The exponent of the least normal number. -/
def minimum : Int :=
 1 - format.bias

/-- The value of a biased exponent and a fraction. -/
noncomputable def magnitude (biased fraction : Nat) : ℝ :=
 if biased = 0 then fraction * 2 ^ (format.minimum - format.fraction)
 else (2 ^ format.fraction + fraction) * 2 ^ (biased - format.bias - format.fraction)

noncomputable def datum (bits : Nat) : Datum :=
 let negative := bits / 2 ^ (format.fraction + format.exponent) % 2 = 1
 let biased := bits / 2 ^ format.fraction % 2 ^ format.exponent
 let fraction := bits % 2 ^ format.fraction
 if biased = format.special then
  if fraction = 0 then .infinity negative else .nan negative fraction
 else .finite negative (format.magnitude biased fraction)

/-- The leading bit of the fraction tells a quiet NaN. -/
def isSignaling (fraction : Nat) : Bool :=
 fraction / 2 ^ (format.fraction - 1) % 2 = 0

def quieted (fraction : Nat) : Nat :=
 fraction % 2 ^ (format.fraction - 1) + 2 ^ (format.fraction - 1)

/-! ## Rounding -/

/-- A real rounded to a multiple of a power of two. -/
noncomputable def roundTo (mode : RoundingMode) (v : ℝ) (quantum : Int) : ℝ :=
 mode.toInt (v / 2 ^ quantum) * 2 ^ quantum

/-- A real rounded to the format's precision, without a limit on its exponent. -/
noncomputable def roundUnbounded (mode : RoundingMode) (v : ℝ) : ℝ :=
 roundTo mode v (Int.log 2 |v| - format.fraction)

/-- A real rounded to the format's precision and to its least quantum. -/
noncomputable def roundFinite (mode : RoundingMode) (v : ℝ) : ℝ :=
 roundTo mode v (max (Int.log 2 |v|) format.minimum - format.fraction)

noncomputable def maxFinite : ℝ :=
 format.magnitude (format.special - 1) (2 ^ format.fraction - 1)

/-- The real rounded without a limit on its exponent exceeds the format. -/
def Overflows (mode : RoundingMode) (v : ℝ) : Prop :=
 format.maxFinite < |format.roundUnbounded mode v|

/-- The real is tiny after rounding. -/
def Tiny (mode : RoundingMode) (v : ℝ) : Prop :=
 |format.roundUnbounded mode v| < 2 ^ format.minimum

/-- The rounding direction takes a real beyond the format to an infinity. -/
def toInfinity (mode : RoundingMode) (negative : Bool) : Bool :=
 match mode with
 | .tiesToEven => true
 | .tiesToAway => true
 | .towardZero => false
 | .towardNegative => negative
 | .towardPositive => !negative

/-- The result of a real that is not zero, of the sign given: beyond the format an infinity or the largest number, else the
encoding of the rounded real. -/
def Rounds (mode : RoundingMode) (v : ℝ) (negative : Bool) (result : FloatResult) : Prop :=
 (format.Overflows mode v → result.flags = 5 ∧ result.bits =
  if toInfinity mode negative then format.fields negative format.special 0
  else format.fields negative (format.special - 1) (2 ^ format.fraction - 1)) ∧
 (¬format.Overflows mode v →
  (∃ biased fraction, biased < format.special ∧ fraction < 2 ^ format.fraction ∧
   result.bits = format.fields negative biased fraction ∧
   signed negative (format.magnitude biased fraction) = format.roundFinite mode v) ∧
  ∃ inexact tiny : Bool, (inexact = true ↔ format.roundFinite mode v ≠ v) ∧ (tiny = true ↔ format.Tiny mode v) ∧
   result.flags = inexact.toNat + 2 * (inexact && tiny).toNat)

end Format

/-! ## Exact results -/

/-- The exact result of an operation. -/
inductive Exact where
 | invalid
 | infinite (negative divideByZero : Bool)
 | zero (negative : Bool)
 | value (v : ℝ)

namespace Exact

/-- An exact real, with the sign it has where it is zero. -/
noncomputable def ofReal (negativeZero : Bool) (v : ℝ) : Exact :=
 if v = 0 then .zero negativeZero else .value v

/-- The sum. A zero sum of opposite signs is negative only where rounding goes down. -/
noncomputable def add (mode : RoundingMode) : Datum → Datum → Exact
 | .infinity a, .infinity b => if a = b then .infinite a false else .invalid
 | .infinity a, .finite _ _ => .infinite a false
 | .finite _ _, .infinity b => .infinite b false
 | .finite a x, .finite b y => ofReal (if a = b then a else mode = .towardNegative) (signed a x + signed b y)
 | _, _ => .invalid

/-- The product, which is undefined for an infinity and a zero. -/
noncomputable def product : Datum → Datum → Option Datum
 | .infinity a, .infinity b => some (.infinity (a ^^ b))
 | .infinity a, .finite b y => if y = 0 then none else some (.infinity (a ^^ b))
 | .finite a x, .infinity b => if x = 0 then none else some (.infinity (a ^^ b))
 | .finite a x, .finite b y => some (.finite (a ^^ b) (x * y))
 | _, _ => none

/-- A datum as an exact result. -/
noncomputable def ofDatum : Datum → Exact
 | .infinity a => .infinite a false
 | .finite a x => ofReal a (signed a x)
 | .nan _ _ => .invalid

noncomputable def mul (x y : Datum) : Exact :=
 match product x y with
 | some z => ofDatum z
 | none => .invalid

noncomputable def fma (mode : RoundingMode) (x y z : Datum) : Exact :=
 match product x y with
 | some w => add mode w z
 | none => .invalid

noncomputable def div : Datum → Datum → Exact
 | .infinity _, .infinity _ => .invalid
 | .infinity a, .finite b _ => .infinite (a ^^ b) false
 | .finite a _, .infinity b => .zero (a ^^ b)
 | .finite a x, .finite b y =>
  if y = 0 then if x = 0 then .invalid else .infinite (a ^^ b) true
  else ofReal (a ^^ b) (signed (a ^^ b) (x / y))
 | _, _ => .invalid

noncomputable def sqrt : Datum → Exact
 | .infinity a => if a then .invalid else .infinite a false
 | .finite a x => if x = 0 then .zero a else if a then .invalid else .value (Real.sqrt x)
 | .nan _ _ => .invalid

end Exact

/-- A result meets an exact one: special values as they are, a real rounded once. -/
def Meets (format : Format) (mode : RoundingMode) (exact : Exact) (result : FloatResult) : Prop :=
 match exact with
 | .invalid => result = ⟨format.fields false format.special (format.quieted 0), 16⟩
 | .infinite negative divideByZero => result = ⟨format.fields negative format.special 0, if divideByZero then 8 else 0⟩
 | .zero negative => result = ⟨format.fields negative 0 0, 0⟩
 | .value v => ∃ negative : Bool, (negative = true ↔ v < 0) ∧ format.Rounds mode v negative result

/-! ## Operations -/

/-- The sign and the fraction of the first NaN. -/
def firstNan : List Datum → Option (Bool × Nat)
 | [] => none
 | .nan negative fraction :: _ => some (negative, fraction)
 | _ :: data => firstNan data

/-- Some datum is a signaling NaN. -/
def Signals (format : Format) (data : List Datum) : Prop :=
 ∃ negative fraction, Datum.nan negative fraction ∈ data ∧ format.isSignaling fraction = true

/-- An infinity is multiplied with a zero. -/
def InvalidProduct : Datum → Datum → Prop
 | .infinity _, .finite _ y => y = 0
 | .finite _ x, .infinity _ => x = 0
 | _, _ => False

/-- The result of an operation on the operands it reads: the first NaN quieted, else the exact result rounded. -/
def Delivers (format : Format) (mode : RoundingMode) (data : List Datum) (invalidProduct : Prop) (exact : Exact)
  (result : FloatResult) : Prop :=
 match firstNan data with
 | some (negative, fraction) =>
  result.bits = format.fields negative format.special (format.quieted fraction) ∧
   ∃ invalid : Bool, (invalid = true ↔ Signals format data ∨ invalidProduct) ∧ result.flags = 16 * invalid.toNat
 | none => Meets format mode exact result

/-- The integer that the operand of a conversion spells. -/
def integerOf (width : FloatWidth) (isSigned : Bool) (bits : BitVec 64) : Int :=
 match width, isSigned with
 | .w32, true => (bits.setWidth 32).toInt
 | .w32, false => (bits.setWidth 32).toNat
 | .w64, true => bits.toInt
 | .w64, false => bits.toNat

def InRange (width : FloatWidth) (isSigned : Bool) (n : Int) : Prop :=
 if isSigned then -2 ^ (width.bitWidth - 1) ≤ n ∧ n < 2 ^ (width.bitWidth - 1) else 0 ≤ n ∧ n < 2 ^ width.bitWidth

/-- A float converted to an integer: rounded, and invalid where it leaves the width. -/
def DeliversInteger (datum : Datum) (width : FloatWidth) (isSigned : Bool) (mode : RoundingMode) (result : FloatResult) : Prop :=
 match datum with
 | .finite negative magnitude =>
  let v := signed negative magnitude
  (InRange width isSigned (mode.toInt v) → (result.bits : Int) = mode.toInt v % 2 ^ width.bitWidth ∧
   ∃ inexact : Bool, (inexact = true ↔ (mode.toInt v : ℝ) ≠ v) ∧ result.flags = inexact.toNat) ∧
  (¬InRange width isSigned (mode.toInt v) → result.flags = 16)
 | _ => result.flags = 16

/-- A float converted between formats: a NaN keeps the leading bits of its fraction, quieted. -/
def DeliversConversion (source destination : Format) (mode : RoundingMode) (datum : Datum) (result : FloatResult) : Prop :=
 match datum with
 | .nan negative fraction =>
  result = ⟨destination.fields negative destination.special (destination.quieted
   (fraction * 2 ^ destination.fraction / 2 ^ source.fraction)), if source.isSignaling fraction then 16 else 0⟩
 | datum => Meets destination mode (Exact.ofDatum datum) result

/-- The result is the operation's exact result on the operands, rounded once. -/
def Correct (op : FloatOp) (source destination : FloatWidth) (operands : Fin 3 → BitVec 64) (mode : RoundingMode)
  (result : FloatResult) : Prop :=
 let format := Format.new source
 let x := format.datum (operands 0).toNat
 let y := format.datum (operands 1).toNat
 let z := format.datum (operands 2).toNat
 match op with
 | .add => Delivers format mode [x, y] False (Exact.add mode x y) result
 | .sub =>
  Delivers format mode [x, y] False (match y with
   | .finite negative magnitude => Exact.add mode x (.finite (!negative) magnitude)
   | .infinity negative => Exact.add mode x (.infinity !negative)
   | .nan _ _ => .invalid) result
 | .mul => Delivers format mode [x, y] (InvalidProduct x y) (Exact.mul x y) result
 | .div => Delivers format mode [x, y] False (Exact.div x y) result
 | .fma => Delivers format mode [x, y, z] (InvalidProduct x y) (Exact.fma mode x y z) result
 | .sqrt => Delivers format mode [x] False (Exact.sqrt x) result
 | .convert => DeliversConversion format (.new destination) mode x result
 | .signedToFloat =>
  Meets (.new destination) mode (Exact.ofReal false (integerOf source true (operands 0))) result
 | .unsignedToFloat =>
  Meets (.new destination) mode (Exact.ofReal false (integerOf source false (operands 0))) result
 | .floatToSigned => DeliversInteger x destination true mode result
 | .floatToUnsigned => DeliversInteger x destination false mode result

end Tir.Adt
