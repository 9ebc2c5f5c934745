import Mathlib.Data.BitVec
import Mathlib.Data.Nat.Size

/-!
# Arbitrary-precision integers and raw bits

`APInt` is an integer of any positive width with a signedness flag, `RawBits` an
untyped bag of whole bytes. The source keeps both as machine words or bytes, least
significant first; here the words are one bit vector, so that the bits past the width
cannot be set. An operation whose source asserts something about its operands returns
`none` where the assertion fails.
-/

namespace Tir.Adt

/-- An integer of `width` bits; `signed` says how a widening reads the top bit. -/
structure APInt where
 width : Nat
 width_pos : 0 < width
 signed : Bool
 bits : BitVec width

namespace APInt

theorem ext_bits {a b : APInt} (hw : a.width = b.width) (hs : a.signed = b.signed)
  (hb : a.bits.toNat = b.bits.toNat) : a = b := by
 obtain ⟨w, p, s, x⟩ := a
 obtain ⟨w', p', s', y⟩ := b
 cases hw
 cases hs
 have hxy : x = y := BitVec.eq_of_toNat_eq hb
 cases hxy
 rfl

instance : DecidableEq APInt := fun a b =>
 decidable_of_iff (a.width = b.width ∧ a.signed = b.signed ∧ a.bits.toNat = b.bits.toNat)
  ⟨fun h => ext_bits h.1 h.2.1 h.2.2, fun h => h ▸ ⟨rfl, rfl, rfl⟩⟩

/-! ## Construction and views -/

/-- The unsigned value of `width` bits; the bits past the width are dropped. -/
def new (width value : Nat) : Option APInt :=
 if h : 0 < width then some ⟨width, h, false, BitVec.ofNat width value⟩ else none

def newSigned (width : Nat) (value : Int) : Option APInt :=
 if h : 0 < width then some ⟨width, h, true, BitVec.ofInt width value⟩ else none

/-- The largest unsigned value of the width of `a`. -/
def maxUnsigned (a : APInt) : APInt := ⟨a.width, a.width_pos, false, BitVec.allOnes a.width⟩

def toU64 (a : APInt) : Nat := a.bits.toNat % 2 ^ 64

def isZero (a : APInt) : Bool := a.bits.toNat == 0

/-- A value is negative only where it is signed. -/
def isNegative (a : APInt) : Bool := a.signed && a.bits.msb

def withSigned (a : APInt) (signed : Bool) : APInt := { a with signed := signed }

/-- The value as an `i64`: the low word, sign-extended from the width where negative. -/
def toI64 (a : APInt) : Int :=
 if a.isNegative then (a.bits.signExtend 64).toInt else (a.bits.setWidth 64).toInt

def countLeadingZeros (a : APInt) : Nat := a.width - a.bits.toNat.size

/-! ## Widening, narrowing and slicing -/

def zeroExtend (a : APInt) (width : Nat) : Option APInt :=
 if h : a.width ≤ width then
  some ⟨width, lt_of_lt_of_le a.width_pos h, false, a.bits.setWidth width⟩
 else none

def signExtend (a : APInt) (width : Nat) : Option APInt :=
 if h : a.width ≤ width then
  some ⟨width, lt_of_lt_of_le a.width_pos h, a.signed,
   if a.isNegative then a.bits.signExtend width else a.bits.setWidth width⟩
 else none

/-- The bits from `high` down to `low`, both included. -/
def extractBits (a : APInt) (high low : Nat) : Option APInt :=
 if low ≤ high ∧ high < a.width then
  some ⟨high - low + 1, Nat.succ_pos _, false, a.bits.extractLsb' low (high - low + 1)⟩
 else none

/-! ## Shifts -/

def zero (a : APInt) : APInt := ⟨a.width, a.width_pos, false, 0⟩

def shl (a : APInt) (shift : Nat) : APInt :=
 if a.width ≤ shift then a.zero else { a with bits := a.bits <<< shift }

def lshr (a : APInt) (shift : Nat) : APInt :=
 if a.width ≤ shift then a.zero else { a with signed := false, bits := a.bits >>> shift }

/-- Arithmetic shift right: only a value that is signed and negative fills with ones. -/
def ashr (a : APInt) (shift : Nat) : APInt :=
 if shift = 0 then a
 else if a.isNegative then { a with bits := a.bits.sshiftRight shift }
 else a.lshr shift

/-! ## Arithmetic and logic at one width -/

/-- A binary operation that asserts equal widths. -/
def zipWith (f : {w : Nat} → BitVec w → BitVec w → BitVec w) (signed : Bool) (a b : APInt) : Option APInt :=
 if h : b.width = a.width then
  some ⟨a.width, a.width_pos, signed, f a.bits (b.bits.cast h)⟩
 else none

def and (a b : APInt) : Option APInt := zipWith (· &&& ·) (a.signed && b.signed) a b

def or (a b : APInt) : Option APInt := zipWith (· ||| ·) (a.signed && b.signed) a b

def xor (a b : APInt) : Option APInt := zipWith (· ^^^ ·) (a.signed && b.signed) a b

def add (a b : APInt) : Option APInt := zipWith (· + ·) (a.signed && b.signed) a b

def sub (a b : APInt) : Option APInt := zipWith (· - ·) (a.signed && b.signed) a b

def mul (a b : APInt) : Option APInt := zipWith (· * ·) (a.signed && b.signed) a b

def not (a : APInt) : APInt := { a with bits := ~~~ a.bits }

def neg (a : APInt) : APInt := { a with bits := -a.bits }

/-- The upper half of the product of two values, each widened by its own sign. -/
def mulh (a b : APInt) : Option APInt := do
 let x ← a.signExtend (2 * a.width)
 let y ← b.signExtend (2 * a.width)
 let product ← x.mul y
 let high ← product.extractBits (2 * a.width - 1) a.width
 if b.width = a.width then some (high.withSigned true) else none

/-- Division and remainder assert a nonzero divisor. -/
def divide (f : {w : Nat} → BitVec w → BitVec w → BitVec w) (signed : Bool) (a b : APInt) : Option APInt :=
 if b.isZero then none else zipWith f signed a b

def udiv (a b : APInt) : Option APInt := divide BitVec.udiv false a b

def sdiv (a b : APInt) : Option APInt := divide BitVec.sdiv true a b

def urem (a b : APInt) : Option APInt := divide BitVec.umod false a b

def srem (a b : APInt) : Option APInt := divide BitVec.srem true a b

/-! ## Comparisons, on the bit pattern whatever the flag says -/

def compareWith (f : {w : Nat} → BitVec w → BitVec w → Bool) (a b : APInt) : Option Bool :=
 if h : b.width = a.width then some (f a.bits (b.bits.cast h)) else none

def ult (a b : APInt) : Option Bool := compareWith BitVec.ult a b

def ule (a b : APInt) : Option Bool := compareWith BitVec.ule a b

def ugt (a b : APInt) : Option Bool := compareWith (fun x y => BitVec.ult y x) a b

def uge (a b : APInt) : Option Bool := compareWith (fun x y => BitVec.ule y x) a b

def slt (a b : APInt) : Option Bool := compareWith BitVec.slt a b

def sle (a b : APInt) : Option Bool := compareWith BitVec.sle a b

def sgt (a b : APInt) : Option Bool := compareWith (fun x y => BitVec.slt y x) a b

def sge (a b : APInt) : Option Bool := compareWith (fun x y => BitVec.sle y x) a b

end APInt

/-! ## Raw bits -/

/-- Whole bytes of untyped bits, the first byte least significant. -/
structure RawBits where
 size : Nat
 bits : BitVec (8 * size)

namespace RawBits

def width (r : RawBits) : Nat := 8 * r.size

/-- An integer as raw bits, widened to a whole number of bytes. -/
def fromAPInt (a : APInt) : RawBits := ⟨(a.width + 7) / 8, a.bits.setWidth _⟩

/-- The bits as an unsigned integer; no bytes make no integer. -/
def toAPInt (r : RawBits) : Option APInt :=
 if h : 0 < 8 * r.size then some ⟨8 * r.size, h, false, r.bits⟩ else none

def ofNat (bytes value : Nat) : RawBits := ⟨bytes, BitVec.ofNat _ value⟩

/-- Piece `lane` of pieces of `bytes` bytes each; bits past the end read as zero. -/
def lane (r : RawBits) (bytes lane : Nat) : RawBits :=
 ⟨bytes, r.bits.extractLsb' (8 * bytes * lane) (8 * bytes)⟩

/-- `lanes` equal pieces, lane 0 from the low bits. -/
def split (r : RawBits) (lanes : Nat) : Option (List RawBits) :=
 if 0 < lanes ∧ r.size % lanes = 0 then
  if r.size = 0 then none
  else some ((List.range lanes).map (r.lane (r.size / lanes)))
 else none

/-- `lanes` pieces of `laneBits` bits, lane 0 from the low bits. -/
def splitLanes (r : RawBits) (lanes laneBits : Nat) : Option (List RawBits) :=
 if 0 < lanes ∧ 0 < laneBits ∧ laneBits % 8 = 0 then
  some ((List.range lanes).map (r.lane (laneBits / 8)))
 else none

end RawBits

end Tir.Adt
