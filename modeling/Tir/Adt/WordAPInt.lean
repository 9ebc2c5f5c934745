import Tir.Adt.WordArith

/-!
# Arbitrary-precision integers as the source stores them

An integer of at most 64 bits is one word; a wider one keeps the limbs above its low word beside it. Every
operation has a path for each, and returns `none` where an assertion of the source fails. Words are `u64`, widths
and shift amounts are numbers.
-/

open BitVec

namespace Tir.Adt.Limbs

/-! ## Masks and lengths -/

def maskForWidth (width : Nat) : Word :=
 if 64 ≤ width then allOnes 64 else 1#64 <<< width - 1#64

/-- The words cut or filled up to a length. -/
def resize (words : List Word) (length : Nat) (fill : Word) : List Word :=
 words.take length ++ List.replicate (length - words.length) fill

/-- The last index below `n` that satisfies `p`. -/
def rposition (p : Nat → Bool) : Nat → Option Nat
 | 0 => none
 | n + 1 => if p n then some n else rposition p n

def leadingZeros (w : Word) : Nat :=
 ((List.range 64).find? fun k => w.getLsbD (63 - k)).getD 64

def trailingZeros (w : Word) : Nat :=
 ((List.range 64).find? fun k => w.getLsbD k).getD 64

/-- An integer: `high` is there from 65 bits on. -/
structure APInt where
 width : Nat
 signed : Bool
 value : Word
 high : Option (List Word)
 deriving DecidableEq

namespace APInt

/-! ## Construction and views -/

def limbs (x : APInt) : List Word := x.value :: x.high.getD []

/-- An integer from its limbs; the missing ones are zero, the bits past the width are dropped. -/
def fromWords (width : Nat) (signed : Bool) (words : List Word) : APInt :=
 let sized := resize words (limbCount width) 0#64
 let masked := sized.modify (sized.length - 1) (· &&& maskForWidth (width - 64 * (limbCount width - 1)))
 ⟨width, signed, masked.headD 0#64, if 64 < width then some masked.tail else none⟩

/-- An integer of one word, masked. -/
def word (width : Nat) (signed : Bool) (value : Word) : APInt :=
 ⟨width, signed, value &&& maskForWidth width, none⟩

def new (width : Nat) (value : Word) : Option APInt :=
 if width = 0 then none
 else if 64 < width then some (fromWords width false [value])
 else some (word width false value)

def zero (width : Nat) : Option APInt := new width 0#64

def isZero (x : APInt) : Bool :=
 x.value == 0#64 && (x.high.getD []).all (· == 0#64)

def bit (x : APInt) (index : Nat) : Bool :=
 let limb : Word := match index / 64 with
  | 0 => x.value
  | n + 1 => match x.high with
   | none => 0#64
   | some high => high.getD n 0#64
 limb >>> (index % 64) &&& 1#64 != 0#64

def topBit (x : APInt) : Bool := x.bit (x.width - 1)

def isNegative (x : APInt) : Bool := x.signed && x.topBit

def withSigned (x : APInt) (signed : Bool) : APInt := { x with signed := signed }

/-- The word read as an `i64` at the width, whatever the flag says. -/
def signedAtWidth (x : APInt) : Word :=
 if 64 ≤ x.width then x.value
 else (x.value <<< (64 - x.width)).sshiftRight (64 - x.width)

def sextU128 (x : APInt) : BitVec 128 :=
 if x.isNegative then x.value.setWidth 128 ||| allOnes 128 <<< x.width else x.value.setWidth 128

/-! ## Widening, narrowing and slicing -/

def zeroExtend (x : APInt) (newWidth : Nat) : Option APInt :=
 if x.width ≤ newWidth then some (fromWords newWidth false x.limbs) else none

def signExtend (x : APInt) (newWidth : Nat) : Option APInt :=
 if x.width ≤ newWidth then
  if !x.isNegative then some (fromWords newWidth x.signed x.limbs)
  else
   let top := x.limbs.length - 1
   let words := x.limbs.modify top (· ||| ~~~ maskForWidth (x.width - 64 * top))
   some (fromWords newWidth true (resize words (limbCount newWidth) (allOnes 64)))
 else none

/-- A width of zero leaves no word to read. -/
def truncate (x : APInt) (newWidth : Nat) : Option APInt :=
 if 0 < newWidth ∧ newWidth ≤ x.width then some (fromWords newWidth x.signed x.limbs) else none

def extractBits (x : APInt) (high low : Nat) : Option APInt :=
 if low ≤ high ∧ high < x.width then
  if 64 < x.width then some (fromWords (high - low + 1) false (lshrWords x.limbs low))
  else some (word (high - low + 1) false (x.value >>> low))
 else none

/-! ## Logic -/

/-- A word operation on each pair of limbs. -/
def limbwise (f : Word → Word → Word) (x y : APInt) : Option APInt :=
 if x.width = y.width then
  if 64 < x.width then some (fromWords x.width (x.signed && y.signed) (List.zipWith f x.limbs y.limbs))
  else some ⟨x.width, x.signed && y.signed, f x.value y.value, none⟩
 else none

def and (x y : APInt) : Option APInt := limbwise (· &&& ·) x y

def or (x y : APInt) : Option APInt := limbwise (· ||| ·) x y

def xor (x y : APInt) : Option APInt := limbwise (· ^^^ ·) x y

def not (x : APInt) : APInt :=
 if 64 < x.width then fromWords x.width x.signed (x.limbs.map (~~~ ·))
 else word x.width x.signed (~~~ x.value)

/-! ## Shifts -/

def shl (x : APInt) (shift : Nat) : Option APInt :=
 if x.width ≤ shift then zero x.width
 else if 64 < x.width then some (fromWords x.width x.signed (shlWords x.limbs shift))
 else some (word x.width x.signed (x.value <<< shift))

def lshr (x : APInt) (shift : Nat) : Option APInt :=
 if x.width ≤ shift then zero x.width
 else if 64 < x.width then some (fromWords x.width false (lshrWords x.limbs shift))
 else some ⟨x.width, false, x.value >>> shift, none⟩

/-- Arithmetic shift right: only a value that is signed and negative fills with ones. -/
def ashr (x : APInt) (shift : Nat) : Option APInt :=
 if shift = 0 then some x
 else if 64 < x.width then
  if !x.isNegative then x.lshr shift
  else (x.not.lshr shift).map fun filled => filled.not.withSigned x.signed
 else if x.width ≤ shift then
  if x.isNegative then some ⟨x.width, x.signed, maskForWidth x.width, none⟩ else zero x.width
 else if x.signed && x.isNegative then
  let mask := maskForWidth x.width
  let signExtension := mask <<< (x.width - shift) &&& mask
  some ⟨x.width, x.signed, x.value >>> shift ||| signExtension, none⟩
 else x.lshr shift

/-! ## Arithmetic -/

def add (x y : APInt) : Option APInt :=
 if x.width = y.width then
  if 64 < x.width then some (fromWords x.width (x.signed && y.signed) (addWords x.limbs y.limbs))
  else some (word x.width (x.signed && y.signed) (x.value + y.value))
 else none

def sub (x y : APInt) : Option APInt :=
 if x.width = y.width then
  if 64 < x.width then some (fromWords x.width (x.signed && y.signed) (subWords x.limbs y.limbs))
  else some (word x.width (x.signed && y.signed) (x.value - y.value))
 else none

def neg (x : APInt) : Option APInt :=
 if 64 < x.width then do
  let difference ← sub (← zero x.width) x
  return difference.withSigned x.signed
 else some (word x.width x.signed (~~~ x.value + 1#64))

/-- The low half of the product. -/
def mul (x y : APInt) : Option APInt :=
 if x.width = y.width then
  if 64 < x.width then some (fromWords x.width (x.signed && y.signed) (mulWords x.limbs y.limbs))
  else some (word x.width (x.signed && y.signed) ((x.value.setWidth 128 * y.value.setWidth 128).setWidth 64))
 else none

/-- The high half of the unsigned product. -/
def mulhu (x y : APInt) : Option APInt :=
 if x.width = y.width then
  if 64 < x.width then do
   let double := 2 * x.width
   let product ← mul (← x.zeroExtend double) (← y.zeroExtend double)
   product.extractBits (double - 1) x.width
  else
   let fullResult := x.value.setWidth 128 * y.value.setWidth 128
   some (word x.width false ((fullResult >>> x.width).setWidth 64))
 else none

/-- The high half of the product of two values, each widened by its own sign. -/
def mulh (x y : APInt) : Option APInt :=
 if x.width = y.width then
  if 64 < x.width then do
   let double := 2 * x.width
   let product ← mul (← x.signExtend double) (← y.signExtend double)
   return (← product.extractBits (double - 1) x.width).withSigned true
  else
   let fullResult := x.sextU128 * y.sextU128
   some (word x.width true ((fullResult >>> x.width).setWidth 64))
 else none

/-! ## Division -/

/-- The limbs of the absolute value of the bits. -/
def magnitude (x : APInt) : Option (List Word) :=
 if x.topBit then (x.neg).map limbs else some x.limbs

def negateIf (x : APInt) (flip : Bool) : Option APInt :=
 if flip then x.neg else some x

/-- Truncating division on the bits, the high bit the sign whatever the flag says. -/
def signedDivrem (x y : APInt) : Option (APInt × APInt) := do
 let words := divremWords (← x.magnitude) (← y.magnitude) x.width
 let quotient ← (fromWords x.width true words.1).negateIf (x.topBit != y.topBit)
 let remainder ← (fromWords x.width true words.2).negateIf x.topBit
 return (quotient, remainder)

def divrem (x y : APInt) (signed : Bool) : Option (APInt × APInt) :=
 if x.width = y.width ∧ !y.isZero then
  if 64 < x.width ∧ signed then x.signedDivrem y
  else if 64 < x.width then
   let (quotient, remainder) := divremWords x.limbs y.limbs x.width
   some (fromWords x.width false quotient, fromWords x.width false remainder)
  else
   let (quotient, remainder) :=
    if signed then (x.signedAtWidth.sdiv y.signedAtWidth, x.signedAtWidth.srem y.signedAtWidth)
    else (x.value / y.value, x.value % y.value)
   some (word x.width signed quotient, word x.width signed remainder)
 else none

def udiv (x y : APInt) : Option APInt := (divrem x y false).map Prod.fst

def sdiv (x y : APInt) : Option APInt := (divrem x y true).map Prod.fst

def urem (x y : APInt) : Option APInt := (divrem x y false).map Prod.snd

def srem (x y : APInt) : Option APInt := (divrem x y true).map Prod.snd

/-! ## Comparison and counting -/

def ucmp (x y : APInt) : Option Ordering :=
 if x.width = y.width then
  if 64 < x.width then some (cmpWords x.limbs y.limbs) else some (compare x.value.toNat y.value.toNat)
 else none

/-- Signed comparison, on the bit pattern whatever the flag says. -/
def scmp (x y : APInt) : Option Ordering :=
 if x.width = y.width then
  if 64 < x.width then some ((compare y.topBit x.topBit).then (cmpWords x.limbs y.limbs))
  else some (compare x.signedAtWidth.toInt y.signedAtWidth.toInt)
 else none

def countLeadingZeros (x : APInt) : Nat :=
 if x.isZero then x.width
 else if 64 < x.width then
  let top := (rposition (fun i => x.limbs.getD i 0#64 != 0#64) x.limbs.length).getD 0
  x.width - (64 * top + 64 - leadingZeros (x.limbs.getD top 0#64))
 else leadingZeros (x.value &&& maskForWidth x.width) - (64 - x.width)

def countTrailingZeros (x : APInt) : Nat :=
 if x.isZero then x.width
 else if 64 < x.width then
  let low := ((List.range x.limbs.length).find? fun i => x.limbs.getD i 0#64 != 0#64).getD 0
  64 * low + trailingZeros (x.limbs.getD low 0#64)
 else min (trailingZeros x.value) x.width

/-! ## What an integer means -/

/-- The unsigned value of the bits. -/
def u (x : APInt) : Nat := Words.value x.limbs

/-- The two's-complement value of the bits. -/
def s (x : APInt) : Int := if x.u.testBit (x.width - 1) then x.u - 2 ^ x.width else x.u

/-- The value the flag asks for. -/
def reading (x : APInt) : Int := if x.signed then x.s else x.u

/-- The high limbs are there exactly from 65 bits on, and the bits past the width are clear. -/
structure Valid (x : APInt) : Prop where
 width_pos : 0 < x.width
 high_length : x.high.map List.length = if 64 < x.width then some (limbCount x.width - 1) else none
 clear : x.u < 2 ^ x.width

/-- A valid result of `width` bits that spells `n` modulo `2 ^ width`. -/
def Yields (result : Option APInt) (width : Nat) (n : Int) : Prop :=
 ∃ z, result = some z ∧ Valid z ∧ z.width = width ∧ (z.u : Int) = n % 2 ^ width

/-- The bits from the top down to the first one set. -/
structure LeadingZeros (x : APInt) (count : Nat) : Prop where
 le_width : count ≤ x.width
 clear : ∀ i, x.width - count ≤ i → i < x.width → x.u.testBit i = false
 stop : count < x.width → x.u.testBit (x.width - 1 - count) = true

/-- The bits from the bottom up to the first one set. -/
structure TrailingZeros (x : APInt) (count : Nat) : Prop where
 le_width : count ≤ x.width
 clear : ∀ i < count, x.u.testBit i = false
 stop : count < x.width → x.u.testBit count = true

end APInt

end Tir.Adt.Limbs
