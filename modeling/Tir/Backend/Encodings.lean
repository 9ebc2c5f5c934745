import Mathlib.Data.BitVec

/-!
# Instruction encodings

The table-driven encoder, patcher and decoder of `encodings.rs`. An encoding is a list of shapes, each a word
of fixed bits, the runs of bits its operands are scattered into and a guard over the operands that selects it.
`none` is the source's refusal.
-/

namespace Tir.Backend.Encodings

/-- One contiguous run of an operand's bits placed into the encoded word. -/
structure FieldRun where
 opLo : Nat
 wordLo : Nat
 width : Nat
deriving DecidableEq

def runMask (width : Nat) : BitVec 128 :=
 if 128 ≤ width then BitVec.allOnes 128 else ((1 : BitVec 128) <<< width) - 1

def scatter (word value : BitVec 128) (runs : List FieldRun) : BitVec 128 :=
 runs.foldl (fun word run => word ||| ((value >>> run.opLo &&& runMask run.width) <<< run.wordLo)) word

def gather (word : BitVec 32) (runs : List FieldRun) : BitVec 64 :=
 runs.foldl (fun value run =>
  value ||| (((word >>> run.wordLo).setWidth 64 &&& (runMask run.width).setWidth 64) <<< run.opLo)) 0

/-! ## Operands -/

inductive FixupTarget where
 | symbol (name : String)
 | block (id : Nat)
deriving DecidableEq

/-- What one operand of the instruction being encoded holds. -/
inductive Operand where
 /-- The bits to scatter, and the same value read as a signed integer. -/
 | known (bits : BitVec 128) (signed : Int)
 /-- A symbol or branch target: its bits stay zero until layout resolves it. -/
 | fixup (target : FixupTarget)
 /-- No value at all: an unplaced register, or an absent attribute. -/
 | missing

inductive AttributeValue where
 | int (v : BitVec 64)
 | uint (v : BitVec 64)
 | str (s : String)
 | block (b : Nat)
 | other

/-- An instruction as its operands are read: the register slots by name, with the index of the register of
each that is placed, and the attributes. -/
structure Inst where
 slot : String → Option (Option (BitVec 16))
 attr : String → Option AttributeValue

def Inst.get (inst : Inst) (name : String) : Operand :=
 match inst.slot name with
 | some (some index) => .known (index.setWidth 128) index.toNat
 | some none => .missing
 | none =>
  match inst.attr name with
  | some (.int v) => .known (v.signExtend 128) v.toInt
  | some (.uint v) => .known (v.setWidth 128) v.toNat
  | some (.str s) => .fixup (.symbol s)
  | some (.block b) => .fixup (.block b)
  | _ => .missing

/-- The operands of an instruction, by name. -/
abbrev Operands := String → Operand

def Operands.pattern (operands : Operands) (name : String) (width : Nat) : Option (BitVec 128) :=
 match operands name with
 | .known bits _ => some (bits &&& runMask width)
 | _ => none

def Operands.isFixup (operands : Operands) (name : String) : Bool :=
 match operands name with
 | .fixup _ => true
 | _ => false

/-! ## Guards -/

/-- How a comparison reads its operand. -/
inductive CmpOp where
 | eq | ne | lt | le | gt | ge | ult | ule | ugt | uge
deriving DecidableEq

/-- The condition under which a shape is the encoding, as a test over the operands. -/
inductive Guard where
 | true
 | not (guard : Guard)
 | and (guards : List Guard)
 | or (guards : List Guard)
 /-- Bit `bit` of the operand's encoded value is set. -/
 | bit (op : String) (bit : Nat)
 /-- The operand's bits from `lo` to `hi` equal `value`. -/
 | sliceEq (op : String) (lo hi : Nat) (value : BitVec 128)
 /-- The `width`-bit operand is representable in `bits` bits, two's complement. -/
 | signedFits (op : String) (width bits : Nat)
 /-- The `width`-bit operand is representable in `bits` bits, unsigned. -/
 | unsignedFits (op : String) (width bits : Nat)
 /-- The `width`-bit operand compares to `value`, both read at `cmpWidth` bits. -/
 | cmp (op : String) (width cmpWidth : Nat) (cmp : CmpOp) (value : Int)
 /-- Two operands spell the same `width`-bit pattern. -/
 | same (a b : String) (width : Nat)

/-- What a guard evaluates to. Undecided when it reads an operand that has no value yet. -/
inductive Truth where
 | no | yes | undecided
deriving DecidableEq

namespace Truth

def of (value : Bool) : Truth :=
 if value then yes else no

def not : Truth → Truth
 | no => yes
 | yes => no
 | undecided => undecided

/-- One step of a conjunction. -/
def and : Truth → Truth → Truth
 | no, _ => no
 | _, no => no
 | undecided, _ => undecided
 | _, undecided => undecided
 | _, _ => yes

/-- One step of a disjunction. -/
def or : Truth → Truth → Truth
 | yes, _ => yes
 | _, yes => yes
 | undecided, _ => undecided
 | _, undecided => undecided
 | _, _ => no

end Truth

/-- A fixup needs the widest immediate the instruction spells. -/
def fixupFits (operands : Operands) (op : String) : Truth :=
 if operands.isFixup op then .no else .undecided

/-- A pattern as a two's complement integer. -/
def signedValue (pattern : BitVec 128) (width : Nat) : Int :=
 if decide (0 < width) && decide (width < 128) && pattern.getLsbD (width - 1) then
  (pattern ||| ~~~runMask width).toInt
 else
  pattern.toInt

def CmpOp.test (cmp : CmpOp) (at' : Nat) (pattern rhs : BitVec 128) : Bool :=
 match cmp with
 | .eq => pattern = rhs
 | .ne => pattern ≠ rhs
 | .lt => signedValue pattern at' < signedValue rhs at'
 | .le => signedValue pattern at' ≤ signedValue rhs at'
 | .gt => signedValue rhs at' < signedValue pattern at'
 | .ge => signedValue rhs at' ≤ signedValue pattern at'
 | .ult => pattern.ult rhs
 | .ule => pattern.ule rhs
 | .ugt => rhs.ult pattern
 | .uge => rhs.ule pattern

mutual

def Guard.holds (operands : Operands) : Guard → Truth
 | .true => .yes
 | .not guard => (guard.holds operands).not
 | .and guards => holdsAll operands .yes guards
 | .or guards => holdsAny operands .no guards
 | .bit op bit =>
  match operands.pattern op (bit + 1) with
  | some pattern => .of (pattern.getLsbD bit)
  | none => .undecided
 | .sliceEq op lo hi value =>
  match operands.pattern op (hi + 1) with
  | some pattern => .of (pattern >>> lo = value)
  | none => .undecided
 | .signedFits op width bits =>
  match operands.pattern op width with
  | some pattern =>
   .of (-(2 ^ (bits - 1)) ≤ signedValue pattern width && signedValue pattern width < 2 ^ (bits - 1))
  | none => fixupFits operands op
 | .unsignedFits op width bits =>
  match operands.pattern op width with
  | some pattern => .of (pattern.toNat < 2 ^ bits)
  | none => fixupFits operands op
 | .cmp op width cmpWidth cmp value =>
  match operands.pattern op width with
  | some pattern => .of (cmp.test cmpWidth pattern (BitVec.ofInt 128 value &&& runMask cmpWidth))
  | none => .undecided
 | .same a b width =>
  match operands.pattern a width, operands.pattern b width with
  | some x, some y => .of (x = y)
  | _, _ => .undecided

def holdsAll (operands : Operands) (acc : Truth) : List Guard → Truth
 | [] => acc
 | guard :: guards => holdsAll operands (acc.and (guard.holds operands)) guards

def holdsAny (operands : Operands) (acc : Truth) : List Guard → Truth
 | [] => acc
 | guard :: guards => holdsAny operands (acc.or (guard.holds operands)) guards

end

/-! ## Encoding -/

/-- One operand's contribution to an instruction encoding. -/
structure EncodeField where
 attr : String
 /-- The fit check of an immediate: the signed range, and the exclusive unsigned bound. -/
 intRange : Option (Int × Int × Nat)
 /-- Low bits that are declared zero. -/
 alignMask : BitVec 128
 nonzero : Bool
 runs : List FieldRun

/-- Re-scatter of a resolved fixup value into one immediate field of a shape. -/
structure PatchField where
 attr : String
 /-- Signed fit check for the value. -/
 range : Option (Int × Int)
 /-- Operand bits that the scatter drops. -/
 droppedMask : BitVec 128
 runs : List FieldRun

/-- One fixed bit map of an instruction. -/
structure EncodeShape where
 guard : Guard
 constWord : BitVec 128
 widthBytes : Nat
 fields : List EncodeField
 patch : List PatchField

/-- The encoding of one instruction: the shapes in the order their guards are tried, and the smallest and
largest size over all shapes. -/
structure EncodeSpec where
 shapes : List EncodeShape
 widthBytes : Nat × Nat

structure EncodedFixup where
 target : FixupTarget
 patch : PatchField

structure EncodedInst where
 bytes : List (BitVec 8)
 fixups : List EncodedFixup

def select (operands : Operands) (spec : EncodeSpec) : Option EncodeShape :=
 spec.shapes.find? fun shape => shape.guard.holds operands = .yes

/-- The first bytes of a word, the least significant first. -/
def leBytes (word : BitVec 128) (count : Nat) : List (BitVec 8) :=
 (List.range count).map fun i => word.extractLsb' (8 * i) 8

/-- Whether a value is out of an immediate field's range, spelled signed or unsigned. -/
def EncodeField.overflows (field : EncodeField) (bits : BitVec 128) (signed : Int) : Bool :=
 match field.intRange with
 | some (min, max, umax) => !(decide (min ≤ signed) && decide (signed < max)) && decide (umax ≤ bits.toNat)
 | none => false

/-- Whether an operand's declared constraints exclude a value. -/
def EncodeField.excludes (field : EncodeField) (bits : BitVec 128) : Bool :=
 bits &&& field.alignMask ≠ 0 || field.nonzero && decide (bits = 0)

/-- The word so far and the fixups left. -/
structure Encoding where
 word : BitVec 128
 fixups : List EncodedFixup

/-- One turn of the loop over a shape's fields. -/
def EncodeShape.field (shape : EncodeShape) (operands : Operands) (e : Encoding) (field : EncodeField) : Option Encoding :=
 match operands field.attr with
 | .known bits signed =>
  if field.overflows bits signed || field.excludes bits then none
  else some { e with word := scatter e.word bits field.runs }
 | .fixup target =>
  (shape.patch.find? fun p => p.attr = field.attr).map fun patch =>
   { e with fixups := e.fixups ++ [⟨target, patch⟩] }
 | .missing => none

def EncodeShape.encode (shape : EncodeShape) (operands : Operands) : Option EncodedInst :=
 (shape.fields.foldlM (shape.field operands) ⟨shape.constWord, []⟩).map fun e =>
  ⟨leBytes e.word shape.widthBytes, e.fixups⟩

def encodeWith (operands : Operands) (spec : EncodeSpec) : Option EncodedInst :=
 (select operands spec).bind fun shape => shape.encode operands

def encodedWidth (operands : Operands) (spec : EncodeSpec) : Nat :=
 match spec.shapes with
 | [shape] => shape.widthBytes
 | _ => ((select operands spec).map EncodeShape.widthBytes).getD spec.widthBytes.2

/-- The word of at most sixteen bytes. -/
def ofLeBytes (bytes : List (BitVec 8)) : BitVec 128 :=
 (bytes.take 16).zipIdx.foldl (fun (word : BitVec 128) entry => word ||| ((entry.1.setWidth 128 : BitVec 128) <<< (8 * entry.2 : Nat))) 0

/-- Scatter a resolved value over the bytes of the instruction its field was taken from. -/
def patchWith (bytes : List (BitVec 8)) (value : BitVec 64) (field : PatchField) : Option (List (BitVec 8)) :=
 let outside := match field.range with
  | some (min, max) => !(decide (min ≤ value.toInt) && decide (value.toInt < max))
  | none => false
 if outside || value.signExtend 128 &&& field.droppedMask ≠ 0 ||
   field.runs.any (fun run => min bytes.length 16 * 8 < run.wordLo + run.width) then
  none
 else
  let word := scatter (ofLeBytes bytes) (value.signExtend 128) field.runs
  some (leBytes word (min bytes.length 16) ++ bytes.drop 16)

/-! ## Decoding -/

/-- What a decoded field becomes: a physical register of a class, given by its indices, or an integer. -/
inductive DecodeFieldKind where
 | register (registers : List (BitVec 16))
 | int

structure DecodeField where
 attr : String
 kind : DecodeFieldKind
 runs : List FieldRun

/-- One fixed bit map of an instruction, read backwards. -/
structure DecodeShape where
 fixedMask : BitVec 32
 constWord : BitVec 32
 fields : List DecodeField

/-- The decoding of one instruction: its shapes, most specific first, and every attribute it declares. -/
structure DecodeSpec where
 shapes : List DecodeShape
 attrs : List String

inductive DecodedValue where
 | register (index : BitVec 16)
 | int (value : BitVec 64)

/-- A field narrower than its class's indices is completed by the bits they share above it. -/
def registerIndex (registers : List (BitVec 16)) (value : BitVec 64) (runs : List FieldRun) : BitVec 16 :=
 let bits := (runs.map fun run => run.opLo + run.width).max?.getD 0
 let low : BitVec 16 := if 16 ≤ bits then BitVec.allOnes 16 else ((1 : BitVec 16) <<< bits) - 1
 let high := (registers.head?.map fun r => r &&& ~~~low).getD 0
 if registers.all fun r => r &&& ~~~low = high then high ||| value.setWidth 16 else value.setWidth 16

def DecodeField.value (field : DecodeField) (word : BitVec 32) : DecodedValue :=
 match field.kind with
 | .register registers => .register (registerIndex registers (gather word field.runs) field.runs)
 | .int => .int (gather word field.runs)

def DecodeShape.matches (shape : DecodeShape) (word : BitVec 32) : Bool :=
 word &&& shape.fixedMask = shape.constWord

/-- The attributes of the decoded operation. -/
def decodeWith (word : BitVec 32) (spec : DecodeSpec) : Option (List (String × DecodedValue)) :=
 (spec.shapes.find? fun shape => shape.matches word).bind fun shape =>
  if spec.attrs.all fun declared => shape.fields.any fun field => field.attr = declared then
   some (shape.fields.map fun field => (field.attr, field.value word))
  else
   none

/-- The operation a list of decoded attributes makes: registers in their slots, integers as attributes. -/
def decodedInst (attributes : List (String × DecodedValue)) : Inst where
 slot name := match attributes.lookup name with
  | some (.register index) => some (some index)
  | _ => none
 attr name := match attributes.lookup name with
  | some (.int value) => some (.int value)
  | _ => none

end Tir.Backend.Encodings
