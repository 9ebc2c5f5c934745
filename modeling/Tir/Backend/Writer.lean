import Tir.Backend.Elf
import Tir.Backend.Encodings

/-!
# The object writer

`writer.rs`: walks a lowered machine module, encodes its instructions, lays out the sections and resolves the
fixups left, block targets by patching and symbol targets by relocations. Offsets and sizes are numbers, an
operation's identity is its position in its block.
-/

open List

namespace Tir.Backend.Writer

open Bytes Encodings
open Elf (SectionKind SymBinding SymKind)

/-! ## Machine modules -/

/-- The integer an attribute holds. -/
def asIntAttr : Option AttributeValue → Option Int
 | some (.int v) => some v.toInt
 | some (.uint v) => if v.toNat < 2 ^ 63 then some v.toNat else none
 | _ => none

def asStringAttr : Option AttributeValue → Option String
 | some (.str s) => some s
 | _ => none

inductive ControlFlow where
 | none | conditional | unconditional
deriving DecidableEq

structure MemoryEffects where
 reads : Bool
 writes : Bool
deriving DecidableEq

def MemoryEffects.NONE : MemoryEffects :=
 ⟨false, false⟩

structure InstrInfo where
 name : String
 controlFlow : ControlFlow
 effects : MemoryEffects
 encode : Option EncodeSpec

/-- An operation as the writer reads it; `ρ` is where register allocation puts the values of a symbol. -/
structure Op (ρ : Type) where
 name : String
 /-- The record of its opcode, of a machine instruction. -/
 info : Option InstrInfo
 operands : ρ → Operands
 /-- The registers it writes when it executes: values, and physical registers. -/
 defs : List Nat
 physDefs : List Nat
 /-- The blocks its attributes name. -/
 successors : List Nat

/-- What one operation of a block contributes to the output. -/
inductive Entry (ρ : Type) where
 | skip
 | literal (kind value : Option AttributeValue)
 | dataReloc (symbol width addend : Option AttributeValue)
 | instruction (op : Op ρ)

structure Block (ρ : Type) where
 id : Nat
 ops : List (Entry ρ)

structure AsmSymbol (ρ : Type) where
 name : Option AttributeValue
 align : Option AttributeValue
 binding : Option AttributeValue
 kind : Option AttributeValue
 assignment : ρ
 blocks : List (Block ρ)

/-- A truncated address difference patched into a global after data layout. -/
structure SymbolDifference where
 offset : Nat
 symbol : String
 base : String
 width : Nat

/-- A difference in storage that starts at an offset of its section. -/
def SymbolDifference.shift (d : SymbolDifference) (offset : Nat) : SymbolDifference :=
 { d with offset := d.offset + offset }

/-- The attribute that lists the differences of a global; an entry is `none` where a field is missing. -/
inductive DifferencesAttr where
 | absent
 | malformed
 | entries (entries : List (Option SymbolDifference))

/-- An address patched into the bytes of a global. -/
structure GlobalReloc where
 offset : Nat
 symbol : String
 addend : Int
 width : Nat

structure Global where
 symName : String
 isExternal : Bool
 isPrivate : Bool
 align : Option Nat
 bytes : Option (List Byte)
 size : Option Nat
 inSection : Option String
 relocations : List GlobalReloc
 differencesAttr : DifferencesAttr

/-- Symbol differences, each of a width of a machine word and inside the global. -/
def Global.symbolDifferences (g : Global) : Option (List SymbolDifference) :=
 match g.differencesAttr with
 | .absent => some []
 | .malformed => none
 | .entries entries =>
  ((g.bytes.map List.length).orElse fun _ => g.size).bind fun size =>
    entries.mapM fun entry => entry.bind fun d =>
     if (d.width = 1 ∨ d.width = 2 ∨ d.width = 4 ∨ d.width = 8) ∧ d.offset + d.width ≤ size then some d else none

/-- An operation of a module body. -/
inductive Item (ρ : Type) where
 | global (g : Global)
 | inSection (name : Option AttributeValue) (body : List (Item ρ))
 | symbol (s : AsmSymbol ρ)
 | entry (entry : Entry ρ)

/-! ## Objects -/

structure ObjReloc where
 offset : Nat
 symbol : String
 rType : Nat
 addend : Int
deriving DecidableEq

structure ObjSection where
 name : String
 kind : SectionKind
 align : Nat
 data : List Byte
 relocs : List ObjReloc
 /-- Offset and length of each encoded instruction, in layout order. -/
 insnSpans : List (Nat × Nat)
deriving DecidableEq

structure ObjSymbol where
 name : String
 inSection : Option Nat
 value : Nat
 size : Nat
 binding : SymBinding
 kind : SymKind
deriving DecidableEq

structure ObjectFile where
 sections : List ObjSection
 symbols : List ObjSymbol
deriving DecidableEq

/-- How an unresolved symbol fixup is expressed in the object file. -/
structure RelocKind where
 rType : Nat
 addend : Int
 /-- Byte offset of the relocated field within the instruction. -/
 fieldOffset : Nat

/-- What the writer needs to know about a target's object format. -/
structure ObjectFormatInfo where
 relocFor : String → Option RelocKind
 absoluteReloc : Nat → Option Nat
 /-- log2 of the divisor of a pc-relative byte delta. -/
 pcRelScale : String → Nat
 /-- Whether the displacement is measured from the end of the instruction. -/
 pcRelFromEnd : String → Bool

inductive BinaryEmitError where
 | missingSymbolName
 | missingEncoder (op : String)
 | cannotEncode (op : String)
 | unsupportedOp (op : String)
 | unknownBlockTarget (op : String)
 | misalignedTarget (op : String) (delta : Int)
 | fixupOutOfRange (op : String) (value : Int)
 | symbolOperandUnsupported (op : String)
 | cannotResolveSymbolDifference (symbol base : String)
 /-- The source's panics: a definition without its alignment or its size. -/
 | panic
deriving DecidableEq

/-- What a value that may be missing gives, or the error. -/
def orError {α : Type} (value : Option α) (error : BinaryEmitError) : Except BinaryEmitError α :=
 match value with
 | some a => .ok a
 | none => .error error

/-- A fixup recorded during layout, pending resolution. -/
structure PendingFixup where
 inSection : Nat
 offset : Nat
 len : Nat
 info : InstrInfo
 target : FixupTarget
 patch : PatchField

/-- Object emission in progress. -/
structure ObjectEmission (ρ : Type) where
 obj : ObjectFile
 currentSection : Option Nat
 assignment : ρ
 /-- The start of each block, the last one first. -/
 blockStarts : List (Nat × Nat)
 fixups : List PendingFixup
 symbolDifferences : List (Nat × SymbolDifference)

/-! ## Sections -/

def sectionKind (name : String) : SectionKind :=
 if name = ".text" ∨ ".text.".toList.isPrefixOf name.toList then .text
 else if name = ".bss" ∨ ".bss.".toList.isPrefixOf name.toList then .uninitializedData
 else if name = ".rodata" ∨ ".rodata.".toList.isPrefixOf name.toList then .readOnlyData
 else .data

/-- A section no directive has aligned. -/
def newSection (name : String) : ObjSection where
 name := name
 kind := sectionKind name
 align := if sectionKind name = .text then 4 else 1
 data := []
 relocs := []
 insnSpans := []

def ensureSection (obj : ObjectFile) (name : String) : ObjectFile × Nat :=
 match obj.sections.findIdx? fun s => s.name = name with
 | some k => (obj, k)
 | none => ({ obj with sections := obj.sections ++ [newSection name] }, obj.sections.length)

/-- The bytes laid out so far in a section. -/
def ObjectFile.size (obj : ObjectFile) (k : Nat) : Nat :=
 match obj.sections[k]? with
 | some s => s.data.length
 | none => 0

def ObjectFile.modify (obj : ObjectFile) (k : Nat) (f : ObjSection → ObjSection) : ObjectFile :=
 { obj with sections := obj.sections.modify k f }

/-- The first multiple of an alignment from a size on. -/
def alignUp (size align : Nat) : Nat :=
 (size + align - 1) / align * align

/-- The zeros that bring a section to an alignment, which the section takes on. -/
def ObjSection.alignTo (s : ObjSection) (align : Nat) : ObjSection :=
 { s with
   data := s.data ++ replicate (alignUp s.data.length align - s.data.length) 0
   align := max s.align align }

section Emission

variable {ρ : Type}

namespace ObjectEmission

/-- The current section, or the one a directive would have opened. -/
def current (st : ObjectEmission ρ) (default : String) : ObjectEmission ρ × Nat :=
 match st.currentSection with
 | some k => (st, k)
 | none =>
  let (obj, k) := ensureSection st.obj default
  ({ st with obj := obj, currentSection := some k }, k)

def modify (st : ObjectEmission ρ) (k : Nat) (f : ObjSection → ObjSection) : ObjectEmission ρ :=
 { st with obj := st.obj.modify k f }

def pushSymbol (st : ObjectEmission ρ) (symbol : ObjSymbol) : ObjectEmission ρ :=
 { st with obj := { st.obj with symbols := st.obj.symbols ++ [symbol] } }

end ObjectEmission

/-! ## Instructions and data -/

def encodeOp (op : Op ρ) (st : ObjectEmission ρ) : Except BinaryEmitError (ObjectEmission ρ) := do
 let info ← orError op.info (.unsupportedOp op.name)
 let spec ← orError info.encode (.missingEncoder op.name)
 let encoded ← orError (encodeWith (op.operands st.assignment) spec) (.cannotEncode op.name)
 let (st, k) := st.current ".text"
 let offset := st.obj.size k
 let len := encoded.bytes.length % 256
 let st := st.modify k fun s =>
  { s with data := s.data ++ encoded.bytes, insnSpans := s.insnSpans ++ [(offset, len)] }
 pure { st with fixups := st.fixups ++ encoded.fixups.map fun fixup => ⟨k, offset, len, info, fixup.target, fixup.patch⟩ }

/-- The low bytes of an integer. -/
def intBytes (value : Int) (width : Nat) : List Byte :=
 toLe width (value % 2 ^ 64).toNat

def literalBytes (kind value : Option AttributeValue) : Option (List Byte) := do
 let kind ← asStringAttr kind
 if kind = "asciz" ∨ kind = "string" ∨ kind = "ascii" then
  let value ← asStringAttr value
  let bytes := value.toUTF8.toList.map UInt8.toBitVec
  pure (if kind = "ascii" then bytes else bytes ++ [0])
 else if kind = "byte" ∨ kind = "half" ∨ kind = "word" ∨ kind = "dword" ∨ kind = "space" then
  let value ← asIntAttr value
  if kind = "space" then
   if value < 0 then none else pure (replicate value.toNat 0)
  else if kind = "dword" then
   pure (intBytes value 8)
  else
   let width := if kind = "byte" then 1 else if kind = "half" then 2 else 4
   -- The full signed and unsigned range of the width.
   if value < -(2 ^ (width * 8 - 1)) ∨ 2 ^ (width * 8) - 1 < value then none else pure (intBytes value width)
 else
  none

def emitLiteral (kind value : Option AttributeValue) (st : ObjectEmission ρ) : Except BinaryEmitError (ObjectEmission ρ) := do
 let bytes ← orError (literalBytes kind value) (.unsupportedOp "literal")
 let (st, k) := st.current ".text"
 pure (st.modify k fun s => { s with data := s.data ++ bytes })

/-- The width of a data word, of those that fit the source's byte. -/
def wordWidth (width : Option AttributeValue) : Option Nat :=
 (asIntAttr width).bind fun width => if 0 ≤ width ∧ width < 256 then some width.toNat else none

def emitDataReloc (fmt : ObjectFormatInfo) (symbol width addend : Option AttributeValue) (st : ObjectEmission ρ) :
  Except BinaryEmitError (ObjectEmission ρ) := do
 let symbol ← orError (asStringAttr symbol) (.unsupportedOp "data_reloc")
 let width ← orError (wordWidth width) (.unsupportedOp "data_reloc")
 let rType ← orError (fmt.absoluteReloc width) (.unsupportedOp "data_reloc")
 let addend ← orError (asIntAttr addend) (.unsupportedOp "data_reloc")
 let (st, k) := st.current ".data"
 let offset := st.obj.size k
 pure (st.modify k fun s =>
  { s with data := s.data ++ replicate width 0, relocs := s.relocs ++ [⟨offset, symbol, rType, addend⟩] })

def writeEntry (fmt : ObjectFormatInfo) (entry : Entry ρ) (st : ObjectEmission ρ) :
  Except BinaryEmitError (ObjectEmission ρ) :=
 match entry with
 | .skip => .ok st
 | .literal kind value => emitLiteral kind value st
 | .dataReloc symbol width addend => emitDataReloc fmt symbol width addend st
 | .instruction op => encodeOp op st

/-! ## Symbols -/

/-- A branch that does nothing but go to a block. -/
def Op.goesTo (op : Op ρ) (next : Nat) : Bool :=
 match op.info with
 | some info => info.controlFlow = .unconditional && info.effects = .NONE && op.defs.isEmpty && op.physDefs.isEmpty &&
   op.successors = [next]
 | none => false

/-- The branch at the end of the operations given last first, where it goes to the next block. -/
def fallthroughFrom (next : Nat) : List (Entry ρ × Nat) → Option Nat
 | [] => none
 | (.skip, _) :: rest => fallthroughFrom next rest
 | (.instruction op, i) :: _ => if op.goesTo next then some i else none
 | _ => none

def fallthroughBranch (block : Block ρ) (next : Nat) : Option Nat :=
 fallthroughFrom next block.ops.zipIdx.reverse

/-- The branch that is left out because the next block follows. -/
def Block.omitted (block : Block ρ) (next : Option Nat) : Option Nat :=
 next.bind fun next => fallthroughBranch block next

/-- The operations that are written. -/
def Block.emitted (block : Block ρ) (next : Option Nat) : List (Entry ρ) :=
 (block.ops.zipIdx.filter fun entry => some entry.2 ≠ block.omitted next).map Prod.fst

def writeBlocks (fmt : ObjectFormatInfo) (k : Nat) : List (Block ρ) → ObjectEmission ρ → Except BinaryEmitError (ObjectEmission ρ)
 | [], st => .ok st
 | block :: blocks, st => do
   let st := { st with blockStarts := (block.id, st.obj.size k) :: st.blockStarts }
   let st ← (block.emitted (blocks.head?.map Block.id)).foldlM (fun st entry => writeEntry fmt entry st) st
   writeBlocks fmt k blocks st

/-- The alignment a symbol asks for, one where it asks for none. -/
def AsmSymbol.alignment (s : AsmSymbol ρ) : Nat :=
 max (((asIntAttr s.align).bind fun align => if 0 ≤ align then some align.toNat else none).getD 1) 1

def walkSymbol (fmt : ObjectFormatInfo) (s : AsmSymbol ρ) (st : ObjectEmission ρ) :
  Except BinaryEmitError (ObjectEmission ρ) := do
 let name ← orError (asStringAttr s.name) .missingSymbolName
 let st := { st with assignment := s.assignment }
 let (st, k) := st.current ".text"
 let st := st.modify k fun sec => sec.alignTo s.alignment
 let start := st.obj.size k
 let st ← writeBlocks fmt k s.blocks st
 pure (st.pushSymbol
  { name := name
    inSection := some k
    value := start
    size := st.obj.size k - start
    binding := if asStringAttr s.binding = some "local" then .localBinding else .globalBinding
    kind := if asStringAttr s.kind = some "object" then .object else .func })

/-! ## Globals -/

/-- The type of the relocation of each address patched into a global. -/
def globalReloc (fmt : ObjectFormatInfo) (offset : Nat) (reloc : GlobalReloc) : Except BinaryEmitError ObjReloc := do
 let rType ← orError (if reloc.width < 256 then fmt.absoluteReloc reloc.width else none) (.unsupportedOp "global")
 pure ⟨offset + reloc.offset, reloc.symbol, rType, reloc.addend⟩

/-- The section of a global that names none. -/
def Global.sectionName (g : Global) : String :=
 g.inSection.getD (if g.bytes.isSome then ".data" else ".bss")

/-- The storage of a global: its bytes, or zeros. -/
def Global.storage (g : Global) : Option (List Byte) :=
 match g.bytes with
 | some bytes => some bytes
 | none => g.size.map fun size => replicate size 0

def emitGlobal (fmt : ObjectFormatInfo) (g : Global) (st : ObjectEmission ρ) : Except BinaryEmitError (ObjectEmission ρ) :=
 if g.isExternal then
  .ok st
 else do
  let align ← orError (g.align.filter fun align => align ≠ 0) .panic
  let storage ← orError g.storage .panic
  let (obj, k) := ensureSection st.obj g.sectionName
  let offset := alignUp (obj.size k) align
  let relocs ← g.relocations.mapM (globalReloc fmt offset)
  let differences ← orError g.symbolDifferences (.cannotEncode "global")
  let obj := obj.modify k fun s =>
   let s := s.alignTo align
   { s with data := s.data ++ storage, relocs := s.relocs ++ relocs }
  let st := { st with
   obj := obj
   symbolDifferences := st.symbolDifferences ++ differences.map fun (d : SymbolDifference) => (k, d.shift offset) }
  pure (st.pushSymbol
   { name := g.symName
     inSection := some k
     value := offset
     size := storage.length
     binding := if g.isPrivate then .localBinding else .globalBinding
     kind := .object })

/-! ## Modules -/

mutual

def writeOp (fmt : ObjectFormatInfo) (item : Item ρ) (st : ObjectEmission ρ) : Except BinaryEmitError (ObjectEmission ρ) :=
 match item with
 | .global g => emitGlobal fmt g st
 | .inSection name body => do
   let (obj, k) := ensureSection st.obj ((asStringAttr name).getD ".text")
   let st' ← walkBlock fmt body { st with obj := obj, currentSection := some k }
   pure { st' with currentSection := st.currentSection }
 | .symbol s => walkSymbol fmt s st
 | .entry entry => writeEntry fmt entry st

def walkBlock (fmt : ObjectFormatInfo) (items : List (Item ρ)) (st : ObjectEmission ρ) : Except BinaryEmitError (ObjectEmission ρ) :=
 match items with
 | [] => .ok st
 | item :: items => do
   let st ← writeOp fmt item st
   walkBlock fmt items st

end

end Emission

/-! ## Resolution -/

/-- Bytes over those that stand from a position on. -/
def splice (data : List Byte) (at' : Nat) (bytes : List Byte) : List Byte :=
 data.take at' ++ (bytes ++ data.drop (at' + bytes.length))

/-- The address a displacement is measured from. -/
def PendingFixup.base (fixup : PendingFixup) (fmt : ObjectFormatInfo) : Nat :=
 if fmt.pcRelFromEnd fixup.info.name then fixup.offset + fixup.len else fixup.offset

/-- One fixup resolved. The data of a section is shorter than `2 ^ 63` bytes, so a delta is exact. -/
def resolveFixup (fmt : ObjectFormatInfo) (blockStarts : List (Nat × Nat)) (obj : ObjectFile) (fixup : PendingFixup) :
  Except BinaryEmitError ObjectFile :=
 let name := fixup.info.name
 match fixup.target with
 | .block block => do
   let target ← orError (blockStarts.lookup block) (.unknownBlockTarget name)
   let delta : Int := target - fixup.base fmt
   let scale := fmt.pcRelScale name
   if delta % 2 ^ scale ≠ 0 then
    .error (.misalignedTarget name delta)
   else
    let value := delta / 2 ^ scale
    let data := (obj.sections[fixup.inSection]?.map ObjSection.data).getD []
    let patched ← orError
     (patchWith ((data.drop fixup.offset).take fixup.len) (BitVec.ofInt 64 value) fixup.patch)
     (.fixupOutOfRange name value)
    pure (obj.modify fixup.inSection fun s => { s with data := splice s.data fixup.offset patched })
 | .symbol symbol => do
   let kind ← orError (fmt.relocFor name) (.symbolOperandUnsupported name)
   pure (obj.modify fixup.inSection fun s =>
    { s with relocs := s.relocs ++ [⟨fixup.offset + kind.fieldOffset, symbol, kind.rType, kind.addend⟩] })

def resolveFixups {ρ : Type} (fmt : ObjectFormatInfo) (st : ObjectEmission ρ) : Except BinaryEmitError ObjectFile :=
 st.fixups.foldlM (resolveFixup fmt st.blockStarts) st.obj

/-- The last symbol of a name. -/
def ObjectFile.symbol (obj : ObjectFile) (name : String) : Option ObjSymbol :=
 obj.symbols.reverse.find? fun s => s.name = name

/-- A difference of two addresses, which wraps at 64 bits. -/
def wrappingSub (a b : Nat) : Nat :=
 (((a : Int) - b) % 2 ^ 64).toNat

def resolveSymbolDifference (obj : ObjectFile) (difference : Nat × SymbolDifference) : Except BinaryEmitError ObjectFile := do
 let d := difference.2
 let error := BinaryEmitError.cannotResolveSymbolDifference d.symbol d.base
 let symbol ← orError (obj.symbol d.symbol) error
 let symbolSection ← orError symbol.inSection error
 let base ← orError (obj.symbol d.base) error
 let baseSection ← orError base.inSection error
 if symbolSection ≠ baseSection then
  .error error
 else
  pure (obj.modify difference.1 fun s => { s with data := splice s.data d.offset (toLe d.width (wrappingSub symbol.value base.value)) })

def resolveSymbolDifferences (obj : ObjectFile) (differences : List (Nat × SymbolDifference)) : Except BinaryEmitError ObjectFile :=
 differences.foldlM resolveSymbolDifference obj

/-- Resolve the fixups left and yield the object. -/
def finish {ρ : Type} (fmt : ObjectFormatInfo) (st : ObjectEmission ρ) : Except BinaryEmitError ObjectFile := do
 let obj ← resolveFixups fmt st
 resolveSymbolDifferences obj st.symbolDifferences

def writeModule {ρ : Type} [Inhabited ρ] (fmt : ObjectFormatInfo) (items : List (Item ρ)) : Except BinaryEmitError ObjectFile := do
 let st ← walkBlock fmt items
  { obj := ⟨[], []⟩, currentSection := none, assignment := default, blockStarts := [], fixups := [], symbolDifferences := [] }
 finish fmt st

end Tir.Backend.Writer
