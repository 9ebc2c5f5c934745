import Tir.Basic.Bytes

/-!
# ELF objects

The object writer of `elf.rs` and the parser of `elf_read.rs`, for both classes. A name is its bytes, a file
position a number; `none` of the writer and `panic` of the parser are the source's panics.
-/

open List

namespace Tir.Backend.Elf

open Bytes

abbrev Name := List Byte

/-- A name the source spells, of ASCII characters. -/
def ascii (s : String) : Name :=
 s.toList.map fun c => BitVec.ofNat 8 c.toNat

inductive ElfClass where
 | elf32 | elf64
deriving DecidableEq

structure ObjectFormatInfo where
 elfMachine : BitVec 16
 elfClass : ElfClass
 elfFlags : BitVec 32

/-! ## Objects -/

inductive SectionKind where
 | text | readOnlyData | data | uninitializedData
deriving DecidableEq

structure ObjReloc where
 offset : BitVec 64
 symbol : Name
 rType : BitVec 32
 addend : BitVec 64

structure ObjSection where
 name : Name
 kind : SectionKind
 align : BitVec 64
 data : List Byte
 relocs : List ObjReloc

inductive SymBinding where
 | localBinding | globalBinding
deriving DecidableEq

inductive SymKind where
 | noType | func | object
deriving DecidableEq

structure ObjSymbol where
 name : Name
 /-- The index of the section that defines it, if one does. -/
 inSection : Option Nat
 value : BitVec 64
 size : BitVec 64
 binding : SymBinding
 kind : SymKind

/-- A relocatable object in format-neutral form. -/
structure ObjectFile where
 sections : List ObjSection
 symbols : List ObjSymbol

/-! ## Writing -/

def SHT_PROGBITS : BitVec 32 := 1

def SHT_SYMTAB : BitVec 32 := 2

def SHT_STRTAB : BitVec 32 := 3

def SHT_RELA : BitVec 32 := 4

def SHT_NOBITS : BitVec 32 := 8

def u8 (v : BitVec 8) : List Byte :=
 toLe 1 v.toNat

def u16 (v : BitVec 16) : List Byte :=
 toLe 2 v.toNat

def u32 (v : BitVec 32) : List Byte :=
 toLe 4 v.toNat

def u64 (v : BitVec 64) : List Byte :=
 toLe 8 v.toNat

def addr (elfClass : ElfClass) (v : BitVec 64) : List Byte :=
 match elfClass with
 | .elf32 => u32 (v.setWidth 32)
 | .elf64 => u64 v

/-- An in-progress section: header fields and body bytes. -/
structure Section where
 name : Name
 shType : BitVec 32
 shFlags : BitVec 64
 shLink : BitVec 32
 shInfo : BitVec 32
 shAddralign : BitVec 64
 shEntsize : BitVec 64
 data : List Byte

/-- A string table; the offsets of the names in it, the last one first. -/
structure StrTab where
 data : List Byte
 offsets : List (Name × BitVec 32)

namespace StrTab

def new : StrTab :=
 ⟨[0], []⟩

def intern (table : StrTab) (name : Name) : StrTab × BitVec 32 :=
 match table.offsets.lookup name with
 | some offset => (table, offset)
 | none =>
  let offset := BitVec.ofNat 32 table.data.length
  (⟨table.data ++ (name ++ [0]), (name, offset) :: table.offsets⟩, offset)

/-- Names interned one after the other. -/
def internAll (table : StrTab) : List Name → StrTab × List (BitVec 32)
 | [] => (table, [])
 | name :: names =>
  let (table, offset) := table.intern name
  let (table, offsets) := table.internAll names
  (table, offset :: offsets)

end StrTab

def symEntry (elfClass : ElfClass) (name : BitVec 32) (info : BitVec 8) (shndx : BitVec 16) (value size : BitVec 64) : List Byte :=
 match elfClass with
 | .elf32 => [u32 name, u32 (value.setWidth 32), u32 (size.setWidth 32), u8 info, u8 0, u16 shndx].flatten
 | .elf64 => [u32 name, u8 info, u8 0, u16 shndx, u64 value, u64 size].flatten

def SymBinding.code : SymBinding → BitVec 8
 | localBinding => 0
 | globalBinding => 1

def SymKind.code : SymKind → BitVec 8
 | noType => 0
 | object => 1
 | func => 2

def symInfo (sym : ObjSymbol) : BitVec 8 :=
 (sym.binding.code <<< 4) ||| sym.kind.code

/-- The index of each section from `next` on: one with relocations is followed by theirs. -/
def sectionIndex (next : Nat) : List ObjSection → List Nat
 | [] => []
 | s :: rest => next :: sectionIndex (next + if s.relocs.isEmpty then 1 else 2) rest

/-- The first index past the sections. -/
def indexEnd (next : Nat) : List ObjSection → Nat
 | [] => next
 | s :: rest => indexEnd (next + if s.relocs.isEmpty then 1 else 2) rest

/-- The symbols, the local ones first. -/
def symOrder (object : ObjectFile) : List ObjSymbol :=
 object.symbols.insertionSort fun a b => a.binding = .localBinding ∨ b.binding = .globalBinding

/-- The names of relocations that are not among those seen, each once. -/
def undefinedNames (seen : List Name) : List ObjReloc → List Name
 | [] => []
 | reloc :: relocs =>
  if reloc.symbol ∈ seen then undefinedNames seen relocs
  else reloc.symbol :: undefinedNames (seen ++ [reloc.symbol]) relocs

/-- The undefined symbol of a name that only relocations have. -/
def undefinedSymbol (name : Name) : ObjSymbol :=
 ⟨name, none, 0, 0, .globalBinding, .noType⟩

def allSyms (object : ObjectFile) : List ObjSymbol :=
 symOrder object ++ (undefinedNames ((symOrder object).map ObjSymbol.name)
  (object.sections.flatMap ObjSection.relocs)).map undefinedSymbol

/-- The index of the last symbol of a name, or the null symbol's. -/
def symIndex (syms : List ObjSymbol) (name : Name) : Nat :=
 ((syms.zipIdx.foldl (fun index entry => (entry.1.name, entry.2 + 1) :: index) []).lookup name).getD 0

def shndx (index : List Nat) (sym : ObjSymbol) : Option (BitVec 16) :=
 match sym.inSection with
 | none => some 0
 | some s => (index[s]?).map (BitVec.ofNat 16)

def symtabData (elfClass : ElfClass) (syms : List ObjSymbol) (names : List (BitVec 32)) (shndxs : List (BitVec 16)) : List Byte :=
 symEntry elfClass 0 0 0 0 0 ++ ((syms.zip (names.zip shndxs)).flatMap fun entry =>
  symEntry elfClass entry.2.1 (symInfo entry.1) entry.2.2 entry.1.value entry.1.size)

def relaEntry (elfClass : ElfClass) (sym : BitVec 32) (reloc : ObjReloc) : List Byte :=
 match elfClass with
 | .elf32 => [addr .elf32 reloc.offset, u32 ((sym <<< 8) ||| (reloc.rType &&& 0xFF)), u32 (reloc.addend.setWidth 32)].flatten
 | .elf64 => [addr .elf64 reloc.offset, u64 ((sym.setWidth 64 <<< 32) ||| reloc.rType.setWidth 64), u64 reloc.addend].flatten

def SectionKind.shType : SectionKind → BitVec 32
 | uninitializedData => SHT_NOBITS
 | _ => SHT_PROGBITS

def SectionKind.shFlags : SectionKind → BitVec 64
 | text => 2 ||| 4
 | readOnlyData => 2
 | data => 1 ||| 2
 | uninitializedData => 1 ||| 2

def ElfClass.align : ElfClass → BitVec 64
 | elf32 => 4
 | elf64 => 8

def ElfClass.symEntsize : ElfClass → Nat
 | elf32 => 16
 | elf64 => 24

def ElfClass.relaEntsize : ElfClass → Nat
 | elf32 => 12
 | elf64 => 24

def ElfClass.ehsize : ElfClass → Nat
 | elf32 => 52
 | elf64 => 64

def ElfClass.shentsize : ElfClass → Nat
 | elf32 => 40
 | elf64 => 64

/-- A section of the object, and its relocations if it has any. -/
def sectionOf (elfClass : ElfClass) (syms : List ObjSymbol) (symtabIndex : Nat) (entry : ObjSection × Nat) : List Section :=
 let (s, index) := entry
 ⟨s.name, s.kind.shType, s.kind.shFlags, 0, 0, s.align, 0, s.data⟩ ::
  if s.relocs.isEmpty then [] else
   [⟨ascii ".rela" ++ s.name, SHT_RELA, 0, BitVec.ofNat 32 symtabIndex, BitVec.ofNat 32 index, elfClass.align,
     BitVec.ofNat 64 elfClass.relaEntsize,
     s.relocs.flatMap fun reloc => relaEntry elfClass (BitVec.ofNat 32 (symIndex syms reloc.symbol)) reloc⟩]

/-- Every section but that of the section names. -/
def bodySections (object : ObjectFile) (elfClass : ElfClass) (shndxs : List (BitVec 16)) : List Section :=
 let syms := allSyms object
 let symtabIndex := indexEnd 1 object.sections
 let (strtab, names) := StrTab.new.internAll (syms.map ObjSymbol.name)
 let firstGlobal := 1 + ((symOrder object).filter fun sym => sym.binding = .localBinding).length
 (object.sections.zip (sectionIndex 1 object.sections)).flatMap (sectionOf elfClass syms symtabIndex) ++
  [⟨ascii ".symtab", SHT_SYMTAB, 0, BitVec.ofNat 32 (symtabIndex + 1), BitVec.ofNat 32 firstGlobal, elfClass.align,
    BitVec.ofNat 64 elfClass.symEntsize, symtabData elfClass syms names shndxs⟩,
    ⟨ascii ".strtab", SHT_STRTAB, 0, 0, 0, 1, 0, strtab.data⟩]

/-- The sections and the offsets of their names, that of the section of names interned last. -/
def fileSections (body : List Section) : List Section × List (BitVec 32) :=
 let (table, names) := StrTab.new.internAll (body.map Section.name ++ [ascii ".shstrtab"])
 (body ++ [⟨ascii ".shstrtab", SHT_STRTAB, 0, 0, 0, 1, 0, table.data⟩], names)

/-- A position moved up to a multiple of `align`. -/
def alignUp (pos align : Nat) : Nat :=
 (pos + align - 1) / align * align

def Section.fileSize (s : Section) : Nat :=
 if s.shType = SHT_NOBITS then 0 else s.data.length

/-- Where each section starts, from a position on, and where the last one ends. -/
def layout (pos : Nat) : List Section → List Nat × Nat
 | [] => ([], pos)
 | s :: rest =>
  let offset := alignUp pos (max s.shAddralign.toNat 1)
  let (offsets, last) := layout (offset + s.fileSize) rest
  (offset :: offsets, last)

def resize (out : List Byte) (length : Nat) : List Byte :=
 out.take length ++ replicate (length - out.length) 0

def writeBodies (out : List Byte) (entries : List (Section × Nat)) : List Byte :=
 entries.foldl (fun out entry =>
  let out := resize out entry.2
  if entry.1.shType = SHT_NOBITS then out else out ++ entry.1.data) out

def ident (elfClass : ElfClass) : List Byte :=
 ([0x7F, 0x45, 0x4C, 0x46, (match elfClass with | .elf32 => 1 | .elf64 => 2), 1, 1] : List Byte) ++ replicate 9 0

def elfHeader (fmt : ObjectFormatInfo) (shoff shnum shstrtabIndex : Nat) : List Byte :=
 [u16 1, u16 fmt.elfMachine, u32 1, addr fmt.elfClass 0, addr fmt.elfClass 0, addr fmt.elfClass (BitVec.ofNat 64 shoff),
  u32 fmt.elfFlags, u16 (BitVec.ofNat 16 fmt.elfClass.ehsize), u16 0, u16 0, u16 (BitVec.ofNat 16 fmt.elfClass.shentsize),
  u16 (BitVec.ofNat 16 shnum), u16 (BitVec.ofNat 16 shstrtabIndex)].flatten

def sectionHeader (elfClass : ElfClass) (s : Section) (offset : Nat) (name : BitVec 32) : List Byte :=
 [u32 name, u32 s.shType, addr elfClass s.shFlags, addr elfClass 0, addr elfClass (BitVec.ofNat 64 offset),
  addr elfClass (BitVec.ofNat 64 s.data.length), u32 s.shLink, u32 s.shInfo, addr elfClass s.shAddralign,
  addr elfClass s.shEntsize].flatten

/-- The file of sections that are laid out: header, section bodies and section header table. -/
def fileBytes (fmt : ObjectFormatInfo) (sections : List Section) (names : List (BitVec 32)) (shstrtabIndex : Nat) : List Byte :=
 let (offsets, last) := layout fmt.elfClass.ehsize sections
 let shoff := alignUp last 8
 let header := ident fmt.elfClass ++ elfHeader fmt shoff (sections.length + 1) shstrtabIndex
 let bodies := resize (writeBodies header (sections.zip offsets)) shoff
 bodies ++ (replicate fmt.elfClass.shentsize 0 ++ ((sections.zip (offsets.zip names)).flatMap fun entry =>
  sectionHeader fmt.elfClass entry.1 entry.2.1 entry.2.2))

/-- Serialize an object as a relocatable file. -/
def writeElf (object : ObjectFile) (fmt : ObjectFormatInfo) : Option (List Byte) := do
 let shndxs ← (allSyms object).mapM (shndx (sectionIndex 1 object.sections))
 let (sections, names) := fileSections (bodySections object fmt.elfClass shndxs)
 some (fileBytes fmt sections names (indexEnd 1 object.sections + 2))

/-! ## Parsing -/

inductive ElfReadError where
 | notAnElf
 | unsupportedEncoding (what : String)
 | truncated (what : String)

/-- How parsing fails: with an error, or by indexing past the end of a string table. -/
inductive Failure where
 | error (e : ElfReadError)
 | panic

abbrev Parse (α : Type) := Except Failure α

structure ElfSection where
 name : Name
 shType : BitVec 32
 flags : BitVec 64
 size : BitVec 64
 addralign : BitVec 64
 link : BitVec 32
 info : BitVec 32
 data : List Byte

structure ElfSymbol where
 name : Name
 value : BitVec 64
 size : BitVec 64
 binding : BitVec 8
 symType : BitVec 8
 /-- The name of the section that defines it, if one does. -/
 inSection : Option Name

structure ElfRela where
 /-- The name of the section it applies to. -/
 inSection : Name
 offset : BitVec 64
 symbol : Name
 rType : BitVec 32
 addend : BitVec 64

structure ElfFile where
 elfClass : ElfClass
 etype : BitVec 16
 machine : BitVec 16
 flags : BitVec 32
 sections : List ElfSection
 symbols : List ElfSymbol
 relocations : List ElfRela

section Read

variable (elfClass : ElfClass)

def truncated (what : String) : Failure :=
 .error (.truncated what)

def readU8 (what : String) : Reader Failure (BitVec 8) :=
 number 8 1 (truncated what)

def readU16 (what : String) : Reader Failure (BitVec 16) :=
 number 16 2 (truncated what)

def readU32 (what : String) : Reader Failure (BitVec 32) :=
 number 32 4 (truncated what)

def readU64 (what : String) : Reader Failure (BitVec 64) :=
 number 64 8 (truncated what)

def readAddr (what : String) : Reader Failure (BitVec 64) :=
 match elfClass with
 | .elf32 => BitVec.setWidth 64 <$> readU32 what
 | .elf64 => readU64 what

def strAt (table : List Byte) (offset : Nat) : Parse Name :=
 if offset ≤ table.length then .ok ((table.drop offset).takeWhile (· ≠ 0)) else .error .panic

/-- The class of a file that the parser takes. -/
def readIdent (bytes : List Byte) : Parse ElfClass :=
 if bytes.length < 16 ∨ bytes.take 4 ≠ [0x7F, 0x45, 0x4C, 0x46] then .error (.error .notAnElf) else
  let known : Parse ElfClass :=
   match (bytes[4]? : Option Byte) with
   | some 1 => .ok .elf32
   | some 2 => .ok .elf64
   | _ => .error (.error (.unsupportedEncoding "unknown ELF class"))
  known.bind fun elfClass =>
   if (bytes[5]? : Option Byte) ≠ some 1 then .error (.error (.unsupportedEncoding "big-endian objects are not supported"))
   else .ok elfClass

/-- The fields of the file header that are kept. -/
structure Header where
 etype : BitVec 16
 machine : BitVec 16
 shoff : BitVec 64
 flags : BitVec 32
 shentsize : BitVec 16
 shnum : BitVec 16
 shstrndx : BitVec 16

def readHeader : Reader Failure Header := do
 let etype ← readU16 "e_type"
 let machine ← readU16 "e_machine"
 let _ ← readU32 "e_version"
 let _ ← readAddr elfClass "e_entry"
 let _ ← readAddr elfClass "e_phoff"
 let shoff ← readAddr elfClass "e_shoff"
 let flags ← readU32 "e_flags"
 let _ ← readU16 "e_ehsize"
 let _ ← readU16 "e_phentsize"
 let _ ← readU16 "e_phnum"
 let shentsize ← readU16 "e_shentsize"
 let shnum ← readU16 "e_shnum"
 let shstrndx ← readU16 "e_shstrndx"
 pure ⟨etype, machine, shoff, flags, shentsize, shnum, shstrndx⟩

/-- The header fields of a section, before its name is resolved. -/
structure RawSection where
 nameOff : BitVec 32
 shType : BitVec 32
 flags : BitVec 64
 offset : BitVec 64
 size : BitVec 64
 link : BitVec 32
 info : BitVec 32
 addralign : BitVec 64

def readSectionHeader : Reader Failure RawSection := do
 let nameOff ← readU32 "sh_name"
 let shType ← readU32 "sh_type"
 let flags ← readAddr elfClass "sh_flags"
 let _ ← readAddr elfClass "sh_addr"
 let offset ← readAddr elfClass "sh_offset"
 let size ← readAddr elfClass "sh_size"
 let link ← readU32 "sh_link"
 let info ← readU32 "sh_info"
 let addralign ← readAddr elfClass "sh_addralign"
 pure ⟨nameOff, shType, flags, offset, size, link, info, addralign⟩

def sectionData (bytes : List Byte) (s : RawSection) : Parse (List Byte) :=
 if s.shType = SHT_NOBITS then .ok []
 else if s.offset.toNat + s.size.toNat ≤ bytes.length then .ok ((bytes.drop s.offset.toNat).take s.size.toNat)
 else .error (truncated "section data")

def elfSection (bytes shstrtab : List Byte) (s : RawSection) : Parse ElfSection := do
 let name ← strAt shstrtab s.nameOff.toNat
 let data ← sectionData bytes s
 pure ⟨name, s.shType, s.flags, s.size, s.addralign, s.link, s.info, data⟩

def sectionName (sections : List ElfSection) (index : Nat) : Name :=
 match sections[index]? with
 | some s => s.name
 | none => ascii ("section(" ++ toString index ++ ")")

/-- The fields of a symbol table entry: its name's offset, value, size, info and section index. -/
structure RawSymbol where
 nameOff : BitVec 32
 value : BitVec 64
 size : BitVec 64
 info : BitVec 8
 shndx : BitVec 16

def readSymbol : Reader Failure RawSymbol := do
 let nameOff ← readU32 "st_name"
 match elfClass with
 | .elf32 =>
  let value ← readU32 "st_value"
  let size ← readU32 "st_size"
  let info ← readU8 "st_info"
  let _ ← readU8 "st_other"
  let shndx ← readU16 "st_shndx"
  pure ⟨nameOff, value.setWidth 64, size.setWidth 64, info, shndx⟩
 | .elf64 =>
  let info ← readU8 "st_info"
  let _ ← readU8 "st_other"
  let shndx ← readU16 "st_shndx"
  let value ← readU64 "st_value"
  let size ← readU64 "st_size"
  pure ⟨nameOff, value, size, info, shndx⟩

/-- One entry of the symbol table. -/
def elfSymbol (sections : List ElfSection) (strtab data : List Byte) (i : Nat) : Parse ElfSymbol := do
 let raw ← (readSymbol elfClass).run' (data.drop (i * elfClass.symEntsize))
 let name ← strAt strtab raw.nameOff.toNat
 pure ⟨name, raw.value, raw.size, raw.info >>> 4, raw.info &&& 0xF,
  if raw.shndx ≠ 0 ∧ raw.shndx.toNat < 0xFF00 then some (sectionName sections raw.shndx.toNat) else none⟩

/-- The entries of the first symbol table, the null symbol among them. -/
def elfSymbols (sections : List ElfSection) : Parse (List ElfSymbol) :=
 match sections.find? fun s => s.shType = SHT_SYMTAB with
 | none => .ok []
 | some symtab =>
  let strtab := ((sections[symtab.link.toNat]?).map ElfSection.data).getD []
  (List.range (symtab.data.length / elfClass.symEntsize)).mapM (elfSymbol elfClass sections strtab symtab.data)

/-- The fields of a relocation entry: its offset, symbol index, type and addend. -/
structure RawRela where
 offset : BitVec 64
 sym : Nat
 rType : BitVec 32
 addend : BitVec 64

def readRela : Reader Failure RawRela := do
 let offset ← readAddr elfClass "r_offset"
 match elfClass with
 | .elf32 =>
  let info ← readU32 "r_info"
  let addend ← readU32 "r_addend"
  pure ⟨offset, (info >>> 8).toNat, info &&& 0xFF, addend.signExtend 64⟩
 | .elf64 =>
  let info ← readU64 "r_info"
  let addend ← readU64 "r_addend"
  pure ⟨offset, (info >>> 32).toNat, info.setWidth 32, addend⟩

/-- One entry of the relocations `data` of a section. -/
def elfRela (names : List Name) (target : Name) (data : List Byte) (i : Nat) : Parse ElfRela := do
 let raw ← (readRela elfClass).run' (data.drop (i * elfClass.relaEntsize))
 pure ⟨target, raw.offset, (names[raw.sym]?).getD [], raw.rType, raw.addend⟩

/-- The relocations that a section holds. -/
def elfRelas (sections : List ElfSection) (names : List Name) (s : ElfSection) : Parse (List ElfRela) :=
 if s.shType ≠ SHT_RELA then .ok []
 else
  (List.range (s.data.length / elfClass.relaEntsize)).mapM
   (elfRela elfClass names (sectionName sections s.info.toNat) s.data)

end Read

def parseElf (bytes : List Byte) : Parse ElfFile := do
 let elfClass ← readIdent bytes
 let header ← (readHeader elfClass).run' (bytes.drop 16)
 let raw ← (List.range header.shnum.toNat).mapM fun i =>
  (readSectionHeader elfClass).run' (bytes.drop ((header.shoff.toNat + i * header.shentsize.toNat) % 2 ^ 64))
 let shstrtab ← ((raw[header.shstrndx.toNat]?).map (sectionData bytes)).getD (.ok [])
 let sections ← raw.mapM (elfSection bytes shstrtab)
 let symbols ← elfSymbols elfClass sections
 let relocations ← sections.mapM (elfRelas elfClass sections (symbols.map ElfSymbol.name))
 pure ⟨elfClass, header.etype, header.machine, header.flags, sections, symbols.drop 1, relocations.flatten⟩

end Tir.Backend.Elf
