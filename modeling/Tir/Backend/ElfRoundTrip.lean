import Tir.Backend.ElfSymbols

/-!
# Object files round trip

An object whose names and numbers fit the fields of the class is read back from the file written for it
(`elf_round_trip`).
-/

open List Option

namespace Tir.Backend.Elf

open Bytes

/-! ## The symbols in order -/

/-- The local symbols come first, and each kind stays in order. -/
theorem symOrder_eq (object : ObjectFile) : symOrder object =
  object.symbols.filter (fun sym => sym.binding = .localBinding) ++
   object.symbols.filter fun sym => sym.binding = .globalBinding := by
 have hinsert : ∀ (a : ObjSymbol) (l g : List ObjSymbol), (∀ sym ∈ l, sym.binding = .localBinding) →
   (∀ sym ∈ g, sym.binding = .globalBinding) → a.binding = .globalBinding →
   (l ++ g).orderedInsert (fun a b => a.binding = .localBinding ∨ b.binding = .globalBinding) a = l ++ a :: g := by
  intro a l g hl hg ha
  induction l with
  | nil =>
   cases g with
   | nil => rfl
   | cons b g => exact orderedInsert_cons_of_le _ _ (Or.inr (hg b (.head _)))
  | cons b l ih =>
   grind
 rw [symOrder]
 induction object.symbols with
 | nil => rfl
 | cons a symbols ih =>
  rw [insertionSort_cons, ih]
  cases ha : a.binding with
  | localBinding =>
   rw [filter_cons_of_pos (by simp [ha]), filter_cons_of_neg (by simp [ha])]
   cases hrest : symbols.filter (fun sym => sym.binding = .localBinding) ++ symbols.filter fun sym => sym.binding = .globalBinding with
   | nil =>
    grind
   | cons b rest =>
    grind
  | globalBinding =>
   simp_all

/-! ## The file read back -/

/-- Every name is free of zeros and every count, index, size and position of the file fits its field. -/
structure Sized (object : ObjectFile) (elfClass : ElfClass) : Prop where
 sectionNames : ∀ s ∈ object.sections, (0 : Byte) ∉ s.name
 symbolNames : ∀ sym ∈ object.symbols, (0 : Byte) ∉ sym.name
 relocNames : ∀ s ∈ object.sections, ∀ reloc ∈ s.relocs, (0 : Byte) ∉ reloc.symbol
 placed : Placed object
 sections : indexEnd 1 object.sections + 3 < 2 ^ 16
 symbols : (allSyms object).length < 2 ^ elfClass.symBits
 strtab : (strtabOf object).1.data.length ≤ 2 ^ 32
 shstrtab : ∀ shndxs, (shstrtabOf (bodySections object elfClass shndxs)).data.length ≤ 2 ^ 32

section Parse

variable {object : ObjectFile} {fmt : ObjectFormatInfo} {bytes : List Byte}

theorem mem_undefined {seen : List Name} {relocs : List ObjReloc} {name : Name} (h : name ∈ undefinedNames seen relocs) :
  ∃ reloc ∈ relocs, reloc.symbol = name := by
 induction relocs generalizing seen with
 | nil => nomatch h
 | cons first relocs ih =>
  rw [undefinedNames] at h
  split at h
  · grind
  grind

theorem Sized.allSyms_names (h : Sized object fmt.elfClass) : ∀ sym ∈ allSyms object, (0 : Byte) ∉ sym.name := by
 intro sym hsym
 rw [allSyms, mem_append] at hsym
 rcases hsym with hsym | hsym
 · exact h.symbolNames sym ((mem_insertionSort _).1 hsym)
 · obtain ⟨name, hname, rfl⟩ := List.mem_map.1 hsym
   obtain ⟨reloc, hreloc, rfl⟩ := mem_undefined hname
   obtain ⟨s, hs, hin⟩ := mem_flatMap.1 hreloc
   exact h.relocNames s hs reloc hin

theorem Sized.body_names (h : Sized object fmt.elfClass) (shndxs : List (BitVec 16)) :
  ∀ s ∈ bodySections object fmt.elfClass shndxs, (0 : Byte) ∉ s.name := by
 intro s hs
 have hmem : s ∈ frontOf object fmt.elfClass ++ [symtabSection object fmt.elfClass shndxs, strtabSection object] := by
  grind [bodySections_eq]
 have hsymtab : (0 : Byte) ∉ ascii ".symtab" := by decide
 have hstrtab : (0 : Byte) ∉ ascii ".strtab" := by decide
 rcases mem_append.1 hmem with hfront | hlast
 · rcases mem_append.1 hfront with hnull | hobject
   · rw [mem_singleton.1 hnull]
     exact not_mem_nil
   · obtain ⟨entry, hent, hs⟩ := mem_flatMap.1 hobject
     have hname := h.sectionNames entry.1 (of_mem_zip hent).1
     rw [sectionOf] at hs
     rcases mem_cons.1 hs with rfl | hrela
     · exact hname
     · split at hrela
       · cases hrela
       · obtain rfl := mem_singleton.1 hrela
         have hrelaName : (0 : Byte) ∉ ascii ".rela" := by decide
         exact fun hzero => (mem_append.1 hzero).elim hrelaName hname
 · rcases mem_cons.1 hlast with rfl | hlast
   · exact hsymtab
   · obtain rfl := mem_singleton.1 hlast
     exact hstrtab

/-- Whether a section is one of the object's. -/
def ElfSection.isContent (s : ElfSection) : Bool :=
 s.shType = SHT_PROGBITS || s.shType = SHT_NOBITS

/-- An object's section as it is read back. -/
def contentImage (elfClass : ElfClass) (s : ObjSection) : ElfSection :=
 ⟨s.name, s.kind.shType, elfClass.cut s.kind.shFlags, elfClass.cut (BitVec.ofNat 64 s.data.length), elfClass.cut s.align, 0, 0,
  if s.kind = .uninitializedData then [] else s.data⟩

theorem filter_objectSections {elfClass : ElfClass} {syms : List ObjSymbol} {symtabIndex next : Nat} (sections : List ObjSection) :
  ((objectSections elfClass syms symtabIndex next sections).map (elfImage elfClass)).filter ElfSection.isContent =
    sections.map (contentImage elfClass) := by
 induction sections generalizing next with
 | nil => rfl
 | cons s rest ih =>
  have hone : ((sectionOf elfClass syms symtabIndex (s, next)).map (elfImage elfClass)).filter ElfSection.isContent =
    [contentImage elfClass s] := by
   have hcontent : elfImage elfClass ⟨s.name, s.kind.shType, s.kind.shFlags, 0, 0, s.align, 0, s.data⟩ =
     contentImage elfClass s := by
    rw [elfImage, contentImage]
    cases s.kind <;> rfl
   have hkeep : (contentImage elfClass s).isContent = true := by
    rw [ElfSection.isContent, contentImage]
    cases s.kind <;> rfl
   rw [sectionOf]
   split
   · simp_all
   · rw [map_cons, hcontent, filter_cons_of_pos hkeep]
     rfl
  grind [objectSections_cons]

/-- **What the parser makes of a file written**: every number as its field leaves it. -/
theorem parseElf_writeElf (h : Sized object fmt.elfClass) (hwrite : writeElf object fmt = some bytes)
  (hlt : bytes.length < 2 ^ fmt.elfClass.bits) :
  ∃ file, parseElf bytes = .ok file ∧ file.elfClass = fmt.elfClass ∧ file.machine = fmt.elfMachine ∧ file.flags = fmt.elfFlags ∧
   file.sections.filter ElfSection.isContent = object.sections.map (contentImage fmt.elfClass) ∧
   file.symbols = (allSyms object).map (symbolImage fmt.elfClass object) ∧
   file.relocations = object.sections.flatMap fun s => s.relocs.map (relaImage fmt.elfClass s) := by
 obtain ⟨shndxs, hshndxs, hbytes⟩ := bind_eq_some_iff.1 hwrite
 have hbody := bodySections_eq object fmt.elfClass shndxs
 have hlen : (bodySections object fmt.elfClass shndxs).length = indexEnd 1 object.sections + 1 := by
  have hall := congrArg List.length hbody
  grind [length_frontOf]
 have hfile : fileBytes fmt (sectionsOf (bodySections object fmt.elfClass shndxs))
   (fileSections (bodySections object fmt.elfClass shndxs)).2 ((bodySections object fmt.elfClass shndxs).length + 1) = bytes := by
  rw [hlen]
  exact some.inj hbytes
 have hcnt := h.sections
 have hparse := parseElf_eq fmt (h.body_names shndxs) (h.shstrtab shndxs) (by omega) (by rw [hfile]; exact hlt)
 have hsecs : elfImage fmt.elfClass nullSection :: (sectionsOf (bodySections object fmt.elfClass shndxs)).map (elfImage fmt.elfClass) =
   (frontOf object fmt.elfClass ++ (symtabSection object fmt.elfClass shndxs :: strtabSection object ::
    [⟨ascii ".shstrtab", SHT_STRTAB, 0, 0, 0, 1, 0, (shstrtabOf (bodySections object fmt.elfClass shndxs)).data⟩])).map
      (elfImage fmt.elfClass) := by
  have hmap := congrArg (fun l => (l ++ [⟨ascii ".shstrtab", SHT_STRTAB, 0, 0, 0, 1, 0,
   (shstrtabOf (bodySections object fmt.elfClass shndxs)).data⟩]).map (elfImage fmt.elfClass)) hbody
  rw [append_assoc, append_assoc] at hmap
  exact hmap
 rw [hfile, hsecs] at hparse
 obtain ⟨parts, hparts, hflat⟩ := elfRelas_eq
  (symtabSection object fmt.elfClass shndxs :: strtabSection object ::
   [⟨ascii ".shstrtab", SHT_STRTAB, 0, 0, 0, 1, 0, (shstrtabOf (bodySections object fmt.elfClass shndxs)).data⟩])
  (fun s hs => by
   simp only [mem_cons, not_mem_nil, or_false] at hs
   rcases hs with rfl | rfl | rfl
   · exact (by decide : SHT_SYMTAB ≠ SHT_RELA)
   · exact (by decide : SHT_STRTAB ≠ SHT_RELA)
   · exact (by decide : SHT_STRTAB ≠ SHT_RELA)) (by omega) h.symbols
 dsimp only at hparse
 rw [elfSymbols_eq h.placed (by omega) h.allSyms_names h.strtab hshndxs, ok_bind, hparts, ok_bind] at hparse
 refine ⟨_, hparse, rfl, rfl, rfl, ?_, rfl, hflat⟩
 rw [frontOf, append_assoc, map_append, map_append, filter_append, filter_append, filter_objectSections]
 exact append_nil _

end Parse

/-! ## The round trip -/

/-- An object that fits the fields of a class: names without zeros, counts and indices in range, and every
number within the width of its field. -/
structure Fits (object : ObjectFile) (elfClass : ElfClass) : Prop extends Sized object elfClass where
 sizes : ∀ s ∈ object.sections, s.data.length < 2 ^ elfClass.bits ∧ s.align.toNat < 2 ^ elfClass.bits
 values : ∀ sym ∈ object.symbols, sym.value.toNat < 2 ^ elfClass.bits ∧ sym.size.toNat < 2 ^ elfClass.bits
 relocs : ∀ s ∈ object.sections, ∀ reloc ∈ s.relocs, reloc.offset.toNat < 2 ^ elfClass.bits ∧
  elfClass.cutType reloc.rType = reloc.rType ∧ elfClass.cutAddend reloc.addend = reloc.addend

/-- A file holds an object: its sections in order, with their contents where they occupy the file; its symbols,
the local ones first, and after them the undefined ones that only relocations name; and its relocations. -/
structure Holds (object : ObjectFile) (file : ElfFile) : Prop where
 sections : (file.sections.filter ElfSection.isContent).map (fun s => (s.name, s.shType, s.flags, s.size.toNat, s.addralign, s.data)) =
  object.sections.map fun s => (s.name, s.kind.shType, s.kind.shFlags, s.data.length, s.align,
   if s.kind = .uninitializedData then [] else s.data)
 symbols : file.symbols = (object.symbols.filter (fun sym => sym.binding = .localBinding) ++
   object.symbols.filter (fun sym => sym.binding = .globalBinding) ++
   (undefinedNames ((symOrder object).map ObjSymbol.name) (object.sections.flatMap ObjSection.relocs)).map undefinedSymbol).map
  fun sym => ⟨sym.name, sym.value, sym.size, sym.binding.code, sym.kind.code,
   sym.inSection.bind fun s => (object.sections[s]?).map ObjSection.name⟩
 relocations : file.relocations = object.sections.flatMap fun s => s.relocs.map fun reloc =>
  ⟨s.name, reloc.offset, reloc.symbol, reloc.rType, reloc.addend⟩

/-- **An object that fits is read back from the file written for it.** -/
theorem elf_round_trip {object : ObjectFile} {fmt : ObjectFormatInfo} {bytes : List Byte} (h : Fits object fmt.elfClass)
  (hwrite : writeElf object fmt = some bytes) (hlt : bytes.length < 2 ^ fmt.elfClass.bits) :
  ∃ file, parseElf bytes = .ok file ∧ file.elfClass = fmt.elfClass ∧ file.machine = fmt.elfMachine ∧ file.flags = fmt.elfFlags ∧
   Holds object file := by
 obtain ⟨file, hparse, hclass, hmachine, hflags, hsecs, hsymbols, hrelocs⟩ := parseElf_writeElf h.toSized hwrite hlt
 refine ⟨file, hparse, hclass, hmachine, hflags, ⟨?_, ?_, ?_⟩⟩
 · rw [hsecs, List.map_map]
   apply map_congr_left
   intro s hs
   obtain ⟨hsize, halign⟩ := h.sizes s hs
   have hcutFlags : fmt.elfClass.cut s.kind.shFlags = s.kind.shFlags := by
    cases fmt.elfClass <;> cases s.kind <;> rfl
   simp [contentImage, hcutFlags, toNat_cut_ofNat hsize, cut_eq halign]
 · rw [hsymbols, allSyms, symOrder_eq]
   apply map_congr_left
   intro sym hsym
   have hvals : sym.value.toNat < 2 ^ fmt.elfClass.bits ∧ sym.size.toNat < 2 ^ fmt.elfClass.bits := by
    rcases mem_append.1 hsym with hdefined | hundefined
    · rw [← symOrder_eq] at hdefined
      exact h.values sym ((mem_insertionSort _).1 hdefined)
    · obtain ⟨name, -, rfl⟩ := List.mem_map.1 hundefined
      exact ⟨Nat.two_pow_pos _, Nat.two_pow_pos _⟩
   rw [symbolImage, cut_eq hvals.1, cut_eq hvals.2]
 · rw [hrelocs]
   apply flatMap_congr
   intro s hs
   apply map_congr_left
   intro reloc hreloc
   obtain ⟨hoff, htype, haddend⟩ := h.relocs s hs reloc hreloc
   rw [relaImage, cut_eq hoff, htype, haddend]

/-- A function that calls another. -/
def callObject : ObjectFile where
 sections := [⟨ascii ".text", .text, 4, [0x97, 0, 0, 0, 0xE7, 0x80, 0, 0], [⟨0, ascii "g", 18, 0⟩]⟩]
 symbols := [⟨ascii "f", some 0, 0, 8, .globalBinding, .func⟩]

def riscv (elfClass : ElfClass) : ObjectFormatInfo :=
 ⟨243, elfClass, 0⟩

theorem callObject_fits : Fits callObject .elf64 where
 sectionNames := by decide
 symbolNames := by decide
 relocNames := by decide
 placed := fun _ _ _ _ _ hidx => (sectionIndex_lt hidx).trans_le (by decide)
 sections := by decide
 symbols := by decide
 strtab := by decide
 shstrtab := fun _ => (by decide : 44 ≤ 2 ^ 32)
 sizes := by decide
 values := by decide
 relocs := by decide

theorem elf_round_trip_call : ∃ bytes file, writeElf callObject (riscv .elf64) = some bytes ∧ parseElf bytes = .ok file ∧
  Holds callObject file := by
 have hlen : (writeElf callObject (riscv .elf64)).map List.length = some 608 := by decide +kernel
 obtain ⟨bytes, hwrite, hbytes⟩ := map_eq_some_iff.1 hlen
 obtain ⟨file, hparse, -, -, -, hholds⟩ := @elf_round_trip callObject (riscv .elf64) bytes callObject_fits hwrite (by rw [hbytes]; decide)
 exact ⟨bytes, file, hwrite, hparse, hholds⟩

/-- An object with one symbol, whose value takes 33 bits. -/
def highObject : ObjectFile where
 sections := []
 symbols := [⟨ascii "f", none, 0x100000000, 0, .globalBinding, .noType⟩]

theorem highObject_sized : Sized highObject .elf32 where
 sectionNames := by decide
 symbolNames := by decide
 relocNames := by decide
 placed := fun _ _ _ _ _ hidx => (sectionIndex_lt hidx).trans_le (by decide)
 sections := by decide
 symbols := by decide
 strtab := by decide
 shstrtab := fun _ => (by decide : 27 ≤ 2 ^ 32)

/-- A symbol value past 32 bits is cut in a 32-bit file. -/
theorem elf_cuts_value : ∃ bytes file, writeElf highObject (riscv .elf32) = some bytes ∧ parseElf bytes = .ok file ∧
  file.symbols.map ElfSymbol.value = [0] ∧ ¬ Holds highObject file := by
 have hlen : (writeElf highObject (riscv .elf32)).map List.length = some 280 := by decide +kernel
 obtain ⟨bytes, hwrite, hbytes⟩ := map_eq_some_iff.1 hlen
 obtain ⟨file, hparse, -, -, -, -, hsymbols, -⟩ := @parseElf_writeElf highObject (riscv .elf32) bytes highObject_sized hwrite
  (by rw [hbytes]; decide)
 have hvals : file.symbols.map ElfSymbol.value = [0] := by
  rw [hsymbols]
  decide
 refine ⟨bytes, file, hwrite, hparse, hvals, fun h => ?_⟩
 rw [h.symbols] at hvals
 nomatch hvals

end Tir.Backend.Elf
