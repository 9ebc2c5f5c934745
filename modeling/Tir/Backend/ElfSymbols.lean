import Tir.Backend.ElfSections

/-!
# Reading the symbols and relocations back

The sections of a file stand at the indices the writer gave them, so that the parser finds the symbol table
with its names (`elfSymbols_eq`) and the section and the symbol of each relocation (`elfRelas_eq`).
-/

open List Option Nat

namespace Tir.Backend.Elf

open Bytes StrTab

/-! ## Section indices -/

section Indices

variable {elfClass : ElfClass} {syms : List ObjSymbol} {symtabIndex : Nat}

/-- The sections of the objects' sections, from an index on. -/
def objectSections (elfClass : ElfClass) (syms : List ObjSymbol) (symtabIndex next : Nat) (sections : List ObjSection) :
  List Section :=
 (sections.zip (sectionIndex next sections)).flatMap (sectionOf elfClass syms symtabIndex)

theorem objectSections_cons (next : Nat) (s : ObjSection) (rest : List ObjSection) :
  objectSections elfClass syms symtabIndex next (s :: rest) = sectionOf elfClass syms symtabIndex (s, next) ++
   objectSections elfClass syms symtabIndex (next + if s.relocs.isEmpty then 1 else 2) rest :=
 rfl

theorem length_sectionOf (entry : ObjSection × Nat) :
  (sectionOf elfClass syms symtabIndex entry).length = if entry.1.relocs.isEmpty then 1 else 2 := by
 rw [sectionOf]
 split
 · rfl
 · rfl

theorem length_objectSections (next : Nat) (sections : List ObjSection) :
  next + (objectSections elfClass syms symtabIndex next sections).length = indexEnd next sections := by
 induction sections generalizing next with
 | nil => rfl
 | cons s rest ih =>
  rw [objectSections_cons, length_append, length_sectionOf, indexEnd, ← ih, add_assoc]

theorem length_sectionIndex (next : Nat) (sections : List ObjSection) : (sectionIndex next sections).length = sections.length := by
 induction sections generalizing next with
 | nil => rfl
 | cons s rest ih => exact congrArg (· + 1) (ih _)

variable {index k : Nat} {sections : List ObjSection}

theorem le_sectionIndex {next : Nat} (hk : (sectionIndex next sections)[k]? = some index) :
  next ≤ index := by
 induction sections generalizing next k with
 | nil => nomatch hk
 | cons s rest ih =>
  cases k with
  | zero => exact le_of_eq (some.inj hk)
  | succ k => exact le_of_add_right_le (ih hk)

theorem le_indexEnd (next : Nat) (sections : List ObjSection) : next ≤ indexEnd next sections := by
 induction sections generalizing next with
 | nil => exact le_rfl
 | cons s rest ih => exact le_of_add_right_le (ih _)

theorem sectionIndex_lt {next : Nat} (hk : (sectionIndex next sections)[k]? = some index) :
  index < indexEnd next sections := by
 induction sections generalizing next k with
 | nil => nomatch hk
 | cons s rest ih =>
  cases k with
  | zero =>
   cases hk
   refine lt_of_lt_of_le ?_ (le_indexEnd _ rest)
   grind
  | succ k => exact ih hk

/-- A section of the object stands at its index. -/
theorem section_at {front : List Section} {s : ObjSection}
  (hk : (sectionIndex front.length sections)[k]? = some index) (hs : sections[k]? = some s) :
  (front ++ objectSections elfClass syms symtabIndex front.length sections)[index]? =
   some ⟨s.name, s.kind.shType, s.kind.shFlags, 0, 0, s.align, 0, s.data⟩ := by
 induction sections generalizing front k with
 | nil => nomatch hs
 | cons first rest ih =>
  rw [objectSections_cons]
  cases k with
  | zero =>
   cases hk
   cases hs
   rw [getElem?_append_right le_rfl, Nat.sub_self]
   rfl
  | succ k =>
   have hlen : (front ++ sectionOf elfClass syms symtabIndex (first, front.length)).length =
     front.length + if first.relocs.isEmpty then 1 else 2 := by
    rw [length_append, length_sectionOf]
   rw [← append_assoc, ← hlen]
   rw [sectionIndex, getElem?_cons_succ, ← hlen] at hk
   exact ih hk hs

end Indices

/-! ## The last symbol of a name -/

/-- The index of a name is that of a symbol with the name. -/
theorem symIndex_spec {syms : List ObjSymbol} {name : Name} (h : name ∈ syms.map ObjSymbol.name) :
  ∃ i sym, symIndex syms name = i + 1 ∧ syms[i]? = some sym ∧ sym.name = name := by
 have hfold : ∀ (entries : List (ObjSymbol × Nat)) (index : List (Name × Nat)),
   entries.foldl (fun index entry => (entry.1.name, entry.2 + 1) :: index) index =
    (entries.map fun entry => (entry.1.name, entry.2 + 1)).reverse ++ index := by
  intro entries
  induction entries with
  | nil => exact fun index => rfl
  | cons entry entries ih =>
   grind
 obtain ⟨sym, hsym, rfl⟩ := List.mem_map.1 h
 obtain ⟨i, hi⟩ := getElem?_of_mem hsym
 rw [symIndex, hfold, append_nil]
 cases hlookup : (syms.zipIdx.map fun entry => (entry.1.name, entry.2 + 1)).reverse.lookup sym.name with
 | none =>
  have hmem : (sym.name, i + 1) ∈ (syms.zipIdx.map fun entry => (entry.1.name, entry.2 + 1)).reverse :=
   mem_reverse.2 (List.mem_map.2 ⟨(sym, i), mem_zipIdx_iff_getElem?.2 hi, rfl⟩)
  grind
 | some index =>
  obtain ⟨before, after, heq, -⟩ := lookup_eq_some_iff.1 hlookup
  have hmem : (sym.name, index) ∈ (syms.zipIdx.map fun entry => (entry.1.name, entry.2 + 1)).reverse := by
   grind
  grind

/-! ## Undefined symbols -/

theorem mem_undefinedNames {seen : List Name} {relocs : List ObjReloc} {reloc : ObjReloc} (h : reloc ∈ relocs) :
  reloc.symbol ∈ seen ∨ reloc.symbol ∈ undefinedNames seen relocs := by
 induction relocs generalizing seen with
 | nil => nomatch h
 | cons first relocs ih =>
  rw [undefinedNames]
  split
  · rename_i hseen
    rcases mem_cons.1 h with rfl | hrest
    · exact Or.inl hseen
    · exact ih hrest
  grind

/-- Every relocation's symbol is in the symbol table. -/
theorem mem_allSyms {object : ObjectFile} {s : ObjSection} {reloc : ObjReloc} (hs : s ∈ object.sections) (h : reloc ∈ s.relocs) :
  reloc.symbol ∈ (allSyms object).map ObjSymbol.name := by
 rw [allSyms, map_append, List.map_map, mem_append]
 refine (mem_undefinedNames (mem_flatMap.2 ⟨s, hs, h⟩)).imp id fun hmem => ?_
 exact List.mem_map.2 ⟨reloc.symbol, hmem, rfl⟩

/-! ## The symbol table -/

section Symbols

variable {elfClass : ElfClass} {object : ObjectFile} {shndxs : List (BitVec 16)}

/-- The section index the writer gives a symbol is that of its section in the file. -/
def Placed (object : ObjectFile) : Prop :=
 ∀ sym ∈ object.symbols, ∀ s index, sym.inSection = some s → (sectionIndex 1 object.sections)[s]? = some index → index < 0xFF00

/-- A symbol as it is read back. -/
def symbolImage (elfClass : ElfClass) (object : ObjectFile) (sym : ObjSymbol) : ElfSymbol :=
 ⟨sym.name, elfClass.cut sym.value, elfClass.cut sym.size, sym.binding.code, sym.kind.code,
  sym.inSection.bind fun s => (object.sections[s]?).map ObjSection.name⟩

def nullSymbol : ElfSymbol :=
 ⟨[], 0, 0, 0, 0, none⟩

def symbolRows (syms : List ObjSymbol) (names : List (BitVec 32)) (shndxs : List (BitVec 16)) : List RawSymbol :=
 ⟨0, 0, 0, 0, 0⟩ :: (syms.zip (names.zip shndxs)).map fun entry =>
  ⟨entry.2.1, entry.1.value, entry.1.size, symInfo entry.1, entry.2.2⟩

theorem symtabData_eq (syms : List ObjSymbol) (names : List (BitVec 32)) (shndxs : List (BitVec 16)) :
  symtabData elfClass syms names shndxs = (symbolRows syms names shndxs).flatMap fun row =>
   symEntry elfClass row.nameOff row.info row.shndx row.value row.size := by
 rw [symtabData, symbolRows, flatMap_cons, flatMap_map]

theorem mem_allSyms_iff {sym : ObjSymbol} (h : sym ∈ allSyms object) : sym ∈ object.symbols ∨ sym.inSection = none := by
 rw [allSyms, mem_append] at h
 refine h.imp (fun hmem => (mem_insertionSort _).1 hmem) fun hmem => ?_
 obtain ⟨name, -, rfl⟩ := List.mem_map.1 hmem
 rfl

/-- The sections of the file up to the symbol table, the null section first. -/
def frontOf (object : ObjectFile) (elfClass : ElfClass) : List Section :=
 [nullSection] ++ objectSections elfClass (allSyms object) (indexEnd 1 object.sections) 1 object.sections

theorem length_frontOf : (frontOf object elfClass).length = indexEnd 1 object.sections := by
 rw [frontOf, length_append, length_singleton, length_objectSections]

def strtabOf (object : ObjectFile) : StrTab × List (BitVec 32) :=
 StrTab.new.internAll ((allSyms object).map ObjSymbol.name)

def symtabSection (object : ObjectFile) (elfClass : ElfClass) (shndxs : List (BitVec 16)) : Section :=
 ⟨ascii ".symtab", SHT_SYMTAB, 0, BitVec.ofNat 32 (indexEnd 1 object.sections + 1),
  BitVec.ofNat 32 (1 + ((symOrder object).filter fun sym => sym.binding = .localBinding).length), elfClass.align,
  BitVec.ofNat 64 elfClass.symEntsize, symtabData elfClass (allSyms object) (strtabOf object).2 shndxs⟩

def strtabSection (object : ObjectFile) : Section :=
 ⟨ascii ".strtab", SHT_STRTAB, 0, 0, 0, 1, 0, (strtabOf object).1.data⟩

theorem bodySections_eq (object : ObjectFile) (elfClass : ElfClass) (shndxs : List (BitVec 16)) : [nullSection] ++ bodySections object elfClass shndxs =
  frontOf object elfClass ++ [symtabSection object elfClass shndxs, strtabSection object] :=
 (append_assoc ..).symm

variable {sections : List ElfSection} {last : List Section}

variable {more : List Section}

/-- The name of an object's section is found at its index. -/
theorem sectionName_eq {k index : Nat} {s : ObjSection}
  (hk : (sectionIndex 1 object.sections)[k]? = some index) (hs : object.sections[k]? = some s) :
  sectionName ((frontOf object elfClass ++ more).map (elfImage elfClass)) index = s.name := by
 have hat : (frontOf object elfClass)[index]? = some ⟨s.name, s.kind.shType, s.kind.shFlags, 0, 0, s.align, 0, s.data⟩ := by
  rw [frontOf]
  exact section_at hk hs
 have hget : ((frontOf object elfClass ++ more).map (elfImage elfClass))[index]? = some (elfImage elfClass
   ⟨s.name, s.kind.shType, s.kind.shFlags, 0, 0, s.align, 0, s.data⟩) := by
  rw [getElem?_map, getElem?_append_left (List.getElem?_eq_some_iff.1 hat).1]
  exact congrArg (Option.map (elfImage elfClass)) hat
 rw [sectionName, hget]
 rfl

theorem symInfo_parts (sym : ObjSymbol) : symInfo sym >>> 4 = sym.binding.code ∧ symInfo sym &&& 0xF = sym.kind.code := by
 rw [symInfo]
 cases sym.binding with
 | localBinding => cases sym.kind <;> decide
 | globalBinding => cases sym.kind <;> decide

theorem elfSymbol_eq {i : Nat} {sym : ObjSymbol} (hplaced : Placed object) (hnames : ∀ sym ∈ allSyms object, (0 : Byte) ∉ sym.name)
  (htable : (strtabOf object).1.data.length ≤ 2 ^ 32)
  (hshndxs : (allSyms object).mapM (shndx (sectionIndex 1 object.sections)) = some shndxs)
  (hi : (allSyms object)[i]? = some sym) :
  elfSymbol elfClass ((frontOf object elfClass ++ more).map (elfImage elfClass)) (strtabOf object).1.data
   (symtabData elfClass (allSyms object) (strtabOf object).2 shndxs) (i + 1) = .ok (symbolImage elfClass object sym) := by
 have hmem := mem_of_getElem? hi
 obtain ⟨-, -, hoffsets⟩ := internAll_spec sound_new htable
 obtain ⟨offset, hoff, hname⟩ := hoffsets i sym.name (by rw [getElem?_map, hi]; rfl)
 obtain ⟨index, hidx, hshndx⟩ := (mapM_some hshndxs).2 i sym hi
 have hrow : (symbolRows (allSyms object) (strtabOf object).2 shndxs)[i + 1]? =
   some ⟨offset, sym.value, sym.size, symInfo sym, index⟩ := by
  have hzip : ((allSyms object).zip ((strtabOf object).2.zip shndxs))[i]? = some (sym, offset, index) := by
   rw [getElem?_zip_eq_some, getElem?_zip_eq_some]
   exact ⟨hi, hoff, hidx⟩
  rw [symbolRows, getElem?_cons_succ, getElem?_map, hzip]
  rfl
 have hat : StandsAt ((symbolRows (allSyms object) (strtabOf object).2 shndxs).flatMap fun row =>
   symEntry elfClass row.nameOff row.info row.shndx row.value row.size) ((i + 1) * elfClass.symEntsize)
   (symEntry elfClass offset (symInfo sym) index sym.value sym.size) :=
  standsAt_flatMap (fun _ _ => length_symEntry ..) hrow
 have hread := (reads_symbol offset (symInfo sym) index sym.value sym.size).standsAt hat
 rw [elfSymbol, symtabData_eq, hread, ok_bind]
 rw [strtabOf, strAt_eq hname (hnames sym hmem), ok_bind, (symInfo_parts sym).1, (symInfo_parts sym).2, symbolImage]
 congr 2
 rw [shndx] at hshndx
 cases hsec : sym.inSection with
 | none =>
  rw [hsec] at hshndx
  simp_all
 | some s =>
  rw [hsec] at hshndx
  obtain ⟨position, hposn, rfl⟩ := map_eq_some_iff.1 hshndx
  have hs : s < object.sections.length := by
   grind [length_sectionIndex]
  have hsym : sym ∈ object.symbols := (mem_allSyms_iff hmem).resolve_right fun hnone => by
   grind
  have hbound := hplaced sym hsym s position hsec hposn
  have hpos := le_sectionIndex hposn
  have hval : (BitVec.ofNat 16 position).toNat = position := by
   rw [BitVec.toNat_ofNat, Nat.mod_eq_of_lt (by omega)]
  have hne : BitVec.ofNat 16 position ≠ 0 := by
   intro hzero
   rw [hzero] at hval
   have hzero' : (0 : BitVec 16).toNat = 0 := rfl
   omega
  have hget := getElem?_eq_getElem hs
  rw [if_pos ⟨hne, by rw [hval]; exact hbound⟩, hval, sectionName_eq hposn hget, bind_some, hget]
  rfl

theorem elfSymbol_null :
  elfSymbol elfClass ((frontOf object elfClass ++ more).map (elfImage elfClass)) (strtabOf object).1.data
   (symtabData elfClass (allSyms object) (strtabOf object).2 shndxs) 0 = .ok nullSymbol := by
 have hat : StandsAt ((symbolRows (allSyms object) (strtabOf object).2 shndxs).flatMap fun row =>
   symEntry elfClass row.nameOff row.info row.shndx row.value row.size) (0 * elfClass.symEntsize)
   (symEntry elfClass 0 0 0 0 0) := by
  have hrow : (symbolRows (allSyms object) (strtabOf object).2 shndxs)[0]? = some ⟨0, 0, 0, 0, 0⟩ := rfl
  exact standsAt_flatMap (fun _ _ => length_symEntry ..) hrow
 have hread := (reads_symbol 0 0 0 0 0).standsAt hat
 have hzero : elfClass.cut 0 = 0 := by
  cases elfClass with
  | elf32 => rfl
  | elf64 => rfl
 have hname : strAt (strtabOf object).1.data (0 : BitVec 32).toNat = .ok [] :=
  strAt_eq (nameAt_zero _) not_mem_nil
 rw [elfSymbol, symtabData_eq, hread, ok_bind]
 rw [hname, ok_bind, hzero]
 rfl

/-- **The symbol table is read back.** -/
theorem elfSymbols_eq (hplaced : Placed object) (hcnt : indexEnd 1 object.sections + 2 < 2 ^ 16)
  (hnames : ∀ sym ∈ allSyms object, (0 : Byte) ∉ sym.name) (htable : (strtabOf object).1.data.length ≤ 2 ^ 32)
  (hshndxs : (allSyms object).mapM (shndx (sectionIndex 1 object.sections)) = some shndxs) :
  elfSymbols elfClass ((frontOf object elfClass ++ (symtabSection object elfClass shndxs :: strtabSection object :: more)).map
   (elfImage elfClass)) = .ok (nullSymbol :: (allSyms object).map (symbolImage elfClass object)) := by
 have hfront : ∀ s ∈ frontOf object elfClass, s.shType ≠ SHT_SYMTAB := by
  intro s hs
  rcases mem_append.1 hs with hnull | hs
  · obtain rfl := mem_singleton.1 hnull
    decide
  · obtain ⟨entry, -, hent⟩ := mem_flatMap.1 hs
    rw [sectionOf] at hent
    rcases mem_cons.1 hent with rfl | hrela
    · cases hkind : entry.1.kind <;> simp [SectionKind.shType, SHT_NOBITS, SHT_PROGBITS, SHT_SYMTAB]
    · split at hrela
      · nomatch hrela
      · obtain rfl := mem_singleton.1 hrela
        simp [SHT_RELA, SHT_SYMTAB]
 have hfind : ((frontOf object elfClass ++ (symtabSection object elfClass shndxs :: strtabSection object :: more)).map
   (elfImage elfClass)).find? (fun s => s.shType = SHT_SYMTAB) = some (elfImage elfClass (symtabSection object elfClass shndxs)) := by
  rw [map_append, find?_append, find?_eq_none.2, none_or]
  · rfl
  · intro image himage
    obtain ⟨s, hs, rfl⟩ := List.mem_map.1 himage
    rw [decide_eq_true_iff]
    exact hfront s hs
 have hlink : (elfImage elfClass (symtabSection object elfClass shndxs)).link.toNat = (frontOf object elfClass).length + 1 := by
  have hval : (BitVec.ofNat 32 (indexEnd 1 object.sections + 1)).toNat = indexEnd 1 object.sections + 1 := by
   rw [BitVec.toNat_ofNat, mod_eq_of_lt (by omega)]
  rw [length_frontOf]
  exact hval
 have hstrtab : ((frontOf object elfClass ++ (symtabSection object elfClass shndxs :: strtabSection object :: more)).map
   (elfImage elfClass))[(frontOf object elfClass).length + 1]? = some (elfImage elfClass (strtabSection object)) := by
  simp_all
 have hdata : (elfImage elfClass (symtabSection object elfClass shndxs)).data =
   symtabData elfClass (allSyms object) (strtabOf object).2 shndxs := rfl
 have hdata' : (elfImage elfClass (strtabSection object)).data = (strtabOf object).1.data := rfl
 obtain ⟨-, hlen, -⟩ := internAll_spec sound_new htable
 have hlen' : (strtabOf object).2.length = (allSyms object).length := hlen.trans (length_map _)
 have hrows : (symtabData elfClass (allSyms object) (strtabOf object).2 shndxs).length / elfClass.symEntsize =
   (nullSymbol :: (allSyms object).map (symbolImage elfClass object)).length := by
  have hpos : 0 < elfClass.symEntsize := by
   cases elfClass with
   | elf32 => decide
   | elf64 => decide
  rw [symtabData_eq, length_flatMap fun _ _ => length_symEntry .., Nat.mul_div_cancel _ hpos, symbolRows, length_cons,
   length_cons, length_map, length_map, length_zip, length_zip, hlen', (mapM_some hshndxs).1,
   min_self, min_self]
 rw [elfSymbols, hfind]
 dsimp only
 rw [hlink, hstrtab, map_some, getD_some, hdata, hdata', hrows]
 refine (mapM_range_eq_ok (k := id) fun i image hi => ?_).trans (congrArg _ (List.map_id _))
 cases i with
 | zero =>
  grind [elfSymbol_null]
 | succ i =>
  rw [getElem?_cons_succ, getElem?_map] at hi
  obtain ⟨sym, hsym, rfl⟩ := map_eq_some_iff.1 hi
  exact elfSymbol_eq hplaced hnames htable hshndxs hsym

end Symbols

/-! ## Relocations -/

section Relocations

variable {elfClass : ElfClass} {object : ObjectFile}

/-- A relocation of a section as it is read back. -/
def relaImage (elfClass : ElfClass) (s : ObjSection) (reloc : ObjReloc) : ElfRela :=
 ⟨s.name, elfClass.cut reloc.offset, reloc.symbol, elfClass.cutType reloc.rType, elfClass.cutAddend reloc.addend⟩

def relaRow (elfClass : ElfClass) (object : ObjectFile) (reloc : ObjReloc) : List Byte :=
 relaEntry elfClass (BitVec.ofNat 32 (symIndex (allSyms object) reloc.symbol)) reloc

theorem sectionOf_eq (symtabIndex : Nat) (s : ObjSection) (index : Nat) :
  sectionOf elfClass (allSyms object) symtabIndex (s, index) =
   ⟨s.name, s.kind.shType, s.kind.shFlags, 0, 0, s.align, 0, s.data⟩ :: if s.relocs.isEmpty then [] else
    [⟨ascii ".rela" ++ s.name, SHT_RELA, 0, BitVec.ofNat 32 symtabIndex, BitVec.ofNat 32 index, elfClass.align,
      BitVec.ofNat 64 elfClass.relaEntsize, s.relocs.flatMap (relaRow elfClass object)⟩] :=
 rfl

theorem length_relaRow (reloc : ObjReloc) : (relaRow elfClass object reloc).length = elfClass.relaEntsize :=
 length_relaEntry _ reloc

theorem elfRela_eq {s : ObjSection} {i : Nat} {reloc : ObjReloc} (hs : s ∈ object.sections) (hi : s.relocs[i]? = some reloc)
  (hsyms : (allSyms object).length < 2 ^ elfClass.symBits) :
  elfRela elfClass ((nullSymbol :: (allSyms object).map (symbolImage elfClass object)).map ElfSymbol.name) s.name
   (s.relocs.flatMap (relaRow elfClass object)) i = .ok (relaImage elfClass s reloc) := by
 obtain ⟨j, sym, hj, hsym, hname⟩ := symIndex_spec (mem_allSyms hs (mem_of_getElem? hi))
 have hjlt := (List.getElem?_eq_some_iff.1 hsym).1
 have hlt : symIndex (allSyms object) reloc.symbol < 2 ^ elfClass.symBits := by omega
 have hrow : Reads (readRela elfClass) (relaRow elfClass object reloc) _ := reads_rela reloc hlt
 have hread := hrow.standsAt (standsAt_flatMap (fun reloc _ => length_relaRow reloc) hi)
 rw [elfRela, hread, ok_bind]
 rw [hj, map_cons, getElem?_cons_succ, List.map_map, getElem?_map, hsym]
 have hsame : (ElfSymbol.name ∘ symbolImage elfClass object) sym = reloc.symbol := hname
 rw [map_some, hsame]
 rfl

/-- The relocations of an object's section are read back. -/
theorem elfRelas_section {more : List Section} {k index : Nat} {s : ObjSection} {symtabIndex : Nat}
  (hk : (sectionIndex 1 object.sections)[k]? = some index) (hs : object.sections[k]? = some s)
  (hcnt : indexEnd 1 object.sections + 2 < 2 ^ 16) (hsyms : (allSyms object).length < 2 ^ elfClass.symBits) :
  ∃ parts, ((sectionOf elfClass (allSyms object) symtabIndex (s, index)).map (elfImage elfClass)).mapM
   (elfRelas elfClass ((frontOf object elfClass ++ more).map (elfImage elfClass))
    ((nullSymbol :: (allSyms object).map (symbolImage elfClass object)).map ElfSymbol.name)) = .ok parts ∧
   parts.flatten = s.relocs.map (relaImage elfClass s) := by
 have hbody : ∀ (sections : List ElfSection) names (section' : Section), section'.shType ≠ SHT_RELA →
   elfRelas elfClass sections names (elfImage elfClass section') = .ok [] :=
  fun sections names section' hne => if_pos hne
 have hkind : s.kind.shType ≠ SHT_RELA := by
  cases s.kind <;> decide
 obtain ⟨names, hnames⟩ : ∃ names, names = (nullSymbol :: (allSyms object).map (symbolImage elfClass object)).map ElfSymbol.name :=
  ⟨_, rfl⟩
 rw [sectionOf_eq, ← hnames]
 by_cases hempty : s.relocs.isEmpty = true
 · refine ⟨[[]], ?_, ?_⟩
   · simp_all
   grind
 · refine ⟨[[], s.relocs.map (relaImage elfClass s)], ?_, ?_⟩
   · rw [if_neg hempty, map_cons, map_cons, map_nil, mapM_cons, hbody _ _ _ hkind, ok_bind, mapM_cons]
     have hrelas : elfRelas elfClass ((frontOf object elfClass ++ more).map (elfImage elfClass)) names
       (elfImage elfClass ⟨ascii ".rela" ++ s.name, SHT_RELA, 0, BitVec.ofNat 32 symtabIndex, BitVec.ofNat 32 index, elfClass.align,
        BitVec.ofNat 64 elfClass.relaEntsize, s.relocs.flatMap (relaRow elfClass object)⟩) =
       .ok (s.relocs.map (relaImage elfClass s)) := by
      have hrela : SHT_RELA ≠ SHT_NOBITS := by decide
      have hpos : 0 < elfClass.relaEntsize := by
       cases elfClass with
       | elf32 => decide
       | elf64 => decide
      have hidx := sectionIndex_lt hk
      have hinfo : (BitVec.ofNat 32 index).toNat = index := by
       rw [BitVec.toNat_ofNat, mod_eq_of_lt (by omega)]
      rw [elfRelas, elfImage]
      rw [if_neg (not_not_intro rfl), if_neg hrela, hinfo, sectionName_eq hk hs,
       length_flatMap fun reloc _ => length_relaRow reloc, Nat.mul_div_cancel _ hpos]
      apply mapM_range_eq_ok
      grind [elfRela_eq]
     rw [hrelas]
     rfl
   · rw [flatten_cons, flatten_cons, flatten_nil, append_nil, nil_append]

/-- **The relocations of every section are read back.** -/
theorem elfRelas_eq (more : List Section) (hmore : ∀ s ∈ more, s.shType ≠ SHT_RELA)
  (hcnt : indexEnd 1 object.sections + 2 < 2 ^ 16) (hsyms : (allSyms object).length < 2 ^ elfClass.symBits) :
  ∃ parts, ((frontOf object elfClass ++ more).map (elfImage elfClass)).mapM
   (elfRelas elfClass ((frontOf object elfClass ++ more).map (elfImage elfClass))
    ((nullSymbol :: (allSyms object).map (symbolImage elfClass object)).map ElfSymbol.name)) = .ok parts ∧
   parts.flatten = object.sections.flatMap fun s => s.relocs.map (relaImage elfClass s) := by
 generalize hreader : elfRelas elfClass ((frontOf object elfClass ++ more).map (elfImage elfClass))
  ((nullSymbol :: (allSyms object).map (symbolImage elfClass object)).map ElfSymbol.name) = reader
 have hnone : ∀ l : List Section, (∀ s ∈ l, s.shType ≠ SHT_RELA) → (l.map (elfImage elfClass)).mapM reader = .ok (l.map fun _ => []) := by
  intro l hl
  apply mapM_map_eq_ok
  intro s hs
  rw [← hreader]
  exact if_pos (hl s hs)
 obtain ⟨parts, hparts, hflat⟩ := mapM_flatMap_eq_ok (f := reader) (l := object.sections.zip (sectionIndex 1 object.sections))
  (h := fun entry => (sectionOf elfClass (allSyms object) (indexEnd 1 object.sections) entry).map (elfImage elfClass))
  (k := fun entry => entry.1.relocs.map (relaImage elfClass entry.1)) fun entry hent => by
   obtain ⟨k, hk⟩ := getElem?_of_mem hent
   rw [getElem?_zip_eq_some] at hk
   rw [← hreader]
   exact elfRelas_section hk.2 hk.1 hcnt hsyms
 refine ⟨[[]] ++ parts ++ more.map fun _ => [], ?_, ?_⟩
 · have hnull := hnone [nullSection] fun s hs => by
    rw [mem_singleton.1 hs]
    decide
   rw [frontOf, map_append, map_append, mapM_append, mapM_append, hnull, ok_bind, hnone more hmore,
    objectSections, map_flatMap, hparts]
   rfl
 · have hfst : (object.sections.zip (sectionIndex 1 object.sections)).map Prod.fst = object.sections := by
    apply map_fst_zip
    rw [length_sectionIndex]
   have hrest : (more.map fun _ => ([] : List ElfRela)).flatten = [] := by
    simp_all
   rw [flatten_append, flatten_append, hflat, hrest, append_nil]
   have hmap := congrArg (fun l => l.flatMap fun s : ObjSection => s.relocs.map (relaImage elfClass s)) hfst
   rwa [flatMap_map] at hmap

end Relocations

end Tir.Backend.Elf
