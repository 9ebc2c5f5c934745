import Tir.Backend.ElfLayout
import Tir.Backend.ElfNames

/-!
# Reading the sections back

The parser finds the header, the section headers and the bytes of the sections of a file written, so that it
goes on with the null section and the sections as they are read back (`parseElf_eq`).
-/

open List Option Nat BitVec

namespace Tir.Backend.Elf

open Bytes

/-- A section as it is read back: without bytes where it occupies no file space. -/
def elfImage (elfClass : ElfClass) (s : Section) : ElfSection :=
 ⟨s.name, s.shType, elfClass.cut s.shFlags, elfClass.cut (BitVec.ofNat 64 s.data.length), elfClass.cut s.shAddralign,
  s.shLink, s.shInfo, if s.shType = SHT_NOBITS then [] else s.data⟩

section Headers

variable {fmt : ObjectFormatInfo} {sections : List Section} {names : List (BitVec 32)} {shstrtabIndex : Nat}
 {bytes : List Byte} {offsets : List Nat} {shoff : Nat}

/-- The sections of a file with their offsets and names, the null section first. -/
def entriesOf (sections : List Section) (offsets : List Nat) (names : List (BitVec 32)) : List (Section × Nat × BitVec 32) :=
 (nullSection, 0, 0) :: sections.zip (offsets.zip names)

variable (h : LaidOut fmt sections names shstrtabIndex bytes offsets shoff)

include h

theorem LaidOut.length_entries
  (hnames : names.length = sections.length) : (entriesOf sections offsets names).length = sections.length + 1 := by
 rw [entriesOf, length_cons, length_zip, length_zip, h.count, hnames, min_self, min_self]

theorem LaidOut.headerAt {i : Nat}
  {entry : Section × Nat × BitVec 32} (hi : (entriesOf sections offsets names)[i]? = some entry) :
  StandsAt bytes (shoff + i * fmt.elfClass.shentsize) (sectionHeader fmt.elfClass entry.1 entry.2.1 entry.2.2) := by
 cases i with
 | zero =>
  cases hi
  rw [Nat.zero_mul, Nat.add_zero]
  exact h.null
 | succ i =>
  rw [entriesOf, getElem?_cons_succ, getElem?_zip_eq_some, getElem?_zip_eq_some] at hi
  exact h.table i entry.1 entry.2.1 entry.2.2 hi.1 hi.2.1 hi.2.2

theorem LaidOut.shoff_lt (hlt : bytes.length < 2 ^ fmt.elfClass.bits) : shoff < 2 ^ fmt.elfClass.bits :=
 (le_of_add_right_le h.null.le).trans_lt hlt

theorem LaidOut.read_headers
  (hnames : names.length = sections.length) (hlt : bytes.length < 2 ^ fmt.elfClass.bits) (hcnt : sections.length + 1 < 2 ^ 16) :
  (List.range (BitVec.ofNat 16 (sections.length + 1)).toNat).mapM (fun i => (readSectionHeader fmt.elfClass).run'
   (bytes.drop (((fmt.elfClass.cut (BitVec.ofNat 64 shoff)).toNat +
    i * (BitVec.ofNat 16 fmt.elfClass.shentsize).toNat) % 2 ^ 64))) =
   .ok ((entriesOf sections offsets names).map fun entry => rawOf fmt.elfClass entry.1 entry.2.1 entry.2.2) := by
 have hentsize : (BitVec.ofNat 16 fmt.elfClass.shentsize).toNat = fmt.elfClass.shentsize := by
  cases fmt.elfClass with
  | elf32 => rfl
  | elf64 => rfl
 have hshnum : (BitVec.ofNat 16 (sections.length + 1)).toNat = sections.length + 1 := by
  rw [toNat_ofNat, mod_eq_of_lt hcnt]
 rw [hshnum, toNat_cut_ofNat (h.shoff_lt hlt), hentsize, ← h.length_entries hnames]
 apply mapM_range_eq_ok
 intro i entry hi
 have hat := h.headerAt hi
 have hpos : (shoff + i * fmt.elfClass.shentsize) < 2 ^ 64 :=
  (le_of_add_right_le hat.le).trans_lt (hlt.trans_le (Nat.pow_le_pow_right (by decide) bits_le))
 rw [mod_eq_of_lt hpos]
 rw [sectionHeader_eq] at hat
 exact reads_sectionHeader.standsAt hat.left

theorem LaidOut.read_body (hlt : bytes.length < 2 ^ fmt.elfClass.bits) {i : Nat} {entry : Section × Nat × BitVec 32}
  (hi : (entriesOf sections offsets names)[i]? = some entry) :
  sectionData bytes (rawOf fmt.elfClass entry.1 entry.2.1 entry.2.2) =
   .ok (if entry.1.shType = SHT_NOBITS then [] else entry.1.data) := by
 rw [sectionData]
 by_cases hbits : entry.1.shType = SHT_NOBITS
 · rw [rawOf, if_pos hbits, if_pos hbits]
 · have hat : StandsAt bytes entry.2.1 entry.1.data := by
    cases i with
    | zero =>
     cases hi
     exact standsAt_zero [] bytes
    | succ i =>
     rw [entriesOf, getElem?_cons_succ, getElem?_zip_eq_some, getElem?_zip_eq_some] at hi
     exact h.body i entry.1 entry.2.1 hi.1 hi.2.1 hbits
   have hle := hat.le
   have hoff : (fmt.elfClass.cut (BitVec.ofNat 64 entry.2.1)).toNat = entry.2.1 := toNat_cut_ofNat (by omega)
   have hsize : (fmt.elfClass.cut (BitVec.ofNat 64 entry.1.data.length)).toNat = entry.1.data.length :=
    toNat_cut_ofNat (by omega)
   simp [rawOf, if_neg hbits, hoff, hsize, if_pos hle, hat.slice]

end Headers

section Sections

variable {fmt : ObjectFormatInfo} {body : List Section}

/-- The string table of the section names. -/
def shstrtabOf (body : List Section) : StrTab :=
 (StrTab.new.internAll (body.map Section.name ++ [ascii ".shstrtab"])).1

def sectionsOf (body : List Section) : List Section :=
 (fileSections body).1

/-- **The parser reads the sections of a file back** and goes on with them. -/
theorem parseElf_eq (fmt : ObjectFormatInfo) (hnames : ∀ s ∈ body, (0 : Byte) ∉ s.name) (htable : (shstrtabOf body).data.length ≤ 2 ^ 32)
  (hcnt : body.length + 2 < 2 ^ 16)
  (hlt : (fileBytes fmt (sectionsOf body) (fileSections body).2 (body.length + 1)).length < 2 ^ fmt.elfClass.bits) :
  parseElf (fileBytes fmt (sectionsOf body) (fileSections body).2 (body.length + 1)) =
   (do
    let sections := elfImage fmt.elfClass nullSection :: (sectionsOf body).map (elfImage fmt.elfClass)
    let symbols ← elfSymbols fmt.elfClass sections
    let relocations ← sections.mapM (elfRelas fmt.elfClass sections (symbols.map ElfSymbol.name))
    pure ⟨fmt.elfClass, 1, fmt.elfMachine, fmt.elfFlags, sections, symbols.drop 1, relocations.flatten⟩) := by
 obtain ⟨-, hlen, hoff⟩ := StrTab.internAll_spec StrTab.sound_new htable
 have hsecs : (sectionsOf body).length = body.length + 1 := by
  rw [sectionsOf, fileSections, length_append, length_singleton]
 have hlen' : (fileSections body).2.length = (sectionsOf body).length := by
  rw [hsecs]
  refine hlen.trans ?_
  rw [length_append, length_map, length_singleton]
 obtain ⟨offsets, shoff, h⟩ := fileBytes_spec fmt (sectionsOf body) (fileSections body).2 (body.length + 1)
 generalize fileBytes fmt (sectionsOf body) (fileSections body).2 (body.length + 1) = bytes at hlt h
 obtain ⟨more, hmore⟩ := h.header
 have hident : readIdent bytes = .ok fmt.elfClass := by
  rw [hmore]
  exact readIdent_eq _
 have hheader := (reads_header fmt shoff ((sectionsOf body).length + 1) (body.length + 1)).standsAt (by
  have hat := (standsAt_zero (elfHeader fmt shoff ((sectionsOf body).length + 1) (body.length + 1)) more).shift (ident fmt.elfClass)
  rw [← hmore] at hat
  exact hat)
 have hsixteen : (ident fmt.elfClass).length + 0 = 16 := by
  cases fmt.elfClass with
  | elf32 => rfl
  | elf64 => rfl
 rw [hsixteen] at hheader
 have hraw := h.read_headers hlen' hlt (by omega)
 -- the section of the names is the last one
 have hall : ∀ (i : Nat) (entry : Section × Nat × BitVec 32), (entriesOf (sectionsOf body) offsets (fileSections body).2)[i]? = some entry →
   strAt (shstrtabOf body).data entry.2.2.toNat = .ok entry.1.name := by
  intro i entry hi
  cases i with
  | zero =>
   cases hi
   exact strAt_eq (StrTab.nameAt_zero _) not_mem_nil
  | succ i =>
   rw [entriesOf, getElem?_cons_succ, getElem?_zip_eq_some, getElem?_zip_eq_some] at hi
   obtain ⟨hs, -, hname⟩ := hi
   have hnamed : (body.map Section.name ++ [ascii ".shstrtab"])[i]? = some entry.1.name := by
    have hmap := congrArg (Option.map Section.name) hs
    rwa [← getElem?_map, sectionsOf, fileSections, map_append] at hmap
   obtain ⟨at', hat, hstands⟩ := hoff i entry.1.name hnamed
   cases hname.symm.trans hat
   apply strAt_eq hstands
   rcases mem_append.1 (mem_of_getElem? hs) with hmem | hmem
   · exact hnames entry.1 hmem
   · have hlast : (0 : Byte) ∉ ascii ".shstrtab" := by decide
     rw [mem_singleton.1 hmem]
     exact hlast
 obtain ⟨entry, hget, hent⟩ : ∃ entry : Section × Nat × BitVec 32,
   (entriesOf (sectionsOf body) offsets (fileSections body).2)[body.length + 1]? = some entry ∧
    entry.1 = ⟨ascii ".shstrtab", SHT_STRTAB, 0, 0, 0, 1, 0, (shstrtabOf body).data⟩ := by
  have hs : (sectionsOf body)[body.length]? = some ⟨ascii ".shstrtab", SHT_STRTAB, 0, 0, 0, 1, 0, (shstrtabOf body).data⟩ := by
   rw [sectionsOf, fileSections, getElem?_append_right le_rfl, Nat.sub_self]
   rfl
  have hin : body.length < offsets.length := by rw [h.count, hsecs]; omega
  have hin' : body.length < (fileSections body).2.length := by rw [hlen', hsecs]; omega
  refine ⟨(_, offsets[body.length], (fileSections body).2[body.length]), ?_, rfl⟩
  rw [entriesOf, getElem?_cons_succ, getElem?_zip_eq_some, getElem?_zip_eq_some]
  exact ⟨hs, getElem?_eq_getElem hin, getElem?_eq_getElem hin'⟩
 have hbody : ∀ entry ∈ entriesOf (sectionsOf body) offsets (fileSections body).2,
   elfSection bytes (shstrtabOf body).data (rawOf fmt.elfClass entry.1 entry.2.1 entry.2.2) = .ok (elfImage fmt.elfClass entry.1) := by
  intro entry hmem
  obtain ⟨i, hi⟩ := getElem?_of_mem hmem
  have hname : strAt (shstrtabOf body).data (rawOf fmt.elfClass entry.1 entry.2.1 entry.2.2).nameOff.toNat = .ok entry.1.name :=
   hall i entry hi
  rw [elfSection, hname, ok_bind, h.read_body hlt hi, ok_bind]
  rfl
 have himages : (entriesOf (sectionsOf body) offsets (fileSections body).2).map (fun entry => elfImage fmt.elfClass entry.1) =
   elfImage fmt.elfClass nullSection :: (sectionsOf body).map (elfImage fmt.elfClass) := by
  have hfst : ((sectionsOf body).zip (offsets.zip (fileSections body).2)).map Prod.fst = sectionsOf body := by
   apply map_fst_zip
   rw [length_zip, h.count, hlen', min_self]
  rw [entriesOf, map_cons]
  congr 1
  have hmap := congrArg (List.map (elfImage fmt.elfClass)) hfst
  rwa [List.map_map] at hmap
 have hidx : (BitVec.ofNat 16 (body.length + 1)).toNat = body.length + 1 := by
  rw [toNat_ofNat, mod_eq_of_lt (by omega)]
 have htable' := h.read_body hlt hget
 rw [hent] at htable'
 have hstrtab : SHT_STRTAB ≠ SHT_NOBITS := by decide
 rw [parseElf, hident, ok_bind, hheader, ok_bind, hraw, ok_bind]
 rw [hidx, getElem?_map, hget, map_some, map_some, getD_some, hent, htable', ok_bind,
  if_neg hstrtab, mapM_map_eq_ok hbody, himages]
 rfl

end Sections

end Tir.Backend.Elf
