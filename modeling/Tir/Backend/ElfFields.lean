import Tir.Backend.Elf

/-!
# Fields of ELF structures

Each header and table entry is read back from what the writer puts there, an address cut to the class
(`reads_header`, `reads_sectionHeader`, `reads_symbol`, `reads_rela`).
-/

open List BitVec Nat

namespace Tir.Backend.Elf

open Bytes ElfClass

variable {elfClass : ElfClass} {what : String}

/-- What is left of a number in an address field. -/
def ElfClass.cut (elfClass : ElfClass) (v : BitVec 64) : BitVec 64 :=
 match elfClass with
 | elf32 => (v.setWidth 32).setWidth 64
 | elf64 => v

/-- The width of an address field. -/
def ElfClass.bits : ElfClass → Nat
 | elf32 => 32
 | elf64 => 64

theorem toNat_cut (v : BitVec 64) : (elfClass.cut v).toNat = v.toNat % 2 ^ elfClass.bits := by
 cases elfClass with
 | elf32 =>
  rw [cut, ElfClass.bits, toNat_setWidth, toNat_setWidth]
  omega
 | elf64 =>
  rw [cut, ElfClass.bits]
  omega

theorem cut_eq {v : BitVec 64} (h : v.toNat < 2 ^ elfClass.bits) : elfClass.cut v = v := by
 apply eq_of_toNat_eq
 rw [toNat_cut, mod_eq_of_lt h]

theorem bits_le : elfClass.bits ≤ 64 := by
 cases elfClass with
 | elf32 => decide
 | elf64 => decide

theorem toNat_cut_ofNat {n : Nat} (h : n < 2 ^ elfClass.bits) : (elfClass.cut (BitVec.ofNat 64 n)).toNat = n := by
 have hlt : n < 2 ^ 64 := h.trans_le (Nat.pow_le_pow_right (by decide) bits_le)
 rw [toNat_cut, toNat_ofNat, mod_eq_of_lt hlt, mod_eq_of_lt h]

/-! ## Numbers -/

theorem reads_u8 (v : BitVec 8) : Reads (readU8 what) (u8 v) v :=
 reads_number v (by decide)

theorem reads_u16 (v : BitVec 16) : Reads (readU16 what) (u16 v) v :=
 reads_number v (by decide)

theorem reads_u32 (v : BitVec 32) : Reads (readU32 what) (u32 v) v :=
 reads_number v (by decide)

theorem reads_u64 (v : BitVec 64) : Reads (readU64 what) (u64 v) v :=
 reads_number v (by decide)

theorem reads_addr (v : BitVec 64) : Reads (readAddr elfClass what) (addr elfClass v) (elfClass.cut v) := by
 cases elfClass with
 | elf32 => exact (reads_u32 (v.setWidth 32)).map _
 | elf64 => exact reads_u64 v

theorem length_addr (v : BitVec 64) : (addr elfClass v).length = elfClass.bits / 8 := by
 cases elfClass with
 | elf32 => exact length_toLe 4 _
 | elf64 => exact length_toLe 8 _

/-! ## Headers -/

theorem readIdent_eq (bytes : List Byte) : readIdent (ident elfClass ++ bytes) = .ok elfClass := by
 have hlen : ¬ (ident elfClass ++ bytes).length < 16 := by
  rw [length_append]
  cases elfClass with
  | elf32 => simp [ident]
  | elf64 => simp [ident]
 cases elfClass with
 | elf32 => rw [readIdent, if_neg fun h => h.elim hlen fun hne => hne rfl]; rfl
 | elf64 => rw [readIdent, if_neg fun h => h.elim hlen fun hne => hne rfl]; rfl

theorem reads_header (fmt : ObjectFormatInfo) (shoff shnum shstrtabIndex : Nat) :
  Reads (readHeader fmt.elfClass) (elfHeader fmt shoff shnum shstrtabIndex)
   ⟨1, fmt.elfMachine, fmt.elfClass.cut (BitVec.ofNat 64 shoff), fmt.elfFlags, BitVec.ofNat 16 fmt.elfClass.shentsize,
    BitVec.ofNat 16 shnum, BitVec.ofNat 16 shstrtabIndex⟩ := by
 refine (reads_u16 1).cons ((reads_u16 fmt.elfMachine).cons ((reads_u32 1).cons ?_))
 refine (reads_addr 0).cons ((reads_addr 0).cons ((reads_addr (BitVec.ofNat 64 shoff)).cons ?_))
 refine (reads_u32 fmt.elfFlags).cons ((reads_u16 _).cons ((reads_u16 0).cons ((reads_u16 0).cons ?_)))
 exact (reads_u16 _).cons ((reads_u16 _).cons ((reads_u16 _).cons (reads_pure _)))

theorem length_elfHeader (fmt : ObjectFormatInfo) (shoff shnum shstrtabIndex : Nat) :
  (ident fmt.elfClass ++ elfHeader fmt shoff shnum shstrtabIndex).length = fmt.elfClass.ehsize := by
 rw [elfHeader]
 generalize fmt.elfClass = elfClass
 cases elfClass with
 | elf32 => rfl
 | elf64 => rfl

variable {s : Section} {offset : Nat} {name : BitVec 32}

/-- The header of a section, as it is read back. -/
def rawOf (elfClass : ElfClass) (s : Section) (offset : Nat) (name : BitVec 32) : RawSection :=
 ⟨name, s.shType, elfClass.cut s.shFlags, elfClass.cut (BitVec.ofNat 64 offset), elfClass.cut (BitVec.ofNat 64 s.data.length),
  s.shLink, s.shInfo, elfClass.cut s.shAddralign⟩

theorem sectionHeader_eq : sectionHeader elfClass s offset name =
  [u32 name, u32 s.shType, addr elfClass s.shFlags, addr elfClass 0, addr elfClass (BitVec.ofNat 64 offset),
   addr elfClass (BitVec.ofNat 64 s.data.length), u32 s.shLink, u32 s.shInfo, addr elfClass s.shAddralign].flatten ++
   addr elfClass s.shEntsize := by
 simp [sectionHeader]

theorem reads_sectionHeader : Reads (readSectionHeader elfClass)
  [u32 name, u32 s.shType, addr elfClass s.shFlags, addr elfClass 0, addr elfClass (BitVec.ofNat 64 offset),
   addr elfClass (BitVec.ofNat 64 s.data.length), u32 s.shLink, u32 s.shInfo, addr elfClass s.shAddralign].flatten
  (rawOf elfClass s offset name) := by
 refine (reads_u32 name).cons ((reads_u32 s.shType).cons ((reads_addr s.shFlags).cons ((reads_addr 0).cons ?_)))
 refine (reads_addr _).cons ((reads_addr _).cons ((reads_u32 s.shLink).cons ((reads_u32 s.shInfo).cons ?_)))
 exact (reads_addr s.shAddralign).cons (reads_pure _)

theorem length_sectionHeader : (sectionHeader elfClass s offset name).length = elfClass.shentsize := by
 cases elfClass with
 | elf32 => rfl
 | elf64 => rfl

def nullSection : Section :=
 ⟨[], 0, 0, 0, 0, 0, 0, []⟩

theorem nullHeader_eq : List.replicate elfClass.shentsize 0 = sectionHeader elfClass nullSection 0 0 := by
 cases elfClass with
 | elf32 => rfl
 | elf64 => rfl

/-! ## Table entries -/

theorem reads_symbol (name : BitVec 32) (info : BitVec 8) (shndx : BitVec 16) (value size : BitVec 64) :
  Reads (readSymbol elfClass) (symEntry elfClass name info shndx value size)
   ⟨name, elfClass.cut value, elfClass.cut size, info, shndx⟩ := by
 cases elfClass with
 | elf32 =>
  refine (reads_u32 name).cons ((reads_u32 (value.setWidth 32)).cons ((reads_u32 (size.setWidth 32)).cons ?_))
  exact (reads_u8 info).cons ((reads_u8 0).cons ((reads_u16 shndx).cons (reads_pure _)))
 | elf64 =>
  refine (reads_u32 name).cons ((reads_u8 info).cons ((reads_u8 0).cons ((reads_u16 shndx).cons ?_)))
  exact (reads_u64 value).cons ((reads_u64 size).cons (reads_pure _))

theorem length_symEntry (name : BitVec 32) (info : BitVec 8) (shndx : BitVec 16) (value size : BitVec 64) :
  (symEntry elfClass name info shndx value size).length = elfClass.symEntsize := by
 cases elfClass with
 | elf32 => simp only [symEntry, flatten_cons, flatten_nil, length_append, length_nil, u8, u16, u32, length_toLe]; rfl
 | elf64 => simp only [symEntry, flatten_cons, flatten_nil, length_append, length_nil, u8, u16, u32, u64, length_toLe]; rfl

/-- What is left of a relocation type in the info field. -/
def ElfClass.cutType (elfClass : ElfClass) (rType : BitVec 32) : BitVec 32 :=
 match elfClass with
 | elf32 => rType &&& 0xFF
 | elf64 => rType

/-- What is left of an addend in its field. -/
def ElfClass.cutAddend (elfClass : ElfClass) (addend : BitVec 64) : BitVec 64 :=
 match elfClass with
 | elf32 => (addend.setWidth 32).signExtend 64
 | elf64 => addend

/-- The width of the symbol index in the info field. -/
def ElfClass.symBits : ElfClass → Nat
 | elf32 => 24
 | elf64 => 32

theorem and_low_byte (v : BitVec 32) : v &&& 0xFF = (v.setWidth 8).setWidth 32 := by
 apply eq_of_toNat_eq
 have hmod := and_two_pow_sub_one_eq_mod v.toNat 8
 have hlt : v.toNat % 2 ^ 8 < 2 ^ 32 := by omega
 rw [toNat_and, toNat_setWidth, toNat_setWidth, mod_eq_of_lt hlt, ← hmod]
 rfl

/-- The two parts of a packed info field, the low one `n` bits wide. -/
theorem packed {w n : Nat} (high low : BitVec w) (hhigh : ∀ i, w ≤ i + n → high.getLsbD i = false)
  (hlow : ∀ i, n ≤ i → low.getLsbD i = false) :
  (high <<< n ||| low) >>> n = high ∧ ∀ i < n, (high <<< n ||| low).getLsbD i = low.getLsbD i := by
 constructor
 · apply eq_of_getLsbD_eq
   intro i hi
   rw [getLsbD_ushiftRight, getLsbD_or, getLsbD_shiftLeft, hlow (n + i) (by omega), Bool.or_false]
   by_cases hin : n + i < w
   · simp [hin]
   · rw [hhigh i (by omega)]
     simp [hin]
 · intro i hi
   rw [getLsbD_or, getLsbD_shiftLeft]
   simp [hi]

theorem reads_rela (reloc : ObjReloc) {sym : Nat} (h : sym < 2 ^ elfClass.symBits) :
  Reads (readRela elfClass) (relaEntry elfClass (BitVec.ofNat 32 sym) reloc)
   ⟨elfClass.cut reloc.offset, sym, elfClass.cutType reloc.rType, elfClass.cutAddend reloc.addend⟩ := by
 cases elfClass with
 | elf32 =>
  have hlt : sym < 2 ^ 24 := h
  have hbits := packed (BitVec.ofNat 32 sym) ((reloc.rType.setWidth 8).setWidth 32) (n := 8)
   (fun i hi => by
    rw [getLsbD_ofNat, testBit_lt_two_pow (hlt.trans_le (Nat.pow_le_pow_right (by decide) (by omega))),
     Bool.and_false])
   fun i hi => by
    rw [getLsbD_setWidth, getLsbD_of_ge _ _ hi, Bool.and_false]
  have hsym : (((BitVec.ofNat 32 sym <<< 8) ||| (reloc.rType &&& 0xFF)) >>> 8).toNat = sym := by
   rw [and_low_byte, hbits.1, toNat_ofNat, mod_eq_of_lt (by omega)]
  have htype : ((BitVec.ofNat 32 sym <<< 8) ||| (reloc.rType &&& 0xFF)) &&& 0xFF = reloc.rType &&& 0xFF := by
   rw [and_low_byte, and_low_byte]
   apply eq_of_getLsbD_eq
   intro i hi
   rw [getLsbD_setWidth, getLsbD_setWidth, getLsbD_setWidth]
   by_cases hin : i < 8
   · rw [hbits.2 i hin, getLsbD_setWidth, getLsbD_setWidth]
     simp [hin, hi]
   · simp [hin]
  have hread : Reads (readRela .elf32) (relaEntry .elf32 (BitVec.ofNat 32 sym) reloc)
    ⟨elf32.cut reloc.offset, (((BitVec.ofNat 32 sym <<< 8) ||| (reloc.rType &&& 0xFF)) >>> 8).toNat,
     ((BitVec.ofNat 32 sym <<< 8) ||| (reloc.rType &&& 0xFF)) &&& 0xFF, (reloc.addend.setWidth 32).signExtend 64⟩ :=
   (reads_addr reloc.offset).cons ((reads_u32 _).cons ((reads_u32 _).cons (reads_pure _)))
  rwa [hsym, htype] at hread
 | elf64 =>
  have hlt : sym < 2 ^ 32 := h
  have hbits := packed ((BitVec.ofNat 32 sym).setWidth 64) (reloc.rType.setWidth 64) (n := 32)
   (fun i hi => by
    rw [getLsbD_setWidth, getLsbD_of_ge _ _ (by omega), Bool.and_false])
   fun i hi => by
    rw [getLsbD_setWidth, getLsbD_of_ge _ _ hi, Bool.and_false]
  have hsym : ((((BitVec.ofNat 32 sym).setWidth 64 <<< 32) ||| reloc.rType.setWidth 64) >>> 32).toNat = sym := by
   rw [hbits.1, toNat_setWidth, toNat_ofNat]
   omega
  have htype : (((BitVec.ofNat 32 sym).setWidth 64 <<< 32) ||| reloc.rType.setWidth 64).setWidth 32 = reloc.rType := by
   apply eq_of_getLsbD_eq
   intro i hi
   rw [getLsbD_setWidth, hbits.2 i hi, getLsbD_setWidth]
   simp [hi, show i < 64 by omega]
  have hread : Reads (readRela .elf64) (relaEntry .elf64 (BitVec.ofNat 32 sym) reloc)
    ⟨elf64.cut reloc.offset, ((((BitVec.ofNat 32 sym).setWidth 64 <<< 32) ||| reloc.rType.setWidth 64) >>> 32).toNat,
     (((BitVec.ofNat 32 sym).setWidth 64 <<< 32) ||| reloc.rType.setWidth 64).setWidth 32, reloc.addend⟩ :=
   (reads_addr reloc.offset).cons ((reads_u64 _).cons ((reads_u64 _).cons (reads_pure _)))
  rwa [hsym, htype] at hread

theorem length_relaEntry (sym : BitVec 32) (reloc : ObjReloc) :
  (relaEntry elfClass sym reloc).length = elfClass.relaEntsize := by
 cases elfClass with
 | elf32 => simp only [relaEntry, flatten_cons, flatten_nil, length_append, length_nil, length_addr, u32, length_toLe]; rfl
 | elf64 => simp only [relaEntry, flatten_cons, flatten_nil, length_append, length_nil, length_addr, u64, length_toLe]; rfl

end Tir.Backend.Elf
