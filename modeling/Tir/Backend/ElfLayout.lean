import Tir.Backend.ElfFields

/-!
# Layout of an ELF file

The file keeps the header first, each section's bytes at its offset and the section headers one after the
other at the end (`fileBytes_spec`).
-/

open List Nat Option

namespace Tir.Backend.Elf

open Bytes

theorem le_alignUp {pos align : Nat} (h : 0 < align) : pos ≤ alignUp pos align := by
 rw [alignUp]
 have hdiv := div_add_mod (pos + align - 1) align
 have hmod := mod_lt (pos + align - 1) h
 rw [mul_comm] at hdiv
 omega

section

variable {out : List Byte} {length : Nat} (h : out.length ≤ length)

include h

theorem resize_eq :
  resize out length = out ++ replicate (length - out.length) 0 := by
 rw [resize, take_of_length_le h]

theorem length_resize : (resize out length).length = length := by
 rw [resize_eq h, length_append, length_replicate]
 omega

end

/-! ## Section bodies -/

section Bodies

variable {sections : List Section} {pos : Nat}

theorem layout_cons (s : Section) (rest : List Section) (pos : Nat) :
  layout pos (s :: rest) = (alignUp pos (max s.shAddralign.toNat 1) ::
   (layout (alignUp pos (max s.shAddralign.toNat 1) + s.fileSize) rest).1,
   (layout (alignUp pos (max s.shAddralign.toNat 1) + s.fileSize) rest).2) :=
 rfl

/-- Writing the bodies from a position on adds to what is there, up to the last position, and puts the bytes of
each section at its offset. -/
theorem writeBodies_spec (sections : List Section) {out : List Byte} (hout : out.length ≤ pos) :
  (layout pos sections).1.length = sections.length ∧ pos ≤ (layout pos sections).2 ∧
   (∀ offset ∈ (layout pos sections).1, offset ≤ (layout pos sections).2) ∧
   (∃ more, writeBodies out (sections.zip (layout pos sections).1) = out ++ more) ∧
   (writeBodies out (sections.zip (layout pos sections).1)).length ≤ (layout pos sections).2 ∧
   ∀ (k : Nat) (s : Section) (offset : Nat), sections[k]? = some s → (layout pos sections).1[k]? = some offset → s.shType ≠ SHT_NOBITS →
    StandsAt (writeBodies out (sections.zip (layout pos sections).1)) offset s.data := by
 induction sections generalizing out pos with
 | nil => exact ⟨rfl, le_rfl, nofun, ⟨[], (append_nil _).symm⟩, hout, nofun⟩
 | cons first rest ih =>
  rw [layout_cons]
  have hpos : pos ≤ alignUp pos (max first.shAddralign.toNat 1) := le_alignUp (by omega)
  generalize alignUp pos (max first.shAddralign.toNat 1) = start at hpos
  -- the section's own body
  have hone : ∃ out', writeBodies out ((first :: rest).zip (start :: (layout (start + first.fileSize) rest).1)) =
    writeBodies out' (rest.zip (layout (start + first.fileSize) rest).1) ∧ (∃ more, out' = out ++ more) ∧
    out'.length ≤ start + first.fileSize ∧ (first.shType ≠ SHT_NOBITS → StandsAt out' start first.data) := by
   have hlen := length_resize (hout.trans hpos)
   by_cases hbits : first.shType = SHT_NOBITS
   · refine ⟨resize out start, ?_, ⟨_, resize_eq (hout.trans hpos)⟩, ?_, fun hne => absurd hbits hne⟩
     · rw [zip_cons_cons, writeBodies, foldl_cons]
       rw [if_pos hbits]
       rfl
     · omega
   · refine ⟨resize out start ++ first.data, ?_, ?_, ?_, fun _ => ?_⟩
     · rw [zip_cons_cons, writeBodies, foldl_cons]
       dsimp only
       rw [if_neg hbits]
       rfl
     · rw [resize_eq (hout.trans hpos), append_assoc]
       exact ⟨_, rfl⟩
     · rw [length_append, hlen, Section.fileSize, if_neg hbits]
     · have hstands := standsAt_length (resize out start) first.data
       rwa [hlen] at hstands
  obtain ⟨out', hwrite, ⟨more, hmore⟩, hlen, hfst⟩ := hone
  obtain ⟨hcnt, hlast, hoffsets, ⟨more', hmore'⟩, hbound, hstands⟩ := ih hlen
  rw [hwrite]
  refine ⟨congrArg (· + 1) hcnt, by omega, ?_, ⟨more ++ more', ?_⟩, hbound, fun k s offset hk hoff hbits => ?_⟩
  · intro offset hoff
    rcases mem_cons.1 hoff with rfl | hrest
    · omega
    · exact hoffsets offset hrest
  · rw [hmore', hmore, append_assoc]
  · cases k with
    | zero =>
     cases hk
     cases hoff
     rw [hmore']
     exact (hfst hbits).append more'
    | succ k => exact hstands k s offset hk hoff hbits

end Bodies

/-! ## The file -/

/-- What stands where in a file of sections: the header, the bytes of each section at its offset, and the
headers from `shoff` on. -/
structure LaidOut (fmt : ObjectFormatInfo) (sections : List Section) (names : List (BitVec 32)) (shstrtabIndex : Nat)
  (bytes : List Byte) (offsets : List Nat) (shoff : Nat) : Prop where
 header : ∃ more, bytes = ident fmt.elfClass ++ (elfHeader fmt shoff (sections.length + 1) shstrtabIndex ++ more)
 count : offsets.length = sections.length
 inside : ∀ offset ∈ offsets, offset ≤ shoff
 body : ∀ (k : Nat) (s : Section) (offset : Nat), sections[k]? = some s → offsets[k]? = some offset → s.shType ≠ SHT_NOBITS →
  StandsAt bytes offset s.data
 null : StandsAt bytes shoff (sectionHeader fmt.elfClass nullSection 0 0)
 table : ∀ (k : Nat) (s : Section) (offset : Nat) (name : BitVec 32), sections[k]? = some s → offsets[k]? = some offset → names[k]? = some name →
  StandsAt bytes (shoff + (k + 1) * fmt.elfClass.shentsize) (sectionHeader fmt.elfClass s offset name)
 length : names.length = sections.length → bytes.length = shoff + (sections.length + 1) * fmt.elfClass.shentsize

/-- **What a file holds.** -/
theorem fileBytes_spec (fmt : ObjectFormatInfo) (sections : List Section) (names : List (BitVec 32)) (shstrtabIndex : Nat) :
  ∃ offsets shoff, LaidOut fmt sections names shstrtabIndex (fileBytes fmt sections names shstrtabIndex) offsets shoff := by
 have hbodies := writeBodies_spec sections
  (le_of_eq (length_elfHeader fmt (alignUp (layout fmt.elfClass.ehsize sections).2 8) (sections.length + 1) shstrtabIndex))
 have hshoff : (layout fmt.elfClass.ehsize sections).2 ≤ alignUp (layout fmt.elfClass.ehsize sections).2 8 :=
  le_alignUp (by decide)
 rw [fileBytes]
 dsimp only
 generalize (layout fmt.elfClass.ehsize sections).1 = offsets at hbodies
 generalize alignUp (layout fmt.elfClass.ehsize sections).2 8 = shoff at hbodies hshoff
 obtain ⟨hcnt, -, hoffsets, ⟨more, hmore⟩, hbound, hstands⟩ := hbodies
 have hpad := hbound.trans hshoff
 have hlen := length_resize hpad
 have hent : ∀ entry ∈ sections.zip (offsets.zip names),
   (sectionHeader fmt.elfClass entry.1 entry.2.1 entry.2.2).length = fmt.elfClass.shentsize :=
  fun entry _ => length_sectionHeader
 have hnull : (sectionHeader fmt.elfClass nullSection 0 0).length = fmt.elfClass.shentsize := length_sectionHeader
 rw [nullHeader_eq]
 refine ⟨offsets, shoff, ⟨?_, hcnt, fun offset hoff => (hoffsets offset hoff).trans hshoff, ?_, ?_, ?_, ?_⟩⟩
 · rw [resize_eq hpad, hmore]
   simp only [append_assoc]
   exact ⟨_, rfl⟩
 · intro k s offset hk hoff hbits
   apply StandsAt.append
   rw [resize_eq hpad]
   exact (hstands k s offset hk hoff hbits).append _
 · have hshift := (standsAt_zero (sectionHeader fmt.elfClass nullSection 0 0) ((sections.zip (offsets.zip names)).flatMap
    fun entry => sectionHeader fmt.elfClass entry.1 entry.2.1 entry.2.2)).shift
    (resize (writeBodies (ident fmt.elfClass ++ elfHeader fmt shoff (sections.length + 1) shstrtabIndex) (sections.zip offsets)) shoff)
   rwa [hlen] at hshift
 · intro k s offset name hk hoff hname
   have hzip : (sections.zip (offsets.zip names))[k]? = some (s, offset, name) := by
    rw [getElem?_zip_eq_some, getElem?_zip_eq_some]
    exact ⟨hk, hoff, hname⟩
   have hshift := ((standsAt_flatMap hent hzip).shift (sectionHeader fmt.elfClass nullSection 0 0)).shift
    (resize (writeBodies (ident fmt.elfClass ++ elfHeader fmt shoff (sections.length + 1) shstrtabIndex) (sections.zip offsets)) shoff)
   rwa [hlen, hnull, add_comm fmt.elfClass.shentsize, ← succ_mul] at hshift
 · intro hnames
   rw [length_append, hlen, length_append, hnull, length_flatMap hent, length_zip, length_zip,
    hcnt, hnames, min_self, min_self, succ_mul, add_comm (sections.length * _)]

end Tir.Backend.Elf
