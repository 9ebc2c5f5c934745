import Tir.Backend.Elf

/-!
# Which files the parser survives

`parse_elf` slices string tables at offsets that the file gives, and adds up the positions of section headers, without a check.
`parseElfChecked` is the parser in a build whose additions panic on overflow. It panics exactly where it reaches such a position, or
a name past its table (`total_iff`).
-/

open List Option

namespace Tir.Backend.Elf

open Bytes

/-! ## The parser with checked additions -/

def Header.headerAt (header : Header) (i : Nat) : Nat :=
 header.shoff.toNat + i * header.shentsize.toNat

def readHeaderAt (elfClass : ElfClass) (header : Header) (bytes : List Byte) (i : Nat) : Parse RawSection :=
 if header.headerAt i < 2 ^ 64 then (readSectionHeader elfClass).run' (bytes.drop (header.headerAt i)) else .error .panic

def nameTable (bytes : List Byte) (header : Header) (raw : List RawSection) : Parse (List Byte) :=
 ((raw[header.shstrndx.toNat]?).map (sectionData bytes)).getD (.ok [])

def parseElfChecked (bytes : List Byte) : Parse ElfFile := do
 let elfClass ← readIdent bytes
 let header ← (readHeader elfClass).run' (bytes.drop 16)
 let raw ← (List.range header.shnum.toNat).mapM (readHeaderAt elfClass header bytes)
 let shstrtab ← nameTable bytes header raw
 let sections ← raw.mapM (elfSection bytes shstrtab)
 let symbols ← elfSymbols elfClass sections
 let relocations ← sections.mapM (elfRelas elfClass sections (symbols.map ElfSymbol.name))
 pure ⟨elfClass, header.etype, header.machine, header.flags, sections, symbols.drop 1, relocations.flatten⟩

/-! ## Panics -/

section Panics

variable {α β : Type}

theorem bind_eq_panic_iff {x : Parse α} {k : α → Parse β} :
  (x >>= k) = .error .panic ↔ x = .error .panic ∨ ∃ a, x = .ok a ∧ k a = .error .panic := by
 cases x with
 | error e => simp [Bind.bind, Except.bind]
 | ok a => simp [Bind.bind, Except.bind]

theorem bind_eq_ok {x : Parse α} {k : α → Parse β} {b : β} : (x >>= k) = .ok b ↔ ∃ a, x = .ok a ∧ k a = .ok b := by
 cases x with
 | error e => simp [Bind.bind, Except.bind]
 | ok a => simp [Bind.bind, Except.bind]

/-- Some element has the property, and all elements before it let the loop go on. -/
def Reaches (l : List α) (goes p : α → Prop) : Prop :=
 ∃ before a after, l = before ++ a :: after ∧ (∀ b ∈ before, goes b) ∧ p a

theorem reaches_cons {a : α} {l : List α} {goes p : α → Prop} : Reaches (a :: l) goes p ↔ p a ∨ goes a ∧ Reaches l goes p := by
 constructor
 · rintro ⟨before, b, after, heq, hgoes, hp⟩
   cases before with
   | nil =>
    obtain ⟨rfl, -⟩ := cons.inj heq
    exact .inl hp
   | cons c before =>
    cases heq
    exact .inr ⟨hgoes a (.head _), before, b, after, rfl, fun b hb => hgoes b (.tail _ hb), hp⟩
 · rintro (hp | ⟨hgoes, before, b, after, rfl, hall, hp⟩)
   · exact ⟨[], a, l, rfl, nofun, hp⟩
   · exact ⟨a :: before, b, after, rfl, forall_mem_cons.2 ⟨hgoes, hall⟩, hp⟩

theorem mapM_eq_panic_iff {f : α → Parse β} {l : List α} :
  l.mapM f = .error .panic ↔ Reaches l (fun a => ∃ b, f a = .ok b) (fun a => f a = .error .panic) := by
 induction l with
 | nil =>
  refine ⟨nofun, ?_⟩
  rintro ⟨before, a, after, heq, -⟩
  exact absurd heq (by simp)
 | cons a l ih =>
  rw [mapM_cons, bind_eq_panic_iff, reaches_cons, ← ih]
  refine or_congr_right ⟨?_, ?_⟩
  · rintro ⟨b, hb, hrest⟩
    obtain hrest | ⟨_, -, hpure⟩ := bind_eq_panic_iff.1 hrest
    · exact ⟨⟨b, hb⟩, hrest⟩
    · nomatch hpure
  · rintro ⟨⟨b, hb⟩, hrest⟩
    exact ⟨b, hb, bind_eq_panic_iff.2 (.inl hrest)⟩

theorem mapM_eq_ok {f : α → Parse β} {l : List α} {bs : List β} (h : l.mapM f = .ok bs) :
  bs.length = l.length ∧ ∀ (i : Nat) (b : β), bs[i]? = some b → ∃ a, l[i]? = some a ∧ f a = .ok b := by
 induction l generalizing bs with
 | nil =>
  cases h
  exact ⟨rfl, nofun⟩
 | cons a l ih =>
  rw [mapM_cons] at h
  obtain ⟨first, hfst, h⟩ := bind_eq_ok.1 h
  obtain ⟨rest, hrest, h⟩ := bind_eq_ok.1 h
  cases h
  obtain ⟨hlen, hall⟩ := ih hrest
  refine ⟨congrArg (· + 1) hlen, fun i b hb => ?_⟩
  cases i with
  | zero => exact ⟨a, rfl, hfst.trans (congrArg _ (some_inj.1 hb))⟩
  | succ i => exact hall i b hb

/-- A loop whose body checks its element and computes from it. -/
theorem mapM_eq_ok_iff {f : α → Parse β} {P : α → Prop} {g : α → β} (hf : ∀ a b, f a = .ok b ↔ P a ∧ b = g a) {l : List α}
  {bs : List β} : l.mapM f = .ok bs ↔ (∀ a ∈ l, P a) ∧ bs = l.map g := by
 induction l generalizing bs with
 | nil => exact ⟨fun h => ⟨nofun, (Except.ok.inj h).symm⟩, fun h => h.2 ▸ rfl⟩
 | cons a l ih =>
  rw [mapM_cons, forall_mem_cons, map_cons]
  constructor
  · intro h
    obtain ⟨first, hfst, h⟩ := bind_eq_ok.1 h
    obtain ⟨rest, hrest, h⟩ := bind_eq_ok.1 h
    cases h
    obtain ⟨ha, rfl⟩ := (hf a first).1 hfst
    obtain ⟨hall, rfl⟩ := ih.1 hrest
    exact ⟨⟨ha, hall⟩, rfl⟩
  · rintro ⟨⟨ha, hall⟩, rfl⟩
    rw [(hf a _).2 ⟨ha, rfl⟩, ih.2 ⟨hall, rfl⟩]
    rfl

def Quiet (reader : Reader Failure α) : Prop :=
 ∀ bytes, reader bytes ≠ .error .panic

theorem quiet_bind {reader : Reader Failure α} {next : α → Reader Failure β} (h : Quiet reader) (h' : ∀ a, Quiet (next a)) :
  Quiet (reader >>= next) := by
 intro bytes hpanic
 obtain hreader | ⟨⟨a, rest⟩, -, hnext⟩ := bind_eq_panic_iff.1 hpanic
 · exact h bytes hreader
 · exact h' a rest hnext

theorem quiet_pure (a : α) : Quiet (pure a) :=
 nofun

theorem quiet_number (w n : Nat) (what : String) : Quiet (number w n (truncated what)) := by
 refine quiet_bind (fun bytes => ?_) fun _ => quiet_pure _
 rw [Bytes.take]
 split <;> rintro ⟨⟩

theorem quiet_addr (elfClass : ElfClass) (what : String) : Quiet (readAddr elfClass what) := by
 cases elfClass with
 | elf32 =>
  intro bytes hpanic
  rw [readAddr, map_eq_pure_bind] at hpanic
  exact quiet_bind (quiet_number 32 4 what) (fun _ => quiet_pure _) bytes hpanic
 | elf64 => exact quiet_number 64 8 what

theorem Quiet.run' {reader : Reader Failure α} (h : Quiet reader) (bytes : List Byte) : reader.run' bytes ≠ .error .panic := by
 have hrun : reader.run' bytes = (reader bytes >>= fun pair => pure pair.1) := rfl
 rw [hrun]
 intro hpanic
 obtain hreader | ⟨_, -, hpure⟩ := bind_eq_panic_iff.1 hpanic
 · exact h bytes hreader
 · nomatch hpure

end Panics

section Quiet

variable (elfClass : ElfClass)

theorem quiet_header : Quiet (readHeader elfClass) := by
 rw [readHeader]
 repeat' first | exact quiet_pure _ | exact quiet_number _ _ _ | exact quiet_addr _ _ | refine quiet_bind ?_ fun _ => ?_

theorem quiet_sectionHeader : Quiet (readSectionHeader elfClass) := by
 rw [readSectionHeader]
 repeat' first | exact quiet_pure _ | exact quiet_number _ _ _ | exact quiet_addr _ _ | refine quiet_bind ?_ fun _ => ?_

theorem quiet_symbol : Quiet (readSymbol elfClass) := by
 rw [readSymbol]
 cases elfClass <;>
  repeat' first | exact quiet_pure _ | exact quiet_number _ _ _ | refine quiet_bind ?_ fun _ => ?_

theorem quiet_rela : Quiet (readRela elfClass) := by
 rw [readRela]
 cases elfClass <;>
  repeat' first | exact quiet_pure _ | exact quiet_number _ _ _ | exact quiet_addr _ _ | refine quiet_bind ?_ fun _ => ?_

end Quiet

theorem readIdent_ne_panic (bytes : List Byte) : readIdent bytes ≠ .error .panic := by
 rw [readIdent]
 split
 · nofun
 · intro h
   obtain hclass | ⟨_, -, hencoding⟩ := bind_eq_panic_iff.1 h
   · revert hclass
     split <;> nofun
   · revert hencoding
     split <;> nofun

/-! ## Section contents -/

section Contents

variable (bytes : List Byte) (s : RawSection)

/-- The bytes that a section header names. -/
def contents : List Byte :=
 if s.shType = SHT_NOBITS then [] else (bytes.drop s.offset.toNat).take s.size.toNat

def Inside : Prop :=
 s.shType = SHT_NOBITS ∨ s.offset.toNat + s.size.toNat ≤ bytes.length

theorem sectionData_ne_panic : sectionData bytes s ≠ .error .panic := by
 rw [sectionData]
 split
 · nofun
 · split <;> nofun

theorem sectionData_eq_ok_iff {data : List Byte} : sectionData bytes s = .ok data ↔ Inside bytes s ∧ data = contents bytes s := by
 rw [sectionData, Inside, contents]
 split
 next h => simp [h, eq_comm]
 next h =>
  split
  next hle => simp [h, hle, eq_comm]
  next hgt => simp [h, hgt]

theorem nameTable_ne_panic (header : Header) (raw : List RawSection) : nameTable bytes header raw ≠ .error .panic := by
 rw [nameTable]
 cases raw[header.shstrndx.toNat]? with
 | none => nofun
 | some s => exact sectionData_ne_panic bytes s

variable (table : List Byte)

/-- The name lies in the table and the contents in the file. -/
def Resolves : Prop :=
 s.nameOff.toNat ≤ table.length ∧ Inside bytes s

def resolved : ElfSection :=
 ⟨(table.drop s.nameOff.toNat).takeWhile (· ≠ 0), s.shType, s.flags, s.size, s.addralign, s.link, s.info, contents bytes s⟩

variable {table}

theorem strAt_eq_panic_iff {offset : Nat} : strAt table offset = .error .panic ↔ table.length < offset := by
 rw [strAt]
 split
 next hle => simp [hle]
 next hgt => simpa using hgt

theorem elfSection_eq_panic_iff : elfSection bytes table s = .error .panic ↔ table.length < s.nameOff.toNat := by
 rw [elfSection, bind_eq_panic_iff, strAt_eq_panic_iff]
 refine or_iff_left ?_
 rintro ⟨name, -, h⟩
 obtain hdata | ⟨_, -, hpure⟩ := bind_eq_panic_iff.1 h
 · exact sectionData_ne_panic bytes s hdata
 · nomatch hpure

theorem elfSection_eq_ok_iff (x : ElfSection) : elfSection bytes table s = .ok x ↔ Resolves bytes s table ∧ x = resolved bytes s table := by
 rw [elfSection, strAt, Resolves, resolved]
 split
 next hle =>
  rw [ok_bind, bind_eq_ok]
  simp only [sectionData_eq_ok_iff, hle, true_and, and_assoc]
  constructor
  · rintro ⟨_, hinside, rfl, hpure⟩
    exact ⟨hinside, (Except.ok.inj hpure).symm⟩
  · rintro ⟨hinside, rfl⟩
    exact ⟨_, hinside, rfl, rfl⟩
 next hgt => exact ⟨nofun, fun h => absurd h.1.1 hgt⟩

end Contents

/-! ## Symbols -/

section Symbols

variable (elfClass : ElfClass) (bytes : List Byte) (raw : List RawSection)

def symbolAt (data : List Byte) (i : Nat) : Parse RawSymbol :=
 (readSymbol elfClass).run' (data.drop (i * elfClass.symEntsize))

/-- The string table that a symbol table links to. -/
def linked (symtab : RawSection) : List Byte :=
 ((raw[symtab.link.toNat]?).map (contents bytes)).getD []

/-- A symbol is reached whose name starts past the string table. -/
def StraySymbol (symtab : RawSection) : Prop :=
 Reaches (List.range ((contents bytes symtab).length / elfClass.symEntsize))
  (fun i => ∃ sym, symbolAt elfClass (contents bytes symtab) i = .ok sym ∧ sym.nameOff.toNat ≤ (linked bytes raw symtab).length)
  (fun i => ∃ sym, symbolAt elfClass (contents bytes symtab) i = .ok sym ∧ (linked bytes raw symtab).length < sym.nameOff.toNat)

variable {elfClass bytes raw} {table : List Byte}

section Entry

variable {sections : List ElfSection} {strtab data : List Byte} {i : Nat}

theorem elfSymbol_eq_panic_iff : elfSymbol elfClass sections strtab data i = .error .panic ↔
  ∃ sym, symbolAt elfClass data i = .ok sym ∧ strtab.length < sym.nameOff.toNat := by
 rw [elfSymbol, bind_eq_panic_iff, or_iff_right ((quiet_symbol elfClass).run' _)]
 refine exists_congr fun sym => and_congr_right fun _ => ?_
 rw [bind_eq_panic_iff, strAt_eq_panic_iff]
 exact or_iff_left (by rintro ⟨_, -, hpure⟩; nomatch hpure)

theorem elfSymbol_eq_ok_iff : (∃ x, elfSymbol elfClass sections strtab data i = .ok x) ↔
  ∃ sym, symbolAt elfClass data i = .ok sym ∧ sym.nameOff.toNat ≤ strtab.length := by
 constructor
 · rintro ⟨x, h⟩
   obtain ⟨sym, hsym, h⟩ := bind_eq_ok.1 h
   obtain ⟨name, hname, -⟩ := bind_eq_ok.1 h
   refine ⟨sym, hsym, not_lt.1 fun hlt => ?_⟩
   rw [strAt_eq_panic_iff.2 hlt] at hname
   nomatch hname
 · rintro ⟨sym, hsym, hle⟩
   rw [symbolAt] at hsym
   rw [elfSymbol, hsym, ok_bind, strAt, if_pos hle]
   exact ⟨_, rfl⟩

end Entry

theorem elfSymbols_eq_panic_iff : elfSymbols elfClass (raw.map fun s => resolved bytes s table) = .error .panic ↔
  ∃ symtab, raw.find? (fun s => s.shType = SHT_SYMTAB) = some symtab ∧ StraySymbol elfClass bytes raw symtab := by
 have hfind : (raw.map fun s => resolved bytes s table).find? (fun s => s.shType = SHT_SYMTAB) =
   (raw.find? fun s => s.shType = SHT_SYMTAB).map fun s => resolved bytes s table := find?_map
 rw [elfSymbols, hfind]
 cases raw.find? fun s => s.shType = SHT_SYMTAB with
 | none => simp
 | some symtab =>
  have hlinked : (((raw.map fun s => resolved bytes s table)[symtab.link.toNat]?).map ElfSection.data).getD [] =
    linked bytes raw symtab := by
   rw [getElem?_map, Option.map_map]
   rfl
  simp only [map_some, some.injEq, exists_eq_left']
  dsimp only [resolved] at hlinked ⊢
  rw [hlinked, mapM_eq_panic_iff, StraySymbol]
  simp [elfSymbol_eq_panic_iff, elfSymbol_eq_ok_iff]

theorem elfRelas_ne_panic (sections : List ElfSection) (names : List Name) (s : ElfSection) :
  elfRelas elfClass sections names s ≠ .error .panic := by
 rw [elfRelas]
 split
 · nofun
 · rw [Ne, mapM_eq_panic_iff]
   rintro ⟨_, i, _, -, -, h⟩
   obtain hread | ⟨_, -, hpure⟩ := bind_eq_panic_iff.1 h
   · exact (quiet_rela elfClass).run' _ hread
   · nomatch hpure

end Symbols

/-! ## Totality -/

variable (bytes : List Byte)

/-- The parser reaches a section header past the last address, the name of a section past the section names, or the name of a symbol
past its string table. -/
inductive Strays : Prop
 | header {elfClass : ElfClass} {header : Header} (hclass : readIdent bytes = .ok elfClass)
   (hheader : (readHeader elfClass).run' (bytes.drop 16) = .ok header)
   (h : Reaches (List.range header.shnum.toNat) (fun i => ∃ s, readHeaderAt elfClass header bytes i = .ok s)
    fun i => 2 ^ 64 ≤ header.headerAt i)
 | sectionName {elfClass : ElfClass} {header : Header} {raw : List RawSection} {table : List Byte}
   (hclass : readIdent bytes = .ok elfClass) (hheader : (readHeader elfClass).run' (bytes.drop 16) = .ok header)
   (hraw : (List.range header.shnum.toNat).mapM (readHeaderAt elfClass header bytes) = .ok raw)
   (htable : nameTable bytes header raw = .ok table)
   (h : Reaches raw (fun s => Resolves bytes s table) fun s => table.length < s.nameOff.toNat)
 | symbolName {elfClass : ElfClass} {header : Header} {raw : List RawSection} {table : List Byte} {symtab : RawSection}
   (hclass : readIdent bytes = .ok elfClass) (hheader : (readHeader elfClass).run' (bytes.drop 16) = .ok header)
   (hraw : (List.range header.shnum.toNat).mapM (readHeaderAt elfClass header bytes) = .ok raw)
   (htable : nameTable bytes header raw = .ok table) (hall : ∀ s ∈ raw, Resolves bytes s table)
   (hsymtab : raw.find? (fun s => s.shType = SHT_SYMTAB) = some symtab) (h : StraySymbol elfClass bytes raw symtab)

/-- Each section's contents are the file's bytes at the offset and of the size that its header has. -/
def Slices (file : ElfFile) : Prop :=
 ∃ header, (readHeader file.elfClass).run' (bytes.drop 16) = .ok header ∧ file.sections.length = header.shnum.toNat ∧
  ∀ (i : Nat) (x : ElfSection), file.sections[i]? = some x → ∃ s, readHeaderAt file.elfClass header bytes i = .ok s ∧
   Inside bytes s ∧ x.data = contents bytes s

/-- The parser does not panic, and what it returns are slices. -/
def Total : Prop :=
 parseElfChecked bytes ≠ .error .panic ∧ ∀ file, parseElfChecked bytes = .ok file → Slices bytes file

variable {bytes}

theorem readHeaderAt_eq_panic_iff {elfClass : ElfClass} {header : Header} {i : Nat} :
  readHeaderAt elfClass header bytes i = .error .panic ↔ 2 ^ 64 ≤ header.headerAt i := by
 rw [readHeaderAt]
 split
 next hlt => exact iff_of_false ((quiet_sectionHeader elfClass).run' _) (not_le.2 hlt)
 next hge => exact iff_of_true rfl (not_lt.1 hge)

theorem sections_eq_ok_iff {raw : List RawSection} {table : List Byte} {sections : List ElfSection} :
  raw.mapM (elfSection bytes table) = .ok sections ↔
   (∀ s ∈ raw, Resolves bytes s table) ∧ sections = raw.map fun s => resolved bytes s table :=
 mapM_eq_ok_iff fun s x => elfSection_eq_ok_iff bytes s x

theorem sections_eq_panic_iff {raw : List RawSection} {table : List Byte} : raw.mapM (elfSection bytes table) = .error .panic ↔
  Reaches raw (fun s => Resolves bytes s table) fun s => table.length < s.nameOff.toNat := by
 rw [mapM_eq_panic_iff]
 simp [elfSection_eq_panic_iff, elfSection_eq_ok_iff]

theorem parseElfChecked_eq_panic_iff : parseElfChecked bytes = .error .panic ↔ Strays bytes := by
 constructor
 · intro h
   obtain h | ⟨elfClass, hclass, h⟩ := bind_eq_panic_iff.1 h
   · exact absurd h (readIdent_ne_panic bytes)
   obtain h | ⟨header, hheader, h⟩ := bind_eq_panic_iff.1 h
   · exact absurd h ((quiet_header elfClass).run' _)
   obtain h | ⟨raw, hraw, h⟩ := bind_eq_panic_iff.1 h
   · rw [mapM_eq_panic_iff] at h
     simp only [readHeaderAt_eq_panic_iff] at h
     exact .header hclass hheader h
   obtain h | ⟨table, htable, h⟩ := bind_eq_panic_iff.1 h
   · exact absurd h (nameTable_ne_panic bytes header raw)
   obtain h | ⟨sections, hsecs, h⟩ := bind_eq_panic_iff.1 h
   · exact .sectionName hclass hheader hraw htable (sections_eq_panic_iff.1 h)
   obtain ⟨hall, rfl⟩ := sections_eq_ok_iff.1 hsecs
   obtain h | ⟨symbols, -, h⟩ := bind_eq_panic_iff.1 h
   · obtain ⟨symtab, hsymtab, hstray⟩ := elfSymbols_eq_panic_iff.1 h
     exact .symbolName hclass hheader hraw htable hall hsymtab hstray
   obtain h | ⟨_, -, h⟩ := bind_eq_panic_iff.1 h
   · obtain ⟨_, s, _, -, -, hrelas⟩ := mapM_eq_panic_iff.1 h
     exact (elfRelas_ne_panic _ _ s hrelas).elim
   · nomatch h
 · rintro (⟨hclass, hheader, h⟩ | ⟨hclass, hheader, hraw, htable, h⟩ | ⟨hclass, hheader, hraw, htable, hall, hsymtab, h⟩)
   · rw [parseElfChecked, hclass, ok_bind, hheader, ok_bind]
     refine bind_eq_panic_iff.2 (.inl (mapM_eq_panic_iff.2 ?_))
     simpa only [readHeaderAt_eq_panic_iff] using h
   · rw [parseElfChecked, hclass, ok_bind, hheader, ok_bind, hraw, ok_bind, htable, ok_bind]
     exact bind_eq_panic_iff.2 (.inl (sections_eq_panic_iff.2 h))
   · rw [parseElfChecked, hclass, ok_bind, hheader, ok_bind, hraw, ok_bind, htable, ok_bind, sections_eq_ok_iff.2 ⟨hall, rfl⟩, ok_bind]
     exact bind_eq_panic_iff.2 (.inl (elfSymbols_eq_panic_iff.2 ⟨_, hsymtab, h⟩))

theorem slices_of_ok {file : ElfFile} (h : parseElfChecked bytes = .ok file) : Slices bytes file := by
 obtain ⟨elfClass, -, h⟩ := bind_eq_ok.1 h
 obtain ⟨header, hheader, h⟩ := bind_eq_ok.1 h
 obtain ⟨raw, hraw, h⟩ := bind_eq_ok.1 h
 obtain ⟨table, -, h⟩ := bind_eq_ok.1 h
 obtain ⟨sections, hsecs, h⟩ := bind_eq_ok.1 h
 obtain ⟨symbols, -, h⟩ := bind_eq_ok.1 h
 obtain ⟨relocations, -, h⟩ := bind_eq_ok.1 h
 cases h
 obtain ⟨hall, rfl⟩ := sections_eq_ok_iff.1 hsecs
 obtain ⟨hlen, hread⟩ := mapM_eq_ok hraw
 refine ⟨header, hheader, by rw [length_map, hlen, length_range], fun i x hx => ?_⟩
 rw [getElem?_map] at hx
 obtain ⟨s, hs, rfl⟩ := map_eq_some_iff.1 hx
 obtain ⟨j, hj, hat⟩ := hread i s hs
 rw [getElem?_range (by simpa using (List.getElem?_eq_some_iff.1 hj).1)] at hj
 obtain rfl := some_inj.1 hj
 exact ⟨s, hat, (hall s (mem_of_getElem? hs)).2, rfl⟩

/-- The parser is total on the files in which it strays nowhere. -/
theorem total_iff (bytes : List Byte) : Total bytes ↔ ¬Strays bytes := by
 rw [Total, Ne, parseElfChecked_eq_panic_iff, and_iff_left fun file => slices_of_ok]

/-- A file header whose one section header is the file header itself, without section names. -/
theorem not_total : ¬∀ bytes, Total bytes := by
 intro htotal
 exact (htotal (([0x7F, 0x45, 0x4C, 0x46, 1, 1] : List Byte) ++ replicate 42 0 ++ [1, 0, 1, 0])).1 rfl

end Tir.Backend.Elf
