import Tir.Backend.WriterGrowth

/-!
# The walk over a module

What the walk leaves of each definition of the module (`Laid`): a symbol at an aligned start with its layout after
it, a global at an aligned start with its differences pending. Later steps keep it (`Laid.mono`), so the whole
walk leaves it of every definition, one symbol of the object for each in their order (`walkBlock_spec`).
-/

open List Option Nat

namespace Tir.Backend.Writer

open Bytes Encodings

variable {ρ : Type}

/-! ## Definitions -/

/-- What defines a symbol of the object. -/
inductive Definition (ρ : Type) where
 | symbol (s : AsmSymbol ρ)
 | global (g : Global)

mutual

/-- The definitions of an operation of a module, in the order of the walk. -/
def Item.definitions : Item ρ → List (Definition ρ)
 | .global g => if g.isExternal then [] else [.global g]
 | .inSection _ body => definitionsOf body
 | .symbol s => [.symbol s]
 | .entry _ => []

def definitionsOf : List (Item ρ) → List (Definition ρ)
 | [] => []
 | item :: items => item.definitions ++ definitionsOf items

end

mutual

/-- Instructions and data stand in symbols. -/
def Item.Tidy : Item ρ → Prop
 | .global _ => True
 | .inSection _ body => TidyAll body
 | .symbol _ => True
 | .entry entry => entry = .skip

def TidyAll : List (Item ρ) → Prop
 | [] => True
 | item :: items => item.Tidy ∧ TidyAll items

end

def Definition.ids : Definition ρ → List Nat
 | .symbol s => s.blocks.map Block.id
 | .global _ => []

/-- The instructions of a definition are encoded as the table generator writes it. -/
def Definition.Tabled : Definition ρ → Prop
 | .symbol s => ∀ block ∈ s.blocks, ∀ entry ∈ block.ops, entry.Tabled
 | .global _ => True

/-- The operations of a symbol that starts at an offset, each where it stands. -/
def AsmSymbol.layout (s : AsmSymbol ρ) (start : Nat) : List (Nat × Entry ρ) :=
 blocksLayout s.assignment start s.blocks

/-- The blocks of a symbol that starts at an offset, each with its start. -/
def AsmSymbol.starts (s : AsmSymbol ρ) (start : Nat) : List (Block ρ × Nat) :=
 blocksFrom s.assignment start s.blocks

/-! ## What the walk leaves -/

/-- A symbol that is laid out in a section. -/
structure AsmSymbol.LaidIn (s : AsmSymbol ρ) (st : ObjectEmission ρ) (sym : ObjSymbol) (k : Nat) (sec : ObjSection) : Prop where
 name : asStringAttr s.name = some sym.name
 inSection : sym.inSection = some k
 found : st.obj.sections[k]? = some sec
 aligned : s.alignment ∣ sym.value
 align : s.alignment ≤ sec.align
 size : sym.size = blocksSize s.assignment s.blocks
 inside : sym.value + sym.size ≤ sec.data.length
 spans : layoutSpans s.assignment (s.layout sym.value) <:+: sec.insnSpans
 written : ∀ e ∈ s.layout sym.value, e.2.Written s.assignment
 fixups : ∀ e ∈ s.layout sym.value, ∀ f ∈ e.2.fixups k s.assignment e.1, f ∈ st.fixups
 starts : ∀ b ∈ s.starts sym.value, st.blockStarts.lookup b.1.id = some b.2

/-- A global that is laid out in a section. -/
structure Global.LaidIn (g : Global) (st : ObjectEmission ρ) (sym : ObjSymbol) (k : Nat) (sec : ObjSection) : Prop where
 name : g.symName = sym.name
 inSection : sym.inSection = some k
 found : st.obj.sections[k]? = some sec
 align : ∃ align, g.align = some align ∧ align ∣ sym.value ∧ align ≤ sec.align
 size : g.storage.map List.length = some sym.size
 inside : sym.value + sym.size ≤ sec.data.length
 differences : ∃ ds before after, g.symbolDifferences = some ds ∧
  (∀ d ∈ ds, d.width ≤ 8 ∧ d.offset + d.width ≤ sym.size) ∧
  st.symbolDifferences = before ++ (ds.map fun d => (k, d.shift sym.value)) ++ after ∧
  ∀ e ∈ after, e.1 = k → sym.value + sym.size ≤ e.2.offset

/-- A definition that is laid out as a symbol of the object. -/
def Laid (st : ObjectEmission ρ) (d : Definition ρ) (sym : ObjSymbol) : Prop :=
 match d with
 | .symbol s => ∃ k sec, s.LaidIn st sym k sec
 | .global g => ∃ k sec, g.LaidIn st sym k sec

/-- The relocations of the data words of a definition. -/
def DataReloc (fmt : ObjectFormatInfo) (k : Nat) (d : Definition ρ) (sym : ObjSymbol) (r : ObjReloc) : Prop :=
 sym.inSection = some k ∧ match d with
 | .symbol s => ∃ e ∈ s.layout sym.value, r ∈ e.2.relocs fmt e.1
 | .global g => ∃ reloc ∈ g.relocations, ∃ rType, fmt.absoluteReloc reloc.width = some rType ∧
   r = ⟨sym.value + reloc.offset, reloc.symbol, rType, reloc.addend⟩

def PendingOf (d : Definition ρ) (sym : ObjSymbol) (f : PendingFixup) : Prop :=
 match d with
 | .symbol s => sym.inSection = some f.inSection ∧ ∃ e ∈ s.layout sym.value, f ∈ e.2.fixups f.inSection s.assignment e.1
 | .global _ => False

open ObjectEmission

variable {st st' st'' : ObjectEmission ρ} {fmt : ObjectFormatInfo} {k : Nat}

variable {sym : ObjSymbol} {align : Nat} {starts : List (Nat × Nat)}

theorem Laid.mono {ids : List Nat} {d : Definition ρ} (h : Laid st d sym) (hgrows : Grows ids st st')
  (hids : ∀ b ∈ d.ids, b ∉ ids) : Laid st' d sym := by
 cases d with
 | symbol s =>
  obtain ⟨k, sec, h⟩ := h
  obtain ⟨sec', hfound, halign, hlen, hspans⟩ := hgrows.sections k sec h.found
  refine ⟨k, sec', { h with
   found := hfound
   align := h.align.trans halign
   inside := h.inside.trans hlen
   spans := h.spans.trans hspans.isInfix
   fixups := fun e he f hf => hgrows.fixups f (h.fixups e he f hf)
   starts := fun b hb => ?_ }⟩
  have hmem : b.1.id ∈ Definition.ids (.symbol s) := List.mem_map_of_mem (mem_blocksFrom hb)
  rw [hgrows.starts _ (hids _ hmem)]
  exact h.starts b hb
 | global g =>
  obtain ⟨k, sec, h⟩ := h
  obtain ⟨sec', hfound, halign, hlen, -⟩ := hgrows.sections k sec h.found
  obtain ⟨align, hsome, hdvd, hle⟩ := h.align
  obtain ⟨ds, before, after, hds, hin, hsplit, hafter⟩ := h.differences
  obtain ⟨more, hmore, hlate⟩ := hgrows.differences
  refine ⟨k, sec', { h with
   found := hfound
   align := ⟨align, hsome, hdvd, hle.trans halign⟩
   inside := h.inside.trans hlen
   differences := ⟨ds, before, after ++ more, hds, hin, by rw [hmore, hsplit, append_assoc], fun e he hk => ?_⟩ }⟩
  rcases mem_append.1 he with he | he
  · exact hafter e he hk
  · have hsize : st.obj.size k = sec.data.length := by rw [ObjectFile.size, h.found]
    have hstart := hlate e he
    rw [hk, hsize] at hstart
    exact h.inside.trans hstart

/-- What a part of the walk does: the definitions it passes are laid out, and what it leaves pending is theirs. -/
structure Walked (fmt : ObjectFormatInfo) (st st' : ObjectEmission ρ) (defs : List (Definition ρ)) (syms : List ObjSymbol) : Prop where
 grows : Grows (defs.flatMap Definition.ids) st st'
 sound : st'.Sound
 symbols : st'.obj.symbols = st.obj.symbols ++ syms
 laid : Forall₂ (Laid st') defs syms
 relocs : ∀ k, ∀ r ∈ st'.obj.relocs k, r ∈ st.obj.relocs k ∨ ∃ p ∈ defs.zip syms, DataReloc fmt k p.1 p.2 r
 fixups : ∀ f ∈ st'.fixups, f ∈ st.fixups ∨ ∃ p ∈ defs.zip syms, PendingOf p.1 p.2 f

theorem Walked.append {defs defs' : List (Definition ρ)} {syms syms' : List ObjSymbol} (h : Walked fmt st st' defs syms)
  (h' : Walked fmt st' st'' defs' syms')
  (hapart : ∀ d ∈ defs, ∀ b ∈ d.ids, b ∉ defs'.flatMap Definition.ids) : Walked fmt st st'' (defs ++ defs') (syms ++ syms') := by
 have hzip : (defs ++ defs').zip (syms ++ syms') = defs.zip syms ++ defs'.zip syms' := zip_append h.laid.length_eq
 refine ⟨?_, h'.sound, by rw [h'.symbols, h.symbols, append_assoc], ?_, fun k r hr => ?_, fun f hf => ?_⟩
 · rw [flatMap_append]
   exact h.grows.trans h'.grows
 · refine rel_append ?_ h'.laid
   have hlaid := h.laid
   rw [forall₂_iff_zip] at hlaid ⊢
   exact ⟨hlaid.1, fun hp => (hlaid.2 hp).mono h'.grows (hapart _ (of_mem_zip hp).1)⟩
 · rw [hzip]
   rcases h'.relocs k r hr with hr | ⟨p, hp, hof⟩
   · rcases h.relocs k r hr with hr | ⟨p, hp, hof⟩
     · exact .inl hr
     · exact .inr ⟨p, mem_append_left _ hp, hof⟩
   · exact .inr ⟨p, mem_append_right _ hp, hof⟩
 · rw [hzip]
   rcases h'.fixups f hf with hf | ⟨p, hp, hof⟩
   · rcases h.fixups f hf with hf | ⟨p, hp, hof⟩
     · exact .inl hf
     · exact .inr ⟨p, mem_append_left _ hp, hof⟩
   · exact .inr ⟨p, mem_append_right _ hp, hof⟩

/-! ## Sections -/

/-- An emission that differs in what is current, or has opened a section. -/
structure Opens (st st' : ObjectEmission ρ) : Prop where
 sections : st'.obj.sections = st.obj.sections ∨ ∃ name, st'.obj.sections = st.obj.sections ++ [newSection name]
 symbols : st'.obj.symbols = st.obj.symbols
 fixups : st'.fixups = st.fixups
 differences : st'.symbolDifferences = st.symbolDifferences
 starts : st'.blockStarts = st.blockStarts

namespace Opens

variable (h : Opens st st')

include h

theorem getElem_old (k : Nat) : st'.obj.sections[k]? = st.obj.sections[k]? ∨
  st.obj.sections[k]? = none ∧ ∃ name, st'.obj.sections[k]? = some (newSection name) := by
 rcases h.sections with hsame | ⟨name, hnew⟩
 · exact .inl (by rw [hsame])
 grind

theorem data_eq (k : Nat) : st'.obj.data k = st.obj.data k := by
 rw [ObjectFile.data, ObjectFile.data]
 rcases h.getElem_old k with hsame | ⟨hnone, name, hnew⟩
 · rw [hsame]
 · rw [hnone, hnew]
   rfl

theorem size_same (k : Nat) : st'.obj.size k = st.obj.size k := by
 rw [size_eq, size_eq, h.data_eq]

theorem relocs_eq (k : Nat) : st'.obj.relocs k = st.obj.relocs k := by
 rw [ObjectFile.relocs, ObjectFile.relocs]
 rcases h.getElem_old k with hsame | ⟨hnone, name, hnew⟩
 · rw [hsame]
 · rw [hnone, hnew]
   rfl

theorem grows : Grows [] st st' where
 sections k s hs := by
  rcases h.getElem_old k with hsame | ⟨hnone, -⟩
  · exact ⟨s, hsame.trans hs, le_rfl, le_rfl, prefix_refl _⟩
  grind
 fixups f hf := by
  rw [h.fixups]
  exact hf
 differences := ⟨[], by rw [h.differences, append_nil], nofun⟩
 starts b _ := by rw [h.starts]

variable (hst : st.Sound) (hcurrent : ∀ k, st'.currentSection = some k → k < st'.obj.sections.length)

include hst hcurrent

theorem sound : st'.Sound where
 current := hcurrent
 place f hf := by
  rw [h.fixups] at hf
  rw [h.size_same]
  exact hst.place f hf
 fits f hf := hst.fits f (h.fixups ▸ hf)
 apart := h.fixups ▸ hst.apart
 clear f hf k i hcov := by
  rw [h.fixups] at hf
  rw [h.data_eq]
  exact hst.clear f hf k i hcov
 differences d hd := by
  rw [h.differences] at hd
  rw [h.size_same]
  exact hst.differences d hd
 storage d hd f hf i hcov := by
  rw [h.differences] at hd
  rw [h.fixups] at hf
  exact hst.storage d hd f hf i hcov
 spans k s hs := by
  rcases h.getElem_old k with hsame | ⟨-, name, hnew⟩
  · exact hst.spans k s (hsame.symm.trans hs)
  · cases hs.symm.trans hnew
    exact ⟨.nil, nofun⟩

theorem walked : Walked fmt st st' [] [] where
 grows := h.grows
 sound := h.sound hst hcurrent
 symbols := by rw [h.symbols, append_nil]
 laid := .nil
 relocs k r hr := .inl (by rw [← h.relocs_eq k]; exact hr)
 fixups f hf := .inl (by rw [← h.fixups]; exact hf)

end Opens

theorem Walked.refl (hst : st.Sound) : Walked fmt st st [] [] :=
 Opens.walked ⟨.inl rfl, rfl, rfl, rfl, rfl⟩ hst hst.current

/-- The section of a name is opened where it is not there. -/
theorem ensureSection_spec {obj obj' : ObjectFile} {name : String} (h : ensureSection obj name = (obj', k)) :
  k < obj'.sections.length ∧ obj'.symbols = obj.symbols ∧
   (obj'.sections = obj.sections ∨ ∃ name, obj'.sections = obj.sections ++ [newSection name]) := by
 rw [ensureSection] at h
 split at h
 · rename_i j hj
   cases h
   obtain ⟨hlt, -⟩ := findIdx?_eq_some_iff_getElem.1 hj
   exact ⟨hlt, rfl, .inl rfl⟩
 grind

theorem current_spec {name : String} (hst : st.Sound) (h : st.current name = (st', k)) :
  Opens st st' ∧ st'.currentSection = some k ∧ k < st'.obj.sections.length ∧ st'.assignment = st.assignment := by
 rw [ObjectEmission.current] at h
 split at h
 · rename_i j hj
   obtain ⟨rfl, rfl⟩ := Prod.mk.inj h
   exact ⟨⟨.inl rfl, rfl, rfl, rfl, rfl⟩, hj, hst.current j hj, rfl⟩
 · rcases hens : ensureSection st.obj name with ⟨obj, j⟩
   rw [hens] at h
   cases h
   obtain ⟨hlt, hsymbols, hsecs⟩ := ensureSection_spec hens
   exact ⟨⟨hsecs, hsymbols, rfl, rfl, rfl⟩, rfl, hlt, rfl⟩

/-! ## Chunks -/

theorem le_alignUp {size : Nat} (h : 0 < align) : size ≤ alignUp size align := by
 have hdiv := div_add_mod (size + align - 1) align
 have hmod := mod_lt (size + align - 1) h
 rw [alignUp, mul_comm]
 omega

theorem dvd_alignUp {size : Nat} : align ∣ alignUp size align :=
 Nat.dvd_mul_left _ _

theorem add_extends {c : Chunk} (hk : k < st.obj.sections.length) : Extends st (st.add k c) k 0 c [] where
 here := by
  refine ⟨_, getElem?_eq_getElem hk, ?_⟩
  have hget : (st.add k c).obj.sections[k]? = st.obj.sections[k]?.map fun s => s.add c := getElem?_modify_eq ..
  rw [hget, getElem?_eq_getElem hk, map_some, Nat.max_zero]
  rfl
 others j hj := getElem?_modify_ne _ _ (Ne.symm hj)
 symbols := rfl
 fixups := rfl
 differences := (append_nil _).symm
 current := rfl
 starts := rfl

theorem alignTo_extends (hk : k < st.obj.sections.length) : Extends st (st.modify k fun s => s.alignTo align) k align
   ⟨replicate (alignUp (st.obj.size k) align - st.obj.size k) 0, [], [], []⟩ [] where
 here := by
  have hsome := getElem?_eq_getElem hk
  refine ⟨_, hsome, ?_⟩
  have hget : (st.modify k fun s => s.alignTo align).obj.sections[k]? = st.obj.sections[k]?.map fun s => s.alignTo align :=
   getElem?_modify_eq ..
  have hsize : st.obj.size k = st.obj.sections[k].data.length := by rw [ObjectFile.size, hsome]
  rw [hget, hsome, map_some, hsize, ObjSection.alignTo, ObjSection.add, append_nil, append_nil]
 others j hj := getElem?_modify_ne _ _ (Ne.symm hj)
 symbols := rfl
 fixups := (append_nil _).symm
 differences := (append_nil _).symm
 current := rfl
 starts := rfl

/-! ## Symbols -/

/-- Blocks that start leave what is pending as it was. -/
theorem ObjectEmission.Sound.starting (h : st.Sound) : (st.starting starts).Sound :=
 ⟨h.current, h.place, h.fits, h.apart, h.clear, h.differences, h.storage, h.spans⟩

theorem ObjectEmission.Sound.pushSymbol (h : st.Sound) : (st.pushSymbol sym).Sound :=
 ⟨h.current, h.place, h.fits, h.apart, h.clear, h.differences, h.storage, h.spans⟩

theorem starting_grows : Grows (starts.map Prod.fst) st (st.starting starts) where
 sections _ s hs := ⟨s, hs, le_refl _, le_refl _, prefix_refl _⟩
 fixups _ hf := hf
 differences := ⟨[], (append_nil _).symm, nofun⟩
 starts b hb := by
  have hnone : starts.reverse.lookup b = none := by
   grind
  rw [ObjectEmission.starting, lookup_append, hnone, none_or]

theorem pushSymbol_grows : Grows [] st (st.pushSymbol sym) where
 sections _ s hs := ⟨s, hs, le_refl _, le_refl _, prefix_refl _⟩
 fixups _ hf := hf
 differences := ⟨[], (append_nil _).symm, nofun⟩
 starts _ _ := rfl

theorem lookup_starts {old : List (Nat × Nat)} (hnd : (starts.map Prod.fst).Nodup) {b : Nat × Nat} (hb : b ∈ starts) :
  (starts.reverse ++ old).lookup b.1 = some b.2 := by
 obtain ⟨before, after, rfl⟩ := append_of_mem hb
 rw [lookup_eq_some_iff]
 grind

theorem ids_blocksFrom {a : ρ} {p : Nat} {blocks : List (Block ρ)} :
  (blocksFrom a p blocks).map (fun b => b.1.id) = blocks.map Block.id := by
 induction blocks generalizing p with
 | nil => rfl
 | cons block blocks ih => rw [blocksFrom, map_cons, map_cons, ih]

theorem walkSymbol_spec {s : AsmSymbol ρ} (hst : st.Sound) (htabled : ∀ block ∈ s.blocks, ∀ entry ∈ block.ops, entry.Tabled)
  (hnd : (s.blocks.map Block.id).Nodup) (h : walkSymbol fmt s st = .ok st') :
  ∃ sym, Walked fmt st st' [.symbol s] [sym] := by
 obtain ⟨name, hname, h⟩ := bind_eq h
 dsimp only at h
 rcases hcur : ({ st with assignment := s.assignment } : ObjectEmission ρ).current ".text" with ⟨st1, k⟩
 rw [hcur] at h
 obtain ⟨st3, hblocks, h⟩ := bind_eq h
 obtain rfl := Except.ok.inj h
 have hbase : Opens st { st with assignment := s.assignment } := ⟨.inl rfl, rfl, rfl, rfl, rfl⟩
 have hst0 := hbase.sound hst hst.current
 obtain ⟨hopens, hk, hlt, hassignment⟩ := current_spec hst0 hcur
 have hst1 := hopens.sound hst0 fun j hj => by rw [← some.inj (hk.symm.trans hj)]; exact hlt
 -- The padding, then the blocks.
 have halign : Extends st1 (st1.modify k fun sec => sec.alignTo s.alignment) k s.alignment
   ⟨replicate (alignUp (st1.obj.size k) s.alignment - st1.obj.size k) 0, [], [], []⟩ [] := alignTo_extends hlt
 have hst2 := halign.sound hst1 Chunk.good_plain (fun _ hd => absurd hd not_mem_nil) (.inr rfl)
 generalize hst₂eq : st1.modify k (fun sec => sec.alignTo s.alignment) = st2 at hblocks halign hst2 ⊢
 have hassignment2 : st2.assignment = s.assignment := by rw [← hst₂eq]; exact hassignment
 have hk2 : st2.currentSection = some k := halign.current.trans hk
 have hlt2 : k < st2.obj.sections.length := hst2.current k hk2
 have hpos : 0 < s.alignment := Nat.zero_lt_one.trans_le (le_max_right _ _)
 have hstart : st2.obj.size k = alignUp (st1.obj.size k) s.alignment := by
  have hle : st1.obj.size k ≤ alignUp (st1.obj.size k) s.alignment := le_alignUp hpos
  rw [halign.size_self, length_replicate]
  omega
 obtain ⟨hwritten, rfl⟩ := writeBlocks_eq hk2 hlt2 hblocks
 rw [hassignment2] at hwritten ⊢
 have hgood : (layoutChunk fmt k s.assignment (blocksLayout s.assignment (st2.obj.size k) s.blocks)).Good k (st2.obj.size k) :=
  blocksLayout_good htabled
 have hadd := add_extends (c := layoutChunk fmt k s.assignment (blocksLayout s.assignment (st2.obj.size k) s.blocks)) hlt2
 have hst3 := hadd.sound hst2 hgood (fun _ hd => absurd hd not_mem_nil) (.inr rfl)
 have hlen := length_blocksLayout fmt k s.assignment (st2.obj.size k) s.blocks
 have hsize := hadd.size_self
 rw [hlen] at hsize
 generalize hst₃eq : st2.add k (layoutChunk fmt k s.assignment (blocksLayout s.assignment (st2.obj.size k) s.blocks)) = st3
  at hadd hst3 hsize ⊢
 have hdiff : st3.obj.size k - st2.obj.size k = blocksSize s.assignment s.blocks := by omega
 have hids : ((blocksFrom s.assignment (st2.obj.size k) s.blocks).map fun b => (b.1.id, b.2)).map Prod.fst = s.blocks.map Block.id := by
  rw [List.map_map]
  exact ids_blocksFrom
 have hgrows := ((hbase.grows.trans hopens.grows).trans (halign.grows fun _ hd => absurd hd not_mem_nil)).trans
  (hadd.grows fun _ hd => absurd hd not_mem_nil)
 obtain ⟨sec, hsec, hnew⟩ := hadd.here
 obtain ⟨sec1, hsec1, hnew1⟩ := halign.here
 obtain rfl := some.inj (hsec.symm.trans hnew1)
 have hdvd : s.alignment ∣ st2.obj.size k := by
  rw [hstart]
  exact dvd_alignUp
 let sym : ObjSymbol := ⟨name, some k, st2.obj.size k, st3.obj.size k - st2.obj.size k,
  if asStringAttr s.binding = some "local" then .localBinding else .globalBinding,
  if asStringAttr s.kind = some "object" then .object else .func⟩
 have hlaid : Laid ((st3.starting ((blocksFrom s.assignment (st2.obj.size k) s.blocks).map fun b => (b.1.id, b.2))).pushSymbol sym)
   (.symbol s) sym := by
  exact ⟨k, _, {
   name := orError_eq hname
   inSection := rfl
   found := hnew
   aligned := hdvd
   align := (le_max_right _ _).trans (le_max_left _ _)
   size := hdiff
   inside := by
    have hle : st2.obj.size k ≤ st3.obj.size k := by omega
    exact ((add_sub_of_le hle).trans (size_of_get hnew)).le
   spans := (suffix_append _ _).isInfix
   written := hwritten
   fixups := fun e he f hf => by
    refine (hadd.fixups ▸ mem_append_right _ ?_ : f ∈ st3.fixups)
    exact mem_flatMap.2 ⟨e, he, hf⟩
   starts := fun b hb => by
    refine lookup_starts (by rw [hids]; exact hnd) (b := (b.1.id, b.2)) ?_
    exact List.mem_map.2 ⟨b, hb, rfl⟩ }⟩
 refine ⟨sym, ⟨?_, hst3.starting.pushSymbol, ?_, .cons hlaid .nil, fun j r hr => ?_, fun f hf => ?_⟩⟩
 · apply ((hgrows.trans starting_grows).trans pushSymbol_grows).mono
   intro b hb
   simp only [nil_append, append_nil, hids] at hb
   simpa [Definition.ids] using hb
 · have hsymbols : st3.obj.symbols = st.obj.symbols :=
    ((hadd.symbols.trans halign.symbols).trans hopens.symbols).trans hbase.symbols
   exact congrArg (· ++ [_]) hsymbols
 · have hold : ∀ r ∈ st2.obj.relocs j, r ∈ st.obj.relocs j := by
    intro r hr
    have hsame : st2.obj.relocs j = st1.obj.relocs j := by
     by_cases hj : j = k
     · subst hj
       rw [halign.relocs_self, append_nil]
     · exact halign.relocs_other hj
    rw [hsame, hopens.relocs_eq, hbase.relocs_eq] at hr
    exact hr
   have hr' : r ∈ st3.obj.relocs j := hr
   by_cases hj : j = k
   · subst hj
     rw [hadd.relocs_self] at hr'
     rcases mem_append.1 hr' with hr' | hr'
     · exact .inl (hold r hr')
     · obtain ⟨e, he, hof⟩ := mem_flatMap.1 hr'
       exact .inr ⟨_, mem_singleton_self _, rfl, e, he, hof⟩
   · rw [hadd.relocs_other hj] at hr'
     exact .inl (hold r hr')
 · have hf' : f ∈ st3.fixups := hf
   rw [hadd.fixups, halign.fixups, hopens.fixups, append_nil] at hf'
   rcases mem_append.1 hf' with hf' | hf'
   · exact .inl hf'
   · obtain ⟨e, he, hof⟩ := mem_flatMap.1 hf'
     have hk : f.inSection = k := (hgood.place f (mem_flatMap.2 ⟨e, he, hof⟩)).1
     refine .inr ⟨_, mem_singleton_self _, by rw [hk], e, he, ?_⟩
     rw [hk]
     exact hof

/-! ## Globals -/

theorem mapM_ok {α β : Type} {f : α → Except BinaryEmitError β} {l : List α} {results : List β} (h : l.mapM f = .ok results) :
  ∀ b ∈ results, ∃ a ∈ l, f a = .ok b := by
 induction l generalizing results with
 | nil =>
  cases h
  nofun
 | cons a l ih =>
  rw [mapM_cons] at h
  obtain ⟨b, hb, h⟩ := bind_eq h
  obtain ⟨rest, hrest, h⟩ := bind_eq h
  cases h
  intro c hc
  rcases mem_cons.1 hc with rfl | hc
  · exact ⟨a, .head _, hb⟩
  grind

/-- The differences of a global are at most eight bytes wide and inside its storage. -/
theorem symbolDifferences_spec {g : Global} {ds : List SymbolDifference} {storage : List Byte} (hstorage : g.storage = some storage)
  (h : g.symbolDifferences = some ds) : ∀ d ∈ ds, d.width ≤ 8 ∧ d.offset + d.width ≤ storage.length := by
 have hsize : ((g.bytes.map List.length).orElse fun _ => g.size) = some storage.length := by
  rw [Global.storage] at hstorage
  cases hbytes : g.bytes with
  | some bytes =>
   grind
  | none =>
   rw [hbytes] at hstorage
   obtain ⟨size, hsize, rfl⟩ := map_eq_some_iff.1 hstorage
   grind
 rw [Global.symbolDifferences] at h
 split at h
 · grind
 · nomatch h
 · rw [hsize, bind_some] at h
   obtain ⟨hlen, hall⟩ := mapM_some h
   intro d hd
   obtain ⟨i, hi, hget⟩ := getElem_of_mem hd
   rename_i entries _
   have hlt : i < entries.length := by omega
   obtain ⟨d', hd', hent⟩ := hall i _ (getElem?_eq_getElem hlt)
   rw [getElem?_eq_getElem hi, hget] at hd'
   cases hd'
   obtain ⟨raw, -, hraw⟩ := bind_eq_some_iff.1 hent
   grind

theorem emitGlobal_spec {g : Global} (hst : st.Sound) (hdefined : g.isExternal = false) (h : emitGlobal fmt g st = .ok st') :
  ∃ sym, Walked fmt st st' [.global g] [sym] := by
 rw [emitGlobal, hdefined] at h
 obtain ⟨align, halign, h⟩ := bind_eq h
 obtain ⟨storage, hstorage, h⟩ := bind_eq h
 rcases hens : ensureSection st.obj g.sectionName with ⟨obj, k⟩
 rw [hens] at h
 obtain ⟨relocs, hrelocs, h⟩ := bind_eq h
 obtain ⟨ds, hds, h⟩ := bind_eq h
 cases h
 obtain ⟨hlt, hsymbols, hsecs⟩ := ensureSection_spec hens
 have halign' := orError_eq halign
 rw [filter_eq_some_iff] at halign'
 obtain ⟨hsome, hne⟩ := halign'
 have hpos : 0 < align := Nat.pos_of_ne_zero (by simpa using hne)
 have hle : obj.size k ≤ alignUp (obj.size k) align := le_alignUp hpos
 have hopens : Opens st { st with obj := obj } := ⟨hsecs, hsymbols, rfl, rfl, rfl⟩
 have hst1 := hopens.sound hst fun j hj => (hst.current j hj).trans_le hopens.grows.length_le
 have hin := symbolDifferences_spec (orError_eq hstorage) (orError_eq hds)
 have hget := getElem?_eq_getElem hlt
 -- The padding and the storage, with the relocations and the differences of the global.
 generalize hoff : alignUp (obj.size k) align = offset at hrelocs hle ⊢
 have hdvd : align ∣ offset := by
  rw [← hoff]
  exact dvd_alignUp
 let c : Chunk := ⟨replicate (offset - obj.size k) 0 ++ storage, [], relocs, []⟩
 have hlen : c.bytes.length = offset - obj.size k + storage.length := by
  rw [length_append, length_replicate]
 let st2 : ObjectEmission ρ := { st with
  obj := obj.modify k fun s => { s.alignTo align with data := (s.alignTo align).data ++ storage, relocs := s.relocs ++ relocs }
  symbolDifferences := st.symbolDifferences ++ ds.map fun (d : SymbolDifference) => (k, d.shift offset) }
 have hexts : Extends { st with obj := obj } st2 k align c (ds.map fun (d : SymbolDifference) => (k, d.shift offset)) := by
  refine ⟨⟨_, hget, ?_⟩, fun j hj => modify_other (Ne.symm hj), rfl, (append_nil _).symm, rfl, rfl, rfl⟩
  have hsize : obj.size k = obj.sections[k].data.length := size_of_get hget
  have hself : st2.obj.sections[k]? = obj.sections[k]?.map fun s =>
   { s.alignTo align with data := (s.alignTo align).data ++ storage, relocs := s.relocs ++ relocs } := modify_self
  rw [hself, hget, map_some, ObjSection.alignTo, ObjSection.add, ← hsize, hoff, append_assoc, append_nil]
 have hplaced : ∀ d ∈ ds.map fun (d : SymbolDifference) => (k, d.shift offset), d.1 = k ∧ obj.size k ≤ d.2.offset ∧
   d.2.offset + d.2.width ≤ obj.size k + c.bytes.length := by
  intro d hd
  obtain ⟨d, hmem, rfl⟩ := List.mem_map.1 hd
  have hend := (hin d hmem).2
  rw [hlen]
  simp only [SymbolDifference.shift]
  exact ⟨trivial, by omega, by omega⟩
 have hst2 := hexts.sound hst1 Chunk.good_plain hplaced (.inl rfl)
 have hgrows := hopens.grows.trans (hexts.grows fun d hd => by rw [(hplaced d hd).1]; exact (hplaced d hd).2.1)
 let sym : ObjSymbol := ⟨g.symName, some k, offset, storage.length, if g.isPrivate then .localBinding else .globalBinding, .object⟩
 have hlaid : Laid (st2.pushSymbol sym) (.global g : Definition ρ) sym := by
  obtain ⟨sec, hsec, hnew⟩ := hexts.here
  refine ⟨k, _, {
   name := rfl
   inSection := rfl
   found := hnew
   align := ⟨align, hsome, hdvd, le_max_right _ _⟩
   size := congrArg (Option.map List.length) (orError_eq hstorage)
   inside := ?_
   differences := ⟨ds, st.symbolDifferences, [], orError_eq hds, hin, (append_nil _).symm,
    by rintro _ ⟨⟩⟩ }⟩
  have hsize := hexts.size_self
  rw [hlen, size_of_get hnew] at hsize
  grind
 refine ⟨sym, ⟨?_, hst2.pushSymbol, congrArg (· ++ [sym]) hsymbols, .cons hlaid .nil, fun j r hr => ?_, fun f hf => ?_⟩⟩
 · exact (hgrows.trans pushSymbol_grows).mono fun b hb => hb
 · have hr' : r ∈ st2.obj.relocs j := hr
   by_cases hj : j = k
   · subst hj
     rw [hexts.relocs_self, hopens.relocs_eq] at hr'
     rcases mem_append.1 hr' with hr' | hr'
     · exact .inl hr'
     · obtain ⟨reloc, hreloc, hof⟩ := mapM_ok hrelocs r hr'
       obtain ⟨rType, htype, hof⟩ := bind_eq hof
       cases hof
       obtain ⟨-, habsolute⟩ := ite_none_right_eq_some.1 (orError_eq htype)
       exact .inr ⟨_, mem_singleton_self _, rfl, reloc, hreloc, rType, habsolute, rfl⟩
   · rw [hexts.relocs_other hj, hopens.relocs_eq] at hr'
     exact .inl hr'
 · have hf' : f ∈ st2.fixups := hf
   rw [hexts.fixups, hopens.fixups, append_nil] at hf'
   exact .inl hf'

/-! ## The walk -/

mutual

theorem writeOp_spec (item : Item ρ) {st st' : ObjectEmission ρ} (hst : st.Sound) (htidy : item.Tidy) (htabled : ∀ d ∈ item.definitions, d.Tabled)
  (hnd : (item.definitions.flatMap Definition.ids).Nodup) (h : writeOp fmt item st = .ok st') :
  ∃ syms, Walked fmt st st' item.definitions syms := by
 cases item with
 | global g =>
  rw [writeOp] at h
  cases hexternal : g.isExternal with
  | true =>
   rw [emitGlobal, hexternal] at h
   obtain rfl := Except.ok.inj h
   rw [Item.definitions, if_pos hexternal]
   exact ⟨[], Walked.refl hst⟩
  | false =>
   obtain ⟨sym, hwalked⟩ := emitGlobal_spec hst hexternal h
   rw [Item.definitions, hexternal]
   exact ⟨[sym], hwalked⟩
 | inSection name body =>
  rw [writeOp] at h
  rcases hens : ensureSection st.obj ((asStringAttr name).getD ".text") with ⟨obj, k⟩
  rw [hens] at h
  obtain ⟨inner, hbody, h⟩ := bind_eq h
  obtain rfl := Except.ok.inj h
  obtain ⟨hlt, hsymbols, hsecs⟩ := ensureSection_spec hens
  have hopens : Opens st { st with obj := obj, currentSection := some k } := ⟨hsecs, hsymbols, rfl, rfl, rfl⟩
  have hcurrent : ∀ j, some k = some j → j < obj.sections.length := fun j hj => by rw [← some.inj hj]; exact hlt
  have hopened : Walked fmt st _ [] [] := hopens.walked hst hcurrent
  obtain ⟨syms, hwalked⟩ := walkBlock_spec body hopened.sound htidy htabled hnd hbody
  -- The section that encloses this one is current again.
  have hcloses : Opens inner { inner with currentSection := st.currentSection } := ⟨.inl rfl, rfl, rfl, rfl, rfl⟩
  have hclosed : Walked fmt inner _ [] [] := hcloses.walked hwalked.sound fun j hj =>
   ((hst.current j hj).trans_le hopened.grows.length_le).trans_le hwalked.grows.length_le
  have hall := (hopened.append hwalked fun d hd => absurd hd not_mem_nil).append hclosed fun d hd b hb => not_mem_nil
  rw [append_nil, append_nil] at hall
  exact ⟨syms, hall⟩
 | symbol s =>
  rw [writeOp] at h
  have hsymbol := htabled (.symbol s) (mem_singleton_self _)
  obtain ⟨sym, hwalked⟩ := walkSymbol_spec hst hsymbol (by simpa [Item.definitions, Definition.ids] using hnd) h
  exact ⟨[sym], hwalked⟩
 | entry entry =>
  obtain rfl : entry = .skip := htidy
  rw [writeOp] at h
  obtain rfl := Except.ok.inj h
  exact ⟨[], Walked.refl hst⟩

/-- **The walk lays out each definition of a module, in their order.** -/
theorem walkBlock_spec (items : List (Item ρ)) {st st' : ObjectEmission ρ} (hst : st.Sound) (htidy : TidyAll items)
  (htabled : ∀ d ∈ definitionsOf items, d.Tabled) (hnd : ((definitionsOf items).flatMap Definition.ids).Nodup)
  (h : walkBlock fmt items st = .ok st') : ∃ syms, Walked fmt st st' (definitionsOf items) syms := by
 cases items with
 | nil =>
  rw [walkBlock] at h
  cases h
  exact ⟨[], Walked.refl hst⟩
 | cons item items =>
  rw [walkBlock] at h
  obtain ⟨middle, hitem, hrest⟩ := bind_eq h
  rw [definitionsOf, flatMap_append, nodup_append] at hnd
  obtain ⟨syms, hwalked⟩ := writeOp_spec item hst htidy.1 (fun d hd => htabled d (mem_append_left _ hd)) hnd.1 hitem
  obtain ⟨syms', hwalked'⟩ := walkBlock_spec items hwalked.sound htidy.2 (fun d hd => htabled d (mem_append_right _ hd))
   hnd.2.1 hrest
  refine ⟨syms ++ syms', hwalked.append hwalked' fun d hd b hb hmem => ?_⟩
  exact hnd.2.2 b (mem_flatMap.2 ⟨d, hd, hb⟩) b hmem rfl

end

end Tir.Backend.Writer
