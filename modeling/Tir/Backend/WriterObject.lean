import Mathlib.Tactic.Linarith
import Tir.Backend.WriterWalk

/-!
# The written object

What an object that is written says of the module (`writeModule_resolves`): every branch reaches its block, the
spans of a symbol tile it, a branch is left out only before its target, every relocation is of an instruction or
a data word, and every symbol difference is written.
-/

open List Option Int

namespace Tir.Backend.Writer

open Bytes Encodings ObjectEmission SymbolDifference

variable {ρ : Type} {k i : Nat} {fmt : ObjectFormatInfo} {st : ObjectEmission ρ} {obj obj' : ObjectFile}

/-! ## Branches -/

variable {blocks : List (Block ρ)} {p : Nat} {e : Nat × Entry ρ}

theorem start_le {a : ρ} {b : Block ρ × Nat} (h : b ∈ blocksFrom a p blocks) :
  b.2 ≤ p + blocksSize a blocks := by
 induction blocks generalizing p with
 | nil => nomatch h
 | cons block blocks ih =>
  rw [blocksSize]
  rcases mem_cons.1 h with rfl | hrest
  · exact Nat.le_add_right _ _
  · have := ih hrest
    omega

/-- A quotient of a displacement between two offsets of a section is a 64-bit integer. -/
theorem toInt_quotient {t base scale : Nat} (ht : t < 2 ^ 63) (hbase : base < 2 ^ 63) (hdvd : ((t : Int) - base) % 2 ^ scale = 0) :
  (BitVec.ofInt 64 (((t : Int) - base) / 2 ^ scale)).toInt * 2 ^ scale + base = t := by
 have hmul : ((t : Int) - base) / 2 ^ scale * 2 ^ scale = t - base := Int.ediv_mul_cancel (dvd_of_emod_eq_zero hdvd)
 have hone : (1 : Int) ≤ 2 ^ scale := by exact_mod_cast Nat.one_le_two_pow
 have hexact : (BitVec.ofInt 64 (((t : Int) - base) / 2 ^ scale)).toInt = ((t : Int) - base) / 2 ^ scale := by
  rw [BitVec.toInt_ofInt]
  generalize ((t : Int) - base) / 2 ^ scale = q at hmul
  apply bmod_eq_of_le_mul_two
  · push_cast
    by_contra hlt
    have : q * 2 ^ scale ≤ q := by nlinarith
    omega
  · push_cast
    by_contra hge
    have : q ≤ q * 2 ^ scale := by nlinarith
    omega
 rw [hexact, hmul]
 omega

/-- The bits of a field that is resolved are those of its displacement. -/
theorem field_bits {f : PendingFixup} {v : BitVec 64} (hst : st.Sound) (hf : f ∈ st.fixups)
  (hresolves : Resolves fmt st.blockStarts st.fixups st.obj obj) (hdiffers : Differs st.symbolDifferences obj obj')
  (hv : f.Value fmt st.blockStarts v) {run : FieldRun} (hrun : run ∈ f.patch.runs) {j : Nat} (hcov : run.Covers j) :
  byteBit (obj'.slice f.inSection f.offset f.len) j = (v.signExtend 128).getLsbD (run.source j) := by
 have hfits := hst.fits f hf
 have hlt : j < 8 * f.len := hcov.2.trans_le (hfits.inside run hrun)
 have hidx : 8 * f.offset + j - 8 * f.offset = j := by omega
 have hfield : f.Covers f.inSection (8 * f.offset + j) := ⟨rfl, by omega, run, hrun, by rw [hidx]; exact hcov⟩
 have hkept : byteBit (obj'.data f.inSection) (8 * f.offset + j) = byteBit (obj.data f.inSection) (8 * f.offset + j) := by
  apply hdiffers.bits
  intro d hd hk
  exact hst.storage d hd f hf _ (by rw [hk]; exact hfield)
 rw [ObjectFile.slice, byteBit_slice hlt, hkept, Bool.eq_iff_iff, hresolves.bits, hst.clear f hf _ _ hfield]
 constructor
 · rintro (hset | ⟨g, hg, hsets⟩)
   · cases hset
   · have hsame : g = f := by
      by_contra hne
      have hsymm : Std.Symm PendingFixup.Apart := ⟨fun a b h k i hb ha => h k i ha hb⟩
      exact hst.apart.forall hg hf hne _ _ hsets.covers hfield
     subst hsame
     obtain ⟨v', hv', -, -, run', hrun', hcov', hbit⟩ := hsets
     obtain rfl := hv'.unique hv
     rw [hidx] at hcov' hbit
     rwa [eq_of_covers hfits.apart hrun hrun' hcov hcov']
 · intro hbit
   exact .inr ⟨f, hf, v, hv, rfl, by omega, run, hrun, by rw [hidx]; exact ⟨hcov, hbit⟩⟩

/-! ## Objects -/

/-- A fixup of an operation at an offset. -/
structure FixupAt (s : AsmSymbol ρ) (start p : Nat) (op : Op ρ) (info : InstrInfo) (e : EncodedInst) (fixup : EncodedFixup) : Prop where
 laid : (p, .instruction op) ∈ s.layout start
 info : op.info = some info
 encoded : op.encoded s.assignment = some e
 mem : fixup ∈ e.fixups

/-- A symbol that is emitted in a section of an object. -/
structure AsmSymbol.Emitted (s : AsmSymbol ρ) (fmt : ObjectFormatInfo) (obj : ObjectFile) (sym : ObjSymbol) (k : Nat)
  (sec : ObjSection) : Prop where
 name : asStringAttr s.name = some sym.name
 inSection : sym.inSection = some k
 found : obj.sections[k]? = some sec
 aligned : s.alignment ∣ sym.value
 align : s.alignment ≤ sec.align
 size : sym.size = blocksSize s.assignment s.blocks
 inside : sym.value + sym.size ≤ sec.data.length
 encoded : ∀ e ∈ s.layout sym.value, e.2.Written s.assignment
 ordered : sec.insnSpans.Pairwise fun a b => a.1 + a.2 ≤ b.1
 spans : layoutSpans s.assignment (s.layout sym.value) <:+: sec.insnSpans
 /-- The spans of a symbol of instructions tile its bytes. -/
 tiles : (∀ block ∈ s.blocks, ∀ entry ∈ block.ops, entry.Code) →
  Tiles (layoutSpans s.assignment (s.layout sym.value)) sym.value (sym.value + sym.size)
 /-- A branch is left out only where the block it goes to starts at the byte the branch would have. -/
 omitted : ∀ before block start after i, s.starts sym.value = before ++ (block, start) :: after →
  block.omitted (after.head?.map fun e => e.1.id) = some i →
   ∃ op next rest, block.ops[i]? = some (.instruction op) ∧ op.successors = [next.id] ∧
    after = (next, start + entriesSize s.assignment (block.ops.take i)) :: rest
 /-- A branch to a block of the symbol reaches the start of the block. -/
 branches : ∀ p op info e fixup block target, FixupAt s sym.value p op info e fixup → fixup.target = .block block.id →
  (block, target) ∈ s.starts sym.value →
   readField (obj.slice k p e.bytes.length) fixup.patch * 2 ^ fmt.pcRelScale info.name +
    (if fmt.pcRelFromEnd info.name then p + e.bytes.length else p) = target

/-- A global that is emitted in a section of an object. -/
structure Global.Emitted (g : Global) (obj : ObjectFile) (sym : ObjSymbol) (k : Nat) (sec : ObjSection) : Prop where
 name : g.symName = sym.name
 inSection : sym.inSection = some k
 found : obj.sections[k]? = some sec
 align : ∃ align, g.align = some align ∧ align ∣ sym.value ∧ align ≤ sec.align
 inside : sym.value + sym.size ≤ sec.data.length
 /-- A difference that no later one of the global is written over is that of the two symbols' offsets in one
 section, cut to the width of the word. -/
 differences : ∀ before d after, g.symbolDifferences = some (before ++ d :: after) →
  (∀ e ∈ after, e.offset + e.width ≤ d.offset ∨ d.offset + d.width ≤ e.offset) →
   ∃ symbol base j, obj.symbol d.symbol = some symbol ∧ obj.symbol d.base = some base ∧
    symbol.inSection = some j ∧ base.inSection = some j ∧
    ((ofLe (obj.slice k (sym.value + d.offset) d.width) : Nat) : Int) = ((symbol.value : Int) - base.value) % 2 ^ (8 * d.width)

def Emitted (fmt : ObjectFormatInfo) (obj : ObjectFile) (d : Definition ρ) (sym : ObjSymbol) : Prop :=
 match d with
 | .symbol s => ∃ k sec, s.Emitted fmt obj sym k sec
 | .global g => ∃ k sec, g.Emitted obj sym k sec

/-- The relocation of an instruction of a definition: as far into the instruction as its target says. -/
def InstrReloc (fmt : ObjectFormatInfo) (k : Nat) (d : Definition ρ) (sym : ObjSymbol) (r : ObjReloc) : Prop :=
 match d with
 | .symbol s => sym.inSection = some k ∧ ∃ p op info e fixup symbol kind, FixupAt s sym.value p op info e fixup ∧
   fixup.target = .symbol symbol ∧ fmt.relocFor info.name = some kind ∧
   r = ⟨p + kind.fieldOffset, symbol, kind.rType, kind.addend⟩
 | .global _ => False

theorem pending_spec {s : AsmSymbol ρ} {start : Nat} {f : PendingFixup} (he : e ∈ s.layout start)
  (h : f ∈ e.2.fixups k s.assignment e.1) : ∃ op info encoded fixup, FixupAt s start e.1 op info encoded fixup ∧
   f = ⟨k, e.1, encoded.bytes.length % 256, info, fixup.target, fixup.patch⟩ := by
 obtain ⟨p, entry⟩ := e
 cases entry with
 | skip => nomatch h
 | literal kind value => nomatch h
 | dataReloc symbol width addend => nomatch h
 | instruction op =>
  dsimp only [Entry.fixups] at h
  split at h
  · rename_i info encoded hinfo hencoded
    obtain ⟨fixup, hfixup, rfl⟩ := List.mem_map.1 h
    exact ⟨op, info, encoded, fixup, ⟨he, hinfo, hencoded, hfixup⟩, rfl⟩
  · nomatch h

theorem FixupAt.pending {s : AsmSymbol ρ} {start : Nat} {op : Op ρ} {info : InstrInfo} {e : EncodedInst} {fixup : EncodedFixup}
  (h : FixupAt s start p op info e fixup) :
  (⟨k, p, e.bytes.length % 256, info, fixup.target, fixup.patch⟩ : PendingFixup) ∈
    (Entry.instruction op).fixups k s.assignment p := by
 simp only [Entry.fixups, h.info, h.encoded]
 exact List.mem_map.2 ⟨fixup, h.mem, rfl⟩

theorem mem_layout {a : ρ} (h : e ∈ blocksLayout a p blocks) :
  ∃ block ∈ blocks, e.2 ∈ block.ops := by
 induction blocks generalizing p with
 | nil => nomatch h
 | cons block blocks ih =>
  rcases mem_append.1 h with h | h
  · exact ⟨block, .head _, mem_emitted (mem_layoutFrom h)⟩
  grind

section Finish

variable (hresolves : Resolves fmt st.blockStarts st.fixups st.obj obj) (hdiffers : Differs st.symbolDifferences obj obj')

include hresolves hdiffers

theorem Global.LaidIn.emitted {g : Global} {sym : ObjSymbol} {sec : ObjSection} (h : g.LaidIn st sym k sec) :
  ∃ sec', g.Emitted obj' sym k sec' := by
 have hshape := hresolves.shape.trans hdiffers.shape
 obtain ⟨sec', hfound, heq⟩ := hshape.section_eq h.found
 have halign : sec'.align = sec.align := congrArg SectionShape.align heq
 have hlength : sec'.data.length = sec.data.length := congrArg SectionShape.size heq
 obtain ⟨align, hsome, hdvd, hle⟩ := h.align
 refine ⟨sec', {
  name := h.name
  inSection := h.inSection
  found := hfound
  align := ⟨align, hsome, hdvd, hle.trans_eq halign.symm⟩
  inside := h.inside.trans_eq hlength.symm
  differences := fun before d after hsome hapart => ?_ }⟩
 obtain ⟨ds, earlier, later, hds, hin, hsplit, hlater⟩ := h.differences
 cases hds.symm.trans hsome
 have hd := hin d (mem_append_right _ (.head _))
 -- Later differences are of this global, or of storage after it.
 have hwritten := hdiffers.written (earlier ++ before.map fun d => (k, d.shift sym.value)) (k, d.shift sym.value)
  ((after.map fun d => (k, d.shift sym.value)) ++ later)
  (by rw [hsplit, map_append, map_cons]; simp only [append_assoc, cons_append]) (by
   intro e he hk
   rcases mem_append.1 he with he | he
   · obtain ⟨e, hmem, rfl⟩ := List.mem_map.1 he
     have := hapart e hmem
     simp only [shift]
     omega
   · have hstart := hlater e he hk
     simp only [shift]
     omega)
 have hval := hwritten.value hd.1
 rw [shift, add_comm] at hval
 exact hval

/-- Every relocation left is of an instruction or a data word. -/
theorem relocs_emitted {defs : List (Definition ρ)} {syms : List ObjSymbol}
  (hrelocs : ∀ r ∈ st.obj.relocs k, ∃ p ∈ defs.zip syms, DataReloc fmt k p.1 p.2 r)
  (hfixups : ∀ f ∈ st.fixups, ∃ p ∈ defs.zip syms, PendingOf p.1 p.2 f) {r : ObjReloc} (hr : r ∈ obj'.relocs k) :
  ∃ p ∈ defs.zip syms, DataReloc fmt k p.1 p.2 r ∨ InstrReloc fmt k p.1 p.2 r := by
 rw [hdiffers.relocs] at hr
 rcases hresolves.relocs k r hr with hr | ⟨f, hf, rfl, symbol, kind, htgt, hkind, rfl⟩
 · grind
 · obtain ⟨⟨d, sym⟩, hp, hof⟩ := hfixups f hf
   cases d with
   | global g => exact hof.elim
   | symbol s =>
    obtain ⟨hk, e, he, hmem⟩ := hof
    obtain ⟨op, info, encoded, fixup, hat, heq⟩ := pending_spec he hmem
    refine ⟨_, hp, .inr ⟨hk, e.1, op, info, encoded, fixup, symbol, kind, hat, ?_, ?_, ?_⟩⟩
    · grind
    · grind
    · rw [heq]

variable (hst : st.Sound)

include hst

theorem AsmSymbol.LaidIn.emitted {s : AsmSymbol ρ} {sym : ObjSymbol} {sec : ObjSection} (h : s.LaidIn st sym k sec)
  (htabled : ∀ block ∈ s.blocks, ∀ entry ∈ block.ops, entry.Tabled) (hsmall : ∀ s ∈ obj'.sections, s.data.length < 2 ^ 63) :
  ∃ sec', s.Emitted fmt obj' sym k sec' := by
 have hshape := hresolves.shape.trans hdiffers.shape
 obtain ⟨sec', hfound, heq⟩ := hshape.section_eq h.found
 have halign : sec'.align = sec.align := congrArg SectionShape.align heq
 have hlength : sec'.data.length = sec.data.length := congrArg SectionShape.size heq
 have hspans : sec'.insnSpans = sec.insnSpans := congrArg SectionShape.insnSpans heq
 have hsmall' : sec.data.length < 2 ^ 63 := by
  grind
 refine ⟨sec', {
  name := h.name
  inSection := h.inSection
  found := hfound
  aligned := h.aligned
  align := h.align.trans_eq halign.symm
  size := h.size
  inside := h.inside.trans_eq hlength.symm
  encoded := h.written
  ordered := by
   rw [hspans]
   exact (hst.spans k sec h.found).pairwise
  spans := by
   rw [hspans]
   exact h.spans
  tiles := fun hcode => by
   rw [h.size]
   exact tiles_blocksLayout hcode htabled
  omitted := fun before block start after i => omitted_next
  branches := fun p op info e fixup block target hat htgt hstart => ?_ }⟩
 have hop : op.Tabled := by
  obtain ⟨block, hblk, hmem⟩ := mem_layout hat.laid
  exact htabled block hblk _ hmem
 have hlen := (encoded_spec hop hat.encoded).1
 have hmod : e.bytes.length % 256 = e.bytes.length := Nat.mod_eq_of_lt (by omega)
 have hpending := h.fixups _ hat.laid _ (hat.pending (k := k))
 rw [hmod] at hpending
 obtain ⟨v, hv, haccepts⟩ := hresolves.accepted _ hpending block.id htgt
 have hread : readField (obj'.slice k p e.bytes.length) fixup.patch = v.toInt := by
  have hplace := hst.place _ hpending
  apply read_eq (hst.fits _ hpending).exact haccepts
  · rw [length_slice (by rw [hshape.size_eq]; exact hplace)]
    exact hlen
  · intro run hrun j hcov
    exact field_bits hst hpending hresolves hdiffers hv hrun hcov
 obtain ⟨b, t, hb, ht, hdvd, rfl⟩ := hv
 obtain rfl := FixupTarget.block.inj (htgt.symm.trans hb)
 cases (h.starts _ hstart).symm.trans ht
 have hbase : PendingFixup.base ⟨k, p, e.bytes.length, info, fixup.target, fixup.patch⟩ fmt ≤ sec.data.length := by
  have hplace := hst.place _ hpending
  rw [size_of_get h.found] at hplace
  rw [PendingFixup.base]
  split
  · exact hplace
  · exact (Nat.le_add_right _ _).trans hplace
 have htgt' : target ≤ sec.data.length := by
  have hle := start_le hstart
  have hin := h.inside
  rw [h.size] at hin
  exact hle.trans hin
 have hexact := toInt_quotient (htgt'.trans_lt hsmall') (hbase.trans_lt hsmall') hdvd
 rw [hread]
 refine Eq.trans ?_ hexact
 rw [PendingFixup.base]

end Finish

/-- The emission the walk starts from. -/
theorem sound_initial [Inhabited ρ] : ObjectEmission.Sound (⟨⟨[], []⟩, none, default, [], [], []⟩ : ObjectEmission ρ) where
 current _ hk := absurd hk nofun
 place _ hf := absurd hf not_mem_nil
 fits _ hf := absurd hf not_mem_nil
 apart := .nil
 clear _ hf := absurd hf not_mem_nil
 differences _ hd := absurd hd not_mem_nil
 storage _ hd := absurd hd not_mem_nil
 spans _ _ hs := absurd hs nofun

/-- **An object that is written resolves every reference of its module**: each definition is emitted as a symbol
of the object, in their order, and every relocation left is of an instruction or a data word of one. The blocks of
the module are distinct, its instructions stand in symbols and are encoded as the table generator writes it. -/
theorem writeModule_resolves [Inhabited ρ] (fmt : ObjectFormatInfo) (items : List (Item ρ)) (obj : ObjectFile) (htidy : TidyAll items)
  (htabled : ∀ d ∈ definitionsOf items, d.Tabled) (hnodup : ((definitionsOf items).flatMap Definition.ids).Nodup)
  (hsmall : ∀ s ∈ obj.sections, s.data.length < 2 ^ 63) (h : writeModule fmt items = .ok obj) :
  Forall₂ (Emitted fmt obj) (definitionsOf items) obj.symbols ∧
   ∀ k, ∀ r ∈ obj.relocs k, ∃ p ∈ (definitionsOf items).zip obj.symbols,
    DataReloc fmt k p.1 p.2 r ∨ InstrReloc fmt k p.1 p.2 r := by
 obtain ⟨st, hwalk, hfinish⟩ := bind_eq h
 obtain ⟨resolved, hfixups, hdifferences⟩ := bind_eq hfinish
 obtain ⟨syms, hwalked⟩ := walkBlock_spec items sound_initial htidy htabled hnodup hwalk
 have hst := hwalked.sound
 have hresolves : Resolves fmt st.blockStarts st.fixups st.obj resolved := resolveFixups_spec hst.fits hst.place hfixups
 have hdiffers := differences_spec (fun d hd => by rw [hresolves.shape.size_eq]; exact hst.differences d hd) hdifferences
 have hsymbols : obj.symbols = syms := by
  rw [hdiffers.shape.symbols, hresolves.shape.symbols, hwalked.symbols]
  rfl
 rw [hsymbols]
 refine ⟨?_, fun k r hr => ?_⟩
 · have hlaid := hwalked.laid
   rw [forall₂_iff_zip] at hlaid ⊢
   refine ⟨hlaid.1, fun {d sym} hp => ?_⟩
   have hof := hlaid.2 hp
   cases d with
   | symbol s =>
    obtain ⟨k, sec, hin⟩ := hof
    exact ⟨k, hin.emitted hresolves hdiffers hst (htabled _ (of_mem_zip hp).1) hsmall⟩
   | global g =>
    obtain ⟨k, sec, hin⟩ := hof
    exact ⟨k, hin.emitted hresolves hdiffers⟩
 · refine relocs_emitted hresolves hdiffers (fun r hr => ?_) (fun f hf => ?_) hr
   · rcases hwalked.relocs k r hr with hr | hof
     · nomatch hr
     · exact hof
   · rcases hwalked.fixups f hf with hf | hof
     · nomatch hf
     · exact hof

/-! ## A module with a loop -/

def branchTo (name : String) (controlFlow : ControlFlow) (block : Nat) : Entry Unit :=
 .instruction
  { name := name
    info := some ⟨name, controlFlow, .NONE, some shortSpec⟩
    operands := fun _ operand => if operand = "imm" then .fixup (.block block) else .missing
    defs := []
    physDefs := []
    successors := [block] }

/-- Three blocks: the jump at the end of the first is left out, the one at the end of the second goes back. -/
def loopSymbol : AsmSymbol Unit where
 name := some (.str "f")
 align := some (.int 4)
 binding := none
 kind := none
 assignment := ()
 blocks :=
  [⟨0, [branchTo "beq" .conditional 2, branchTo "j" .unconditional 1, .skip]⟩,
    ⟨1, [branchTo "j" .unconditional 0, .skip]⟩,
    ⟨2, [.skip]⟩]

def byteFormat : ObjectFormatInfo where
 relocFor _ := none
 absoluteReloc _ := none
 pcRelScale _ := 0
 pcRelFromEnd _ := false

def loopModule : List (Item Unit) :=
 [.inSection (some (.str ".text")) [.symbol loopSymbol]]

def loopObject : ObjectFile where
 sections := [⟨".text", .text, 4, [67, 0, 227, 255], [], [(0, 2), (2, 2)]⟩]
 symbols := [⟨"f", some 0, 0, 4, .globalBinding, .func⟩]

theorem shortSpec_exact : ∀ shape ∈ shortSpec.shapes, ∀ patch ∈ shape.patch, Exact patch := by
 intro shape hshape patch hpatch
 simp only [shortSpec, mem_cons, not_mem_nil, or_false] at hshape
 rcases hshape with rfl | rfl
 · obtain rfl := mem_singleton.1 hpatch
   refine ⟨by decide, ⟨by decide, by decide, by decide⟩, fun j hj => .inr ⟨_, mem_singleton_self _, Nat.zero_le _, ?_⟩⟩
   exact hj
 · obtain rfl := mem_singleton.1 hpatch
   refine ⟨by decide, ⟨by decide, by decide, by decide⟩, fun j hj => .inr ⟨_, mem_singleton_self _, Nat.zero_le _, ?_⟩⟩
   exact hj

theorem branchTo_tabled (name : String) (controlFlow : ControlFlow) (block : Nat) : (branchTo name controlFlow block).Tabled := by
 intro info hinfo spec hspec shape hshape
 cases hinfo
 cases hspec
 exact ⟨shortSpec_wellFormed shape hshape, shortSpec_exact shape hshape⟩

theorem loopModule_writes : writeModule byteFormat loopModule = .ok loopObject := by
 decide +kernel

theorem loopModule_resolves : Forall₂ (Emitted byteFormat loopObject) (definitionsOf loopModule) loopObject.symbols ∧
   ∀ k, ∀ r ∈ loopObject.relocs k, ∃ p ∈ (definitionsOf loopModule).zip loopObject.symbols,
    DataReloc byteFormat k p.1 p.2 r ∨ InstrReloc byteFormat k p.1 p.2 r := by
 have htabled : ∀ d ∈ definitionsOf loopModule, d.Tabled := by
  intro d hd
  obtain rfl : d = .symbol loopSymbol := mem_singleton.1 hd
  intro block hblk entry hent
  simp only [loopSymbol, mem_cons, not_mem_nil, or_false] at hblk
  rcases hblk with rfl | rfl | rfl
  all_goals simp only [mem_cons, not_mem_nil, or_false] at hent
  · rcases hent with rfl | rfl | rfl
    · exact branchTo_tabled _ _ _
    · exact branchTo_tabled _ _ _
    · trivial
  · rcases hent with rfl | rfl
    · exact branchTo_tabled _ _ _
    · trivial
  · subst hent
    trivial
 have hsmall : ∀ s ∈ loopObject.sections, s.data.length < 2 ^ 63 := by
  intro s hs
  obtain rfl := mem_singleton.1 hs
  decide
 exact writeModule_resolves byteFormat loopModule loopObject ⟨⟨trivial, trivial⟩, trivial⟩ htabled (by decide) hsmall loopModule_writes

/-! ## A difference that is cut -/

def dataGlobal (name : String) (bytes : List Byte) (differencesAttr : DifferencesAttr) : Item Unit :=
 .global
  { symName := name
    isExternal := false
    isPrivate := false
    align := some 1
    bytes := some bytes
    size := none
    inSection := none
    relocations := []
    differencesAttr := differencesAttr }

/-- A table of one byte for the distance between two globals that are 256 bytes apart. -/
def tableModule : List (Item Unit) :=
 [dataGlobal "a" (replicate 256 0) .absent, dataGlobal "b" [0] .absent,
  dataGlobal "table" [0] (.entries [some ⟨0, "b", "a", 1⟩])]

theorem difference_truncated : (writeModule byteFormat tableModule).toOption.map (fun obj =>
  (ofLe (obj.slice 0 257 1), (obj.symbol "b").map ObjSymbol.value, (obj.symbol "a").map ObjSymbol.value)) =
   some (0, some 256, some 0) := by
 decide +kernel

end Tir.Backend.Writer
