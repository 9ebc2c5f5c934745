import Tir.Backend.WriterLayout

/-!
# What a layout claims of its section

A pending fixup claims the bits of its field. In the chunk of a layout those of different fixups are apart, inside
their instruction and clear (`blocksLayout_good`). The spans of a symbol of instructions tile it
(`tiles_blocksLayout`), and a branch is left out only where the block it goes to follows (`omitted_spec`).
-/

open List Option Nat

namespace Tir.Backend.Writer

open Bytes Encodings EncodeShape.WellFormed Chunk Entry

variable {ρ : Type} {k p i : Nat}

/-! ## Fixups -/

/-- The fixup is for this bit of a section. -/
def PendingFixup.Covers (f : PendingFixup) (k i : Nat) : Prop :=
 k = f.inSection ∧ 8 * f.offset ≤ i ∧ ∃ run ∈ f.patch.runs, run.Covers (i - 8 * f.offset)

/-- Two fixups share no bit. -/
def PendingFixup.Apart (f g : PendingFixup) : Prop :=
 ∀ k i, f.Covers k i → ¬ g.Covers k i

/-- A fixup whose field is in its instruction. -/
structure PendingFixup.Fits (f : PendingFixup) : Prop where
 len : f.len ≤ 16
 exact : Exact f.patch
 apart : f.patch.runs.Pairwise FieldRun.Apart
 inside : ∀ run ∈ f.patch.runs, run.wordLo + run.width ≤ 8 * f.len

theorem PendingFixup.Fits.lt {f : PendingFixup} (h : f.Fits) (hcov : f.Covers k i) : i < 8 * (f.offset + f.len) := by
 obtain ⟨-, hlo, run, hrun, hin⟩ := hcov
 have hfit := h.inside run hrun
 have hhi := hin.2
 omega

/-- Spans one after the other between two offsets. -/
structure Ordered (spans : List (Nat × Nat)) (lo hi : Nat) : Prop where
 pairwise : spans.Pairwise fun a b => a.1 + a.2 ≤ b.1
 inside : ∀ s ∈ spans, lo ≤ s.1 ∧ s.1 + s.2 ≤ hi

variable {spans spans' : List (Nat × Nat)} {a : ρ} {entry : Entry ρ} {fmt : ObjectFormatInfo} {entries : List (Entry ρ)}
 {block : Block ρ} {next : Option Nat} {blocks : List (Block ρ)}

theorem Ordered.append {lo mid hi : Nat} (h : Ordered spans lo mid) (h' : Ordered spans' mid hi)
  (hlo : lo ≤ mid) (hhi : mid ≤ hi) : Ordered (spans ++ spans') lo hi := by
 refine ⟨pairwise_append.2 ⟨h.pairwise, h'.pairwise, fun a ha b hb => ?_⟩, fun s hs => ?_⟩
 · exact (h.inside a ha).2.trans (h'.inside b hb).1
 · rcases mem_append.1 hs with hs | hs
   · exact ⟨(h.inside s hs).1, (h.inside s hs).2.trans hhi⟩
   · exact ⟨hlo.trans (h'.inside s hs).1, (h'.inside s hs).2⟩

/-- A chunk that starts at an offset of a section claims bits of its own, and they are clear. -/
structure Chunk.Good (c : Chunk) (k p : Nat) : Prop where
 place : ∀ f ∈ c.fixups, f.inSection = k ∧ p ≤ f.offset ∧ f.offset + f.len ≤ p + c.bytes.length
 fits : ∀ f ∈ c.fixups, f.Fits
 apart : c.fixups.Pairwise PendingFixup.Apart
 clear : ∀ f ∈ c.fixups, ∀ i, f.Covers k i → byteBit c.bytes (i - 8 * p) = false
 spans : Ordered c.spans p (p + c.bytes.length)

theorem Chunk.good_plain {bytes : List Byte} {relocs : List ObjReloc} : Chunk.Good ⟨bytes, [], relocs, []⟩ k p where
 place _ hf := absurd hf not_mem_nil
 fits _ hf := absurd hf not_mem_nil
 apart := .nil
 clear _ hf := absurd hf not_mem_nil
 spans := ⟨.nil, nofun⟩

theorem Chunk.Good.append {c d : Chunk} (hc : c.Good k p) (hd : d.Good k (p + c.bytes.length)) : (c ++ d).Good k p := by
 have hlength : (c ++ d).bytes.length = c.bytes.length + d.bytes.length := length_append
 refine ⟨fun f hf => ?_, fun f hf => ?_, pairwise_append.2 ⟨hc.apart, hd.apart, fun f hf g hg j i hcov hcov' => ?_⟩,
  fun f hf i hcov => ?_, ?_⟩
 · rw [hlength]
   rcases mem_append.1 hf with hf | hf
   · obtain ⟨hk, hlo, hhi⟩ := hc.place f hf
     exact ⟨hk, hlo, by omega⟩
   · obtain ⟨hk, hlo, hhi⟩ := hd.place f hf
     exact ⟨hk, by omega, by omega⟩
 · rcases mem_append.1 hf with hf | hf
   · exact hc.fits f hf
   · exact hd.fits f hf
 · have hhi := (hc.fits f hf).lt hcov
   have hend := (hc.place f hf).2.2
   have hstart := (hd.place g hg).2.1
   have hlo := hcov'.2.1
   omega
 · rcases mem_append.1 hf with hf | hf
   · have hhi := (hc.fits f hf).lt hcov
     have hlo := hcov.2.1
     obtain ⟨-, hstart, hend⟩ := hc.place f hf
     have hbit : byteBit (c.bytes ++ d.bytes) (i - 8 * p) = byteBit c.bytes (i - 8 * p) := byteBit_append_left (by omega)
     exact hbit.trans (hc.clear f hf i hcov)
   · have hlo := hcov.2.1
     have hstart := (hd.place f hf).2.1
     have hbit : byteBit (c.bytes ++ d.bytes) (i - 8 * p) = byteBit d.bytes (i - 8 * p - 8 * c.bytes.length) :=
      byteBit_append_right (by omega)
     have hidx : i - 8 * p - 8 * c.bytes.length = i - 8 * (p + c.bytes.length) := by omega
     rw [hidx] at hbit
     exact hbit.trans (hd.clear f hf i hcov)
 · rw [hlength, ← add_assoc]
   exact hc.spans.append hd.spans (by omega) (by omega)

/-! ## Encodings -/

/-- The encoding of an operation is one the table generator writes. -/
def Op.Tabled (op : Op ρ) : Prop :=
 ∀ info, op.info = some info → ∀ spec, info.encode = some spec →
  ∀ shape ∈ spec.shapes, shape.WellFormed ∧ ∀ patch ∈ shape.patch, Exact patch

theorem encoded_spec {op : Op ρ} {e : EncodedInst} (htabled : op.Tabled) (h : op.encoded a = some e) :
  e.bytes.length ≤ 16 ∧ (∀ fixup ∈ e.fixups, Exact fixup.patch ∧ fixup.patch.runs.Pairwise FieldRun.Apart ∧
    (∀ run ∈ fixup.patch.runs, run.wordLo + run.width ≤ 8 * e.bytes.length) ∧
    ∀ run ∈ fixup.patch.runs, ∀ i, run.Covers i → byteBit e.bytes i = false) ∧
   e.fixups.Pairwise fun f g => ∀ x ∈ f.patch.runs, ∀ y ∈ g.patch.runs, x.Apart y := by
 obtain ⟨info, hinfo, h⟩ := bind_eq_some_iff.1 h
 obtain ⟨spec, hspec, h⟩ := bind_eq_some_iff.1 h
 obtain ⟨shape, hselect, hencode⟩ := bind_eq_some_iff.1 h
 obtain ⟨hshape, hexact⟩ := htabled info hinfo spec hspec shape (mem_of_find?_eq_some hselect)
 obtain ⟨word, hbytes, hword, hfixups, -⟩ := encode_spec hencode
 have hlength : e.bytes.length = shape.widthBytes := by rw [hbytes, length_leBytes]
 rw [hlength]
 refine ⟨hshape.width, fun fixup hfixup => ?_, ?_⟩
 · obtain ⟨hpatch, field, hfield, hsame, hop⟩ := hfixups fixup hfixup
   have hruns := hshape.patches _ hpatch field hfield hsame
   rw [hruns]
   have hflat : ∀ run ∈ field.runs, run ∈ shape.fields.flatMap EncodeField.runs :=
    fun run hrun => mem_flatMap.2 ⟨field, hfield, hrun⟩
   refine ⟨hexact _ hpatch, runs_apart hshape hfield, fun run hrun => hshape.inside run (hflat run hrun), fun run hrun i hcov => ?_⟩
   have hlt : i < 8 * shape.widthBytes := hcov.2.trans_le (hshape.inside run (hflat run hrun))
   rw [hbytes, byteBit_leBytes hlt]
   by_contra hbit
   rcases (hword i).1 (by simpa using hbit) with hconst | ⟨-, other, hother, bits, signed, hknown, run', hrun', hcov', -⟩
   · rw [hshape.clear run (hflat run hrun) i hcov] at hconst
     nomatch hconst
   grind [field_eq]
 · obtain ⟨after, hfields, rfl⟩ := map_eq_some_iff.1 hencode
   obtain ⟨more, hmore, hsub⟩ := fixups_sublist hfields hshape.patches
   have hapart : (shape.fields.map EncodeField.runs).Pairwise fun a b => ∀ x ∈ a, ∀ y ∈ b, x.Apart y :=
    pairwise_map.2 (pairwise_flatMap.1 hshape.apart).2
   grind

/-! ## Layouts -/

def Entry.Tabled : Entry ρ → Prop
 | .instruction op => op.Tabled
 | _ => True

theorem Chunk.good_encoded {e : EncodedInst} {info : InstrInfo} (hlen : e.bytes.length ≤ 16)
  (hfixups : ∀ fixup ∈ e.fixups, Exact fixup.patch ∧ fixup.patch.runs.Pairwise FieldRun.Apart ∧
   (∀ run ∈ fixup.patch.runs, run.wordLo + run.width ≤ 8 * e.bytes.length) ∧
   ∀ run ∈ fixup.patch.runs, ∀ i, run.Covers i → byteBit e.bytes i = false)
  (hapart : e.fixups.Pairwise fun f g => ∀ x ∈ f.patch.runs, ∀ y ∈ g.patch.runs, x.Apart y) :
  Chunk.Good ⟨e.bytes, [(p, e.bytes.length)], [],
   e.fixups.map fun fixup => ⟨k, p, e.bytes.length, info, fixup.target, fixup.patch⟩⟩ k p := by
 refine ⟨fun f hf => ?_, fun f hf => ?_, pairwise_map.2 (hapart.imp fun {f g} h j i hcov hcov' => ?_),
  fun f hf i hcov => ?_, ⟨pairwise_singleton .., fun s hs => ?_⟩⟩
 · grind
 · obtain ⟨fixup, hfixup, rfl⟩ := List.mem_map.1 hf
   obtain ⟨hexact, hruns, hinside, -⟩ := hfixups fixup hfixup
   exact ⟨hlen, hexact, hruns, hinside⟩
 · obtain ⟨-, -, x, hx, hin⟩ := hcov
   obtain ⟨-, -, y, hy, hin'⟩ := hcov'
   exact FieldRun.not_apart hin hin' (h x hx y hy)
 · obtain ⟨fixup, hfixup, rfl⟩ := List.mem_map.1 hf
   obtain ⟨-, -, run, hrun, hin⟩ := hcov
   exact (hfixups fixup hfixup).2.2.2 run hrun _ hin
 grind

theorem Entry.good (h : entry.Tabled) : (entry.chunk fmt k a p).Good k p := by
 cases entry with
 | skip => exact good_plain
 | literal kind value => exact good_plain
 | dataReloc symbol width addend => exact good_plain
 | instruction op =>
  cases hop : op.encoded a with
  | none =>
   have hchunk : (instruction op).chunk fmt k a p = ⟨[], [], [], []⟩ := by
    simp only [chunk, bytes, spans, fixups, relocs, hop]
    grind
   rw [hchunk]
   exact good_plain
  | some e =>
   obtain ⟨info, hinfo, -⟩ := bind_eq_some_iff.1 hop
   obtain ⟨hlen, hfixups, hapart⟩ := encoded_spec h hop
   have hmod : e.bytes.length % 256 = e.bytes.length := mod_eq_of_lt (by omega)
   have hchunk : (instruction op).chunk fmt k a p = ⟨e.bytes, [(p, e.bytes.length % 256)], [],
     e.fixups.map fun fixup => ⟨k, p, e.bytes.length % 256, info, fixup.target, fixup.patch⟩⟩ := by
    simp only [chunk, bytes, spans, fixups, relocs, hop, hinfo]
    rfl
   rw [hchunk, hmod]
   exact good_encoded hlen hfixups hapart

theorem layoutFrom_good (h : ∀ entry ∈ entries, entry.Tabled) :
  (layoutChunk fmt k a (layoutFrom a p entries)).Good k p := by
 induction entries generalizing p with
 | nil => exact good_plain
 | cons entry entries ih =>
  rw [layoutFrom, layoutChunk_cons]
  exact (good (h entry (.head _))).append (ih fun other hother => h other (.tail _ hother))

theorem mem_emitted (h : entry ∈ block.emitted next) : entry ∈ block.ops := by
 obtain ⟨⟨entry, i⟩, hmem, rfl⟩ := List.mem_map.1 h
 exact mem_of_getElem? (mem_zipIdx_iff_getElem?.1 (mem_filter.1 hmem).1)

theorem mem_blocksFrom {b : Block ρ × Nat} (h : b ∈ blocksFrom a p blocks) : b.1 ∈ blocks := by
 induction blocks generalizing p with
 | nil => nomatch h
 | cons block blocks ih =>
  rcases mem_cons.1 h with rfl | hrest
  · exact .head _
  · exact .tail _ (ih hrest)

/-- **The chunk of a symbol claims bits of its own.** -/
theorem blocksLayout_good
  (h : ∀ block ∈ blocks, ∀ entry ∈ block.ops, entry.Tabled) : (layoutChunk fmt k a (blocksLayout a p blocks)).Good k p := by
 induction blocks generalizing p with
 | nil => exact Chunk.good_plain
 | cons block blocks ih =>
  have hemitted : (layoutChunk fmt k a (layoutFrom a p (block.emitted (blocks.head?.map Block.id)))).Good k p :=
   layoutFrom_good fun entry hent => h block mem_cons_self entry (mem_emitted hent)
  have hrest := ih (p := p + entriesSize a (block.emitted (blocks.head?.map Block.id)))
   fun other hother => h other (.tail _ hother)
  rw [← length_layoutFrom fmt k a p] at hrest
  rw [blocksLayout, layoutChunk_append, ← length_layoutFrom fmt k a p]
  exact hemitted.append hrest

/-! ## Tiling -/

/-- Spans that follow one another without a gap from one offset to another. -/
def Tiles : List (Nat × Nat) → Nat → Nat → Prop
 | [], lo, hi => lo = hi
 | s :: spans, lo, hi => s.1 = lo ∧ Tiles spans (lo + s.2) hi

theorem Tiles.append {lo mid hi : Nat} (h : Tiles spans lo mid) (h' : Tiles spans' mid hi) :
  Tiles (spans ++ spans') lo hi := by
 induction spans generalizing lo with
 | nil =>
  obtain rfl : lo = mid := h
  exact h'
 | cons s spans ih => exact ⟨h.1, ih h.2⟩

def layoutSpans (a : ρ) (layout : List (Nat × Entry ρ)) : List (Nat × Nat) :=
 layout.flatMap fun e => e.2.spans a e.1

/-- An instruction, or what contributes nothing. -/
def Entry.Code : Entry ρ → Prop
 | .skip => True
 | .instruction _ => True
 | _ => False

theorem Entry.tiles (hcode : entry.Code) (h : entry.Tabled) :
  Tiles (entry.spans a p) p (p + (entry.bytes a).length) := by
 cases entry with
 | skip => rfl
 | literal kind value => exact hcode.elim
 | dataReloc symbol width addend => exact hcode.elim
 | instruction op =>
  rw [spans, bytes]
  cases hop : op.encoded a with
  | none => rfl
  | some e =>
   have hlen := (encoded_spec h hop).1
   exact ⟨rfl, congrArg (p + ·) (mod_eq_of_lt (by omega))⟩

theorem tiles_layoutFrom (hcode : ∀ entry ∈ entries, entry.Code)
  (h : ∀ entry ∈ entries, entry.Tabled) : Tiles (layoutSpans a (layoutFrom a p entries)) p (p + entriesSize a entries) := by
 induction entries generalizing p with
 | nil => rfl
 | cons entry entries ih =>
  have hrest := ih (p := p + (entry.bytes a).length) (fun other hother => hcode other (.tail _ hother))
   fun other hother => h other (.tail _ hother)
  have hfst := tiles (a := a) (p := p) (hcode entry (.head _)) (h entry (.head _))
  rw [add_assoc] at hrest
  exact hfst.append hrest

/-- **The spans of a symbol of instructions tile its bytes.** -/
theorem tiles_blocksLayout (hcode : ∀ block ∈ blocks, ∀ entry ∈ block.ops, entry.Code)
  (h : ∀ block ∈ blocks, ∀ entry ∈ block.ops, entry.Tabled) :
  Tiles (layoutSpans a (blocksLayout a p blocks)) p (p + blocksSize a blocks) := by
 induction blocks generalizing p with
 | nil => rfl
 | cons block blocks ih =>
  have hfst : Tiles (layoutSpans a (layoutFrom a p (block.emitted (blocks.head?.map Block.id)))) p
    (p + entriesSize a (block.emitted (blocks.head?.map Block.id))) :=
   tiles_layoutFrom (fun entry hent => hcode block mem_cons_self entry (mem_emitted hent))
    fun entry hent => h block mem_cons_self entry (mem_emitted hent)
  have hrest := ih (p := p + entriesSize a (block.emitted (blocks.head?.map Block.id)))
   (fun other hother => hcode other (.tail _ hother)) fun other hother => h other (.tail _ hother)
  rw [add_assoc] at hrest
  rw [layoutSpans, blocksLayout, flatMap_append]
  exact hfst.append hrest

/-! ## Fallthrough -/

/-- The branch found stands before operations that contribute nothing. -/
theorem fallthroughFrom_spec {next : Nat} {ops : List (Entry ρ × Nat)} (h : fallthroughFrom next ops = some i) :
  ∃ after op before, ops = after ++ (.instruction op, i) :: before ∧ (∀ e ∈ after, e.1 = .skip) ∧ op.goesTo next = true := by
 induction ops with
 | nil => nomatch h
 | cons head ops ih =>
  obtain ⟨entry, j⟩ := head
  cases entry with
  | skip =>
   obtain ⟨after, op, before, rfl, hskip, hgoes⟩ := ih h
   exact ⟨(.skip, j) :: after, op, before, rfl, forall_mem_cons.2 ⟨rfl, hskip⟩, hgoes⟩
  | literal kind value => nomatch h
  | dataReloc symbol width addend => nomatch h
  | instruction op =>
   rw [fallthroughFrom] at h
   obtain ⟨hgoes, hidx⟩ := ite_none_right_eq_some.1 h
   cases hidx
   exact ⟨[], op, ops, rfl, nofun, hgoes⟩

theorem Op.successors_of_goesTo {op : Op ρ} {next : Nat} (h : op.goesTo next = true) : op.successors = [next] := by
 rw [Op.goesTo] at h
 split at h
 · grind
 · nomatch h

theorem entriesSize_append {entries' : List (Entry ρ)} :
  entriesSize a (entries ++ entries') = entriesSize a entries + entriesSize a entries' := by
 rw [entriesSize, map_append, sum_append_nat]
 rfl

/-- **A branch that is left out goes to the next block, and only operations that contribute nothing follow it.** -/
theorem omitted_spec (h : block.omitted next = some i) :
  ∃ n op, next = some n ∧ block.ops[i]? = some (.instruction op) ∧ op.successors = [n] ∧
   entriesSize a (block.emitted next) = entriesSize a (block.ops.take i) := by
 obtain ⟨n, rfl, hfrom⟩ := bind_eq_some_iff.1 h
 obtain ⟨after, op, before, hops, hskip, hgoes⟩ := fallthroughFrom_spec hfrom
 -- The operations before the branch are kept, those after it have no bytes.
 have hzip : block.ops.zipIdx = before.reverse ++ (.instruction op, i) :: after.reverse := by
  grind
 have hpos : ∀ (j : Nat) (e : Entry ρ × Nat), block.ops.zipIdx[j]? = some e → block.ops[j]? = some e.1 ∧ e.2 = j := by
  grind
 obtain ⟨hbranch, hidx⟩ := hpos before.reverse.length (.instruction op, i) (by
  grind)
 dsimp only at hbranch hidx
 have htake : block.ops.take i = before.reverse.map Prod.fst := by
  have hmap : block.ops = block.ops.zipIdx.map Prod.fst := by rw [zipIdx_map_fst]
  rw [hmap, hzip, map_append, hidx]
  exact take_left' (length_map _)
 have hkept : before.reverse.filter (fun e => some e.2 ≠ some i) = before.reverse := by
  rw [filter_eq_self]
  intro e he
  obtain ⟨j, hj, hget⟩ := getElem_of_mem he
  have hat := hpos j e (by rw [hzip, getElem?_append_left hj, getElem?_eq_getElem hj, hget])
  grind
 have hzero : ∀ l : List (Entry ρ × Nat), (∀ e ∈ l, e.1 = .skip) → entriesSize a (l.map Prod.fst) = 0 := by
  intro l hl
  induction l with
  | nil => rfl
  | cons e l ih =>
   have hcons : entriesSize a ((e :: l).map Prod.fst) = (e.1.bytes a).length + entriesSize a (l.map Prod.fst) := rfl
   rw [hcons, hl e mem_cons_self, ih fun other hother => hl other (mem_cons_of_mem _ hother)]
   rfl
 refine ⟨n, op, rfl, by rw [hidx]; exact hbranch, Op.successors_of_goesTo hgoes, ?_⟩
 have hdropped : ((instruction op, i) :: after.reverse).filter (fun e => some e.2 ≠ some i) =
   after.reverse.filter fun e => some e.2 ≠ some i :=
  filter_cons_of_neg (by simp)
 rw [Block.emitted, h, hzip, filter_append, hkept, hdropped, map_append, entriesSize_append, htake,
  hzero (after.reverse.filter _) fun e he => hskip e (mem_reverse.1 (mem_filter.1 he).1), add_zero]

/-- **The block that a branch left out goes to starts where the branch would stand.** -/
theorem omitted_next {before after : List (Block ρ × Nat)} {start : Nat}
  (hfrom : blocksFrom a p blocks = before ++ (block, start) :: after)
  (h : block.omitted (after.head?.map fun e => e.1.id) = some i) :
  ∃ op next rest, block.ops[i]? = some (.instruction op) ∧ op.successors = [next.id] ∧
   after = (next, start + entriesSize a (block.ops.take i)) :: rest := by
 induction blocks generalizing p before with
 | nil => exact absurd (congrArg List.length hfrom) (by simp [blocksFrom])
 | cons head blocks ih =>
  rw [blocksFrom] at hfrom
  cases before with
  | cons first before => exact ih (List.cons.inj hfrom).2
  | nil =>
   obtain ⟨hhead, hrest⟩ := List.cons.inj hfrom
   cases hhead
   cases blocks with
   | nil =>
    obtain rfl : [] = after := hrest
    cases h
   | cons next blocks =>
    rw [blocksFrom] at hrest
    obtain ⟨n, op, hn, hop, hsuccessors, hsize⟩ := omitted_spec (a := a) h
    grind

end Tir.Backend.Writer
