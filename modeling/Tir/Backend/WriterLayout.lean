import Mathlib.Data.List.Flatten
import Tir.Backend.WriterField

/-!
# The layout of a symbol

What the operations of a symbol add to its section is a function of where the symbol starts: each operation
stands after the bytes of those before it (`layoutFrom`, `blocksLayout`). The walk adds exactly this
(`writeBlocks_eq`).
-/

open List Option

namespace Tir.Backend.Writer

open Bytes Encodings ObjectEmission

variable {ρ : Type}

/-! ## Layout -/

/-- The encoding of an operation under an assignment. -/
def Op.encoded (op : Op ρ) (a : ρ) : Option EncodedInst :=
 op.info.bind fun info => info.encode.bind fun spec => encodeWith (op.operands a) spec

namespace Entry

def bytes (a : ρ) : Entry ρ → List Byte
 | .skip => []
 | .literal kind value => (literalBytes kind value).getD []
 | .dataReloc _ width _ => replicate ((wordWidth width).getD 0) 0
 | .instruction op => ((op.encoded a).map EncodedInst.bytes).getD []

/-- The span an operation records at an offset. -/
def spans (a : ρ) (p : Nat) : Entry ρ → List (Nat × Nat)
 | .instruction op => (op.encoded a).toList.map fun encoded => (p, encoded.bytes.length % 256)
 | _ => []

/-- The relocation of a data word at an offset. -/
def relocs (fmt : ObjectFormatInfo) (p : Nat) : Entry ρ → List ObjReloc
 | .dataReloc symbol width addend => Option.toList do
   let symbol ← asStringAttr symbol
   let width ← wordWidth width
   let rType ← fmt.absoluteReloc width
   let addend ← asIntAttr addend
   pure ⟨p, symbol, rType, addend⟩
 | _ => []

/-- The fixups an operation leaves pending. -/
def fixups (k : Nat) (a : ρ) (p : Nat) : Entry ρ → List PendingFixup
 | .instruction op =>
  match op.info, op.encoded a with
  | some info, some encoded =>
   encoded.fixups.map fun fixup => ⟨k, p, encoded.bytes.length % 256, info, fixup.target, fixup.patch⟩
  | _, _ => []
 | _ => []

end Entry

/-- The operations, each with the offset it stands at. -/
def layoutFrom (a : ρ) : Nat → List (Entry ρ) → List (Nat × Entry ρ)
 | _, [] => []
 | p, entry :: entries => (p, entry) :: layoutFrom a (p + (entry.bytes a).length) entries

/-- The bytes of some operations. -/
def entriesSize (a : ρ) (entries : List (Entry ρ)) : Nat :=
 (entries.map fun entry => (entry.bytes a).length).sum

/-- The blocks of a symbol, each with the offset it starts at. -/
def blocksFrom (a : ρ) : Nat → List (Block ρ) → List (Block ρ × Nat)
 | _, [] => []
 | p, block :: blocks =>
  (block, p) :: blocksFrom a (p + entriesSize a (block.emitted (blocks.head?.map Block.id))) blocks

/-- The operations of a symbol, each with the offset it stands at. -/
def blocksLayout (a : ρ) : Nat → List (Block ρ) → List (Nat × Entry ρ)
 | _, [] => []
 | p, block :: blocks =>
  let emitted := block.emitted (blocks.head?.map Block.id)
  layoutFrom a p emitted ++ blocksLayout a (p + entriesSize a emitted) blocks

/-- The bytes of the blocks of a symbol. -/
def blocksSize (a : ρ) : List (Block ρ) → Nat
 | [] => 0
 | block :: blocks => entriesSize a (block.emitted (blocks.head?.map Block.id)) + blocksSize a blocks

/-! ## Chunks -/

/-- What some operations add to a section. -/
structure Chunk where
 bytes : List Byte
 spans : List (Nat × Nat)
 relocs : List ObjReloc
 fixups : List PendingFixup

instance : Append Chunk where
 append c d := ⟨c.bytes ++ d.bytes, c.spans ++ d.spans, c.relocs ++ d.relocs, c.fixups ++ d.fixups⟩

def Entry.chunk (fmt : ObjectFormatInfo) (k : Nat) (a : ρ) (p : Nat) (entry : Entry ρ) : Chunk :=
 ⟨entry.bytes a, entry.spans a p, entry.relocs fmt p, entry.fixups k a p⟩

def layoutChunk (fmt : ObjectFormatInfo) (k : Nat) (a : ρ) (layout : List (Nat × Entry ρ)) : Chunk where
 bytes := layout.flatMap fun e => e.2.bytes a
 spans := layout.flatMap fun e => e.2.spans a e.1
 relocs := layout.flatMap fun e => e.2.relocs fmt e.1
 fixups := layout.flatMap fun e => e.2.fixups k a e.1

section

variable (fmt : ObjectFormatInfo) (k : Nat) (a : ρ)

include fmt k a

theorem layoutChunk_append (l l' : List (Nat × Entry ρ)) :
  layoutChunk fmt k a (l ++ l') = layoutChunk fmt k a l ++ layoutChunk fmt k a l' := by
 simp only [layoutChunk, flatMap_append]
 rfl

theorem layoutChunk_cons (p : Nat) (entry : Entry ρ) (l : List (Nat × Entry ρ)) :
  layoutChunk fmt k a ((p, entry) :: l) = entry.chunk fmt k a p ++ layoutChunk fmt k a l := by
 rfl

theorem length_layoutFrom (p : Nat) (entries : List (Entry ρ)) :
  (layoutChunk fmt k a (layoutFrom a p entries)).bytes.length = entriesSize a entries := by
 induction entries generalizing p with
 | nil => rfl
 | cons entry entries ih =>
  have hlen : ∀ c d : Chunk, (c ++ d).bytes.length = c.bytes.length + d.bytes.length := fun c d => length_append
  rw [layoutFrom, layoutChunk_cons, hlen, ih, entriesSize, entriesSize, map_cons, sum_cons]
  rfl

theorem length_blocksLayout (p : Nat) (blocks : List (Block ρ)) :
  (layoutChunk fmt k a (blocksLayout a p blocks)).bytes.length = blocksSize a blocks := by
 induction blocks generalizing p with
 | nil => rfl
 | cons block blocks ih =>
  have hlen : ∀ c d : Chunk, (c ++ d).bytes.length = c.bytes.length + d.bytes.length := fun c d => length_append
  rw [blocksLayout, layoutChunk_append, hlen, length_layoutFrom, ih, blocksSize]

end

def ObjSection.add (s : ObjSection) (c : Chunk) : ObjSection :=
 { s with data := s.data ++ c.bytes, relocs := s.relocs ++ c.relocs, insnSpans := s.insnSpans ++ c.spans }

namespace ObjectEmission

/-- What some operations add to the emission. -/
def add (st : ObjectEmission ρ) (k : Nat) (c : Chunk) : ObjectEmission ρ :=
 { st.modify k fun s => s.add c with fixups := st.fixups ++ c.fixups }

def starting (st : ObjectEmission ρ) (starts : List (Nat × Nat)) : ObjectEmission ρ :=
 { st with blockStarts := starts.reverse ++ st.blockStarts }

variable {st : ObjectEmission ρ} {k : Nat} {c d : Chunk}

theorem add_add : (st.add k c).add k d = st.add k (c ++ d) := by
 have hmodify : ∀ sections : List ObjSection,
   (sections.modify k fun s => s.add c).modify k (fun s => s.add d) = sections.modify k fun s => s.add (c ++ d) := by
  intro sections
  rw [modify_modify_eq]
  congr 1
  funext s
  simp only [Function.comp_apply, ObjSection.add, ObjSection.mk.injEq, true_and]
  exact ⟨append_assoc .., append_assoc .., append_assoc ..⟩
 simp only [add, modify, ObjectFile.modify, hmodify, append_assoc]
 rfl

theorem add_empty : st.add k ⟨[], [], [], []⟩ = st := by
 have hid : (fun s : ObjSection => s.add ⟨[], [], [], []⟩) = id := by
  funext s
  simp [ObjSection.add]
 rw [add, modify, ObjectFile.modify, hid, modify_id, append_nil]

/-- Blocks that start after others have, and the chunk between. -/
theorem starting_starting {start : Nat × Nat} {starts : List (Nat × Nat)} :
  ((st.starting [start]).add k c).starting starts = (st.add k c).starting (start :: starts) := by
 have hstarts : starts.reverse ++ ([start].reverse ++ st.blockStarts) = (start :: starts).reverse ++ st.blockStarts := by
  simp
 exact congrArg (fun blockStarts => { st.add k c with blockStarts := blockStarts }) hstarts

theorem size_add (hk : k < st.obj.sections.length) : (st.add k c).obj.size k = st.obj.size k + c.bytes.length := by
 have hget : (st.add k c).obj.sections[k]? = st.obj.sections[k]?.map fun s => s.add c := getElem?_modify_eq ..
 have hsome := getElem?_eq_getElem hk
 rw [ObjectFile.size, ObjectFile.size, hget, hsome]
 exact length_append

end ObjectEmission

theorem mem_layoutFrom {a : ρ} {p : Nat} {entries : List (Entry ρ)} {e : Nat × Entry ρ} (h : e ∈ layoutFrom a p entries) :
  e.2 ∈ entries := by
 induction entries generalizing p with
 | nil => nomatch h
 | cons entry entries ih =>
  rcases mem_cons.1 h with rfl | hrest
  · exact .head _
  · exact .tail _ (ih hrest)

/-! ## The walk -/

variable {fmt : ObjectFormatInfo} {st st' : ObjectEmission ρ} {k : Nat}

theorem orError_eq {α : Type} {value : Option α} {error : BinaryEmitError} {a : α} (h : orError value error = .ok a) :
  value = some a := by
 cases value with
 | some b => exact congrArg some (Except.ok.inj h)
 | none => nomatch h

theorem bind_eq {α β : Type} {x : Except BinaryEmitError α} {f : α → Except BinaryEmitError β} {b : β} (h : x >>= f = .ok b) :
  ∃ a, x = .ok a ∧ f a = .ok b := by
 cases x with
 | ok a => exact ⟨a, rfl, h⟩
 | error e => nomatch h

def Entry.Written (a : ρ) : Entry ρ → Prop
 | .instruction op => (op.encoded a).isSome
 | _ => True

theorem current_eq {name : String} (h : st.currentSection = some k) : st.current name = (st, k) := by
 rw [current, h]

variable (hk : st.currentSection = some k)

include hk

/-- An operation that is written adds its chunk to the current section. -/
theorem writeEntry_eq {entry : Entry ρ} (h : writeEntry fmt entry st = .ok st') :
  entry.Written st.assignment ∧ st' = st.add k (entry.chunk fmt k st.assignment (st.obj.size k)) := by
 have hempty : ∀ bytes : List Byte, (st.modify k fun s => { s with data := s.data ++ bytes }) = st.add k ⟨bytes, [], [], []⟩ := by
  intro bytes
  simp only [ObjectEmission.add, ObjSection.add, append_nil]
  rfl
 cases entry with
 | skip =>
  cases h
  exact ⟨trivial, add_empty.symm⟩
 | literal kind value =>
  obtain ⟨bytes, hbytes, hrest⟩ := bind_eq h
  rw [current_eq hk] at hrest
  cases hrest
  refine ⟨trivial, ?_⟩
  rw [hempty, Entry.chunk, Entry.bytes, orError_eq hbytes]
  rfl
 | dataReloc symbol width addend =>
  obtain ⟨name, hname, h⟩ := bind_eq h
  obtain ⟨count, hcnt, h⟩ := bind_eq h
  obtain ⟨rType, htype, h⟩ := bind_eq h
  obtain ⟨add, hadd, h⟩ := bind_eq h
  rw [current_eq hk] at h
  cases h
  have hrelocs : (Entry.dataReloc symbol width addend : Entry ρ).relocs fmt (st.obj.size k) = [⟨st.obj.size k, name, rType, add⟩] := by
   simp only [Entry.relocs, orError_eq hname, orError_eq hcnt, orError_eq htype, orError_eq hadd, bind_eq_bind,
    bind_some]
   rfl
  refine ⟨trivial, ?_⟩
  rw [Entry.chunk, hrelocs, Entry.bytes, orError_eq hcnt]
  simp only [ObjectEmission.add, ObjSection.add, Entry.spans, Entry.fixups, append_nil]
  rfl
 | instruction op =>
  obtain ⟨info, hinfo, h⟩ := bind_eq h
  obtain ⟨spec, hspec, h⟩ := bind_eq h
  obtain ⟨encoded, hencoded, h⟩ := bind_eq h
  rw [current_eq hk] at h
  cases h
  have hop : op.encoded st.assignment = some encoded := by
   rw [Op.encoded, orError_eq hinfo, bind_some, orError_eq hspec, bind_some, orError_eq hencoded]
  refine ⟨by rw [Entry.Written, hop]; rfl, ?_⟩
  rw [Entry.chunk, Entry.bytes, Entry.spans, Entry.fixups, hop, orError_eq hinfo]
  simp only [ObjectEmission.add, ObjSection.add, Entry.relocs, append_nil]
  rfl

/-- **Operations that are written add the chunk of their layout.** -/
theorem writeEntries_eq {entries : List (Entry ρ)} (hlt : k < st.obj.sections.length)
  (h : entries.foldlM (fun st entry => writeEntry fmt entry st) st = .ok st') :
  (∀ entry ∈ entries, entry.Written st.assignment) ∧
   st' = st.add k (layoutChunk fmt k st.assignment (layoutFrom st.assignment (st.obj.size k) entries)) := by
 induction entries generalizing st with
 | nil =>
  cases h
  exact ⟨nofun, add_empty.symm⟩
 | cons entry entries ih =>
  rw [foldlM_cons] at h
  obtain ⟨middle, hstep, hrest⟩ := bind_eq h
  obtain ⟨hwritten, rfl⟩ := writeEntry_eq hk hstep
  have hk' : ∀ c, (st.add k c).currentSection = some k := fun _ => hk
  obtain ⟨hall, rfl⟩ := ih (hk' _) (hlt.trans_eq (length_modify ..).symm) hrest
  refine ⟨forall_mem_cons.2 ⟨hwritten, hall⟩, ?_⟩
  rw [add_add, layoutFrom, layoutChunk_cons, size_add hlt]
  rfl

/-- **Blocks that are written add the chunk of their layout and their starts.** -/
theorem writeBlocks_eq {blocks : List (Block ρ)} (hlt : k < st.obj.sections.length)
  (h : writeBlocks fmt k blocks st = .ok st') :
  (∀ e ∈ blocksLayout st.assignment (st.obj.size k) blocks, e.2.Written st.assignment) ∧
   st' = (st.add k (layoutChunk fmt k st.assignment (blocksLayout st.assignment (st.obj.size k) blocks))).starting
    ((blocksFrom st.assignment (st.obj.size k) blocks).map fun b => (b.1.id, b.2)) := by
 induction blocks generalizing st with
 | nil =>
  cases h
  refine ⟨nofun, ?_⟩
  exact congrArg (fun s : ObjectEmission ρ => s.starting []) add_empty.symm
 | cons block blocks ih =>
  obtain ⟨middle, hstep, hrest⟩ := bind_eq h
  let start := (block.id, st.obj.size k)
  have hk0 : (st.starting [start]).currentSection = some k := hk
  have hlt0 : k < (st.starting [start]).obj.sections.length := hlt
  obtain ⟨hwritten, rfl⟩ := writeEntries_eq hk0 hlt0 hstep
  have hlt' : ∀ c, k < ((st.starting [start]).add k c).obj.sections.length := by
   intro c
   exact hlt.trans_eq (length_modify ..).symm
  have hk' : ∀ c, ((st.starting [start]).add k c).currentSection = some k := fun _ => hk
  obtain ⟨hall, rfl⟩ := ih (hk' _) (hlt' _) hrest
  have hsize : ∀ entries, ((st.starting [start]).add k (layoutChunk fmt k st.assignment
    (layoutFrom st.assignment (st.obj.size k) entries))).obj.size k = st.obj.size k + entriesSize st.assignment entries := by
   intro entries
   rw [size_add hlt0, length_layoutFrom]
   rfl
  have hassignment : ∀ c, ((st.starting [start]).add k c).assignment = st.assignment := fun _ => rfl
  have hsize0 : (st.starting [start]).obj.size k = st.obj.size k := rfl
  have hassignment0 : (st.starting [start]).assignment = st.assignment := rfl
  rw [hsize0, hassignment0] at hall ⊢
  rw [hassignment0] at hwritten
  rw [hassignment, hsize] at hall ⊢
  refine ⟨fun e he => ?_, ?_⟩
  · rw [blocksLayout] at he
    rcases mem_append.1 he with he | he
    · exact hwritten _ (mem_layoutFrom he)
    · exact hall e he
  · rw [add_add, ← layoutChunk_append, blocksFrom, blocksLayout, map_cons]
    exact starting_starting

end Tir.Backend.Writer
