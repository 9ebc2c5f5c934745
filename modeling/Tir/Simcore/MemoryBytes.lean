import Mathlib.Data.List.GetD
import Tir.Basic.PointUpdates
import Tir.Simcore.Memory

/-!
# The bytes of memory

Sparse pages hold a byte for every offset of a backing (`Backing.byteAt`), and a write that goes through
sets the bytes of its spans in order (`Memory.byte_write`), whatever pages it makes on the way.
-/

open List Option Function Nat

namespace Tir.Simcore

open Tir.Bytes (Byte)

/-! ## One backing -/

/-- A byte of a backing; a page that is not there holds zeros. -/
def Backing.byteAt (backing : Backing) (offset : Nat) : Byte :=
 match backing.pages (offset / memoryPageSize) with
 | some page => page (offset % memoryPageSize)
 | none => 0

theorem Backing.byteAt_update (backing : Backing) (number : Nat) (page : Nat → Byte) (i : Nat) :
  Backing.byteAt { backing with pages := update backing.pages number (some page) } i =
   if i / memoryPageSize = number then page (i % memoryPageSize) else backing.byteAt i := by
 unfold Backing.byteAt
 by_cases hpage : i / memoryPageSize = number
 · simp_all
 grind

/-- The page that a write starts from. -/
theorem Backing.getD_page (backing : Backing) {number i : Nat} (h : i / memoryPageSize = number) :
  ((backing.pages number).getD fun _ => 0) (i % memoryPageSize) = backing.byteAt i := by
 unfold Backing.byteAt
 rw [h]
 cases backing.pages number with
 | none => rfl
 | some page => rfl

/-- The turn of `write_backing` that stays on one page. -/
def writePage (backing : Backing) (offset : Nat) (bytes : List Byte) : Backing :=
 if bytes.any (· != 0) || (backing.pages (offset / memoryPageSize)).isSome then
  { backing with
    pages := update backing.pages (offset / memoryPageSize)
     (some (overwritePage ((backing.pages (offset / memoryPageSize)).getD fun _ => 0)
      (offset % memoryPageSize) bytes)) }
 else backing

theorem writeBacking_nil (backing : Backing) (offset : Nat) : writeBacking backing offset [] = backing := by
 rw [writeBacking, if_pos rfl]

theorem writeBacking_turn (backing : Backing) (offset : Nat) {source : List Byte} (h : source ≠ []) :
  writeBacking backing offset source =
   writeBacking (writePage backing offset (source.take (memoryPageSize - offset % memoryPageSize)))
    (offset + (source.take (memoryPageSize - offset % memoryPageSize)).length)
    (source.drop (memoryPageSize - offset % memoryPageSize)) := by
 rw [writeBacking, if_neg h]
 rfl

theorem getD_eq_zero_of_any_eq_false {bytes : List Byte} (h : bytes.any (· != 0) = false) (i : Nat) :
  bytes.getD i 0 = 0 := by
 rw [getD_eq_getElem?_getD]
 cases hbyte : bytes[i]? with
 | none => rfl
 | some byte =>
  have hin : byte ∈ bytes := mem_of_getElem? hbyte
  have hzero := List.any_eq_false.1 h byte hin
  simpa using hzero

theorem byteAt_writePage (backing : Backing) (offset : Nat) {bytes : List Byte}
  (hfits : offset % memoryPageSize + bytes.length ≤ memoryPageSize) (i : Nat) :
  (writePage backing offset bytes).byteAt i =
   if i < offset then backing.byteAt i else bytes.getD (i - offset) (backing.byteAt i) := by
 have hoff := div_add_mod offset memoryPageSize
 have hi := div_add_mod i memoryPageSize
 by_cases hpage : i / memoryPageSize = offset / memoryPageSize
 · -- on the page written, offsets compare as they do in the backing
   rw [hpage] at hi
   have hbef : i < offset ↔ i % memoryPageSize < offset % memoryPageSize := by omega
   have hsub : i - offset = i % memoryPageSize - offset % memoryPageSize := by omega
   unfold writePage
   split
   · rw [Backing.byteAt_update, if_pos hpage, overwritePage, backing.getD_page hpage, hsub]
     exact if_congr hbef.symm rfl rfl
   · rename_i hskip
     rw [Bool.or_eq_true, not_or, Bool.not_eq_true, isSome_iff_ne_none, not_ne_iff] at hskip
     have hzero : backing.byteAt i = 0 := by
      unfold Backing.byteAt
      rw [hpage, hskip.2]
     rw [hzero, getD_eq_zero_of_any_eq_false hskip.1, ite_self]
 · -- off the page written nothing changes
   have hother : (writePage backing offset bytes).byteAt i = backing.byteAt i := by
    unfold writePage
    split
    · rw [Backing.byteAt_update, if_neg hpage]
    · rfl
   rw [hother]
   split
   · rfl
   · rename_i hge
     have hbeyond : bytes.length ≤ i - offset := by
      have hless : offset / memoryPageSize < i / memoryPageSize :=
       lt_of_le_of_ne (Nat.div_le_div_right (not_lt.1 hge)) (Ne.symm hpage)
      have hnext := Nat.mul_le_mul_left memoryPageSize hless
      grind
     rw [getD_eq_default _ _ hbeyond]

/-- **A write over a backing sets the bytes from its offset on.** -/
theorem byteAt_writeBacking (backing : Backing) (offset : Nat) (source : List Byte) (i : Nat) :
  (writeBacking backing offset source).byteAt i =
   if i < offset then backing.byteAt i else source.getD (i - offset) (backing.byteAt i) := by
 -- strong induction on what is left to write
 induction hn : source.length using Nat.strong_induction_on generalizing backing offset source with
 | _ n ih =>
  by_cases hempty : source = []
  · subst hempty
    rw [writeBacking_nil, getD_nil, ite_self]
  · have hpage : offset % memoryPageSize < memoryPageSize := mod_lt _ (by decide)
    have hpos : 0 < source.length := length_pos_of_ne_nil hempty
    generalize hroom : memoryPageSize - offset % memoryPageSize = room
    have htake : (source.take room).length = min room source.length := length_take
    have hfits : offset % memoryPageSize + (source.take room).length ≤ memoryPageSize := by omega
    have hshorter : (source.drop room).length < n := by
     rw [length_drop]
     omega
    rw [writeBacking_turn backing offset hempty, hroom, ih _ hshorter _ _ _ rfl, byteAt_writePage backing offset hfits]
    by_cases hbef : i < offset
    · rw [if_pos hbef, if_pos hbef, if_pos (hbef.trans_le (Nat.le_add_right _ _))]
    · rw [if_neg hbef, if_neg hbef]
      by_cases hchunk : i < offset + (source.take room).length
      · have hin : i - offset < room := by omega
        rw [if_pos hchunk, getD_eq_getElem?_getD, getD_eq_getElem?_getD, getElem?_take_of_lt hin]
      · rw [if_neg hchunk, getD_eq_default (source.take room) _ (by omega), getD_eq_getElem?_getD,
         getD_eq_getElem?_getD, getElem?_drop]
        by_cases hroom' : room ≤ source.length
        · have hidx : room + (i - (offset + (source.take room).length)) = i - offset := by omega
          rw [hidx]
        · rw [getElem?_eq_none (by omega), getElem?_eq_none (by omega)]

/-! ## Memory -/

/-- A byte of memory: a backing and an offset in it. -/
abbrev Cell := BackingId × Nat

def Span.cells (span : Span) : List Cell :=
 (List.range' span.offset span.len).map fun offset => (span.backing, offset)

namespace Memory

def byte (memory : Memory) (cell : Cell) : Byte :=
 match memory.backings cell.1 with
 | some backing => backing.byteAt cell.2
 | none => 0

theorem byte_update (memory : Memory) (id : BackingId) (backing : Backing) (cell : Cell) :
  byte { memory with backings := update memory.backings id (some backing) } cell =
   if cell.1 = id then backing.byteAt cell.2 else memory.byte cell := by
 unfold byte
 by_cases hcell : cell.1 = id
 · grind
 grind

/-- One span takes the front of the source. -/
theorem byte_writeSpan (memory : Memory) {span : Span} {backing : Backing}
  (hbacking : memory.backings span.backing = some backing) (source : List Byte) : byte { memory with
    backings := update memory.backings span.backing
     (some (writeBacking backing span.offset (source.take span.len))) } =
   putAll (span.cells.zip (source.take span.len)) memory.byte := by
 funext cell
 rw [byte_update]
 obtain ⟨id, offset⟩ := cell
 by_cases hid : id = span.backing
 · subst hid
   have hhere : memory.byte (span.backing, offset) = backing.byteAt offset := by
    unfold byte
    rw [hbacking]
   have hpoint : Injective fun offset : Nat => (span.backing, offset) := fun a b h => (Prod.mk.inj h).2
   have hput := putAll_range' hpoint (source.take span.len) span.offset span.len memory.byte offset
   rw [take_take, min_self, hhere] at hput
   rw [if_pos rfl, byteAt_writeBacking]
   exact hput.symm
 · rw [if_neg hid, putAll_of_forall_ne]
   intro update hin
   obtain ⟨offset', -, hcell⟩ := List.mem_map.1 (of_mem_zip hin).1
   grind

/-- **Bytes written over spans are set one span after another.** -/
theorem byte_writeSpans {memory memory' : Memory} {spans : List Span} {source : List Byte}
  (h : memory.writeSpans spans source = some memory') :
  memory'.byte = putAll ((spans.flatMap Span.cells).zip source) memory.byte := by
 induction spans generalizing memory source with
 | nil =>
  cases h
  rfl
 | cons span spans ih =>
  obtain ⟨backing, hbacking, hrest⟩ := bind_eq_some_iff.1 h
  have hlen : span.cells.length = span.len := by
   rw [Span.cells, length_map, length_range']
  rw [ih hrest, byte_writeSpan memory hbacking, ← putAll_append, flatMap_cons, zip_append_left, hlen]

/-- The cells a write of so many bytes covers, in the order of its bytes. -/
def cells (space : AddressSpace) (address size : Nat) : List Cell :=
 match resolve space address size .write with
 | .ok spans => spans.flatMap Span.cells
 | .error _ => []

/-- **A write that goes through sets the bytes of its cells.** -/
theorem byte_write {memory memory' : Memory} {space : AddressSpace} {address : Nat} {source : List Byte}
  (h : memory.write space address source = some (.ok memory')) :
  memory'.byte = putAll ((cells space address source.length).zip source) memory.byte := by
 unfold write at h
 unfold cells
 split at h
 · cases some.inj h
 · rename_i spans hspans
   obtain ⟨written, hwritten, hmemo⟩ := map_eq_some_iff.1 h
   cases hmemo
   rw [hspans]
   exact byte_writeSpans hwritten

/-- A write fails only where the check of it does. -/
theorem write_ne_error {space : AddressSpace} {address : Nat} {source : List Byte}
  (h : validate space address source.length .write = .ok ()) (memory : Memory) (error : MemoryError) :
  memory.write space address source ≠ some (.error error) := by
 unfold validate at h
 unfold write
 intro hwrite
 split at hwrite
 · rename_i e hresolve
   rw [hresolve] at h
   cases h
 simp_all

/-- A write keeps the identities of the backings. -/
theorem keeps_of_writeSpans {memory memory' : Memory} {spans : List Span} {source : List Byte}
  (h : memory.writeSpans spans source = some memory') : memory'.nextBackingId = memory.nextBackingId ∧
   ∀ other, memory.backings other = none → memory'.backings other = none := by
 induction spans generalizing memory source with
 | nil =>
  cases h
  exact ⟨rfl, fun _ hnone => hnone⟩
 | cons span spans ih =>
  obtain ⟨backing, hbacking, hrest⟩ := bind_eq_some_iff.1 h
  obtain ⟨hnext, hbackings⟩ := ih hrest
  refine ⟨hnext, fun other hnone => hbackings other ?_⟩
  have hne : other ≠ span.backing := by
   grind
  exact (update_of_ne hne _ _).trans hnone

theorem keeps_of_write {memory memory' : Memory} {space : AddressSpace} {address : Nat} {source : List Byte}
  (h : memory.write space address source = some (.ok memory')) : memory'.nextBackingId = memory.nextBackingId ∧
   ∀ other, memory.backings other = none → memory'.backings other = none := by
 unfold write at h
 split at h
 · cases some.inj h
 · obtain ⟨written, hwritten, hmemo⟩ := map_eq_some_iff.1 h
   grind [keeps_of_writeSpans]

/-- Identities that are not given out yet have no backing. -/
def Fresh (memory : Memory) : Prop :=
 ∀ other, memory.nextBackingId ≤ other → memory.backings other = none

variable {memory memory' : Memory} {size : Nat} {id : BackingId} (hfresh : memory.Fresh)
  (h : memory.createBacking size = .ok (id, memory'))

include hfresh h

theorem fresh_createBacking
  : memory'.Fresh := by
 unfold createBacking checkedAdd at h
 split at h
 · nomatch h
 · split at h
   · nomatch h
   · rename_i next hnext
     split at hnext
     · cases hnext
       obtain ⟨-, rfl⟩ := Prod.mk.inj (Except.ok.inj h)
       intro other hother
       have hne : other ≠ memory.nextBackingId := ne_of_gt hother
       exact (update_of_ne hne _ _).trans (hfresh other (le_of_succ_le hother))
     · nomatch hnext

/-- A new backing holds zeros, as did its identity. -/
theorem byte_createBacking
  : memory'.byte = memory.byte := by
 unfold createBacking at h
 split at h
 · nomatch h
 · split at h
   · nomatch h
   · cases h
     funext cell
     unfold byte
     dsimp only
     by_cases hcell : cell.1 = memory.nextBackingId
     · rw [hcell, update_self, hfresh _ le_rfl]
       rfl
     · rw [update_of_ne hcell]

end Memory

end Tir.Simcore
