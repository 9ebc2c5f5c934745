import Tir.Simcore.MappingRanges

/-!
# Guest memory is a map of bytes

A memory and one address space over it, through any sequence of calls. Addresses name backing bytes, several
addresses the same one, and a byte is what was last written to it. `Guest.byte_map` says of every state that is
reached which calls succeed and what they change.
-/

open List Option Function Nat

namespace Tir.Simcore

open Tir.Bytes (Byte)

/-! ## Calls -/

abbrev U64 := Fin (2 ^ 64)

inductive GuestCall where
 | createBacking (size : U64)
 | map (address size : U64) (backing : BackingId) (backingOffset : U64) (permissions : Permissions)
 | protect (address size : U64) (permissions : Permissions)
 | unmap (address size : U64)
 | read (address size : U64)
 | fetch (address size : U64)
 | write (address : U64) (source : List Byte)

inductive GuestReply where
 | created (id : BackingId)
 | done
 | bytes (bytes : List Byte)
 | failed (error : MemoryError)

def GuestReply.isFailed : GuestReply → Bool
 | .failed _ => true
 | _ => false

structure Guest where
 memory : Memory
 space : AddressSpace

namespace Guest

def new : Guest :=
 ⟨.new, .new⟩

/-- The guest after a change of its mappings. -/
def remap (guest : Guest) : Except MemoryError AddressSpace → GuestReply × Guest
 | .error e => (.failed e, guest)
 | .ok space => (.done, { guest with space := space })

def answer (guest : Guest) : Except MemoryError (List Byte) → GuestReply × Guest
 | .error e => (.failed e, guest)
 | .ok bytes => (.bytes bytes, guest)

/-- A call on the memory and the address space; `none` is a panic. -/
def call (guest : Guest) : GuestCall → Option (GuestReply × Guest)
 | .createBacking size => match guest.memory.createBacking size with
   | .error e => some (.failed e, guest)
   | .ok (id, memory) => some (.created id, { guest with memory := memory })
 | .map address size backing backingOffset permissions =>
  some (guest.remap (guest.memory.map guest.space address size backing backingOffset permissions))
 | .protect address size permissions => some (guest.remap (Memory.protect guest.space address size permissions))
 | .unmap address size => some (guest.remap (Memory.unmap guest.space address size))
 | .read address size => (guest.memory.read guest.space address size).map guest.answer
 | .fetch address size => (guest.memory.fetch guest.space address size).map guest.answer
 | .write address source => (guest.memory.write guest.space address source).map fun
   | .error e => (.failed e, guest)
   | .ok memory => (.done, { guest with memory := memory })

/-! ## What calls say -/

/-- An address names a backing byte, with permissions. -/
def Gives (guest : Guest) (address : Nat) (cell : Cell) (permissions : Permissions) : Prop :=
 ∃ entry ∈ guest.space.mappings.entries, Entry.Covers entry address ∧ Entry.cell entry address = cell ∧ entry.2.permissions = permissions

/-- A range of addresses. -/
def InRange (address size x : Nat) : Prop :=
 address ≤ x ∧ x < address + size

/-- Every byte of a range is mapped with a permission. -/
def Allows (guest : Guest) (permission : Permissions) (address size : Nat) : Prop :=
 ∀ x, InRange address size x → ∃ cell permissions, guest.Gives x cell permissions ∧ permissions.contains permission = true

/-- What a call touches is there, and it has the permissions it needs. -/
def Touches (guest : Guest) : GuestCall → Prop
 | .createBacking _ => True
 | .map address size backing backingOffset _ => address.val + size < 2 ^ 64 ∧
   (∃ found, guest.memory.backings backing = some found ∧ backingOffset.val + size ≤ found.size) ∧
    ∀ x, InRange address size x → ∀ cell permissions, ¬guest.Gives x cell permissions
 | .protect address size _ | .unmap address size => ∀ x, InRange address size x → ∃ cell permissions, guest.Gives x cell permissions
 | .read address size => guest.Allows .read address size
 | .fetch address size => guest.Allows .execute address size
 | .write address source => guest.Allows .write address source.length

/-- What changes mappings or makes a backing has a range of its own, and an identity left to take. -/
def Granted (guest : Guest) : GuestCall → Prop
 | .createBacking size => 0 < size.val ∧ guest.memory.nextBackingId + 1 < 2 ^ 64
 | .map _ size _ _ _ | .protect _ size _ | .unmap _ size => 0 < size.val ∧ guest.space.generation + 1 < 2 ^ 64
 | .read _ _ | .fetch _ _ | .write _ _ => True

/-- The bytes of an access, in order. -/
def Reads (guest : Guest) (address size : Nat) (bytes : List Byte) : Prop :=
 bytes.length = size ∧ ∀ i byte, bytes[i]? = some byte →
  ∃ cell permissions, guest.Gives (address + i) cell permissions ∧ byte = guest.memory.byte cell

/-- What a call that succeeds changes. -/
def After (guest : Guest) : GuestCall → GuestReply → Guest → Prop
 | .createBacking _, reply, guest' => guest'.space = guest.space ∧ guest'.memory.byte = guest.memory.byte ∧
   ∃ id, reply = .created id ∧ guest.memory.backings id = none
 | .map address size backing backingOffset permissions, _, guest' => guest'.memory = guest.memory ∧
   ∀ x cell given, guest'.Gives x cell given ↔
    (InRange address size x ∧ cell = (backing, backingOffset + (x - address)) ∧ given = permissions) ∨
     (¬InRange address size x ∧ guest.Gives x cell given)
 | .protect address size permissions, _, guest' => guest'.memory = guest.memory ∧
   ∀ x cell given, guest'.Gives x cell given ↔
    (InRange address size x ∧ given = permissions ∧ ∃ before, guest.Gives x cell before) ∨
     (¬InRange address size x ∧ guest.Gives x cell given)
 | .unmap address size, _, guest' => guest'.memory = guest.memory ∧
   ∀ x cell given, guest'.Gives x cell given ↔ ¬InRange address size x ∧ guest.Gives x cell given
 | .read address size, reply, guest' => guest' = guest ∧ ∃ bytes, reply = .bytes bytes ∧ guest.Reads address size bytes
 | .fetch address size, reply, guest' => guest' = guest ∧ ∃ bytes, reply = .bytes bytes ∧ guest.Reads address size bytes
 | .write _ _, _, guest' => guest'.space = guest.space

/-- The backing bytes a call writes, in order. -/
def written (guest : Guest) : GuestCall → GuestReply → List (Cell × Byte)
 | .write address source, .done => ((List.range' address source.length).filterMap guest.space.mappings.cellAt).zip source
 | _, _ => []

/-! ## Runs -/

/-- The states that calls reach, with the bytes written on the way. -/
inductive Run : Guest → List (Cell × Byte) → Prop where
 | new : Run .new []
 | step {guest guest' : Guest} {history : List (Cell × Byte)} {call : GuestCall} {reply : GuestReply} :
   Run guest history → guest.call call = some (reply, guest') → Run guest' (history ++ guest.written call reply)

/-- Mappings lie apart and inside their backings. -/
structure Sound (guest : Guest) : Prop where
 apart : guest.space.mappings.Apart
 bounded : ∀ entry ∈ guest.space.mappings.entries, entry.2.stop < 2 ^ 64
 inside : ∀ entry ∈ guest.space.mappings.entries, ∃ backing, guest.memory.backings entry.2.backing = some backing ∧
  entry.2.backingOffset + (entry.2.stop - entry.1) ≤ backing.size
 sized : ∀ id backing, guest.memory.backings id = some backing → backing.size < 2 ^ 64
 fresh : guest.memory.Fresh

end Guest

/-! ## Backing bytes -/

theorem page_add {offset i : Nat} (h : offset % memoryPageSize + i < memoryPageSize) :
  (offset + i) / memoryPageSize = offset / memoryPageSize ∧ (offset + i) % memoryPageSize = offset % memoryPageSize + i := by
 have hsum := div_add_mod offset memoryPageSize
 have hnum : (offset + i) / memoryPageSize = offset / memoryPageSize :=
  Nat.div_eq_of_lt_le (by rw [mul_comm]; omega) (by rw [succ_mul, mul_comm]; omega)
 have hrest := div_add_mod (offset + i) memoryPageSize
 grind

/-- Reading a backing page by page reads its bytes. -/
theorem readBacking_eq (backing : Backing) (offset len : Nat) :
  readBacking backing offset len = (List.range' offset len).map backing.byteAt := by
 induction hn : len using Nat.strong_induction_on generalizing offset len with
 | _ n ih =>
  subst hn
  rw [readBacking]
  split
  · grind
  · rename_i hpos
    dsimp only
    have hpage : offset % memoryPageSize < memoryPageSize := mod_lt _ (by decide)
    generalize hcnt : min (memoryPageSize - offset % memoryPageSize) len = count
    have hsplit : List.range' offset len = List.range' offset count ++ List.range' (offset + count) (len - count) := by
     grind
    rw [ih (len - count) (by omega) _ _ rfl, hsplit, map_append]
    congr 1
    rw [range'_eq_map_range, @range'_eq_map_range offset, List.map_map]
    split
    · rename_i page hfound
      rw [List.map_map]
      refine map_congr_left fun i hi => ?_
      have hlt := mem_range.1 hi
      obtain ⟨hnum, hoff⟩ := @page_add offset i (by omega)
      rw [comp_apply, comp_apply, Backing.byteAt, hnum, hoff, hfound]
    · rename_i hmissing
      refine ext_getElem (by simp) fun i hi hi' => ?_
      rw [length_replicate] at hi
      obtain ⟨hnum, hoff⟩ := @page_add offset i (by omega)
      rw [getElem_replicate, getElem_map, getElem_range, comp_apply, Backing.byteAt, hnum, hmissing]

theorem size_writeBacking (backing : Backing) (offset : Nat) (source : List Byte) : (writeBacking backing offset source).size = backing.size := by
 induction hn : source.length using Nat.strong_induction_on generalizing backing offset source with
 | _ n ih =>
  by_cases hempty : source = []
  · rw [hempty, writeBacking_nil]
  · have hpage : offset % memoryPageSize < memoryPageSize := mod_lt _ (by decide)
    have hpos : 0 < source.length := length_pos_of_ne_nil hempty
    have hshorter : (source.drop (memoryPageSize - offset % memoryPageSize)).length < n := by
     grind
    rw [writeBacking_turn backing offset hempty, ih _ hshorter _ _ _ rfl, writePage]
    split <;> rfl

namespace Memory

variable {memory memory' : Memory} {spans : List Span} {source : List Byte}

/-- Spans of backings that are there can be read. -/
theorem readSpans_eq (h : ∀ span ∈ spans, ∃ backing, memory.backings span.backing = some backing) :
  memory.readSpans spans = some ((spans.flatMap Span.cells).map memory.byte) := by
 induction spans with
 | nil => rfl
 | cons span spans ih =>
  obtain ⟨⟨backing, hbacking⟩, hspans⟩ := forall_mem_cons.1 h
  have hcells : span.cells.map memory.byte = readBacking backing span.offset span.len := by
   rw [Span.cells, List.map_map, readBacking_eq]
   refine map_congr_left fun offset _ => ?_
   rw [comp_apply, byte, hbacking]
  rw [readSpans, hbacking, ih hspans, flatMap_cons, map_append, hcells]
  rfl

/-- A write keeps which backings there are, and their sizes. -/
theorem sizes_of_writeSpans (h : memory.writeSpans spans source = some memory') (id : BackingId) :
  (memory'.backings id).map Backing.size = (memory.backings id).map Backing.size := by
 induction spans generalizing memory source with
 | nil =>
  cases h
  rfl
 | cons span spans ih =>
  obtain ⟨backing, hbacking, hrest⟩ := bind_eq_some_iff.1 h
  rw [ih hrest]
  by_cases hid : id = span.backing
  · grind [size_writeBacking]
  · simp [update_of_ne hid]

theorem exists_writeSpans (h : ∀ span ∈ spans, ∃ backing, memory.backings span.backing = some backing) (source : List Byte) :
  ∃ memory', memory.writeSpans spans source = some memory' := by
 induction spans generalizing memory source with
 | nil => exact ⟨memory, rfl⟩
 | cons span spans ih =>
  obtain ⟨⟨backing, hbacking⟩, hspans⟩ := forall_mem_cons.1 h
  have hkept : ∀ other ∈ spans, ∃ found, update memory.backings span.backing
    (some (writeBacking backing span.offset (source.take span.len))) other.backing = some found := by
   intro other hother
   by_cases hid : other.backing = span.backing
   · grind
   grind
  obtain ⟨memory', hmemo⟩ := @ih
   { memory with
     backings := update memory.backings span.backing (some (writeBacking backing span.offset (source.take span.len))) }
   hkept (source.drop span.len)
  refine ⟨memory', ?_⟩
  rw [writeSpans, hbacking]
  exact hmemo

end Memory

/-! ## Calls, one by one -/

theorem checkedEnd_eq {address size : Nat} (access : MemoryAccess) (hsize : 0 < size) (hrng : address + size < 2 ^ 64) :
  checkedEnd address size access = .ok (address + size) := by
 rw [checkedEnd, if_neg (by omega), checkedAdd, if_pos hrng]

theorem checkedEnd_error {address size : Nat} (access : MemoryAccess) (h : ¬(0 < size ∧ address + size < 2 ^ 64)) :
  ∃ e, checkedEnd address size access = .error e := by
 rw [checkedEnd, checkedAdd]
 split
 · exact ⟨_, rfl⟩
 · rw [if_neg (by omega)]
   exact ⟨_, rfl⟩

theorem nextGeneration_eq {space : AddressSpace} {address : Nat} {access : MemoryAccess} (h : space.generation + 1 < 2 ^ 64) :
  space.nextGeneration address access = .ok (space.generation + 1) := by
 rw [AddressSpace.nextGeneration, checkedAdd, if_pos h]

theorem nextGeneration_error {space : AddressSpace} {address : Nat} {access : MemoryAccess} (h : ¬space.generation + 1 < 2 ^ 64) :
  ∃ e, space.nextGeneration address access = .error e := by
 rw [AddressSpace.nextGeneration, checkedAdd, if_neg h]
 exact ⟨_, rfl⟩

namespace Guest

variable {guest guest' : Guest} {call : GuestCall} {reply : GuestReply}

/-- How a call ends: whether it succeeds, and what it changes. -/
structure Outcome (guest : Guest) (call : GuestCall) (reply : GuestReply) (guest' : Guest) : Prop where
 succeeds : reply.isFailed = false ↔ guest.Touches call ∧ guest.Granted call
 keeps : reply.isFailed = true → guest' = guest
 after : reply.isFailed = false → guest.After call reply guest'
 bytes : guest'.memory.byte = putAll (guest.written call reply) guest.memory.byte
 sound : guest'.Sound

theorem Outcome.failed {e : MemoryError} (h : guest.Sound) (hfails : ¬(guest.Touches call ∧ guest.Granted call)) :
  guest.Outcome call (.failed e) guest where
 succeeds := ⟨nofun, fun hok => absurd hok hfails⟩
 keeps _ := rfl
 after hok := absurd hok nofun
 bytes := by cases call <;> rfl
 sound := h

theorem sound_new : new.Sound where
 apart := ⟨nofun, nofun⟩
 bounded := nofun
 inside := nofun
 sized := nofun
 fresh := fun _ _ => rfl

theorem mapped_iff {address : Nat} : guest.space.mappings.Mapped address ↔ ∃ cell permissions, guest.Gives address cell permissions := by
 constructor
 · rintro ⟨entry, hent, hcov⟩
   exact ⟨_, _, entry, hent, hcov, rfl, rfl⟩
 · rintro ⟨cell, permissions, entry, hent, hcov, -, -⟩
   exact ⟨entry, hent, hcov⟩

theorem allowed_iff {address : Nat} {permission : Permissions} : guest.space.mappings.Allowed permission address ↔
  ∃ cell permissions, guest.Gives address cell permissions ∧ permissions.contains permission = true := by
 constructor
 · rintro ⟨entry, hent, hcov, hcont⟩
   exact ⟨_, _, ⟨entry, hent, hcov, rfl, rfl⟩, hcont⟩
 · rintro ⟨cell, permissions, ⟨entry, hent, hcov, -, rfl⟩, hcont⟩
   exact ⟨entry, hent, hcov, hcont⟩

theorem gives_of_cellAt {address : Nat} {cell : Cell} (h : guest.Sound) (hcell : guest.space.mappings.cellAt address = some cell) :
  ∃ permissions, guest.Gives address cell permissions := by
 obtain ⟨entry, hent, hcov, rfl⟩ := h.apart.cellAt_iff.1 hcell
 exact ⟨_, entry, hent, hcov, rfl, rfl⟩

/-! ### Accesses -/

section

variable (h : guest.Sound)

include h

/-- An access resolves exactly when every byte of it is allowed, to the backing bytes of its addresses. -/
theorem Sound.resolve {access : MemoryAccess} {permission : Permissions} (hperm : access.permission = some permission)
  (address size : Nat) :
  ((∃ spans, Memory.resolve guest.space address size access = .ok spans) ↔ guest.Allows permission address size) ∧
    ∀ spans, Memory.resolve guest.space address size access = .ok spans →
     (spans.flatMap Span.cells).map some = (List.range' address size).map guest.space.mappings.cellAt ∧
      ∀ span ∈ spans, ∃ backing, guest.memory.backings span.backing = some backing := by
 have hallows : guest.Allows permission address size ↔
   ∀ x, address ≤ x → x < address + size → guest.space.mappings.Allowed permission x := by
  simp [Allows, InRange, allowed_iff]
 rw [Memory.resolve, hperm]
 dsimp only
 by_cases hzero : size = 0
 · simp_all
 · rw [if_neg hzero]
   by_cases hrng : address + size < 2 ^ 64
   · rw [checkedEnd_eq access (Nat.pos_of_ne_zero hzero) hrng]
     refine ⟨(exists_resolveFrom h.apart access permission address (address + size)).trans hallows.symm, fun spans hspans => ?_⟩
     obtain ⟨hcells, hbackings⟩ := cells_resolveFrom h.apart hspans
     rw [Nat.add_sub_cancel_left] at hcells
     refine ⟨hcells, fun span hspan => ?_⟩
     obtain ⟨entry, hent, hsame⟩ := hbackings span hspan
     obtain ⟨backing, hbacking, -⟩ := h.inside entry hent
     exact ⟨backing, hsame ▸ hbacking⟩
   · obtain ⟨e, he⟩ := @checkedEnd_error address size access fun hok => hrng hok.2
     rw [he]
     refine ⟨⟨nofun, fun hall => ?_⟩, nofun⟩
     -- the last byte of the range is past every mapping
     obtain ⟨cell, permissions, ⟨entry, hent, hcov, -, -⟩, -⟩ := hall (address + size - 1) ⟨by omega, by omega⟩
     have hbound := h.bounded entry hent
     have hlast := hcov.2
     omega

/-- What is read at addresses are the bytes they name. -/
theorem Sound.reads {address size : Nat} {spans : List Span}
  (hcells : (spans.flatMap Span.cells).map some = (List.range' address size).map guest.space.mappings.cellAt) :
  guest.Reads address size ((spans.flatMap Span.cells).map guest.memory.byte) := by
 have hlen := congrArg List.length hcells
 simp only [length_map, length_range'] at hlen
 refine ⟨by rw [length_map, hlen], fun i byte hbyte => ?_⟩
 rw [getElem?_map, map_eq_some_iff] at hbyte
 obtain ⟨cell, hcell, rfl⟩ := hbyte
 have hi := congrArg (fun cells => cells[i]?) hcells
 have hlt := (List.getElem?_eq_some_iff.1 hcell).1
 simp only [getElem?_map, hcell, map_some] at hi
 rw [getElem?_range' (by omega), map_some, one_mul] at hi
 obtain ⟨permissions, hgives⟩ := gives_of_cellAt h (some.inj hi).symm
 exact ⟨cell, permissions, hgives, rfl⟩

/-- An access is refused, or reads the bytes its addresses name. -/
theorem Sound.copyOut {access : MemoryAccess} {permission : Permissions} (hperm : access.permission = some permission)
  (address size : Nat) :
  (∃ e, Memory.resolve guest.space address size access = .error e ∧ ¬guest.Allows permission address size) ∨
   ∃ spans bytes, Memory.resolve guest.space address size access = .ok spans ∧ guest.memory.readSpans spans = some bytes ∧
    guest.Allows permission address size ∧ guest.Reads address size bytes := by
 obtain ⟨hok, hspans⟩ := h.resolve hperm address size
 cases hresolve : Memory.resolve guest.space address size access with
 | error e =>
  grind
 | ok spans =>
  obtain ⟨hcells, hbackings⟩ := hspans spans hresolve
  exact .inr ⟨spans, _, rfl, Memory.readSpans_eq hbackings, hok.1 ⟨spans, hresolve⟩, h.reads hcells⟩

theorem outcome_read (address size : U64) : ∃ reply guest', guest.call (.read address size) = some (reply, guest') ∧
  guest.Outcome (.read address size) reply guest' := by
 obtain ⟨e, hresolve, hrefused⟩ | ⟨spans, bytes, hresolve, hread, hallows, hreads⟩ := h.copyOut (show MemoryAccess.permission .read = some .read from rfl) address size
 · refine ⟨.failed e, guest, ?_, .failed h fun hboth => hrefused hboth.1⟩
   rw [call, Memory.read, hresolve]
   rfl
 · refine ⟨.bytes bytes, guest, ?_, ⟨⟨fun _ => ⟨hallows, trivial⟩, fun _ => rfl⟩, nofun,
    fun _ => ⟨rfl, bytes, rfl, hreads⟩, rfl, h⟩⟩
   rw [call, Memory.read, hresolve]
   simp only [hread, map_some]
   rfl

theorem outcome_fetch (address size : U64) : ∃ reply guest', guest.call (.fetch address size) = some (reply, guest') ∧
  guest.Outcome (.fetch address size) reply guest' := by
 obtain ⟨e, hresolve, hrefused⟩ | ⟨spans, bytes, hresolve, hread, hallows, hreads⟩ := h.copyOut (show MemoryAccess.permission .fetch = some .execute from rfl) address size
 · refine ⟨.failed e, guest, ?_, .failed h fun hboth => hrefused hboth.1⟩
   rw [call, Memory.fetch, hresolve]
   rfl
 · refine ⟨.bytes bytes, guest, ?_, ⟨⟨fun _ => ⟨hallows, trivial⟩, fun _ => rfl⟩, nofun,
    fun _ => ⟨rfl, bytes, rfl, hreads⟩, rfl, h⟩⟩
   rw [call, Memory.fetch, hresolve]
   simp only [hread, map_some]
   rfl

theorem outcome_write (address : U64) (source : List Byte) :
  ∃ reply guest', guest.call (.write address source) = some (reply, guest') ∧ guest.Outcome (.write address source) reply guest' := by
 obtain ⟨hok, hspans⟩ := h.resolve (show MemoryAccess.permission .write = some .write from rfl) address source.length
 cases hresolve : Memory.resolve guest.space address source.length .write with
 | error e =>
  have hfails : ¬guest.Allows .write address source.length := fun hall => by
   grind
  refine ⟨.failed e, guest, ?_, .failed h fun hboth => hfails hboth.1⟩
  rw [call, Memory.write, hresolve]
  rfl
 | ok spans =>
  obtain ⟨hcells, hbackings⟩ := hspans spans hresolve
  obtain ⟨memory', hwrite⟩ := Memory.exists_writeSpans hbackings source
  have hsizes := Memory.sizes_of_writeSpans hwrite
  obtain ⟨hnext, hnone⟩ := Memory.keeps_of_writeSpans hwrite
  have hwritten : spans.flatMap Span.cells = (List.range' address source.length).filterMap guest.space.mappings.cellAt := by
   have hfilter := congrArg (List.filterMap id) hcells
   simpa only [filterMap_map, comp_def, id_eq, filterMap_some] using hfilter
  refine ⟨.done, { guest with memory := memory' }, ?_, ⟨⟨fun _ => ⟨hok.1 ⟨spans, hresolve⟩, trivial⟩, fun _ => rfl⟩,
   nofun, fun _ => rfl, ?_, ⟨h.apart, h.bounded, fun entry hent => ?_, fun id backing hbacking => ?_, ?_⟩⟩⟩
  · rw [call, Memory.write, hresolve]
    simp [hwrite]
  · rw [written, ← hwritten]
    exact Memory.byte_writeSpans hwrite
  · obtain ⟨backing, hbacking, hfits⟩ := h.inside entry hent
    have hsize := hsizes entry.2.backing
    rw [hbacking, map_some, map_eq_some_iff] at hsize
    grind
  · have hsize := hsizes id
    rw [hbacking, map_some, eq_comm, map_eq_some_iff] at hsize
    obtain ⟨backing', hbacking', hsame⟩ := hsize
    exact hsame ▸ h.sized id backing' hbacking'
  · intro other hother
    exact hnone other (h.fresh other (hnext ▸ hother))

end

/-! ### New backings -/

theorem outcome_createBacking (h : guest.Sound) (size : U64) : ∃ reply guest', guest.call (.createBacking size) = some (reply, guest') ∧
  guest.Outcome (.createBacking size) reply guest' := by
 rw [call]
 cases hcreate : guest.memory.createBacking size with
 | error e =>
  refine ⟨.failed e, guest, rfl, .failed h fun ⟨_, hpos, hnext⟩ => ?_⟩
  rw [Memory.createBacking, if_neg (ne_of_gt hpos), checkedAdd, if_pos hnext] at hcreate
  nomatch hcreate
 | ok created =>
  obtain ⟨id, memory⟩ := created
  have hgranted : 0 < size.val ∧ guest.memory.nextBackingId + 1 < 2 ^ 64 ∧ id = guest.memory.nextBackingId ∧
    memory.backings = update guest.memory.backings guest.memory.nextBackingId (some ⟨size, fun _ => none⟩) := by
   rw [Memory.createBacking, checkedAdd] at hcreate
   split at hcreate
   · nomatch hcreate
   grind
  obtain ⟨hpos, hnext, rfl, hbackings⟩ := hgranted
  have hnone := h.fresh guest.memory.nextBackingId le_rfl
  have hbytes := Memory.byte_createBacking h.fresh hcreate
  refine ⟨_, _, rfl, ⟨⟨fun _ => ⟨trivial, hpos, hnext⟩, fun _ => rfl⟩, nofun,
   fun _ => ⟨rfl, hbytes, _, rfl, hnone⟩, hbytes,
   ⟨h.apart, h.bounded, fun entry hent => ?_, fun id backing hbacking => ?_, Memory.fresh_createBacking h.fresh hcreate⟩⟩⟩
  · obtain ⟨backing, hbacking, hfits⟩ := h.inside entry hent
    have hne : entry.2.backing ≠ guest.memory.nextBackingId := by
     grind
    simp_all
  · dsimp only at hbacking
    rw [hbackings] at hbacking
    by_cases hid : id = guest.memory.nextBackingId
    · grind
    · rw [update_of_ne hid] at hbacking
      exact h.sized id backing hbacking

/-! ### New mappings -/

section

variable (h : guest.Sound) (address size : U64) (backing : BackingId) (backingOffset : U64) (permissions : Permissions)

include h address size backing backingOffset permissions

/-- The ways a mapping is refused, and the mappings with it. -/
theorem Sound.map : (∃ e, guest.memory.map guest.space address size backing backingOffset permissions = .error e ∧
    ¬(guest.Touches (.map address size backing backingOffset permissions) ∧
      guest.Granted (.map address size backing backingOffset permissions))) ∨
   (guest.Touches (.map address size backing backingOffset permissions) ∧
    guest.Granted (.map address size backing backingOffset permissions)) ∧
    guest.memory.map guest.space address size backing backingOffset permissions = .ok ⟨guest.space.generation + 1,
     guest.space.mappings.insert address ⟨address + size, backing, backingOffset, permissions, guest.space.generation + 1⟩⟩ := by
 rw [Memory.map]
 by_cases hrng : 0 < size.val ∧ address.val + size < 2 ^ 64
 · rw [checkedEnd_eq .map hrng.1 hrng.2]
   by_cases hbackingRange : backingOffset.val + size < 2 ^ 64
   · rw [checkedEnd_eq .map hrng.1 hbackingRange]
     cases hbacking : guest.memory.backings backing with
     | none =>
      refine .inl ⟨_, rfl, fun ⟨⟨_, ⟨found, hfound, _⟩, _⟩, _⟩ => ?_⟩
      grind
     | some found =>
      dsimp only [bind, Except.bind]
      split
      · rename_i hbeyond
        refine .inl ⟨_, rfl, fun ⟨⟨_, ⟨other, hother, hfits⟩, _⟩, _⟩ => ?_⟩
        grind
      · rename_i hfits
        have hoverlap := h.apart.overlaps_iff (Nat.lt_add_of_pos_right (n := address.val) hrng.1)
        split
        · rename_i hoverlaps
          refine .inl ⟨_, rfl, fun ⟨⟨_, _, hfree⟩, _⟩ => ?_⟩
          obtain ⟨x, hle, hlt, hmapped⟩ := hoverlap.1 hoverlaps
          obtain ⟨cell, given, hgives⟩ := mapped_iff.1 hmapped
          exact hfree x ⟨hle, hlt⟩ cell given hgives
        · rename_i hapart
          by_cases hgen : guest.space.generation + 1 < 2 ^ 64
          · refine .inr ⟨⟨⟨hrng.2, ⟨found, hbacking, not_lt.1 hfits⟩, fun x hx cell given hgives => ?_⟩, hrng.1, hgen⟩, ?_⟩
            · exact hapart (hoverlap.2 ⟨x, hx.1, hx.2, mapped_iff.2 ⟨cell, given, hgives⟩⟩)
            · rw [nextGeneration_eq hgen]
              rfl
          · obtain ⟨e, he⟩ := @nextGeneration_error guest.space address .map hgen
            rw [he]
            exact .inl ⟨e, rfl, fun hboth => hgen hboth.2.2⟩
   · obtain ⟨e, he⟩ := @checkedEnd_error backingOffset size .map fun hok => hbackingRange hok.2
     rw [he]
     refine .inl ⟨e, rfl, fun ⟨⟨_, ⟨found, hfound, hfits⟩, _⟩, _⟩ => hbackingRange ?_⟩
     exact hfits.trans_lt (h.sized backing found hfound)
 · obtain ⟨e, he⟩ := @checkedEnd_error address size .map hrng
   rw [he]
   exact .inl ⟨e, rfl, fun ⟨⟨hwraps, _⟩, hpos, _⟩ => hrng ⟨hpos, hwraps⟩⟩

theorem outcome_map :
  ∃ reply guest', guest.call (.map address size backing backingOffset permissions) = some (reply, guest') ∧
   guest.Outcome (.map address size backing backingOffset permissions) reply guest' := by
 obtain ⟨e, hrefused, hfails⟩ | ⟨⟨htouches, hgranted⟩, hmapped⟩ := h.map address size backing backingOffset permissions
 · exact ⟨.failed e, guest, by rw [call, hrefused]; rfl, .failed h hfails⟩
 · obtain ⟨hwraps, ⟨found, hfound, hfits⟩, hfree⟩ := id htouches
   have hpos := hgranted.1
   generalize hnew : (⟨address + size, backing, backingOffset, permissions, guest.space.generation + 1⟩ : Mapping) = mapping at hmapped
   have hmem : ∀ other, other ∈ (guest.space.mappings.insert address mapping).entries ↔
     other = (address.val, mapping) ∨ other ∈ guest.space.mappings.entries ∧ other.1 ≠ address := fun other => Mappings.mem_insert
   have hstop : mapping.stop = address + size := by rw [← hnew]
   -- no other mapping reaches into the new range
   have hbeside : ∀ other ∈ guest.space.mappings.entries, other.2.stop ≤ address ∨ address + size ≤ other.1 := by
    intro other hother
    have hnonempty := h.apart.nonempty other hother
    by_contra hmeets
    refine hfree (max address other.1) ⟨le_max_left .., by omega⟩ _ _ ⟨other, hother, ⟨le_max_right .., by omega⟩, rfl, rfl⟩
   have hne : ∀ other ∈ guest.space.mappings.entries, other.1 ≠ address := by
    intro other hother
    have hnonempty := h.apart.nonempty other hother
    grind
   refine ⟨.done, { guest with space := ⟨_, guest.space.mappings.insert address mapping⟩ }, by rw [call, hmapped]; rfl,
    ⟨⟨fun _ => ⟨htouches, hgranted⟩, fun _ => rfl⟩, nofun, fun _ => ⟨rfl, fun x cell given => ?_⟩, rfl,
      ⟨⟨fun entry hent => ?_, fun entry hent other hother hlt => ?_⟩, fun entry hent => ?_, fun entry hent => ?_, h.sized, h.fresh⟩⟩⟩
   · constructor
     · rintro ⟨entry, hent, hcov, rfl, rfl⟩
       rcases (hmem entry).1 hent with rfl | ⟨hold, -⟩
       · obtain ⟨hle, hlt⟩ := hcov
         rw [hstop] at hlt
         refine .inl ⟨⟨hle, hlt⟩, ?_, ?_⟩
         · rw [← hnew]
           rfl
         · rw [← hnew]
       · have hside := hbeside entry hold
         refine .inr ⟨fun hin => ?_, entry, hold, hcov, rfl, rfl⟩
         have hcov' := hcov
         simp only [Entry.Covers, InRange] at hcov' hin
         omega
     · rintro (⟨⟨hle, hlt⟩, rfl, rfl⟩ | ⟨-, entry, hent, hgives⟩)
       · refine ⟨(address.val, mapping), (hmem _).2 (.inl rfl), ⟨hle, ?_⟩, ?_, ?_⟩
         · rw [hstop]
           exact hlt
         · rw [← hnew]
           rfl
         · rw [← hnew]
       · exact ⟨entry, (hmem entry).2 (.inr ⟨hent, hne entry hent⟩), hgives⟩
   · rcases (hmem entry).1 hent with rfl | ⟨hold, -⟩
     · grind
     · exact h.apart.nonempty entry hold
   · rcases (hmem entry).1 hent with rfl | ⟨hold, -⟩ <;> rcases (hmem other).1 hother with rfl | ⟨hold', -⟩
     · exact absurd hlt (lt_irrefl _)
     · have hside := hbeside other hold'
       have hnonempty := h.apart.nonempty other hold'
       grind
     · grind
     · exact h.apart.apart entry hold other hold' hlt
   · rcases (hmem entry).1 hent with rfl | ⟨hold, -⟩
     · rw [hstop]
       exact hwraps
     · exact h.bounded entry hold
   · rcases (hmem entry).1 hent with rfl | ⟨hold, -⟩
     · refine ⟨found, ?_, ?_⟩
       · grind
       grind
     · exact h.inside entry hold

end

/-! ### Ranges taken out -/

/-- The addresses of mappings a range was taken out of: the range has the new permissions, or none. -/
theorem gives_replaced {mappings' : Mappings} {affected : List Entry} {start stop generation : Nat} {permissions : Option Permissions}
  (haffected : ∀ entry, entry ∈ affected ↔ entry ∈ guest.space.mappings.entries ∧ Mappings.Reaches start stop entry)
  (hnonempty : ∀ entry ∈ guest.space.mappings.entries, entry.1 < entry.2.stop) (hrng : start < stop)
  (hmem : ∀ other, other ∈ mappings'.entries ↔ (other ∈ guest.space.mappings.entries ∧ other ∉ affected) ∨
   ∃ entry ∈ affected, other ∈ Mappings.pieces start stop generation permissions entry) (x : Nat) (cell : Cell) (given : Permissions) :
  (∃ entry ∈ mappings'.entries, Entry.Covers entry x ∧ Entry.cell entry x = cell ∧ entry.2.permissions = given) ↔
   ((start ≤ x ∧ x < stop) ∧ permissions = some given ∧ ∃ before, guest.Gives x cell before) ∨
     (¬(start ≤ x ∧ x < stop) ∧ guest.Gives x cell given) := by
 constructor
 · rintro ⟨other, hother, hcov, rfl, rfl⟩
   rcases (hmem other).1 hother with ⟨hold, hkept⟩ | ⟨entry, hent, hpiece⟩
   · refine .inr ⟨fun ⟨hle, hlt⟩ => hkept ?_, other, hold, hcov, rfl, rfl⟩
     exact (haffected other).2 ⟨hold, hrng, hnonempty other hold, hcov.1.trans_lt hlt, hle.trans_lt hcov.2⟩
   · obtain ⟨hold, hreaches⟩ := (haffected entry).1 hent
     obtain ⟨hin, hcell, hinside, houtside⟩ := hreaches.piece_cell hpiece hcov
     by_cases hx : start ≤ x ∧ x < stop
     · exact .inl ⟨hx, hinside hx, _, entry, hold, hin, hcell.symm, rfl⟩
     · exact .inr ⟨hx, entry, hold, hin, hcell.symm, (houtside (by omega)).symm⟩
 · rintro (⟨hx, rfl, before, entry, hent, hcov, rfl, -⟩ | ⟨hx, entry, hent, hcov, rfl, rfl⟩)
   · have hreaches : Mappings.Reaches start stop entry :=
      ⟨hrng, hnonempty entry hent, hcov.1.trans_lt hx.2, hx.1.trans_lt hcov.2⟩
     obtain ⟨piece, hpiece, hcov'⟩ := Mappings.exists_piece generation hcov (.inl (some_ne_none given))
     obtain ⟨-, hcell, hinside, -⟩ := hreaches.piece_cell hpiece hcov'
     grind
   · by_cases hreaches : Mappings.Reaches start stop entry
     · obtain ⟨piece, hpiece, hcov'⟩ := @Mappings.exists_piece _ _ start stop generation permissions hcov (.inr (by omega))
       obtain ⟨-, hcell, -, houtside⟩ := hreaches.piece_cell hpiece hcov'
       exact ⟨piece, (hmem piece).2 (.inr ⟨entry, (haffected entry).2 ⟨hent, hreaches⟩, hpiece⟩), hcov', hcell, houtside (by omega)⟩
     · exact ⟨entry, (hmem entry).2 (.inl ⟨hent, fun hin => hreaches ((haffected entry).1 hin).2⟩), hcov, rfl, rfl⟩

section

variable (h : guest.Sound)

include h

/-- A range is taken out of the mappings where all of it is mapped. -/
theorem Sound.replaceRange {address size : Nat} (permissions : Option Permissions) (access : MemoryAccess) (hpos : 0 < size) :
  (∃ e, guest.space.replaceRange address (address + size) permissions access = .error e ∧
    ¬((∀ x, InRange address size x → ∃ cell given, guest.Gives x cell given) ∧ guest.space.generation + 1 < 2 ^ 64)) ∨
   ((∀ x, InRange address size x → ∃ cell given, guest.Gives x cell given) ∧ guest.space.generation + 1 < 2 ^ 64) ∧
     ∃ space, guest.space.replaceRange address (address + size) permissions access = .ok space ∧
      Sound { guest with space := space } ∧ ∀ x cell given, Gives { guest with space := space } x cell given ↔
       (InRange address size x ∧ permissions = some given ∧ ∃ before, guest.Gives x cell before) ∨
        (¬InRange address size x ∧ guest.Gives x cell given) := by
 have hall : guest.space.mappings.mappedRange address (address + size) = true ↔
   ∀ x, InRange address size x → ∃ cell given, guest.Gives x cell given := by
  rw [h.apart.mappedRange_iff]
  simp [InRange, mapped_iff]
 rw [AddressSpace.replaceRange]
 split
 · rename_i hmapped
   by_cases hgen : guest.space.generation + 1 < 2 ^ 64
   · refine .inr ⟨⟨hall.1 hmapped, hgen⟩, ?_⟩
     rw [nextGeneration_eq hgen]
     generalize haffected : (guest.space.mappings.below (address + size)).filter (fun entry => decide (address < entry.2.stop)) = affected
     have hreaches : ∀ entry, entry ∈ affected ↔ entry ∈ guest.space.mappings.entries ∧ Mappings.Reaches address (address + size) entry := by
      intro entry
      rw [← haffected, Mappings.below, mem_filter, mem_filter, decide_eq_true_eq, decide_eq_true_eq]
      constructor
      · rintro ⟨⟨hent, hlt⟩, hreach⟩
        exact ⟨hent, Nat.lt_add_of_pos_right hpos, h.apart.nonempty entry hent, hlt, hreach⟩
      · rintro ⟨hent, -, -, hlt, hreach⟩
        exact ⟨⟨hent, hlt⟩, hreach⟩
     have honce : affected.Nodup := by
      have hnd : guest.space.mappings.entries.Nodup :=
       guest.space.mappings.ascending.imp fun hlt heq => absurd (heq ▸ hlt) (lt_irrefl _)
      rw [← haffected]
      exact (hnd.filter _).filter _
     obtain ⟨hapart, hmem⟩ := h.apart.replaceAll (guest.space.generation + 1) permissions honce
      fun entry hent => (hreaches entry).1 hent
     refine ⟨_, rfl, ⟨hapart, fun other hother => ?_, fun other hother => ?_, h.sized, h.fresh⟩,
      gives_replaced hreaches h.apart.nonempty (Nat.lt_add_of_pos_right hpos) hmem⟩
     · rcases (hmem other).1 hother with ⟨hold, -⟩ | ⟨entry, hent, hpiece⟩
       · exact h.bounded other hold
       · obtain ⟨hold, hreach⟩ := (hreaches entry).1 hent
         exact (hreach.piece_within hpiece).2.2.trans_lt (h.bounded entry hold)
     · rcases (hmem other).1 hother with ⟨hold, -⟩ | ⟨entry, hent, hpiece⟩
       · exact h.inside other hold
       · obtain ⟨hold, hreach⟩ := (hreaches entry).1 hent
         obtain ⟨backing, hbacking, hfits⟩ := h.inside entry hold
         obtain ⟨hsame, hwithin⟩ := hreach.piece_inside hpiece
         exact ⟨backing, hsame ▸ hbacking, hwithin.trans hfits⟩
   · obtain ⟨e, he⟩ := @nextGeneration_error guest.space address access hgen
     simp_all
 · rename_i hunmapped
   exact .inl ⟨_, rfl, fun hboth => hunmapped (hall.2 hboth.1)⟩

/-- A call that replaces the permissions of a range. -/
theorem outcome_remap {call : GuestCall} {address size : U64} (permissions : Option Permissions) (access : MemoryAccess)
  (hcall : guest.call call = some (guest.remap (checkedEnd address size access >>= fun stop =>
   guest.space.replaceRange address stop permissions access))) (hallowed : guest.Touches call ∧ guest.Granted call ↔
   (∀ x, InRange address size x → ∃ cell given, guest.Gives x cell given) ∧ 0 < size.val ∧ guest.space.generation + 1 < 2 ^ 64)
  (hafter : ∀ space, (∀ x cell given, Gives { guest with space := space } x cell given ↔
    (InRange address size x ∧ permissions = some given ∧ ∃ before, guest.Gives x cell before) ∨
     (¬InRange address size x ∧ guest.Gives x cell given)) → guest.After call .done { guest with space := space })
  (hwritten : guest.written call .done = []) :
  ∃ reply guest', guest.call call = some (reply, guest') ∧ guest.Outcome call reply guest' := by
 rw [hcall]
 by_cases hrng : 0 < size.val ∧ address.val + size < 2 ^ 64
 · rw [checkedEnd_eq access hrng.1 hrng.2]
   obtain ⟨e, hrefused, hfails⟩ | ⟨hboth, space, hreplaced, hsound, hgives⟩ := h.replaceRange permissions access hrng.1
   · exact ⟨.failed e, guest, congrArg (fun result => some (guest.remap result)) hrefused,
      .failed h fun hok => hfails ⟨(hallowed.1 hok).1, (hallowed.1 hok).2.2⟩⟩
   · refine ⟨.done, { guest with space := space }, congrArg (fun result => some (guest.remap result)) hreplaced,
      ⟨⟨fun _ => hallowed.2 ⟨hboth.1, hrng.1, hboth.2⟩, fun _ => rfl⟩, nofun,
       fun _ => hafter space hgives, ?_, hsound⟩⟩
     rw [hwritten]
     rfl
 · obtain ⟨e, he⟩ := checkedEnd_error access hrng
   rw [he]
   refine ⟨.failed e, guest, rfl, .failed h fun hok => ?_⟩
   -- the last byte of the range is past every mapping
   obtain ⟨hmapped, hpos, -⟩ := hallowed.1 hok
   obtain ⟨cell, given, entry, hent, hcov, -, -⟩ := hmapped (address.val + size - 1) ⟨by omega, by omega⟩
   have hbound := h.bounded entry hent
   have hlast := hcov.2
   omega

theorem outcome_protect (address size : U64) (permissions : Permissions) :
  ∃ reply guest', guest.call (.protect address size permissions) = some (reply, guest') ∧
   guest.Outcome (.protect address size permissions) reply guest' := by
 refine outcome_remap h (some permissions) .protect rfl Iff.rfl (fun space hgives => ⟨rfl, fun x cell given => ?_⟩) rfl
 rw [hgives, some.injEq, eq_comm]

theorem outcome_unmap (address size : U64) : ∃ reply guest', guest.call (.unmap address size) = some (reply, guest') ∧
  guest.Outcome (.unmap address size) reply guest' := by
 refine outcome_remap h none .unmap rfl Iff.rfl (fun space hgives => ⟨rfl, fun x cell given => ?_⟩) rfl
 grind

/-- Every call on a sound guest returns, and ends as it should. -/
theorem exists_outcome (call : GuestCall) : ∃ reply guest', guest.call call = some (reply, guest') ∧ guest.Outcome call reply guest' := by
 cases call with
 | createBacking size => exact outcome_createBacking h size
 | map address size backing backingOffset permissions => exact outcome_map h address size backing backingOffset permissions
 | protect address size permissions => exact outcome_protect h address size permissions
 | unmap address size => exact outcome_unmap h address size
 | read address size => exact outcome_read h address size
 | fetch address size => exact outcome_fetch h address size
 | write address source => exact outcome_write h address source

end

/-! ## Runs -/

/-- Every state reached is sound, and its bytes are those last written. -/
theorem sound_of_run {history : List (Cell × Byte)} (h : Run guest history) : guest.Sound ∧ guest.memory.byte = putAll history fun _ => 0 := by
 induction h with
 | new => exact ⟨sound_new, rfl⟩
 | @step guest guest' history call reply hrun hcall ih =>
  obtain ⟨reply', after, hcall', houtcome⟩ := exists_outcome ih.1 call
  cases hcall.symm.trans hcall'
  refine ⟨houtcome.sound, ?_⟩
  rw [houtcome.bytes, ih.2, putAll_append]

/-- What is known of a state that calls reach: the mappings are sound, each byte is the last one written to it
through any address, and every call ends as it should. -/
structure IsByteMap (guest : Guest) (history : List (Cell × Byte)) : Prop where
 sound : guest.Sound
 bytes : guest.memory.byte = putAll history fun _ => 0
 calls : ∀ call, ∃ reply guest', guest.call call = some (reply, guest') ∧
  (reply.isFailed = false ↔ guest.Touches call ∧ guest.Granted call) ∧
   (reply.isFailed = true → guest' = guest) ∧ (reply.isFailed = false → guest.After call reply guest')

/-- Guest memory is a map of bytes. -/
theorem byte_map {history : List (Cell × Byte)} (h : Run guest history) : guest.IsByteMap history := by
 obtain ⟨hsound, hbytes⟩ := sound_of_run h
 refine ⟨hsound, hbytes, fun call => ?_⟩
 obtain ⟨reply, guest', hcall, houtcome⟩ := exists_outcome hsound call
 exact ⟨reply, guest', hcall, houtcome.succeeds, houtcome.keeps, houtcome.after⟩

/-- A page of a backing mapped twice. -/
def aliased : List GuestCall :=
 [.createBacking 4096, .map 0 4096 1 0 .write, .map 8192 4096 1 0 .read, .write 10 [7]]

/-- The guest after calls, and the bytes written. -/
def runCalls : List GuestCall → Guest → List (Cell × Byte) → Option (Guest × List (Cell × Byte))
 | [], guest, history => some (guest, history)
 | call :: calls, guest, history => (guest.call call).bind fun (reply, guest') => runCalls calls guest' (history ++ guest.written call reply)

theorem run_of_runCalls {calls : List GuestCall} {history : List (Cell × Byte)} {after : Guest × List (Cell × Byte)} (hrun : Run guest history)
  (h : runCalls calls guest history = some after) : Run after.1 after.2 := by
 induction calls generalizing guest history with
 | nil =>
  cases h
  exact hrun
 | cons call calls ih =>
  obtain ⟨⟨reply, guest'⟩, hcall, hrest⟩ := bind_eq_some_iff.1 h
  exact ih (hrun.step hcall) hrest

/-- A byte written through one mapping is read through the other. -/
theorem byte_map_aliased : ∃ guest history, runCalls aliased .new [] = some (guest, history) ∧ guest.IsByteMap history ∧
  history = [((1, 10), 7)] ∧ guest.space.mappings.cellAt 8202 = some (1, 10) := by
 have hrun : (runCalls aliased .new []).any (fun after =>
   after.2 == [((1, 10), 7)] && after.1.space.mappings.cellAt 8202 == some (1, 10)) = true := by
  decide +kernel
 obtain ⟨⟨guest, history⟩, hcalls, hafter⟩ := (Option.any_eq_true _ _).1 hrun
 rw [Bool.and_eq_true, beq_iff_eq, beq_iff_eq] at hafter
 exact ⟨guest, history, hcalls, byte_map (run_of_runCalls .new hcalls), hafter⟩

/-- An empty range touches no byte, and is refused all the same. -/
theorem protect_empty : ¬∀ (guest : Guest) (history : List (Cell × Byte)), Run guest history →
  ∀ call, (∃ reply guest', guest.call call = some (reply, guest') ∧ reply.isFailed = false) ↔ guest.Touches call := by
 intro h
 obtain ⟨reply, guest', hcall, hok⟩ := (h .new [] .new (.protect 0 0 .none)).2 fun x hx => absurd hx.2 (not_lt.2 hx.1)
 obtain ⟨rfl, -⟩ := Prod.mk.inj (some.inj hcall)
 nomatch hok

end Guest

end Tir.Simcore
