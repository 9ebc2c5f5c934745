import Tir.Basic.Bytes

/-!
# Mapped memory

Guest mappings (`AddressSpace`) kept apart from their sparse backing pages (`Memory`). An access is
resolved to the spans of backing bytes it covers before any of them is read or written, so that it fails
whole or not at all. Every change of the mappings takes a new generation.
-/

open List Function Nat

namespace Tir.Simcore

open Tir.Bytes (Byte)

def checkedAdd (a b : Nat) : Option Nat :=
 if a + b < 2 ^ 64 then some (a + b) else none

/-! ## Failures -/

/-- Permission bits on a guest mapping. -/
structure Permissions where
 bits : BitVec 8
deriving DecidableEq

namespace Permissions

def none : Permissions := ⟨0⟩

def read : Permissions := ⟨1⟩

def write : Permissions := ⟨2⟩

def execute : Permissions := ⟨4⟩

def union (a b : Permissions) : Permissions :=
 ⟨a.bits ||| b.bits⟩

def contains (permissions other : Permissions) : Bool :=
 permissions.bits &&& other.bits == other.bits

end Permissions

/-- What an operation that failed was doing. -/
inductive MemoryAccess where
 | read
 | write
 | fetch
 | map
 | protect
 | unmap
deriving DecidableEq

inductive MemoryErrorReason where
 | unmapped
 | permissionDenied
 | overlappingMapping
 | invalidRange
 | unknownBacking
 | backingOutOfBounds
 | deviceAccess
 | identityExhausted
deriving DecidableEq

structure MemoryError where
 address : Nat
 access : MemoryAccess
 reason : MemoryErrorReason
deriving DecidableEq

/-- The end of a range that is not empty. -/
def checkedEnd (address size : Nat) (access : MemoryAccess) : Except MemoryError Nat :=
 if size = 0 then .error ⟨address, access, .invalidRange⟩
 else match checkedAdd address size with
  | some stop => .ok stop
  | none => .error ⟨address, access, .invalidRange⟩

/-! ## Mappings -/

abbrev BackingId := Nat

/-- A mapping, without the address it starts at. -/
structure Mapping where
 stop : Nat
 backing : BackingId
 backingOffset : Nat
 permissions : Permissions
 generation : Nat
deriving DecidableEq

/-- The mappings by the address they start at, in ascending order. -/
structure Mappings where
 entries : List (Nat × Mapping)
 ascending : entries.Pairwise fun a b => a.1 < b.1

namespace Mappings

def empty : Mappings :=
 ⟨[], Pairwise.nil⟩

/-- The last mapping that starts at an address or below it. -/
def atOrBelow (mappings : Mappings) (address : Nat) : Option (Nat × Mapping) :=
 (mappings.entries.filter fun entry => entry.1 ≤ address).getLast?

/-- The mappings that start below an address. -/
def below (mappings : Mappings) (address : Nat) : List (Nat × Mapping) :=
 mappings.entries.filter fun entry => entry.1 < address

def remove (mappings : Mappings) (start : Nat) : Mappings :=
 ⟨mappings.entries.filter fun entry => entry.1 ≠ start, mappings.ascending.filter _⟩

def insert (mappings : Mappings) (start : Nat) (mapping : Mapping) : Mappings where
 entries := mappings.below start ++ (start, mapping) :: mappings.entries.filter fun entry => start < entry.1
 ascending := by
  refine pairwise_append.2 ⟨mappings.ascending.filter _, ?_, ?_⟩
  · refine pairwise_cons.2 ⟨fun entry hin => ?_, mappings.ascending.filter _⟩
    exact of_decide_eq_true (mem_filter.1 hin).2
  · intro entry hin other hother
    have hbelow : entry.1 < start := of_decide_eq_true (mem_filter.1 hin).2
    rcases mem_cons.1 hother with rfl | hother
    · exact hbelow
    grind

/-- Whether a mapping reaches into a range: the last that starts below its end. -/
def overlaps (mappings : Mappings) (start stop : Nat) : Bool :=
 match (mappings.below stop).getLast? with
 | some (otherStart, other) => otherStart < stop && start < other.stop
 | none => false

/-- Whether every address of a range is mapped. -/
def mappedRange (mappings : Mappings) (cursor stop : Nat) : Bool :=
 if cursor < stop then
  match mappings.atOrBelow cursor with
  | none => false
  | some (_, mapping) =>
   if mapping.stop ≤ cursor then false
   else mappedRange mappings (min mapping.stop stop) stop
 else true
termination_by stop - cursor

/-- Take one mapping out of a range: what lies before and after it stays, what lies in it gets new
permissions, or goes. -/
def replaceOne (start stop generation : Nat) (permissions : Option Permissions) (mappings : Mappings)
  (affected : Nat × Mapping) : Mappings :=
 let (mappingStart, mapping) := affected
 let mappings := mappings.remove mappingStart
 let mappings :=
  if mappingStart < start then mappings.insert mappingStart { mapping with stop := start } else mappings
 let middleStart := max mappingStart start
 let mappings := match permissions with
  | some newPermissions => mappings.insert middleStart
    { mapping with
      stop := min mapping.stop stop
      backingOffset := mapping.backingOffset + (middleStart - mappingStart)
      permissions := newPermissions
      generation := generation }
  | none => mappings
 if stop < mapping.stop then
  mappings.insert stop { mapping with backingOffset := mapping.backingOffset + (stop - mappingStart) }
 else mappings

end Mappings

/-- What is known of the mapping at an address. -/
structure MappingInfo where
 start : Nat
 stop : Nat
 backing : BackingId
 backingOffset : Nat
 permissions : Permissions
 generation : Nat
deriving DecidableEq

structure AddressSpace where
 generation : Nat
 mappings : Mappings

namespace AddressSpace

def new : AddressSpace :=
 ⟨0, Mappings.empty⟩

def mappingAt (space : AddressSpace) (address : Nat) : Option MappingInfo := do
 let (start, mapping) ← space.mappings.atOrBelow address
 if address < mapping.stop then
  some ⟨start, mapping.stop, mapping.backing, mapping.backingOffset, mapping.permissions, mapping.generation⟩
 else none

def nextGeneration (space : AddressSpace) (address : Nat) (access : MemoryAccess) : Except MemoryError Nat :=
 match checkedAdd space.generation 1 with
 | some generation => .ok generation
 | none => .error ⟨address, access, .identityExhausted⟩

def replaceRange (space : AddressSpace) (start stop : Nat) (permissions : Option Permissions)
  (access : MemoryAccess) : Except MemoryError AddressSpace := do
 if space.mappings.mappedRange start stop then
  let generation ← space.nextGeneration start access
  let affected := (space.mappings.below stop).filter fun entry => start < entry.2.stop
  return ⟨generation, affected.foldl (Mappings.replaceOne start stop generation permissions) space.mappings⟩
 else throw ⟨start, access, .unmapped⟩

end AddressSpace

/-! ## Backing pages -/

def memoryPageSize : Nat :=
 4096

/-- Bytes behind mappings. A page that was never written a byte other than zero is not there. -/
structure Backing where
 size : Nat
 pages : Nat → Option (Nat → Byte)

/-- Bytes copied over a page from an offset on. -/
def overwritePage (page : Nat → Byte) (pageOffset : Nat) (bytes : List Byte) (i : Nat) : Byte :=
 if i < pageOffset then page i else bytes.getD (i - pageOffset) (page i)

/-- `read_backing`: page by page, a page that is not there as zeros. -/
def readBacking (backing : Backing) (offset len : Nat) : List Byte :=
 if len = 0 then []
 else
  let pageOffset := offset % memoryPageSize
  let count := min (memoryPageSize - pageOffset) len
  let copied := match backing.pages (offset / memoryPageSize) with
   | some page => (List.range' pageOffset count).map page
   | none => replicate count 0
  copied ++ readBacking backing (offset + count) (len - count)
termination_by len
decreasing_by
 have hpage : offset % memoryPageSize < memoryPageSize := mod_lt _ (by decide)
 omega

/-- `write_backing`: page by page; zeros do not make a page. -/
def writeBacking (backing : Backing) (offset : Nat) (source : List Byte) : Backing :=
 if source = [] then backing
 else
  let pageNumber := offset / memoryPageSize
  let pageOffset := offset % memoryPageSize
  let bytes := source.take (memoryPageSize - pageOffset)
  let backing :=
   if bytes.any (· != 0) || (backing.pages pageNumber).isSome then
    let page := (backing.pages pageNumber).getD fun _ => 0
    { backing with
      pages := update backing.pages pageNumber (some (overwritePage page pageOffset bytes)) }
   else backing
  writeBacking backing (offset + bytes.length) (source.drop (memoryPageSize - pageOffset))
termination_by source.length
decreasing_by
 have hpage : offset % memoryPageSize < memoryPageSize := mod_lt _ (by decide)
 have hsrc : 0 < source.length := length_pos_of_ne_nil ‹_›
 rw [length_drop]
 omega

/-! ## Memory -/

/-- Backings by identity, and the next identity. -/
structure Memory where
 nextBackingId : Nat
 backings : BackingId → Option Backing

/-- Backing bytes that one mapping gives an access. -/
structure Span where
 backing : BackingId
 offset : Nat
 len : Nat
deriving DecidableEq

/-- The permission an access needs; changes of mappings are no access. -/
def MemoryAccess.permission : MemoryAccess → Option Permissions
 | .read => some .read
 | .write => some .write
 | .fetch => some .execute
 | .map | .protect | .unmap => none

/-- The loop of `resolve`. -/
def resolveFrom (mappings : Mappings) (access : MemoryAccess) (permission : Permissions) (cursor stop : Nat) :
  Except MemoryError (List Span) :=
 if cursor < stop then
  match mappings.atOrBelow cursor with
  | none => .error ⟨cursor, access, .unmapped⟩
  | some (mappingStart, mapping) =>
   if mapping.stop ≤ cursor then .error ⟨cursor, access, .unmapped⟩
   else if !mapping.permissions.contains permission then .error ⟨cursor, access, .permissionDenied⟩
   else
    let spanEnd := min mapping.stop stop
    match resolveFrom mappings access permission spanEnd stop with
    | .error e => .error e
    | .ok spans =>
     .ok (⟨mapping.backing, mapping.backingOffset + (cursor - mappingStart), spanEnd - cursor⟩ :: spans)
 else .ok []
termination_by stop - cursor

namespace Memory

def new : Memory :=
 ⟨1, fun _ => none⟩

def createBacking (memory : Memory) (size : Nat) : Except MemoryError (BackingId × Memory) :=
 if size = 0 then .error ⟨0, .map, .invalidRange⟩
 else match checkedAdd memory.nextBackingId 1 with
  | none => .error ⟨0, .map, .identityExhausted⟩
  | some next => .ok (memory.nextBackingId,
    ⟨next, update memory.backings memory.nextBackingId (some ⟨size, fun _ => none⟩)⟩)

def map (memory : Memory) (space : AddressSpace) (address size : Nat) (backing : BackingId) (backingOffset : Nat)
  (permissions : Permissions) : Except MemoryError AddressSpace := do
 let stop ← checkedEnd address size .map
 let backingEnd ← checkedEnd backingOffset size .map
 match memory.backings backing with
 | none => throw ⟨address, .map, .unknownBacking⟩
 | some found =>
  if found.size < backingEnd then throw ⟨address, .map, .backingOutOfBounds⟩
  else if space.mappings.overlaps address stop then throw ⟨address, .map, .overlappingMapping⟩
  else
   let generation ← space.nextGeneration address .map
   return ⟨generation, space.mappings.insert address ⟨stop, backing, backingOffset, permissions, generation⟩⟩

def protect (space : AddressSpace) (address size : Nat) (permissions : Permissions) :
  Except MemoryError AddressSpace := do
 let stop ← checkedEnd address size .protect
 space.replaceRange address stop (some permissions) .protect

def unmap (space : AddressSpace) (address size : Nat) : Except MemoryError AddressSpace := do
 let stop ← checkedEnd address size .unmap
 space.replaceRange address stop none .unmap

/-- The spans an access covers, every one of them allowed. -/
def resolve (space : AddressSpace) (address size : Nat) (access : MemoryAccess) : Except MemoryError (List Span) :=
 match access.permission with
 | none => .error ⟨address, access, .invalidRange⟩
 | some permission =>
  if size = 0 then .ok []
  else match checkedEnd address size access with
   | .error e => .error e
   | .ok stop => resolveFrom space.mappings access permission address stop

/-- Check a whole access. -/
def validate (space : AddressSpace) (address size : Nat) (access : MemoryAccess) : Except MemoryError Unit :=
 (resolve space address size access).map fun _ => ()

/-- The bytes of spans, one after another; none where a backing is missing. -/
def readSpans (memory : Memory) : List Span → Option (List Byte)
 | [] => some []
 | span :: spans => do
   let backing ← memory.backings span.backing
   let rest ← readSpans memory spans
   return readBacking backing span.offset span.len ++ rest

/-- Bytes written over spans, one after another. -/
def writeSpans (memory : Memory) : List Span → List Byte → Option Memory
 | [], _ => some memory
 | span :: spans, source => do
   let backing ← memory.backings span.backing
   let written := writeBacking backing span.offset (source.take span.len)
   writeSpans { memory with backings := update memory.backings span.backing (some written) } spans
    (source.drop span.len)

/-- A panic is the outer `none`. -/
def read (memory : Memory) (space : AddressSpace) (address size : Nat) : Option (Except MemoryError (List Byte)) :=
 match resolve space address size .read with
 | .error e => some (.error e)
 | .ok spans => (memory.readSpans spans).map .ok

def fetch (memory : Memory) (space : AddressSpace) (address size : Nat) : Option (Except MemoryError (List Byte)) :=
 match resolve space address size .fetch with
 | .error e => some (.error e)
 | .ok spans => (memory.readSpans spans).map .ok

def write (memory : Memory) (space : AddressSpace) (address : Nat) (source : List Byte) :
  Option (Except MemoryError Memory) :=
 match resolve space address source.length .write with
 | .error e => some (.error e)
 | .ok spans => (memory.writeSpans spans source).map .ok

end Memory

end Tir.Simcore
