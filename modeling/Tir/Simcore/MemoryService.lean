import Tir.Lang.Kind
import Tir.Simcore.Memory

/-!
# The memory service

The service serializes the memory effects of instructions. An instruction is begun, its effect requests
are served in sequence, and it is committed or aborted: plain stores are staged until the commit, every
other effect takes place when it is served. Functions that can panic give `none` where they do.
-/

namespace Tir.Simcore

open Tir.Adt (APInt)
open Tir.Bytes (Byte)
open Tir.Lang (AtomicRmwOp MemOrdering)

/-! ## Requests and responses -/

/-- The traps a memory effect ends in. -/
inductive SimTrap where
 | invalidInstruction (op reason : String)
 | badAddress (address size : Nat)
 | memoryFault (address size : Nat) (access reason : String)
deriving DecidableEq

def MemoryAccess.text : MemoryAccess → String
 | .read => "read"
 | .write => "write"
 | .fetch => "fetch"
 | .map => "map"
 | .protect => "protect"
 | .unmap => "unmap"

def MemoryErrorReason.text : MemoryErrorReason → String
 | .unmapped => "unmapped"
 | .permissionDenied => "permission denied"
 | .overlappingMapping => "overlapping mapping"
 | .invalidRange => "invalid range"
 | .unknownBacking => "unknown backing"
 | .backingOutOfBounds => "backing out of bounds"
 | .deviceAccess => "device access"
 | .identityExhausted => "identity exhausted"

def memoryTrap (error : MemoryError) (size : Nat) : SimTrap :=
 .memoryFault error.address size error.access.text error.reason.text

def protocolTrap (reason : String) : SimTrap :=
 .invalidInstruction "memory service" reason

structure RequestId where
 instruction : Nat
 sequence : Nat
deriving DecidableEq

inductive MemoryEffect where
 | read (address size : Nat)
 | write (address : Nat) (bytes : List Byte)
 | loadReserved (address size : Nat) (ordering : MemOrdering)
 | storeConditional (address size value : Nat) (ordering : MemOrdering)
 | atomicRmw (op : AtomicRmwOp) (address size value : Nat) (ordering : MemOrdering)
 | fence (pred succ kind : Nat)
 | exception (cause : Nat)
deriving DecidableEq

structure EffectRequest where
 id : RequestId
 effect : MemoryEffect
deriving DecidableEq

inductive ResponseValue where
 | word (value : Nat)
 | bytes (bytes : List Byte)
 | done
deriving DecidableEq

structure EffectResponse where
 id : RequestId
 result : Except SimTrap ResponseValue

/-- `AtomicRmwOp::apply`; the operands share a width. -/
def applyRmw (op : AtomicRmwOp) (old val : APInt) : Option APInt :=
 match op with
 | .add => old.add val
 | .swap => some val
 | .xor => old.xor val
 | .and => old.and val
 | .or => old.or val
 | .min => do if ← (old.withSigned true).slt (val.withSigned true) then some old else some val
 | .max => do if ← (old.withSigned true).sgt (val.withSigned true) then some old else some val
 | .minU => do if ← (old.withSigned false).ult (val.withSigned false) then some old else some val
 | .maxU => do if ← (old.withSigned false).ugt (val.withSigned false) then some old else some val

def wordFromBytes (bytes : List Byte) : Nat :=
 bytes.zipIdx.foldl (fun value entry => value ||| entry.1.toNat <<< (entry.2 * 8)) 0

def widthMask (size : Nat) : Nat :=
 if size = 8 then 2 ^ 64 - 1 else 1 <<< (size * 8) - 1

/-! ## The service -/

/-- A plain store that waits for its instruction's commit. -/
structure PendingStore where
 id : RequestId
 address : Nat
 bytes : List Byte
deriving DecidableEq

structure PendingInstruction where
 id : Nat
 nextSequence : Nat
 stores : List PendingStore
 failed : Bool
 mappingGeneration : Nat
deriving DecidableEq

/-- A device register that a read clears. -/
structure ReadToClear where
 backing : BackingId
 value : Nat
 reads : Nat
deriving DecidableEq

structure MemoryService where
 memory : Memory
 addressSpace : AddressSpace
 active : Option PendingInstruction
 lastInstruction : Option Nat
 reservation : Option (Nat × Nat × Nat)
 readToClear : List ReadToClear
 nextMemoryOrder : Nat
 effectOrders : RequestId → Option Nat

theorem AddressSpace.lt_of_mappingAt {space : AddressSpace} {address : Nat} {mapping : MappingInfo}
  (h : space.mappingAt address = some mapping) : address < mapping.stop := by
 obtain ⟨⟨start, found⟩, -, hfound⟩ := Option.bind_eq_some_iff.1 h
 dsimp only at hfound
 split at hfound
 · grind
 · nomatch hfound

/-- The loop of `device_for_access`: the device of the first mapping of one, which must hold the access. -/
def deviceFrom (devices : List ReadToClear) (space : AddressSpace) (access : MemoryAccess) (address stop cursor : Nat) :
  Except MemoryError (Option (Nat × Nat)) :=
 if cursor < stop then
  match _hmapping : space.mappingAt cursor with
  | none => .ok none
  | some mapping =>
   match devices.findIdx? (·.backing == mapping.backing) with
   | some index =>
    if mapping.start ≤ address ∧ stop ≤ mapping.stop then
     .ok (some (index, mapping.backingOffset + address - mapping.start))
    else .error ⟨address, access, .deviceAccess⟩
   | none => deviceFrom devices space access address stop (min mapping.stop stop)
 else .ok none
termination_by stop - cursor
decreasing_by
 have hlt := AddressSpace.lt_of_mappingAt _hmapping
 omega

namespace MemoryService

def new : MemoryService :=
 ⟨Memory.new, AddressSpace.new, none, none, none, [], 0, fun _ => none⟩

variable (service : MemoryService)

/-- A device stays while a mapping of its backing does. -/
def isMapped (device : ReadToClear) : Bool :=
 service.addressSpace.mappings.entries.any fun entry => entry.2.backing == device.backing

def pruneReadToClear : MemoryService :=
 { service with readToClear := service.readToClear.filter service.isMapped }

def deviceForAccess (address size : Nat) (access : MemoryAccess) : Except MemoryError (Option (Nat × Nat)) :=
 match checkedAdd address size with
 | none => .error ⟨address, access, .invalidRange⟩
 | some stop => deviceFrom service.readToClear service.addressSpace access address stop address

/-- An access of memory that is no device. -/
def validateRamAccess (address size : Nat) (access : MemoryAccess) : Except MemoryError Unit := do
 Memory.validate service.addressSpace address size access
 match ← service.deviceForAccess address size access with
 | some _ => throw ⟨address, access, .deviceAccess⟩
 | none => return ()

/-- A result and the service after it. -/
abbrev Outcome (α : Type) :=
 Except SimTrap α × MemoryService

def readEffect (address size : Nat) : Option (Outcome ResponseValue) :=
 match Memory.validate service.addressSpace address size .read with
 | .error error => some (.error (memoryTrap error size), service)
 | .ok () => match service.deviceForAccess address size .read with
  | .error error => some (.error (memoryTrap error size), service)
  | .ok (some (index, offset)) => do
    let device ← service.readToClear[index]?
    let value := device.value >>> (offset * 8)
    let reads ← checkedAdd device.reads 1
    some (.ok (.word (value &&& widthMask size)),
     { service with readToClear := service.readToClear.set index { device with value := 0, reads := reads } })
  | .ok none => do
    match ← service.memory.read service.addressSpace address size with
    | .error error => some (.error (memoryTrap error size), service)
    | .ok bytes => some (.ok (if size ≤ 8 then .word (wordFromBytes bytes) else .bytes bytes), service)

def writeEffect (id : RequestId) (address : Nat) (bytes : List Byte) : Option (Outcome ResponseValue) :=
 match Memory.validate service.addressSpace address bytes.length .write with
 | .error error => some (.error (memoryTrap error bytes.length), service)
 | .ok () => match service.deviceForAccess address bytes.length .write with
  | .error error => some (.error (memoryTrap error bytes.length), service)
  | .ok (some _) =>
   some (.error (memoryTrap ⟨address, .write, .deviceAccess⟩ bytes.length), service)
  | .ok none => do
    let active ← service.active
    let active := { active with stores := active.stores ++ [⟨id, address, bytes⟩] }
    some (.ok .done, { service with active := some active })

/-- The `u64` at an address; a wider response cannot come of eight bytes. -/
def readWord (address size : Nat) : Option (Outcome Nat) :=
 if 8 < size then some (.error (.badAddress address size), service)
 else match service.readEffect address size with
  | none => none
  | some (.error trap, service) => some (.error trap, service)
  | some (.ok (.word value), service) => some (.ok value, service)
  | some (.ok _, _) => none

def writeWord (address size value : Nat) : Option (Outcome Unit) :=
 if size = 0 ∨ 8 < size then some (.error (.badAddress address size), service)
 else do
  match ← service.memory.write service.addressSpace address (Tir.Bytes.toLe size value) with
  | .error error => some (.error (memoryTrap error size), service)
  | .ok memory => some (.ok (), { service with memory := memory })

def loadReserved (address size : Nat) : Option (Outcome ResponseValue) :=
 match service.validateRamAccess address size .read with
 | .error error => some (.error (memoryTrap error size), service)
 | .ok () => match service.readWord address size with
  | none => none
  | some (.error trap, service) => some (.error trap, service)
  | some (.ok value, service) =>
   some (.ok (.word value), { service with reservation := some (address, size, service.addressSpace.generation) })

/-- The reservation is gone whether or not it was the one asked for. -/
def storeConditional (address size value : Nat) : Option (Outcome ResponseValue) :=
 let success := service.reservation == some (address, size, service.addressSpace.generation)
 let taken := { service with reservation := none }
 if success then
  match taken.validateRamAccess address size .write with
  | .error error => some (.error (memoryTrap error size), taken)
  | .ok () => match taken.writeWord address size value with
   | none => none
   | some (.error trap, service) => some (.error trap, service)
   | some (.ok (), service) => some (.ok (.word 1), service)
 else some (.ok (.word 0), taken)

def atomicRmw (op : AtomicRmwOp) (address size value : Nat) : Option (Outcome ResponseValue) :=
 match service.validateRamAccess address size .read with
 | .error error => some (.error (memoryTrap error size), service)
 | .ok () => match service.validateRamAccess address size .write with
  | .error error => some (.error (memoryTrap error size), service)
  | .ok () => match service.readWord address size with
   | none => none
   | some (.error trap, service) => some (.error trap, service)
   | some (.ok old, service) =>
    if 64 < size * 8 then some (.error (.badAddress address size), service)
    else do
     let new ← applyRmw op (← APInt.new (size * 8) old) (← APInt.new (size * 8) value)
     match service.writeWord address size new.toU64 with
     | none => none
     | some (.error trap, service) => some (.error trap, service)
     | some (.ok (), service) => some (.ok (.word old), service)

def executeEffect (id : RequestId) (effect : MemoryEffect) : Option (Outcome ResponseValue) :=
 match effect with
 | .read address size => service.readEffect address size
 | .write address bytes => service.writeEffect id address bytes
 | .loadReserved address size _ => service.loadReserved address size
 | .storeConditional address size value _ => service.storeConditional address size value
 | .atomicRmw op address size value _ => service.atomicRmw op address size value
 | .fence _ _ _ | .exception _ => some (.ok .done, service)

end MemoryService

/-- Whether an effect takes its place in the memory order when it is served. -/
def MemoryEffect.linearizesImmediately : MemoryEffect → Bool
 | .read _ _ | .loadReserved _ _ _ | .storeConditional _ _ _ _ | .atomicRmw _ _ _ _ _ | .fence _ _ _ => true
 | .write _ _ | .exception _ => false

/-- Whether an effect could observe a staged store. -/
def MemoryEffect.observes : MemoryEffect → Bool
 | .read _ _ | .loadReserved _ _ _ | .storeConditional _ _ _ _ | .atomicRmw _ _ _ _ _ | .fence _ _ _ => true
 | .write _ _ | .exception _ => false

namespace MemoryService

variable (service : MemoryService)

/-- The next place in the memory order goes to an effect. -/
def recordOrder (id : RequestId) : Option MemoryService := do
 let next ← checkedAdd service.nextMemoryOrder 1
 some { service with
  nextMemoryOrder := next
  effectOrders := Function.update service.effectOrders id (some service.nextMemoryOrder) }

def effectOrder (id : RequestId) : Option Nat :=
 service.effectOrders id

/-! ## Instructions -/

def beginInstruction (id : Nat) : Outcome Unit :=
 if service.active.isSome || service.lastInstruction.any (id ≤ ·) then
  (.error (protocolTrap "instruction identity is stale or already active"), service)
 else
  let service := service.pruneReadToClear
  (.ok (), { service with
   lastInstruction := some id
   effectOrders := fun _ => none
   active := some ⟨id, 0, [], false, service.addressSpace.generation⟩ })

/-- The checks a request passes before it is served. -/
def refusal (request : EffectRequest) : Option SimTrap :=
 match service.active with
 | none => some (protocolTrap "effect request has no active instruction")
 | some active =>
  if request.id.instruction ≠ active.id ∨ request.id.sequence ≠ active.nextSequence then
   some (protocolTrap "effect request identity is stale or out of sequence")
  else if active.failed then some (protocolTrap "faulted instruction must be aborted")
  else if active.mappingGeneration ≠ service.addressSpace.generation then
   some (protocolTrap "address-space mappings changed during instruction")
  else if active.stores ≠ [] ∧ request.effect.observes then
   some (protocolTrap "staged store must commit before a later observing effect")
  else none

/-- An effect that took place at once has its place in the memory order. -/
def recordImmediate (request : EffectRequest) (result : Except SimTrap ResponseValue) : Option MemoryService :=
 if result.isOk && request.effect.linearizesImmediately then service.recordOrder request.id else some service

/-- The effect takes place and its instruction moves on. -/
def accept (request : EffectRequest) : Option (EffectResponse × MemoryService) := do
 let (result, service) ← service.executeEffect request.id request.effect
 let service ← service.recordImmediate request result
 let active ← service.active
 let sequence ← checkedAdd active.nextSequence 1
 some (⟨request.id, result⟩,
  { service with active := some { active with nextSequence := sequence, failed := !result.isOk } })

/-- `service`: the response of an accepted request, and nothing for one that is not ready. -/
def serve (request : EffectRequest) (ready : Bool) : Option (Outcome (Option EffectResponse)) :=
 match service.refusal request with
 | some trap => some (.error trap, service)
 | none =>
  if !ready then some (.ok none, service)
  else (service.accept request).map fun (response, service) => (.ok (some response), service)

/-- Every staged store can still be written. -/
def validateStores : List PendingStore → Except SimTrap Unit
 | [] => .ok ()
 | store :: stores =>
  match Memory.validate service.addressSpace store.address store.bytes.length .write with
  | .error error => .error (memoryTrap error store.bytes.length)
  | .ok () => validateStores stores

/-- The staged stores reach memory, each with its place in the memory order. -/
def publishStores : List PendingStore → MemoryService → Option (Outcome Unit)
 | [], service => some (.ok (), service)
 | store :: stores, service =>
  match service.memory.write service.addressSpace store.address store.bytes with
  | none => none
  | some (.error error) => some (.error (memoryTrap error store.bytes.length), service)
  | some (.ok memory) => do publishStores stores (← { service with memory := memory }.recordOrder store.id)

def commitInstruction (id : Nat) : Option (Outcome Unit) :=
 match service.active.filter fun active =>
   active.id == id && !active.failed && active.mappingGeneration == service.addressSpace.generation with
 | none => some (.error (protocolTrap "commit identity is stale"), service)
 | some active => match service.validateStores active.stores with
  | .error trap => some (.error trap, service)
  | .ok () => match publishStores active.stores { service with active := some { active with stores := [] } } with
   | none => none
   | some (.error trap, service) => some (.error trap, service)
   | some (.ok (), service) => some (.ok (), { service with active := none })

def abortInstruction (id : Nat) : Outcome Unit :=
 if service.active.all fun active => active.id != id then (.error (protocolTrap "abort identity is stale"), service)
 else (.ok (), { service with active := none })

/-! ## Mapping changes -/

def unmap (address size : Nat) : Except MemoryError Unit × MemoryService :=
 match Memory.unmap service.addressSpace address size with
 | .error error => (.error error, service)
 | .ok space => (.ok (), { service with addressSpace := space }.pruneReadToClear)

/-- Devices that lost their mappings go first, whatever becomes of the new one. -/
def mapReadToClear (address size value : Nat) (permissions : Permissions) : Except MemoryError Unit × MemoryService :=
 let service := service.pruneReadToClear
 if size = 0 ∨ 8 < size then (.error ⟨address, .map, .invalidRange⟩, service)
 else match service.memory.createBacking size with
  | .error error => (.error error, service)
  | .ok (backing, memory) =>
   let service := { service with memory := memory }
   match service.memory.map service.addressSpace address size backing 0 permissions with
   | .error error => (.error error, service)
   | .ok space => (.ok (), { service with
     addressSpace := space
     readToClear := service.readToClear ++ [⟨backing, value, 0⟩] })

end MemoryService

end Tir.Simcore
