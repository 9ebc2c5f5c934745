import Tir.Simcore.Effects

/-!
# Runs of the memory service

A trace lists the calls on a service with their replies, the newest first. What the claims of the service
are about is read off the trace alone: the instruction that is open, the requests it was accepted, whether
the mappings changed under it, and the effects that took place so far, in order.
-/

namespace Tir.Simcore

/-! ## Calls -/

/-- A call on the service; the last four change the mappings beside it, through `memory_and_space_mut`. -/
inductive Call where
 | beginInstruction (id : Nat)
 | service (request : EffectRequest) (ready : Bool)
 | commitInstruction (id : Nat)
 | abortInstruction (id : Nat)
 | unmap (address size : Nat)
 | mapReadToClear (address size value : Nat) (permissions : Permissions)
 | createBacking (size : Nat)
 | map (address size : Nat) (backing : BackingId) (backingOffset : Nat) (permissions : Permissions)
 | protect (address size : Nat) (permissions : Permissions)
 | rawUnmap (address size : Nat)

/-- A call that changes the mappings where it goes through. -/
def Call.changesMappings : Call → Bool
 | .unmap _ _ | .mapReadToClear _ _ _ _ | .map _ _ _ _ _ | .protect _ _ _ | .rawUnmap _ _ => true
 | _ => false

/-- What a call returns. -/
inductive Reply where
 | done
 | served (response : EffectResponse)
 | notReady
 | created (backing : BackingId)
 | trapped (trap : SimTrap)
 | failed (error : MemoryError)

/-- An `Err`, or a request that was not ready. -/
def Reply.refused : Reply → Bool
 | .notReady | .trapped _ | .failed _ => true
 | .done | .served _ | .created _ => false

def Reply.ofTrap : Except SimTrap Unit → Reply
 | .ok () => .done
 | .error trap => .trapped trap

def Reply.ofResponse : Except SimTrap (Option EffectResponse) → Reply
 | .ok (some response) => .served response
 | .ok none => .notReady
 | .error trap => .trapped trap

def Reply.ofError : Except MemoryError Unit → Reply
 | .ok () => .done
 | .error error => .failed error

def Reply.after {α : Type} (reply : α → Reply) (outcome : α × MemoryService) : Reply × MemoryService :=
 (reply outcome.1, outcome.2)

/-- The service with other mappings, where the change of them went through. -/
def MemoryService.remap (service : MemoryService) (change : Except MemoryError AddressSpace) : Reply × MemoryService :=
 match change with
 | .ok space => (.done, { service with addressSpace := space })
 | .error error => (.failed error, service)

/-- One call; none where it panics. -/
def MemoryService.call (service : MemoryService) : Call → Option (Reply × MemoryService)
 | .beginInstruction id => some (Reply.after Reply.ofTrap (service.beginInstruction id))
 | .service request ready => (service.serve request ready).map (Reply.after Reply.ofResponse)
 | .commitInstruction id => (service.commitInstruction id).map (Reply.after Reply.ofTrap)
 | .abortInstruction id => some (Reply.after Reply.ofTrap (service.abortInstruction id))
 | .unmap address size => some (Reply.after Reply.ofError (service.unmap address size))
 | .mapReadToClear address size value permissions =>
  some (Reply.after Reply.ofError (service.mapReadToClear address size value permissions))
 | .createBacking size => match service.memory.createBacking size with
  | .ok (backing, memory) => some (.created backing, { service with memory := memory })
  | .error error => some (.failed error, service)
 | .map address size backing backingOffset permissions =>
  some (service.remap (service.memory.map service.addressSpace address size backing backingOffset permissions))
 | .protect address size permissions => some (service.remap (Memory.protect service.addressSpace address size permissions))
 | .rawUnmap address size => some (service.remap (Memory.unmap service.addressSpace address size))

/-! ## Traces -/

/-- The calls so far with their replies, the newest first. -/
abbrev Trace :=
 List (Call × Reply)

namespace Trace

/-- The identities begun, in order. -/
def begun : Trace → List Nat
 | [] => []
 | (.beginInstruction id, .done) :: trace => begun trace ++ [id]
 | _ :: trace => begun trace

/-- The instruction that was begun, and neither committed nor aborted since. -/
def opened : Trace → Option Nat
 | [] => none
 | (.beginInstruction id, .done) :: _ => some id
 | (.commitInstruction _, .done) :: _ => none
 | (.abortInstruction _, .done) :: _ => none
 | _ :: trace => opened trace

/-- A request with the result it was served. -/
abbrev Entry :=
 EffectRequest × Except SimTrap ResponseValue

/-- The requests accepted since the last begin, in order, with their results. -/
def accepted : Trace → List Entry
 | [] => []
 | (.beginInstruction _, .done) :: _ => []
 | (.service request _, .served response) :: trace => accepted trace ++ [(request, response.result)]
 | _ :: trace => accepted trace

/-- A plain store that was accepted without a fault. -/
def storeOf (entry : Entry) : Option PendingStore :=
 if entry.2.isOk then entry.1.effect.staged entry.1.id else none

/-- The plain stores accepted since the last begin, in request order. -/
def plainStores (trace : Trace) : List PendingStore :=
 trace.accepted.filterMap storeOf

/-- A request accepted since the last begin faulted. -/
def faulted (trace : Trace) : Bool :=
 trace.accepted.any fun entry => !entry.2.isOk

/-- The mappings changed since the last begin. -/
def remapped : Trace → Bool
 | [] => false
 | (.beginInstruction _, .done) :: _ => false
 | (.unmap _ _, .done) :: _ => true
 | (.mapReadToClear _ _ _ _, .done) :: _ => true
 | (.map _ _ _ _ _, .done) :: _ => true
 | (.protect _ _ _, .done) :: _ => true
 | (.rawUnmap _ _, .done) :: _ => true
 | _ :: trace => remapped trace

/-- The identities of all requests accepted, in order. -/
def served : Trace → List RequestId
 | [] => []
 | (.service request _, .served _) :: trace => served trace ++ [request.id]
 | _ :: trace => served trace

/-- The effects that took place, in order: reads, atomics and fences when they were served, and the plain
stores of an instruction at its commit. -/
def linearized : Trace → List RequestId
 | [] => []
 | (.service request _, .served response) :: trace =>
  if response.result.isOk && request.effect.linearizesImmediately then linearized trace ++ [request.id]
  else linearized trace
 | (.commitInstruction _, .done) :: trace => linearized trace ++ (plainStores trace).map (·.id)
 | _ :: trace => linearized trace

end Trace

/-- A run of the service, from a new one. -/
inductive Run : MemoryService → Trace → Prop where
 | new : Run .new []
 | step {service service' : MemoryService} {trace : Trace} {call : Call} {reply : Reply} (h : Run service trace)
   (hcall : service.call call = some (reply, service')) : Run service' ((call, reply) :: trace)

end Tir.Simcore
