import Tir.Simcore.ServiceRuns

/-!
# What a call changes

One inversion for every call on the service (`Called`): a refused call keeps the service but for devices
that have lost their mappings, and each call that goes through changes what its case says.
-/

open List Option Function

namespace Tir.Simcore

open Tir.Bytes (Byte)

namespace MemoryService

variable {service service' : MemoryService}

/-! ## The memory order -/

/-- The memory order holds these effects: each at its position, and those of the last instruction can be
asked for. -/
structure Ordered (service : MemoryService) (last : Option Nat) (effects : List RequestId) : Prop where
 next : service.nextMemoryOrder = effects.length
 orders : ∀ id k, service.effectOrder id = some k ↔ effects[k]? = some id ∧ last = some id.instruction
 once : effects.Nodup

variable {effects : List RequestId} {stores : List PendingStore} {result : Except SimTrap Unit}
 {request : EffectRequest} {access : MemoryAccess} {address size : Nat} {space space' : AddressSpace}
 {permissions : Permissions}

theorem Ordered.congr {last : Option Nat} (h : Ordered service last effects)
  (hnext : service'.nextMemoryOrder = service.nextMemoryOrder)
  (horders : service'.effectOrders = service.effectOrders) : Ordered service' last effects where
 next := hnext.trans h.next
 orders := by
  intro id k
  rw [effectOrder, horders]
  exact h.orders id k
 once := h.once

theorem recordOrder_spec {id : RequestId} (h : service.recordOrder id = some service') : service' = { service with
   nextMemoryOrder := service.nextMemoryOrder + 1
   effectOrders := update service.effectOrders id (some service.nextMemoryOrder) } := by
 obtain ⟨next, hnext, h⟩ := bind_eq_some_iff.1 h
 unfold checkedAdd at hnext
 split at hnext
 · grind
 · nomatch hnext

/-- A new effect of the last instruction takes the next position. -/
theorem Ordered.record {id : RequestId} (h : Ordered service (some id.instruction) effects)
  (hnew : id ∉ effects) (hrecord : service.recordOrder id = some service') :
  Ordered service' (some id.instruction) (effects ++ [id]) := by
 obtain rfl := recordOrder_spec hrecord
 refine ⟨?_, fun other k => ?_, ?_⟩
 · rw [length_append, ← h.next]
   rfl
 · unfold effectOrder
   dsimp only
   rw [getElem?_append]
   by_cases hother : other = id
   · subst hother
     rw [update_self, h.next, some.injEq]
     constructor
     · grind
     grind
   · rw [update_of_ne hother]
     refine (h.orders other k).trans (and_congr_left fun _ => ?_)
     constructor
     · grind
     grind
 · exact nodup_append.2 ⟨h.once, nodup_singleton id, fun a ha b hb heq =>
    hnew (mem_singleton.1 hb ▸ heq ▸ ha)⟩

/-! ## Commits -/

/-- The bytes of memory after plain stores, one after another. -/
def publish (space : AddressSpace) (stores : List PendingStore) (byte : Cell → Byte) : Cell → Byte :=
 stores.foldl (fun byte store =>
  putAll ((Memory.cells space store.address store.bytes.length).zip store.bytes) byte) byte

theorem validateStores_eq_ok :
  service.validateStores stores = .ok () ↔ ∀ store ∈ stores, Writable service store := by
 induction stores with
 | nil => exact ⟨nofun, fun _ => rfl⟩
 | cons store stores ih =>
  rw [forall_mem_cons, ← ih, validateStores]
  unfold Writable
  grind

/-- What the commit of stores that can be written changes: memory and the memory order. -/
structure Published (service : MemoryService) (stores : List PendingStore) (service' : MemoryService) : Prop where
 byte : service'.memory.byte = publish service.addressSpace stores service.memory.byte
 nextBackingId : service'.memory.nextBackingId = service.memory.nextBackingId
 fresh : ∀ other, service.memory.backings other = none → service'.memory.backings other = none
 addressSpace : service'.addressSpace = service.addressSpace
 lastInstruction : service'.lastInstruction = service.lastInstruction
 readToClear : service'.readToClear = service.readToClear
 ordered : ∀ last effects, Ordered service (some last) effects →
  (∀ store ∈ stores, store.id.instruction = last ∧ store.id ∉ effects) → (stores.map (·.id)).Nodup →
   Ordered service' (some last) (effects ++ stores.map (·.id))

theorem publishStores_spec (hwritable : ∀ store ∈ stores, Writable service store)
  (h : publishStores stores service = some (result, service')) :
  result = .ok () ∧ Published service stores service' := by
 induction stores generalizing service with
 | nil =>
  cases h
  refine ⟨rfl, rfl, rfl, fun _ hnone => hnone, rfl, rfl, rfl, fun last effects hord _ _ => ?_⟩
  grind
 | cons store stores ih =>
  unfold publishStores at h
  split at h
  · nomatch h
  · rename_i error hwrite
    exact absurd hwrite (Memory.write_ne_error (hwritable store (.head _)) _ error)
  · rename_i memory hwrite
    obtain ⟨recorded, hrecord, h⟩ := bind_eq_some_iff.1 h
    have hrecorded := recordOrder_spec hrecord
    have hrest : ∀ other ∈ stores, Writable recorded other := by
     intro other hin
     rw [hrecorded]
     exact hwritable other (.tail _ hin)
    obtain ⟨hok, hpub⟩ := ih hrest h
    obtain ⟨hnext, hkeeps⟩ := Memory.keeps_of_write hwrite
    refine ⟨hok, ?_, ?_, ?_, ?_, ?_, ?_, ?_⟩
    · rw [hpub.byte, hrecorded]
      rw [Memory.byte_write hwrite]
      rfl
    · rw [hpub.nextBackingId, hrecorded]
      exact hnext
    · intro other hnone
      apply hpub.fresh
      grind
    · rw [hpub.addressSpace, hrecorded]
    · rw [hpub.lastInstruction, hrecorded]
    · rw [hpub.readToClear, hrecorded]
    · intro last effects hord hstores hnd
      obtain ⟨hlast, hnew⟩ := hstores store (.head _)
      obtain ⟨hfst, hnd⟩ := nodup_cons.1 hnd
      have hbef : Ordered { service with memory := memory } (some store.id.instruction) effects := by
       rw [hlast]
       exact hord.congr rfl rfl
      have hafter := hbef.record hnew hrecord
      rw [hlast] at hafter
      have hrest := hpub.ordered last _ hafter (fun other hin => ?_) hnd
      · rwa [append_assoc] at hrest
      grind

/-! ## Requests -/

/-- What an accepted request changes. -/
structure Accepted (service : MemoryService) (request : EffectRequest) (response : EffectResponse)
  (service' : MemoryService) : Prop where
 id : response.id = request.id
 active : ∃ active, service.active = some active ∧ service'.active = some { active with
  nextSequence := active.nextSequence + 1
  stores := active.stores ++
   if response.result.isOk then (request.effect.staged request.id).toList else []
  failed := !response.result.isOk }
 addressSpace : service'.addressSpace = service.addressSpace
 lastInstruction : service'.lastInstruction = service.lastInstruction
 memory : service'.memory = service.memory ∨ response.result.isOk = true ∧ request.effect.writesAtOnce = true ∧
  service'.memory.nextBackingId = service.memory.nextBackingId ∧
  ∀ other, service.memory.backings other = none → service'.memory.backings other = none
 writable : response.result.isOk = true → ∀ store ∈ request.effect.staged request.id, Writable service store
 ordered : ∀ effects, Ordered service (some request.id.instruction) effects → request.id ∉ effects →
  Ordered service' (some request.id.instruction)
   (if response.result.isOk && request.effect.linearizesImmediately then effects ++ [request.id] else effects)

theorem accept_spec {response : EffectResponse}
  (h : service.accept request = some (response, service')) : Accepted service request response service' := by
 obtain ⟨⟨result, after⟩, hexecute, h⟩ := bind_eq_some_iff.1 h
 obtain ⟨recorded, hrecord, h⟩ := bind_eq_some_iff.1 h
 obtain ⟨active, hactive, h⟩ := bind_eq_some_iff.1 h
 obtain ⟨sequence, hseq, h⟩ := bind_eq_some_iff.1 h
 cases h
 have hexecuted := executed_executeEffect hexecute
 -- the place in the memory order changes nothing else
 have hrecorded : recorded = { after with
   nextMemoryOrder := recorded.nextMemoryOrder
   effectOrders := recorded.effectOrders } := by
  unfold recordImmediate at hrecord
  split at hrecord
  · rw [recordOrder_spec hrecord]
  · rw [some.inj hrecord]
 have hsucc : sequence = active.nextSequence + 1 := by
  unfold checkedAdd at hseq
  split at hseq
  · exact (some.inj hseq).symm
  · nomatch hseq
 have hbef : service.active.map (fun active =>
   if result.isOk then { active with stores := active.stores ++ (request.effect.staged request.id).toList }
   else active) = some active := by
  rw [← hexecuted.active, ← hactive, hrecorded]
 obtain ⟨start, hstart, hafter⟩ := map_eq_some_iff.1 hbef
 refine ⟨rfl, ⟨start, hstart, ?_⟩, ?_, ?_, ?_, hexecuted.writable, ?_⟩
 · grind
 · rw [hrecorded]
   exact hexecuted.addressSpace
 · rw [hrecorded]
   exact hexecuted.lastInstruction
 · rw [hrecorded]
   exact hexecuted.memory
 · intro effects hord hnew
   have hsame : Ordered after (some request.id.instruction) effects :=
    hord.congr hexecuted.nextMemoryOrder hexecuted.effectOrders
   unfold recordImmediate at hrecord
   split at hrecord
   · rename_i himmediate
     rw [if_pos himmediate]
     exact (hsame.record hnew hrecord).congr rfl rfl
   · rename_i himmediate
     cases hrecord
     rw [if_neg himmediate]
     exact hsame.congr rfl rfl

/-! ## Calls -/

/-- What a refused call keeps of the service. -/
structure Kept (service : MemoryService) (call : Call) (service' : MemoryService) : Prop where
 addressSpace : service'.addressSpace = service.addressSpace
 active : service'.active = service.active
 lastInstruction : service'.lastInstruction = service.lastInstruction
 nextMemoryOrder : service'.nextMemoryOrder = service.nextMemoryOrder
 effectOrders : service'.effectOrders = service.effectOrders
 memory : service.memory.Fresh → service'.memory.Fresh ∧ service'.memory.byte = service.memory.byte
 devices : service'.readToClear = service.readToClear ∨
  (∃ address size value permissions, call = .mapReadToClear address size value permissions) ∧
   service'.readToClear = service.readToClear.filter service.isMapped

theorem Kept.refl (service : MemoryService) (call : Call) : Kept service call service :=
 ⟨rfl, rfl, rfl, rfl, rfl, fun hfresh => ⟨hfresh, rfl⟩, .inl rfl⟩

/-- What a change of the mappings that went through keeps of the service. -/
structure Remapped (service service' : MemoryService) : Prop where
 generation : service.addressSpace.generation < service'.addressSpace.generation
 active : service'.active = service.active
 lastInstruction : service'.lastInstruction = service.lastInstruction
 nextMemoryOrder : service'.nextMemoryOrder = service.nextMemoryOrder
 effectOrders : service'.effectOrders = service.effectOrders
 memory : service.memory.Fresh → service'.memory.Fresh ∧ service'.memory.byte = service.memory.byte

/-- An instruction that may be committed. -/
structure Committable (service : MemoryService) (id : Nat) (pending : PendingInstruction) : Prop where
 active : service.active = some pending
 id : pending.id = id
 failed : pending.failed = false
 generation : pending.mappingGeneration = service.addressSpace.generation

/-- What each call with its reply does to the service. -/
inductive Called (service : MemoryService) : Call → Reply → MemoryService → Prop
 | refused {call : Call} {reply : Reply} {service' : MemoryService} (h : reply.refused = true)
   (kept : Kept service call service') : Called service call reply service'
 | begun {id : Nat} (idle : service.active = none) (later : ∀ last ∈ service.lastInstruction, last < id) :
   Called service (.beginInstruction id) .done { service.pruneReadToClear with
    lastInstruction := some id
    effectOrders := fun _ => none
    active := some ⟨id, 0, [], false, service.addressSpace.generation⟩ }
 | served {request : EffectRequest} {response : EffectResponse} {service' : MemoryService} {active : PendingInstruction}
   (committable : Committable service request.id.instruction active)
   (sequence : request.id.sequence = active.nextSequence) (h : Accepted service request response service') :
   Called service (.service request true) (.served response) service'
 | committed {id : Nat} {active : PendingInstruction} {after : MemoryService} (committable : Committable service id active)
   (h : Published service active.stores after) : Called service (.commitInstruction id) .done { after with active := none }
 | aborted {id : Nat} {active : PendingInstruction} (h : service.active = some active) :
   Called service (.abortInstruction id) .done { service with active := none }
 | remapped {call : Call} {service' : MemoryService} (change : call.changesMappings = true) (h : Remapped service service') :
   Called service call .done service'
 | created {size : Nat} {backing : BackingId} {memory : Memory}
   (h : service.memory.createBacking size = .ok (backing, memory)) :
   Called service (.createBacking size) (.created backing) { service with memory := memory }

/-! ### Instructions -/

theorem called_begin (service : MemoryService) (id : Nat) :
  Called service (.beginInstruction id) (Reply.ofTrap (service.beginInstruction id).1)
   (service.beginInstruction id).2 := by
 unfold beginInstruction
 split
 · exact .refused rfl (Kept.refl _ _)
 · rename_i hfree
   rw [Bool.or_eq_true, not_or, Option.isSome_iff_ne_none, not_ne_iff] at hfree
   refine .begun hfree.1 fun last hlast => ?_
   simp_all

theorem called_abort (service : MemoryService) (id : Nat) :
  Called service (.abortInstruction id) (Reply.ofTrap (service.abortInstruction id).1)
   (service.abortInstruction id).2 := by
 unfold abortInstruction
 split
 · exact .refused rfl (Kept.refl _ _)
 · rename_i hopen
   cases hactive : service.active with
   | none =>
    grind
   | some active => exact .aborted hactive

theorem committable_of_refusal (h : service.refusal request = none) :
  ∃ active, Committable service request.id.instruction active ∧ request.id.sequence = active.nextSequence := by
 unfold refusal at h
 split at h
 · nomatch h
 · rename_i active hactive
   split at h
   · nomatch h
   · rename_i hid
     rw [not_or, not_ne_iff, not_ne_iff] at hid
     split at h
     · nomatch h
     · rename_i hfailed
       split at h
       · nomatch h
       · rename_i hgen
         exact ⟨active, ⟨hactive, hid.1.symm, Bool.eq_false_iff.2 hfailed, not_ne_iff.1 hgen⟩, hid.2⟩

theorem called_serve {ready : Bool} {result : Except SimTrap (Option EffectResponse)}
  (h : service.serve request ready = some (result, service')) :
  Called service (.service request ready) (Reply.ofResponse result) service' := by
 unfold serve at h
 split at h
 · cases h
   exact .refused rfl (Kept.refl _ _)
 · rename_i hrefusal
   cases ready with
   | false =>
    cases h
    exact .refused rfl (Kept.refl _ _)
   | true =>
    obtain ⟨⟨response, after⟩, haccept, houtcome⟩ := map_eq_some_iff.1 h
    cases houtcome
    obtain ⟨active, hcommittable, hseq⟩ := committable_of_refusal hrefusal
    exact .served hcommittable hseq (accept_spec haccept)

/-- A commit of an instruction whose stores can all be written goes through. -/
theorem commitInstruction_spec {id : Nat} {active : PendingInstruction}
  (hcommittable : Committable service id active) (hwritable : ∀ store ∈ active.stores, Writable service store)
  (h : service.commitInstruction id = some (result, service')) :
  result = .ok () ∧ ∃ after, Published service active.stores after ∧ service' = { after with active := none } := by
 unfold commitInstruction at h
 have hfilter : (service.active.filter fun active => active.id == id && !active.failed &&
   active.mappingGeneration == service.addressSpace.generation) = some active := by
  rw [hcommittable.active, filter_some, hcommittable.id, hcommittable.failed, hcommittable.generation]
  simp
 rw [hfilter] at h
 dsimp only at h
 rw [validateStores_eq_ok.2 hwritable] at h
 dsimp only at h
 split at h
 · nomatch h
 · rename_i hpublish
   exact absurd (publishStores_spec (by exact hwritable) hpublish).1 nofun
 · rename_i after hpublish
   cases h
   obtain ⟨-, hpub⟩ := publishStores_spec (by exact hwritable) hpublish
   exact ⟨rfl, after, { hpub with
    ordered := fun last effects hord => hpub.ordered last effects (hord.congr rfl rfl) }, rfl⟩

theorem called_commit {id : Nat} (h : service.commitInstruction id = some (result, service')) :
  Called service (.commitInstruction id) (Reply.ofTrap result) service' := by
 cases hfilter : service.active.filter fun active =>
   active.id == id && !active.failed && active.mappingGeneration == service.addressSpace.generation with
 | none =>
  unfold commitInstruction at h
  rw [hfilter] at h
  cases h
  exact .refused rfl (Kept.refl _ _)
 | some active =>
  obtain ⟨hactive, hchecks⟩ := filter_eq_some_iff.1 hfilter
  rw [Bool.and_eq_true, Bool.and_eq_true, beq_iff_eq, beq_iff_eq, Bool.not_eq_true'] at hchecks
  have hcommittable : Committable service id active := ⟨hactive, hchecks.1.1, hchecks.1.2, hchecks.2⟩
  cases hvalid : service.validateStores active.stores with
  | error trap =>
   unfold commitInstruction at h
   rw [hfilter] at h
   dsimp only at h
   rw [hvalid] at h
   cases h
   exact .refused rfl (Kept.refl _ _)
  | ok _ =>
   obtain ⟨rfl, after, hpub, rfl⟩ := commitInstruction_spec hcommittable (validateStores_eq_ok.1 hvalid) h
   exact .committed hcommittable hpub

/-! ### Mapping changes -/

theorem nextGeneration_spec {generation : Nat}
  (h : space.nextGeneration address access = .ok generation) : generation = space.generation + 1 := by
 unfold AddressSpace.nextGeneration checkedAdd at h
 split at h
 · rename_i found hfound
   split at hfound
   · grind
   · cases hfound
 · cases h

theorem replaceRange_spec {start stop : Nat} {permissions : Option Permissions} (h : space.replaceRange start stop permissions access = .ok space') :
  space'.generation = space.generation + 1 := by
 unfold AddressSpace.replaceRange at h
 split at h
 · cases hgen : space.nextGeneration start access with
   | error error =>
    simp_all
   | ok generation =>
    rw [hgen] at h
    cases h
    exact nextGeneration_spec hgen
 · nomatch h

theorem protect_spec
  (h : Memory.protect space address size permissions = .ok space') : space'.generation = space.generation + 1 := by
 unfold Memory.protect at h
 cases hstop : checkedEnd address size .protect with
 | error error =>
  rw [hstop] at h
  nomatch h
 | ok stop =>
  rw [hstop] at h
  exact replaceRange_spec h

theorem unmap_spec
  (h : Memory.unmap space address size = .ok space') : space'.generation = space.generation + 1 := by
 unfold Memory.unmap at h
 cases hstop : checkedEnd address size .unmap with
 | error error =>
  rw [hstop] at h
  nomatch h
 | ok stop =>
  rw [hstop] at h
  exact replaceRange_spec h

theorem map_spec {memory : Memory} {backing : BackingId} {backingOffset : Nat}
  (h : memory.map space address size backing backingOffset permissions = .ok space') :
  space'.generation = space.generation + 1 := by
 unfold Memory.map at h
 cases hstop : checkedEnd address size .map with
 | error error =>
  rw [hstop] at h
  nomatch h
 | ok stop =>
  cases hend : checkedEnd backingOffset size .map with
  | error error =>
   rw [hstop, hend] at h
   nomatch h
  | ok backingEnd =>
   rw [hstop, hend] at h
   cases hbacking : memory.backings backing with
   | none =>
    rw [hbacking] at h
    nomatch h
   | some found =>
    rw [hbacking] at h
    dsimp only [bind, Except.bind] at h
    split at h
    · nomatch h
    · split at h
      · nomatch h
      · cases hgen : space.nextGeneration address .map with
        | error error =>
         grind
        | ok generation =>
         rw [hgen] at h
         cases h
         exact nextGeneration_spec hgen

theorem called_remap {call : Call} (hchange : call.changesMappings = true) {change : Except MemoryError AddressSpace}
  (h : ∀ space, change = .ok space → space.generation = service.addressSpace.generation + 1) :
  Called service call (service.remap change).1 (service.remap change).2 := by
 cases change with
 | error error => exact .refused rfl (Kept.refl _ _)
 | ok space =>
  have hgen : service.addressSpace.generation < space.generation := by
   grind
  exact .remapped hchange ⟨hgen, rfl, rfl, rfl, rfl, fun hfresh => ⟨hfresh, rfl⟩⟩

theorem called_unmap (service : MemoryService) (address size : Nat) :
  Called service (.unmap address size) (Reply.ofError (service.unmap address size).1) (service.unmap address size).2 := by
 unfold unmap
 split
 · exact .refused rfl (Kept.refl _ _)
 · rename_i space hspace
   have hgen : service.addressSpace.generation < space.generation := by
    grind [unmap_spec]
   exact .remapped rfl ⟨hgen, rfl, rfl, rfl, rfl, fun hfresh => ⟨hfresh, rfl⟩⟩

theorem called_mapReadToClear (service : MemoryService) (address size value : Nat) (permissions : Permissions) :
  Called service (.mapReadToClear address size value permissions)
   (Reply.ofError (service.mapReadToClear address size value permissions).1)
   (service.mapReadToClear address size value permissions).2 := by
 have hpruned : ∀ memory : Memory,
   (service.memory.Fresh → memory.Fresh ∧ memory.byte = service.memory.byte) →
   Kept service (.mapReadToClear address size value permissions) { service.pruneReadToClear with memory := memory } :=
  fun memory hmemo => ⟨rfl, rfl, rfl, rfl, rfl, hmemo, .inr ⟨⟨_, _, _, _, rfl⟩, rfl⟩⟩
 unfold mapReadToClear
 dsimp only
 split
 · exact .refused rfl (hpruned service.memory fun hfresh => ⟨hfresh, rfl⟩)
 · split
   · exact .refused rfl (hpruned service.memory fun hfresh => ⟨hfresh, rfl⟩)
   · rename_i backing memory hcreate
     have hmemo : service.memory.Fresh → memory.Fresh ∧ memory.byte = service.memory.byte :=
      fun hfresh => ⟨Memory.fresh_createBacking hfresh hcreate, Memory.byte_createBacking hfresh hcreate⟩
     split
     · exact .refused rfl (hpruned memory hmemo)
     · rename_i space hspace
       have hgen : service.addressSpace.generation < space.generation := by
        rw [map_spec hspace]
        exact Nat.lt_succ_self _
       exact .remapped rfl ⟨hgen, rfl, rfl, rfl, rfl, hmemo⟩

/-- **Every call is one of the cases.** -/
theorem called_call {call : Call} {reply : Reply} (h : service.call call = some (reply, service')) :
  Called service call reply service' := by
 cases call with
 | beginInstruction id =>
  cases h
  exact called_begin service id
 | service request ready =>
  obtain ⟨outcome, hserve, houtcome⟩ := map_eq_some_iff.1 h
  cases houtcome
  exact called_serve hserve
 | commitInstruction id =>
  obtain ⟨outcome, hcommit, houtcome⟩ := map_eq_some_iff.1 h
  cases houtcome
  exact called_commit hcommit
 | abortInstruction id =>
  cases h
  exact called_abort service id
 | unmap address size =>
  cases h
  exact called_unmap service address size
 | mapReadToClear address size value permissions =>
  cases h
  exact called_mapReadToClear service address size value permissions
 | createBacking size =>
  unfold MemoryService.call at h
  dsimp only at h
  split at h
  · rename_i backing memory hcreate
    cases h
    exact .created hcreate
  · cases h
    exact .refused rfl (Kept.refl _ _)
 | map address size backing backingOffset permissions =>
  obtain ⟨rfl, rfl⟩ := Prod.mk.inj (some.inj h)
  exact called_remap rfl fun space hspace => map_spec hspace
 | protect address size permissions =>
  obtain ⟨rfl, rfl⟩ := Prod.mk.inj (some.inj h)
  exact called_remap rfl fun space hspace => protect_spec hspace
 | rawUnmap address size =>
  obtain ⟨rfl, rfl⟩ := Prod.mk.inj (some.inj h)
  exact called_remap rfl fun space hspace => unmap_spec hspace

end MemoryService

end Tir.Simcore
