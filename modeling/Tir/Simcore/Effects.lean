import Tir.Simcore.MemoryBytes
import Tir.Simcore.MemoryService

/-!
# What an effect changes

`Executed` says everything an effect can change of the service: a fault leaves all but the reservation,
only the two atomic writes reach memory, only a read touches a device, and a plain store is staged.
-/

open List Option

namespace Tir.Simcore

open Tir.Bytes (Byte)

/-- An effect that writes memory when it is served. -/
def MemoryEffect.writesAtOnce : MemoryEffect → Bool
 | .storeConditional _ _ _ _ | .atomicRmw _ _ _ _ _ => true
 | _ => false

/-- The plain store an effect stages. -/
def MemoryEffect.staged (id : RequestId) : MemoryEffect → Option PendingStore
 | .write address bytes => some ⟨id, address, bytes⟩
 | _ => none

namespace MemoryService

variable {service service' : MemoryService}

/-- A staged store passes the check of its write. -/
def Writable (service : MemoryService) (store : PendingStore) : Prop :=
 Memory.validate service.addressSpace store.address store.bytes.length .write = .ok ()

/-- What one effect, with this result, can change of a service. -/
structure Executed (service : MemoryService) (id : RequestId) (effect : MemoryEffect)
  (result : Except SimTrap ResponseValue) (service' : MemoryService) : Prop where
 addressSpace : service'.addressSpace = service.addressSpace
 lastInstruction : service'.lastInstruction = service.lastInstruction
 nextMemoryOrder : service'.nextMemoryOrder = service.nextMemoryOrder
 effectOrders : service'.effectOrders = service.effectOrders
 memory : service'.memory = service.memory ∨ result.isOk = true ∧ effect.writesAtOnce = true ∧
  service'.memory.nextBackingId = service.memory.nextBackingId ∧
  ∀ other, service.memory.backings other = none → service'.memory.backings other = none
 devices : service'.readToClear = service.readToClear ∨
  result.isOk = true ∧ effect.linearizesImmediately = true ∧
   service'.readToClear.map (·.backing) = service.readToClear.map (·.backing)
 active : service'.active = service.active.map fun active =>
  if result.isOk then { active with stores := active.stores ++ (effect.staged id).toList } else active
 writable : result.isOk = true → ∀ store ∈ effect.staged id, Writable service store

/-- An effect that changes no more than the reservation. -/
theorem Executed.of_reservation {id : RequestId} {effect : MemoryEffect} {result : Except SimTrap ResponseValue}
  (reservation : Option (Nat × Nat × Nat)) (h : effect.staged id = none ∨ result.isOk = false) :
  Executed service id effect result { service with reservation := reservation } where
 addressSpace := rfl
 lastInstruction := rfl
 nextMemoryOrder := rfl
 effectOrders := rfl
 memory := .inl rfl
 devices := .inl rfl
 active := by
  rcases h with h | h
  · simp [h, toList_none, append_nil, ite_self, Option.map_id']
  · simp [h, Bool.false_eq_true, Option.map_id']
 writable := by
  intro hok store hstore
  rcases h with h | h
  · grind
  · exact absurd (h.symm.trans hok) Bool.false_ne_true

theorem Executed.refl {id : RequestId} {effect : MemoryEffect} {result : Except SimTrap ResponseValue}
  (h : effect.staged id = none ∨ result.isOk = false) : Executed service id effect result service :=
 Executed.of_reservation service.reservation h

/-! ## Reads and writes -/

theorem readEffect_spec {address size : Nat} {result : Except SimTrap ResponseValue}
  (h : service.readEffect address size = some (result, service')) :
  service' = service ∨ result.isOk = true ∧ ∃ devices : List ReadToClear,
   devices.map (·.backing) = service.readToClear.map (·.backing) ∧
    service' = { service with readToClear := devices } := by
 unfold readEffect at h
 split at h
 · grind
 · split at h
   · grind
   · rename_i index offset _
     obtain ⟨device, hdevice, h⟩ := bind_eq_some_iff.1 h
     obtain ⟨reads, -, h⟩ := bind_eq_some_iff.1 h
     cases h
     refine .inr ⟨rfl, _, ?_, rfl⟩
     rw [map_set]
     obtain ⟨hlt, rfl⟩ := List.getElem?_eq_some_iff.1 hdevice
     conv_lhs => rw [← getElem_map ReadToClear.backing (h := by rwa [length_map])]
     exact set_getElem_self _
   · obtain ⟨outcome, -, h⟩ := bind_eq_some_iff.1 h
     grind

/-- An access that is checked to be of memory finds no device. -/
theorem deviceForAccess_of_validateRamAccess {address size : Nat} {access : MemoryAccess}
  (h : service.validateRamAccess address size access = .ok ()) :
  service.deviceForAccess address size access = .ok none := by
 unfold validateRamAccess at h
 cases hvalid : Memory.validate service.addressSpace address size access with
 | error error =>
  rw [hvalid] at h
  nomatch h
 | ok _ =>
  rw [hvalid] at h
  cases hdevice : service.deviceForAccess address size access with
  | error error =>
   rw [hdevice] at h
   nomatch h
  | ok device =>
   cases device with
   | none => rfl
   | some found =>
    rw [hdevice] at h
    nomatch h

/-- A word of memory that is no device is read without a change. -/
theorem readWord_spec {address size : Nat} {result : Except SimTrap Nat}
  (hram : service.validateRamAccess address size .read = .ok ())
  (h : service.readWord address size = some (result, service')) : service' = service := by
 have hquiet : ∀ {result : Except SimTrap ResponseValue} {service' : MemoryService},
   service.readEffect address size = some (result, service') → service' = service := by
  intro result service' hread
  unfold readEffect at hread
  rw [deviceForAccess_of_validateRamAccess hram] at hread
  split at hread
  · exact (Prod.mk.inj (some.inj hread)).2.symm
  · obtain ⟨outcome, -, hread⟩ := bind_eq_some_iff.1 hread
    grind
 unfold readWord at h
 split at h
 · exact (Prod.mk.inj (some.inj h)).2.symm
 · cases hread : service.readEffect address size with
   | none =>
    grind
   | some outcome =>
    grind

/-- A word that is written changes memory alone, and one that is not changes nothing. -/
theorem writeWord_spec {address size value : Nat} {result : Except SimTrap Unit}
  (h : service.writeWord address size value = some (result, service')) :
  service' = service ∨ result.isOk = true ∧ ∃ memory : Memory, service' = { service with memory := memory } ∧
   memory.nextBackingId = service.memory.nextBackingId ∧
   ∀ other, service.memory.backings other = none → memory.backings other = none := by
 unfold writeWord at h
 split at h
 · exact .inl (Prod.mk.inj (some.inj h)).2.symm
 · obtain ⟨outcome, hwrite, h⟩ := bind_eq_some_iff.1 h
   cases outcome with
   | error error => exact .inl (Prod.mk.inj (some.inj h)).2.symm
   | ok memory =>
    cases h
    exact .inr ⟨rfl, memory, rfl, Memory.keeps_of_write hwrite⟩

/-! ## The effects -/

theorem executed_read {id : RequestId} {address size : Nat} {result : Except SimTrap ResponseValue}
  (h : service.readEffect address size = some (result, service')) :
  Executed service id (.read address size) result service' := by
 rcases readEffect_spec h with rfl | ⟨hok, devices, hdevices, rfl⟩
 · exact Executed.refl (.inl rfl)
 · have hsame : Executed service id (.read address size) result service := Executed.refl (.inl rfl)
   exact { hsame with devices := .inr ⟨hok, rfl, hdevices⟩ }

theorem executed_write {id : RequestId} {address : Nat} {bytes : List Byte} {result : Except SimTrap ResponseValue}
  (h : service.writeEffect id address bytes = some (result, service')) :
  Executed service id (.write address bytes) result service' := by
 unfold writeEffect at h
 split at h
 · cases h
   exact Executed.refl (.inr rfl)
 · rename_i hvalid
   split at h
   · cases h
     exact Executed.refl (.inr rfl)
   · cases h
     exact Executed.refl (.inr rfl)
   · obtain ⟨active, hactive, h⟩ := bind_eq_some_iff.1 h
     cases h
     refine ⟨rfl, rfl, rfl, rfl, .inl rfl, .inl rfl, ?_, ?_⟩
     · rw [hactive]
       rfl
     · intro _ store hstore
       cases hstore
       exact hvalid

theorem executed_loadReserved {id : RequestId} {address size : Nat} {ordering : Tir.Lang.MemOrdering}
  {result : Except SimTrap ResponseValue} (h : service.loadReserved address size = some (result, service')) :
  Executed service id (.loadReserved address size ordering) result service' := by
 unfold loadReserved at h
 split at h
 · cases h
   exact Executed.refl (.inl rfl)
 · rename_i hram
   split at h
   · nomatch h
   · rename_i hread
     cases h
     obtain rfl := readWord_spec hram hread
     exact Executed.refl (.inl rfl)
   · rename_i hread
     cases h
     obtain rfl := readWord_spec hram hread
     exact Executed.of_reservation _ (.inl rfl)

theorem executed_storeConditional {id : RequestId} {address size value : Nat} {ordering : Tir.Lang.MemOrdering}
  {result : Except SimTrap ResponseValue} (h : service.storeConditional address size value = some (result, service')) :
  Executed service id (.storeConditional address size value ordering) result service' := by
 unfold storeConditional at h
 have htaken : ∀ result : Except SimTrap ResponseValue, Executed service id
   (.storeConditional address size value ordering) result { service with reservation := none } :=
  fun result => Executed.of_reservation none (.inl rfl)
 dsimp only at h
 split at h
 · split at h
   · grind
   · split at h
     · nomatch h
     · rename_i trap after hwrite
       cases h
       rcases writeWord_spec hwrite with rfl | ⟨hok, -⟩
       · exact htaken _
       · nomatch hok
     · rename_i after hwrite
       cases h
       rcases writeWord_spec hwrite with rfl | ⟨-, memory, rfl, hkeeps⟩
       · exact htaken _
       · exact { htaken (.ok (.word 1)) with memory := .inr ⟨rfl, rfl, hkeeps⟩ }
 grind

theorem executed_atomicRmw {id : RequestId} {op : Tir.Lang.AtomicRmwOp} {address size value : Nat}
  {ordering : Tir.Lang.MemOrdering} {result : Except SimTrap ResponseValue}
  (h : service.atomicRmw op address size value = some (result, service')) :
  Executed service id (.atomicRmw op address size value ordering) result service' := by
 unfold atomicRmw at h
 have hsame : ∀ result : Except SimTrap ResponseValue, Executed service id
   (.atomicRmw op address size value ordering) result service := fun result => Executed.refl (.inl rfl)
 split at h
 · grind
 · rename_i hram
   split at h
   · grind
   · split at h
     · nomatch h
     · grind [readWord_spec]
     · rename_i hread
       obtain rfl := readWord_spec hram hread
       split at h
       · grind
       · obtain ⟨old, -, h⟩ := bind_eq_some_iff.1 h
         obtain ⟨new, -, h⟩ := bind_eq_some_iff.1 h
         obtain ⟨applied, -, h⟩ := bind_eq_some_iff.1 h
         split at h
         · nomatch h
         · rename_i hwrite
           cases h
           rcases writeWord_spec hwrite with rfl | ⟨hok, -⟩
           · exact hsame _
           · nomatch hok
         · rename_i hwrite
           cases h
           rcases writeWord_spec hwrite with rfl | ⟨-, memory, rfl, hkeeps⟩
           · exact hsame _
           · exact { hsame (.ok (.word _)) with memory := .inr ⟨rfl, rfl, hkeeps⟩ }

/-- **What an effect changes, whichever it is.** -/
theorem executed_executeEffect {id : RequestId} {effect : MemoryEffect} {result : Except SimTrap ResponseValue}
  (h : service.executeEffect id effect = some (result, service')) : Executed service id effect result service' := by
 cases effect with
 | read address size => exact executed_read h
 | write address bytes => exact executed_write h
 | loadReserved address size ordering => exact executed_loadReserved h
 | storeConditional address size value ordering => exact executed_storeConditional h
 | atomicRmw op address size value ordering => exact executed_atomicRmw h
 | fence pred succ kind =>
  cases h
  exact Executed.refl (.inl rfl)
 | exception cause =>
  cases h
  exact Executed.refl (.inl rfl)

end MemoryService

end Tir.Simcore
