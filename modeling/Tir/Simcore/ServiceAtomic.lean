import Tir.Simcore.ServiceCalls

/-!
# Instruction-atomic memory effects

`Tracks` says that a service holds what its trace says of it. It holds in every run (`tracks_of_run`), and
the results are read off it: what a run gives of identities and of the memory order (`RunEffects`), and
what the next call may do to memory (`CallEffects`).
-/

open List Option Bool

namespace Tir.Simcore

open Tir.Bytes (Byte)
open MemoryService

namespace Trace

variable {trace : Trace} {call : Call} {reply : Reply}

/-- Two traces tell the same of instructions and effects. -/
structure Quiet (trace trace' : Trace) : Prop where
 begun : trace'.begun = trace.begun
 opened : trace'.opened = trace.opened
 accepted : trace'.accepted = trace.accepted
 served : trace'.served = trace.served
 linearized : trace'.linearized = trace.linearized

/-- A refused call leaves no mark. -/
theorem quiet_refused (h : reply.refused = true) (trace : Trace) : Quiet trace ((call, reply) :: trace) := by
 cases reply with
 | done => nomatch h
 | served response => nomatch h
 | created backing => nomatch h
 | notReady => cases call <;> exact ⟨rfl, rfl, rfl, rfl, rfl⟩
 | trapped trap => cases call <;> exact ⟨rfl, rfl, rfl, rfl, rfl⟩
 | failed error => cases call <;> exact ⟨rfl, rfl, rfl, rfl, rfl⟩

theorem remapped_refused (h : reply.refused = true) (trace : Trace) :
  remapped ((call, reply) :: trace) = trace.remapped := by
 cases reply with
 | done => nomatch h
 | served response => nomatch h
 | created backing => nomatch h
 | notReady => cases call <;> rfl
 | trapped trap => cases call <;> rfl
 | failed error => cases call <;> rfl

/-- A change of the mappings is no instruction and no effect. -/
theorem quiet_remapped (h : call.changesMappings = true) (trace : Trace) : Quiet trace ((call, .done) :: trace) := by
 cases call with
 | unmap address size => exact ⟨rfl, rfl, rfl, rfl, rfl⟩
 | mapReadToClear address size value permissions => exact ⟨rfl, rfl, rfl, rfl, rfl⟩
 | map address size backing backingOffset permissions => exact ⟨rfl, rfl, rfl, rfl, rfl⟩
 | protect address size permissions => exact ⟨rfl, rfl, rfl, rfl, rfl⟩
 | rawUnmap address size => exact ⟨rfl, rfl, rfl, rfl, rfl⟩
 | _ => nomatch h

theorem remapped_remapped (h : call.changesMappings = true) (trace : Trace) :
  remapped ((call, .done) :: trace) = true := by
 cases call with
 | unmap address size => rfl
 | mapReadToClear address size value permissions => rfl
 | map address size backing backingOffset permissions => rfl
 | protect address size permissions => rfl
 | rawUnmap address size => rfl
 | _ => nomatch h

/-- The identities of plain stores are those of their requests. -/
theorem mem_plainStores {store : PendingStore} (h : store ∈ trace.plainStores) :
  ∃ entry ∈ trace.accepted, entry.1.effect.staged entry.1.id = some store := by
 obtain ⟨entry, hin, hstore⟩ := mem_filterMap.1 h
 unfold storeOf at hstore
 split at hstore
 · exact ⟨entry, hin, hstore⟩
 · nomatch hstore

end Trace

theorem MemoryEffect.id_of_staged {effect : MemoryEffect} {id : RequestId} {store : PendingStore}
  (h : effect.staged id = some store) : store.id = id ∧ effect.linearizesImmediately = false := by
 cases effect with
 | write address bytes =>
  cases h
  exact ⟨rfl, rfl⟩
 | _ => nomatch h

/-- One request is one plain store at most. -/
theorem Trace.filterMap_storeOf (entry : Trace.Entry) :
  [entry].filterMap Trace.storeOf = if entry.2.isOk then (entry.1.effect.staged entry.1.id).toList else [] := by
 have hone : [entry].filterMap Trace.storeOf = (Trace.storeOf entry).toList := by
  grind
 rw [hone, Trace.storeOf]
 split
 · rfl
 · rfl

theorem Trace.ids_plainStores (entries : List Trace.Entry) :
  ((entries.filterMap Trace.storeOf).map (·.id)).Sublist (entries.map (·.1.id)) := by
 induction entries with
 | nil => exact Sublist.refl []
 | cons entry entries ih =>
  cases hstore : Trace.storeOf entry with
  | none =>
   grind
  | some store =>
   have hid : store.id = entry.1.id := by
    unfold Trace.storeOf at hstore
    split at hstore
    · exact (MemoryEffect.id_of_staged hstore).1
    · nomatch hstore
   grind

/-! ## The invariant -/

/-- A service holds what its trace says. -/
structure Tracks (service : MemoryService) (trace : Trace) : Prop where
 fresh : service.memory.Fresh
 last : service.lastInstruction = trace.begun.getLast?
 ascending : trace.begun.Pairwise (· < ·)
 active : ∃ generation, service.active = trace.opened.map (fun id =>
   ⟨id, trace.accepted.length, trace.plainStores, trace.faulted, generation⟩) ∧
  (trace.opened.isSome = true → generation ≤ service.addressSpace.generation ∧
   (generation = service.addressSpace.generation ↔ trace.remapped = false))
 openedLast : ∀ id ∈ trace.opened, trace.begun.getLast? = some id
 writable : trace.opened.isSome = true → trace.remapped = false → ∀ store ∈ trace.plainStores, Writable service store
 numbered : ∀ (i : Nat) (entry : Trace.Entry), trace.accepted[i]? = some entry →
  trace.begun.getLast? = some entry.1.id.instruction ∧ entry.1.id.sequence = i
 served : ∀ id ∈ trace.served, ∃ last, trace.begun.getLast? = some last ∧
  (id.instruction < last ∨ id.instruction = last ∧ id.sequence < trace.accepted.length)
 servedOnce : trace.served.Nodup
 linearized : ∀ id ∈ trace.linearized, ∃ last, trace.begun.getLast? = some last ∧
  (id.instruction < last ∨ id.instruction = last ∧ ∃ entry : Trace.Entry, trace.accepted[id.sequence]? = some entry ∧
   (trace.opened.isSome = true → entry.1.effect.linearizesImmediately = true))
 ordered : Ordered service trace.begun.getLast? trace.linearized

variable {service service' : MemoryService} {trace : Trace} {call : Call} {reply : Reply}

theorem tracks_new : Tracks .new [] where
 fresh := fun _ _ => rfl
 last := rfl
 ascending := Pairwise.nil
 active := ⟨0, rfl, nofun⟩
 openedLast := nofun
 writable := nofun
 numbered := nofun
 served := nofun
 servedOnce := nodup_nil
 linearized := nofun
 ordered := ⟨rfl, fun _ _ => ⟨nofun, nofun⟩, nodup_nil⟩

variable {id : Nat} {pending : PendingInstruction}

/-- The stores of the open instruction have identities of their own, which took no place yet. -/
theorem Tracks.stores (h : Tracks service trace) (hopened : trace.opened = some id) :
  (∀ store ∈ trace.plainStores, store.id.instruction = id ∧ store.id ∉ trace.linearized) ∧
   (trace.plainStores.map (·.id)).Nodup := by
 have hlast := h.openedLast id hopened
 constructor
 · intro store hstore
   obtain ⟨entry, hent, hstaged⟩ := Trace.mem_plainStores hstore
   obtain ⟨hid, hlater⟩ := MemoryEffect.id_of_staged hstaged
   obtain ⟨i, hi⟩ := mem_iff_getElem?.1 hent
   obtain ⟨hinst, hseq⟩ := h.numbered i entry hi
   have hsame : entry.1.id.instruction = id := some.inj (hinst.symm.trans hlast)
   rw [hid]
   refine ⟨hsame, fun hin => ?_⟩
   obtain ⟨last, hlast', hcases⟩ := h.linearized _ hin
   cases hlast.symm.trans hlast'
   rcases hcases with hlt | ⟨-, other, hother, himmediate⟩
   · exact lt_irrefl _ (hsame ▸ hlt)
   grind
 · -- requests are numbered by their position
   have hids : (trace.accepted.map (·.1.id)).Nodup := by
    rw [nodup_iff_getElem?_ne_getElem?]
    intro i j hij hlt heq
    rw [length_map] at hlt
    rw [getElem?_map, getElem?_map, getElem?_eq_getElem (hij.trans hlt),
     getElem?_eq_getElem hlt] at heq
    have hi := (h.numbered i _ (getElem?_eq_getElem (hij.trans hlt))).2
    have hj := (h.numbered j _ (getElem?_eq_getElem hlt)).2
    grind
   exact (Trace.ids_plainStores trace.accepted).nodup hids

/-! ## Steps -/

/-- A call that is no instruction and no effect keeps the invariant; the mappings may be newer after it. -/
theorem Tracks.congr {trace' : Trace} (h : Tracks service trace) (hquiet : Trace.Quiet trace trace')
  (hfresh : service'.memory.Fresh) (hlast : service'.lastInstruction = service.lastInstruction)
  (hactive : service'.active = service.active) (hnext : service'.nextMemoryOrder = service.nextMemoryOrder)
  (horders : service'.effectOrders = service.effectOrders)
  (hspace : service'.addressSpace = service.addressSpace ∧ trace'.remapped = trace.remapped ∨
   service.addressSpace.generation < service'.addressSpace.generation ∧ trace'.remapped = true) :
  Tracks service' trace' := by
 have hstores : trace'.plainStores = trace.plainStores := by
  rw [Trace.plainStores, hquiet.accepted, Trace.plainStores]
 have hfaulted : trace'.faulted = trace.faulted := by
  rw [Trace.faulted, hquiet.accepted, Trace.faulted]
 obtain ⟨generation, hgiven, hgen⟩ := h.active
 refine ⟨hfresh, ?_, ?_, ⟨generation, ?_, ?_⟩, ?_, ?_, ?_, ?_, ?_, ?_, ?_⟩
 · rw [hlast, hquiet.begun, h.last]
 · rw [hquiet.begun]
   exact h.ascending
 · rw [hactive, hgiven, hquiet.opened, hquiet.accepted, hstores, hfaulted]
 · rw [hquiet.opened]
   intro hopened
   rcases hspace with ⟨hsame, hremapped⟩ | ⟨hnewer, hremapped⟩
   · grind
   grind
 · rw [hquiet.opened, hquiet.begun]
   exact h.openedLast
 · rw [hquiet.opened, hstores]
   intro hopened hsame store hstore
   rcases hspace with ⟨hspace, hremapped⟩ | ⟨-, hremapped⟩
   · unfold Writable
     rw [hspace]
     exact h.writable hopened (hremapped.symm.trans hsame) store hstore
   · exact absurd (hsame.symm.trans hremapped) Bool.false_ne_true
 · rw [hquiet.accepted, hquiet.begun]
   exact h.numbered
 · rw [hquiet.served, hquiet.begun, hquiet.accepted]
   exact h.served
 · rw [hquiet.served]
   exact h.servedOnce
 · rw [hquiet.linearized, hquiet.begun, hquiet.accepted, hquiet.opened]
   exact h.linearized
 · rw [hquiet.begun, hquiet.linearized]
   exact h.ordered.congr hnext horders

theorem le_last {begun : List Nat} {last : Nat} (h : begun.Pairwise (· < ·)) (hlast : begun.getLast? = some last) :
  ∀ id ∈ begun, id ≤ last := by
 obtain ⟨earlier, rfl⟩ := getLast?_eq_some_iff.1 hlast
 intro id hin
 rcases mem_append.1 hin with hin | hin
 · exact le_of_lt ((pairwise_append.1 h).2.2 id hin last (mem_singleton_self last))
 · rw [mem_singleton.1 hin]

section

variable (h : Tracks service trace)

include h

theorem Tracks.begin (hlater : ∀ last ∈ service.lastInstruction, last < id) : Tracks { service.pruneReadToClear with
    lastInstruction := some id
    effectOrders := fun _ => none
    active := some ⟨id, 0, [], false, service.addressSpace.generation⟩ }
   ((.beginInstruction id, .done) :: trace) := by
 have hlast : (trace.begun ++ [id]).getLast? = some id := getLast?_concat
 have hbef : ∀ last, trace.begun.getLast? = some last → last < id := fun last hlast =>
  hlater last (mem_def.2 (h.last.trans hlast))
 refine ⟨h.fresh, hlast.symm, ?_, ⟨service.addressSpace.generation, rfl, fun _ => ⟨le_rfl, fun _ => rfl, fun _ => rfl⟩⟩,
  ?_, ?_, ?_, ?_, h.servedOnce, ?_, ?_⟩
 · refine pairwise_append.2 ⟨h.ascending, pairwise_singleton _ _, fun earlier hearlier other hother => ?_⟩
   rw [mem_singleton.1 hother]
   cases hgiven : trace.begun.getLast? with
   | none =>
    grind
   | some last => exact (le_last h.ascending hgiven earlier hearlier).trans_lt (hbef last hgiven)
 · intro other hother
   rw [← some.inj (mem_def.1 hother)]
   exact hlast
 · intro _ _ store hstore
   nomatch hstore
 · intro i entry hent
   nomatch hent
 · intro other hother
   obtain ⟨last, hgiven, hcases⟩ := h.served other hother
   refine ⟨id, hlast, .inl ?_⟩
   rcases hcases with hlt | ⟨heq, -⟩
   · exact hlt.trans (hbef last hgiven)
   · exact heq ▸ hbef last hgiven
 · intro other hother
   obtain ⟨last, hgiven, hcases⟩ := h.linearized other hother
   refine ⟨id, hlast, .inl ?_⟩
   rcases hcases with hlt | ⟨heq, -⟩
   · exact hlt.trans (hbef last hgiven)
   · exact heq ▸ hbef last hgiven
 · -- no effect is of the new instruction yet
   refine ⟨h.ordered.next, fun other k => ⟨nofun, ?_⟩, h.ordered.once⟩
   rintro ⟨hk, hcur⟩
   obtain ⟨last, hgiven, hcases⟩ := h.linearized other (mem_of_getElem? hk)
   have hid : id = other.instruction := some.inj (hlast.symm.trans hcur)
   grind

/-- What the trace says of the instruction a service has open. -/
theorem Tracks.opened_of_active (hactive : service.active = some pending) :
  trace.opened = some pending.id ∧ pending.nextSequence = trace.accepted.length ∧
   pending.stores = trace.plainStores ∧ pending.failed = trace.faulted ∧
   (pending.mappingGeneration = service.addressSpace.generation ↔ trace.remapped = false) := by
 obtain ⟨generation, hgiven, hgen⟩ := h.active
 obtain ⟨id, hopened, rfl⟩ := map_eq_some_iff.1 (hgiven.symm.trans hactive)
 exact ⟨hopened, rfl, rfl, rfl, (hgen (by rw [hopened]; rfl)).2⟩

theorem Tracks.serve {request : EffectRequest} {ready : Bool} {response : EffectResponse} (hcommittable : Committable service request.id.instruction pending)
  (hseq : request.id.sequence = pending.nextSequence) (haccepted : Accepted service request response service') :
  Tracks service' ((.service request ready, .served response) :: trace) := by
 obtain ⟨hopened, hnext, hstores, hfailed, hgen⟩ := h.opened_of_active hcommittable.active
 have hlast : trace.begun.getLast? = some request.id.instruction := by
  rw [h.openedLast _ hopened, hcommittable.id]
 have hlen : request.id.sequence = trace.accepted.length := hseq.trans hnext
 have hfresh : ∀ id : RequestId, id.instruction = request.id.instruction → id.sequence < trace.accepted.length →
   id ≠ request.id := by
  grind
 have hunserved : request.id ∉ trace.served := by
  intro hin
  obtain ⟨last, hgiven, hcases⟩ := h.served _ hin
  cases hlast.symm.trans hgiven
  rcases hcases with hlt | ⟨heq, hlt⟩
  · exact lt_irrefl _ hlt
  · exact hfresh _ heq hlt rfl
 have hunplaced : request.id ∉ trace.linearized := by
  intro hin
  obtain ⟨last, hgiven, hcases⟩ := h.linearized _ hin
  cases hlast.symm.trans hgiven
  rcases hcases with hlt | ⟨heq, entry, hent, -⟩
  · exact lt_irrefl _ hlt
  · exact hfresh _ heq (List.getElem?_eq_some_iff.1 hent).1 rfl
 have hnew : (trace.accepted ++ [(request, response.result)])[request.id.sequence]? = some (request, response.result) := by
  rw [hlen, getElem?_concat_length]
 have hplain : Trace.plainStores ((.service request ready, .served response) :: trace) = trace.plainStores ++
   if response.result.isOk then (request.effect.staged request.id).toList else [] := by
  show (trace.accepted ++ [(request, response.result)]).filterMap Trace.storeOf = _
  rw [filterMap_append]
  exact congrArg _ (Trace.filterMap_storeOf (request, response.result))
 refine ⟨?_, ?_, h.ascending, ?_, h.openedLast, ?_, ?_, ?_, ?_, ?_, ?_⟩
 · rcases haccepted.memory with hmemo | ⟨-, -, hid, hbackings⟩
   · rw [hmemo]
     exact h.fresh
   · intro other hother
     exact hbackings other (h.fresh other (hid ▸ hother))
 · exact haccepted.lastInstruction.trans h.last
 · obtain ⟨active, hactive, hactive'⟩ := haccepted.active
   cases hcommittable.active.symm.trans hactive
   refine ⟨pending.mappingGeneration, ?_, fun _ => ⟨?_, ?_⟩⟩
   · have hfaulted : Trace.faulted ((.service request ready, .served response) :: trace) = !response.result.isOk := by
      show (trace.accepted ++ [(request, response.result)]).any (fun entry => !entry.2.isOk) = _
      have hsound : trace.accepted.any (fun entry => !entry.2.isOk) = false :=
       hfailed.symm.trans hcommittable.failed
      grind
     rw [hactive', hplain, hfaulted, hstores, hnext]
     show _ = trace.opened.map _
     rw [hopened]
     show _ = some _
     rw [show Trace.accepted ((.service request ready, .served response) :: trace) =
      trace.accepted ++ [(request, response.result)] from rfl, length_append]
     rfl
   · rw [haccepted.addressSpace]
     exact le_of_eq hcommittable.generation
   · rw [haccepted.addressSpace]
     exact hgen
 · intro hopen hsame store hstore
   rw [hplain] at hstore
   have hspace : Writable service' store ↔ Writable service store := by
    unfold Writable
    rw [haccepted.addressSpace]
   rw [hspace]
   rcases mem_append.1 hstore with hstore | hstore
   · exact h.writable hopen hsame store hstore
   · split at hstore
     · rename_i hok
       exact haccepted.writable hok store (mem_toList.1 hstore)
     · nomatch hstore
 · intro i entry hent
   have hent : (trace.accepted ++ [(request, response.result)])[i]? = some entry := hent
   rw [getElem?_append] at hent
   split at hent
   · exact h.numbered i entry hent
   · rename_i hge
     obtain ⟨hlt, hent⟩ := List.getElem?_eq_some_iff.1 hent
     rw [length_singleton] at hlt
     have hi : i = trace.accepted.length := by omega
     obtain rfl : entry = (request, response.result) := by
      grind
     exact ⟨hlast, hlen.trans hi.symm⟩
 · have hmore : trace.accepted.length <
     (Trace.accepted ((.service request ready, .served response) :: trace)).length := by
    show _ < (trace.accepted ++ [(request, response.result)]).length
    grind
   intro id hid
   rcases mem_append.1 hid with hid | hid
   · obtain ⟨last, hgiven, hcases⟩ := h.served id hid
     exact ⟨last, hgiven, hcases.imp_right fun hlt => ⟨hlt.1, hlt.2.trans hmore⟩⟩
   · rw [mem_singleton.1 hid]
     exact ⟨_, hlast, .inr ⟨rfl, hlen ▸ hmore⟩⟩
 · exact nodup_append.2 ⟨h.servedOnce, nodup_singleton _, fun a ha b hb heq =>
    hunserved (mem_singleton.1 hb ▸ heq ▸ ha)⟩
 · have hkept : ∀ id ∈ trace.linearized, ∃ last, trace.begun.getLast? = some last ∧
     (id.instruction < last ∨ id.instruction = last ∧ ∃ entry : Trace.Entry,
      (trace.accepted ++ [(request, response.result)])[id.sequence]? = some entry ∧
       (trace.opened.isSome = true → entry.1.effect.linearizesImmediately = true)) := by
    intro id hid
    obtain ⟨last, hgiven, hcases⟩ := h.linearized id hid
    grind
   intro id hid
   unfold Trace.linearized at hid
   split at hid
   · rename_i hplaced
     rcases mem_append.1 hid with hid | hid
     · exact hkept id hid
     · rw [mem_singleton.1 hid]
       exact ⟨_, hlast, .inr ⟨rfl, _, hnew, fun _ => (and_eq_true_iff.1 hplaced).2⟩⟩
   · exact hkept id hid
 · have hord : Ordered service (some request.id.instruction) trace.linearized := hlast ▸ h.ordered
   show Ordered service' trace.begun.getLast? _
   rw [hlast]
   exact haccepted.ordered _ hord hunplaced

/-- The commit of the open instruction. -/
theorem Tracks.commit {after : MemoryService}
  (hcommittable : Committable service id pending) (hpub : Published service pending.stores after) :
  Tracks { after with active := none } ((.commitInstruction id, .done) :: trace) := by
 obtain ⟨hopened, -, hstores, -, -⟩ := h.opened_of_active hcommittable.active
 rw [hcommittable.id] at hopened
 obtain ⟨hown, hnd⟩ := h.stores hopened
 have hlast := h.openedLast id hopened
 rw [hstores] at hpub
 refine ⟨?_, ?_, h.ascending, ⟨0, rfl, nofun⟩, nofun,
  nofun, h.numbered, h.served, h.servedOnce, ?_, ?_⟩
 · intro other hother
   exact hpub.fresh other (h.fresh other (hpub.nextBackingId ▸ hother))
 · exact hpub.lastInstruction.trans h.last
 · intro other hother
   rcases mem_append.1 hother with hother | hother
   · obtain ⟨last, hgiven, hcases⟩ := h.linearized other hother
     refine ⟨last, hgiven, hcases.imp_right fun hent => ⟨hent.1, ?_⟩⟩
     obtain ⟨entry, hent, -⟩ := hent.2
     exact ⟨entry, hent, nofun⟩
   · obtain ⟨store, hstore, rfl⟩ := List.mem_map.1 hother
     obtain ⟨entry, hent, hstaged⟩ := Trace.mem_plainStores hstore
     obtain ⟨i, hi⟩ := mem_iff_getElem?.1 hent
     have hid := (MemoryEffect.id_of_staged hstaged).1
     refine ⟨id, hlast, .inr ⟨(hown store hstore).1, entry, ?_, nofun⟩⟩
     rw [hid, (h.numbered i entry hi).2]
     exact hi
 · show Ordered _ trace.begun.getLast? (trace.linearized ++ trace.plainStores.map (·.id))
   rw [hlast]
   have hord : Ordered service (some id) trace.linearized := hlast ▸ h.ordered
   exact (hpub.ordered id _ hord hown hnd).congr rfl rfl

/-- The end of an instruction that is not committed. -/
theorem Tracks.abort (id : Nat) :
  Tracks { service with active := none } ((.abortInstruction id, .done) :: trace) := by
 refine ⟨h.fresh, h.last, h.ascending, ⟨0, rfl, nofun⟩,
  nofun, nofun, h.numbered, h.served, h.servedOnce,
  ?_, h.ordered.congr rfl rfl⟩
 intro other hother
 obtain ⟨last, hgiven, hcases⟩ := h.linearized other hother
 refine ⟨last, hgiven, hcases.imp_right fun hent => ⟨hent.1, ?_⟩⟩
 obtain ⟨entry, hent, -⟩ := hent.2
 exact ⟨entry, hent, nofun⟩

/-- **A step keeps the invariant.** -/
theorem Tracks.step (hcalled : Called service call reply service') :
  Tracks service' ((call, reply) :: trace) := by
 cases hcalled with
 | refused hrefused kept =>
  exact h.congr (Trace.quiet_refused hrefused trace) (kept.memory h.fresh).1 kept.lastInstruction kept.active
   kept.nextMemoryOrder kept.effectOrders (.inl ⟨kept.addressSpace, Trace.remapped_refused hrefused trace⟩)
 | begun idle later => exact h.begin later
 | served committable sequence haccepted => exact h.serve committable sequence haccepted
 | committed committable hpub => exact h.commit committable hpub
 | aborted hactive => exact h.abort _
 | remapped change hremapped =>
  exact h.congr (Trace.quiet_remapped change trace) (hremapped.memory h.fresh).1 hremapped.lastInstruction
   hremapped.active hremapped.nextMemoryOrder hremapped.effectOrders
   (.inr ⟨hremapped.generation, Trace.remapped_remapped change trace⟩)
 | created hcreate =>
  exact h.congr ⟨rfl, rfl, rfl, rfl, rfl⟩ (Memory.fresh_createBacking h.fresh hcreate) rfl rfl rfl rfl
   (.inl ⟨rfl, rfl⟩)

end

/-- **The invariant holds in every run.** -/
theorem tracks_of_run (h : Run service trace) : Tracks service trace := by
 induction h with
 | new => exact tracks_new
 | step _ hcall ih => exact ih.step (called_call hcall)

/-! ## What a run gives -/

/-- Identities and the memory order in a run: instructions are begun in ascending order, no request is
served twice, and the index of an effect is its position among the effects that took place. -/
structure RunEffects (service : MemoryService) (trace : Trace) : Prop where
 ascending : trace.begun.Pairwise (· < ·)
 servedOnce : trace.served.Nodup
 linearizedOnce : trace.linearized.Nodup
 effectOrder : ∀ id k, service.effectOrder id = some k ↔
  trace.linearized[k]? = some id ∧ trace.begun.getLast? = some id.instruction
 nextMemoryOrder : service.nextMemoryOrder = trace.linearized.length

/-- What a refused call keeps: memory, the sequence, the memory order, and the devices. Devices that lost
their last mapping are dropped by a failed `map_read_to_clear`, and by nothing else. -/
structure RefusedEffects (service : MemoryService) (call : Call) (service' : MemoryService) : Prop where
 byte : service'.memory.byte = service.memory.byte
 active : service'.active = service.active
 nextMemoryOrder : service'.nextMemoryOrder = service.nextMemoryOrder
 effectOrders : service'.effectOrders = service.effectOrders
 addressSpace : service'.addressSpace = service.addressSpace
 mapped : service'.readToClear.filter service.isMapped = service.readToClear.filter service.isMapped
 devices : (∃ address size value permissions, call = .mapReadToClear address size value permissions) ∨
  service'.readToClear = service.readToClear

/-- What a call does to memory and the sequence, by the trace before it. -/
structure CallEffects (service : MemoryService) (trace : Trace) (call : Call) (reply : Reply)
  (service' : MemoryService) : Prop where
 commits : ∀ id, call = .commitInstruction id →
  (reply.refused = false ↔ trace.opened = some id ∧ trace.faulted = false ∧ trace.remapped = false)
 published : ∀ id, call = .commitInstruction id → reply.refused = false →
  service'.memory.byte = publish service.addressSpace trace.plainStores service.memory.byte
 otherwise : service'.memory.byte = service.memory.byte ∨
  (∃ id, call = .commitInstruction id ∧ reply.refused = false) ∨
  ∃ request ready response, call = .service request ready ∧ reply = .served response ∧
   response.result.isOk = true ∧ request.effect.writesAtOnce = true
 refused : reply.refused = true → RefusedEffects service call service'
 advances : ∀ request ready response, call = .service request ready → reply = .served response →
  response.id = request.id ∧ ∃ before after, service.active = some before ∧ service'.active = some after ∧
   request.id = ⟨before.id, before.nextSequence⟩ ∧ after.id = before.id ∧
    after.nextSequence = before.nextSequence + 1

section

variable (h : Tracks service trace)

include h

theorem refusedEffects_of_kept (kept : Kept service call service') :
  RefusedEffects service call service' := by
 refine ⟨(kept.memory h.fresh).2, kept.active, kept.nextMemoryOrder, kept.effectOrders, kept.addressSpace, ?_, ?_⟩
 · rcases kept.devices with hsame | ⟨-, hpruned⟩
   · rw [hsame]
   simp_all
 · rcases kept.devices with hsame | ⟨hcall, -⟩
   · exact .inr hsame
   · exact .inl hcall

/-- A commit goes through exactly for the open instruction, when none of its requests faulted and the
mappings are those it began with. -/
theorem commits_iff (hcall : service.call (.commitInstruction id) = some (reply, service')) :
  reply.refused = false ↔ trace.opened = some id ∧ trace.faulted = false ∧ trace.remapped = false := by
 constructor
 · intro hreply
   cases called_call hcall with
   | refused hrefused _ => exact absurd (hreply.symm.trans hrefused) Bool.false_ne_true
   | committed committable _ =>
    obtain ⟨hopened, -, -, hfailed, hgen⟩ := h.opened_of_active committable.active
    rw [committable.id] at hopened
    exact ⟨hopened, hfailed.symm.trans committable.failed, hgen.1 committable.generation⟩
   | remapped change _ => nomatch change
 · rintro ⟨hopened, hfaulted, hremapped⟩
   obtain ⟨generation, hactive, hgen⟩ := h.active
   have hopen : trace.opened.isSome = true := by
    rw [hopened]
    rfl
   rw [hopened] at hactive
   have hcommittable : Committable service id _ :=
    ⟨hactive, rfl, hfaulted, (hgen hopen).2.2 hremapped⟩
   obtain ⟨outcome, hcommit, houtcome⟩ := map_eq_some_iff.1 hcall
   cases houtcome
   have hok := (commitInstruction_spec hcommittable (h.writable hopen hremapped) hcommit).1
   rw [hok]
   rfl

theorem callEffects_of_tracks (hcall : service.call call = some (reply, service')) :
  CallEffects service trace call reply service' := by
 have hcalled := called_call hcall
 refine ⟨?_, ?_, ?_, ?_, ?_⟩
 · rintro id rfl
   exact commits_iff h hcall
 · rintro id rfl hreply
   cases hcalled with
   | refused hrefused _ => exact absurd (hreply.symm.trans hrefused) Bool.false_ne_true
   | committed committable hpub =>
    obtain ⟨-, -, hstores, -, -⟩ := h.opened_of_active committable.active
    rw [← hstores]
    exact hpub.byte
   | remapped change _ => nomatch change
 · cases hcalled with
   | refused _ kept => exact .inl (kept.memory h.fresh).2
   | begun _ _ => exact .inl rfl
   | served _ _ haccepted =>
    rcases haccepted.memory with hmemo | ⟨hok, hwrites, -⟩
    · exact .inl (congrArg Memory.byte hmemo)
    · exact .inr (.inr ⟨_, _, _, rfl, rfl, hok, hwrites⟩)
   | committed _ _ => exact .inr (.inl ⟨_, rfl, rfl⟩)
   | aborted _ => exact .inl rfl
   | remapped _ hremapped => exact .inl (hremapped.memory h.fresh).2
   | created hcreate => exact .inl (Memory.byte_createBacking h.fresh hcreate)
 · intro hrefused
   cases hcalled with
   | refused _ kept => exact refusedEffects_of_kept h kept
   | _ => nomatch hrefused
 · rintro request ready response rfl rfl
   cases hcalled with
   | refused hrefused _ => nomatch hrefused
   | served committable sequence haccepted =>
    obtain ⟨active, hactive, hactive'⟩ := haccepted.active
    cases committable.active.symm.trans hactive
    refine ⟨haccepted.id, _, _, hactive, hactive', ?_, rfl, rfl⟩
    rw [committable.id, ← sequence]

theorem runEffects_of_tracks : RunEffects service trace :=
 ⟨h.ascending, h.servedOnce, h.ordered.once, h.ordered.orders, h.ordered.next⟩

end

/-- **Memory effects are instruction-atomic.** In every run, identities and the memory order are as
`RunEffects` says, and the next call does to memory what `CallEffects` says. -/
theorem instruction_atomic (hrun : Run service trace) (hcall : service.call call = some (reply, service')) :
  RunEffects service trace ∧ CallEffects service trace call reply service' :=
 ⟨runEffects_of_tracks (tracks_of_run hrun), callEffects_of_tracks (tracks_of_run hrun) hcall⟩

/-! ## Runs on given calls -/

/-- The run of a list of calls, where none of them panics. -/
def runCalls : List Call → MemoryService → Trace → Option (MemoryService × Trace)
 | [], service, trace => some (service, trace)
 | call :: calls, service, trace => do
   let (reply, service) ← service.call call
   runCalls calls service ((call, reply) :: trace)

theorem run_of_runCalls {calls : List Call} {trace' : Trace} (hrun : Run service trace)
  (h : runCalls calls service trace = some (service', trace')) : Run service' trace' := by
 induction calls generalizing service trace with
 | nil =>
  cases h
  exact hrun
 | cons call calls ih =>
  obtain ⟨⟨reply, after⟩, hcall, hrest⟩ := bind_eq_some_iff.1 h
  exact ih (hrun.step hcall) hrest

/-- Two stores of one instruction, staged over sixteen mapped bytes. -/
def stagedStores : List Call :=
 [.createBacking 16, .map 4096 16 1 0 (.union .read .write), .beginInstruction 1,
  .service ⟨⟨1, 0⟩, .write 4096 [1, 2]⟩ true, .service ⟨⟨1, 1⟩, .write 4097 [3]⟩ true]

/-- The commit publishes both stores, in order. -/
theorem stagedStores_atomic : ∃ service trace reply service', runCalls stagedStores .new [] = some (service, trace) ∧
  service.call (.commitInstruction 1) = some (reply, service') ∧ service.memory.byte (1, 1) = 0 ∧
  service'.memory.byte (1, 0) = 1 ∧ service'.memory.byte (1, 1) = 3 ∧ service'.effectOrder ⟨1, 1⟩ = some 1 ∧
  RunEffects service trace ∧ CallEffects service trace (.commitInstruction 1) reply service' := by
 have hrun : (runCalls stagedStores .new []).any (fun before =>
   (before.1.call (.commitInstruction 1)).any fun after => before.1.memory.byte (1, 1) == 0 &&
    after.2.memory.byte (1, 0) == 1 && after.2.memory.byte (1, 1) == 3 &&
     after.2.effectOrder ⟨1, 1⟩ == some 1) = true := by
  decide +kernel
 obtain ⟨⟨service, trace⟩, hbef, hrest⟩ := (Option.any_eq_true _ _).1 hrun
 obtain ⟨⟨reply, service'⟩, hafter, hbytes⟩ := (Option.any_eq_true _ _).1 hrest
 rw [and_eq_true, and_eq_true, and_eq_true, beq_iff_eq, beq_iff_eq, beq_iff_eq, beq_iff_eq] at hbytes
 obtain ⟨⟨⟨hold, hfst⟩, hsnd⟩, horder⟩ := hbytes
 exact ⟨service, trace, reply, service', hbef, hafter, hold, hfst, hsnd, horder,
  instruction_atomic (run_of_runCalls .new hbef) hafter⟩

/-- A device of eight bytes that loses its only mapping beside the service. -/
def retiredDevice : List Call :=
 [.mapReadToClear 4096 8 7 .read, .rawUnmap 4096 8]

/-- A failed `map_read_to_clear` drops the device. -/
theorem retiredDevice_dropped : ¬ ∀ {service service' : MemoryService} {trace : Trace} {call : Call} {reply : Reply},
  Run service trace → service.call call = some (reply, service') → reply.refused = true →
   service'.readToClear = service.readToClear := by
 intro hall
 have hrun : (runCalls retiredDevice .new []).any (fun before =>
   (before.1.call (.mapReadToClear 8192 0 0 .read)).any fun after =>
    after.1.refused && before.1.readToClear.length == 1 && after.2.readToClear.length == 0) = true := by
  decide +kernel
 obtain ⟨⟨service, trace⟩, hbef, hrest⟩ := (Option.any_eq_true _ _).1 hrun
 obtain ⟨⟨reply, service'⟩, hafter, hdevices⟩ := (Option.any_eq_true _ _).1 hrest
 rw [and_eq_true, and_eq_true, beq_iff_eq, beq_iff_eq] at hdevices
 obtain ⟨⟨hrefused, hone⟩, hnone⟩ := hdevices
 have hsame := hall (run_of_runCalls .new hbef) hafter hrefused
 rw [hsame, hone] at hnone
 nomatch hnone

end Tir.Simcore
