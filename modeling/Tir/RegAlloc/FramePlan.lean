import Mathlib.Tactic

/-!
# The layout of stack frames

The frame plan of `backend/regalloc.rs`: areas are handed out upward from the outgoing area, and the prologue's adjustment
covers them. The areas and the incoming slots are where they should be exactly when the adjustment fits 32 bits; a
push/pop frame is aligned only where what is on the stack besides the adjustment happens to be (`frame_sound_iff`).
-/

open List Option Nat Int

namespace Tir.RegAlloc.Frame

inductive SaveStyle where
 | frameSlots
 | pushPop
 deriving DecidableEq

structure Abi where
 align : Nat
 slotSize : Nat
 saveStyle : SaveStyle
 align_pos : 0 < align
 slotSize_pos : 0 < slotSize
 compatible : align ∣ slotSize ∨ slotSize ∣ align

structure FramePlan where
 abi : Abi
 nextOffset : Nat

/-- What the frame is asked for. -/
inductive Request where
 | slot
 | stackAllocation (size align : Nat)
 | calleeSave

/-- An area handed out, with the alignment asked for. -/
structure Area where
 offset : Nat
 size : Nat
 align : Nat

def u32 (n : Nat) : Option Nat :=
 if n < 2 ^ 32 then some n else none

def alignTo (size align : Nat) : Option Nat :=
 if size = 0 then some 0 else u32 ((size + max align 1 - 1) / max align 1 * max align 1)

def alignDelta (offset align desiredRemainder : Nat) : Option Nat := do
 let sum ← u32 (desiredRemainder + max align 1)
 some ((sum - offset % max align 1) % max align 1)

namespace FramePlan

def new (abi : Abi) : FramePlan :=
 ⟨abi, 0⟩

def reserveOutgoing (plan : FramePlan) (size : Nat) : FramePlan :=
 { plan with nextOffset := max plan.nextOffset size }

def alloc (plan : FramePlan) (size align : Nat) : FramePlan × Area :=
 let offset := (plan.nextOffset + max align 1 - 1) / max align 1 * max align 1
 ({ plan with nextOffset := offset + size }, ⟨offset, size, align⟩)

def allocSlot (plan : FramePlan) : FramePlan × Area :=
 plan.alloc plan.abi.slotSize plan.abi.slotSize

/-- A push/pop target keeps its saves outside the frame. -/
def serve (plan : FramePlan) : Request → FramePlan × List Area
 | .slot => (plan.allocSlot.1, [plan.allocSlot.2])
 | .stackAllocation size align => ((plan.alloc size align).1, [(plan.alloc size align).2])
 | .calleeSave => if plan.abi.saveStyle = .frameSlots then (plan.allocSlot.1, [plan.allocSlot.2]) else (plan, [])

def serveAll (plan : FramePlan) : List Request → FramePlan × List Area
 | [] => (plan, [])
 | request :: rest =>
  let (plan, areas) := plan.serve request
  let (plan, more) := plan.serveAll rest
  (plan, areas ++ more)

def stableSize (plan : FramePlan) : Option Nat :=
 alignTo (plan.nextOffset % 2 ^ 32) plan.abi.align

def prologueAdjustment (plan : FramePlan) (hasCalls : Bool) (pushedSaves : Nat) : Option Nat := do
 let stable ← plan.stableSize
 if plan.abi.saveStyle ≠ .pushPop ∨ !hasCalls then return stable
 let pushed ← u32 (pushedSaves % 2 ^ 32 * plan.abi.slotSize)
 let offset ← u32 (pushed + stable)
 let delta ← alignDelta offset plan.abi.align (plan.abi.slotSize % max plan.abi.align 1)
 u32 (stable + delta)

def incomingStackArgOffset (plan : FramePlan) (prologueAdjustment pushedSaves stackIndex : Nat) : Nat :=
 match plan.abi.saveStyle with
 | .frameSlots => prologueAdjustment + stackIndex * plan.abi.slotSize
 | .pushPop => pushedSaves * plan.abi.slotSize + prologueAdjustment + plan.abi.slotSize + stackIndex * plan.abi.slotSize

end FramePlan

/-! ## Frames -/

/-- A function's frame: what it reserves and asks for, in `u32` sizes and with alignments that divide the stack's. -/
structure Shape where
 abi : Abi
 outgoing : Nat
 requests : List Request
 hasCalls : Bool
 pushedSaves : Nat
 outgoing_lt : outgoing < 2 ^ 32
 divides : ∀ size align, Request.stackAllocation size align ∈ requests → align ∣ abi.align

namespace Shape

variable (shape : Shape)

def plan : FramePlan :=
 (((FramePlan.new shape.abi).reserveOutgoing shape.outgoing).serveAll shape.requests).1

def areas : List Area :=
 (((FramePlan.new shape.abi).reserveOutgoing shape.outgoing).serveAll shape.requests).2

/-- What the call and the saves of the prologue have pushed. -/
def pushed : Nat :=
 if shape.abi.saveStyle = .pushPop then shape.abi.slotSize * (1 + shape.pushedSaves) else 0

/-- Areas are disjoint, above the outgoing area and in the frame; addresses and calls are aligned, and the incoming slots are
those that the caller has stored from its stack pointer up. -/
structure Sound (adjustment : Nat) : Prop where
 disjoint : shape.areas.Pairwise fun a b => a.offset + a.size ≤ b.offset
 within : ∀ a ∈ shape.areas, shape.outgoing ≤ a.offset ∧ a.offset + a.size ≤ adjustment
 aligned : ∀ sp : Int, (shape.abi.align : Int) ∣ sp → ∀ a ∈ shape.areas, (a.align : Int) ∣ sp - shape.pushed - adjustment + a.offset
 calls : ∀ sp : Int, (shape.abi.align : Int) ∣ sp → shape.hasCalls = true → (shape.abi.align : Int) ∣ sp - shape.pushed - adjustment
 incoming : ∀ (sp : Int) (i : Nat), sp - shape.pushed - adjustment +
  shape.plan.incomingStackArgOffset adjustment shape.pushedSaves i = sp + i * shape.abi.slotSize

def frameSound : Prop :=
 ∃ adjustment, shape.plan.prologueAdjustment shape.hasCalls shape.pushedSaves = some adjustment ∧ shape.Sound adjustment

/-- The frame's size up to the stack's alignment. -/
def rounded : Nat :=
 (shape.plan.nextOffset + shape.abi.align - 1) / shape.abi.align * shape.abi.align

/-- The padding of a push/pop frame with calls. -/
def padding : Nat :=
 (shape.abi.slotSize % shape.abi.align + shape.abi.align -
  (shape.pushedSaves % 2 ^ 32 * shape.abi.slotSize + shape.rounded) % shape.abi.align) % shape.abi.align

def Padded : Prop :=
 shape.abi.saveStyle = .pushPop ∧ shape.hasCalls = true

instance : Decidable shape.Padded :=
 inferInstanceAs (Decidable (_ ∧ _))

/-- The sizes fit 32 bits. -/
def Fits : Prop :=
 shape.plan.nextOffset < 2 ^ 32 ∧ shape.rounded < 2 ^ 32 ∧
  (shape.Padded → shape.pushedSaves % 2 ^ 32 * shape.abi.slotSize + shape.rounded < 2 ^ 32 ∧
   shape.abi.slotSize % shape.abi.align + shape.abi.align < 2 ^ 32 ∧ shape.rounded + shape.padding < 2 ^ 32)

/-- How far below an aligned address the frame starts. -/
def skew : Nat :=
 if shape.abi.saveStyle = .frameSlots then 0
 else if shape.hasCalls then shape.abi.slotSize * (2 + (shape.pushedSaves - shape.pushedSaves % 2 ^ 32))
 else shape.abi.slotSize * (1 + shape.pushedSaves)

/-- The alignments that are asked for divide the stack's alignment and the skew. -/
def Aligned : Prop :=
 (∀ a ∈ shape.areas, a.align ∣ shape.abi.align ∧ a.align ∣ shape.skew) ∧ (shape.hasCalls = true → shape.abi.align ∣ shape.skew)

end Shape

/-! ## The areas -/

/-- Serving requests hands out areas upward. -/
structure Served (plan final : FramePlan) (requests : List Request) (areas : List Area) : Prop where
 abi : final.abi = plan.abi
 le : plan.nextOffset ≤ final.nextOffset
 disjoint : areas.Pairwise fun a b => a.offset + a.size ≤ b.offset
 within : ∀ a ∈ areas, plan.nextOffset ≤ a.offset ∧ a.offset + a.size ≤ final.nextOffset ∧ max a.align 1 ∣ a.offset
 asked : ∀ a ∈ areas, a.align = plan.abi.slotSize ∨ ∃ size, Request.stackAllocation size a.align ∈ requests
 last : final.nextOffset = plan.nextOffset ∨ ∃ a ∈ areas, a.offset + a.size = final.nextOffset

section Areas

variable {plan next final : FramePlan} {requests rest : List Request} {areas more : List Area}

theorem le_roundUp (n : Nat) {align : Nat} (h : 0 < align) : n ≤ (n + align - 1) / align * align := by
 have hmod := div_add_mod (n + align - 1) align
 have hlt := mod_lt (n + align - 1) h
 rw [mul_comm] at hmod
 omega

theorem served_alloc (plan : FramePlan) {size align : Nat}
  (hasked : align = plan.abi.slotSize ∨ ∃ size, Request.stackAllocation size align ∈ requests) :
  Served plan (plan.alloc size align).1 requests [(plan.alloc size align).2] := by
 have hle := le_roundUp plan.nextOffset (show 0 < max align 1 by omega)
 refine ⟨rfl, le_add_right_of_le hle, pairwise_singleton _ _, ?_, ?_, .inr ⟨_, mem_singleton_self _, rfl⟩⟩ <;>
  intro a ha <;> obtain rfl := mem_singleton.1 ha
 · exact ⟨hle, le_rfl, Nat.dvd_mul_left _ _⟩
 · exact hasked

theorem Served.append (h : Served plan next requests areas) (h' : Served next final requests more) :
  Served plan final requests (areas ++ more) := by
 refine ⟨h'.abi.trans h.abi, h.le.trans h'.le, pairwise_append.2 ⟨h.disjoint, h'.disjoint, fun a ha b hb => ?_⟩, ?_, ?_, ?_⟩
 · exact (h.within a ha).2.1.trans (h'.within b hb).1
 · intro a ha
   rcases mem_append.1 ha with ha | ha
   · exact ⟨(h.within a ha).1, (h.within a ha).2.1.trans h'.le, (h.within a ha).2.2⟩
   · exact ⟨h.le.trans (h'.within a ha).1, (h'.within a ha).2⟩
 · intro a ha
   rcases mem_append.1 ha with ha | ha
   · exact h.asked a ha
   · exact h.abi ▸ h'.asked a ha
 · rcases h'.last with hsame | ⟨a, ha, hend⟩
   · rw [hsame]
     exact h.last.imp_right fun ⟨a, ha, hend⟩ => ⟨a, mem_append_left _ ha, hend⟩
   · exact .inr ⟨a, mem_append_right _ ha, hend⟩

theorem served_serve (plan : FramePlan) {request : Request} (h : request ∈ requests) :
  Served plan (plan.serve request).1 requests (plan.serve request).2 := by
 cases request with
 | slot => exact served_alloc plan (.inl rfl)
 | stackAllocation size align => exact served_alloc plan (.inr ⟨size, h⟩)
 | calleeSave =>
  rw [FramePlan.serve]
  split
  · exact served_alloc plan (.inl rfl)
  · exact ⟨rfl, le_rfl, .nil, nofun, nofun, .inl rfl⟩

theorem served_serveAll (plan : FramePlan) (hrest : rest ⊆ requests) :
  Served plan (plan.serveAll rest).1 requests (plan.serveAll rest).2 := by
 induction rest generalizing plan with
 | nil => exact ⟨rfl, le_rfl, .nil, nofun, nofun, .inl rfl⟩
 | cons request rest ih =>
  exact (served_serve plan (hrest (.head _))).append (ih _ fun _ h => hrest (.tail _ h))

end Areas

/-! ## The adjustment -/

namespace Shape

variable {shape : Shape} {adjustment : Nat}

theorem served (shape : Shape) :
  Served ((FramePlan.new shape.abi).reserveOutgoing shape.outgoing) shape.plan shape.requests shape.areas :=
 served_serveAll _ (Subset.refl _)

theorem plan_abi (shape : Shape) : shape.plan.abi = shape.abi :=
 shape.served.abi

theorem align_pos_of_mem {a : Area} (ha : a ∈ shape.areas) : 0 < a.align := by
 rcases shape.served.asked a ha with hslot | ⟨size, hmem⟩
 · exact hslot ▸ shape.abi.slotSize_pos
 · exact pos_of_dvd_of_pos (shape.divides size a.align hmem) shape.abi.align_pos

theorem u32_eq_some {n m : Nat} : u32 n = some m ↔ n < 2 ^ 32 ∧ n = m := by
 unfold u32
 split <;> simp_all

/-- The prologue's adjustment is the rounded size and the padding, as long as everything fits. -/
theorem prologueAdjustment_eq (hnext : shape.plan.nextOffset < 2 ^ 32) :
  shape.plan.prologueAdjustment shape.hasCalls shape.pushedSaves = some adjustment ↔
   shape.Fits ∧ adjustment = shape.rounded + if shape.Padded then shape.padding else 0 := by
 have halign := shape.abi.align_pos
 have hmax : max shape.abi.align 1 = shape.abi.align := by omega
 have hstable : shape.plan.stableSize = u32 shape.rounded := by
  rw [FramePlan.stableSize, mod_eq_of_lt hnext, plan_abi, alignTo, hmax]
  split
  next hzero =>
   have hrounded : shape.rounded = 0 := by rw [rounded, hzero, zero_add, div_eq_of_lt (by omega), zero_mul]
   rw [hrounded]
   rfl
  next => rfl
 have hpadded : ¬(shape.abi.saveStyle ≠ .pushPop ∨ (!shape.hasCalls) = true) ↔ shape.Padded := by simp [Padded]
 rw [FramePlan.prologueAdjustment, hstable, plan_abi]
 simp only [bind_eq_bind, bind_eq_some_iff, u32_eq_some, pure, Fits, hnext, true_and]
 by_cases hcalls : shape.Padded
 · simp only [if_neg (hpadded.2 hcalls), alignDelta, bind_eq_bind, bind_eq_some_iff, u32_eq_some, hmax,
    hcalls, true_implies, some.injEq]
   constructor
   · rintro ⟨_, ⟨hrounded, rfl⟩, _, ⟨hpushed, rfl⟩, _, ⟨hoff, rfl⟩, _, ⟨_, ⟨hsum, rfl⟩, rfl⟩, htotal, rfl⟩
     exact ⟨⟨hrounded, hoff, hsum, htotal⟩, rfl⟩
   · rintro ⟨⟨hrounded, hoff, hsum, htotal⟩, rfl⟩
     exact ⟨_, ⟨hrounded, rfl⟩, _, ⟨(Nat.le_add_right _ _).trans_lt hoff, rfl⟩, _, ⟨hoff, rfl⟩, _, ⟨_, ⟨hsum, rfl⟩, rfl⟩, htotal, rfl⟩
 · simp only [if_pos (not_not.1 (mt hpadded.1 hcalls)), hcalls, false_implies, and_true, some.injEq]
   constructor
   · grind
   simp_all

/-- Below the frame's start the stack is aligned up to the skew. -/
theorem dvd_skew (shape : Shape) : (shape.abi.align : Int) ∣
  (shape.pushed : Int) + (shape.rounded + if shape.Padded then shape.padding else 0 : Nat) - shape.skew := by
 have hrounded : shape.abi.align ∣ shape.rounded := Nat.dvd_mul_left _ _
 by_cases hcalls : shape.Padded
 · obtain ⟨offset, hoff⟩ : ∃ offset, shape.pushedSaves % 2 ^ 32 * shape.abi.slotSize + shape.rounded = offset := ⟨_, rfl⟩
   have hpadding : (offset + shape.padding) % shape.abi.align = shape.abi.slotSize % shape.abi.align := by
    have hlt := mod_lt offset shape.abi.align_pos
    have hsplit := div_add_mod offset shape.abi.align
    have hsum : offset + (shape.abi.slotSize % shape.abi.align + shape.abi.align - offset % shape.abi.align) =
      shape.abi.slotSize % shape.abi.align + shape.abi.align * (offset / shape.abi.align + 1) := by
     rw [mul_add, mul_one]
     omega
    rw [padding, hoff, add_mod_mod, hsum, add_mul_mod_self_left, mod_mod]
   have hdvd := Nat.modEq_iff_dvd.1 (show shape.abi.slotSize ≡ offset + shape.padding [MOD shape.abi.align] from hpadding.symm)
   rw [if_pos hcalls, pushed, skew, if_pos hcalls.1, if_neg (by rw [hcalls.1]; decide), if_pos hcalls.2]
   obtain ⟨cut, hsub⟩ : ∃ cut, shape.pushedSaves - shape.pushedSaves % 2 ^ 32 = cut := ⟨_, rfl⟩
   rw [hsub]
   convert hdvd using 1
   have hoff' : (offset : Int) = (shape.pushedSaves % 2 ^ 32 : Nat) * shape.abi.slotSize + shape.rounded := by
    rw [← hoff, Nat.cast_add, Nat.cast_mul]
   grind
 · rw [if_neg hcalls, add_zero]
   have hsame : shape.pushed = shape.skew := by
    cases hstyle : shape.abi.saveStyle <;> simp_all [pushed, skew, Padded]
   rw [hsame, add_sub_cancel_left]
   exact natCast_dvd_natCast.2 hrounded

theorem adjustment_lt (h : shape.plan.prologueAdjustment shape.hasCalls shape.pushedSaves = some adjustment) : adjustment < 2 ^ 32 := by
 simp only [FramePlan.prologueAdjustment, bind_eq_bind, bind_eq_some_iff] at h
 obtain ⟨stable, hstable, h⟩ := h
 split at h
 · cases h
   rw [FramePlan.stableSize, alignTo] at hstable
   split at hstable
   · exact some.inj hstable ▸ by decide
   · exact (u32_eq_some.1 hstable).2 ▸ (u32_eq_some.1 hstable).1
 · simp only [bind_eq_some_iff] at h
   grind [u32_eq_some]

/-- A frame is laid out soundly exactly when it fits and what it is asked for divides the skew. -/
theorem frame_sound_iff (shape : Shape) : shape.frameSound ↔ shape.Fits ∧ shape.Aligned := by
 have hserved := shape.served
 have hskew := shape.dvd_skew
 have houtgoing : ((FramePlan.new shape.abi).reserveOutgoing shape.outgoing).nextOffset = shape.outgoing := Nat.zero_max _
 have hoff : ∀ a ∈ shape.areas, (a.align : Int) ∣ a.offset := by
  intro a ha
  have hdvd := (hserved.within a ha).2.2
  rw [max_eq_left (align_pos_of_mem ha)] at hdvd
  exact natCast_dvd_natCast.2 hdvd
 constructor
 · rintro ⟨adjustment, hadjustment, hsound⟩
   have hlt := adjustment_lt hadjustment
   have hnext : shape.plan.nextOffset < 2 ^ 32 := by
    rcases hserved.last with hnone | ⟨a, ha, hend⟩
    · rw [hnone, houtgoing]
      exact shape.outgoing_lt
    · exact hend ▸ (hsound.within a ha).2.trans_lt hlt
   obtain ⟨hfits, heq⟩ := (prologueAdjustment_eq hnext).1 hadjustment
   rw [← heq] at hskew
   refine ⟨hfits, fun a ha => ?_, fun hcalls => ?_⟩
   · -- two stack pointers a stack alignment apart
     have hzero := dvd_sub (hsound.aligned 0 (dvd_zero _) a ha) (hoff a ha)
     have hone := dvd_sub (hsound.aligned shape.abi.align dvd_rfl a ha) (hoff a ha)
     have hdvd : (a.align : Int) ∣ shape.abi.align := (dvd_sub hone hzero).trans (dvd_of_eq (by ring))
     have hskew' := dvd_add (hdvd.trans hskew) hzero
     exact ⟨natCast_dvd_natCast.1 hdvd, natCast_dvd_natCast.1 (dvd_neg.1 (hskew'.trans (dvd_of_eq (by ring))))⟩
   · have hskew' := dvd_add hskew (hsound.calls 0 (dvd_zero _) hcalls)
     exact natCast_dvd_natCast.1 (dvd_neg.1 (hskew'.trans (dvd_of_eq (by ring))))
 · rintro ⟨hfits, haligned, hcalls⟩
   have hbase : ∀ sp : Int, (shape.abi.align : Int) ∣ sp → (shape.abi.align : Int) ∣
     sp - shape.pushed - (shape.rounded + if shape.Padded then shape.padding else 0 : Nat) + shape.skew := by
    intro sp hsp
    exact (dvd_sub hsp hskew).trans (dvd_of_eq (by ring))
   refine ⟨_, (prologueAdjustment_eq hfits.1).2 ⟨hfits, rfl⟩, ⟨hserved.disjoint, fun a ha => ?_, fun sp hsp a ha => ?_, fun sp hsp hc => ?_, fun sp i => ?_⟩⟩
   · have hwithin := hserved.within a ha
     have hle := le_roundUp shape.plan.nextOffset shape.abi.align_pos
     rw [houtgoing] at hwithin
     exact ⟨hwithin.1, hwithin.2.1.trans (hle.trans (Nat.le_add_right _ _))⟩
   · have hdvd := (natCast_dvd_natCast.2 (haligned a ha).1).trans (hbase sp hsp)
     exact dvd_add ((dvd_add_left (natCast_dvd_natCast.2 (haligned a ha).2)).1 hdvd) (hoff a ha)
   · exact (dvd_add_left (natCast_dvd_natCast.2 (hcalls hc))).1 (hbase sp hsp)
   · rw [FramePlan.incomingStackArgOffset, plan_abi, pushed]
     cases shape.abi.saveStyle <;> simp <;> ring

/-- A function without calls that asks for 16 bytes at the stack's alignment, on a push/pop target. -/
def leaf : Shape where
 abi := ⟨16, 8, .pushPop, by decide, succ_pos 7, by decide⟩
 outgoing := 0
 requests := [.stackAllocation 16 16]
 hasCalls := false
 pushedSaves := 0
 outgoing_lt := by decide
 divides size align h := by
  simp_all

/-- The return address leaves the area eight bytes off. -/
theorem leaf_not_sound : ¬leaf.frameSound := by
 rintro ⟨adjustment, hadjustment, hsound⟩
 have hsixteen : leaf.plan.prologueAdjustment leaf.hasCalls leaf.pushedSaves = some 16 := by decide
 cases hsixteen.symm.trans hadjustment
 have hdvd := hsound.aligned 0 (dvd_zero _) ⟨0, 16, 16⟩ (mem_singleton_self _)
 revert hdvd
 decide

end Shape

end Tir.RegAlloc.Frame
