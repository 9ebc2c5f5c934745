import Tir.Backend.Abi

/-!
# Placements by position

A placement without register classes hands out listed registers by position. A register is
`Reserved` when every sequence that lists it has passed it; a draw is never reserved and reserves its
register. Whatever the classes, the stack slots are numbered without a gap
(`placeGroups_stack`).
-/

open List Option Function Nat

namespace Tir.Backend.Abi

/-- Two registers at one place of one file. -/
def SamePlace (a b : PhysReg) : Prop :=
 a.file = b.file ∧ a.index = b.index

/-- The register stands in the table's sequence `position`, at `slot`. -/
def AbiInfo.Lists (abi : AbiInfo) (position slot : Nat) (register : PhysReg) : Prop :=
 ∃ sequence, abi.args[position]? = some sequence ∧ sequence.regs[slot]? = some register

/-- Each sequence lists registers of one file, each of one index; no register is listed twice, and
the result address is one of them or none of them. -/
structure AbiInfo.WellFormed (abi : AbiInfo) : Prop where
 oneFile : ∀ sequence ∈ abi.args, ∀ a ∈ sequence.regs, ∀ b ∈ sequence.regs, a.file = b.file
 single : ∀ sequence ∈ abi.args, ∀ a ∈ sequence.regs, a.width = 1
 ascending : ∀ sequence ∈ abi.args, sequence.regs.Pairwise (·.index < ·.index)
 distinct : ∀ p i a q j b, abi.Lists p i a → abi.Lists q j b → SamePlace a b → p = q ∧ i = j
 result : ∀ register, abi.indirectResult = some register → register.width = 1 ∧
  ∀ p i a, abi.Lists p i a → SamePlace a register → a = register

/-- Every sequence that lists a register of this place has passed it. -/
def AbiInfo.Reserved (abi : AbiInfo) (next : Slots) (register : PhysReg) : Prop :=
 ∀ kind sequence slot a, abi.sequenceOf kind = some sequence → sequence.regs[slot]? = some a → SamePlace a register →
  slot < next kind

def registersOf (slots : List ArgumentSlot) : List PhysReg :=
 slots.filterMap fun
  | .register register => some register
  | .stack _ => none

def stackOf (slots : List ArgumentSlot) : List Nat :=
 slots.filterMap fun
  | .register _ => none
  | .stack slot => some slot

@[simp] theorem registersOf_registers (registers : List PhysReg) :
  registersOf (registers.map .register) = registers := by
  induction registers with
  | nil => rfl
  | cons register registers ih => exact congrArg (register :: ·) ih

@[simp] theorem registersOf_stack (slots : List Nat) : registersOf (slots.map .stack) = [] := by
  induction slots with
  | nil => rfl
  | cons _ _ ih => exact ih

@[simp] theorem stackOf_registers (registers : List PhysReg) : stackOf (registers.map .register) = [] := by
  induction registers with
  | nil => rfl
  | cons _ _ ih => exact ih

@[simp] theorem stackOf_stack (slots : List Nat) : stackOf (slots.map .stack) = slots := by
  induction slots with
  | nil => rfl
  | cons slot slots ih => exact congrArg (slot :: ·) ih

namespace AbiInfo

variable {abi : AbiInfo} {next : Slots}

variable {sequence : PassSeq} {register : PhysReg}

theorem sequenceOf_spec {kind : ValueKind} (h : abi.sequenceOf kind = some sequence) :
  sequence.kind = kind ∧ ∃ position : Nat, abi.args[position]? = some sequence := by
 have hkind := find?_some h
 have hin := mem_of_find?_eq_some h
 exact ⟨beq_iff_eq.1 hkind, mem_iff_getElem?.1 hin⟩

/-- The sequences of a kind are the ones the table finds by their kinds. -/
theorem sequenceOf_of_mem {fuel : Nat} {visited : List ValueKind} {kind : ValueKind}
  (h : sequence ∈ abi.sequencesFrom fuel visited kind) : abi.sequenceOf sequence.kind = some sequence := by
 induction fuel generalizing visited kind with
 | zero => nomatch h
 | succ fuel ih =>
  rw [sequencesFrom] at h
  split at h
  · nomatch h
  grind [sequenceOf_spec]

/-! ## What keeps a register reserved -/

section

variable (h : abi.Reserved next register)

include h

theorem Reserved.mono {next' : Slots}
  (hle : ∀ kind sequence, abi.sequenceOf kind = some sequence → min (next kind) sequence.regs.length ≤ next' kind) :
  abi.Reserved next' register := by
 intro kind sequence slot a hseq hslot hsame
 have hnext := h kind sequence slot a hseq hslot hsame
 grind

theorem Reserved.aligned (group : ArgumentGroup) :
  abi.Reserved (abi.aligned group next) register := by
 apply h.mono
 intro kind sequence _
 apply Nat.le_trans (Nat.min_le_left _ _)
 rw [AbiInfo.aligned, alignArgumentGroup]
 cases abi.argumentGroupAlignment with
 | none => exact Nat.le_refl _
 | some alignment =>
  by_cases hin : alignment.kind ∈ group.members.map (·.kind)
  · simp only [if_pos hin]
    rw [update_apply]
    split
    · rename_i heq
      subst heq
      rw [ArgumentGroupAlignment.alignSlot]
      split
      · exact Nat.le_refl _
      · -- a slot rounded up to a multiple
        have hpos := alignment.registerMultiple_pos
        have hdiv := div_add_mod (next alignment.kind + (alignment.registerMultiple - 1)) alignment.registerMultiple
        have hmod := mod_lt (next alignment.kind + (alignment.registerMultiple - 1)) hpos
        rw [Nat.mul_comm]
        omega
    · exact Nat.le_refl _
  grind

theorem Reserved.exhausted (kind : ValueKind) :
  abi.Reserved (abi.exhaustArgumentRegisters kind next) register := by
 have hall : ∀ (sequences : List PassSeq) (next : Slots), (∀ sequence ∈ sequences, abi.sequenceOf sequence.kind = some sequence) →
   abi.Reserved next register → abi.Reserved
    (sequences.foldl (fun next sequence => update next sequence.kind sequence.regs.length) next) register := by
  intro sequences
  induction sequences with
  | nil => exact fun _ _ h => h
  | cons first rest ih =>
   intro next hfound h
   refine ih _ (fun sequence hin => hfound sequence (.tail _ hin)) (h.mono ?_)
   intro kind sequence hseq
   simp only
   rw [update_apply]
   split
   · grind
   · exact Nat.min_le_left _ _
 exact hall _ _ (fun _ hin => sequenceOf_of_mem hin) h

theorem Reserved.rolledBack (members : List ArgumentMember) :
  abi.Reserved (abi.rolledBack members next) register := by
 rw [AbiInfo.rolledBack]
 split
 · induction members generalizing next with
   | nil => exact h
   | cons member members ih => exact ih (h.exhausted member.kind)
 · exact h

end

/-! ## Draws by position -/

@[simp] theorem registerAt_none (sequence : PassSeq) (slot : Nat) : registerAt none sequence slot = sequence.regs[slot]? :=
  rfl

/-- A draw without a class is the next listed register of one of the sequences. -/
theorem nextFrom_none {sequences : List PassSeq} {next' : Slots}
  (h : nextFrom none next sequences = some (register, next')) : ∃ sequence ∈ sequences,
   sequence.regs[next sequence.kind]? = some register ∧
    next' = update next sequence.kind (next sequence.kind + 1) := by
 induction sequences with
 | nil => nomatch h
 | cons sequence rest ih =>
  rw [nextFrom, registerAt_none] at h
  split at h
  · rename_i found hfound
    cases h
    exact ⟨sequence, .head _, hfound, rfl⟩
  grind

/-- The member may be given this register: a sequence of its kind lists it. -/
def ListedFor (abi : AbiInfo) (member : ArgumentMember) (register : PhysReg) : Prop :=
 ∃ sequence ∈ abi.argumentSequences member.kind, register ∈ sequence.regs

section Draws

variable (hwell : abi.WellFormed) {member : ArgumentMember} (hfree : member.cls = none) {register : PhysReg}
 {next' : Slots} (h : abi.nextArgumentRegister member next = some (register, next'))
include hfree h

theorem listedFor_next : abi.ListedFor member register := by
 rw [nextArgumentRegister, hfree] at h
 obtain ⟨sequence, hin, hslot, -⟩ := nextFrom_none h
 exact ⟨sequence, hin, mem_of_getElem? hslot⟩

include hwell

/-- A draw is not reserved, and reserves its register. -/
theorem reserved_next : (∀ other, abi.Reserved next other → ¬ SamePlace register other ∧ abi.Reserved next' other) ∧
  abi.Reserved next' register := by
 rw [nextArgumentRegister, hfree] at h
 obtain ⟨sequence, hin, hslot, rfl⟩ := nextFrom_none h
 have hseq := sequenceOf_of_mem hin
 refine ⟨fun other hother => ⟨fun hsame => ?_, hother.mono fun kind found _ => ?_⟩, ?_⟩
 · exact Nat.lt_irrefl _ (hother _ _ _ _ hseq hslot hsame)
 · rw [update_apply]
   split
   · grind
   · exact Nat.min_le_left _ _
 · intro kind found slot a hfound ha hsame
   obtain ⟨hkind, p, hp⟩ := sequenceOf_spec hfound
   obtain ⟨-, q, hq⟩ := sequenceOf_spec hseq
   obtain ⟨rfl, rfl⟩ := hwell.distinct p slot a q _ register ⟨found, hp, ha⟩ ⟨sequence, hq, hslot⟩ hsame
   grind

end Draws

/-- Registers drawn on the way from one state to another: apart from each other and from all that was
reserved before, and reserved after. -/
structure Draws (abi : AbiInfo) (next : Slots) (registers : List PhysReg) (next' : Slots) : Prop where
 apart : registers.Pairwise fun a b => ¬ SamePlace a b
 fresh : ∀ other, abi.Reserved next other → ∀ register ∈ registers, ¬ SamePlace register other
 kept : ∀ other, abi.Reserved next other → abi.Reserved next' other
 reserved : ∀ register ∈ registers, abi.Reserved next' register

namespace Draws

variable {next' next'' : Slots} {registers rest : List PhysReg}

theorem none (hkept : ∀ other, abi.Reserved next other → abi.Reserved next' other) : Draws abi next [] next' :=
 ⟨Pairwise.nil, nofun, hkept, nofun⟩

theorem append (h : Draws abi next registers next') (h' : Draws abi next' rest next'') :
  Draws abi next (registers ++ rest) next'' where
 apart := by
  rw [pairwise_append]
  refine ⟨h.apart, h'.apart, fun a ha b hb hsame => ?_⟩
  exact h'.fresh a (h.reserved a ha) b hb ⟨hsame.1.symm, hsame.2.symm⟩
 fresh := by
  intro other hother register hin
  rcases mem_append.1 hin with hin | hin
  · exact h.fresh other hother register hin
  · exact h'.fresh other (h.kept other hother) register hin
 kept := fun other hother => h'.kept other (h.kept other hother)
 reserved := by
  intro register hin
  rcases mem_append.1 hin with hin | hin
  · exact h'.kept register (h.reserved register hin)
  · exact h'.reserved register hin

end Draws

section Groups

variable (hwell : abi.WellFormed)
include hwell

theorem draws_trial {members : List ArgumentMember} (hfree : ∀ member ∈ members, member.cls = none)
  {registers : List PhysReg} {next' : Slots} (h : abi.trial members next = some (registers, next')) :
  Draws abi next registers next' ∧ Forall₂ abi.ListedFor members registers := by
 induction members generalizing next registers with
 | nil =>
  cases h
  exact ⟨Draws.none fun _ hother => hother, Forall₂.nil⟩
 | cons member members ih =>
  rw [trial] at h
  obtain ⟨⟨first, middle⟩, hfst, h⟩ := bind_eq_some_iff.1 h
  obtain ⟨⟨rest, last⟩, hrest, h⟩ := bind_eq_some_iff.1 h
  cases h
  have hnone := hfree member (.head _)
  obtain ⟨hfresh, hreserved⟩ := reserved_next hwell hnone hfst
  obtain ⟨hdraws, hlisted⟩ := ih (fun other hin => hfree other (.tail _ hin)) hrest
  have hone : Draws abi next [first] middle := by
   refine ⟨pairwise_singleton _ _, fun other hother register hin => ?_,
    fun other hother => (hfresh other hother).2, fun register hin => ?_⟩
   · grind
   grind
  exact ⟨hone.append hdraws, Forall₂.cons (listedFor_next hnone hfst) hlisted⟩

/-- Where a member may go: a register listed for it, or the stack. -/
def SlotFor (abi : AbiInfo) (member : ArgumentMember) : ArgumentSlot → Prop
 | .register register => abi.ListedFor member register
 | .stack _ => True

theorem draws_placeGroup {group : ArgumentGroup} (hfree : ∀ member ∈ group.members, member.cls = none) (stackSlots : Nat) :
  Draws abi next (registersOf (abi.placeGroup group next stackSlots).1) (abi.placeGroup group next stackSlots).2.1 ∧
   Forall₂ abi.SlotFor group.members (abi.placeGroup group next stackSlots).1 := by
 rw [placeGroup]
 cases hdirect : abi.direct group next with
 | none =>
  simp only [registersOf_stack]
  refine ⟨Draws.none fun other hother => hother.rolledBack group.members, ?_⟩
  rw [forall₂_iff_get]
  exact ⟨by simp, fun i hi hi' => by simp [SlotFor]⟩
 | some found =>
  rw [direct] at hdirect
  split at hdirect
  · obtain ⟨hdraws, hlisted⟩ := draws_trial hwell hfree hdirect
    simp only [registersOf_registers]
    refine ⟨⟨hdraws.apart, fun other hother => hdraws.fresh other (hother.aligned group),
     fun other hother => hdraws.kept other (hother.aligned group), hdraws.reserved⟩, ?_⟩
    rw [forall₂_map_right_iff]
    exact hlisted
  · nomatch hdirect

theorem draws_placeGroups {groups : List ArgumentGroup}
  (hfree : ∀ group ∈ groups, ∀ member ∈ group.members, member.cls = none) (stackSlots : Nat) :
  (∃ next', Draws abi next (registersOf (abi.placeGroups groups next stackSlots).1) next') ∧
   Forall₂ abi.SlotFor (groups.flatMap (·.members)) (abi.placeGroups groups next stackSlots).1 := by
 induction groups generalizing next stackSlots with
 | nil => exact ⟨⟨next, Draws.none fun _ hother => hother⟩, Forall₂.nil⟩
 | cons group groups ih =>
  obtain ⟨hgroup, hslots⟩ := @draws_placeGroup abi next hwell group (hfree group (.head _)) stackSlots
  obtain ⟨⟨next', hrest⟩, hslots'⟩ := @ih (abi.placeGroup group next stackSlots).2.1
   (fun other hin => hfree other (.tail _ hin)) (abi.placeGroup group next stackSlots).2.2
  rw [placeGroups, flatMap_cons]
  refine ⟨⟨next', ?_⟩, rel_append hslots hslots'⟩
  have happend := hgroup.append hrest
  rw [registersOf, registersOf, ← filterMap_append] at happend
  exact happend

/-- The reserved result address is reserved before the first group. -/
theorem reserved_start {result : PhysReg} (hres : abi.indirectResult = some result) :
  abi.Reserved (abi.start true) result := by
 intro kind sequence slot a hseq hslot hsame
 obtain ⟨hkind, p, hp⟩ := sequenceOf_spec hseq
 obtain ⟨-, hnamed⟩ := hwell.result result hres
 have hlisted : abi.Lists p slot a := ⟨sequence, hp, hslot⟩
 obtain rfl := hnamed p slot a hlisted hsame
 rw [start, if_pos rfl, reserveIndirectResultArgument]
 cases hfound : abi.indirectResultArgumentSlots with
 | none =>
  -- the register is listed, so that its slot is found
  rw [indirectResultArgumentSlots, hres] at hfound
  have hnone := findSome?_eq_none_iff.1 hfound sequence (mem_of_getElem? hp)
  rw [map_eq_none_iff, findIdx?_eq_none_iff] at hnone
  have hne := hnone a (mem_of_getElem? hslot)
  exact absurd (beq_self_eq_true a) (by rw [hne]; exact Bool.false_ne_true)
 | some found =>
  rw [indirectResultArgumentSlots, hres] at hfound
  obtain ⟨other, hin, hsome⟩ := exists_of_findSome?_eq_some hfound
  obtain ⟨position, hposn, hpair⟩ := map_eq_some_iff.1 hsome
  cases hpair
  obtain ⟨hlt, heq, -⟩ := findIdx?_eq_some_iff_getElem.1 hposn
  obtain ⟨q, hq⟩ := mem_iff_getElem?.1 hin
  have hother : abi.Lists q position a :=
   ⟨other, hq, by rw [getElem?_eq_getElem hlt, beq_iff_eq.1 heq]⟩
  obtain ⟨rfl, rfl⟩ := hwell.distinct p slot a q position a hlisted hother ⟨rfl, rfl⟩
  grind

end Groups

/-! ## Stack slots -/

theorem length_placeGroup (group : ArgumentGroup) (next : Slots) (stackSlots : Nat) :
  (abi.placeGroup group next stackSlots).1.length = group.members.length := by
 rw [placeGroup]
 cases hdirect : abi.direct group next with
 | none => simp
 | some found =>
  obtain ⟨registers, next'⟩ := found
  have hlen : ∀ (members : List ArgumentMember) (next : Slots) (registers : List PhysReg) (next' : Slots),
    abi.trial members next = some (registers, next') → registers.length = members.length := by
   intro members
   induction members with
   | nil =>
    intro next registers next' h
    obtain ⟨rfl, -⟩ := Prod.mk.inj (some.inj h)
    rfl
   | cons member members ih =>
    intro next registers next' h
    rw [trial] at h
    obtain ⟨⟨first, middle⟩, -, h⟩ := bind_eq_some_iff.1 h
    obtain ⟨⟨rest, last⟩, hrest, h⟩ := bind_eq_some_iff.1 h
    grind
  rw [direct] at hdirect
  split at hdirect
  · grind
  · nomatch hdirect

/-- Stack slots are numbered in the order of the members, without a gap. -/
theorem placeGroups_stack (groups : List ArgumentGroup) (next : Slots) (stackSlots : Nat) :
  ∃ count, (abi.placeGroups groups next stackSlots).2 = stackSlots + count ∧
   stackOf (abi.placeGroups groups next stackSlots).1 = List.range' stackSlots count := by
 induction groups generalizing next stackSlots with
 | nil => exact ⟨0, rfl, rfl⟩
 | cons group groups ih =>
  obtain ⟨count, htotal, hslots⟩ := ih (abi.placeGroup group next stackSlots).2.1 (abi.placeGroup group next stackSlots).2.2
  have hgroup : ∃ used, (abi.placeGroup group next stackSlots).2.2 = stackSlots + used ∧
    stackOf (abi.placeGroup group next stackSlots).1 = List.range' stackSlots used := by
   rw [placeGroup]
   cases abi.direct group next with
   | none => exact ⟨group.members.length, rfl, stackOf_stack _⟩
   | some found => exact ⟨0, rfl, stackOf_registers _⟩
  obtain ⟨used, hnext, hused⟩ := hgroup
  rw [hnext] at htotal hslots
  refine ⟨used + count, ?_, ?_⟩
  · rw [placeGroups]
    grind
  · rw [placeGroups]
    rw [stackOf, filterMap_append, ← stackOf, ← stackOf, hused, hnext, hslots, range'_append_1]

end AbiInfo

end Tir.Backend.Abi
