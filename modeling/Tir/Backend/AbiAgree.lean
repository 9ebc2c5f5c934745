import Tir.Backend.AbiPlaced

/-!
# Caller and callee agree on every argument

A call places its arguments without their classes, the callee with them. The two agree, and the
callee's registers are apart, exactly when no group that is passed in registers gives a member of a
grouped class a register of that class's own file (`arguments_agree_iff`): a grouped class counts the
slots of such a sequence by its width, and names its register at that width.
-/

open List Option

namespace Tir.Backend.Abi

open PhysReg ArgumentMember AbiInfo

/-- One register by two names: the same indices of the same file. -/
def SameRegister (a b : PhysReg) : Prop :=
 SamePlace a b ∧ a.width = b.width

def SameLocation : ArgumentSlot → ArgumentSlot → Prop
 | .register a, .register b => SameRegister a b
 | .stack i, .stack j => i = j
 | _, _ => False

/-- The indices of the register are listed by a sequence of the member's kind. -/
def AbiInfo.InsideFor (abi : AbiInfo) (member : ArgumentMember) : ArgumentSlot → Prop
 | .register register => ∃ sequence ∈ abi.argumentSequences member.kind, ∀ offset, offset < register.width →
   ∃ listed ∈ sequence.regs, listed.file = register.file ∧ listed.index = register.index + offset
 | .stack _ => True

/-- What caller and callee must have of a placement. -/
structure Agreement (abi : AbiInfo) (groups : List ArgumentGroup) (hasResultAddress : Bool) : Prop where
 apart : (registersOf (planArguments abi groups hasResultAddress).1).Pairwise fun a b => ¬ a.Overlaps b
 inside : Forall₂ abi.InsideFor (groups.flatMap (·.members)) (planArguments abi groups hasResultAddress).1
 avoids : hasResultAddress = true → ∀ result, abi.indirectResult = some result →
  ∀ register ∈ registersOf (planArguments abi groups hasResultAddress).1, ¬ register.Overlaps result
 stack : stackOf (planArguments abi groups hasResultAddress).1 =
  List.range (planArguments abi groups hasResultAddress).2
 located : Forall₂ SameLocation (assignArgumentLocations abi groups hasResultAddress).1
  (planArguments abi groups hasResultAddress).1

/-! ## The branch of a grouped class -/

def ArgumentMember.unclassed (member : ArgumentMember) : ArgumentMember :=
 { member with cls := none }

/-- A register of the own file of a grouped class. -/
def ownGrouped (cls : Option RegClass) (register : PhysReg) : Bool :=
 match cls with
 | some cls => decide (1 < cls.groupWidth) && register.file == cls.file
 | none => false

namespace AbiInfo

variable (abi : AbiInfo)

/-- Whether a trial, run with the members as `name` gives them, draws a register of its own file for
a member of a grouped class. -/
def drawsGrouped (name : ArgumentMember → ArgumentMember) : List ArgumentMember → Slots → Bool
 | [], _ => false
 | member :: members, next => match abi.nextArgumentRegister (name member) next with
  | none => false
  | some (register, next) => ownGrouped member.cls register || drawsGrouped name members next

/-- The group stays on the stack on both sides, or neither trial draws for a grouped class. -/
def harmless (group : ArgumentGroup) (next : Slots) : Bool :=
 ((abi.direct group.unclassed next).isNone && (abi.direct group next).isNone) ||
   (!abi.drawsGrouped ArgumentMember.unclassed group.members (abi.aligned group next) &&
    !abi.drawsGrouped id group.members (abi.aligned group next))

/-- Every group is harmless in the state before it. -/
def noGroupedDraw : List ArgumentGroup → Slots → Bool
 | [], _ => true
 | group :: groups, next =>
  abi.harmless group next && noGroupedDraw groups (abi.placeGroup group.unclassed next 0).2.1

variable {abi} {next : Slots}

variable {register : PhysReg} {sequence : PassSeq} {cls : Option RegClass}

theorem ownGrouped_eq_true {cls : RegClass} :
  ownGrouped (some cls) register = true ↔ 1 < cls.groupWidth ∧ register.file = cls.file := by
 rw [ownGrouped, Bool.and_eq_true, decide_eq_true_iff, beq_iff_eq]

theorem isGrouped_eq_true {cls : RegClass} : isGrouped (some cls) sequence = true ↔
  1 < cls.groupWidth ∧ ∃ first, sequence.regs.head? = some first ∧ first.file = cls.file := by
 unfold isGrouped
 cases sequence.regs.head? with
 | none =>
  refine ⟨nofun, ?_⟩
  rintro ⟨-, first, hfst, -⟩
  nomatch hfst
 | some first =>
  simp

/-- A register named in a class has that class where it is of its file. -/
theorem named_file (cls : Option RegClass) (register : PhysReg) : (named cls register).file = register.file := by
 unfold named
 cases cls with
 | none => rfl
 | some cls =>
  simp only
  split
  · rename_i heq
    exact heq.symm
  · rfl

theorem named_index (cls : Option RegClass) (register : PhysReg) : (named cls register).index = register.index := by
 unfold named
 cases cls with
 | none => rfl
 | some cls =>
  simp only
  split
  · rfl
  · rfl

/-- A grouped class's register of its own file is as wide as the group. -/
theorem width_named (hown : ownGrouped cls (named cls register) = true) :
  1 < (named cls register).width := by
 cases cls with
 | none => nomatch hown
 | some cls =>
  obtain ⟨hwide, hfile⟩ := ownGrouped_eq_true.1 hown
  rw [named_file] at hfile
  simp only [named, if_pos hfile, width]
  omega

theorem width_named_of_not (hsingle : register.width = 1)
  (hown : ownGrouped cls (named cls register) = false) : (named cls register).width = 1 := by
 cases cls with
 | none => exact hsingle
 | some cls =>
  by_cases hfile : register.file = cls.file
  · have hnot : ¬ 1 < cls.groupWidth := fun hwide => by
     have hyes := ownGrouped_eq_true.2 ⟨hwide, (named_file (some cls) register).trans hfile⟩
     rw [hown] at hyes
     nomatch hyes
    simp only [named, if_pos hfile, width]
    omega
  · simp only [named, if_neg hfile]
    exact hsingle

theorem registerAt_of_not (h : isGrouped cls sequence = false) (slot : Nat) :
  registerAt cls sequence slot = sequence.regs[slot]? := by
 unfold registerAt
 split
 · rw [if_neg (by rw [h]; exact Bool.false_ne_true)]
 · rfl

/-- Every register a draw names stands in its sequence's file. -/
theorem nextFrom_named {sequences : List PassSeq} {next' : Slots}
  (h : nextFrom cls next sequences = some (register, next')) : ∃ drawn, register = named cls drawn := by
 induction sequences with
 | nil => nomatch h
 | cons sequence rest ih =>
  rw [nextFrom] at h
  split at h
  · rename_i drawn _
    obtain ⟨rfl, -⟩ := Prod.mk.inj (some.inj h)
    exact ⟨drawn, rfl⟩
  · exact ih h

/-! ## Two draws from one state -/

/-- What two trials come to: nothing both, or the same registers and the same slots. -/
def SameDraw : Option (PhysReg × Slots) → Option (PhysReg × Slots) → Prop
 | none, none => True
 | some a, some b => SameRegister a.1 b.1 ∧ a.2 = b.2
 | _, _ => False

section Draws

variable (hwell : abi.WellFormed)
include hwell

/-- Draws that give a grouped class no register of its own file are one draw. -/
theorem sameDraw_nextFrom {cls : Option RegClass} {sequences : List PassSeq}
  (hin : ∀ sequence ∈ sequences, sequence ∈ abi.args)
  (hfree : ∀ register next', nextFrom none next sequences = some (register, next') → ownGrouped cls register = false)
  (hnamed : ∀ register next', nextFrom cls next sequences = some (register, next') → ownGrouped cls register = false) :
  SameDraw (nextFrom none next sequences) (nextFrom cls next sequences) := by
 induction sequences with
 | nil => exact trivial
 | cons sequence rest ih =>
  rw [nextFrom, registerAt_none] at hfree
  rw [nextFrom] at hnamed
  rw [nextFrom, nextFrom, registerAt_none]
  have hrest := ih fun other hother => hin other (.tail _ hother)
  by_cases hgrouped : isGrouped cls sequence = true
  · -- a sequence of the class's own file: neither side has a register there
    cases cls with
    | none => cases hgrouped
    | some cls =>
     obtain ⟨hwide, first, hfst, hfile⟩ := isGrouped_eq_true.1 hgrouped
     have hfirst_in : first ∈ sequence.regs := mem_of_mem_head? hfst
     cases hslot : sequence.regs[next sequence.kind]? with
     | some listed =>
      have hlisted := hfree _ _ (by rw [hslot])
      have hsame := hwell.oneFile sequence (hin sequence (.head _)) listed
       (mem_of_getElem? hslot) first hfirst_in
      have hyes := ownGrouped_eq_true.2 ⟨hwide, hsame.trans hfile⟩
      rw [named] at hlisted
      rw [hlisted] at hyes
      cases hyes
     | none =>
      cases hcounted : registerAt (some cls) sequence (next sequence.kind) with
      | some counted =>
       have hnot := hnamed _ _ (by rw [hcounted])
       obtain ⟨last, hlast⟩ : ∃ last, sequence.regs.getLast? = some last := by
        have hne := ne_nil_of_mem hfirst_in
        exact ⟨_, getLast?_eq_some_getLast hne⟩
       unfold registerAt at hcounted
       simp only [hfst, hlast, if_pos hgrouped] at hcounted
       split at hcounted
       · cases hcounted
         rw [Bool.eq_false_iff] at hnot
         exact absurd (ownGrouped_eq_true.2 ⟨hwide, named_file (some cls) _⟩) hnot
       · cases hcounted
      | none =>
       rw [hslot] at hfree
       rw [hcounted] at hnamed
       exact hrest hfree hnamed
  · rw [Bool.not_eq_true] at hgrouped
    rw [registerAt_of_not hgrouped] at hnamed ⊢
    cases hslot : sequence.regs[next sequence.kind]? with
    | some listed =>
     have hnot := hnamed _ _ (by rw [hslot])
     have hsingle := hwell.single sequence (hin sequence (.head _)) listed (mem_of_getElem? hslot)
     refine ⟨⟨⟨(named_file cls listed).symm, (named_index cls listed).symm⟩, ?_⟩, rfl⟩
     rw [width_named_of_not hsingle hnot]
     exact hsingle
    | none =>
     rw [hslot] at hfree hnamed
     exact hrest hfree hnamed

omit hwell in
theorem mem_args_of_mem {kind : ValueKind} {sequence : PassSeq} (h : sequence ∈ abi.argumentSequences kind) :
  sequence ∈ abi.args := by
 obtain ⟨-, position, hposn⟩ := sequenceOf_spec (sequenceOf_of_mem h)
 exact mem_of_getElem? hposn

/-- What two trials of one group come to. -/
def SameTrial : Option (List PhysReg × Slots) → Option (List PhysReg × Slots) → Prop
 | none, none => True
 | some a, some b => Forall₂ SameRegister a.1 b.1 ∧ a.2 = b.2
 | _, _ => False

variable {members : List ArgumentMember}

/-- Trials that give no grouped class a register of its own file are one trial. -/
theorem sameTrial (hfree : abi.drawsGrouped ArgumentMember.unclassed members next = false)
  (hnamed : abi.drawsGrouped id members next = false) :
  SameTrial (abi.trial (members.map ArgumentMember.unclassed) next) (abi.trial members next) := by
 induction members generalizing next with
 | nil => exact ⟨Forall₂.nil, rfl⟩
 | cons member members ih =>
  rw [drawsGrouped] at hfree hnamed
  have hdraw : SameDraw (abi.nextArgumentRegister member.unclassed next) (abi.nextArgumentRegister member next) := by
   apply sameDraw_nextFrom hwell fun sequence hin => mem_args_of_mem hin
   · intro register next' hnext
     have hfound : abi.nextArgumentRegister member.unclassed next = some (register, next') := hnext
     rw [hfound] at hfree
     exact (Bool.or_eq_false_iff.1 hfree).1
   · intro register next' hnext
     have hfound : abi.nextArgumentRegister (id member) next = some (register, next') := hnext
     rw [hfound] at hnamed
     exact (Bool.or_eq_false_iff.1 hnamed).1
  rw [map_cons, trial, trial]
  rw [id_eq] at hnamed
  cases hfst : abi.nextArgumentRegister member.unclassed next with
  | none =>
   cases hsnd : abi.nextArgumentRegister member next with
   | none => exact trivial
   | some found =>
    rw [hfst, hsnd] at hdraw
    exact hdraw.elim
  | some found =>
   obtain ⟨register, middle⟩ := found
   cases hsnd : abi.nextArgumentRegister member next with
   | none =>
    rw [hfst, hsnd] at hdraw
    exact hdraw.elim
   | some found =>
    obtain ⟨register', middle'⟩ := found
    rw [hfst, hsnd] at hdraw
    rw [hfst] at hfree
    rw [hsnd] at hnamed
    obtain ⟨hsame, hmiddle⟩ := hdraw
    have hmiddle : middle = middle' := hmiddle
    subst hmiddle
    have hrest := ih (Bool.or_eq_false_iff.1 hfree).2 (Bool.or_eq_false_iff.1 hnamed).2
    show SameTrial ((abi.trial (members.map unclassed) middle).bind _)
     ((abi.trial members middle).bind _)
    cases hthird : abi.trial (members.map unclassed) middle with
    | none =>
     cases hfourth : abi.trial members middle with
     | none => exact trivial
     | some found =>
      rw [hthird, hfourth] at hrest
      exact hrest.elim
    | some found =>
     cases hfourth : abi.trial members middle with
     | none =>
      rw [hthird, hfourth] at hrest
      exact hrest.elim
     | some found' =>
      rw [hthird, hfourth] at hrest
      exact ⟨Forall₂.cons hsame hrest.1, hrest.2⟩

/-- Trials that come to the same registers gave no grouped class one of its own file: the listed
register has one index, the class's has more. -/
theorem not_drawsGrouped {next' : Slots} {registers registers' : List PhysReg}
  {last last' : Slots} (hfree : abi.trial (members.map ArgumentMember.unclassed) next = some (registers, last))
  (hnamed : abi.trial members next' = some (registers', last')) (hsame : Forall₂ SameRegister registers registers') :
  abi.drawsGrouped ArgumentMember.unclassed members next = false ∧ abi.drawsGrouped id members next' = false := by
 induction members generalizing next next' registers registers' with
 | nil => exact ⟨rfl, rfl⟩
 | cons member members ih =>
  rw [map_cons, trial] at hfree
  rw [trial] at hnamed
  obtain ⟨⟨register, middle⟩, hfst, hfree⟩ := bind_eq_some_iff.1 hfree
  obtain ⟨⟨rest, last⟩, hrest, hfree⟩ := bind_eq_some_iff.1 hfree
  cases hfree
  obtain ⟨⟨register', middle'⟩, hfst', hnamed⟩ := bind_eq_some_iff.1 hnamed
  obtain ⟨⟨rest', last'⟩, hrest', hnamed⟩ := bind_eq_some_iff.1 hnamed
  cases hnamed
  obtain ⟨⟨⟨hfile, -⟩, hwid⟩, hrests⟩ := forall₂_cons.1 hsame
  obtain ⟨hnone, hnone'⟩ := ih hrest hrest' hrests
  -- the class-free register is listed, so that it covers one index
  have hclassless : member.unclassed.cls = none := rfl
  obtain ⟨sequence, hin, hlisted⟩ := listedFor_next hclassless hfst
  have hsingle := hwell.single sequence (mem_args_of_mem hin) register hlisted
  obtain ⟨drawn, rfl⟩ := nextFrom_named hfst'
  have hown' : ownGrouped member.cls (named member.cls drawn) = false := by
   rw [Bool.eq_false_iff]
   intro hown
   have hwide := width_named hown
   omega
  have hown : ownGrouped member.cls register = false := by
   rw [Bool.eq_false_iff] at hown' ⊢
   intro hown
   apply hown'
   cases hcls : member.cls with
   | none =>
    rw [hcls] at hown
    cases hown
   | some cls =>
    rw [hcls] at hown hfile
    obtain ⟨hgroup, hreg⟩ := ownGrouped_eq_true.1 hown
    exact ownGrouped_eq_true.2 ⟨hgroup, hfile.symm.trans hreg⟩
  constructor
  · rw [drawsGrouped, hfst]
    exact Bool.or_eq_false_iff.2 ⟨hown, hnone⟩
  · rw [drawsGrouped, id_eq, hfst']
    exact Bool.or_eq_false_iff.2 ⟨hown', hnone'⟩

end Draws

/-! ## Groups -/

theorem aligned_unclassed (group : ArgumentGroup) (next : Slots) :
  abi.aligned group.unclassed next = abi.aligned group next := by
 have hkinds : group.unclassed.members.map (·.kind) = group.members.map (·.kind) := by
  rw [ArgumentGroup.unclassed, List.map_map]
  rfl
 rw [aligned, aligned, hkinds]
 rfl

theorem direct_unclassed (group : ArgumentGroup) (next : Slots) : abi.direct group.unclassed next =
  if abi.argumentGroupFitsRegisterLimit group.members.length then
   abi.trial (group.members.map ArgumentMember.unclassed) (abi.aligned group next) else none := by
 rw [direct, aligned_unclassed, ArgumentGroup.unclassed, length_map]
 rfl

theorem rolledBack_unclassed (members : List ArgumentMember) (next : Slots) :
  abi.rolledBack (members.map ArgumentMember.unclassed) next = abi.rolledBack members next := by
 rw [rolledBack, rolledBack, foldl_map]
 rfl

theorem placeGroups_cons (group : ArgumentGroup) (groups : List ArgumentGroup) (next : Slots) (stackSlots : Nat) :
  abi.placeGroups (group :: groups) next stackSlots = ((abi.placeGroup group next stackSlots).1 ++
     (abi.placeGroups groups (abi.placeGroup group next stackSlots).2.1 (abi.placeGroup group next stackSlots).2.2).1,
     (abi.placeGroups groups (abi.placeGroup group next stackSlots).2.1
      (abi.placeGroup group next stackSlots).2.2).2) :=
 rfl

/-- The slots after a group do not depend on the stack slots used. -/
theorem slots_placeGroup (group : ArgumentGroup) (next : Slots) (stackSlots : Nat) :
  (abi.placeGroup group next stackSlots).2.1 = (abi.placeGroup group next 0).2.1 := by
 rw [placeGroup, placeGroup]
 cases abi.direct group next with
 | none => rfl
 | some found => rfl

section Groups

variable (hwell : abi.WellFormed) {group : ArgumentGroup}
include hwell

theorem sameTrial_direct (h : abi.harmless group next = true) :
  SameTrial (abi.direct group.unclassed next) (abi.direct group next) := by
 rw [harmless, Bool.or_eq_true, Bool.and_eq_true, Bool.and_eq_true, isNone_iff_eq_none, isNone_iff_eq_none,
  Bool.not_eq_true', Bool.not_eq_true'] at h
 rcases h with ⟨hfree, hnamed⟩ | ⟨hfree, hnamed⟩
 · rw [hfree, hnamed]
   exact trivial
 · rw [direct_unclassed, direct]
   split
   · exact sameTrial hwell hfree hnamed
   · exact trivial

/-- A harmless group is placed alike. -/
theorem located_placeGroup (h : abi.harmless group next = true) (stackSlots : Nat) :
  List.Forall₂ SameLocation (abi.placeGroup group.unclassed next stackSlots).1 (abi.placeGroup group next stackSlots).1 ∧
   (abi.placeGroup group.unclassed next stackSlots).2 = (abi.placeGroup group next stackSlots).2 := by
 have hsame := sameTrial_direct hwell h
 rw [placeGroup, placeGroup]
 cases hfree : abi.direct group.unclassed next with
 | none =>
  cases hnamed : abi.direct group next with
  | some found =>
   rw [hfree, hnamed] at hsame
   exact hsame.elim
  | none =>
   have hlen : group.unclassed.members.length = group.members.length := List.length_map _
   have hrolled : abi.rolledBack group.unclassed.members next = abi.rolledBack group.members next :=
    rolledBack_unclassed group.members next
   simp only [hlen, hrolled, and_true]
   rw [List.forall₂_map_left_iff, List.forall₂_map_right_iff, List.forall₂_same]
   exact fun _ _ => rfl
 | some found =>
  cases hnamed : abi.direct group next with
  | none =>
   rw [hfree, hnamed] at hsame
   exact hsame.elim
  | some found' =>
   rw [hfree, hnamed] at hsame
   obtain ⟨hregs, hnext⟩ := hsame
   simp only [hnext, and_true]
   rw [List.forall₂_map_left_iff, List.forall₂_map_right_iff]
   exact hregs

/-- A group that is placed alike is harmless. -/
theorem harmless_of_located {stackSlots : Nat} (h : Forall₂ SameLocation
  (abi.placeGroup group.unclassed next stackSlots).1 (abi.placeGroup group next stackSlots).1) :
  abi.harmless group next = true := by
 rw [harmless]
 cases hfree : abi.direct group.unclassed next with
 | none =>
  cases hnamed : abi.direct group next with
  | none => rfl
  | some found =>
   -- a register against a stack slot: the group has no member
   rw [placeGroup, placeGroup, hfree, hnamed] at h
   cases hmembers : group.members with
   | nil => rw [drawsGrouped, drawsGrouped]; rfl
   | cons member members =>
    have hlen : group.unclassed.members.length = members.length + 1 := by
     rw [ArgumentGroup.unclassed, hmembers, map_cons, length_cons, length_map]
    simp only [hlen, range'_succ, map_cons] at h
    rw [forall₂_map_right_iff] at h
    obtain ⟨_, _, hhead, -, -⟩ := forall₂_cons_left_iff.1 h
    exact hhead.elim
 | some found =>
  cases hnamed : abi.direct group next with
  | none =>
   rw [placeGroup, placeGroup, hfree, hnamed] at h
   cases hmembers : group.members with
   | nil => rw [drawsGrouped, drawsGrouped]; rfl
   | cons member members =>
    simp only [hmembers, length_cons, range'_succ, map_cons] at h
    rw [forall₂_map_left_iff] at h
    obtain ⟨_, _, hhead, -, -⟩ := forall₂_cons_right_iff.1 h
    exact hhead.elim
  | some found' =>
   rw [placeGroup, placeGroup, hfree, hnamed] at h
   rw [forall₂_map_left_iff, forall₂_map_right_iff] at h
   rw [direct_unclassed] at hfree
   rw [direct] at hnamed
   split at hnamed
   · rename_i hfits
     rw [if_pos hfits] at hfree
     obtain ⟨hfst, hsnd⟩ := not_drawsGrouped hwell hfree hnamed h
     rw [hfst, hsnd]
     exact Bool.or_true _
   · cases hnamed

/-- **The two sides put every member in one place exactly when every group is harmless.** -/
theorem located_iff (groups : List ArgumentGroup) (next : Slots) (stackSlots : Nat) :
  Forall₂ SameLocation (abi.placeGroups (groups.map ArgumentGroup.unclassed) next stackSlots).1
   (abi.placeGroups groups next stackSlots).1 ↔ abi.noGroupedDraw groups next = true := by
 induction groups generalizing next stackSlots with
 | nil => exact ⟨fun _ => rfl, fun _ => Forall₂.nil⟩
 | cons group groups ih =>
  rw [map_cons, placeGroups_cons, placeGroups_cons, noGroupedDraw, Bool.and_eq_true]
  have hlen : (abi.placeGroup group.unclassed next stackSlots).1.length =
    (abi.placeGroup group next stackSlots).1.length := by
   rw [length_placeGroup, length_placeGroup, ArgumentGroup.unclassed, length_map]
  constructor
  · intro h
    have hfst := forall₂_take (abi.placeGroup group.unclassed next stackSlots).1.length h
    rw [take_left, hlen, take_left] at hfst
    have hharmless := harmless_of_located hwell hfst
    have hrest := forall₂_drop (abi.placeGroup group.unclassed next stackSlots).1.length h
    rw [drop_left, hlen, drop_left] at hrest
    obtain ⟨-, hnext⟩ := located_placeGroup hwell hharmless stackSlots
    rw [← hnext, ih, slots_placeGroup] at hrest
    exact ⟨hharmless, hrest⟩
  · rintro ⟨hharmless, hrest⟩
    obtain ⟨hfst, hnext⟩ := located_placeGroup hwell hharmless stackSlots
    refine rel_append hfst ?_
    rw [← hnext, ih, slots_placeGroup]
    exact hrest

end Groups

end AbiInfo

/-! ## The main result -/

section Related

variable {α β γ : Type} {R : α → β → Prop} {S : β → γ → Prop}

variable {first : List α} {second : List β}

variable (h : Forall₂ R first second)

include h

theorem forall₂_comp {third : List γ}
  (h' : Forall₂ S second third) : Forall₂ (fun a c => ∃ b, R a b ∧ S b c) first third := by
 induction h generalizing third with
 | nil =>
  rw [forall₂_nil_left_iff] at h'
  rw [h']
  exact Forall₂.nil
 | cons hhead _ ih =>
  obtain ⟨c, rest, hhead', htail', rfl⟩ := forall₂_cons_left_iff.1 h'
  exact Forall₂.cons ⟨_, hhead, hhead'⟩ (ih htail')

theorem exists_of_forall₂ {b : β}
  (hin : b ∈ second) : ∃ a ∈ first, R a b := by
 induction h with
 | nil => nomatch hin
 | cons hhead _ ih =>
  rcases mem_cons.1 hin with rfl | hin
  · exact ⟨_, .head _, hhead⟩
  · obtain ⟨a, ha, hrelated⟩ := ih hin
    exact ⟨a, .tail _ ha, hrelated⟩

/-- What holds pairwise of a list holds, over the relation, of a list it is related to. -/
theorem pairwise_of_forall₂ {P : α → α → Prop} {Q : β → β → Prop} (hpair : first.Pairwise P)
  (himp : ∀ a a' b b', R a a' → R b b' → P a b → Q a' b') : second.Pairwise Q := by
 induction h with
 | nil => exact Pairwise.nil
 | cons hhead htail ih =>
  obtain ⟨hfst, hrest⟩ := pairwise_cons.1 hpair
  refine pairwise_cons.2 ⟨fun b' hb' => ?_, ih hrest⟩
  obtain ⟨b, hb, hrelated⟩ := exists_of_forall₂ htail hb'
  exact himp _ _ _ _ hhead hrelated (hfst b hb)

end Related

theorem forall₂_registersOf {first second : List ArgumentSlot} (h : Forall₂ SameLocation first second) :
  Forall₂ SameRegister (registersOf first) (registersOf second) := by
 induction h with
 | nil => exact Forall₂.nil
 | @cons a b _ _ hhead _ ih =>
  cases a with
  | register a =>
   cases b with
   | register b => exact Forall₂.cons hhead ih
   | stack b => exact hhead.elim
  | stack a =>
   cases b with
   | register b => exact hhead.elim
   | stack b => exact ih

/-- Registers of one index overlap only in one place. -/
theorem samePlace_of_overlaps {a b : PhysReg} (ha : a.width = 1) (hb : b.width = 1) (h : a.Overlaps b) : SamePlace a b := by
 obtain ⟨hfile, hless, hless'⟩ := h
 exact ⟨hfile, by omega⟩

variable {abi : AbiInfo}

/-- A register placed for a member without a class is listed, so that it covers one index. -/
theorem width_of_slotFor (hwell : abi.WellFormed) {members : List ArgumentMember} {slots : List ArgumentSlot}
  (h : Forall₂ abi.SlotFor members slots) : ∀ register ∈ registersOf slots, register.width = 1 := by
 intro register hin
 obtain ⟨slot, hslot, hreg⟩ := mem_filterMap.1 hin
 cases slot with
 | stack _ => nomatch hreg
 | register found =>
  obtain rfl := some.inj hreg
  obtain ⟨member, -, sequence, hseq, hlisted⟩ := exists_of_forall₂ h hslot
  exact hwell.single sequence (mem_args_of_mem hseq) found hlisted

/-- A listed register by another name of one index is inside its sequence. -/
theorem insideFor_of_slotFor (hwell : abi.WellFormed) {member : ArgumentMember} {slot slot' : ArgumentSlot}
  (h : abi.SlotFor member slot) (hsame : SameLocation slot slot') : abi.InsideFor member slot' := by
 cases slot' with
 | stack _ => exact trivial
 | register found =>
  cases slot with
  | stack _ => exact hsame.elim
  | register listed =>
   obtain ⟨sequence, hseq, hlisted⟩ := h
   obtain ⟨⟨hfile, hidx⟩, hwid⟩ := hsame
   have hsingle := hwell.single sequence (mem_args_of_mem hseq) listed hlisted
   refine ⟨sequence, hseq, fun offset hoff => ⟨listed, hlisted, hfile, ?_⟩⟩
   omega

/-- **Caller and callee agree on every argument exactly when no group that is passed in registers
gives a member of a grouped class a register of that class's own file.** -/
theorem arguments_agree_iff (hwell : abi.WellFormed) (groups : List ArgumentGroup) (hasResultAddress : Bool) :
  Agreement abi groups hasResultAddress ↔ abi.noGroupedDraw groups (abi.start hasResultAddress) = true := by
 rw [← AbiInfo.located_iff hwell groups (abi.start hasResultAddress) 0]
 refine ⟨fun h => h.located, fun hlocated => ?_⟩
 have hfree : ∀ group ∈ groups.map ArgumentGroup.unclassed, ∀ member ∈ group.members, member.cls = none := by
  intro group hin member hmem
  obtain ⟨original, -, rfl⟩ := List.mem_map.1 hin
  obtain ⟨classed, -, rfl⟩ := List.mem_map.1 hmem
  rfl
 obtain ⟨⟨_, hdraws⟩, hslots⟩ := draws_placeGroups hwell hfree 0
 have hsingle := width_of_slotFor hwell hslots
 -- the callee's registers are the call's, of one index each
 have hregs : Forall₂ (fun a b => a.width = 1 ∧ SameRegister a b)
   (registersOf (assignArgumentLocations abi groups hasResultAddress).1)
   (registersOf (planArguments abi groups hasResultAddress).1) :=
  (forall₂_and_left _ _).2 ⟨hsingle, forall₂_registersOf hlocated⟩
 refine ⟨?_, ?_, ?_, ?_, hlocated⟩
 · refine pairwise_of_forall₂ hregs hdraws.apart ?_
   rintro a a' b b' ⟨ha, hsame, hwid⟩ ⟨hb, hsame', hwid'⟩ hapart hoverlap
   obtain ⟨hfile, hidx⟩ := samePlace_of_overlaps (hwid.symm.trans ha) (hwid'.symm.trans hb) hoverlap
   exact hapart ⟨hsame.1.trans (hfile.trans hsame'.1.symm), hsame.2.trans (hidx.trans hsame'.2.symm)⟩
 · have hmembers : (groups.map ArgumentGroup.unclassed).flatMap (·.members) =
     (groups.flatMap (·.members)).map unclassed := by
    rw [flatMap_map, map_flatMap]
    rfl
   rw [hmembers, forall₂_map_left_iff] at hslots
   refine (forall₂_comp hslots hlocated).imp fun member slot hboth => ?_
   obtain ⟨middle, hfor, hsame⟩ := hboth
   have hinside := insideFor_of_slotFor hwell hfor hsame
   cases slot with
   | register _ => exact hinside
   | stack _ => exact trivial
 · rintro rfl result hres register hin hoverlap
   obtain ⟨listed, hlisted, hone, ⟨hfile, hidx⟩, hwid⟩ := exists_of_forall₂ hregs hin
   obtain ⟨hfile', hidx'⟩ := samePlace_of_overlaps (hwid.symm.trans hone) (hwell.result result hres).1 hoverlap
   exact hdraws.fresh result (reserved_start hwell hres) listed hlisted
    ⟨hfile.trans hfile', hidx.trans hidx'⟩
 · obtain ⟨count, htotal, hstack⟩ := placeGroups_stack groups (abi.start hasResultAddress) 0
   rw [Nat.zero_add] at htotal
   rw [planArguments, placeArguments, hstack, htotal, range_eq_range']

/-! ## Vector groups -/

def gpr : RegClass := ⟨"GPR", "GPR", 1⟩

def vr : RegClass := ⟨"VR", "VR", 1⟩

/-- A pair of vector registers. -/
def vrm2 : RegClass := ⟨"VRM2", "VR", 2⟩

def consecutive (cls : RegClass) (first count : Nat) : List PhysReg :=
 (List.range' first count).map fun index => ⟨cls, index⟩

/-- The integers in `x10` to `x17` and the vectors in `v8` to `v23`, the result address in `x10`. -/
def lp64 : AbiInfo where
 indirectResult := some ⟨gpr, 10⟩
 argumentGroupAlignment := some ⟨.int, 16, 2, by decide⟩
 argumentGroupPolicy := none
 args := [⟨.int, consecutive gpr 10 8, .stack⟩, ⟨.vector, consecutive vr 8 16, .stack⟩]

variable {register : PhysReg}

theorem mem_consecutive {cls : RegClass} {first count : Nat}
  (h : register ∈ consecutive cls first count) : register.cls = cls := by
 obtain ⟨index, -, rfl⟩ := List.mem_map.1 h
 rfl

theorem getElem?_consecutive {cls : RegClass} {first count slot : Nat}
  (h : (consecutive cls first count)[slot]? = some register) : register = ⟨cls, first + slot⟩ := by
 rw [consecutive, getElem?_map] at h
 obtain ⟨index, hidx, rfl⟩ := map_eq_some_iff.1 h
 obtain ⟨hlt, rfl⟩ := List.getElem?_eq_some_iff.1 hidx
 rw [getElem_range', Nat.one_mul]

theorem gpr_file_ne : gpr.file ≠ vr.file := by
 decide

theorem lp64_lists {position slot : Nat} (h : lp64.Lists position slot register) :
  position = 0 ∧ register = ⟨gpr, 10 + slot⟩ ∨ position = 1 ∧ register = ⟨vr, 8 + slot⟩ := by
 obtain ⟨sequence, hseq, hslot⟩ := h
 match position, hseq with
 | 0, hseq =>
  cases hseq
  exact .inl ⟨rfl, getElem?_consecutive hslot⟩
 | 1, hseq =>
  cases hseq
  exact .inr ⟨rfl, getElem?_consecutive hslot⟩

theorem lp64_wellFormed : lp64.WellFormed where
 oneFile := by
  intro sequence hin a ha b hb
  simp only [lp64, List.mem_cons, List.not_mem_nil, or_false] at hin
  rcases hin with rfl | rfl
  · rw [file, file, mem_consecutive ha, mem_consecutive hb]
  · rw [file, file, mem_consecutive ha, mem_consecutive hb]
 single := by
  intro sequence hin a ha
  simp only [lp64, List.mem_cons, List.not_mem_nil, or_false] at hin
  rcases hin with rfl | rfl
  · rw [width, mem_consecutive ha]
    rfl
  · rw [width, mem_consecutive ha]
    rfl
 ascending := by
  intro sequence hin
  simp only [lp64, List.mem_cons, List.not_mem_nil, or_false] at hin
  rcases hin with rfl | rfl
  · exact List.pairwise_map.2 List.pairwise_lt_range'
  · exact List.pairwise_map.2 List.pairwise_lt_range'
 distinct := by
  intro p i a q j b ha hb hsame
  rcases lp64_lists ha with ⟨rfl, rfl⟩ | ⟨rfl, rfl⟩ <;> rcases lp64_lists hb with ⟨rfl, rfl⟩ | ⟨rfl, rfl⟩
  · exact ⟨rfl, Nat.add_left_cancel hsame.2⟩
  · exact absurd hsame.1 gpr_file_ne
  · exact absurd hsame.1.symm gpr_file_ne
  · exact ⟨rfl, Nat.add_left_cancel hsame.2⟩
 result := by
  intro register hres
  cases hres
  refine ⟨rfl, fun p i a ha hsame => ?_⟩
  rcases lp64_lists ha with ⟨rfl, rfl⟩ | ⟨rfl, rfl⟩
  · rw [show 10 + i = 10 from hsame.2]
  · exact absurd hsame.1.symm gpr_file_ne

/-- A pair of integers aligned at sixteen bytes, one vector, and pairs of vectors that go to the stack
with the vectors of their group. -/
theorem lp64_agreement : Agreement lp64 [⟨[⟨.int, some gpr⟩, ⟨.int, some gpr⟩], 16⟩, ⟨[⟨.vector, some vr⟩], 1⟩,
    ⟨List.replicate 15 ⟨.vector, some vr⟩ ++ [⟨.vector, some vrm2⟩], 1⟩] true :=
 (arguments_agree_iff lp64_wellFormed _ _).2 (by decide +kernel)

/-- Two pairs of vectors: the call passes them in `v8` and `v9`, and the callee finds them in `v8` to
`v9` and `v10` to `v11`. -/
def vectorPairs : List ArgumentGroup :=
 List.replicate 2 ⟨[⟨.vector, some vrm2⟩], 1⟩

theorem vectorPairs_disagree : ¬ ∀ abi : AbiInfo, abi.WellFormed → ∀ groups hasResultAddress,
  Agreement abi groups hasResultAddress := by
 intro hall
 have hlocated := (hall lp64 lp64_wellFormed vectorPairs false).located
 have hcall : (assignArgumentLocations lp64 vectorPairs false).1 =
   [.register ⟨vr, 8⟩, .register ⟨vr, 9⟩] := by decide +kernel
 have hcallee : (planArguments lp64 vectorPairs false).1 =
   [.register ⟨vrm2, 8⟩, .register ⟨vrm2, 10⟩] := by decide +kernel
 rw [hcall, hcallee] at hlocated
 obtain ⟨-, hrest⟩ := forall₂_cons.1 hlocated
 obtain ⟨⟨⟨-, hidx⟩, -⟩, -⟩ := forall₂_cons.1 hrest
 nomatch hidx

end Tir.Backend.Abi
