import Mathlib

/-!
# Placing arguments

An ABI lists the registers it passes arguments of each kind in. `placeArguments` walks the argument
groups: a group takes the next registers of its members' sequences when all its members get one, and
goes to the stack otherwise. A call places its arguments without their register classes
(`assignArgumentLocations`), the callee with them (`planArguments`).
-/

open Function

namespace Tir.Backend.Abi

inductive ValueKind where
 | int
 | float
 | vector
deriving DecidableEq

/-- A register class: the file it draws from and how many consecutive indices a register covers. -/
structure RegClass where
 name : String
 file : String
 groupWidth : Nat
deriving DecidableEq

/-- A register: an index of its class's file. -/
structure PhysReg where
 cls : RegClass
 index : Nat
deriving DecidableEq

def PhysReg.file (register : PhysReg) : String :=
 register.cls.file

/-- How many file indices a register covers. -/
def PhysReg.width (register : PhysReg) : Nat :=
 max register.cls.groupWidth 1

/-- Whether two registers share a file index. -/
def PhysReg.Overlaps (a b : PhysReg) : Prop :=
 a.file = b.file ∧ a.index < b.index + b.width ∧ b.index < a.index + a.width

inductive Overflow where
 | chain (kind : ValueKind)
 | stack
deriving DecidableEq

structure PassSeq where
 kind : ValueKind
 regs : List PhysReg
 overflow : Overflow

/-- Slots of one kind start at a multiple for groups of a source alignment. -/
structure ArgumentGroupAlignment where
 kind : ValueKind
 minimumSourceAlignment : Nat
 registerMultiple : Nat
 registerMultiple_pos : 0 < registerMultiple

def ArgumentGroupAlignment.alignSlot (alignment : ArgumentGroupAlignment) (kind : ValueKind)
  (sourceAlignment slot : Nat) : Nat :=
 if kind ≠ alignment.kind ∨ sourceAlignment < alignment.minimumSourceAlignment then slot
 else (slot + (alignment.registerMultiple - 1)) / alignment.registerMultiple * alignment.registerMultiple

/-- What becomes of the registers when a group cannot use them. -/
inductive GroupRollback where
 | exhaust
 | preserve
deriving DecidableEq

structure ArgumentGroupPolicy where
 registerLimit : Option Nat
 rollback : GroupRollback

structure AbiInfo where
 indirectResult : Option PhysReg
 argumentGroupAlignment : Option ArgumentGroupAlignment
 argumentGroupPolicy : Option ArgumentGroupPolicy
 args : List PassSeq

abbrev Slots :=
 ValueKind → Nat

structure ArgumentMember where
 kind : ValueKind
 cls : Option RegClass

/-- An argument placed as a unit. -/
structure ArgumentGroup where
 members : List ArgumentMember
 alignment : Nat

inductive ArgumentSlot where
 | register (register : PhysReg)
 | stack (slot : Nat)
deriving DecidableEq

namespace AbiInfo

variable (abi : AbiInfo)

def argumentGroupFitsRegisterLimit (members : Nat) : Bool :=
 match abi.argumentGroupPolicy with
 | none => true
 | some policy => match policy.registerLimit with
  | none => true
  | some limit => members ≤ limit

def argumentGroupRollback : GroupRollback :=
 match abi.argumentGroupPolicy with
 | none => .exhaust
 | some policy => policy.rollback

/-- The kind of the sequence that lists the result address register, and the slot past it. -/
def indirectResultArgumentSlots : Option (ValueKind × Nat) := do
 let register ← abi.indirectResult
 abi.args.findSome? fun sequence =>
  (sequence.regs.findIdx? (· == register)).map fun slot => (sequence.kind, slot + 1)

def reserveIndirectResultArgument (next : Slots) : Slots :=
 match abi.indirectResultArgumentSlots with
 | none => next
 | some (kind, slot) => update next kind (max (next kind) slot)

def alignArgumentGroup (sourceAlignment : Nat) (kinds : List ValueKind) (next : Slots) : Slots :=
 match abi.argumentGroupAlignment with
 | none => next
 | some alignment =>
  if alignment.kind ∈ kinds then
   update next alignment.kind
    (alignment.alignSlot alignment.kind sourceAlignment (next alignment.kind))
  else next

def sequenceOf (kind : ValueKind) : Option PassSeq :=
 abi.args.find? (·.kind == kind)

/-- The loop over the sequences of a kind and the kinds it overflows to. A kind without a sequence
falls to the integers. -/
def sequencesFrom : Nat → List ValueKind → ValueKind → List PassSeq
 | 0, _, _ => []
 | fuel + 1, visited, kind =>
  if kind ∈ visited then []
  else match abi.sequenceOf kind with
   | some sequence => sequence :: match sequence.overflow with
    | .chain chained => sequencesFrom fuel (kind :: visited) chained
    | .stack => []
   | none => if kind ≠ .int then sequencesFrom fuel (kind :: visited) .int else []

/-- Each of the three kinds is visited once. -/
def argumentSequences (kind : ValueKind) : List PassSeq :=
 abi.sequencesFrom 3 [] kind

def exhaustArgumentRegisters (kind : ValueKind) (next : Slots) : Slots :=
 (abi.argumentSequences kind).foldl (fun next sequence => update next sequence.kind sequence.regs.length) next

/-- Whether a class counts a sequence in groups: it is wider than one index, and of the sequence's file. -/
def isGrouped (cls : Option RegClass) (sequence : PassSeq) : Bool :=
 match cls, sequence.regs.head? with
 | some cls, some first => decide (1 < cls.groupWidth) && first.file == cls.file
 | _, _ => false

/-- The register a sequence has at a slot: by the group width for a grouped class, by position else. -/
def registerAt (cls : Option RegClass) (sequence : PassSeq) (slot : Nat) : Option PhysReg :=
 match cls, sequence.regs.head?, sequence.regs.getLast? with
 | some cls, some first, some last =>
  if isGrouped (some cls) sequence then
   -- `u16` arithmetic
   let index := (first.index + slot % 2 ^ 16 * cls.groupWidth % 2 ^ 16) % 2 ^ 16
   if index ≤ last.index then some ⟨cls, index⟩ else none
  else sequence.regs[slot]?
 | _, _, _ => sequence.regs[slot]?

/-- A register named in the member's class, where that is of its file. -/
def named (cls : Option RegClass) (register : PhysReg) : PhysReg :=
 match cls with
 | some cls => if register.file = cls.file then ⟨cls, register.index⟩ else register
 | none => register

/-- The first of the sequences that still has a register. -/
def nextFrom (cls : Option RegClass) (next : Slots) : List PassSeq → Option (PhysReg × Slots)
 | [] => none
 | sequence :: rest =>
  match registerAt cls sequence (next sequence.kind) with
  | some register => some (named cls register, update next sequence.kind (next sequence.kind + 1))
  | none => nextFrom cls next rest

def nextArgumentRegister (member : ArgumentMember) (next : Slots) : Option (PhysReg × Slots) :=
 nextFrom member.cls next (abi.argumentSequences member.kind)

/-- A register for every member, or none. -/
def trial : List ArgumentMember → Slots → Option (List PhysReg × Slots)
 | [], next => some ([], next)
 | member :: members, next => do
   let (register, next) ← abi.nextArgumentRegister member next
   let (registers, next) ← trial members next
   return (register :: registers, next)

/-- The slots a group starts from: aligned for its source type. -/
def aligned (group : ArgumentGroup) (next : Slots) : Slots :=
 abi.alignArgumentGroup group.alignment (group.members.map (·.kind)) next

/-- The registers of a group that is passed in registers. -/
def direct (group : ArgumentGroup) (next : Slots) : Option (List PhysReg × Slots) :=
 if abi.argumentGroupFitsRegisterLimit group.members.length then abi.trial group.members (abi.aligned group next)
 else none

/-- The slots after a group goes to the stack. -/
def rolledBack (members : List ArgumentMember) (next : Slots) : Slots :=
 match abi.argumentGroupRollback with
 | .exhaust => members.foldl (fun next member => abi.exhaustArgumentRegisters member.kind next) next
 | .preserve => next

/-- Place one group: where its members go, the slots after it and the stack slots used so far. -/
def placeGroup (group : ArgumentGroup) (next : Slots) (stackSlots : Nat) : List ArgumentSlot × Slots × Nat :=
 match abi.direct group next with
 | some (registers, next) => (registers.map .register, next, stackSlots)
 | none => ((List.range' stackSlots group.members.length).map .stack, abi.rolledBack group.members next,
   stackSlots + group.members.length)

def placeGroups : List ArgumentGroup → Slots → Nat → List ArgumentSlot × Nat
 | [], _, stackSlots => ([], stackSlots)
 | group :: groups, next, stackSlots =>
  let (slots, next, stackSlots) := abi.placeGroup group next stackSlots
  let (rest, total) := placeGroups groups next stackSlots
  (slots ++ rest, total)

/-- The slots the first group finds. -/
def start (hasResultAddress : Bool) : Slots :=
 if hasResultAddress then abi.reserveIndirectResultArgument fun _ => 0 else fun _ => 0

/-- Where every member of the groups goes, and how many stack slots they take. -/
def placeArguments (groups : List ArgumentGroup) (hasResultAddress : Bool) : List ArgumentSlot × Nat :=
 abi.placeGroups groups (abi.start hasResultAddress) 0

end AbiInfo

/-- A group as a call knows it: without register classes. -/
def ArgumentGroup.unclassed (group : ArgumentGroup) : ArgumentGroup :=
 { group with members := group.members.map fun member => { member with cls := none } }

/-- Where a call puts its arguments. -/
def assignArgumentLocations (abi : AbiInfo) (groups : List ArgumentGroup) (hasResultAddress : Bool) :
  List ArgumentSlot × Nat :=
 abi.placeArguments (groups.map ArgumentGroup.unclassed) hasResultAddress

/-- Where the callee finds them. -/
def planArguments (abi : AbiInfo) (groups : List ArgumentGroup) (hasResultAddress : Bool) : List ArgumentSlot × Nat :=
 abi.placeArguments groups hasResultAddress

end Tir.Backend.Abi
