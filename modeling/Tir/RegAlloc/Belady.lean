import Tir.Basic.Returns
import Tir.Basic.StableSort

/-!
# The spiller on a branch

What the spiller does at an operation that passes arguments: it reloads the operands that no
register holds (`Spiller.placeReloads`), and it fills the slots of the memory parameters of the
block the branch enters, as one parallel copy (`Spiller.fill`). It only records edits, each with
the index of the operation it goes before and a phase; `emitted` is the order in which they
become code.

Values are database ids. A register holds a value under a `Name`: an SSA value, or the parameter
a block may take for it. `Machine` has what the names and the slots hold, and `Edit.run` is
what an edit does to it. A `panic!` of the source and an error it returns are a `Fault`; `none`
is a loop out of fuel.
-/

open Function

namespace Tir.RegAlloc.Belady

/-! ## Phases -/

/-- The order of what goes before one op: the store after the previous op's definition, the
reloads the op reads from a slot its edge fills or of what the edge stores, the edge stores of
memory parameters from registers, those through a reloaded register, then the other reloads the
op reads. -/
inductive Phase where
 | defStore
 | edgeLoad
 | edgeStore
 | copy
 | reload
deriving DecidableEq

def Phase.order : Phase → Nat
 | .defStore => 0
 | .edgeLoad => 1
 | .edgeStore => 2
 | .copy => 3
 | .reload => 4

/-! ## Data -/

structure Shape where
 file : Nat
 width : Nat
 /-- The register class, by number. -/
 regClass : Nat

/-- What the database says about the function. -/
structure Function where
 /-- The SSA value of a database id. -/
 valueOf : Nat → Nat
 shapes : Nat → Option Shape
 pinned : List Nat
 /-- The constants, with the operation that defines each. -/
 remat : Nat → Option Nat
 /-- Parameters left out of their block's registers. -/
 memory : List Nat
 /-- Memory parameters nothing reads. -/
 dead : List Nat
 memory_shape : ∀ v ∈ memory, (shapes v).isSome
 memory_pinned : ∀ v ∈ memory, v ∉ pinned
 /-- A parameter is no operation's result. -/
 memory_remat : ∀ v ∈ memory, remat v = none

structure Op where
 id : Nat
 /-- The operands as SSA values, by position. -/
 operands : List Nat
 uses : List Nat
 /-- For an `asm.vbr`: parameter, argument, operand position. -/
 args : List (Nat × Nat × Nat)
 params_nodup : (args.map Prod.fst).Nodup

/-- What a register holds a value under. -/
inductive Name where
 | value (id : Nat)
 | phi (index : Nat)
deriving DecidableEq

/-- A frame slot: a value's own, or the second one an edge breaks a cycle through. -/
inductive Slot where
 | of (value : Nat)
 | aside (value : Nat)
deriving DecidableEq

inductive Edit where
 | store (slot : Slot) (name : Name)
 | reload (slot : Slot) (fresh : Nat) (replay : Option Nat)

/-- What an edge stores into the slot of a memory parameter. -/
inductive Transfer where
 | name (name : Name)
 | slot (slot : Slot)
deriving DecidableEq

inductive Fault where
 | panic
 | invalidRuleSet (message : String)

/-- The registers at one point: the values they hold and, per file, the units those take. -/
structure Registers where
 held : List (Nat × Name)
 load : Nat → Nat

namespace Registers

variable (registers : Registers)

def name (value : Nat) : Option Name :=
 (registers.held.find? fun held => held.1 = value).map Prod.snd

def insert (shape : Shape) (value : Nat) (name : Name) : Registers where
 held := registers.held ++ [(value, name)]
 load := update registers.load shape.file (registers.load shape.file + shape.width)

end Registers

/-- The part of the spiller that placing a reload or a store changes. -/
structure Spiller where
 /-- The number of the next SSA value of the context. -/
 next : Nat
 /-- Per block, index, phase and edit: what goes before the op at `index`, in phase order. -/
 edits : Nat → List (Nat × Phase × Edit)
 /-- Operands to rename: op, position, name, original. -/
 operands : List (Nat × Nat × Name × Nat)
 /-- The `asm.vbr` operands passing a memory parameter. -/
 removed : List (Nat × Nat)
 /-- The values reloaded from a slot, in the order first reloaded. -/
 stored : List Nat
 replayed : List Nat

/-! ## Reloads -/

namespace Spiller

variable (f : Function)

def push (s : Spiller) (block index : Nat) (phase : Phase) (edit : Edit) : Spiller :=
 { s with edits := update s.edits block (s.edits block ++ [(index, phase, edit)]) }

/-- A fresh SSA value. -/
def freshReg (s : Spiller) : Nat × Spiller :=
 (s.next, { s with next := s.next + 1 })

def reload (s : Spiller) (block index value : Nat) (phase : Phase) : Except Fault (Name × Spiller) :=
 if value ∈ f.pinned then
  .error (.invalidRuleSet ("pinned %" ++ toString (f.valueOf value) ++ " would be reloaded"))
 else
  match f.remat value with
  | some definition =>
   let s := if value ∈ s.replayed then s else { s with replayed := s.replayed ++ [value] }
   let (fresh, s) := s.freshReg
   .ok (.value fresh, s.push block index phase (.reload (.of value) fresh (some definition)))
  | none =>
   let s := if value ∉ f.memory ∧ value ∉ s.stored then { s with stored := s.stored ++ [value] }
    else s
   match f.shapes value with
   | none => .error .panic
   | some _ =>
    let (fresh, s) := s.freshReg
    .ok (.value fresh, s.push block index phase (.reload (.of value) fresh none))

end Spiller

namespace Function

variable (f : Function)

/-- What `op` needs in registers: its operands, but for the arguments it passes only to memory
parameters. -/
def needs (op : Op) : List Nat :=
 op.uses.filter fun value =>
  let passed := op.args.filter fun arg => arg.2.1 = value
  ¬ (passed ≠ [] ∧ ∀ arg ∈ passed, arg.1 ∈ f.memory)

/-- The argument goes to a memory parameter whose slot the edge fills. -/
def Fills (arg : Nat × Nat × Nat) : Prop :=
 arg.1 ∈ f.memory ∧ arg.2.1 ≠ arg.1 ∧ arg.1 ∉ f.dead

instance (arg : Nat × Nat × Nat) : Decidable (f.Fills arg) :=
 inferInstanceAs (Decidable (_ ∧ _ ∧ _))

/-- The slots of memory parameters the edge fills. -/
def filled (op : Op) : List Nat :=
 (op.args.filter f.Fills).map Prod.fst

/-- The edge fills the slot of the value, or stores the value. -/
def stored (op : Op) (value : Nat) : Prop :=
 value ∈ f.filled op ∨ ∃ arg ∈ op.args, arg.2.1 = value ∧ arg.1 ∈ f.filled op

instance (op : Op) (value : Nat) : Decidable (f.stored op value) :=
 inferInstanceAs (Decidable (_ ∨ _))

/-- What fills each slot: the register its argument is in, or the argument's slot. -/
def transfers (op : Op) (registers : Registers) : List (Nat × Transfer) :=
 (op.args.filter f.Fills).map fun arg =>
  (arg.1, match registers.name arg.2.1 with
   | some name => .name name
   | none => .slot (.of arg.2.1))

end Function

namespace Spiller

variable (f : Function)

/-- The reload of one value of `needs` or `later`, unless a register holds it. -/
def placeReload (block index : Nat) (op : Op) (state : Registers × Spiller) (value : Nat) :
  Except Fault (Registers × Spiller) :=
 match f.shapes value with
 | none => .ok state
 | some shape =>
  match state.1.name value with
  | some _ => .ok state
  | none =>
   let phase := if f.stored op value then Phase.edgeLoad else .reload
   (state.2.reload f block index value phase).map fun (name, s) =>
    (state.1.insert shape value name, s)

def placeReloads (block index : Nat) (op : Op) (values : List Nat)
  (state : Registers × Spiller) : Except Fault (Registers × Spiller) :=
 values.foldlM (placeReload f block index op) state

/-- The operands of `op` that a register holds take its name. -/
def nameOperands (op : Op) (registers : Registers) (s : Spiller) : Spiller :=
 { s with operands := s.operands ++ (f.needs op).flatMap fun value =>
   match registers.name value with
   | none => []
   | some name =>
    (op.operands.zipIdx.filter fun operand => operand.1 = f.valueOf value).map fun operand =>
     (op.id, operand.2, name, f.valueOf value) }

def removeArgs (op : Op) (s : Spiller) : Spiller :=
 { s with removed := s.removed ++
   (op.args.filter fun arg => arg.1 ∈ f.memory).map fun arg => (op.id, arg.2.2) }

/-! ## Filling the slots of an edge -/

/-- Some transfer still reads the slot of the parameter. -/
def reads (transfers : List (Nat × Transfer)) (param : Nat) : Prop :=
 ∃ transfer ∈ transfers, transfer.2 = .slot (.of param)

instance (transfers : List (Nat × Transfer)) (param : Nat) : Decidable (reads transfers param) :=
 inferInstanceAs (Decidable (∃ _ ∈ _, _))

/-- Transfers out of the slot of the parameter go through its second slot. -/
def throughAside (transfers : List (Nat × Transfer)) (param : Nat) : List (Nat × Transfer) :=
 transfers.map fun transfer =>
  if transfer.2 = .slot (.of param) then (transfer.1, .slot (.aside param)) else transfer

/-- The register a transfer stores from, with the phase of the store. -/
def takeTransfer (s : Spiller) (block index : Nat) (named : Phase) : Transfer → Except Fault (Phase × Name × Spiller)
 | .name name => .ok (named, name, s)
 | .slot (.of value) =>
  (s.reload f block index value .copy).map fun (name, s) => (.copy, name, s)
 | .slot (.aside value) =>
  match f.shapes value with
  | none => .error .panic
  | some _ =>
   let (fresh, s) := s.freshReg
   .ok (.copy, .value fresh, s.push block index .copy (.reload (.aside value) fresh none))

def fillLoop (block index : Nat) (named : Phase) : Nat → List (Nat × Transfer) → Spiller → Option (Except Fault Spiller)
 | 0, _, _ => none
 | _ + 1, [], s => some (.ok s)
 | fuel + 1, first :: rest, s =>
  let transfers := first :: rest
  match transfers.findIdx? fun transfer => ¬ reads transfers transfer.1 with
  | none =>
   -- every slot left to fill is still read: one of them is set aside
   match s.reload f block index first.1 .copy with
   | .error fault => some (.error fault)
   | .ok (name, s) =>
    fillLoop block index named fuel (throughAside transfers first.1)
     (s.push block index .copy (.store (.aside first.1) name))
  | some position =>
   let (param, source) := transfers.getD position first
   match s.takeTransfer f block index named source with
   | .error fault => some (.error fault)
   | .ok (phase, name, s) =>
    fillLoop block index named fuel (transfers.eraseIdx position)
     (s.push block index phase (.store (.of param) name))

/-- Fills the slots of the memory parameters an edge passes as one parallel copy: a slot is
stored to once nothing left reads it, and a cycle is broken through a second slot. -/
def fill (block index : Nat) (transfers : List (Nat × Transfer)) (s : Spiller) (fuel : Nat) :
  Option (Except Fault Spiller) :=
 -- where no slot is read after it is filled, the stores from registers go first
 let ordered := ∃ transfer ∈ transfers, reads transfers transfer.1
 fillLoop f block index (if ordered then .copy else .edgeStore) fuel transfers s

/-- The edits of one operation: `later` is what its window reads past it. -/
def placeEdge (block index : Nat) (op : Op) (later : List Nat) (registers : Registers)
  (s : Spiller) (fuel : Nat) : Option (Except Fault (Registers × Spiller)) :=
 match placeReloads f block index op (f.needs op ++ later) (registers, s) with
 | .error fault => some (.error fault)
 | .ok (registers, s) =>
  let s := removeArgs f op (nameOperands f op registers s)
  (fill f block index (f.transfers op registers) s fuel).map fun filled =>
   filled.map fun s => (registers, s)

end Spiller

/-! ## The code of the edits -/

/-- The edits of a block in the order they become code. -/
def emitted (edits : List (Nat × Phase × Edit)) : List (Nat × Phase × Edit) :=
 edits.mergeSort (lexLe (fun edit => edit.1) fun edit => edit.2.1.order)

/-- The code before the operation at an index. -/
def codeBefore (index : Nat) (edits : List (Nat × Phase × Edit)) : List Edit :=
 ((emitted edits).filter fun edit => edit.1 = index).map fun edit => edit.2.2

/-- What the names and the slots hold. -/
structure Machine (Val : Type) where
 regs : Name → Val
 mem : Slot → Val

/-- The effect of an edit; `constant` is what the definition of a constant computes. -/
def Edit.run {Val : Type} (constant : Nat → Val) (m : Machine Val) : Edit → Machine Val
 | .store slot name => { m with mem := update m.mem slot (m.regs name) }
 | .reload slot fresh none => { m with regs := update m.regs (.value fresh) (m.mem slot) }
 | .reload _ fresh (some definition) =>
  { m with regs := update m.regs (.value fresh) (constant definition) }

def runEdits {Val : Type} (constant : Nat → Val) (edits : List Edit) (m : Machine Val) : Machine Val :=
 edits.foldl (Edit.run constant) m

/-- The value of an argument where it is: in its register, a constant, or in its slot. -/
def Machine.valueOf {Val : Type} (m : Machine Val) (f : Function) (constant : Nat → Val)
  (registers : Registers) (value : Nat) : Val :=
 match registers.name value with
 | some name => m.regs name
 | none =>
  match f.remat value with
  | some definition => constant definition
  | none => m.mem (.of value)

end Tir.RegAlloc.Belady
