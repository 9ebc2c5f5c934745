import Tir.RegAlloc.LiveRules

/-!
# The seeded rows

A machine function as register allocation reads it, and the rows `seed` writes of it, in its order. Values
are numbers; a block is its position. The registers that tags name are numbered as they are met.
-/

namespace Tir.RegAlloc.Live

structure MachineOp where
 uses : List Nat
 defs : List Nat
 /-- The results of the operation in the IR. -/
 results : List Nat
 physUses : List PhysReg
 physDefs : List PhysReg
 /-- The successors of a terminator among the blocks. -/
 successors : List Nat
 /-- The target of an `asm.vbr` and the values it passes. -/
 branch : Option (Nat × List Nat)

structure MachineBlock where
 arguments : List Nat
 ops : List MachineOp
 /-- The points of a block are 32-bit numbers. -/
 fits : point ops.length ≤ 2 ^ 32

inductive RegSlot where
 | value (value : Nat)
 | phys (register : PhysReg)

structure SeededCopy where
 block : Nat
 src : RegSlot
 dst : RegSlot

structure Seed where
 blocks : List MachineBlock
 /-- Per block, what one execution of it costs relative to the entry. -/
 weights : List Nat
 copies : List SeededCopy
 allocatable : PhysReg → Bool

namespace Seed

variable (seed : Seed)

def weight (block : Nat) : Nat :=
 min (seed.weights.getD block 0) (2 ^ 32 - 1)

/-- The entry block's parameters its operations define. -/
def stackArguments : List Nat :=
 match seed.blocks with
 | [] => []
 | entry :: _ => entry.arguments.filter fun param => entry.ops.any fun op => param ∈ op.results

/-- The parameters of a block that are defined on its entry. -/
def paramsOf (block : MachineBlock) : List Nat :=
 block.arguments.filter fun param => param ∉ seed.stackArguments

/-- The values defined, and those read before any definition, after an operation. -/
def walkOp (state : List Nat × List Nat) (op : MachineOp) : List Nat × List Nat :=
 (state.1 ++ op.defs, state.2 ++ op.uses.filter (· ∉ state.1))

def walkBlock (state : List Nat × List Nat) (block : MachineBlock) : List Nat × List Nat :=
 block.ops.foldl walkOp (state.1 ++ seed.paramsOf block, state.2)

/-- The values read and defined nowhere, which are defined on entry. -/
def entryArguments : List Nat :=
 let (defined, usedFirst) := seed.blocks.foldl seed.walkBlock ([], [])
 (usedFirst.filter (· ∉ defined)).eraseDups

/-- The registers tags name, as they are met. -/
def registers : List PhysReg :=
 (seed.blocks.flatMap fun block => block.ops.flatMap fun op => op.physDefs.filter seed.allocatable).eraseDups

def register (register : PhysReg) : Nat :=
 seed.registers.idxOf register

/-! ## Fixed windows -/

/-- What the operations before an index have written, and the registers refused to values so far. -/
structure Windows where
 written : List (Nat × PhysReg)
 refused : List (PhysReg × Nat)

/-- A register read by name holds what was written to it: a value defined in between avoids it. -/
def windowUse (ops : List MachineOp) (index : Nat) (windows : Windows) (used : PhysReg) : Windows :=
 match windows.written.reverse.find? fun entry => entry.2.overlaps used with
 | none => windows
 | some (start, held) =>
  { windows with
    refused := windows.refused ++
     ((ops.drop (start + 1)).take (index - (start + 1))).flatMap fun mid => mid.defs.map fun value => (held, value) }

def windowDef (index : Nat) (windows : Windows) (defined : PhysReg) : Windows :=
 { windows with
   written := windows.written.filter (fun entry => !entry.2.overlaps defined) ++ [(index, defined)] }

def windowOp (ops : List MachineOp) (windows : Windows) (entry : MachineOp × Nat) : Windows :=
 let windows := (entry.1.physUses.filter seed.allocatable).foldl (windowUse ops entry.2) windows
 (entry.1.physDefs.filter seed.allocatable).foldl (windowDef entry.2) windows

/-- The registers that a fixed window of a block refuses to values. -/
def refused (block : MachineBlock) : List (PhysReg × Nat) :=
 (block.ops.zipIdx.foldl (seed.windowOp block.ops) ⟨[], []⟩).refused

/-! ## Writes -/

/-- A write of a row: unless the table holds the key, or in any case. -/
inductive Write where
 | row (table : Table) (key : List Id)
 | insert (table : Table) (row : Row)
 /-- A row of a bag, with a value of its own. -/
 | mint (table : Table) (key : List Id) (tag : Nat)

def Write.run (db : Db) : Write → Db
 | .row table key => db.row table key 0
 | .insert table entry => db.insert table entry
 | .mint table key tag => db.mintRow table key tag

def paramWrites (block : Nat) (values : List Nat) : List Write :=
 values.flatMap fun value => [.row .definedIn [.block block, .value value], .row .param [.block block, .value value]]

/-- The arguments an `asm.vbr` passes to other values. -/
def phiWrites (block : Nat) (op : MachineOp) : List Write :=
 match op.branch with
 | none => []
 | some (dest, args) =>
  let params := (seed.blocks[dest]?.map MachineBlock.arguments).getD []
  (params.zip args).filterMap fun (param, arg) =>
   if param = arg then none
   else some (.insert .phi ⟨[.block block, .value param], .value arg, seed.weight block⟩)

def opWrites (block : Nat) (entry : MachineOp × Nat) : List Write :=
 let (op, index) := entry
 let id := Id.op block index
 [.insert .holds ⟨[id], .block block, point index⟩] ++
  op.uses.map (fun value => .row .uses [id, .value value]) ++
  op.defs.flatMap (fun value =>
   [.row .defs [id, .value value], .row .definedIn [.block block, .value value]]) ++
  (op.physDefs.filter seed.allocatable).map
   (fun register => .insert .clobber ⟨[id], id, seed.register register⟩) ++
  (op.successors.filter (· < seed.blocks.length)).map (fun succ => .row .edge [.block block, .block succ]) ++
  seed.phiWrites block op

def blockWrites (entry : MachineBlock × Nat) : List Write :=
 let (block, index) := entry
 paramWrites index (seed.paramsOf block) ++ block.ops.zipIdx.flatMap (seed.opWrites index) ++
  (seed.refused block).map fun (register, value) => .row .forbid [.plain (seed.register register), .value value]

/-- The rows of the blocks, and of the values defined on entry. -/
def functionWrites : List Write :=
 seed.blocks.zipIdx.flatMap seed.blockWrites ++ paramWrites 0 seed.entryArguments

/-- A copy between values; one whose destination has one definition holds one value. -/
def copyWrites (definitions : List Row) (copy : SeededCopy) : List Write :=
 match copy.src, copy.dst with
 | .value src, .value dst =>
  .mint .copy [.value src, .value dst] (seed.weight copy.block) ::
   if definitions.countP (fun row => row.key.getLast? = some (.value dst)) = 1 then
    [.row .same [.value src, .value dst]]
   else []
 | _, _ => []

/-- The database a function is read through. -/
def db : Db :=
 let functionDb := seed.functionWrites.foldl Write.run Db.empty
 (seed.copies.flatMap (seed.copyWrites (functionDb.rows .defs))).foldl Write.run functionDb

end Seed

end Tir.RegAlloc.Live
