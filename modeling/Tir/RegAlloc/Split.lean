import Tir.RegAlloc.MachineCode

/-!
# The split before every constrained instruction

`split` inserts one parallel copy before every constrained instruction (a `Site`), gives a value a
parameter in every block where two of its names meet, and renames every read to the name
that reaches it. The meeting points are the iterated dominance frontier of the blocks that write
the value, where it is live in. When a conditional branch enters one of them the split stops
with `Split.edges`: such a branch carries no arguments, so that the edge needs a block of its own
first.

A new name is known by what makes it: the site of its copy or the block of its parameter.
`Reach` is the lookup of the source with its memo of the names at the ends of blocks; `Naming`
has the names it looks up.
-/

open Function

namespace Tir.RegAlloc

open Tir.Backend

/-- The names of the values: their own, the result of a copy, or an added parameter. -/
inductive Name (n : Nat) where
 | original (value : Nat)
 | copy (block : Fin n) (index value : Nat)
 | param (block : Fin n) (value : Nat)
deriving DecidableEq

/-- A constrained instruction and the values copied before it. -/
structure Site (n : Nat) where
 block : Fin n
 index : Nat
 values : List Nat
 nodup : values.Nodup

/-- A value is in a register after the operation at an index, as its range in the block has
it: live in, a parameter or defined by then, and read later in the block or live out. -/
def HeldAfter {n : Nat} (f : Code n Nat) (edges : Fin n → List (Fin n)) (block : Fin n) (index value : Nat) : Prop :=
 (f.Livein edges block value ∨ value ∈ f.params block ∨
  ∃ (q : Nat) (op : Instr n Nat), q ≤ index ∧ (f.ops block)[q]? = some op ∧ value ∈ op.defs) ∧
 ((∃ (k : Nat) (op : Instr n Nat), index < k ∧ (f.ops block)[k]? = some op ∧
   value ∈ op.reads) ∨ f.Liveout edges block value)

/-- The sites of a set of constrained instructions: at most one before each operation, and what
it copies is an operand or held across the operation. -/
structure SitesOf {n : Nat} (f : Code n Nat) (edges : Fin n → List (Fin n)) (sites : List (Site n)) : Prop where
 distinct : ∀ s ∈ sites, ∀ t ∈ sites, s.block = t.block → s.index = t.index → s = t
 operation : ∀ s ∈ sites, ∃ op, (f.ops s.block)[s.index]? = some op ∧
  ∀ value ∈ s.values, value ∈ op.reads ∨
   value ∉ op.defs ∧ HeldAfter f edges s.block s.index value

/-- The point at which the operation at an index of its block reads. -/
def point (index : Nat) : Nat :=
 4 * (index + 1)

/-- The point of a parallel copy right before the operation at an index. -/
def before (index : Nat) : Nat :=
 point index - 1

/-! ## Names -/

section

variable {n : Nat}

/-- The element with the greatest key; of several, the last one. -/
def maxByKey {α : Type} (key : α → Nat) (l : List α) : Option α :=
 l.foldl (fun best x =>
  match best with
  | none => some x
  | some y => if key y ≤ key x then some x else some y) none

/-- The copies of a value: block, point and name. -/
def namesOf (sites : List (Site n)) (value : Nat) : List (Fin n × Nat × Name n) :=
 (sites.filter fun site => value ∈ site.values).map fun site =>
  (site.block, before site.index, .copy site.block site.index value)

/-- The last copy of a value in a block before a point; with no point, in the whole block. -/
def lastCopy (sites : List (Site n)) (value : Nat) (block : Fin n) (limit : Option Nat) : Option (Name n) :=
 (maxByKey (fun name => name.2.1) ((namesOf sites value).filter fun name =>
  name.1 = block ∧ limit.all fun point => name.2.1 < point)).map fun name => name.2.2

/-- The values that take a parameter in each block, and the dominator tree names are looked up
through. -/
structure Naming (n : Nat) where
 sites : List (Site n)
 met : Fin n → List Nat
 dominance : Dominance n

namespace Naming

variable (r : Naming n)

/-- The name a value has at the end of a block, climbing at most so many dominators. -/
def climbNames (value : Nat) : Nat → Fin n → Name n
 | 0, _ => .original value
 | steps + 1, block =>
  match lastCopy r.sites value block none with
  | some name => name
  | none =>
   if value ∈ r.met block then .param block value
   else
    match r.dominance.idom block with
    | some idom => climbNames value steps idom
    | none => .original value

/-- The name of a value at the end of a block. -/
def endName (value : Nat) (block : Fin n) : Name n :=
 r.climbNames value (r.dominance.rank block + 1) block

/-- The name of a value on entry to a block. -/
def entryName (value : Nat) (block : Fin n) : Name n :=
 if value ∈ r.met block then .param block value
 else
  match r.dominance.idom block with
  | some idom => r.endName value idom
  | none => .original value

/-- The name of a value at a point of a block. -/
def nameAt (value : Nat) (block : Fin n) (point : Nat) : Name n :=
 match lastCopy r.sites value block (some point) with
 | some name => name
 | none => r.entryName value block

end Naming

/-- The memo of the names at the ends of blocks. -/
abbrev EndNames (n : Nat) := Fin n → Nat → Option (Name n)

namespace Reach

variable (r : Naming n)

/-- The name on entry to a block, given the lookup at the end of its dominator. -/
def entryWith (endOf : EndNames n → Fin n → Option (Name n × EndNames n)) (value : Nat)
  (memo : EndNames n) (block : Fin n) : Option (Name n × EndNames n) :=
 if value ∈ r.met block then some (.param block value, memo)
 else
  match r.dominance.idom block with
  | some idom => if idom ≠ block then endOf memo idom else some (.original value, memo)
  | none => some (.original value, memo)

/-- The name at a point of a block. -/
def atWith (endOf : EndNames n → Fin n → Option (Name n × EndNames n)) (value : Nat)
  (memo : EndNames n) (block : Fin n) (limit : Option Nat) : Option (Name n × EndNames n) :=
 match lastCopy r.sites value block limit with
 | some name => some (name, memo)
 | none => entryWith r endOf value memo block

/-- The name at the end of a block, from the memo where it has it. -/
def endAt (value : Nat) : Nat → EndNames n → Fin n → Option (Name n × EndNames n)
 | 0, _, _ => none
 | fuel + 1, memo, block =>
  match memo block value with
  | some name => some (name, memo)
  | none =>
   (atWith r (endAt value fuel) value memo block none).map fun found =>
    (found.1, update found.2 block
     (update (found.2 block) value (some found.1)))

/-- The lookup of the source: the name of a value at a point of a block. -/
def nameAt (fuel : Nat) (memo : EndNames n) (value : Nat) (block : Fin n) (point : Nat) :
  Option (Name n × EndNames n) :=
 atWith r (endAt r value fuel) value memo block (some point)

end Reach

end

/-! ## Meeting points -/

section

variable {n : Nat}

/-- Adds `block` to the frontier of every block from `runner` up to `idom`. -/
def runUp (d : Dominance n) (block idom : Fin n) : Nat → Fin n → (Fin n → List (Fin n)) → Option (Fin n → List (Fin n))
 | 0, _, _ => none
 | fuel + 1, runner, frontier =>
  if runner = idom then some frontier
  else
   let frontier :=
    if block ∈ frontier runner then frontier
    else update frontier runner (frontier runner ++ [block])
   match d.idom runner with
   | some up => if up ≠ runner then runUp d block idom fuel up frontier else some frontier
   | none => some frontier

/-- The turn of `frontiers` for one block. -/
def frontierStep (preds : Fin n → List (Fin n)) (d : Dominance n) (fuel : Nat)
  (frontier : Fin n → List (Fin n)) (block : Fin n) : Option (Fin n → List (Fin n)) :=
 if (preds block).length < 2 then some frontier
 else
  match d.idom block with
  | none => some frontier
  | some idom =>
   (preds block).foldlM (fun frontier pred => runUp d block idom fuel pred frontier) frontier

/-- The dominance frontier of every block. -/
def frontiers (preds : Fin n → List (Fin n)) (d : Dominance n) (fuel : Nat) : Option (Fin n → List (Fin n)) :=
 (List.finRange n).foldlM (frontierStep preds d fuel) fun _ => []

/-- The work and the meeting points after one block's frontier. -/
def visitFrontier (state : List (Fin n) × List (Fin n)) (block : Fin n) : List (Fin n) × List (Fin n) :=
 if block ∈ state.2 then state else (block :: state.1, state.2 ++ [block])

def iteratedFrontier (frontier : Fin n → List (Fin n)) : Nat → List (Fin n) → List (Fin n) → Option (List (Fin n))
 | 0, _, _ => none
 | _ + 1, [], meet => some meet
 | fuel + 1, block :: work, meet =>
  let state := (frontier block).foldl visitFrontier (work, meet)
  iteratedFrontier frontier fuel state.1 state.2

/-- The blocks that write a value: its copies, its definition, its parameter. -/
def writesOf (f : Code n Nat) (sites : List (Site n)) (value : Nat) : List (Fin n) :=
 ((sites.filter fun site => value ∈ site.values).map fun site => site.block) ++
   ((List.finRange n).flatMap fun block =>
     ((f.ops block).filter fun op => value ∈ op.defs).map fun _ => block) ++
   (List.finRange n).filter fun block => value ∈ f.params block

def splitValues (sites : List (Site n)) : List Nat :=
 (sites.flatMap fun site => site.values).dedup

/-- Per split value, the blocks where its names meet. -/
def meetingPoints (f : Code n Nat) (edges : Fin n → List (Fin n))
  [∀ b v, Decidable (f.Livein edges b v)] (d : Dominance n) (sites : List (Site n))
  (fuel : Nat) : Option (List (Nat × List (Fin n))) :=
 (frontiers (predecessorsOf edges) d fuel).bind fun frontier =>
  (splitValues sites).mapM fun value =>
   (iteratedFrontier frontier fuel (writesOf f sites value).reverse []).map fun points =>
    (value, points.filter fun b => f.Livein edges b value)

/-- The values that meet in a block, in order. -/
def metIn (meet : List (Nat × List (Fin n))) (block : Fin n) : List Nat :=
 ((meet.filter fun m => block ∈ m.2).map fun m => m.1).mergeSort

/-- The branches of `pred` other than an `asm.vbr` that enter `block`, by index. -/
def conditionalEntries (f : Code n Nat) (pred block : Fin n) : List Nat :=
 (f.ops pred).zipIdx.filterMap fun op =>
  if op.1.vbr = false ∧ block ∈ op.1.succs then some op.2 else none

/-- The last `asm.vbr` of `pred` to `block`, by index. -/
def branchTo (f : Code n Nat) (pred block : Fin n) : Option Nat :=
 ((f.ops pred).zipIdx.reverse.find? fun op =>
   op.1.vbr = true ∧ block ∈ op.1.succs).map fun op => op.2

/-- The branches without arguments that enter a meeting block: predecessor, index, block. -/
def entriesOf (f : Code n Nat) (edges : Fin n → List (Fin n)) (met : Fin n → List Nat) : List (Fin n × Nat × Fin n) :=
 ((List.finRange n).filter fun block => met block ≠ []).flatMap fun block =>
   (predecessorsOf edges block).flatMap fun pred =>
    (conditionalEntries f pred block).map fun index => (pred, index, block)

end

/-! ## The new code -/

section

variable {n : Nat} (f : Code n Nat) (r : Naming n)

/-- The name an operation reads a value under. -/
def rename (block : Fin n) (index value : Nat) : Name n :=
 if value ∈ splitValues r.sites then r.nameAt value block (point index) else .original value

/-- The parallel copy before the operation at an index. -/
def copiesAt (block : Fin n) (index : Nat) : List (Name n × Name n) :=
 match r.sites.find? fun site => site.block = block ∧ site.index = index with
 | some site => site.values.map fun value =>
  (.copy block index value, r.nameAt value block (before index))
 | none => []

/-- The arguments the operation at an index passes for the values that meet in its target. -/
def argsAt (block : Fin n) (index : Nat) : List (Name n) :=
 (List.finRange n).flatMap fun target =>
  if branchTo f block target = some index then
   (r.met target).map fun value => r.endName value block
  else []

/-- An operation with its copy, its renamed reads and the arguments it passes. -/
def splitOp (block : Fin n) (index : Nat) (op : Instr n Nat) : Instr n (Name n) where
 copies := copiesAt r block index
 uses := op.uses.map (rename r block index)
 args := op.args.map (rename r block index) ++ argsAt f r block index
 defs := op.defs.map .original
 succs := op.succs
 vbr := op.vbr

/-- The code after the copies, the parameters, the arguments and the renamed reads. -/
def splitCode : Code n (Name n) where
 params block := (f.params block).map .original ++ (r.met block).map (.param block)
 ops block := (f.ops block).mapIdx (splitOp f r block)

/-- The code as it was, under the new names. -/
def sameCode : Code n (Name n) where
 params block := (f.params block).map .original
 ops block := (f.ops block).map fun op =>
  { copies := op.copies.map fun c => (.original c.1, .original c.2)
    uses := op.uses.map .original
    args := op.args.map .original
    defs := op.defs.map .original
    succs := op.succs
    vbr := op.vbr }

end

inductive Split (n : Nat) where
 /-- The code with its parallel copies. -/
 | copies (code : Code n (Name n))
 /-- The branches that need a block of their own before the split. -/
 | edges (entries : List (Fin n × Nat × Fin n))

/-- The split of a function; `none` when the fuel runs out. -/
def split {B : Type} [DecidableEq B] (f : MachineFunction B)
  [∀ b v, Decidable (f.code.Livein f.cfg.edges b v)] (d : Dominance f.cfg.size)
  (sites : List (Site f.cfg.size)) (fuel : Nat) : Option (Except String (Split f.cfg.size)) :=
 if sites.isEmpty then some (.ok (.copies (sameCode f.code)))
 else
  (meetingPoints f.code f.cfg.edges d sites fuel).bind fun meet =>
   let met := metIn meet
   let entries := entriesOf f.code f.cfg.edges met
   if entries ≠ [] then some (.ok (.edges entries))
   else
    let missing := (List.finRange f.cfg.size).flatMap fun block =>
     if met block = [] then []
     else ((predecessorsOf f.cfg.edges block).filter fun pred =>
      branchTo f.code pred block = none).map fun pred => (pred, block)
    match missing with
    | (pred, block) :: _ =>
     some (.error ("block " ++ toString pred ++ " has no asm.vbr to block " ++
      toString block))
    | [] => some (.ok (.copies (splitCode f.code ⟨sites, met, d⟩)))

end Tir.RegAlloc
