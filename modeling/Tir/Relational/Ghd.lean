import Tir.Basic.Offsets

/-!
# Hypertree decompositions of a run

The atoms of a run are hyperedges over the variables it binds, as masks. `decompose` groups them into bags
that form a tree: the maximal atoms each in a bag of its own where they are acyclic, the best partition of
them where they are few, and one bag otherwise. `none` stands for a panic.
-/

open List

namespace Tir.Relational.Ghd

structure Bag where
 atoms : Word
 vars : Word
 /-- An earlier bag; the root's parent is itself. -/
 parent : Nat
 /-- The variables the bag shares with its parent. -/
 separator : Word
deriving DecidableEq, Inhabited

/-- Runs with more atoms than this are joined as one bag rather than searched for a decomposition. -/
def exhaustive : Nat := 8

def within (edge other : Word) : Bool :=
 edge &&& ~~~other = 0

def bit (at' : Nat) : Word :=
 (1 : Word) <<< at'

def countOnes (mask : Word) : Nat :=
 ((List.range 64).filter mask.getLsbD).length

/-! ## GYO reduction -/

section JoinTree

variable (edges : List Word)

/-- The variables of the edges of a list but one. -/
def others (alive : List Nat) (edge : Nat) : Word :=
 (alive.filter fun other => other ≠ edge).foldl (fun union other => union ||| edges.getD other 0) 0

/-- An ear of the edges alive: its position, and the edge it is an ear of. -/
def ear (alive : List Nat) : Option (Nat × Option Nat) :=
 alive.zipIdx.findSome? fun entry =>
  let shared := edges.getD entry.1 0 &&& others edges alive entry.1
  if shared = 0 then
   some (entry.2, none)
  else
   (alive.find? fun other => other ≠ entry.1 && within shared (edges.getD other 0)).map fun other =>
    (entry.2, some other)

/-- The loop that removes ears; each turn removes one edge. -/
def joinTreeFrom : Nat → List Nat → List (Option Nat) → Option (List (Option Nat))
 | 0, _, tree => some tree
 | fuel + 1, alive, tree =>
  if alive = [] then
   some tree
  else
   (ear edges alive).bind fun found =>
    joinTreeFrom fuel (alive.eraseIdx found.1) (tree.set (alive.getD found.1 0) found.2)

/-- Per edge, the edge it was an ear of; nothing where the edges are cyclic. -/
def joinTree : Option (List (Option Nat)) :=
 joinTreeFrom edges edges.length (List.range edges.length) (replicate edges.length none)

end JoinTree

/-! ## Partitions -/

/-- The best partition so far: its largest block, its number of blocks, and the blocks. -/
structure Best where
 size : Nat
 count : Nat
 blocks : List Word
deriving DecidableEq

section Partition

variable (edges : List Word)

def reads (block : Word) : List Word :=
 ((List.range edges.length).filter fun i => block.getLsbD i).map fun i => edges.getD i 0

def blockVars (block : Word) : Word :=
 (reads edges block).foldl (· ||| ·) 0

/-- Keep a partition that costs less, if it is one of cyclic blocks that form a tree. -/
def settle (blocks : List Word) (best : Best) : Best :=
 let size := (blocks.map countOnes).max?.getD 0
 let count := blocks.length
 if best.size < size || best.size = size && best.count ≤ count then
  best
 else
  let vars := blocks.map (blockVars edges)
  let cyclic := blocks.all fun block => countOnes block = 1 || (joinTree (reads edges block)).isNone
  let nested := (List.range vars.length).any fun a => (List.range vars.length).any fun b =>
   a ≠ b && within (vars.getD a 0) (vars.getD b 0)
  if cyclic && !nested && (joinTree vars).isSome then ⟨size, count, blocks⟩ else best

/-- Put the edges from `at` on, `remaining` of them, in the blocks there are or in new ones. -/
def assign : Nat → Nat → List Word → Best → Best
 | 0, _, blocks, best => settle edges blocks best
 | remaining + 1, at', blocks, best =>
  let best := (List.range blocks.length).foldl (fun best block =>
   assign remaining (at' + 1) (blocks.set block (blocks.getD block 0 ||| bit at')) best) best
  assign remaining (at' + 1) (blocks ++ [bit at']) best

/-- The best partition of cyclic edges into bags. -/
def partition : List Word :=
 (assign edges edges.length 0 [] ⟨2 ^ 32 - 1, 2 ^ 64 - 1, []⟩).blocks

end Partition

/-! ## Bags -/

section Decompose

variable (edges : List Word)

def covers (j i : Nat) : Bool :=
 j ≠ i && within (edges.getD i 0) (edges.getD j 0) && (edges.getD i 0 ≠ edges.getD j 0 || j < i)

def tops : List Nat :=
 (List.range edges.length).filter fun i => !(List.range edges.length).any fun j => covers edges j i

def topEdges : List Word :=
 (tops edges).map fun i => edges.getD i 0

/-- How the maximal edges are grouped. -/
def grouping : List Word :=
 if (joinTree (topEdges edges)).isSome then
  (List.range (tops edges).length).map bit
 else if (tops edges).length ≤ exhaustive then
  partition (topEdges edges)
 else
  [BitVec.allOnes 64 >>> (64 - (tops edges).length)]

/-- The group of an edge: that of the first maximal edge it lies within. -/
def groupOf (groups : List Word) (i : Nat) : Option Nat :=
 ((tops edges).findIdx? fun top => top = i || within (edges.getD i 0) (edges.getD top 0)).bind fun top =>
   groups.findIdx? fun group => group.getLsbD top

/-- The atoms and the variables of each group. -/
structure Gathered where
 atoms : List Word
 vars : List Word

def gather (groups : List Word) : Option Gathered :=
 edges.zipIdx.foldlM (fun gathered entry => (groupOf edges groups entry.2).map fun group =>
  ⟨gathered.atoms.set group (gathered.atoms.getD group 0 ||| bit entry.2),
   gathered.vars.set group (gathered.vars.getD group 0 ||| entry.1)⟩)
  ⟨replicate groups.length 0, replicate groups.length 0⟩

end Decompose

/-! ## The order of the bags -/

/-- The groups in the order placed, each with the group it was reached from. -/
structure Placing where
 placed : List Bool
 order : List (Nat × Nat)

section Order

variable (tree : List (Option Nat)) (count : Nat)

def upOf (group : Nat) : Option Nat :=
 tree.getD group none

/-- Place `next` after `group`, unless it is placed or not adjacent. -/
def visit (group : Nat) (p : Placing) (next : Nat) : Placing :=
 if (upOf tree next = some group || upOf tree group = some next) && !p.placed.getD next false then
  ⟨p.placed.set next true, p.order ++ [(next, group)]⟩
 else
  p

/-- The loop over the groups placed, from position `at` on. -/
def reach : Nat → Nat → Placing → Placing
 | 0, _, p => p
 | fuel + 1, at', p =>
  match p.order[at']? with
  | none => p
  | some entry => reach fuel (at' + 1) ((List.range count).foldl (visit tree entry.1) p)

/-- Place the groups a start reaches; one the tree does not reach hangs off the root. -/
def place (root : Nat) (p : Placing) (start : Nat) : Placing :=
 if p.placed.getD start false then
  p
 else
  reach tree count (count + 1) p.order.length ⟨p.placed.set start true, p.order ++ [(start, root)]⟩

def ordered (root : Nat) : List (Nat × Nat) :=
 ((root :: List.range count).foldl (place tree count root) ⟨replicate count false, []⟩).order

end Order

/-- Group the atoms of a run, by their variables, into bags that form a tree rooted at the first atom's. -/
def decompose (edges : List Word) : Option (List Bag) :=
 (gather edges (grouping edges)).bind fun gathered =>
  (joinTree gathered.vars).bind fun tree =>
   (groupOf edges (grouping edges) 0).bind fun root =>
    (ordered tree (grouping edges).length root).mapM fun entry =>
     ((ordered tree (grouping edges).length root).findIdx? fun other => other.1 = entry.2).map fun parent =>
       { atoms := gathered.atoms.getD entry.1 0
         vars := gathered.vars.getD entry.1 0
         parent := parent
         separator := if entry.1 = entry.2 then 0
          else gathered.vars.getD entry.1 0 &&& gathered.vars.getD entry.2 0 }

/-- A triangle is one bag, with an edge that hangs off it in another. -/
example : decompose [0b0011, 0b1100, 0b0110, 0b0101] =
  some [⟨0b1101, 0b0111, 0, 0⟩, ⟨0b0010, 0b1100, 0, 0b0100⟩] := by
 decide +kernel

end Tir.Relational.Ghd
