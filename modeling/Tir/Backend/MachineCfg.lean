import Tir.Basic.Returns
import Tir.Graph.Dominators

/-!
# The dominator tree and the loops of a machine function

A machine function is a list of blocks, the first one the entry, and the successors of each
block. Blocks are known by their index in the list. `MachineCfg.dominance` walks the blocks depth
first, ranks them in reverse postorder and iterates to the fixpoint of the immediate
dominators; `Dominance.preorder`, `Dominance.loops` and `loopDepths` read its result.

Every loop of the source is a function of a fuel, and `none` is a panic or a loop that
ran out of fuel. A `Vec` of the function's length is a function of the block index; a stack is a
list with its top at the head.
-/

open Function List

namespace Tir.Backend

/-- The blocks of a machine function and their successors. -/
structure MachineCfg (B : Type) where
 blocks : List B
 successors : B → Option (List B)
 nonempty : 0 < blocks.length
 nodup : blocks.Nodup
 closed : ∀ b ∈ blocks, ∀ s ∈ (successors b).getD [], s ∈ blocks

/-- `usize::MAX`, the rank of a block the walk does not reach. -/
def usizeMax : Nat := 2 ^ 64 - 1

/-- The dominator tree of a machine function's blocks, by index into the block list. -/
structure Dominance (n : Nat) where
 /-- The reachable blocks in reverse postorder. -/
 order : List (Fin n)
 rank : Fin n → Nat
 idoms : Fin n → Option (Fin n)
 predecessors : Fin n → List (Fin n)
 seen : Fin n → Bool

section

variable {n : Nat} (edges : Fin n → List (Fin n))

/-- One entry for each edge into the block. -/
def predecessorsOf (block : Fin n) : List (Fin n) :=
 (List.finRange n).flatMap fun i => ((edges i).filter (· = block)).map fun _ => i

/-- The depth-first walk; an entry marked `true` finishes its block. -/
def depthFirst : Nat → (Fin n → Bool) → List (Fin n × Bool) → List (Fin n) → Option ((Fin n → Bool) × List (Fin n))
 | 0, _, _, _ => none
 | _ + 1, seen, [], order => some (seen, order)
 | fuel + 1, seen, (block, true) :: dfs, order => depthFirst fuel seen dfs (order ++ [block])
 | fuel + 1, seen, (block, false) :: dfs, order =>
  if seen block then depthFirst fuel seen dfs order
  else
   depthFirst fuel (update seen block true)
    ((edges block).map (fun next => (next, false)) ++ (block, true) :: dfs) order

def rankOf (order : List (Fin n)) : Fin n → Nat :=
 order.zipIdx.foldl (fun rank block => update rank block.1 block.2) fun _ => usizeMax

/-- The nearest common ancestor of two blocks in the tree built so far. -/
def intersect (rank : Fin n → Nat) (idom : Fin n → Option (Fin n)) : Nat → Fin n → Fin n → Option (Fin n)
 | 0, _, _ => none
 | fuel + 1, parent, predecessor =>
  if parent = predecessor then some parent
  else if rank parent > rank predecessor then
   (idom parent).bind fun parent => intersect rank idom fuel parent predecessor
  else
   (idom predecessor).bind fun predecessor => intersect rank idom fuel parent predecessor

/-- The common ancestor of the predecessors known so far; `none` also when there is none. -/
def parentOf (rank : Fin n → Nat) (idom : Fin n → Option (Fin n)) (fuel : Nat)
  (predecessors : List (Fin n)) : Option (Fin n) :=
 match predecessors.filter fun p => (idom p).isSome with
 | [] => none
 | parent :: incoming => incoming.foldlM (intersect rank idom fuel) parent

/-- The turn of the pass for one block. -/
def relaxIdom (rank : Fin n → Nat) (fuel : Nat) (state : (Fin n → Option (Fin n)) × Bool)
  (block : Fin n) : Option ((Fin n → Option (Fin n)) × Bool) :=
 (parentOf rank state.1 fuel (predecessorsOf edges block)).bind fun parent =>
  if state.1 block ≠ some parent then
   some (update state.1 block (some parent), true)
  else some state

/-- Passes over the blocks in reverse postorder until one changes nothing. -/
def idomFixpoint (rank : Fin n → Nat) (blocks : List (Fin n)) :
  Nat → (Fin n → Option (Fin n)) → Option (Fin n → Option (Fin n))
 | 0, _ => none
 | fuel + 1, idom =>
  (blocks.foldlM (relaxIdom edges rank fuel) (idom, false)).bind fun state =>
   if state.2 then idomFixpoint rank blocks fuel state.1 else some state.1

end

namespace MachineCfg

variable {B : Type} [DecidableEq B] (g : MachineCfg B)

abbrev size : Nat := g.blocks.length

def entry : Fin g.size := ⟨0, g.nonempty⟩

/-- The successors of a block, by index, in order. -/
def edges (i : Fin g.size) : List (Fin g.size) :=
 ((g.successors (g.blocks.get i)).getD []).attach.map fun s =>
   ⟨g.blocks.idxOf s.1,
    idxOf_lt_length_of_mem (g.closed _ (get_mem g.blocks i) s.1 s.2)⟩

def dominance (fuel : Nat) : Option (Dominance g.size) :=
 (depthFirst g.edges fuel (fun _ => false) [(g.entry, false)] []).bind fun walk =>
  let order := walk.2.reverse
  let rank := rankOf order
  let idom := update (fun _ => none) g.entry (some g.entry)
  (idomFixpoint g.edges rank order.tail fuel idom).bind fun idom =>
   some { order, rank, idoms := idom, predecessors := predecessorsOf g.edges, seen := walk.1 }

end MachineCfg

namespace Dominance

variable {n : Nat} (d : Dominance n)

def idom (block : Fin n) : Option (Fin n) :=
 (d.idoms block).filter fun parent => parent ≠ block

/-- The blocks whose immediate dominator is `parent`, in reverse postorder. -/
def children (parent : Fin n) : List (Fin n) :=
 d.order.tail.filter fun block => d.idoms block = some parent

/-- The walk of the tree from the blocks on the stack. -/
def preorderWalk : Nat → List (Fin n) → List (Fin n) → Option (List (Fin n))
 | 0, _, _ => none
 | _ + 1, [], walk => some walk
 | fuel + 1, block :: stack, walk =>
  preorderWalk fuel (d.children block ++ stack) (walk ++ [block])

/-- The blocks the depth-first walk did not reach, by index. -/
def unreachable : List (Fin n) :=
 (List.finRange n).filter fun block => !d.seen block

def preorder (fuel : Nat) : Option (List (Fin n)) :=
 (d.preorderWalk fuel d.order.head?.toList []).bind fun walk => some (walk ++ d.unreachable)

def reversePostorder : List (Fin n) :=
 d.order ++ d.unreachable

/-- Climbs from `block` to the first ancestor that does not rank above `parent`. -/
def climb (parent : Fin n) : Nat → Fin n → Option (Fin n)
 | 0, _ => none
 | fuel + 1, block =>
  if d.rank block > d.rank parent then (d.idoms block).bind (climb parent fuel)
  else some block

def dominates (fuel : Nat) (parent block : Fin n) : Option Bool :=
 (d.climb parent fuel block).bind fun ancestor => some (ancestor = parent)

/-- The predecessors of the header that it dominates. -/
def latches (fuel : Nat) (header : Fin n) : Option (List (Fin n)) :=
 (d.predecessors header).filterM fun latch =>
  if d.seen latch then d.dominates fuel header latch else some false

/-- Marks the blocks on the stack and, backwards along the edges, those before them. -/
def markLoop (header : Fin n) : Nat → (Fin n → Option (Fin n)) → List (Fin n) → Option (Fin n → Option (Fin n))
 | 0, _, _ => none
 | _ + 1, innermost, [] => some innermost
 | fuel + 1, innermost, block :: work =>
  if innermost block = some header then markLoop header fuel innermost work
  else
   markLoop header fuel (update innermost block (some header))
    (((d.predecessors block).filter d.seen).reverse ++ work)

end Dominance

/-- The natural loops of a function, nested by header. -/
structure Loops (n : Nat) where
 /-- Per block, the header of the innermost loop holding it; a header names itself. -/
 innermost : Fin n → Option (Fin n)
 /-- Per header, the header of the loop around its own. -/
 enclosing : Fin n → Option (Fin n)

namespace Loops

variable {n : Nat} (l : Loops n)

def header (block : Fin n) : Option (Fin n) :=
 l.innermost block

def isHeader (block : Fin n) : Bool :=
 l.innermost block = some block

/-- The headers from one on outwards. -/
def outwards : Nat → Option (Fin n) → Option (List (Fin n))
 | 0, _ => none
 | _ + 1, none => some []
 | fuel + 1, some header =>
  (outwards fuel (l.enclosing header)).bind fun outer => some (header :: outer)

def headers (fuel : Nat) (block : Fin n) : Option (List (Fin n)) :=
 l.outwards fuel (l.innermost block)

def contains (fuel : Nat) (header block : Fin n) : Option Bool :=
 (l.headers fuel block).bind fun headers => some (headers.any fun outer => outer = header)

end Loops

namespace Dominance

variable {n : Nat} (d : Dominance n)

/-- The turn for one header: outer headers come first, so an inner loop marks its blocks
last. -/
def loopsStep (fuel : Nat) (loops : Loops n) (header : Fin n) : Option (Loops n) :=
 (d.latches fuel header).bind fun work =>
  if work.isEmpty then some loops
  else
   let enclosing := update loops.enclosing header (loops.innermost header)
   let innermost := update loops.innermost header (some header)
   (d.markLoop header fuel innermost work.reverse).bind fun innermost =>
    some { innermost, enclosing }

def loops (fuel : Nat) : Option (Loops n) :=
 d.order.foldlM (d.loopsStep fuel) { innermost := fun _ => none, enclosing := fun _ => none }

/-- The walk of `loopDepths` back from the latches: a block not visited for this header is one
loop deeper. -/
def countLoop (header : Fin n) : Nat → (Fin n → Option (Fin n)) → (Fin n → Nat) →
  List (Fin n) → Option ((Fin n → Option (Fin n)) × (Fin n → Nat))
 | 0, _, _, _ => none
 | _ + 1, visited, depths, [] => some (visited, depths)
 | fuel + 1, visited, depths, block :: work =>
  if visited block = some header then countLoop header fuel visited depths work
  else
   countLoop header fuel (update visited block (some header))
    (update depths block (depths block + 1))
    (((d.predecessors block).filter d.seen).reverse ++ work)

/-- The turn of `loopDepths` for one header. -/
def depthsStep (fuel : Nat) (state : (Fin n → Option (Fin n)) × (Fin n → Nat))
  (header : Fin n) : Option ((Fin n → Option (Fin n)) × (Fin n → Nat)) :=
 (d.latches fuel header).bind fun work =>
  if work.isEmpty then some state
  else
   -- the header is marked first so that self-loops cannot walk into the preheader
   d.countLoop header fuel (update state.1 header (some header))
    (update state.2 header (state.2 header + 1)) work.reverse

end Dominance

/-- The number of loops around each block. A `visited` mark no header has set yet is `none`. -/
def loopDepths {B : Type} (blocks : List B) (d : Dominance blocks.length) (fuel : Nat) : Option (List (B × Nat)) :=
 (d.order.foldlM (d.depthsStep fuel) (fun _ => none, fun _ => 0)).bind fun state =>
  some (blocks.zip (List.ofFn state.2))

end Tir.Backend
