import Tir.Pbqp.Cost

/-!
# The PBQP solver

Model of `core/src/backend/pbqp.rs`. A problem has nodes with a cost per alternative and edges
with a cost per pair of alternatives. The solver applies the optimal reductions RE
(`normalize`), R0, R1 and R2 while any applies, then merges into the next node of the order the
neighbors its choice implies (RM) and decides it (RN); last it back-propagates the choices.

Vectors indexed by node or edge number are functions on `Nat`; `count` and `edgeCount` bound the
indices in use, and `arity` is the length of a node's cost vector. A matrix is a function of the
alternatives of its edge's two ends. The stacks `pending` and `reduced` are lists with the top
first.
-/

open List Function

namespace Tir.Pbqp

/-- An edge's costs; rows index the alternatives of the edge's first node. -/
abbrev Matrix := Nat → Nat → Nat

/-- Exchange rows and columns. -/
def Matrix.transposed (m : Matrix) : Matrix := fun row col => m col row

/-- Entrywise sum. -/
def Matrix.plus (m delta : Matrix) : Matrix := fun row col => add (m row col) (delta row col)

/-- An edge of the solver's graph. -/
structure Edge where
 lhs : Nat
 rhs : Nat
 matrix : Matrix
 live : Bool

/-- A node taken out of the graph by an optimal reduction, with the edges it left by. -/
inductive Reduced where
 | r0 (node : Nat)
 | r1 (node edge : Nat)
 | r2 (node first second : Nat)
 deriving DecidableEq, Repr

/-- The solver's state. -/
structure Solver where
 count : Nat
 arity : Nat → Nat
 costs : Nat → Nat → Nat
 edgeCount : Nat
 edges : Nat → Edge
 adjacency : Nat → List Nat
 /-- The live edge between two nodes, the lower one first. -/
 between : Nat × Nat → Option Nat
 /-- The nodes still in the graph. -/
 alive : Finset Nat
 /-- Nodes whose degree fell to two or less since they were last looked at. -/
 pending : List Nat
 reduced : List Reduced
 choices : Nat → Nat

/-- The unordered pair as a key. -/
def key (a b : Nat) : Nat × Nat := (min a b, max a b)

/-- `Vec::swap_remove` at the first position of `e`: the last element takes its place. -/
def swapRemove (l : List Nat) (e : Nat) : List Nat :=
 match l.getLast? with
 | none => l
 | some last => (l.set (l.idxOf e) last).dropLast

/-- The node of a reduction and the edges it left by. -/
def Reduced.parts : Reduced → Nat × List Nat
 | .r0 node => (node, [])
 | .r1 node edge => (node, [edge])
 | .r2 node first second => (node, [first, second])

namespace Solver

/-- The cost of an edge when `node`, one of its ends, takes `own` and the other end `other`. -/
def cost (s : Solver) (edge node own other : Nat) : Nat :=
 if (s.edges edge).lhs = node then (s.edges edge).matrix own other
 else (s.edges edge).matrix other own

def other (s : Solver) (edge node : Nat) : Nat :=
 if (s.edges edge).lhs = node then (s.edges edge).rhs else (s.edges edge).lhs

/-- The number of finite alternatives of a node. -/
def finite (s : Solver) (node : Nat) : Nat :=
 (List.range (s.arity node)).countP fun alt => s.costs node alt < infCost

/-- Push a node whose degree is at most two. -/
def pushIfLow (s : Solver) (node : Nat) : Solver :=
 if (s.adjacency node).length ≤ 2 then { s with pending := node :: s.pending } else s

/-- Take an edge out of one end's adjacency list. -/
def detach (s : Solver) (edge node : Nat) : Solver :=
 pushIfLow
  { s with adjacency := update s.adjacency node (swapRemove (s.adjacency node) edge) }
  node

/-- Take an edge out of the graph. -/
def unlink (s : Solver) (edge : Nat) : Solver :=
 let lhs := (s.edges edge).lhs
 let rhs := (s.edges edge).rhs
 let s := { s with edges := update s.edges edge { s.edges edge with live := false } }
 let s := (s.detach edge lhs).detach edge rhs
 { s with between := update s.between (key lhs rhs) none }

/-- A finite cost less what its row or column gave up. -/
def reducedCost (cost least : Nat) : Nat := if infCost ≤ cost then infCost else cost - least

/-- The least cost a row has over the finite alternatives of the other end. -/
def rowMin (rhsArity : Nat) (rhsCosts : Nat → Nat) (m : Matrix) (row : Nat) : Nat :=
 minWhere rhsArity (fun col => rhsCosts col < infCost) (m row)

/-- The first node's costs after the row sweep of `normalize`. -/
def rowCosts (rhsArity : Nat) (lhsCosts rhsCosts : Nat → Nat) (m : Matrix) (row : Nat) : Nat :=
 if lhsCosts row < infCost then
  let least := rowMin rhsArity rhsCosts m row
  if least = 0 then lhsCosts row else add (lhsCosts row) least
 else lhsCosts row

/-- The matrix after the row sweep: a finite row gives up its minimum, an infinite one is
cleared. -/
def rowMatrix (rhsArity : Nat) (lhsCosts rhsCosts : Nat → Nat) (m : Matrix) : Matrix :=
 fun row col =>
  if infCost ≤ rowCosts rhsArity lhsCosts rhsCosts m row then 0
  else if lhsCosts row < infCost then
   let least := rowMin rhsArity rhsCosts m row
   if least = 0 then m row col else reducedCost (m row col) least
  else m row col

/-- The two sweeps of `normalize`: move what a row or a column costs in every case to the node it
belongs to. The column sweep is the row sweep of the transposed matrix, with the costs the row
sweep left. -/
def sweep (s : Solver) (edge : Nat) : Solver :=
 let lhs := (s.edges edge).lhs
 let rhs := (s.edges edge).rhs
 let m := (s.edges edge).matrix
 let lhsCosts := rowCosts (s.arity rhs) (s.costs lhs) (s.costs rhs) m
 let byRows := rowMatrix (s.arity rhs) (s.costs lhs) (s.costs rhs) m
 let rhsCosts := rowCosts (s.arity lhs) (s.costs rhs) lhsCosts byRows.transposed
 let byCols := (rowMatrix (s.arity lhs) (s.costs rhs) lhsCosts byRows.transposed).transposed
 { s with
   costs := update (update s.costs lhs lhsCosts) rhs rhsCosts
   edges := update s.edges edge { s.edges edge with matrix := byCols } }

/-- Every entry of the edge's matrix is zero. -/
def blank (s : Solver) (edge : Nat) : Bool :=
 (List.range (s.arity (s.edges edge).lhs)).all fun row =>
  (List.range (s.arity (s.edges edge).rhs)).all fun col => (s.edges edge).matrix row col == 0

/-- RE: sweep an edge and drop it when nothing is left on it. -/
def normalize (s : Solver) (edge : Nat) : Solver :=
 if (s.sweep edge).blank edge then (s.sweep edge).unlink edge else s.sweep edge

def pushEdge (s : Solver) (lhs rhs : Nat) (m : Matrix) : Solver :=
 let id := s.edgeCount
 let adjacency := update s.adjacency lhs (s.adjacency lhs ++ [id])
 { s with
   edgeCount := id + 1
   edges := update s.edges id { lhs, rhs, matrix := m, live := true }
   adjacency := update adjacency rhs (adjacency rhs ++ [id])
   between := update s.between (key lhs rhs) (some id) }

def link (s : Solver) (lhs rhs : Nat) (m : Matrix) : Solver :=
 (s.pushEdge lhs rhs m).normalize s.edgeCount

def addMatrix (s : Solver) (edge : Nat) (delta : Matrix) : Solver :=
 { s with
   edges := update s.edges edge
    { s.edges edge with matrix := (s.edges edge).matrix.plus delta } }

/-- Charge `delta`, rows indexing `lhs`, on the edge between two nodes. -/
def charge (s : Solver) (lhs rhs : Nat) (delta : Matrix) : Solver :=
 match s.between (key lhs rhs) with
 | some edge =>
  let delta := if (s.edges edge).lhs = lhs then delta else delta.transposed
  (s.addMatrix edge delta).normalize edge
 | none => s.link lhs rhs delta

def normalizeLive (s : Solver) (edges : List Nat) : Solver :=
 edges.foldl (fun s edge => if (s.edges edge).live then s.normalize edge else s) s

def addCosts (s : Solver) (node : Nat) (delta : Nat → Nat) : Solver :=
 { s with costs := update s.costs node fun alt => add (s.costs node alt) (delta alt) }

def chargeNode (s : Solver) (node : Nat) (delta : Nat → Nat) : Solver :=
 let s := s.addCosts node delta
 let s := if s.finite node ≤ 1 then s.normalizeLive (s.adjacency node) else s
 { s with pending := node :: s.pending }

/-- Take a node out of the graph. -/
def kill (s : Solver) (node : Nat) : Solver :=
 { s with alive := s.alive.erase node }

/-- Push a reduction. -/
def record (s : Solver) (r : Reduced) : Solver :=
 { s with reduced := r :: s.reduced }

/-- What a node of one edge costs at best, per alternative of its neighbor. -/
def throughOne (s : Solver) (node edge neighbor alt : Nat) : Nat :=
 minSum (s.arity node) (s.costs node) fun own => s.cost edge neighbor alt own

/-- R1: a node with one edge gives its cost to the neighbor. -/
def reduceOne (s : Solver) (node : Nat) : Solver :=
 match s.adjacency node with
 | [] => s
 | edge :: _ =>
  let neighbor := s.other edge node
  let delta := s.throughOne node edge neighbor
  (((s.kill node).unlink edge).record (.r1 node edge)).chargeNode neighbor delta

/-- What a node of two edges costs at best, per pair of alternatives of its neighbors. -/
def throughTwo (s : Solver) (node first second left right l r : Nat) : Nat :=
 minSum (s.arity node) (fun own => add (s.cost first left l own) (s.costs node own)) fun own =>
  s.cost second right r own

/-- R2: a node with two edges gives its cost to the edge between its neighbors. -/
def reduceTwo (s : Solver) (node : Nat) : Solver :=
 match s.adjacency node with
 | first :: second :: _ =>
  let left := s.other first node
  let right := s.other second node
  let delta := s.throughTwo node first second left right
  ((((s.kill node).unlink first).unlink second).record (.r2 node first second)).charge left
    right delta
 | _ => s

/-- One turn of `reduce_optimally`. -/
def reduceStep (s : Solver) : Option Solver :=
 match s.pending with
 | [] => none
 | node :: rest =>
  let s := { s with pending := rest }
  if node ∈ s.alive then
   match (s.adjacency node).length with
   | 0 => some ((s.kill node).record (.r0 node))
   | 1 => some (s.reduceOne node)
   | 2 => some (s.reduceTwo node)
   | _ => some s
  else some s

/-- The cheapest alternative of a node against fixed alternatives across some of its edges. -/
def bestResponse (s : Solver) (node : Nat) (fixed : List (Nat × Nat)) : Nat :=
 argminBelow (s.arity node) fun own =>
  fixed.foldl (fun total p => add total (s.cost p.1 node own p.2)) (s.costs node own)

/-- The alternatives of the neighbor that have a finite cost beside `own`. -/
def supports (s : Solver) (node edge own : Nat) : List Nat :=
 (List.range (s.arity (s.other edge node))).filter fun alt =>
  add (s.cost edge node own alt) (s.costs (s.other edge node) alt) < infCost

/-- Some finite alternative of the node leaves the neighbor two alternatives. -/
def ambiguous (s : Solver) (node edge : Nat) : Bool :=
 (List.range (s.arity node)).any fun own =>
  s.costs node own < infCost && decide (1 < (s.supports node edge own).length)

/-- Per alternative of `node` the one alternative it leaves the neighbor across `edge`; `none`
when some finite alternative leaves more than one. -/
def implied (s : Solver) (node edge : Nat) : Option (Nat → Nat) :=
 if s.ambiguous node edge then none
 else some fun own =>
  if infCost ≤ s.costs node own then 0 else (s.supports node edge own).headD 0

/-- The first edge of the node whose far end its choice implies, and what it implies. -/
def findImplied (s : Solver) (node : Nat) : Option (Nat × (Nat → Nat)) :=
 (s.adjacency node).findSome? fun edge =>
  if 1 < (s.adjacency (s.other edge node)).length then
   (s.implied node edge).map fun implied => (edge, implied)
  else none

/-- The costs of the neighbor's far edge as costs of the node, for the implied alternatives. -/
def impliedDelta (s : Solver) (node neighbor far : Nat) (implied : Nat → Nat) : Matrix :=
 fun own other =>
  if s.costs node own < infCost then s.cost far neighbor (implied own) other else 0

/-- Move one edge of the neighbor to the node. -/
def moveFar (s : Solver) (node neighbor far : Nat) (implied : Nat → Nat) : Solver :=
 (s.unlink far).charge node (s.other far neighbor) (s.impliedDelta node neighbor far implied)

/-- RM: merge the neighbor across `edge` into the node. -/
def mergeOne (s : Solver) (node edge : Nat) (implied : Nat → Nat) : Solver :=
 let neighbor := s.other edge node
 let s := (s.adjacency neighbor).foldl
  (fun s far => if far = edge then s else s.moveFar node neighbor far implied) s
 if neighbor ∈ s.alive ∧ (s.adjacency neighbor).length = 1 then s.reduceOne neighbor else s

/-- The loop of `merge_implied`: the scan that finds no merge changes nothing, and a merge
starts it over. Each merge takes a node out of the graph, which bounds the turns. -/
def mergeLoop : Nat → Solver → Nat → Solver
 | 0, s, _ => s
 | fuel + 1, s, node =>
  if node ∈ s.alive then
   match s.findImplied node with
   | none => s
   | some (edge, implied) => mergeLoop fuel (s.mergeOne node edge implied) node
  else s

/-- Merge into a node every neighbor its choice implies. -/
def mergeImplied (s : Solver) (node : Nat) : Solver := mergeLoop (s.alive.card + 1) s node

/-- The alternative that is locally cheapest: its own cost and the least each edge adds. -/
def localChoice (s : Solver) (node : Nat) : Nat :=
 argminBelow (s.arity node) fun own =>
  (s.adjacency node).foldl
   (fun total edge =>
    add total (minSum (s.arity (s.other edge node)) (fun alt => s.cost edge node own alt)
     (s.costs (s.other edge node))))
   (s.costs node own)

/-- Charge the row of the chosen alternative on the far end of an edge, and drop the edge. -/
def settle (s : Solver) (node choice edge : Nat) : Solver :=
 (s.unlink edge).chargeNode (s.other edge node) fun alt => s.cost edge node choice alt

/-- RN: fix a node to its locally cheapest alternative. -/
def decide (s : Solver) (node : Nat) : Solver :=
 let choice := s.localChoice node
 (s.adjacency node).foldl (fun s edge => s.settle node choice edge)
  { s.kill node with choices := update s.choices node choice }

/-- Undo one reduction: the node answers the choices across its edges. -/
def answer (s : Solver) (choices : Nat → Nat) (r : Reduced) : Nat → Nat :=
 let node := r.parts.1
 let fixed := r.parts.2.map fun edge => (edge, choices (s.other edge node))
 update choices node (s.bestResponse node fixed)

/-- The choices after undoing the reductions, the latest first. -/
def backPropagate (s : Solver) (choices : Nat → Nat) : Nat → Nat :=
 s.reduced.foldl s.answer choices

end Solver

/-! ## Problems -/

/-- A register-assignment task: cost vectors and the edges between them, each edge under its
ordered pair of nodes. -/
structure Problem where
 costs : List (List Nat)
 edges : List ((Nat × Nat) × Matrix)
 alternatives : ∀ c ∈ costs, c ≠ []
 ordered : ∀ e ∈ edges, e.1.1 < e.1.2 ∧ e.1.2 < costs.length
 distinct : (edges.map Prod.fst).Nodup

namespace Problem

def empty : Problem := ⟨[], [], by simp, by simp, by simp⟩

/-- Add a node; `none` is the panic on an empty cost vector. -/
def addNode (p : Problem) (costs : List Nat) : Option Problem :=
 if h : costs = [] then none
 else some
  { costs := p.costs ++ [costs]
    edges := p.edges
    alternatives := by
     intro c hc
     rcases mem_append.1 hc with hc | hc
     · exact p.alternatives c hc
     grind
    ordered := by
     intro e he
     have := p.ordered e he
     grind
    distinct := p.distinct }

scoped instance edge_lawfulBEq : LawfulBEq (Nat × Nat) := inferInstance

/-- The edges with `matrix` added under `k`: to the matrix already there, or as a new entry. -/
def chargeEdges (edges : List ((Nat × Nat) × Matrix)) (k : Nat × Nat) (matrix : Matrix) : List ((Nat × Nat) × Matrix) :=
 if k ∈ edges.map Prod.fst then
  edges.map fun e => if e.1 = k then (k, e.2.plus matrix) else e
 else edges ++ [(k, matrix)]

theorem chargeEdges_keys (edges : List ((Nat × Nat) × Matrix)) (k : Nat × Nat) (m : Matrix) :
  (chargeEdges edges k m).map Prod.fst =
   if k ∈ edges.map Prod.fst then edges.map Prod.fst else edges.map Prod.fst ++ [k] := by
 unfold chargeEdges
 split
 · rw [map_map]
   apply map_congr_left
   intro e _
   simp only [comp_apply]
   split
   · rename_i he
     exact he.symm
   · rfl
 · simp

/-- Charge a matrix, rows indexing `lhs`, on the edge between two nodes; `none` is the panic on
a self-edge or a node that does not exist. -/
def addEdge (p : Problem) (lhs rhs : Nat) (matrix : Matrix) : Option Problem :=
 if h : lhs ≠ rhs ∧ lhs < p.costs.length ∧ rhs < p.costs.length then
  let entry := if lhs < rhs then matrix else matrix.transposed
  some
   { costs := p.costs
     edges := chargeEdges p.edges (key lhs rhs) entry
     alternatives := p.alternatives
     ordered := by
      intro e he
      have hkey : e.1 ∈ (chargeEdges p.edges (key lhs rhs) entry).map Prod.fst :=
       mem_map_of_mem he
      rw [chargeEdges_keys] at hkey
      have hnew : (key lhs rhs).1 < (key lhs rhs).2 ∧ (key lhs rhs).2 < p.costs.length := by
       simp only [key]
       omega
      split at hkey
      · obtain ⟨e', he', heq⟩ := mem_map.1 hkey
        rw [← heq]
        exact p.ordered e' he'
      · rcases mem_append.1 hkey with hkey | hkey
        · obtain ⟨e', he', heq⟩ := mem_map.1 hkey
          rw [← heq]
          exact p.ordered e' he'
        grind
     distinct := by
      rw [chargeEdges_keys]
      split
      · exact p.distinct
      · rename_i hk
        exact nodup_append.2 ⟨p.distinct, nodup_singleton _, by
         grind⟩ }
 else none

/-- The number of alternatives of a node. -/
def arity (p : Problem) (node : Nat) : Nat := (p.costs.getD node []).length

def nodeCost (p : Problem) (node alt : Nat) : Nat := (p.costs.getD node []).getD alt 0

/-- The order of edge keys: by the lower node, then by the higher. -/
def KeyLe (a b : (Nat × Nat) × Matrix) : Prop :=
 a.1.1 < b.1.1 ∨ a.1.1 = b.1.1 ∧ a.1.2 ≤ b.1.2

instance : DecidableRel KeyLe := fun a b =>
 inferInstanceAs (Decidable (a.1.1 < b.1.1 ∨ a.1.1 = b.1.1 ∧ a.1.2 ≤ b.1.2))

/-- The state before the first edge is linked. -/
def start (p : Problem) : Solver where
 count := p.costs.length
 arity := p.arity
 costs := p.nodeCost
 edgeCount := 0
 edges _ := { lhs := 0, rhs := 0, matrix := fun _ _ => 0, live := false }
 adjacency _ := []
 between _ := none
 alive := Finset.range p.costs.length
 pending := List.range p.costs.length
 reduced := []
 choices _ := 0

/-- `Solver::new`: link the edges in the order of their keys. -/
def solver (p : Problem) : Solver :=
 (p.edges.insertionSort KeyLe).foldl (fun s e => s.link e.1.1 e.1.2 e.2) p.start

/-- The caller's order followed by the nodes it omits. -/
def ranked (p : Problem) (order : List Nat) : List Nat :=
 order ++ (List.range p.costs.length).filter fun node => !order.contains node

/-- The last position a node has in the ranking. -/
def rank (ranked : List Nat) (node : Nat) : Nat :=
 ranked.length - 1 - ranked.reverse.idxOf node

end Problem

/-- The alternative chosen for each node, and the nodes at fault for an infinite cost. -/
structure Solution where
 choices : Nat → Nat
 infeasible : List Nat

end Tir.Pbqp
