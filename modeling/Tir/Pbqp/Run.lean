import Tir.Pbqp.Solver

/-!
# The solver's loops

Work on edges leaves the nodes in the graph as they are and each reduction takes one out, so the
loop of `reduce_optimally` ends: a turn takes a node out of the graph or shortens the stack.

`runLoop` is the loop of `Solver::run`. It also lists the nodes decided heuristically, which the
source does not keep; `Problem.solve` drops the list.
-/

open List Option

namespace Tir.Pbqp

open Prod.Lex

namespace Solver

/-! ## Work on edges keeps the nodes -/

section

variable (s : Solver)

include s

@[simp]
theorem pushIfLow_alive (node : Nat) : (s.pushIfLow node).alive = s.alive := by
 simp only [pushIfLow]
 split <;> rfl

@[simp]
theorem detach_alive (edge node : Nat) : (s.detach edge node).alive = s.alive :=
 pushIfLow_alive _ node

@[simp]
theorem unlink_alive (edge : Nat) : (s.unlink edge).alive = s.alive := by
 simp [unlink]

@[simp]
theorem normalize_alive (edge : Nat) : (s.normalize edge).alive = s.alive := by
 simp only [normalize]
 split
 · exact unlink_alive _ edge
 · rfl

@[simp]
theorem charge_alive (lhs rhs : Nat) (delta : Matrix) :
  (s.charge lhs rhs delta).alive = s.alive := by
 simp only [charge]
 split
 · exact normalize_alive _ _
 · exact normalize_alive _ _

@[simp]
theorem normalizeLive_alive (edges : List Nat) :
  (s.normalizeLive edges).alive = s.alive := by
 induction edges generalizing s with
 | nil => rfl
 | cons e rest ih =>
  have hrest := ih (if (s.edges e).live then s.normalize e else s)
  simp only [normalizeLive] at hrest ⊢
  rw [foldl_cons, hrest]
  split
  · exact normalize_alive s e
  · rfl

@[simp]
theorem chargeNode_alive (node : Nat) (delta : Nat → Nat) :
  (s.chargeNode node delta).alive = s.alive := by
 simp only [chargeNode]
 split
 · exact normalizeLive_alive _ _
 · rfl

end

/-! ## The reductions -/

theorem reduceOne_alive (s : Solver) {node edge : Nat} {rest : List Nat} (hadj : s.adjacency node = edge :: rest) :
  (s.reduceOne node).alive = s.alive.erase node := by
 simp [reduceOne, hadj, kill, record]

theorem reduceTwo_alive (s : Solver) {node first second : Nat} {rest : List Nat}
  (hadj : s.adjacency node = first :: second :: rest) :
  (s.reduceTwo node).alive = s.alive.erase node := by
 simp [reduceTwo, hadj, kill, record]

/-- What one turn of `reduce_optimally` can do. -/
theorem reduceStep_cases {s s' : Solver} (h : s.reduceStep = some s') : ∃ node rest, s.pending = node :: rest ∧
   let t := { s with pending := rest }
   ((node ∉ s.alive ∨ 2 < (s.adjacency node).length) ∧ s' = t ∨
     node ∈ s.alive ∧ s.adjacency node = [] ∧
      s' = (t.kill node).record (.r0 node) ∨
     node ∈ s.alive ∧ (∃ edge, s.adjacency node = [edge]) ∧ s' = t.reduceOne node ∨
     node ∈ s.alive ∧ (∃ first second, s.adjacency node = [first, second]) ∧
      s' = t.reduceTwo node) := by
 cases hp : s.pending with
 | nil => simp [reduceStep, hp] at h
 | cons node rest =>
  refine ⟨node, rest, rfl, ?_⟩
  by_cases hmem : node ∈ s.alive
  · match hadj : s.adjacency node with
    | [] =>
     simp only [reduceStep, hp, hmem, hadj, if_true, length_nil, some.injEq] at h
     exact .inr (.inl ⟨hmem, rfl, h.symm⟩)
    | [edge] =>
     simp only [reduceStep, hp, hmem, hadj, if_true, length_cons, length_nil,
      some.injEq] at h
     exact .inr (.inr (.inl ⟨hmem, ⟨edge, rfl⟩, h.symm⟩))
    | [first, second] =>
     simp only [reduceStep, hp, hmem, hadj, if_true, length_cons, length_nil,
      some.injEq] at h
     exact .inr (.inr (.inr ⟨hmem, ⟨first, second, rfl⟩, h.symm⟩))
    | a :: b :: c :: l =>
     simp only [reduceStep, hp, hmem, hadj, if_true, length_cons,
      some.injEq] at h
     exact .inl ⟨.inr (by simp only [length_cons]; omega), h.symm⟩
  · simp only [reduceStep, hp, hmem, if_false, some.injEq] at h
    exact .inl ⟨.inl hmem, h.symm⟩

theorem reduceStep_eq_none {s : Solver} (h : s.reduceStep = none) : s.pending = [] := by
 cases hp : s.pending with
 | nil => rfl
 | cons node rest =>
  simp only [reduceStep, hp] at h
  split at h
  · split at h <;> nomatch h
  · nomatch h

/-- A turn takes a node out of the graph or shortens the stack. -/
theorem reduceStep_lt {s s' : Solver} (h : s.reduceStep = some s') :
  Prod.Lex (· < ·) (· < ·) (s'.alive.card, s'.pending.length) (s.alive.card, s.pending.length) := by
 obtain ⟨node, rest, hp, hcase⟩ := reduceStep_cases h
 have hcard : node ∈ s.alive → (s.alive.erase node).card < s.alive.card :=
  Finset.card_erase_lt_of_mem
 rcases hcase with ⟨-, rfl⟩ | ⟨hmem, -, rfl⟩ | ⟨hmem, ⟨edge, hadj⟩, rfl⟩ |
  ⟨hmem, ⟨first, second, hadj⟩, rfl⟩
 · refine right _ ?_
   rw [hp, length_cons]
   exact Nat.lt_succ_self _
 · exact left _ _ (hcard hmem)
 · refine left _ _ ?_
   rw [reduceOne_alive { s with pending := rest } hadj]
   exact hcard hmem
 · refine left _ _ ?_
   rw [reduceTwo_alive { s with pending := rest } hadj]
   exact hcard hmem

/-- Apply R0, R1 and R2 while any applies. -/
def reduceOptimally (s : Solver) : Solver :=
 match _h : s.reduceStep with
 | none => s
 | some s' => s'.reduceOptimally
termination_by (s.alive.card, s.pending.length)
decreasing_by exact reduceStep_lt ‹_›

theorem reduceOptimally_of_none {s : Solver} (h : s.reduceStep = none) : s.reduceOptimally = s := by
 rw [reduceOptimally]
 split
 · rfl
 · rename_i s' h'
   rw [h] at h'
   exact absurd h' (some_ne_none s').symm

theorem reduceOptimally_of_some {s s' : Solver} (h : s.reduceStep = some s') :
  s.reduceOptimally = s'.reduceOptimally := by
 rw [reduceOptimally]
 split
 · rename_i h'
   rw [h] at h'
   exact absurd h' (some_ne_none s')
 · rename_i t h'
   rw [h] at h'
   rw [some.inj h']

/-- The first `n` turns of the loop. -/
def reduceTurns : Nat → Solver → Solver
 | 0, s => s
 | n + 1, s =>
  match s.reduceStep with
  | none => s
  | some s' => reduceTurns n s'

/-- Turns that empty the stack are the whole loop. -/
theorem reduceOptimally_eq_turns {n : Nat} {s : Solver} (h : (reduceTurns n s).pending = []) :
  s.reduceOptimally = reduceTurns n s := by
 induction n generalizing s with
 | zero =>
  have hpending : s.pending = [] := h
  exact reduceOptimally_of_none (by simp [reduceStep, hpending])
 | succ n ih =>
  cases hstep : s.reduceStep with
  | none =>
   simp only [reduceTurns, hstep]
   exact reduceOptimally_of_none hstep
  | some s' =>
   simp only [reduceTurns, hstep] at h ⊢
   rw [reduceOptimally_of_some hstep]
   exact ih h

/-- What every turn keeps holds at the end, when the stack is empty. -/
theorem reduceOptimally_induct {P : Solver → Prop}
  (hstep : ∀ s s', s.reduceStep = some s' → P s → P s') {s : Solver} (hs : P s) :
  P s.reduceOptimally ∧ s.reduceOptimally.pending = [] := by
 induction s using reduceOptimally.induct with
 | case1 s h =>
  rw [reduceOptimally_of_none h]
  exact ⟨hs, reduceStep_eq_none h⟩
 | case2 s s' h ih =>
  rw [reduceOptimally_of_some h]
  exact ih (hstep s s' h hs)

/-! ## The main loop -/

/-- The loop of `Solver::run`, with the nodes it decided. Each turn takes a node out of the graph,
so `none`, for running out of turns, is never the result of `run`. -/
def runLoop : Nat → Solver → List Nat → List Nat → Option (Solver × List Nat)
 | 0, _, _, _ => none
 | fuel + 1, s, order, decided =>
  let s := s.reduceOptimally
  match order.dropWhile fun node => node ∉ s.alive with
  | [] => some (s, decided)
  | node :: rest =>
   let s := s.mergeImplied node
   if node ∈ s.alive ∧ 2 < (s.adjacency node).length then
    runLoop fuel (s.decide node) (node :: rest) (node :: decided)
   else runLoop fuel s (node :: rest) decided

/-- `Solver::run` up to back-propagation: the final state and the nodes decided heuristically. -/
def run (s : Solver) (order : List Nat) : Option (Solver × List Nat) :=
 runLoop (s.alive.card + 1) s order []

end Solver

namespace Problem

/-- The node's own choice is infinite. -/
def stuck (p : Problem) (choices : Nat → Nat) (node : Nat) : Bool :=
 decide (infCost ≤ p.nodeCost node (choices node))

/-- The node answers for an infinite cost: its own, or that of an edge neither end of which is
stuck and whose later-ranked end it is. -/
def atFault (p : Problem) (ranked : List Nat) (choices : Nat → Nat) (node : Nat) : Bool :=
 p.stuck choices node || p.edges.any fun e =>
  !p.stuck choices e.1.1 && !p.stuck choices e.1.2 &&
   decide (infCost ≤ e.2 (choices e.1.1) (choices e.1.2)) &&
   node == if rank ranked e.1.1 > rank ranked e.1.2 then e.1.1 else e.1.2

/-- The nodes at fault in the order of their rank. -/
def infeasible (p : Problem) (ranked : List Nat) (choices : Nat → Nat) : List Nat :=
 ((List.range p.costs.length).filter (p.atFault ranked choices)).insertionSort fun a b =>
   rank ranked a ≤ rank ranked b

/-- Choose an alternative for every node; `none` is the panic on an order that names a node that
does not exist. -/
def solve (p : Problem) (order : List Nat) : Option Solution :=
 if order.all fun node => decide (node < p.costs.length) then
  let ranked := p.ranked order
  (p.solver.run ranked).map fun r =>
   let choices := r.1.backPropagate r.1.choices
   { choices, infeasible := p.infeasible ranked choices }
 else none

end Problem

end Tir.Pbqp
