import Tir.Sat.Clause
import Tir.Sat.VarOrder

/-!
# The SAT solver

Model of the CDCL solver of `libs/symbolic/src/sat/mod.rs`: two-watched-literal propagation, 1-UIP
learning, VSIDS branching and Luby restarts. Tables indexed by variable or by literal are
functions; `none` is a panic of the source (an index out of bounds, a `None` unwrapped, a counter
below zero), or a loop that is out of turns, which the correctness theorem excludes. A variable is
a number and a literal a number with a sign: a solver has fewer than `2 ^ 31` variables, so the
packing of literals into `u32` loses nothing.
-/

open Function

namespace Tir.Sat

inductive SatResult where
 | sat (model : List Bool)
 | unsat
 | unknown
 deriving DecidableEq, Repr

/-- `Solver`. The first two literals of a clause are the watched ones. -/
structure Solver (A : Type) where
 numVars : Nat
 clauses : List Clause
 watches : Lit → List Nat
 assign : Nat → Option Bool
 level : Nat → Nat
 reason : Nat → Option Nat
 phase : Nat → Bool
 vsids : VarOrder A
 /-- The assigned literals in chronological order. -/
 trail : List Lit
 /-- The position of the first literal not yet propagated. -/
 qhead : Nat
 /-- The length of the trail when each decision level began. -/
 trailLim : List Nat
 unsat : Bool
 seen : Nat → Bool

namespace Solver

variable {A : Type} (r : Ranking A)

def new : Solver A where
 numVars := 0
 clauses := []
 watches _ := []
 assign _ := none
 level _ := 0
 reason _ := none
 phase _ := false
 vsids := { activity := fun _ => r.zero, varInc := r.one, order := [], slot := fun _ => none }
 trail := []
 qhead := 0
 trailLim := []
 unsat := false
 seen _ := false

/-- `Solver::new_var`; the new variable is `s.numVars`. -/
def newVar (s : Solver A) : Solver A :=
 let v := s.numVars
 { s with
   numVars := v + 1
   assign := update s.assign v none
   level := update s.level v 0
   reason := update s.reason v none
   phase := update s.phase v false
   watches := update (update s.watches ⟨v, false⟩ []) ⟨v, true⟩ []
   seen := update s.seen v false
   vsids := VarOrder.queue r
    { s.vsids with
      activity := update s.vsids.activity v r.zero
      slot := update s.vsids.slot v none }
    v }

def decisionLevel (s : Solver A) : Nat := s.trailLim.length

def valueLit (s : Solver A) (l : Lit) : Option Bool := (s.assign l.var).map fun b => b ^^ l.negated

/-- The branch of `Solver::enqueue` for an unassigned literal. -/
def push (s : Solver A) (l : Lit) (reason : Option Nat) : Solver A :=
 { s with
   assign := update s.assign l.var (some !l.negated)
   level := update s.level l.var s.decisionLevel
   reason := update s.reason l.var reason
   trail := s.trail ++ [l] }

def enqueue (s : Solver A) (l : Lit) (reason : Option Nat) : Solver A × Bool :=
 match s.valueLit l with
 | some true => (s, true)
 | some false => (s, false)
 | none => (s.push l reason, true)

/-- `Solver::add_watched_clause`; the new clause is `s.clauses.length`. `none` when it has no two
literals. -/
def addWatchedClause (s : Solver A) (lits : Clause) : Option (Solver A) :=
 match lits with
 | a :: b :: _ =>
  let watches := update s.watches a (s.watches a ++ [s.clauses.length])
  some
   { s with
     watches := update watches b (watches b ++ [s.clauses.length])
     clauses := s.clauses ++ [lits] }
 | _ => none

/-- The loop of `Solver::add_clause` that drops repeated literals; `none` is a tautology. -/
def dedup : Clause → Clause → Option Clause
 | [], cl => some cl
 | l :: lits, cl =>
  if cl.contains l.negate then none
  else if cl.contains l then dedup lits cl
  else dedup lits (cl ++ [l])

def addClause (s : Solver A) (lits : Clause) : Option (Solver A) :=
 if s.unsat then some s
 else
  match dedup lits [] with
  | none => some s
  | some [] => some { s with unsat := true }
  | some [l] =>
   let (s, ok) := s.enqueue l none
   some (if ok then s else { s with unsat := true })
  | some cl => s.addWatchedClause cl

/-! ## Propagation -/

/-- What visiting a clause that watches a falsified literal comes to. -/
inductive Visit where
 /-- The clause keeps the watch. -/
 | keep
 /-- The clause watches another literal instead. -/
 | moved
 /-- All literals of the clause are false. -/
 | conflict
 deriving DecidableEq, Repr

/-- The rest of the body of the inner loop of `Solver::propagate`: the clause `w0 :: w1 :: rest`
has its falsified literal in slot 1. -/
def rewatch (s : Solver A) (cref : Nat) (w0 w1 : Lit) (rest : Clause) : Solver A × Visit :=
 if s.valueLit w0 = some true then (s, .keep)
 else
  -- hunt for a replacement that is not false
  match rest.findIdx? fun l => s.valueLit l != some false with
  | some k =>
   let nw := rest.getD k w1
   ({ s with
    clauses := s.clauses.set cref (w0 :: nw :: rest.set k w1)
    watches := update s.watches nw (s.watches nw ++ [cref]) }, .moved)
  | none =>
   if s.valueLit w0 = some false then (s, .conflict)
   else ((s.enqueue w0 (some cref)).1, .keep)

/-- The body of the inner loop of `Solver::propagate`. -/
def visit (s : Solver A) (falseLit : Lit) (cref : Nat) : Option (Solver A × Visit) :=
 match s.clauses[cref]? with
 | some (l0 :: l1 :: rest) =>
  let w0 := if l0 = falseLit then l1 else l0
  let w1 := if l0 = falseLit then l0 else l1
  some (rewatch { s with clauses := s.clauses.set cref (w0 :: w1 :: rest) } cref w0 w1 rest)
 | _ => none

/-- The inner loop of `Solver::propagate`: the clauses `ws` are visited, those that keep the watch
are collected. -/
def visitAll (falseLit : Lit) : List Nat → Solver A → List Nat → Option (Solver A × List Nat × Option Nat)
 | [], s, kept => some (s, kept, none)
 | cref :: ws, s, kept =>
  match s.visit falseLit cref with
  | none => none
  | some (s, .keep) => visitAll falseLit ws s (kept ++ [cref])
  | some (s, .moved) => visitAll falseLit ws s kept
  | some (s, .conflict) => some (s, kept ++ cref :: ws, some cref)

/-- The outer loop of `Solver::propagate`. -/
def propagateLoop : Nat → Solver A → Option (Solver A × Option Nat)
 | 0, _ => none
 | fuel + 1, s =>
  match s.trail[s.qhead]? with
  | none => some (s, none)
  | some p =>
   let falseLit := p.negate
   let taken :=
    { s with
      qhead := s.qhead + 1
      watches := update s.watches falseLit [] }
   match visitAll falseLit (s.watches falseLit) taken [] with
   | none => none
   | some (s, kept, conflict) =>
    let s := { s with watches := update s.watches falseLit kept }
    match conflict with
    | some cref => some ({ s with qhead := s.trail.length }, some cref)
    | none => propagateLoop fuel s

/-- `Solver::propagate`: every turn propagates one literal, and a variable is on the trail once. -/
def propagate (s : Solver A) : Option (Solver A × Option Nat) := propagateLoop (s.numVars + 1) s

/-! ## Conflict analysis -/

/-- The local state of `Solver::analyze`; `learnt` leaves slot 0 out. -/
structure Analysis (A : Type) where
 seen : Nat → Bool
 marked : List Nat
 learnt : List Lit
 pathC : Nat
 vsids : VarOrder A

/-- The body of the loop over the literals of a clause. -/
def mark (s : Solver A) (a : Analysis A) (q : Lit) : Analysis A :=
 if a.seen q.var = false ∧ 0 < s.level q.var then
  let a :=
   { a with
     vsids := VarOrder.bump r a.vsids q.var
     seen := update a.seen q.var true
     marked := a.marked ++ [q.var] }
  if s.decisionLevel ≤ s.level q.var then { a with pathC := a.pathC + 1 }
  else { a with learnt := a.learnt ++ [q] }
 else a

/-- The last seen literal of the trail before a position. -/
def scan (s : Solver A) (seen : Nat → Bool) : Nat → Option (Nat × Lit)
 | 0 => none
 | i + 1 =>
  match s.trail[i]? with
  | none => none
  | some l => if seen l.var then some (i, l) else scan s seen i

/-- The main loop of `Solver::analyze`; `lits` are the literals of the clause to resolve with. The
position on the trail falls in every turn. -/
def resolve (s : Solver A) : Nat → Analysis A → Clause → Nat → Option (Analysis A × Lit)
 | 0, _, _, _ => none
 | fuel + 1, a, lits, index =>
  let a := lits.foldl (s.mark r) a
  match s.scan a.seen index with
  | none => none
  | some (index, pl) =>
   match a.pathC with
   | 0 => none
   | 1 => some ({ a with seen := update a.seen pl.var false, pathC := 0 }, pl)
   | pathC + 2 =>
    let a := { a with seen := update a.seen pl.var false, pathC := pathC + 1 }
    match s.reason pl.var with
    | none => none
    | some confl =>
     match s.clauses[confl]? with
     | none => none
     | some lits => resolve s fuel a (lits.drop 1) index

/-- The position of a literal of the highest level. -/
def highest (s : Solver A) (lits : List Lit) : Nat :=
 (List.range lits.length).foldl
  (fun best k =>
   if s.level (lits.getD best ⟨0, false⟩).var < s.level (lits.getD k ⟨0, false⟩).var then k
   else best)
  0

/-- The literals with the one at `k` and the first exchanged. -/
def swapFirst (lits : List Lit) (k : Nat) : List Lit :=
 (lits.set 0 (lits.getD k ⟨0, false⟩)).set k (lits.getD 0 ⟨0, false⟩)

/-- `Solver::analyze`: the learnt clause and the level to jump back to. -/
def analyze (s : Solver A) (conflict : Nat) : Option (Solver A × Clause × Nat) :=
 match s.clauses[conflict]? with
 | none => none
 | some lits =>
  let start := { seen := s.seen, marked := [], learnt := [], pathC := 0, vsids := s.vsids }
  match s.resolve r (s.trail.length + 1) start lits s.trail.length with
  | none => none
  | some (a, p) =>
   let seen := fun v => a.seen v && !a.marked.contains v
   let s := { s with seen, vsids := a.vsids }
   match a.learnt with
   | [] => some (s, [p.negate], 0)
   | q :: rest =>
    let lower := swapFirst (q :: rest) (s.highest (q :: rest))
    some (s, p.negate :: lower, s.level (lower.getD 0 ⟨0, false⟩).var)

def learn (s : Solver A) (learnt : Clause) : Option (Solver A) :=
 match learnt with
 | [] => none
 | [l] => some (s.enqueue l none).1
 | l :: _ => (s.addWatchedClause learnt).map fun s' => (s'.enqueue l (some s.clauses.length)).1

/-! ## Backtracking and branching -/

/-- Take `n` literals off the trail. -/
def undo : Nat → Solver A → Option (Solver A)
 | 0, s => some s
 | n + 1, s =>
  match s.trail.getLast? with
  | none => none
  | some l =>
   match s.assign l.var with
   | none => none
   | some value =>
    undo n
     { s with
       trail := s.trail.dropLast
       phase := update s.phase l.var value
       assign := update s.assign l.var none
       reason := update s.reason l.var none
       vsids := VarOrder.queue r s.vsids l.var }

def cancelUntil (s : Solver A) (level : Nat) : Option (Solver A) :=
 match s.trailLim[level]? with
 | none => some s
 | some target =>
  (s.undo r (s.trail.length - target)).map fun s =>
   { s with trailLim := s.trailLim.take level, qhead := s.trail.length }

/-- The loop of `Solver::pick_branch`; the queue shrinks in every turn. -/
def pickLoop : Nat → Solver A → Solver A × Option Lit
 | 0, s => (s, none)
 | fuel + 1, s =>
  match s.vsids.order with
  | [] => (s, none)
  | top :: _ =>
   let s := { s with vsids := VarOrder.unqueueTop r s.vsids top }
   if s.assign top = none then (s, some ⟨top, !s.phase top⟩) else pickLoop fuel s

def pickBranch (s : Solver A) : Solver A × Option Lit := s.pickLoop r s.vsids.order.length

def model (s : Solver A) : List Bool := (List.range s.numVars).map fun v => (s.assign v).getD false

/-! ## The search -/

/-- The first loop of `luby`: the size and the depth of the subsequence that holds position `x`. -/
def lubySize : Nat → Nat → Nat → Nat → Nat × Nat
 | 0, _, size, seq => (size, seq)
 | fuel + 1, x, size, seq =>
  if size < x + 1 then lubySize fuel x (2 * size + 1) (seq + 1) else (size, seq)

/-- The second loop of `luby`. -/
def lubyDescend : Nat → Nat → Nat → Option Nat
 | 0, size, x => if size - 1 = x then some 1 else none
 | seq + 1, size, x =>
  if size - 1 = x then some (2 ^ (seq + 1))
  else lubyDescend seq ((size - 1) / 2) (x % ((size - 1) / 2))

def luby (x : Nat) : Option Nat :=
 let (size, seq) := lubySize (x + 1) x 1 0
 lubyDescend seq size x

/-- The local state of `Solver::solve_with_budget`. -/
structure Search (A : Type) where
 solver : Solver A
 conflicts : Nat
 restartNo : Nat
 limit : Nat

/-- What a turn of the search comes to. -/
inductive Turn (A : Type) where
 | again (search : Search A)
 | done (solver : Solver A) (result : SatResult)

/-- The end of a turn after a conflict: restart when the limit is reached. -/
def restart (s : Solver A) (conflicts restartNo limit : Nat) : Option (Search A) :=
 if limit ≤ conflicts then
  match luby (restartNo + 1), s.cancelUntil r 0 with
  | some step, some s =>
   some
    { solver := s, conflicts, restartNo := restartNo + 1
      limit := conflicts + step * 100 }
  | _, _ => none
 else some { solver := s, conflicts, restartNo, limit }

/-- The branch of the loop of `Solver::solve_with_budget` after a conflict. -/
def onConflict (s : Solver A) (budget : Option Nat) (x : Search A) (confl : Nat) : Option (Turn A) :=
 let conflicts := x.conflicts + 1
 if s.decisionLevel = 0 then some (.done { s with unsat := true } .unsat)
 else
  match s.analyze r confl with
  | none => none
  | some (s, learnt, btLevel) =>
   match (s.cancelUntil r btLevel).bind fun s => s.learn learnt with
   | none => none
   | some s =>
    let s := { s with vsids := VarOrder.decay r s.vsids }
    if budget.any fun m => decide (m ≤ conflicts) then some (.done s .unknown)
    else (restart r s conflicts x.restartNo x.limit).map .again

/-- The branch without a conflict: decide on a variable, or end with a model. -/
def onQuiet (s : Solver A) (x : Search A) : Turn A :=
 match s.pickBranch r with
 | (s, none) => .done s (.sat s.model)
 | (s, some lit) =>
  .again { x with solver := ({ s with trailLim := s.trailLim ++ [s.trail.length] }.enqueue lit none).1 }

/-- The body of the loop of `Solver::solve_with_budget`. -/
def turn (budget : Option Nat) (x : Search A) : Option (Turn A) :=
 match x.solver.propagate with
 | none => none
 | some (s, some confl) => s.onConflict r budget x confl
 | some (s, none) => some (s.onQuiet r x)

/-- The loop of `Solver::solve_with_budget`. -/
def searchLoop (budget : Option Nat) : Nat → Search A → Option (Solver A × SatResult)
 | 0, _ => none
 | fuel + 1, x =>
  match turn r budget x with
  | none => none
  | some (.done s result) => some (s, result)
  | some (.again x) => searchLoop budget fuel x

/-- More turns than a search over `n` variables has: it learns fewer than `2 ^ (2 * n) + n` clauses,
and decides fewer than `n + 1` times between two of them. -/
def turns (n : Nat) : Nat := (2 ^ (2 * n) + n + 1) * (n + 1)

def solveWithBudget (s : Solver A) (budget : Option Nat) : Option (Solver A × SatResult) :=
 if s.unsat then some (s, .unsat)
 else
  match luby 0 with
  | none => none
  | some first =>
   searchLoop r budget (turns s.numVars)
    { solver := s, conflicts := 0, restartNo := 0, limit := first * 100 }

end Solver

end Tir.Sat
