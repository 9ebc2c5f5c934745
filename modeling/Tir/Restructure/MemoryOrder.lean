import Mathlib.Data.List.Nodup
import Mathlib.Data.List.Perm.Subperm

/-!
# Memory order over a block

`threadBlock` gives the operations of a block the states their effects observe and publish. Memory
is cut into chains; a plan says which chains each effect touches, its own first. A read forks
off the state its own chain was last written with. A change joins the reads of all its
chains, and the one state it leaves stands for all of them (`Shared`) until something names one
on its own, when it is split. A counted loop takes and leaves one state for each chain its body
touches.

A join goes before the operation that takes it and a split after the one that leaves it; these
new operations are kept in `Chains.inserted` with the operation they are placed at. The nodes of
the block's own operations have, beside their operands and results, the pairs of states they
observe and publish. `Depends` is the order the states make.
-/

namespace Tir.Restructure

/-! ## Operations and plans -/

inductive StateResource where
 | memory
 | fpEnv
deriving DecidableEq

inductive ResourceAccess where
 | read
 | change
deriving DecidableEq

/-- An effect an operation declares, with the states it already observes and produces. -/
structure ResourceEffect where
 resource : StateResource
 access : ResourceAccess
 observed : List Nat
 produced : List Nat

/-- An operation of a block. `nested` says that a region of it has effects; `graph` that the body
of a counted loop is more than one block. -/
inductive Op where
 | plain (id : Nat) (name : String) (operands results : List Nat) (effects : List ResourceEffect)
   (nested : Bool)
 | loop (id : Nat) (inits results : List Nat) (body : List Op) (latch : Nat) (yields : List Nat)
   (graph : Bool)

/-- The chains a region is threaded on, and the chains each effect touches, its own first. -/
structure Plan where
 resource : Nat → StateResource
 touched : Nat → StateResource → Option (List Nat)
 loopTouched : Nat → List Nat
 touched_ne_nil : ∀ op r chains, touched op r = some chains → chains ≠ []
 touched_nodup : ∀ op r chains, touched op r = some chains → chains.Nodup
 touched_resource : ∀ op r chains, touched op r = some chains → ∀ chain ∈ chains, resource chain = r
 /-- Only memory has more than one chain. -/
 touched_single : ∀ op chains, touched op .fpEnv = some chains → chains.length = 1
 loopTouched_nodup : ∀ op, (loopTouched op).Nodup

/-- The chains an effect names: a read its own, a change all it touches. -/
def ResourceAccess.names : ResourceAccess → List Nat → List Nat
 | .read, touched => [touched.headD 0]
 | .change, touched => touched

/-- The chains an operation names, and how. A counted loop takes a state of each chain its body
touches and leaves a new one. -/
def Op.names (plan : Plan) : Op → List (ResourceAccess × List Nat)
 | .plain id _ _ _ effects _ => effects.filterMap fun effect =>
  (plan.touched id effect.resource).map fun touched =>
   (effect.access, effect.access.names touched)
 | .loop id _ _ _ _ _ _ => [(.change, plan.loopTouched id)]

/-- An operation that names one chain, which it reads. -/
def Op.Reads (plan : Plan) (chain : Nat) (op : Op) : Prop :=
 ∀ named ∈ op.names plan, named = (.read, [chain])

/-- An operation that does not change a chain. -/
def Op.Spares (plan : Plan) (chain : Nat) (op : Op) : Prop :=
 ∀ named ∈ op.names plan, chain ∈ named.2 → named.1 = .read

/-- The states an operation of the block already produces. -/
def Op.produced : Op → List Nat
 | .plain _ _ _ _ effects _ => effects.flatMap ResourceEffect.produced
 | .loop _ _ _ _ _ _ _ => []

/-- What an operation's declaration promises: a resource has at most one effect, and the states an
effect observes and produces are operands and results of its resource. -/
inductive Declared (next : Nat) (types : Nat → Option StateResource) : Op → Prop where
 | plain {id : Nat} {name : String} {operands results : List Nat} {effects : List ResourceEffect}
   {nested : Bool}
   (resources : effects.Pairwise fun first second => first.resource ≠ second.resource)
   (observed : ∀ effect ∈ effects, ∀ v ∈ effect.observed,
    v < next ∧ types v = some effect.resource)
   (produced : ∀ effect ∈ effects, ∀ v ∈ effect.produced,
    v < next ∧ types v = some effect.resource ∧ v ∈ results) :
   Declared next types (.plain id name operands results effects nested)
 | loop {id : Nat} {inits results : List Nat} {body : List Op} {latch : Nat} {yields : List Nat}
   {graph : Bool} (declared : ∀ op ∈ body, Declared next types op) :
   Declared next types (.loop id inits results body latch yields graph)

/-! ## The threaded block -/

/-- An operation with its states: resource or chain, observed and published. -/
inductive Node where
 | plain (id : Nat) (operands results : List Nat) (states : List (StateResource × Nat × Nat))
 | join (operands : List Nat) (result : Nat)
 | split (operand : Nat) (results : List Nat)
 | loop (id : Nat) (inits results : List Nat) (states : List (Nat × Nat × Nat)) (ports : List Nat)
   (body : List Node) (yields : List Nat)

def Node.observes : Node → List Nat
 | .plain _ _ _ states => states.map fun state => state.2.1
 | .join operands _ => operands
 | .split operand _ => [operand]
 | .loop _ _ _ states _ _ _ => states.map fun state => state.2.1

def Node.publishes : Node → List Nat
 | .plain _ _ _ states => states.map fun state => state.2.2
 | .join _ result => [result]
 | .split _ results => results
 | .loop _ _ _ states _ _ _ => states.map fun state => state.2.2

def Node.operands : Node → List Nat
 | .plain _ operands _ _ => operands
 | .join operands _ => operands
 | .split operand _ => [operand]
 | .loop _ inits _ _ _ _ _ => inits

def Node.results : Node → List Nat
 | .plain _ _ results _ => results
 | .join _ result => [result]
 | .split _ results => results
 | .loop _ _ results _ _ _ _ => results

/-- What a node observes are operands, what it publishes are results. -/
def Node.Ported (node : Node) : Prop :=
 node.observes ⊆ node.operands ∧ node.publishes ⊆ node.results

/-- A state is published by a node that observes the other one. -/
def Follows (nodes : List Node) (state later : Nat) : Prop :=
 ∃ node ∈ nodes, state ∈ node.observes ∧ later ∈ node.publishes

/-- The order the states make. -/
def Depends (nodes : List Node) : Nat → Nat → Prop :=
 Relation.ReflTransGen (Follows nodes)

/-! ## Chains -/

structure ChainState where
 written : Nat
 reads : List Nat

/-- One state left by a change that crossed several chains, standing for all of them until
something names one on its own. -/
structure Shared where
 chains : List Nat
 published : Nat
 after : Nat

structure Chains where
 /-- The number of the next value. -/
 next : Nat
 /-- The resource of a state value. -/
 types : Nat → Option StateResource
 /-- The chains the block carries, in order. -/
 keys : List Nat
 states : Nat → Option ChainState
 shared : Option Shared
 /-- The joins and splits: the operation each is placed at, before it or after it. -/
 inserted : List (Node × Nat × Bool)

def unsupported {α : Type} (what : String) : Except String α :=
 .error ("restructure does not support " ++ what)

def refuse (refused : Bool) (what : String) : Except String Unit :=
 if refused then unsupported what else .ok ()

def sameChains (held wanted : List Nat) : Bool :=
 held.length = wanted.length ∧ ∀ chain ∈ wanted, chain ∈ held

namespace Chains

variable (s : Chains)

def fresh (ty : Option StateResource) : Nat × Chains :=
 (s.next, { s with next := s.next + 1, types := Function.update s.types s.next ty })

def get (chain : Nat) : Except String ChainState :=
 match s.states chain with
 | some state => .ok state
 | none => unsupported "an effect on a chain its region does not carry"

def put (chain : Nat) (state : ChainState) : Chains :=
 { s with states := Function.update s.states chain (some state) }

/-- Fresh values of one type, by count. -/
def freshMany (ty : Option StateResource) (count : Nat) : List Nat × Chains :=
 (List.range' s.next count,
  { s with
    next := s.next + count
    types := fun value => if s.next ≤ value ∧ value < s.next + count then ty else s.types value })

def nameShared : Except String Chains :=
 match s.shared with
 | none => .ok s
 | some shared =>
  let (results, s) := { s with shared := none }.freshMany (s.types shared.published)
   shared.chains.length
  let s := { s with
   inserted := s.inserted ++ [(.split shared.published results, shared.after, true)] }
  (shared.chains.zip results).foldlM (fun s part => do
   let state ← s.get part.1
   return s.put part.1 { state with written := part.2 }) s

/-- The shared state stands for chains of the resource of this state. -/
def namesShared (written : Nat) : Bool :=
 match s.shared with
 | none => false
 | some shared =>
  match s.types written, s.types shared.published with
  | some written, some shared => written = shared
  | _, _ => true

def nameFor (written : Nat) : Except String Chains :=
 if s.namesShared written then s.nameShared else .ok s

def state (chain : Nat) : Except String (ChainState × Chains) := do
 let held ← s.get chain
 let s ← s.nameFor held.written
 let held ← s.get chain
 return (held, s)

/-- One state that follows several. -/
def merge (states : List Nat) (before : Nat) : Nat × Chains :=
 let (result, s) := s.fresh (s.types (states.headD 0))
 (result, { s with inserted := s.inserted ++ [(.join states result, before, false)] })

/-- The state that follows what a chain was written with and its reads. -/
def joinReads (held : ChainState) (before : Nat) : Nat × Chains :=
 match held.reads with
 | [] => (held.written, s)
 | [read] => (read, s)
 | reads => s.merge reads before

def closeFork (chain before : Nat) : Except String (Nat × Chains) := do
 let (held, s) ← s.state chain
 let (settled, s) := (s.put chain { held with reads := [] }).joinReads held before
 let (held, s) ← s.state chain
 return (settled, s.put chain { held with written := settled })

/-- Closes the forks of several chains, in order. -/
def closeForks (chains : List Nat) (before : Nat) : Except String (List Nat × Chains) :=
 chains.foldlM (fun closed chain => do
  let (settled, s) ← closed.2.closeFork chain before
  return (closed.1 ++ [settled], s)) ([], s)

def joinSettled (settled : List Nat) (before : Nat) : Nat × Chains :=
 match settled with
 | [one] => (one, s)
 | _ => s.merge settled before

def settle (chains : List Nat) (before : Nat) : Except String (Nat × Chains) :=
 match s.shared with
 | some shared =>
  if sameChains shared.chains chains then .ok (shared.published, s)
  else settleForks
 | none => settleForks
where
 settleForks : Except String (Nat × Chains) := do
  let (settled, s) ← s.closeForks chains before
  return s.joinSettled settled before

def split (chains : List Nat) (after published : Nat) : Except String Chains :=
 match chains with
 | [one] => do
   let (held, s) ← s.state one
   return s.put one { held with written := published }
 | _ => .ok { s with shared := some { chains, published, after } }

end Chains

/-! ## Threading -/

/-- An operation while its effects are threaded. -/
structure Threading where
 operands : List Nat
 results : List Nat
 states : List (StateResource × Nat × Nat)
 chains : Chains

/-- The operands with the state in the place of every state observed before. -/
def setObserved (operands : List Nat) (previous : List Nat) (observed : Nat) : Except String (List Nat) :=
 if previous = [] then .ok (operands ++ [observed])
 else
  previous.foldlM (fun threaded value =>
   if value ∈ operands then .ok (threaded.set (operands.idxOf value) observed)
   else unsupported "an effect whose dependency is not an operand") operands

/-- The state an effect observes. -/
def observe (s : Chains) (id : Nat) (touched : List Nat) : ResourceAccess → Except String (Nat × Chains)
 | .read => do
   let (held, s) ← s.state (touched.headD 0)
   return (held.written, s)
 | .change => s.settle touched id

/-- Leaves the state an effect publishes on its chains. -/
def leaveState (s : Chains) (id : Nat) (touched : List Nat) (published : Nat) :
  ResourceAccess → StateResource → Except String Chains
 | .read, .memory => do
   let (held, s) ← s.state (touched.headD 0)
   return s.put (touched.headD 0) { held with reads := held.reads ++ [published] }
 | .read, .fpEnv => do
   let (held, s) ← s.state (touched.headD 0)
   return s.put (touched.headD 0) { held with written := published }
 | .change, _ => s.split touched id published

/-- The state an effect publishes: the one it already produces, or a new result. -/
def publish (s : Chains) (results : List Nat) (produced : List Nat) (ty : StateResource) : Nat × List Nat × Chains :=
 match produced with
 | published :: _ => (published, results, s)
 | [] => ((s.fresh (some ty)).1, results ++ [(s.fresh (some ty)).1], (s.fresh (some ty)).2)

def threadEffect (plan : Plan) (id : Nat) (t : Threading) (effect : ResourceEffect) : Except String Threading :=
 match plan.touched id effect.resource with
 | none => .ok t
 | some touched => do
   let (observed, s) ← observe t.chains id touched effect.access
   let operands ← setObserved t.operands effect.observed observed
   let (published, results, s) :=
    publish s t.results effect.produced (plan.resource (touched.headD 0))
   let s ← leaveState s id touched published effect.access effect.resource
   return ⟨operands, results, t.states ++ [(effect.resource, observed, published)], s⟩

/-- One fresh state for each chain. -/
def portsOf (plan : Plan) (chains : List Nat) (s : Chains) : List Nat × Chains :=
 (List.range' s.next chains.length,
  { s with
    next := s.next + chains.length
    types := fun value =>
     if s.next ≤ value ∧ value < s.next + chains.length then
      chains[value - s.next]?.map plan.resource
     else s.types value })

def writeAll (s : Chains) (chains states : List Nat) : Except String Chains :=
 (chains.zip states).foldlM (fun s part => do
  let (held, s) ← s.state part.1
  return s.put part.1 { held with written := part.2 }) s

/-- The state of a chain after what leaves the block with it. -/
def Chains.leave (s : Chains) (terminator : Nat) : Except String (List Nat × Chains) :=
 s.closeForks s.keys terminator

/-- The chains a block starts on. -/
def Chains.enter (next : Nat) (types : Nat → Option StateResource) (entries : List (Nat × Nat)) : Chains where
 next := next
 types := types
 keys := entries.map Prod.fst
 states chain := (entries.lookup chain).map fun written => ⟨written, []⟩
 shared := none
 inserted := []

mutual

/-- Threads one operation; a loop's body is threaded on its ports. -/
def threadOp (plan : Plan) : Op → Chains → Except String (Node × Chains)
 | .plain id name operands results effects nested, s => do
   refuse (effects.isEmpty && nested) ("resource effects inside " ++ name)
   let t ← effects.foldlM (threadEffect plan id) ⟨operands, results, [], s⟩
   return (.plain id t.operands t.results t.states, t.chains)
 | .loop id inits results body latch yields graph, s => do
   let touched := plan.loopTouched id
   if touched.isEmpty then
    return (.loop id inits results [] [] [] yields, s)
   let (observed, s) ← s.closeForks touched id
   refuse graph "a counted loop whose body is a graph"
   let (ports, inside) := portsOf plan touched s
   let (nodes, inside) ← threadOps plan body
    (Chains.enter inside.next inside.types (touched.zip ports))
   let (leaving, inside) ← inside.leave latch
   let s := { s with next := inside.next, types := inside.types }
   let (published, s) := portsOf plan touched s
   let s ← writeAll s touched published
   return (.loop id (inits ++ observed) (results ++ published)
    (touched.zip (observed.zip published)) ports (nodes ++ inside.inserted.map Prod.fst)
    (yields ++ leaving), s)

def threadOps (plan : Plan) : List Op → Chains → Except String (List Node × Chains)
 | [], s => .ok ([], s)
 | op :: ops, s => do
   let (node, s) ← threadOp plan op s
   let (nodes, s) ← threadOps plan ops s
   return (node :: nodes, s)

end

/-- Threads a block off the states its chains are entered on: its operations with their states,
and the state each chain leaves the block with. -/
def threadBlock (plan : Plan) (next : Nat) (types : Nat → Option StateResource)
  (entries : List (Nat × Nat)) (ops : List Op) (terminator : Nat) :
  Except String (List Node × List (Nat × Nat) × Chains) := do
 let (nodes, s) ← threadOps plan ops (Chains.enter next types entries)
 let (leaving, s) ← s.leave terminator
 return (nodes, s.keys.zip leaving, s)

end Tir.Restructure
