import Tir.Lang.Eval

/-!
# The resumable interpreter

`Continuation` is a suspended evaluation: a stack of frames (the top frame first) over a
stack of contexts, each with the values computed so far. `Continuation.step` is one turn of the
loop of `resume`: it moves on by itself, submits one memory operation, or panics. `resume`
runs turns until the stack is empty, the backend rejects an operation, or the machine
panics. A rejected operation leaves the continuation as it was before the turn.

`Backend` is the memory: it accepts an operation in one step. Which attempts it rejects is not
its own choice but a list of booleans, consumed one per attempt; past the end of the list
every attempt is accepted.
-/

namespace Tir.Lang

open Tir.Adt

inductive EvalFrame (F : Type) where
 | node (node context nextChild : Nat)
 | map (node context body : Nat) (elements : Option (List (Value F))) (lane : Nat)
   (laneContext : Option Nat) (results : List (Value F))
 | reduce (node context body : Nat) (elements : Option (List (Value F))) (lane : Nat)
   (laneContext : Option Nat) (accumulator : Option (Value F))

structure EvalContext (F : Type) where
 cache : Cache F
 args : List (Value F)

structure Continuation (F : Type) where
 root : Nat
 contexts : List (EvalContext F)
 stack : List (EvalFrame F)

/-- What one turn of the loop does. -/
inductive Step (F : Type) where
 | panic
 | next (cont : Continuation F)
 | submit (op : MemoryOp) (accepted : op.Reply → Option (Continuation F))

def Step.ofOption {F : Type} : Option (Continuation F) → Step F
 | some cont => .next cont
 | none => .panic

section

variable {V F : Type} (fl : Floats F) (g : Graph V F) (symbols : List (Value F))

/-- Stores the value of a node in the cache of a context. -/
def setCache (contexts : List (EvalContext F)) (context node : Nat) (value : Option (Value F)) : List (EvalContext F) :=
 contexts.modify context fun cx => { cx with cache := cx.cache.set node value }

/-- The cache of a context; an index past the end is a panic. -/
def cacheOf (contexts : List (EvalContext F)) (context : Nat) : Option (Cache F) :=
 (contexts[context]?).map (·.cache)

namespace Continuation

def new : Option (Continuation F) :=
 g.root.map fun root =>
  { root := root
    contexts := [{ cache := List.replicate g.len none, args := [] }]
    stack := [.node root 0 0] }

/-- The arm an `ite` or a `switch` with this selector evaluates, as the index of a child. -/
def armIndex (kind : SymKind) (arity : Nat) (selector : Value F) : Option Nat :=
 if kind = .ite then (scalarIsZero fl selector).map fun zero => if zero then 2 else 1
 else
  match selector.asInt with
  | some v => if v.toU64 + 1 < 2 ^ 64 then some (min (v.toU64 + 1) (arity - 1)) else none
  | none => none

/-- The child the frame looks at next: `some none` when the operands are ready. Only the
chosen arm of `ite` and `switch` is looked at. -/
def childIndex (kind : SymKind) (node nextChild : Nat) (cache : Cache F) : Option (Option Nat) :=
 if kind = .ite ∨ kind = .switch then
  match nextChild with
  | 0 => some (some 0)
  | 1 =>
   ((childVal g node 0 cache).bind (armIndex fl kind (children g node).length)).map some
  | _ => some none
 else some (if nextChild < (children g node).length then some nextChild else none)

/-- Evaluates a node whose operands are ready: its value goes to the cache, now or when the
backend has accepted its operation, and its frame is popped. -/
def finishNode (root : Nat) (contexts : List (EvalContext F)) (rest : List (EvalFrame F))
  (node context : Nat) (cx : EvalContext F) : Step F :=
 let finish (value : Value F) : Continuation F :=
  { root := root, contexts := setCache contexts context node (some value), stack := rest }
 match evalReady fl g node symbols cx.cache cx.args with
 | none => .panic
 | some (.value value) => .next (finish value)
 | some (.submit op accepted) => .submit op fun reply => (accepted reply).map finish

/-- Looks at the next operand of a node: an operand without a value is evaluated first. -/
def stepOperands (root : Nat) (contexts : List (EvalContext F)) (rest : List (EvalFrame F))
  (node context nextChild : Nat) (kind : SymKind) (cx : EvalContext F) : Step F :=
 match childIndex fl g kind node nextChild cx.cache with
 | none => .panic
 | some none => finishNode fl g symbols root contexts rest node context cx
 | some (some index) =>
  match (children g node)[index]? with
  | none => .panic
  | some child =>
   if (cached cx.cache child).isSome then
    .next ⟨root, contexts, .node node context (nextChild + 1) :: rest⟩
   else
    .next ⟨root, contexts, .node child context 0 :: .node node context nextChild :: rest⟩

/-- One turn with a node frame on top. -/
def stepNode (root : Nat) (contexts : List (EvalContext F)) (rest : List (EvalFrame F))
  (node context nextChild : Nat) : Step F :=
 match contexts[context]?, g.nodes[node]? with
 | some cx, some n =>
  if (cached cx.cache node).isSome then .next ⟨root, contexts, rest⟩
  else if n.label = .map ∧ nextChild = 0 then
   match n.children[1]? with
   | some body => .next ⟨root, contexts, .map node context body none 0 none [] :: rest⟩
   | none => .panic
  else if n.label = .reduce ∧ nextChild = 0 then
   match n.children[1]? with
   | some body => .next ⟨root, contexts, .reduce node context body none 0 none none :: rest⟩
   | none => .panic
  else stepOperands fl g symbols root contexts rest node context nextChild n.label cx
 | _, _ => .panic

/-- A fresh context for one lane: the arguments of the outer context and the lane's binding. -/
def newLambdaContext (contexts : List (EvalContext F)) (outer : Nat) (binding : Value F) :
  Option (List (EvalContext F)) := do
 let cx ← contexts[outer]?
 some (contexts ++ [{ cache := List.replicate g.len none, args := cx.args ++ [binding] }])

/-- The iterator operand of a map or reduce: `some none` while it is not evaluated. -/
def iteratorOf (contexts : List (EvalContext F)) (node context : Nat) :
  Option (Nat × Option (List (Value F))) := do
 let iter ← (children g node)[0]?
 let cache ← cacheOf contexts context
 match cached cache iter with
 | none => some (iter, none)
 | some value => do some (iter, some (← value.asIterator))

/-- One turn of a map frame whose elements are there. -/
def stepMapLanes (root : Nat) (contexts : List (EvalContext F)) (rest : List (EvalFrame F))
  (node context body : Nat) (values : List (Value F)) (lane : Nat) (laneContext : Option Nat)
  (results : List (Value F)) : Option (Continuation F) :=
 if lane = values.length then do
  let _ ← cacheOf contexts context
  some ⟨root, setCache contexts context node (some (.iterator results)), rest⟩
 else
  match laneContext with
  | some inner => do
    let cache ← cacheOf contexts inner
    match cached cache body with
    | some value =>
     some ⟨root, contexts.take inner,
      .map node context body (some values) (lane + 1) none (results ++ [value]) :: rest⟩
    | none => some ⟨root, contexts, rest⟩
  | none => do
    let element ← values[lane]?
    let extended ← newLambdaContext g contexts context element
    some ⟨root, extended,
     .node body contexts.length 0 ::
      .map node context body (some values) lane (some contexts.length) results :: rest⟩

def stepMap (root : Nat) (contexts : List (EvalContext F)) (rest : List (EvalFrame F))
  (node context body : Nat) (elements : Option (List (Value F))) (lane : Nat)
  (laneContext : Option Nat) (results : List (Value F)) : Option (Continuation F) :=
 match elements with
 | some values =>
  stepMapLanes g root contexts rest node context body values lane laneContext results
 | none => do
   match ← iteratorOf g contexts node context with
   | (_, some values) =>
    stepMapLanes g root contexts rest node context body values lane laneContext results
   | (iter, none) =>
    some ⟨root, contexts,
     .node iter context 0 ::
      .map node context body none lane laneContext results :: rest⟩

/-- One turn of a reduce frame whose elements are there. -/
def stepReduceLanes (root : Nat) (contexts : List (EvalContext F)) (rest : List (EvalFrame F))
  (node context body : Nat) (values : List (Value F)) (lane : Nat) (laneContext : Option Nat)
  (accumulator : Option (Value F)) : Option (Continuation F) :=
 if lane = values.length then do
  let _ ← cacheOf contexts context
  some ⟨root, setCache contexts context node accumulator, rest⟩
 else
  match laneContext with
  | some inner => do
    let cache ← cacheOf contexts inner
    match cached cache body with
    | some value =>
     some ⟨root, contexts.take inner,
      .reduce node context body (some values) (lane + 1) none (some value) :: rest⟩
    | none => some ⟨root, contexts, rest⟩
  | none => do
    let acc ← accumulator
    let element ← values[lane]?
    let extended ← newLambdaContext g contexts context (.iterator [acc, element])
    some ⟨root, extended,
     .node body contexts.length 0 ::
      .reduce node context body (some values) lane (some contexts.length) accumulator ::
       rest⟩

def stepReduce (root : Nat) (contexts : List (EvalContext F)) (rest : List (EvalFrame F))
  (node context body : Nat) (elements : Option (List (Value F))) (lane : Nat)
  (laneContext : Option Nat) (accumulator : Option (Value F)) : Option (Continuation F) :=
 match elements with
 | some values =>
  stepReduceLanes g root contexts rest node context body values lane laneContext accumulator
 | none => do
   match ← iteratorOf g contexts node context with
   | (_, some values) => do
     -- The first lane is the initial accumulator: an empty iterator is a panic.
     let first ← values.head?
     stepReduceLanes g root contexts rest node context body values 1 laneContext (some first)
   | (iter, none) =>
    some ⟨root, contexts,
     .node iter context 0 ::
      .reduce node context body none lane laneContext accumulator :: rest⟩

/-- One turn of the loop of `resume`. -/
def step (cont : Continuation F) : Step F :=
 match cont.stack with
 | [] => .panic
 | .node node context nextChild :: rest =>
  stepNode fl g symbols cont.root cont.contexts rest node context nextChild
 | .map node context body elements lane laneContext results :: rest =>
  .ofOption (stepMap g cont.root cont.contexts rest node context body elements lane laneContext
   results)
 | .reduce node context body elements lane laneContext accumulator :: rest =>
  .ofOption (stepReduce g cont.root cont.contexts rest node context body elements lane
   laneContext accumulator)

/-- The value of the root, once the stack is empty. -/
def rootValue (cont : Continuation F) : Option (Value F) := do
 cached (← cacheOf cont.contexts 0) cont.root

end Continuation

end

/-! ## Backends and resumption -/

/-- A memory that accepts every operation atomically; `none` is a panic of the backend. -/
structure Backend (σ : Type) where
 accept : (op : MemoryOp) → σ → Option (op.Reply × σ)

/-- How a call of `resume` ends: the value, a rejection that leaves a continuation to resume, a
panic, or the end of the fuel. -/
inductive Resumed (F : Type) where
 | returned (value : Value F)
 | rejected (cont : Continuation F)
 | panicked
 | unfinished

/-- The outcome of a call or a run with the operations accepted in it, in order, the memory
after it and the rejections not yet used. -/
structure Outcome (F σ : Type) where
 result : Resumed F
 accepted : List MemoryOp
 memory : σ
 pending : List Bool

variable {V F σ : Type} (fl : Floats F) (g : Graph V F) (symbols : List (Value F)) (backend : Backend σ)

/-- The end of a call when the stack is empty; else the loop goes on. -/
def settle (cont : Continuation F) (go : Unit → Outcome F σ) (accepted : List MemoryOp)
  (memory : σ) (pending : List Bool) : Outcome F σ :=
 if cont.stack.isEmpty then
  match cont.rootValue with
  | some value => ⟨.returned value, accepted, memory, pending⟩
  | none => ⟨.panicked, accepted, memory, pending⟩
 else go ()

/-- `Continuation::resume` from a continuation with a nonempty stack, with `fuel` turns. -/
def resumeLoop : Nat → Continuation F → List MemoryOp → σ → List Bool → Outcome F σ
 | 0, _, accepted, memory, pending => ⟨.unfinished, accepted, memory, pending⟩
 | fuel + 1, cont, accepted, memory, pending =>
  match cont.step fl g symbols with
  | .panic => ⟨.panicked, accepted, memory, pending⟩
  | .next after =>
   settle after (fun _ => resumeLoop fuel after accepted memory pending) accepted memory
    pending
  | .submit op reply =>
   if pending.headD false then ⟨.rejected cont, accepted, memory, pending.tail⟩
   else
    match backend.accept op memory with
    | none => ⟨.panicked, accepted, memory, pending.tail⟩
    | some (answer, memory') =>
     match reply answer with
     | none => ⟨.panicked, accepted ++ [op], memory', pending.tail⟩
     | some after =>
      settle after
       (fun _ => resumeLoop fuel after (accepted ++ [op]) memory' pending.tail)
       (accepted ++ [op]) memory' pending.tail

/-- A call of `resume`: a finished continuation returns its root at once. -/
def resume (fuel : Nat) (cont : Continuation F) (accepted : List MemoryOp) (memory : σ)
  (pending : List Bool) : Outcome F σ :=
 settle cont (fun _ => resumeLoop fl g symbols backend fuel cont accepted memory pending)
  accepted memory pending

/-- Calls `resume` again after every rejection, `calls` times at most. -/
def drive (fuel : Nat) : Nat → Continuation F → List MemoryOp → σ → List Bool → Outcome F σ
 | 0, _, accepted, memory, pending => ⟨.unfinished, accepted, memory, pending⟩
 | calls + 1, cont, accepted, memory, pending =>
  let outcome := resume fl g symbols backend fuel cont accepted memory pending
  match outcome.result with
  | .rejected after => drive fuel calls after outcome.accepted outcome.memory outcome.pending
  | _ => outcome

/-- The backend of `execute`: every memory operation is a panic. -/
def noMemory : Backend Unit := ⟨fun _ _ => none⟩

/-- `execute_with_memory`: one call of `resume` on a new continuation, no rejection. -/
def executeWithMemory (fuel : Nat) (memory : σ) : Outcome F σ :=
 match Continuation.new g with
 | none => ⟨.panicked, [], memory, []⟩
 | some cont => resume fl g symbols backend fuel cont [] memory []

/-- The same evaluation through a continuation that is resumed after each rejection. -/
def executeResuming (fuel : Nat) (memory : σ) (rejections : List Bool) : Outcome F σ :=
 match Continuation.new g with
 | none => ⟨.panicked, [], memory, rejections⟩
 | some cont =>
  drive fl g symbols backend fuel (rejections.length + 1) cont [] memory rejections

end Tir.Lang
