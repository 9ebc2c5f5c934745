import Tir.Backend.NaturalLoops

/-!
# Machine code in strict SSA form

The code of a machine function: per block its parameters and its operations. A branch leaves its
block where it stands: the operations after a conditional branch run only when it is not
taken, and an `asm.vbr` ends its block and passes arguments to the parameters of its target.
`StrictSSA` says that every name has one definition and that every path from the entry to a
read passes the definition of what it reads. `Runs` is the execution along a path, with the
operands every operation has read. `Livein` is the relation the liveness rules of the allocator
derive, by blocks.
-/

namespace Tir.RegAlloc

open Tir.Graph Tir.Backend

/-- An operation, with the parallel copy that stands right before it. -/
structure Instr (n : Nat) (N : Type) where
 /-- Result and source of each copy; they read and write at once. -/
 copies : List (N × N)
 uses : List N
 /-- What an `asm.vbr` passes to the parameters of its target. -/
 args : List N
 defs : List N
 succs : List (Fin n)
 vbr : Bool

/-- The environment after the names take the values, all at once. -/
def assign {N Val : Type} [DecidableEq N] (env : N → Val) (names : List N) (values : List Val) : N → Val :=
 fun x => ((names.zip values).lookup x).getD (env x)

namespace Instr

variable {n : Nat} {N : Type} (op : Instr n N)

def reads : List N := op.uses ++ op.args

def copied : List N := op.copies.map Prod.fst

def defined : List N := op.copied ++ op.defs

/-- The environment after the copies of an operation. -/
def copyEnv {Val : Type} [DecidableEq N] (env : N → Val) : N → Val :=
 assign env op.copied (op.copies.map fun c => env c.2)

end Instr

/-- Per block, its parameters and its operations. -/
structure Code (n : Nat) (N : Type) where
 params : Fin n → List N
 ops : Fin n → List (Instr n N)

/-- A place that defines a name. -/
inductive DefSite (n : Nat) where
 | param (block : Fin n) (position : Nat)
 | copy (block : Fin n) (index position : Nat)
 | result (block : Fin n) (index position : Nat)

namespace Code

variable {n : Nat} {N : Type} (f : Code n N)

def definesAt : DefSite n → Option N
 | .param block position => (f.params block)[position]?
 | .copy block index position => (f.ops block)[index]?.bind fun op => op.copied[position]?
 | .result block index position => (f.ops block)[index]?.bind fun op => op.defs[position]?

/-- A parameter or a result of the block. -/
def DefinedIn (block : Fin n) (x : N) : Prop :=
 x ∈ f.params block ∨ ∃ op ∈ f.ops block, x ∈ op.defs

/-! ## Strict SSA form -/

/-- A path from the entry leads to the operation at an index of a block, past the definitions of
these names. -/
inductive Reaches (entry : Fin n) : Fin n → Nat → List N → Prop
 | entry : Reaches entry entry 0 (f.params entry)
 | next {b : Fin n} {i : Nat} {D : List N} {op : Instr n N} : Reaches entry b i D →
   (f.ops b)[i]? = some op → op.vbr = false → Reaches entry b (i + 1) (D ++ op.defined)
 | jump {b x : Fin n} {i : Nat} {D : List N} {op : Instr n N} : Reaches entry b i D →
   (f.ops b)[i]? = some op → x ∈ op.succs → Reaches entry x 0 (D ++ op.defined ++ f.params x)

structure StrictSSA (entry : Fin n) : Prop where
 unique : ∀ s t x, f.definesAt s = some x → f.definesAt t = some x → s = t
 /-- Every path to a read passes the definition of the name read. -/
 dominated : ∀ b i D op, f.Reaches entry b i D → (f.ops b)[i]? = some op →
  (∀ c ∈ op.copies, c.2 ∈ D) ∧ ∀ x ∈ op.reads, x ∈ D ++ op.copied

/-! ## Execution -/

section

variable {Val S : Type}

/-- The operands an operation reads, where it stands. -/
structure Event (n : Nat) (Val : Type) where
 block : Fin n
 index : Nat
 values : List Val

/-- The executions of the code from an environment and a state, along every path. An operation
is interpreted by its place; it takes the values of its operands and the state to its results
and a new state. -/
inductive Runs [DecidableEq N] (entry : Fin n)
  (interp : Fin n → Nat → S → List Val → S × List Val) (env₀ : N → Val) (σ₀ : S) :
  Fin n → Nat → (N → Val) → S → List (Event n Val) → Prop
 | entry : Runs entry interp env₀ σ₀ entry 0 env₀ σ₀ []
 | next {b : Fin n} {i : Nat} {env : N → Val} {σ : S} {log : List (Event n Val)}
   {op : Instr n N} : Runs entry interp env₀ σ₀ b i env σ log →
   (f.ops b)[i]? = some op → op.vbr = false →
   Runs entry interp env₀ σ₀ b (i + 1)
    (assign (op.copyEnv env) op.defs (interp b i σ (op.uses.map (op.copyEnv env))).2)
    (interp b i σ (op.uses.map (op.copyEnv env))).1
    (log ++ [⟨b, i, op.reads.map (op.copyEnv env)⟩])
 | jump {b x : Fin n} {i : Nat} {env : N → Val} {σ : S} {log : List (Event n Val)}
   {op : Instr n N} : Runs entry interp env₀ σ₀ b i env σ log →
   (f.ops b)[i]? = some op → x ∈ op.succs →
   Runs entry interp env₀ σ₀ x 0
    (assign (assign (op.copyEnv env) op.defs (interp b i σ (op.uses.map (op.copyEnv env))).2)
     (f.params x) (op.args.map (op.copyEnv env)))
    (interp b i σ (op.uses.map (op.copyEnv env))).1
    (log ++ [⟨b, i, op.reads.map (op.copyEnv env)⟩])

end

/-! ## Liveness -/

/-- The values live into a block, by the rules of the allocator: a value read in the block, or
live into a successor, that another block defines. -/
inductive Livein (edges : Fin n → List (Fin n)) : Fin n → N → Prop
 | use {b d : Fin n} {x : N} {op : Instr n N} : op ∈ f.ops b → x ∈ op.reads →
   f.DefinedIn d x → d ≠ b → Livein edges b x
 | out {b s d : Fin n} {x : N} : s ∈ edges b → Livein edges s x →
   f.DefinedIn d x → d ≠ b → Livein edges b x

def Liveout (edges : Fin n → List (Fin n)) (b : Fin n) (x : N) : Prop :=
 ∃ s ∈ edges b, f.Livein edges s x

end Code

/-- A machine function before the split: no parallel copies yet. A conditional branch passes no
arguments, so that the blocks it enters take none. -/
structure MachineFunction (B : Type) [DecidableEq B] where
 cfg : MachineCfg B
 code : Code cfg.size Nat
 edges_iff : ∀ a b, b ∈ cfg.edges a ↔ ∃ op ∈ code.ops a, b ∈ op.succs
 no_copies : ∀ b, ∀ op ∈ code.ops b, op.copies = []
 vbr_last : ∀ b i op, (code.ops b)[i]? = some op → op.vbr = true → i + 1 = (code.ops b).length
 vbr_args : ∀ b, ∀ op ∈ code.ops b, op.vbr = true →
  op.defs = [] ∧ ∃ x, op.succs = [x] ∧ op.args.length = (code.params x).length
 branch_args : ∀ b, ∀ op ∈ code.ops b, op.vbr = false →
  op.args = [] ∧ ∀ x ∈ op.succs, code.params x = []
 strict : code.StrictSSA cfg.entry

end Tir.RegAlloc
