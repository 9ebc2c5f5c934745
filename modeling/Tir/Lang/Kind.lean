import Tir.Adt.APInt
import Tir.Adt.Dag

/-!
# The semantic expression language: kinds, payloads and values

The operators of a semantic graph (`lang/mod.rs`) and the values the interpreter computes.
Floats are a type parameter `F`: their arithmetic is a record of functions (`Tir.Lang.Floats`)
that the interpreter calls.
-/

namespace Tir.Lang

open Tir.Adt

inductive SymKind where
 | symbol | constant
 | add | sub | mul | div | udiv | srem | urem | neg
 | eq | ne | lt | le | gt | ge | ult | ule | ugt | uge
 | shiftLeft | shiftRightArithmetic | shiftRightLogic
 | or | and | xor | xnor | not
 | concat | bitcast
 | ite | theta | loop | port | switch | clamp
 | loadMemory | storeMemory
 | zext | sext | extract
 | log2Ceil | sqrt | fma
 | fadd | fsub | fmul | fdiv
 | siToFP | uiToFP | fpToSI | fpToUI
 | map | zip | iterConcat | split | reduce | arg
 | loadReserved | storeConditional | atomicRmw | fence
 | stateAssign | stateStore | stateStoreConditional | stateFence | stateTrap | stateBlock
 | stateIf | stateTry | stateHandler | stateRead
 | fpEffect | iota
 | fmin | fmax | asFloat | fcvt
 | faddRound | fsubRound | fmulRound | fdivRound | fmaRound | sqrtRound | fcvtRound
 | siToFPRound | uiToFPRound | fpToSIRound | fpToUIRound | fpFlags
 | undef | poison | freeze
deriving DecidableEq, Repr

/-- The read-modify-write operations of `atomicRmw`, coded 0..8 in its first child. -/
inductive AtomicRmwOp where
 | add | swap | xor | and | or | min | max | minU | maxU
deriving DecidableEq, Repr

def AtomicRmwOp.fromCode : Nat → Option AtomicRmwOp
 | 0 => some .add
 | 1 => some .swap
 | 2 => some .xor
 | 3 => some .and
 | 4 => some .or
 | 5 => some .min
 | 6 => some .max
 | 7 => some .minU
 | 8 => some .maxU
 | _ => none

/-- The ordering annotation of the atomic kinds. -/
inductive MemOrdering where
 | relaxed | acquire | release | acqRel | seqCst
deriving DecidableEq, Repr

/-- The ordering for code 0..4; any other code is relaxed. -/
def MemOrdering.fromCode : Nat → MemOrdering
 | 1 => .acquire
 | 2 => .release
 | 3 => .acqRel
 | 4 => .seqCst
 | _ => .relaxed

inductive SymPayload (V F : Type) where
 | symbolId (id : Nat)
 | value (v : V)
 | int (v : APInt)
 | float (v : F)

/-- A semantic graph. -/
abbrev Graph (V F : Type) := Dag SymKind (SymPayload V F)

/-- A value computed by the interpreter. -/
inductive Value (F : Type) where
 | int (v : APInt)
 | float (v : F)
 | iterator (elements : List (Value F))
 | rawBits (v : RawBits)

namespace Value

variable {F : Type}

def asInt : Value F → Option APInt
 | .int v => some v
 | _ => none

def asFloat : Value F → Option F
 | .float v => some v
 | _ => none

def asIterator : Value F → Option (List (Value F))
 | .iterator elements => some elements
 | _ => none

/-- The integer a scalar operator reads: none for floats and iterators. The outer option is
the panic of `RawBits::to_apint` on no bytes. -/
def integerView : Value F → Option (Option APInt)
 | .int v => some (some v)
 | .rawBits r => r.toAPInt.map some
 | .float _ => some none
 | .iterator _ => some none

end Value

/-- What an effectful node submits to the memory backend: one call of a `Memory` method. -/
inductive MemoryOp where
 | readMemory (address size : Nat)
 | readMemoryBytes (address size : Nat)
 | writeMemory (address size value : Nat)
 | writeMemoryBytes (address size : Nat) (value : RawBits)
 | loadReserved (address size : Nat) (ord : MemOrdering)
 | storeConditional (address size value : Nat) (ord : MemOrdering)
 | atomicRmw (op : AtomicRmwOp) (address size value : Nat) (ord : MemOrdering)
 | fence (pred succ kind : Nat)

/-- What the backend returns for an accepted operation. -/
def MemoryOp.Reply : MemoryOp → Type
 | .readMemory .. => Nat
 | .readMemoryBytes .. => RawBits
 | .writeMemory .. => Unit
 | .writeMemoryBytes .. => Unit
 | .loadReserved .. => Nat
 | .storeConditional .. => Bool
 | .atomicRmw .. => Nat
 | .fence .. => Unit

/-- The kinds that submit an operation when they are evaluated. -/
def SymKind.effectful : SymKind → Bool
 | .loadMemory => true
 | .storeMemory => true
 | .loadReserved => true
 | .storeConditional => true
 | .atomicRmw => true
 | .fence => true
 | _ => false

end Tir.Lang
