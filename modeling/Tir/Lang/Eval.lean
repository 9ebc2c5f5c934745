import Tir.Lang.Ops

/-!
# Evaluating a node whose operands are ready

`evalReady` is the source's `eval_ready`: the value of a node from the cached values of its
children, or the one memory operation it submits together with what it makes of the
reply. `none` is a panic. Float arithmetic is reached through the record `Floats`.
-/

namespace Tir.Lang

open Tir.Adt

/-- The rounding modes of the rounded float kinds. -/
inductive RoundingMode where
 | tiesToEven | towardZero | towardNegative | towardPositive | tiesToAway
deriving DecidableEq, Repr

/-- The float library as the interpreter uses it. A `none` is a panic of the library. -/
structure Floats (F : Type) where
 isZero : F → Bool
 add : F → F → F
 sub : F → F → F
 mul : F → F → F
 div : F → F → F
 minnum : F → F → F
 maxnum : F → F → F
 fma : F → F → F → F
 sqrt : F → F
 compare : F → F → Option Ordering
 fromBits : Nat → Nat → Nat → Option F
 toBits : F → Nat
 bitWidth : F → Nat
 convert : F → Nat → Nat → Option F
 /-- An integer as a float of the given exponent and mantissa widths. -/
 fromInt : Int → Nat → Nat → Option F
 toI64 : F → Int
 toU64 : F → Nat
 /-- The square root of a 64-bit integer, taken in double precision and truncated. -/
 sqrtU64 : Nat → Nat
 /-- `eval_float`: operation, source and destination widths, operands, rounding; the
 result's bits and its exception flags. -/
 evalRounded : SymKind → Nat → Nat → List Nat → RoundingMode → Option (Nat × Nat)

/-- The values computed so far in one context, by node. -/
abbrev Cache (F : Type) := List (Option (Value F))

variable {V F : Type}

def children (g : Graph V F) (node : Nat) : List Nat :=
 match g.nodes[node]? with
 | some n => n.children
 | none => []

def kindOf (g : Graph V F) (node : Nat) : Option SymKind := (g.nodes[node]?).map (·.label)

def leafOf (g : Graph V F) (node : Nat) : Option (SymPayload V F) :=
 (g.nodes[node]?).bind (·.leaf)

def cached (cache : Cache F) (node : Nat) : Option (Value F) := (cache[node]?).join

def childVal (g : Graph V F) (node idx : Nat) (cache : Cache F) : Option (Value F) := do
 let child ← (children g node)[idx]?
 cached cache child

/-! ## Scalars, raw bits and lanes -/

variable (fl : Floats F)

def scalarIsZero : Value F → Option Bool
 | .int v => some v.isZero
 | .float v => some (fl.isZero v)
 | .iterator _ => none
 | .rawBits _ => none

def scalarEqual (lhs rhs : Value F) : Option Bool :=
 match lhs, rhs with
 | .int a, .int b => do
   let (x, y) ← coerceInts a b
   some (decide (x = y))
 | .float a, .float b => some (fl.compare a b == some .eq)
 | _, _ => none

/-- Division and remainder of integers are total: a zero divisor folds as SMT-LIB says. The
outer option is a panic, the inner one a node that is no integer division. -/
def evalDivrem (kind : SymKind) (c : Nat → Option (Value F)) : Option (Option (Value F)) :=
 let divrem (signed quotient : Bool) : Option (Option (Value F)) := do
  let x ← (← c 0).integerView
  let y ← (← c 1).integerView
  match x, y with
  | some a, some b => do
    let (a, b) ← coerceInts a b
    let result ←
     if b.isZero then
      match signed, quotient with
      | false, true => some a.maxUnsigned
      | true, true =>
       if (a.withSigned true).isNegative then APInt.newSigned a.width 1
       else APInt.newSigned a.width (-1)
      | _, false => some a
     else
      match signed, quotient with
      | true, true => a.sdiv b
      | false, true => a.udiv b
      | true, false => a.srem b
      | false, false => a.urem b
    some (some (.int result))
  | _, _ => some none
 match kind with
 | .div => divrem true true
 | .udiv => divrem false true
 | .srem => divrem true false
 | .urem => divrem false false
 | _ => some none

/-- The operands of a table entry when all of them are integers; reading stops at the first
that is not. -/
def integerOperands (c : Nat → Option (Value F)) : List Nat → Option (Option (List APInt))
 | [] => some (some [])
 | index :: rest => do
   match ← (← c index).integerView with
   | none => some none
   | some v => do
     let others ← integerOperands c rest
     some (others.map (v :: ·))

/-- The exponent and mantissa widths of the binary format of a width. -/
def floatFormat : Nat → Option (Nat × Nat)
 | 16 => some (5, 10)
 | 32 => some (8, 23)
 | 64 => some (11, 52)
 | _ => none

def floatBinop (f : F → F → F) (lhs rhs : Value F) : Option (Value F) :=
 match lhs, rhs with
 | .float a, .float b => some (.float (f a b))
 | .int a, .int b => do
   let width := max a.width b.width
   let (exponent, mantissa) ← floatFormat width
   let x ← fl.fromBits exponent mantissa a.toU64
   let y ← fl.fromBits exponent mantissa b.toU64
   let result ← APInt.new width (fl.toBits (f x y) % 2 ^ 64)
   some (.int result)
 | _, _ => none

def rawBitsOfFloat (v : F) : RawBits := RawBits.ofNat ((fl.bitWidth v + 7) / 8) (fl.toBits v)

def asRawBits : Value F → Option RawBits
 | .rawBits r => some r
 | .int v => some (RawBits.fromAPInt v)
 | .float v => some (rawBitsOfFloat fl v)
 | .iterator _ => none

def intLanes (lanes : List RawBits) : Option (Value F) := do
 let ints ← lanes.mapM RawBits.toAPInt
 some (.iterator (ints.map .int))

def splitBits (value : Value F) (n : Nat) : Option (Value F) := do
 let bits ← asRawBits fl value
 intLanes (← bits.split n)

/-- `n` lanes of `width` bits from the low end; lanes that are no whole bytes are cut bit by
bit and hold at most 64 bits. -/
def splitBitsLanes (value : Value F) (n width : Nat) : Option (Value F) := do
 let bits ← asRawBits fl value
 if width % 8 ≠ 0 then
  if width ≤ 64 then do
   let lanes ← (List.range n).mapM fun lane =>
    APInt.new width (bits.bits.extractLsb' (lane * width) width).toNat
   some (.iterator (lanes.map .int))
  else none
 else intLanes (← bits.splitLanes n width)

/-- A lane as its width and its bits; an integer lane gives its low word only. -/
def laneBits : Value F → Option (Nat × Nat)
 | .int v => some (v.width, v.toU64)
 | .float v => some (fl.bitWidth v, (rawBitsOfFloat fl v).bits.toNat)
 | .rawBits r => some (r.width, r.bits.toNat)
 | .iterator _ => none

/-- How many bits of a lane are stored: eight bytes for an integer, whole bytes else. -/
def laneStored : Value F → Nat
 | .int _ => 64
 | .float v => 8 * ((fl.bitWidth v + 7) / 8)
 | .rawBits r => r.width
 | .iterator _ => 0

/-- The lanes joined from the low end into whole bytes; a lane wider than its stored bytes is
an index out of range. -/
def concatLanes (lanes : List (Value F)) : Option (Value F) := do
 let parts ← lanes.mapM (laneBits fl)
 if lanes.all fun lane => ((laneBits fl lane).map (·.1)).getD 0 ≤ laneStored fl lane then
  let total := (parts.map (·.1)).sum
  let value := parts.foldr (fun part high => high * 2 ^ part.1 + part.2 % 2 ^ part.1) 0
  some (.rawBits (RawBits.ofNat ((total + 7) / 8) value))
 else none

/-! ## The pure kinds, family by family -/

def evalArg (g : Graph V F) (node : Nat) (args : List (Value F)) : Option (Value F) :=
 match leafOf g node with
 | some (.int idx) =>
  match args.getLast? with
  | some (.iterator parts) => parts[idx.toU64]?
  | some scalar => if idx.toU64 = 0 then some scalar else none
  | none => none
 | _ => none

def evalLeaf (g : Graph V F) (node : Nat) (kind : SymKind) (symbols : List (Value F)) : Option (Value F) :=
 match kind, leafOf g node with
 | .symbol, some (.symbolId id) => symbols[id]?
 | .symbol, _ => none
 | _, some (.int v) => some (.int v)
 | _, some (.float v) => some (.float v)
 | _, _ => none

def evalZip (arity : Nat) (c : Nat → Option (Value F)) : Option (Value F) := do
 let iters ← (List.range arity).mapM fun slot => do (← c slot).asIterator
 let first ← iters.head?
 if iters.all fun iter => iter.length == first.length then
  let lanes ← (List.range first.length).mapM fun lane => iters.mapM fun iter => iter[lane]?
  some (.iterator (lanes.map .iterator))
 else none

def evalIterator (g : Graph V F) (node : Nat) (kind : SymKind) (c : Nat → Option (Value F)) : Option (Value F) :=
 let arity := (children g node).length
 match kind with
 | .zip => evalZip arity c
 | .split => do
   let count ← (← c 1).asInt
   if 2 < arity then do
    let width ← (← c 2).asInt
    splitBitsLanes fl (← c 0) count.toU64 width.toU64
   else splitBits fl (← c 0) count.toU64
 | .iterConcat => do
   let parts ← (List.range arity).mapM fun index => do (← c index).asIterator
   concatLanes fl parts.flatten
 | _ => do
   let count ← (← c 0).asInt
   let width ← (← c 1).asInt
   let lanes ← (List.range count.toU64).mapM fun index => APInt.new width.toU64 index
   some (.iterator (lanes.map .int))

def evalArith (kind : SymKind) (c : Nat → Option (Value F)) : Option (Value F) := do
 let a ← (← c 0).asFloat
 let b ← (← c 1).asFloat
 match kind with
 | .add => some (.float (fl.add a b))
 | .sub => some (.float (fl.sub a b))
 | .mul => some (.float (fl.mul a b))
 | _ => some (.float (fl.div a b))

def evalCompare (kind : SymKind) (c : Nat → Option (Value F)) : Option (Value F) := do
 let lhs ← c 0
 let rhs ← c 1
 match kind with
 | .eq => do some (.int (boolean (← scalarEqual fl lhs rhs)))
 | .ne => do some (.int (boolean (!(← scalarEqual fl lhs rhs))))
 | _ => do
   let order := fl.compare (← lhs.asFloat) (← rhs.asFloat)
   match kind with
   | .lt => some (.int (boolean (order == some .lt)))
   | .le => some (.int (boolean (order == some .lt || order == some .eq)))
   | .gt => some (.int (boolean (order == some .gt)))
   | _ => some (.int (boolean (order == some .gt || order == some .eq)))

def evalFloat (kind : SymKind) (c : Nat → Option (Value F)) : Option (Value F) :=
 match kind with
 | .fadd => do floatBinop fl fl.add (← c 0) (← c 1)
 | .fsub => do floatBinop fl fl.sub (← c 0) (← c 1)
 | .fmul => do floatBinop fl fl.mul (← c 0) (← c 1)
 | .fdiv => do floatBinop fl fl.div (← c 0) (← c 1)
 | .fmin => do floatBinop fl fl.minnum (← c 0) (← c 1)
 | .fmax => do floatBinop fl fl.maxnum (← c 0) (← c 1)
 | .asFloat => do
   match ← c 0 with
   | .int v => do
     let (exponent, mantissa) ← floatFormat v.width
     some (.float (← fl.fromBits exponent mantissa v.toU64))
   | .float v => some (.float v)
   | _ => none
 | .fcvt => do
   let exponent := (← (← c 1).asInt).toU64 % 2 ^ 32
   let mantissa := (← (← c 2).asInt).toU64 % 2 ^ 32
   match ← c 0 with
   | .int v => do
     let (exp, mant) ← floatFormat v.width
     let converted ← fl.convert (← fl.fromBits exp mant v.toU64) exponent mantissa
     some (.int (← APInt.new (fl.bitWidth converted) (fl.toBits converted % 2 ^ 64)))
   | .float v => do some (.float (← fl.convert v exponent mantissa))
   | _ => none
 | .siToFP => do
   let value := (← (← c 0).asInt).withSigned true
   let exponent := (← (← c 1).asInt).toU64 % 2 ^ 32
   let mantissa := (← (← c 2).asInt).toU64 % 2 ^ 32
   some (.float (← fl.fromInt value.toI64 exponent mantissa))
 | .uiToFP => do
   let value := (← (← c 0).asInt).withSigned false
   let exponent := (← (← c 1).asInt).toU64 % 2 ^ 32
   let mantissa := (← (← c 2).asInt).toU64 % 2 ^ 32
   some (.float (← fl.fromInt value.toU64 exponent mantissa))
 | .fpToSI => do
   let value := fl.toI64 (← (← c 0).asFloat)
   let width := (← (← c 1).asInt).toU64
   some (.int (← APInt.newSigned width value))
 | _ => do
   let value := fl.toU64 (← (← c 0).asFloat)
   let width := (← (← c 1).asInt).toU64
   some (.int (← APInt.new width value))

def evalControl (kind : SymKind) (c : Nat → Option (Value F)) : Option (Value F) :=
 match kind with
 | .ite => do if ← scalarIsZero fl (← c 0) then c 2 else c 1
 | .theta => none
 | .loop => none
 | .port => none
 | _ => do
   let input ← (← c 0).asInt
   let low ← (← c 1).asInt
   let high ← (← c 2).asInt
   if input.signed then do
    if ← input.slt low then some (.int low)
    else if ← input.sgt high then some (.int high) else some (.int input)
   else do
    if ← input.ult low then some (.int low)
    else if ← input.ugt high then some (.int high) else some (.int input)

/-- A slice wholly past a product's width is read from the full signed product. -/
def evalExtract (g : Graph V F) (node : Nat) (cache : Cache F) (c : Nat → Option (Value F)) :
  Option (Value F) := do
 let value ← (← asRawBits fl (← c 0)).toAPInt
 let high := (← (← c 1).asInt).toU64
 let low := (← (← c 2).asInt).toU64
 let source ← (children g node)[0]?
 if value.width ≤ low ∧ kindOf g source = some .mul then do
  let x ← (← childVal g source 0 cache).asInt
  let y ← (← childVal g source 1 cache).asInt
  let (a, b) ← coerceInts x y
  let product ← (a.withSigned true).mulh (b.withSigned true)
  if a.width ≤ high ∧ a.width ≤ low then
   some (.int (← product.extractBits (high - a.width) (low - a.width)))
  else none
 else some (.int (← value.extractBits high low))

def evalMath (g : Graph V F) (node : Nat) (cache : Cache F) (kind : SymKind)
  (c : Nat → Option (Value F)) : Option (Value F) :=
 match kind with
 | .fma => do
   match ← c 0 with
   | .int x => do
     let (a, b) ← coerceInts x (← (← c 1).asInt)
     let (prod, addend) ← coerceInts (← a.mul b) (← (← c 2).asInt)
     some (.int (← prod.add addend))
   | .float a => do some (.float (fl.fma a (← (← c 1).asFloat) (← (← c 2).asFloat)))
   | _ => none
 | .sqrt => do
   match ← c 0 with
   | .int a => do some (.int (← APInt.new a.width (fl.sqrtU64 a.toU64)))
   | .float a => some (.float (fl.sqrt a))
   | _ => none
 | .log2Ceil => do
   let a ← (← c 0).asInt
   some (.int (← APInt.new a.width (if a.toU64 ≤ 1 then 0 else (a.toU64 - 1).size)))
 | .bitcast => do some (.rawBits (← asRawBits fl (← c 0)))
 | .extract => evalExtract fl g node cache c
 | .zext => do
   let value ← (← c 0).asInt
   let width ← (← c 1).asInt
   some (.int (← value.zeroExtend width.toU64))
 | _ => do
   let value ← (← c 0).asInt
   let width ← (← c 1).asInt
   some (.int (← (value.withSigned true).signExtend width.toU64))

/-- The rounded float kinds (`rounded::operation`). -/
def SymKind.rounded : SymKind → Bool
 | .faddRound | .fsubRound | .fmulRound | .fdivRound | .fmaRound | .sqrtRound | .fcvtRound
 | .siToFPRound | .uiToFPRound | .fpToSIRound | .fpToUIRound => true
 | _ => false

def RoundingMode.fromCode : Nat → Option RoundingMode
 | 0 => some .tiesToEven
 | 1 => some .towardZero
 | 2 => some .towardNegative
 | 3 => some .towardPositive
 | 4 => some .tiesToAway
 | _ => none

def roundedBits : Value F → Option (Nat × Nat)
 | .int v => some (v.toU64, v.width)
 | .float v => some (fl.toBits v % 2 ^ 64, fl.bitWidth v)
 | _ => none

/-- A rounded float operation: its value and its exception flags. -/
def evalRounded (kind : SymKind) (c : Nat → Option (Value F)) : Option (Value F × Nat) := do
 if kind.rounded = false then none else
 let rounding ← RoundingMode.fromCode (← roundedBits fl (← c (kind.arity - 1))).1
 let (first, sourceBits) ← roundedBits fl (← c 0)
 let (operands, destinationBits) ←
  match kind with
  | .fcvtRound | .siToFPRound | .uiToFPRound => do
    let exponent ← roundedBits fl (← c 1)
    let mantissa ← roundedBits fl (← c 2)
    some ([first, 0, 0], 1 + exponent.1 + mantissa.1)
  | .fpToSIRound | .fpToUIRound => do some ([first, 0, 0], (← roundedBits fl (← c 1)).1)
  | .sqrtRound => some ([first, 0, 0], sourceBits)
  | .fmaRound => do
    let second ← roundedBits fl (← c 1)
    let third ← roundedBits fl (← c 2)
    some ([first, second.1, third.1], sourceBits)
  | _ => do some ([first, (← roundedBits fl (← c 1)).1, 0], sourceBits)
 if (sourceBits = 32 ∨ sourceBits = 64) ∧ (destinationBits = 32 ∨ destinationBits = 64) then do
  let (bits, flags) ← fl.evalRounded kind sourceBits destinationBits operands rounding
  if kind = .fpToSIRound ∨ kind = .fpToUIRound then
   some (.int (← APInt.new destinationBits bits), flags)
  else do
   let (exponent, mantissa) ← floatFormat destinationBits
   some (.float (← fl.fromBits exponent mantissa bits), flags)
 else none

/-! ## Effects -/

/-- A ready node has a value, or submits an operation and makes its value of the reply. -/
inductive Ready (F : Type) where
 | value (v : Value F)
 | submit (op : MemoryOp) (accepted : op.Reply → Option (Value F))

def evalMemory (kind : SymKind) (c : Nat → Option (Value F)) : Option (Ready F) := do
 let address := (← (← c 0).asInt).toU64
 let size := (← (← c 1).asInt).toU64
 match kind with
 | .loadMemory =>
  -- Accesses wider than a word read and write raw bytes.
  if 8 < size then
   some (.submit (.readMemoryBytes address size) fun bytes => some (.rawBits bytes))
  else
   some (.submit (.readMemory address size) fun value => (APInt.new (size * 8) value).map .int)
 | _ =>
  let bits ← asRawBits fl (← c 2)
  if 8 < size then
   some (.submit (.writeMemoryBytes address size bits) fun _ => (APInt.new 1 0).map .int)
  else do
   let value ← bits.toAPInt
   some (.submit (.writeMemory address size value.toU64) fun _ => (APInt.new 1 0).map .int)

def evalAtomic (kind : SymKind) (c : Nat → Option (Value F)) : Option (Ready F) :=
 match kind with
 | .loadReserved => do
   let address := (← (← c 0).asInt).toU64
   let size := (← (← c 1).asInt).toU64
   if 8 < size then none else
   let ord := MemOrdering.fromCode (← (← c 2).asInt).toU64
   some (.submit (.loadReserved address size ord) fun value =>
    (APInt.new (size * 8) value).map .int)
 | .storeConditional => do
   let address := (← (← c 0).asInt).toU64
   let size := (← (← c 1).asInt).toU64
   if 8 < size then none else
   let value := (← (← c 2).asInt).toU64
   let ord := MemOrdering.fromCode (← (← c 3).asInt).toU64
   some (.submit (.storeConditional address size value ord) fun ok =>
    (APInt.new 1 (Bool.toNat ok)).map .int)
 | .atomicRmw => do
   let op ← AtomicRmwOp.fromCode (← (← c 0).asInt).toU64
   let address := (← (← c 1).asInt).toU64
   let size := (← (← c 2).asInt).toU64
   if 8 < size then none else
   let value := (← (← c 3).asInt).toU64
   let ord := MemOrdering.fromCode (← (← c 4).asInt).toU64
   some (.submit (.atomicRmw op address size value ord) fun old =>
    (APInt.new (size * 8) old).map .int)
 | _ => do
   let pred := (← (← c 0).asInt).toU64 % 2 ^ 32
   let succ := (← (← c 1).asInt).toU64 % 2 ^ 32
   let fenceKind := (← (← c 2).asInt).toU64 % 2 ^ 32
   some (.submit (.fence pred succ fenceKind) fun _ => (APInt.new 1 0).map .int)

/-! ## The dispatch -/

/-- The kinds with a value and no effect, past the integer table. -/
def evalPure (g : Graph V F) (node : Nat) (kind : SymKind) (symbols : List (Value F))
  (cache : Cache F) (args : List (Value F)) (c : Nat → Option (Value F)) : Option (Value F) :=
 match kind with
 | .faddRound | .fsubRound | .fmulRound | .fdivRound | .fmaRound | .sqrtRound | .fcvtRound
 | .siToFPRound | .uiToFPRound | .fpToSIRound | .fpToUIRound => do
   some (← evalRounded fl kind c).1
 | .fpFlags => do
   let operation ← (children g node)[0]?
   let operationKind ← kindOf g operation
   let (_, flags) ← evalRounded fl operationKind fun index => childVal g operation index cache
   some (.int (← APInt.new 5 flags))
 | .arg => evalArg g node args
 | .symbol | .constant => evalLeaf g node kind symbols
 | .zip | .split | .iterConcat | .iota => evalIterator fl g node kind c
 | .add | .sub | .mul | .div => evalArith fl kind c
 | .eq | .ne | .lt | .le | .gt | .ge => evalCompare fl kind c
 | .fadd | .fsub | .fmul | .fdiv | .fmin | .fmax | .asFloat | .fcvt
 | .siToFP | .uiToFP | .fpToSI | .fpToUI => evalFloat fl kind c
 | .ite | .theta | .loop | .port | .clamp => evalControl fl kind c
 | .switch => do
   let index := (← (← c 0).asInt).toU64
   if index + 1 < 2 ^ 64 then c (min (index + 1) ((children g node).length - 1)) else none
 | .fma | .sqrt | .log2Ceil | .bitcast | .extract | .zext | .sext => evalMath fl g node cache kind c
 | .undef => do some (.int (← APInt.new (← (← c 0).asInt).toU64 0))
 | .poison => c 1
 | .freeze => c 0
 | _ => none

/-- The integer table: `some none` for a kind without an entry or an operand that is no
integer. -/
def evalScalar (kind : SymKind) (c : Nat → Option (Value F)) : Option (Option (Value F)) :=
 match scalarOp kind with
 | none => some none
 | some op =>
  (integerOperands c (List.range op.arity)).bind fun operands =>
   match operands with
   | none => some none
   | some ints => (op.evalInt ints).map fun v => some (.int v)

/-- The kinds past the integer table. -/
def evalOther (g : Graph V F) (node : Nat) (kind : SymKind) (symbols : List (Value F))
  (cache : Cache F) (args : List (Value F)) (c : Nat → Option (Value F)) : Option (Ready F) :=
 match kind with
 | .loadMemory | .storeMemory => evalMemory fl kind c
 | .loadReserved | .storeConditional | .atomicRmw | .fence => evalAtomic kind c
 | _ => (evalPure fl g node kind symbols cache args c).map .value

def evalReady (g : Graph V F) (node : Nat) (symbols : List (Value F)) (cache : Cache F)
  (args : List (Value F)) : Option (Ready F) := do
 let kind ← kindOf g node
 let c := fun idx => childVal g node idx cache
 match ← evalDivrem kind c with
 | some result => some (.value result)
 | none =>
  match ← evalScalar kind c with
  | some result => some (.value result)
  | none => evalOther fl g node kind symbols cache args c

end Tir.Lang
