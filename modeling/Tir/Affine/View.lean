import Tir.Affine.Dependence

/-!
# The affine view of a loop nest

Forms over a nest's counters and symbols, its accesses, and the pairs of accesses with what they say about the
nest's order, as `form.rs`, `mod.rs` and `pairs.rs` have them. Coefficients are byte strides: their arithmetic
is exact.
-/

namespace Tir.Affine

/-- An affine expression: coefficients over the counters, outermost first, and over the symbols, and a constant. -/
structure AffineForm where
 counters : List Int
 symbols : List Int
 constantTerm : Int
deriving DecidableEq

namespace AffineForm

def constant (value : Int) : AffineForm :=
 ⟨[], [], value⟩

def counterCoefficient (form : AffineForm) (depth : Nat) : Int :=
 form.counters.getD depth 0

def isConstant (form : AffineForm) : Bool :=
 (form.counters ++ form.symbols).all fun c => c = 0

def asConstant (form : AffineForm) : Option Int :=
 if form.isConstant then some form.constantTerm else none

/-- No counter contributes. -/
def isUniform (form : AffineForm) : Bool :=
 form.counters.all fun c => c = 0

/-- Coefficients added slot by slot, the shorter list grown by zeros. -/
def combineSlots (sign : Int) : List Int → List Int → List Int
 | slots, [] => slots
 | [], value :: values => (0 + sign * value) :: combineSlots sign [] values
 | slot :: slots, value :: values => (slot + sign * value) :: combineSlots sign slots values

def combine (form other : AffineForm) (sign : Int) : AffineForm :=
 ⟨combineSlots sign form.counters other.counters, combineSlots sign form.symbols other.symbols,
  form.constantTerm + sign * other.constantTerm⟩

def add (form other : AffineForm) : AffineForm :=
 form.combine other 1

def sub (form other : AffineForm) : AffineForm :=
 form.combine other (-1)

/-- The two forms differ in nothing but their constant. -/
def sameSlopes (form other : AffineForm) : Bool :=
 (form.sub other).isConstant

def scale (form : AffineForm) (factor : Int) : AffineForm :=
 ⟨form.counters.map (· * factor), form.symbols.map (· * factor), form.constantTerm * factor⟩

def setCounterCoefficient (form : AffineForm) (depth : Nat) (value : Int) : AffineForm :=
 { form with counters := (form.counters ++ List.replicate (depth + 1 - form.counters.length) 0).set depth value }

end AffineForm

structure Loop where
 lower : AffineForm
 upper : AffineForm
 step : AffineForm
 /-- How many iterations the loop runs, where the bounds spell a number. -/
 trip : Option Int

/-- Where in its object an access lands. -/
inductive Offset where
 | affine (form : AffineForm)
 | nonAffine

/-- One read or write in the nest's body. -/
structure Access where
 write : Bool
 /-- Every chain the access is on. -/
 chains : List Nat
 /-- The object the address was derived from. -/
 base : Nat
 offset : Offset
 /-- The bytes the access covers. -/
 extent : Nat
 wrapping : Bool

/-- The bytes one side of a pair may touch. -/
structure Extremes where
 base : Nat
 low : AffineForm
 high : AffineForm

/-- What one pair of accesses says about the order the nest may run in. -/
inductive Dependence where
 | independent
 | distances (components : List Component)
 | conditional (left right : Extremes)
 | unknown

structure Pair where
 left : Nat
 right : Nat
 dependence : Dependence

/-- A counted nest read as an iteration space. -/
structure AffineView where
 loops : List Loop
 accesses : List Access
 opaqueBody : Bool

namespace AffineView

variable (view : AffineView)

def depth : Nat :=
 view.loops.length

def isRectangular : Bool :=
 view.loops.all fun l => l.lower.isUniform && l.upper.isUniform && l.step.isUniform

def lastIteration (depth : Nat) : Option AffineForm :=
 (view.loops[depth]?).bind fun level =>
  match level.trip with
  | some trip => some (.constant (trip - 1))
  | none =>
   if level.step.asConstant = some 1 then some ((level.upper.sub level.lower).sub (.constant 1)) else none

/-- A form with one counter at its end that makes it least, or greatest. -/
def extreme (form : AffineForm) (depth : Nat) (last : AffineForm) (takeLow : Bool) : AffineForm :=
 let coefficient := form.counterCoefficient depth
 let form := form.setCounterCoefficient depth 0
 if coefficient = 0 || decide (0 < coefficient) = takeLow then form else form.add (last.scale coefficient)

def extremes (access : Access) (offset : AffineForm) : Option Extremes :=
 ((List.range view.loops.length).foldlM (fun (forms : AffineForm × AffineForm) depth =>
   (view.lastIteration depth).map fun last => (extreme forms.1 depth last true, extreme forms.2 depth last false))
   (offset, offset)).bind fun forms =>
    if forms.1.isUniform && forms.2.isUniform then
     some ⟨access.base, forms.1, forms.2.add (.constant (access.extent - 1))⟩
    else none

/-- What two accesses say about the order of the nest. -/
def dependence (a b : Access) : Dependence :=
 match a.offset, b.offset with
 | .affine left, .affine right =>
  if view.opaqueBody || a.wrapping || b.wrapping then .unknown
  else if a.base ≠ b.base then
   match view.extremes a left, view.extremes b right with
   | some left, some right => .conditional left right
   | _, _ => .unknown
  else if !left.sameSlopes right then .unknown
  else
   let coefficients := (List.range view.loops.length).map left.counterCoefficient
   let gap := left.constantTerm - right.constantTerm
   let targets := [(gap - b.extent + 1, gap + a.extent - 1), (-gap - a.extent + 1, -gap + b.extent - 1)]
   let extents := view.loops.map fun l => l.trip.map (· - 1)
   match Affine.distances coefficients extents targets with
   | some components => .distances components
   | none => .independent
 | _, _ => .unknown

def disjointChains (a b : Access) : Bool :=
 a.chains.all fun chain => chain ∉ b.chains

/-- Each pair of accesses on one chain of which one writes, the left one before the right one. -/
def pairs : List Pair :=
 (List.range view.accesses.length).flatMap fun left =>
  (List.range' (left + 1) (view.accesses.length - (left + 1))).filterMap fun right =>
   match view.accesses[left]?, view.accesses[right]? with
   | some a, some b =>
    if disjointChains a b || !(a.write || b.write) then none else some ⟨left, right, view.dependence a b⟩
   | _, _ => none

end AffineView

end Tir.Affine
