import Tir.Basic.Lexicographic

/-!
# The single-equation dependence test

`distances` of `dependence.rs`: which distances between iterations a linear form can take into a target
interval, by Banerjee bounds and a greatest common divisor for each vector of directions, summarized per depth.
-/

namespace Tir.Affine

open Lexicographic

/-- Which way a dependence runs at one depth. -/
inductive Sign where
 | positive | negative
deriving DecidableEq

/-- What is provable about the distance at one depth. -/
inductive Component where
 | distance (d : Int)
 | direction (sign : Sign)
 | any
deriving DecidableEq

/-- A bound wide enough that no iteration space reaches it. -/
def UNBOUNDED : Int :=
 2 ^ 62

inductive Direction where
 | zero | positive | negative
deriving DecidableEq

/-- The direction vectors whose first direction that is not zero is positive. -/
def enumerate (depth : Nat) : List (List Direction) :=
 (choices (List.replicate depth [.zero, .positive, .negative])).filter fun directions =>
  match directions.find? fun d => d ≠ .zero with
  | some d => d = .positive
  | none => false

/-- The distances that a direction leaves at one depth. -/
def span (extents : List Int) (directions : List Direction) (depth : Nat) : Int × Int :=
 match directions.getD depth .zero with
 | .zero => (0, 0)
 | .positive => (1, extents.getD depth 0)
 | .negative => (-extents.getD depth 0, -1)

def gcd (a b : Int) : Int :=
 Int.gcd a b

/-- Bounds of the sum over the depths but one. -/
def sumRange (coefficients extents : List Int) (directions : List Direction) (skip : Option Nat) : Int × Int :=
 coefficients.zipIdx.foldl (fun range entry =>
  if skip = some entry.2 then range else
   let (first, last) := span extents directions entry.2
   (range.1 + min (entry.1 * first) (entry.1 * last), range.2 + max (entry.1 * first) (entry.1 * last))) (0, 0)

/-- A multiple of the divisor lies in an interval. -/
def dividesSomething (divisor low high : Int) : Bool :=
 if divisor = 0 then low ≤ 0 && (0 : Int) ≤ high else low ≤ high / divisor * divisor

def admits (coefficients extents : List Int) (targets : List (Int × Int)) (directions : List Direction) : Bool :=
 let (low, high) := sumRange coefficients extents directions none
 let divisor := (coefficients.zipIdx.filter fun entry => directions.getD entry.2 .zero ≠ .zero).foldl
  (fun acc entry => gcd acc entry.1) 0
 targets.any fun target =>
  let first := max target.1 low
  let last := min target.2 high
  first ≤ last && dividesSomething divisor first last

def floorDiv (a b : Int) : Int :=
 if b < 0 then (-a) / (-b) else a / b

def ceilDiv (a b : Int) : Int :=
 -floorDiv (-a) b

def I128_MAX : Int :=
 2 ^ 127 - 1

def I128_MIN : Int :=
 -2 ^ 127

/-- The distances at one depth that a direction vector leaves, given what the other depths can add up to. -/
def reachable (coefficients extents : List Int) (targets : List (Int × Int)) (directions : List Direction) (depth : Nat) :
  Int × Int :=
 let (first, last) := span extents directions depth
 let coefficient := coefficients.getD depth 0
 if coefficient = 0 then (first, last) else
  let rest := sumRange coefficients extents directions (some depth)
  let (low, high) := targets.foldl (fun range target =>
   let productLow := target.1 - rest.2
   let productHigh := target.2 - rest.1
   let (a, b) := if 0 < coefficient then (ceilDiv productLow coefficient, floorDiv productHigh coefficient)
    else (ceilDiv productHigh coefficient, floorDiv productLow coefficient)
   let a := max a first
   let b := min b last
   if a ≤ b then (min range.1 a, max range.2 b) else range) (I128_MAX, I128_MIN)
  if high < low then (first, last) else (low, high)

def summarize (coefficients extents : List Int) (targets : List (Int × Int)) (admitted : List (List Direction)) (depth : Nat) :
  Component :=
 let (low, high) := admitted.foldl (fun range directions =>
  let (first, last) := reachable coefficients extents targets directions depth
  (min range.1 first, max range.2 last)) (I128_MAX, I128_MIN)
 if low = high then .distance low
 else if 0 < low then .direction .positive
 else if high < 0 then .direction .negative
 else .any

/-- Every distance that takes the linear form into a target, summarized per depth, or `none` if none does. -/
def distances (coefficients : List Int) (extents : List (Option Int)) (targets : List (Int × Int)) : Option (List Component) :=
 let depth := coefficients.length
 let extents := extents.map fun extent => extent.getD UNBOUNDED
 let admitted := (enumerate depth).filter (admits coefficients extents targets)
 if admitted.isEmpty then none
 else some ((List.range depth).map (summarize coefficients extents targets admitted))

end Tir.Affine
