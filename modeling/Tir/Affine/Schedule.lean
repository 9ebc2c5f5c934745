import Tir.Affine.View

/-!
# Loop schedules

The candidates of `schedule.rs`: a permutation of a nest's loops and the tiles of a band of them, which of them
the dependences admit, and the loops each one names.
-/

namespace Tir.Affine

open Lexicographic

def TILES : List Nat :=
 [1, 8, 16, 32, 64]

def MAX_TILED_DEPTH : Nat :=
 4

/-- One schedule: the order the loops run in, and how each is tiled. -/
structure Candidate where
 /-- Position `p` runs the nest's original dimension `permutation[p]`. -/
 permutation : List Nat
 /-- Iterations of dimension `d` per tile, one where it is not tiled. -/
 tiles : List Nat
deriving DecidableEq

namespace Candidate

def identity (depth : Nat) : Candidate :=
 ⟨List.range depth, List.replicate depth 1⟩

def isIdentity (candidate : Candidate) : Bool :=
 candidate = identity candidate.permutation.length

variable (candidate : Candidate)

def dimension (position : Nat) : Nat :=
 candidate.permutation.getD position 0

def tile (dimension : Nat) : Nat :=
 candidate.tiles.getD dimension 1

/-- The positions the tiled dimensions occupy, which have to be one band. -/
def band : Option (Nat × Nat) :=
 let tiled := (List.range candidate.permutation.length).filter fun p => 1 < candidate.tile (candidate.dimension p)
 match tiled.head?, tiled.getLast? with
 | some first, some last => if tiled.length = last - first + 1 then some (first, last + 1) else none
 | _, _ => none

/-- The dimension that is tiled where exactly one is. -/
def soleTiled : Option Nat :=
 match (candidate.tiles.zipIdx.filter fun entry => 1 < entry.1).map Prod.snd with
 | [only] => some only
 | _ => none

end Candidate

/-- One loop of the nest a candidate names. -/
inductive Level where
 | plain (dimension : Nat)
 | tileOuter (dimension : Nat)
 | tileInner (dimension : Nat)

def levels (candidate : Candidate) : List Level :=
 let depth := candidate.permutation.length
 let (first, last) := candidate.band.getD (depth, depth)
 (List.range' 0 first).map (fun p => .plain (candidate.dimension p)) ++
  ((List.range' first (last - first)).map (fun p => .tileOuter (candidate.dimension p)) ++
    ((List.range' first (last - first)).map (fun p => .tileInner (candidate.dimension p)) ++
      (List.range' last (depth - last)).map fun p => .plain (candidate.dimension p)))

/-- What the nest's pairs forbid: every vector of signs that some pair admits. -/
structure Constraints where
 vectors : List (List Int)
 undecided : Bool

/-- The signs a component may have. -/
def signs : Component → List Int
 | .distance d => [d.sign]
 | .direction .positive => [1]
 | .direction .negative => [-1]
 | .any => [-1, 0, 1]

def expand (components : List Component) : List (List Int) :=
 (choices (components.map signs)).filter lexPositive

def constraints (view : AffineView) : Constraints :=
 let undecided := view.opaqueBody || !view.isRectangular || view.accesses.any fun access =>
  match access.offset with
  | .nonAffine => true
  | .affine _ => false
 view.pairs.foldl (fun c pair =>
  match pair.dependence with
  | .independent => c
  | .distances components => { c with vectors := c.vectors ++ expand components }
  | .conditional _ _ => { c with undecided := true }
  | .unknown => { c with undecided := true }) ⟨[], undecided⟩

def Constraints.admits (constraints : Constraints) (candidate : Candidate) : Bool :=
 if constraints.undecided then candidate.isIdentity
 else if candidate.tiles.any (fun tile => 1 < tile) && candidate.band.isNone then false
 else constraints.vectors.all fun vector =>
  let permuted := candidate.permutation.map fun dimension => vector.getD dimension 0
  lexPositive permuted && match candidate.band with
   | some (first, last) => ((permuted.drop first).take (last - first)).all fun s => 0 ≤ s
   | none => true

def dividesEvenly (view : AffineView) (dimension tile : Nat) : Bool :=
 match (view.loops[dimension]?).bind Loop.trip with
 | some trip => trip % tile = 0
 | none => false

def remainderAdmitted (view : AffineView) (candidate : Candidate) : Bool :=
 let remainders := ((List.range view.depth).filter fun d =>
  1 < candidate.tile d && !dividesEvenly view d (candidate.tile d)).length
 remainders = 0 || candidate.soleTiled.isSome

def tilings (view : AffineView) : List (List Nat) :=
 choices (view.loops.map fun l => TILES.filter fun tile => tile = 1 || match l.trip with
  | some trip => (tile : Int) < trip
  | none => true)

/-- The permutations of the dimensions: each position takes one that is not taken yet. -/
def permutations (depth : Nat) : List (List Nat) :=
 (List.range depth).foldl (fun all _ => all.flatMap fun front =>
  ((List.range depth).filter fun dimension => dimension ∉ front).map fun dimension => front ++ [dimension]) [[]]

def candidates (view : AffineView) (constraints : Constraints) : List Candidate :=
 let tilings := if view.depth ≤ MAX_TILED_DEPTH then tilings view else [List.replicate view.depth 1]
 ((permutations view.depth).flatMap fun permutation => tilings.map fun tiles => ⟨permutation, tiles⟩).filter
   fun candidate => constraints.admits candidate && remainderAdmitted view candidate

end Tir.Affine
