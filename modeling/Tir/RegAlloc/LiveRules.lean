import Tir.RegAlloc.LiveDb

/-!
# The rules of liveness and of the graph

The rule sets of `live.rs`, with the variables and scalars of the source. In a row atom the last variable is
the row's value.
-/

namespace Tir.RegAlloc.Live

/-- Where a block's range of a value is open past its last operation. -/
def EXIT : Int := 2 ^ 40

/-- The point at which the operation at an index of its block reads. -/
def point (index : Nat) : Nat :=
 4 * (index + 1)

/-- The indices of a block's `len` operations after which a range holds its value. -/
def heldAfter (start finish : Int) (len : Nat) : Nat × Nat :=
 let first := (max ((start - 2) / 4) 0).toNat
 let last := (max 0 (min ((finish - 3) / 4) len)).toNat
 (min first last, last)

def rows (table : Table) (vars : List Nat) (tag : Option Nat) : Atom :=
 .rows table vars tag none

def plus (slot : Nat) (value : Int) : Expr :=
 .add (.scalar slot) value

/-! ## Liveness -/

def liveinUse : Rule where
 atoms := [rows .uses [1, 2, 0] none, rows .holds [1, 3] none, rows .definedIn [4, 2, 5] none]
 distinct := [(3, 4)]
 nots := []
 table := .livein
 plain := []
 args := [3, 2]
 sorted := false
 raise := []

def liveout : Rule where
 atoms := [rows .livein [1, 2, 0] none, rows .edge [3, 1, 4] none]
 distinct := []
 nots := []
 table := .liveout
 plain := []
 args := [3, 2]
 sorted := false
 raise := []

def liveinOut : Rule where
 atoms := [rows .liveout [1, 2, 0] none, rows .definedIn [3, 2, 4] none]
 distinct := [(1, 3)]
 nots := []
 table := .livein
 plain := []
 args := [1, 2]
 sorted := false
 raise := []

def rangeDef : Rule where
 atoms := [rows .defs [1, 2, 0] none, rows .holds [1, 3] (some 0)]
 distinct := []
 nots := []
 table := .range
 plain := []
 args := [3, 2]
 sorted := false
 raise := [(.start, plus 0 1), (.finish, plus 0 2)]

def rangeUse : Rule where
 atoms := [rows .uses [1, 2, 0] none, rows .holds [1, 3] (some 0)]
 distinct := []
 nots := []
 table := .range
 plain := []
 args := [3, 2]
 sorted := false
 raise := [(.finish, .scalar 0)]

def rangeParam : Rule where
 atoms := [rows .param [1, 2, 0] none]
 distinct := []
 nots := []
 table := .range
 plain := []
 args := [1, 2]
 sorted := false
 raise := [(.start, .lit 1), (.finish, .lit 2)]

def rangeIn : Rule where
 atoms := [rows .livein [1, 2, 0] none]
 distinct := []
 nots := []
 table := .range
 plain := []
 args := [1, 2]
 sorted := false
 raise := [(.start, .lit 0)]

def rangeOut : Rule where
 atoms := [rows .liveout [1, 2, 0] none]
 distinct := []
 nots := []
 table := .range
 plain := []
 args := [1, 2]
 sorted := false
 raise := [(.finish, .lit EXIT)]

def liveness : List Rule :=
 [liveinUse, liveout, liveinOut, rangeDef, rangeUse, rangeParam, rangeIn, rangeOut]

/-! ## The graph -/

/-- The operations of block `b` whose point is in the interval. -/
def opsWithin (b op p : Nat) (lo hi : Expr) : Atom :=
 .rows .holds [op, b] (some p) (some (lo, hi))

def liveAt : Rule where
 atoms := [rows .range [1, 2, 0] none, .lattice .start 0 1, .lattice .finish 0 2,
  opsWithin 1 3 0 (plus 1 (-1)) (plus 2 (-2))]
 distinct := []
 nots := []
 table := .liveAt
 plain := []
 args := [3, 2]
 sorted := false
 raise := []

def interfere : Rule where
 atoms := [rows .range [1, 2, 0] none, .lattice .start 0 1, .lattice .finish 0 2,
  opsWithin 1 3 0 (plus 1 (-1)) (plus 2 (-1)), rows .defs [3, 4, 5] none]
 distinct := [(2, 4)]
 nots := [(.same, [2, 4]), (.same, [4, 2])]
 table := .interfere
 plain := []
 args := [2, 4]
 sorted := true
 raise := []

def entry (first second : Table) : Rule where
 atoms := [rows first [1, 2, 0] none, rows second [1, 3, 4] none]
 distinct := [(2, 3)]
 nots := [(.same, [2, 3]), (.same, [3, 2])]
 table := .interfere
 plain := []
 args := [2, 3]
 sorted := true
 raise := []

def interfereIn : Rule := entry .livein .livein

def interfereInParam : Rule := entry .livein .param

def interfereParam : Rule := entry .param .param

def forbid : Rule where
 atoms := [rows .range [1, 2, 0] none, .lattice .start 0 2, .lattice .finish 0 3,
  opsWithin 1 3 1 (plus 2 (-1)) (plus 3 (-2)), rows .clobber [3, 3] (some 0)]
 distinct := []
 nots := []
 table := .forbid
 plain := [0]
 args := [2]
 sorted := false
 raise := []

def affinityPhi : Rule where
 atoms := [rows .phi [1, 2, 0] (some 0)]
 distinct := []
 nots := []
 table := .affinity
 plain := [0]
 args := [0, 2]
 sorted := false
 raise := []

def affinityCopy : Rule where
 atoms := [rows .copy [1, 2, 0] (some 0)]
 distinct := []
 nots := []
 table := .affinity
 plain := [0]
 args := [1, 2]
 sorted := false
 raise := []

def spill : List Rule :=
 [liveAt]

def graph : List Rule :=
 [interfere, interfereIn, interfereInParam, interfereParam, forbid, affinityPhi, affinityCopy, liveAt]

end Tir.RegAlloc.Live
