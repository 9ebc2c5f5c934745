import Mathlib

/-!
# Extraction as a fold

`Problem.fold` finds the least cost of each id and the member that spells it. Members wait for
un-costed children: `Extract.Table.costs` sweeps the members whose children got cheaper until none is left.
-/

open Function

namespace Tir.Relational

/-! ## Costs -/

/-- A price or a cost, a `u64`. -/
abbrev Cost := Fin (2 ^ 64)

scoped instance cost_neZero : NeZero (2 ^ 64) := ⟨by decide⟩

/-- The price of a member that cannot be chosen where its id has any other. -/
def UNPRICED : Cost := ⟨2 ^ 64 - 1, by decide⟩

def checkedAdd (cost term : Cost) : Option Cost :=
 if h : cost.val + term.val < 2 ^ 64 then some ⟨cost.val + term.val, h⟩ else none

def sum (cost term : Cost) : Cost :=
 match checkedAdd cost term with
 | some total => total
 | none => if cost = UNPRICED ∨ term = UNPRICED then UNPRICED else ⟨2 ^ 64 - 2, by decide⟩

/-! ## The members of the ids -/

/-- One member of an id, as the client pushes it. -/
structure Member where
 tag : Nat
 price : Cost
 children : List Nat

structure Entry where
 tag : Nat
 slot : Nat
 /-- Price, plus the cost of every child outside the fold. -/
 base : Cost
 children : List Nat
 /-- Whether every child outside the fold is priced. -/
 costable : Bool

/-- What `fold` is called on: a set of ids with their members, every id below `bound`. -/
structure Problem where
 bound : Nat
 ids : List Nat
 outside : Nat → Option Cost
 members : Nat → List Member
 nodup : ids.Nodup
 ids_lt : ∀ id ∈ ids, id < bound
 children_lt : ∀ id ∈ ids, ∀ member ∈ members id, ∀ child ∈ member.children, child < bound

namespace Problem

variable (p : Problem)

/-- Id to slot, `none` for an id the fold does not cover. Writing past the end panics. -/
def index : Option (List (Option Nat)) :=
 p.ids.zipIdx.foldlM
  (fun index entry => if entry.1 < index.length then some (index.set entry.1 (some entry.2)) else none)
  (List.replicate p.bound none)

/-- One child of a member: a slot of the fold, or a cost the client knows. -/
def pushChild (index : List (Option Nat)) (member : Entry) (child : Nat) : Option Entry :=
 match index[child]? with
 | none => none
 | some none =>
  match p.outside child with
  | some cost => some { member with base := sum member.base cost }
  | none => some { member with costable := false }
 | some (some slot) => some { member with children := member.children ++ [slot] }

def push (index : List (Option Nat)) (slot : Nat) (member : Member) : Option Entry :=
 member.children.foldlM (p.pushChild index)
  { tag := member.tag, slot := slot, base := member.price, children := [], costable := true }

/-- The members in scan order, each with the slot of its id. -/
def pushed : List (Nat × Member) :=
 p.ids.zipIdx.flatMap fun entry => (p.members entry.1).map fun member => (entry.2, member)

def entries : Option (List Entry) :=
 p.index.bind fun index => p.pushed.mapM fun entry => p.push index entry.1 entry.2

end Problem

/-! ## The fixpoint -/

/-- The members flattened for the fold, in scan order. -/
structure Extract.Table where
 entries : List Entry

namespace Extract.Table

variable (t : Extract.Table)

/-- Positions of the members taking `slot` as a child, ascending. -/
def parents (slot : Nat) : List Nat :=
 t.entries.zipIdx.flatMap fun entry => (entry.1.children.filter (· = slot)).map fun _ => entry.2

def addChild (cost : Nat → Option Cost) (total : Cost) (slot : Nat) : Option Cost :=
 (cost slot).map (sum total)

def costOf (member : Entry) (cost : Nat → Option Cost) : Option Cost :=
 if member.costable then member.children.foldlM (addChild cost) member.base else none

/-- A round in progress: the costs so far and the members to look at, in this sweep and the next. -/
structure Sweep where
 cost : Nat → Option Cost
 dirty : Nat → Bool
 next : Nat → Bool
 queued : Nat

/-- A parent still ahead of the sweep sees the improvement in this round; an earlier one waits. -/
def mark (position : Nat) (s : Sweep) (parent : Nat) : Sweep :=
 if position < parent then
  { s with dirty := update s.dirty parent true }
 else if s.next parent then
  s
 else
  { s with next := update s.next parent true, queued := s.queued + 1 }

def improves (total : Cost) (best : Option Cost) : Bool :=
 match best with
 | none => true
 | some best => total < best

def improve (s : Sweep) (position : Nat) (member : Entry) : Sweep :=
 match costOf member s.cost with
 | none => s
 | some total =>
  if improves total (s.cost member.slot) then
   (t.parents member.slot).foldl (mark position)
    { s with cost := update s.cost member.slot (some total) }
  else
   s

def visit (s : Sweep) (entry : Entry × Nat) : Sweep :=
 if s.dirty entry.2 then
  t.improve { s with dirty := update s.dirty entry.2 false } entry.2 entry.1
 else
  s

def round (s : Sweep) : Sweep :=
 let swept := t.entries.zipIdx.foldl t.visit { s with queued := 0 }
 { swept with dirty := swept.next, next := fun _ => false }

def run : Nat → Sweep → Option (Nat → Option Cost)
 | 0, _ => none
 | fuel + 1, s => if 0 < s.queued then run fuel (t.round s) else some s.cost

def start : Sweep where
 cost _ := none
 dirty _ := true
 next _ := false
 queued := t.entries.length

def costs (fuel : Nat) : Option (Nat → Option Cost) :=
 t.run fuel t.start

/-- Whether `member` spells its id at the settled cost, and not by the id itself. -/
def spells (cost : Nat → Option Cost) (member : Entry) (settled : Cost) : Bool :=
 costOf member cost = some settled && member.slot ∉ member.children

/-- The winner is the first member in scan order that spells its id at the settled cost. -/
def choose (cost : Nat → Option Cost) (chosen : Nat → Option (Nat × Cost)) (entry : Entry × Nat) :
  Nat → Option (Nat × Cost) :=
 match cost entry.1.slot with
 | none => chosen
 | some settled =>
  if (chosen entry.1.slot).isNone && spells cost entry.1 settled then
   update chosen entry.1.slot (some (entry.2, settled))
  else
   chosen

/-- Per slot, the position of the winner and the settled cost. -/
def chosen (cost : Nat → Option Cost) : Nat → Option (Nat × Cost) :=
 t.entries.zipIdx.foldl (choose cost) fun _ => none

end Extract.Table

namespace Problem

variable (p : Problem)

def table : Option Extract.Table :=
 p.entries.map Extract.Table.mk

/-- The choices of the fold by slot, each the position of a member with its cost. -/
def choices (fuel : Nat) : Option (Nat → Option (Nat × Cost)) :=
 p.table.bind fun table => (table.costs fuel).map table.chosen

/-- Least cost per id, and the tag of the member that spells it. -/
def fold (fuel : Nat) : Option (List (Option (Nat × Cost))) :=
 p.table.bind fun table => (table.costs fuel).map fun cost =>
  (List.range p.ids.length).map fun slot =>
   (table.chosen cost slot).bind fun choice =>
    (table.entries[choice.1]?).map fun member => (member.tag, choice.2)

end Problem

end Tir.Relational
