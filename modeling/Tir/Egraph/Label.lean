import Tir.Relational.Database

/-!
# Labels and their offset laws

A `Label` is everything about an e-node except its operands. `Laws.of` is what the engine reads off
one, and a `Vocabulary` interns the labels met and the shapes of the tables their rows live in. Labels
that match at one arity are one value here.
-/

namespace Tir.Egraph

open Tir.Relational

/-- The type a value's offsets live in: an integer or a pointer of at most 64 bits. -/
structure Carrier where
 width : Nat
 key : Nat
deriving DecidableEq, Inhabited

def Carrier.mask (carrier : Carrier) : Word :=
 lowMask carrier.width

/-- What the engine asks of a label. -/
class Label (L : Type) where
 decEq : DecidableEq L
 arity : L → Nat
 /-- A unique node gets a fresh class on every insert. -/
 unique : L → Bool
 commutative : L → Bool
 carrier : L → Option Carrier
 /-- How a constant added to an operand moves to the result. -/
 offsetCoefficient : L → Nat → Option Word
 /-- A linear node's value with every operand zero. -/
 bias : L → Word
 /-- The constant at an operand that makes a binary node equal its other operand. -/
 identity : L → Nat → Option Word
 intValue : L → Option Word
 /-- The integer constant of a label's carrier. -/
 constantOf : L → Word → Option L
 /-- The constant of a ground constant that is not an integer one. -/
 constant : L → Option L
 /-- Carriers that share a key are one carrier. -/
 carrier_key : ∀ l l' c c', carrier l = some c → carrier l' = some c' → c.key = c'.key → c = c'
 /-- A carrier spells its constants one way. -/
 constantOf_congr : ∀ l l' c v, carrier l = some c → carrier l' = some c → constantOf l v = constantOf l' v
 /-- A constant of a carrier is a leaf of it with that value. -/
 constantOf_spec : ∀ l c v z, carrier l = some c → constantOf l v = some z →
  arity z = 0 ∧ carrier z = some c ∧ unique z = false ∧
   ∃ value, intValue z = some value ∧ value &&& c.mask = v &&& c.mask

variable {L : Type} [Label L]

instance labelDecidableEq : DecidableEq L :=
 Label.decEq

/-- The value of a label that is an integer constant where it heads a leaf. -/
def leafConstant (l : L) : Option (Carrier × Word) :=
 (Label.carrier l).bind fun carrier => (Label.intValue l).map fun value => (carrier, value &&& carrier.mask)

/-! ## Laws -/

/-- What the engine reads off a label's laws, once per label. -/
structure Laws where
 /-- The mask of the result's carrier, zero for none. -/
 mask : Word
 carrier : Option Carrier
 /-- Per operand, its offset coefficient; zero for none. Empty when no operand has one. -/
 coefficients : List Word
 /-- For a binary node, the identity element each operand has, if any. -/
 identity : List (Option Word)
 /-- For a leaf integer constant of the carrier, its value. -/
 constant : Option Word
 /-- A linear node's value over zero operands. -/
 bias : Word

namespace Laws

def none : Laws :=
 ⟨0, Option.none, [], [Option.none, Option.none], Option.none, 0⟩

def of (l : L) : Laws :=
 match Label.carrier l with
 | Option.none => none
 | some carrier =>
  if Label.unique l then
   { none with mask := carrier.mask, carrier := some carrier }
  else
   let coefficients := (List.range (Label.arity l)).map fun operand =>
    (Label.offsetCoefficient l operand).getD 0
   { mask := carrier.mask
     carrier := some carrier
     coefficients := if coefficients.all (· = 0) then [] else coefficients
     identity := if Label.arity l = 2 then
       [0, 1].map fun operand => (Label.identity l operand).map (· &&& carrier.mask)
      else
       [Option.none, Option.none]
     constant := if Label.arity l = 0 then (Label.intValue l).map (· &&& carrier.mask) else Option.none
     bias := Label.bias l &&& carrier.mask }

variable (laws : Laws)

def coefficient (operand : Nat) : Word :=
 laws.coefficients.getD operand 0

def linear : Bool :=
 !laws.coefficients.isEmpty && laws.coefficients.all (· ≠ 0)

end Laws

/-! ## Shapes -/

/-- What a table holds. Labels that agree on it share a table. -/
structure Shape where
 arity : Nat
 unique : Bool
 /-- Empty when no operand has one. -/
 coefficients : List Word
 commutes : Bool
deriving DecidableEq

namespace Shape

/-- The order of the shapes, field by field, coefficients as signed words. -/
def before (a b : Shape) : Bool :=
 if a.arity ≠ b.arity then
  a.arity < b.arity
 else if a.unique ≠ b.unique then
  b.unique
 else if a.coefficients ≠ b.coefficients then
  a.coefficients.map BitVec.toInt < b.coefficients.map BitVec.toInt
 else
  !a.commutes && b.commutes

def of (l : L) : Shape where
 arity := Label.arity l
 unique := Label.unique l
 coefficients := (Laws.of l).coefficients
 commutes := Label.arity l = 2 && Label.commutative l

theorem operand_lt {shape : Shape} (h : shape.commutes ∧ 2 ≤ shape.arity) : 2 < 1 + shape.arity := by
 omega

/-- The label is a key column the union-find has no say over. -/
def layout (shape : Shape) : Layout where
 arity := 1 + shape.arity
 coefficients column := match column with
  | 0 => 0
  | operand + 1 => shape.coefficients.getD operand 0
 plain := 1
 unordered := if h : shape.commutes ∧ 2 ≤ shape.arity then some (⟨1, Nat.lt_of_succ_lt (operand_lt h)⟩, ⟨2, operand_lt h⟩) else none
 keyed := !shape.unique

end Shape

/-! ## The vocabulary -/

/-- The labels met, by id, and what each table slot holds, in the order first needed. -/
structure Vocabulary (L : Type) where
 labels : List L
 shapes : List Shape

namespace Vocabulary

def empty : Vocabulary L :=
 ⟨[], []⟩

variable (vocabulary : Vocabulary L)

def intern (l : L) : Vocabulary L × Nat :=
 if l ∈ vocabulary.labels then
  (vocabulary, vocabulary.labels.idxOf l)
 else
  ({ labels := vocabulary.labels ++ [l]
     shapes := if Shape.of l ∈ vocabulary.shapes then vocabulary.shapes
      else vocabulary.shapes ++ [Shape.of l] },
   vocabulary.labels.length)

def lawsAt (label : Nat) : Laws :=
 (vocabulary.labels[label]?).elim Laws.none Laws.of

/-- The table the rows of a label live in. -/
def slotOf (label : Nat) : Nat :=
 vocabulary.shapes.idxOf ((vocabulary.labels[label]?).elim ⟨0, false, [], false⟩ Shape.of)

def commutes (label : Nat) : Bool :=
 (vocabulary.labels[label]?).any fun l => Label.arity l = 2 && Label.commutative l

/-- The order of the shapes two slots hold. -/
def slotLe (a b : Nat) : Bool :=
 a = b || !((vocabulary.shapes.getD b ⟨0, false, [], false⟩).before (vocabulary.shapes.getD a ⟨0, false, [], false⟩))

/-- Whether some label has an identity or is linear, so a rebuild looks for rows its laws settle. -/
def reshapes : Bool :=
 vocabulary.labels.any fun l => (Laws.of l).identity.any Option.isSome || (Laws.of l).linear

end Vocabulary

end Tir.Egraph
