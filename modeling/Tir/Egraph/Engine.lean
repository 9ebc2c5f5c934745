import Tir.Egraph.Label

/-!
# The e-graph

An `Engine` is classes of terms over a database: each label has a table keyed on the operands and
valued by the reference the node is, with the offsets the label's laws move to the result factored out
of the key. `add` and `insert` intern a node, `union` records an equality, and `rebuild` canonicalizes
the tables and merges the values of the rows that come to share a key, or that the laws settle, until
nothing is left to push. No assumption layer is open here. `none` stands for a call that does not end.
-/

namespace Tir.Egraph

open Tir.Relational

/-- A term: a label over the classes of its operands. -/
structure Node (L : Type) where
 label : L
 children : List Nat
deriving DecidableEq

/-- A term as it was interned, with the class it was minted with. -/
structure ENode (L : Type) extends Node L where
 labelId : Nat
 classId : Nat
 /-- Per operand its offset, or nothing when every one is zero. -/
 offsets : Option (List Word)
deriving DecidableEq

/-- The operands of an e-node, canonical as of the insert. -/
def ENode.operands {L : Type} (node : ENode L) : List Ref :=
 node.children.zipIdx.map fun child => ⟨child.1, (node.offsets.getD []).getD child.2 0⟩

variable {L : Type} [Label L]

/-! ## Laws at work -/

/-- `op(x, zero + identity) == x`, and a coefficient carries the rest. -/
def foldIdentity (uf : UnionFind) (laws : Laws) (operands : List Ref) (operand : Nat) : Option Ref :=
 match laws.identity.getD operand none, operands[operand]? with
 | some identity, some element =>
  if uf.isZero element.id then
   let settle (shift : Word) : Option Ref :=
    let other := operands.getD (1 - operand) default
    -- an operand of another carrier cannot take the shift
    if uf.maskOf other.id = laws.mask then some ⟨other.id, (other.offset + shift) &&& laws.mask⟩ else none
   if laws.coefficient operand = 0 then
    if element.offset = identity then settle 0 else none
   else
    settle (laws.coefficient operand * (element.offset - identity))
  else
   none
 | _, _ => none

/-- A linear node over constants is their sum. -/
def foldLinear (uf : UnionFind) (zeros : List (Nat × Nat)) (laws : Laws) (operands : List Ref) : Option Ref :=
 if laws.linear && operands.all fun operand => uf.isZero operand.id then
  laws.carrier.bind fun carrier => (zeros.find? fun known => known.1 = carrier.key).map fun known =>
   ⟨known.2, operands.zipIdx.foldl (fun sum entry => sum + laws.coefficient entry.2 * entry.1.offset) laws.bias &&&
    laws.mask⟩
 else
  none

/-- What the laws settle a node to without a row. -/
def fold (uf : UnionFind) (zeros : List (Nat × Nat)) (laws : Laws) (operands : List Ref) : Option Ref :=
 (foldIdentity uf laws operands 0).or ((foldIdentity uf laws operands 1).or (foldLinear uf zeros laws operands))

/-- The key of a row: its cells, their weights, and whether some weight is non-zero. -/
structure Key where
 cells : List Nat
 weights : List Word
 weighted : Bool
deriving DecidableEq

namespace Key

/-- The weights as a table takes them: none when every one is zero. -/
def shown (key : Key) : List Word :=
 if key.weighted then key.weights else []

/-- Swap the cells of the two operands. -/
def exchange (key : Key) : Key where
 cells := (key.cells.set 1 (key.cells.getD 2 0)).set 2 (key.cells.getD 1 0)
 weights := (key.weights.set 1 (key.weights.getD 2 0)).set 2 (key.weights.getD 1 0)
 weighted := key.weighted

/-- Append an operand: its offset stays in the key where it has no coefficient, and moves to the value
where it has one. -/
def operand (laws : Laws) (key : Key × Word) (entry : Ref × Nat) : Key × Word :=
 let coefficient := laws.coefficient entry.2
 if coefficient = 0 then
  (⟨key.1.cells ++ [entry.1.id], key.1.weights ++ [entry.1.offset], key.1.weighted || entry.1.offset != 0⟩, key.2)
 else
  (⟨key.1.cells ++ [entry.1.id], key.1.weights ++ [0], key.1.weighted⟩, key.2 + coefficient * entry.1.offset)

/-- The key of a label over operands, and what the row's value is shifted by. -/
def of (laws : Laws) (label : Nat) (operands : List Ref) : Key × Word :=
 operands.zipIdx.foldl (operand laws) (⟨[label], [0], false⟩, 0)

end Key

/-- What a node comes to before its table is probed. -/
inductive Shaped where
 | ref (found : Ref)
 | key (key : Key) (shift : Word) (exchanged : Bool)

/-! ## The engine -/

structure Engine (L : Type) [Label L] where
 vocabulary : Vocabulary L
 db : Database
 nodes : List (ENode L)
 /-- The e-nodes of each class, in insertion order. -/
 lists : List (List Nat)
 /-- Each carrier's zero class, by carrier key, in the order minted. -/
 zeros : List (Nat × Nat)

namespace Vocabulary

/-- A table is made with every table below it when it gets its first row. -/
def addTables (vocabulary : Vocabulary L) (slot : Nat) (db : Database) : Database :=
 ((vocabulary.shapes.take (slot + 1)).drop db.tables.length).foldl
   (fun db shape => db.addTable (Table.new shape.layout)) db

end Vocabulary

namespace Engine

/-- An empty graph, with a table for every shape the vocabulary knows. -/
def overVocabulary (vocabulary : Vocabulary L) : Engine L :=
 ⟨vocabulary, vocabulary.shapes.foldl (fun db shape => db.addTable (Table.new shape.layout)) Database.new, [], [], []⟩

variable (e : Engine L)

def find (ref : Ref) : Ref :=
 e.db.find ref

def root (id : Nat) : Nat :=
 e.db.root id

/-- How many classes were minted. -/
def classCount : Nat :=
 e.db.space.uf.len

/-- The class of a carrier's zero, if it was minted. -/
def zero (key : Nat) : Option Nat :=
 (e.zeros.find? fun known => known.1 = key).map Prod.snd

def intern (l : L) : Engine L × Nat :=
 let interned := e.vocabulary.intern l
 ({ e with vocabulary := interned.1 }, interned.2)

def shape (label : Nat) (operands : List Ref) : Shaped :=
 let laws := e.vocabulary.lawsAt label
 match if laws.mask ≠ 0 then fold e.db.space.uf e.zeros laws operands else none with
 | some found => .ref found
 | none =>
  let keyed := Key.of laws label operands
  let exchanged := e.vocabulary.commutes label &&
   Table.exceeds (keyed.1.cells.getD 1 0, keyed.1.weights.getD 1 0) (keyed.1.cells.getD 2 0, keyed.1.weights.getD 2 0)
  .key (if exchanged then keyed.1.exchange else keyed.1) (keyed.2 &&& laws.mask) exchanged

def probe (label : Nat) (key : Key) : Option (Option Ref) :=
 e.db.lookup (e.vocabulary.slotOf label) key.cells key.shown

/-! ## Writing -/

/-- Append an e-node to the list of a class. -/
def listNode (node : Node L) (label classId list : Nat) (offsets : List Word) : Engine L :=
 { e with
   nodes := e.nodes ++ [{ node with
    labelId := label, classId := classId, offsets := if offsets.any (· ≠ 0) then some offsets else none }]
   lists := e.lists.set list (e.lists.getD list [] ++ [e.nodes.length]) }

/-- Store a node as a row, valued with its class and tagged with the next e-node. -/
def store (node : Node L) (label : Nat) (key : List Nat) (weights : List Word) (classId list : Nat) :
  Option (Engine L) :=
 let slot := e.vocabulary.slotOf label
 ((e.vocabulary.addTables slot e.db).insert slot key weights (classId, 0) e.nodes.length).map fun db =>
   { e with db := db }.listNode node label classId list (weights.drop 1)

def mintClass (l : L) (label : Nat) (pinned : Bool) : Engine L × Nat :=
 let laws := e.vocabulary.lawsAt label
 let minted := e.db.mint laws.mask pinned
 let e := { e with
  db := minted.1
  lists := e.lists ++ [[]]
  zeros := if pinned then e.zeros ++ (laws.carrier.map fun carrier => (carrier.key, minted.2)).toList else e.zeros }
 match if pinned then none else Label.constant l with
 | none => (e, minted.2)
 | some constant => ((e.intern constant).1, minted.2)

def makeClass (node : Node L) (label : Nat) (key : List Nat) (weights : List Word) (pinned : Bool) :
  Option (Engine L × Nat) :=
 let minted := e.mintClass node.label label pinned
 (minted.1.store node label key weights minted.2 minted.2).map fun e => (e, minted.2)

/-- The class of a carrier's zero, minted where it is the first time. -/
def zeroOrMint (l : L) (carrier : Carrier) : Option (Engine L × Option Nat) :=
 match e.zero carrier.key with
 | some known => some (e, some known)
 | none =>
  match Label.constantOf l 0 with
  | none => some (e, none)
  | some constant =>
   let interned := e.intern constant
   (interned.1.makeClass ⟨constant, []⟩ interned.2 [interned.2] [] true).map fun made => (made.1, some made.2)

/-- The reference an integer constant is: an offset of its carrier's zero. -/
def intConstantRef (node : Node L) : Option (Engine L × Option Ref) :=
 if node.children ≠ [] then
  some (e, none)
 else
  match leafConstant node.label with
  | none => some (e, none)
  | some (carrier, value) =>
   (e.zeroOrMint node.label carrier).map fun minted => (minted.1, minted.2.map fun known => ⟨known, value⟩)

/-- A commutative node keyed in the other order than written keeps its offsets beside the children they
were written on. -/
def exchangeOffsets : Engine L :=
 match e.nodes.getLast? with
 | none => e
 | some last =>
  let exchanged := last.offsets.map fun offsets => (offsets.set 0 (offsets.getD 1 0)).set 1 (offsets.getD 0 0)
  { e with nodes := e.nodes.dropLast ++ [{ last with offsets := exchanged }] }

def insertCanonical (label : Nat) (node : Node L) (operands : List Ref) : Option (Engine L × Ref) :=
 match e.shape label operands with
 | .ref found => some (e, found)
 | .key key shift exchanged =>
  (e.probe label key).bind fun
   | some found => some (e, e.find ⟨found.id, found.offset + shift⟩)
   | none =>
    (e.makeClass node label key.cells key.shown false).map fun made =>
     (if exchanged then made.1.exchangeOffsets else made.1, ⟨made.2, shift⟩)

/-- Intern `node` over its children at offset zero. -/
def add (node : Node L) : Option (Engine L × Ref) :=
 (e.intConstantRef node).bind fun
  | (e, some found) => some (e, found)
  | (e, none) =>
   let operands : List Ref :=
    if e.db.space.uf.deltas.isNone then
     -- no class sits at an offset, so every child is its root at zero
     node.children.map fun child => ⟨e.root child, 0⟩
    else
     node.children.map fun child => e.find ⟨child, 0⟩
   let interned := e.intern node.label
   interned.1.insertCanonical interned.2 ⟨node.label, operands.map Ref.id⟩ operands

/-- Intern `node` over `operands`, which stand in for its children. -/
def insert (node : Node L) (operands : List Ref) : Option (Engine L × Ref) :=
 (e.intConstantRef node).bind fun
  | (e, some found) => some (e, found)
  | (e, none) =>
   let operands := operands.map e.find
   let interned := e.intern node.label
   interned.1.insertCanonical interned.2 ⟨node.label, operands.map Ref.id⟩ operands

/-- Append the list of an absorbed class to the survivor's. -/
def spliceClass (survivor absorbed : Nat) : Engine L :=
 { e with lists := (e.lists.set absorbed []).set survivor (e.lists.getD survivor [] ++ e.lists.getD absorbed []) }

/-- Record that `a` and `b` are one value. Gives the representative, or nothing for a contradiction. -/
def union (a b : Ref) : Engine L × Option Nat :=
 let equated := e.db.equate a b
 let e := { e with db := equated.1 }
 match equated.2 with
 | .same => (e, some (e.root a.id))
 | .contradiction => (e, none)
 | .merged survivor absorbed => (e.spliceClass survivor absorbed, some survivor)

/-! ## Rebuilding -/

/-- A row that left its table, and what it settles to. -/
structure Settled where
 slot : Nat
 value : Ref
 settles : Ref
 row : Nat
deriving DecidableEq

/-- Whether the laws settle a re-keyed row. -/
def dissolve (vocabulary : Vocabulary L) (zeros : List (Nat × Nat)) (uf : UnionFind) : Dissolve (List Settled) :=
 fun settled view =>
  let label := view.cells.getD 0 0
  let operands := (view.cells.drop 1).zipWith Ref.mk (view.weights.drop 1)
  match fold uf zeros (vocabulary.lawsAt label) operands with
  | none => (false, settled)
  | some settles =>
   (true, settled ++ [⟨vocabulary.slotOf label, ⟨view.value.1, view.value.2⟩, settles, view.tag⟩])

/-- Merge what the rows of a pass came to: the values that share a key, then what rows settle to. -/
def mergeAll (collisions : List Collision) (settled : List Settled) : Engine L :=
 let slotAt (row : Nat) : Nat := e.vocabulary.slotOf ((e.nodes[row]?).elim 0 ENode.labelId)
 let collisions := collisions.mergeSort fun a b => e.vocabulary.slotLe (slotAt a.tag) (slotAt b.tag)
 let settled := settled.mergeSort fun a b => e.vocabulary.slotLe a.slot b.slot
 let e := collisions.foldl
  (fun e collision => (union e ⟨collision.kept.1, collision.kept.2⟩ ⟨collision.removed.1, collision.removed.2⟩).1) e
 settled.foldl (fun e settled => (union e settled.value settled.settles).1) e

/-- One pass over the tables. Says whether there was anything to push into them. -/
def rebuildPass : Option (Engine L × Bool) :=
 let offer := if e.vocabulary.reshapes then some (dissolve e.vocabulary e.zeros) else none
 (e.db.canonicalize offer ⟨[], []⟩ []).map fun passed =>
  let e := { e with db := passed.1 }
  if passed.2.2.2 then
   (e.mergeAll passed.2.1.collisions passed.2.2.1, true)
  else
   (e, false)

/-- The loop of passes. -/
def rebuildFrom : Nat → Engine L → Option (Engine L)
 | 0, _ => none
 | fuel + 1, e => e.rebuildPass.bind fun passed => if passed.2 then rebuildFrom fuel passed.1 else some passed.1

/-- Restore congruence to a fixpoint: every pass but the last two merges some classes. -/
def rebuild : Option (Engine L) :=
 e.rebuildFrom (e.classCount + 2)

/-- Close the epoch, as draining the change log does. -/
def takeChanged : Engine L :=
 { e with db := e.db.advance }

end Engine

end Tir.Egraph
