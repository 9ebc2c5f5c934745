import Mathlib
import Tir.Basic.Probing

/-!
# Tables

A `Table` is a relation whose key columns determine its value column: columns of cells with lazily
stored weights beside them, and an open-addressing index over the keys. `insert` and
`probeOrInsert` store rows, `get` looks a key up, and `repair` renames the cells in place, restores
the functional dependency and reports the rows that came to share a key. A loop that would not end
and a read past the end give `none`.
-/

open Function List

namespace Tir.Relational

abbrev Weight := BitVec 64

/-- The least power of two that is at least `n`. -/
def nextPowerOfTwo (n : Nat) : Nat :=
 2 ^ Nat.clog 2 n

/-! ## Hashes -/

def HASH_SEED : BitVec 32 := 0x811c9dc5#32

def HASH_MUL : BitVec 32 := 0x9e3779b1#32

def hashRow (cells : List Nat) : BitVec 32 :=
 let hash := cells.foldl (fun hash cell => (hash ^^^ BitVec.ofNat 32 cell) * HASH_MUL) HASH_SEED
 hash ^^^ (hash >>> 15)

def weightHash (column : Nat) (weight : Weight) : BitVec 32 :=
 let mixed := (weight * 0x9e3779b97f4a7c15#64).rotateLeft (column * 7 + 17)
 (mixed ^^^ (mixed >>> 32)).setWidth 32

def keyHash (cells : List Nat) (weights : List Weight) : BitVec 32 :=
 weights.zipIdx.foldl (fun hash entry => hash ^^^ weightHash entry.2 entry.1) (hashRow cells)

/-! ## Rows -/

def swapRemove {α : Type} (xs : List α) (row : Nat) : List α :=
 match xs.getLast? with
 | none => xs
 | some last => (xs.set row last).dropLast

/-- The rows, column by column: the key columns, then the value. -/
structure Rows where
 columns : Nat → List Nat
 /-- The weight beside each cell, or nothing while every weight of the column is zero. -/
 weights : Nat → List Weight
 /-- Whether some column stores weights. -/
 weighted : Bool
 tag : List Nat
 stamp : List Nat

namespace Rows

variable (rows : Rows)

def empty : Rows where
 columns _ := []
 weights _ := []
 weighted := false
 tag := []
 stamp := []

def len : Nat :=
 rows.stamp.length

def cell (column row : Nat) : Nat :=
 (rows.columns column).getD row 0

def weight (column row : Nat) : Weight :=
 (rows.weights column).getD row 0

def setCell (column row cell : Nat) : Rows :=
 { rows with columns := update rows.columns column ((rows.columns column).set row cell) }

def setWeight (column row : Nat) (weight : Weight) : Rows :=
 if rows.weights column = [] then
  if weight = 0 then
   rows
  else
   { rows with
     weights := update rows.weights column ((replicate rows.len 0).set row weight)
     weighted := true }
 else
  { rows with weights := update rows.weights column ((rows.weights column).set row weight) }

def setStamp (row stamp : Nat) : Rows :=
 { rows with stamp := rows.stamp.set row stamp }

/-- Append a row with no weights. -/
def push (arity : Nat) (key : List Nat) (value tag stamp : Nat) : Rows :=
 { rows with
   columns := fun column =>
    if column < arity then rows.columns column ++ [key.getD column 0]
    else if column = arity then rows.columns column ++ [value]
    else rows.columns column
   weights := fun column => if rows.weights column = [] then [] else rows.weights column ++ [0]
   tag := rows.tag ++ [tag]
   stamp := rows.stamp ++ [stamp] }

/-- Give `row` the weights of its key cells. -/
def setWeights (row : Nat) (weights : List Weight) : Rows :=
 weights.zipIdx.foldl (fun rows entry => rows.setWeight entry.2 row entry.1) rows

/-- Append a row, with weights where it has some. -/
def store (arity : Nat) (key : List Nat) (weights : List Weight) (value : Nat × Weight) (tag stamp : Nat) : Rows :=
 let pushed := rows.push arity key value.1 tag stamp
 if weights ≠ [] ∨ value.2 ≠ 0 then
  (pushed.setWeights rows.len weights).setWeight arity rows.len value.2
 else
  pushed

def remove (row : Nat) : Rows :=
 { rows with
   columns := fun column => swapRemove (rows.columns column) row
   weights := fun column => swapRemove (rows.weights column) row
   tag := swapRemove rows.tag row
   stamp := swapRemove rows.stamp row }

def keyCells (arity row : Nat) : List Nat :=
 (List.range arity).map fun column => rows.cell column row

def keyWeights (arity row : Nat) : List Weight :=
 (List.range arity).map fun column => rows.weight column row

def rowMatches (arity : Nat) (key : List Nat) (weights : List Weight) (row : Nat) : Bool :=
 ((List.range arity).all fun column => rows.cell column row == key.getD column 0) &&
   (!rows.weighted && weights.isEmpty ||
    (List.range arity).all fun column => rows.weight column row == weights.getD column 0)

/-- `rowMatches` as a batch compares its keys. -/
def holdsKey (arity : Nat) (key : List Nat) (weights : List Weight) (row : Nat) : Bool :=
 (List.range arity).all fun column =>
  rows.cell column row == key.getD column 0 && rows.weight column row == weights.getD column 0

end Rows

/-! ## The key index -/

/-- `empty` never held a row; a `tombstone` held one that was removed, and a probe walks past it. -/
inductive Slot where
 | empty
 | tombstone
 | entry (hash : BitVec 32) (row : Nat)
deriving DecidableEq

namespace Slot

def isEmpty : Slot → Bool
 | empty => true
 | _ => false

def isFree : Slot → Bool
 | entry _ _ => false
 | _ => true

def holds (row : Nat) : Slot → Bool
 | entry _ held => held = row
 | _ => false

/-- Whether a walk for a key of `hash` ends here: at a row that matches, or where no row was. -/
def ends (hash : BitVec 32) (matched : Nat → Bool) : Slot → Bool
 | empty => true
 | tombstone => false
 | entry held row => held = hash && matched row

end Slot

/-- Slots over the keys of the rows. -/
structure Index where
 slots : List Slot
 /-- Slots that are not empty. -/
 used : Nat

namespace Index

variable (index : Index)

/-- Where a walk for `hash` starts: the number of slots is a power of two. -/
def start (hash : BitVec 32) : Nat :=
 hash.toNat % index.slots.length

def walk (hash : BitVec 32) (matched : Nat → Bool) : Option Nat :=
 probe index.slots (Slot.ends hash matched) (index.start hash)

def slotOf (hash : BitVec 32) (row : Nat) : Option Nat :=
 probe index.slots (Slot.holds row) (index.start hash)

def rowAt (at' : Nat) : Option Nat :=
 match index.slots[at']? with
 | some (.entry _ row) => some row
 | _ => none

def setSlot (at' : Nat) (slot : Slot) : Index :=
 { index with slots := index.slots.set at' slot }

def fill (at' : Nat) (hash : BitVec 32) (row : Nat) : Index :=
 { slots := index.slots.set at' (.entry hash row)
   used := index.used + if (index.slots[at']?).any Slot.isEmpty then 1 else 0 }

def place (row : Nat) (hash : BitVec 32) : Option Index :=
 (probe index.slots Slot.isFree (index.start hash)).map fun at' => index.fill at' hash row

end Index

/-! ## Tables -/

/-- What a table is made with. -/
structure Layout where
 arity : Nat
 /-- Per key column, how `repair` carries the weight its cell picks up: zero keeps it in the key,
 any other coefficient moves it to the value, multiplied and negated. -/
 coefficients : Nat → Weight
 /-- How many leading key columns `repair` leaves as they are. -/
 plain : Nat
 /-- Two key columns whose cells are an unordered pair. -/
 unordered : Option (Fin arity × Fin arity)
 /-- Whether the key is unique; a table that is not keyed is a bag. -/
 keyed : Bool

structure Table extends Layout where
 rows : Rows
 index : Index
 /-- The highest stamp a row was given since the table was last empty. -/
 stamped : Nat
 /-- Every row written since `mark` sits at or past this one. -/
 marked : Nat
 version : Nat
 /-- The rows every repair rewrote or moved another row into. -/
 touched : List Nat
 /-- Per repair the version it left the table at, where its rows start and the length it left. -/
 repairs : List (Nat × Nat × Nat)
 /-- The version the log is complete from. -/
 floor : Nat
 retagged : Nat
 /-- Scratch: the key last loaded and its weights. -/
 key : List Nat
 loaded : List Weight
 /-- Rows out of the index until `repair` puts them back, ascending. -/
 moved : List Nat
 dead : List Nat

/-- How `repair` renames cells: the cell that stands for a cell, and the offset it stands at with the
mask weights on the destination live modulo. -/
structure Rename where
 target : Nat → Nat
 shift : Nat → Option (Weight × Weight)

/-- A re-keyed row as the caller's `dissolve` sees it. -/
structure RowView where
 cells : List Nat
 weights : List Weight
 value : Nat × Weight
 tag : Nat
deriving DecidableEq

structure Collision where
 kept : Nat × Weight
 removed : Nat × Weight
 tag : Nat
deriving DecidableEq

structure Repair where
 collisions : List Collision
 rekeyed : List Nat

/-- The values of the rows `probeOrInsert` stores. -/
inductive Values where
 | each (values : List Nat)
 | first (value : Nat)

def Values.at (index stored : Nat) : Values → Nat
 | each values => values.getD index 0
 | first value => value + stored

/-- A caller's closure over rows, with the state it keeps. -/
abbrev Dissolve (σ : Type) := σ → RowView → Bool × σ

def REBUILD_DIVISOR : Nat := 8

namespace Table

def new (layout : Layout) : Table :=
 { layout with
   rows := Rows.empty
   index := ⟨if layout.keyed then replicate 8 .empty else [], 0⟩
   stamped := 0
   marked := 0
   version := 0
   touched := []
   repairs := []
   floor := 0
   retagged := 0
   key := replicate layout.arity 0
   loaded := replicate layout.arity 0
   moved := []
   dead := [] }

variable (t : Table)

def len : Nat :=
 t.rows.len

/-- Remove every row. -/
def clear : Table :=
 { t with
   rows := Rows.empty
   stamped := 0
   marked := 0
   index := ⟨replicate t.index.slots.length .empty, 0⟩
   version := t.version + 1
   touched := []
   repairs := []
   floor := t.version + 1
   moved := []
   dead := [] }

def setTag (row tag : Nat) : Table :=
 { t with rows := { t.rows with tag := t.rows.tag.set row tag }, retagged := t.retagged + 1 }

def mark : Table :=
 { t with marked := t.len }

/-- The rows the repairs since `version` rewrote or moved another row into, and the fewest rows the
table has had since. -/
def movedSince (version : Nat) : Option (List Nat × Nat) :=
 if version < t.floor then
  none
 else
  let since := t.repairs.dropWhile fun repair => repair.1 ≤ version
  let start := match since with
   | [] => t.touched.length
   | repair :: _ => repair.2.1
  some (t.touched.drop start, ((since.map fun repair => repair.2.2).min?).getD t.len)

/-! ### Lookup -/

/-- The row holding `key` at `weights`. -/
def get (key : List Nat) (weights : List Weight) : Option (Option Nat) :=
 if t.keyed then
  (t.index.walk (keyHash key weights) (t.rows.rowMatches t.arity key weights)).map t.index.rowAt
 else
  some none

def loadKey (row : Nat) : Table :=
 { t with
   key := t.rows.keyCells t.arity row
   loaded := if t.rows.weighted then t.rows.keyWeights t.arity row else t.loaded }

def loadedWeights : List Weight :=
 if t.rows.weighted then t.loaded else []

/-- The slot of `row`, whose key is loaded. -/
def slotOf (row : Nat) : Option Nat :=
 t.index.slotOf (keyHash t.key t.loadedWeights) row

/-! ### Storing rows -/

/-- `rows` without `moved`, both ascending. -/
def skip : List Nat → List Nat → List Nat
 | [], _ => []
 | row :: rows, [] => row :: skip rows []
 | row :: rows, first :: moved =>
  if first = row then skip rows moved else row :: skip rows (first :: moved)

def rowHash (row : Nat) : BitVec 32 :=
 keyHash (t.rows.keyCells t.arity row) (t.rows.keyWeights t.arity row)

/-- Room in the index for `extra` more rows, the rows in `moved` left out. -/
def reserve (extra : Nat) : Option Table :=
 if (t.index.used + extra) * 2 ≤ t.index.slots.length then
  some t
 else
  let size := max (nextPowerOfTwo ((t.len + extra) * 4)) 8
  ((skip (List.range t.len) t.moved).foldlM
    (fun (index : Index) row => index.place row (t.rowHash row))
    ⟨replicate size .empty, 0⟩).map fun index => { t with index := index }

def insert (key : List Nat) (weights : List Weight) (value : Nat × Weight) (tag stamp : Nat) : Option (Table × Nat) :=
 (if t.keyed then t.reserve 1 else some t).bind fun t =>
  let row := t.len
  let t :=
   { t with
     rows := t.rows.store t.arity key weights value tag stamp
     stamped := max t.stamped stamp }
  (if t.keyed then
    (t.index.place row (keyHash key weights)).map fun index => { t with index := index }
   else
    some t).map fun t => ({ t with version := t.version + 1 }, row)

/-- A batch being stored: the table, how many rows it took and the rows found so far. -/
structure Batch where
 table : Table
 stored : Nat
 found : List (Option Nat)

/-- Store a key of a batch as a row, in the free slot its walk ended at. -/
def storeKey (values : Values) (tag stamp : Nat) (b : Batch)
  (entry : (List Nat × List Weight) × Nat) (free : Option Nat) : Batch :=
 let t := b.table
 let row := t.len
 let rows := (t.rows.push t.arity entry.1.1 (values.at entry.2 b.stored) (tag + b.stored) stamp).setWeights
  row entry.1.2
 let index := match free with
  | none => t.index
  | some free =>
   { slots := t.index.slots.set free (.entry (keyHash entry.1.1 entry.1.2) row)
     used := t.index.used + 1 }
 { table := { t with rows := rows, index := index }, stored := b.stored + 1, found := b.found ++ [none] }

def storeStep (values : Values) (tag stamp : Nat) (b : Batch) (entry : (List Nat × List Weight) × Nat) : Option Batch :=
 let t := b.table
 if t.keyed then
  (t.index.walk (keyHash entry.1.1 entry.1.2) (t.rows.holdsKey t.arity entry.1.1 entry.1.2)).map
   fun at' =>
    match t.index.rowAt at' with
    | some row => { b with found := b.found ++ [some row] }
    | none => storeKey values tag stamp b entry (some at')
 else
  some (storeKey values tag stamp b entry none)

/-- Store each key of a batch the table has none of, and give the rows that hold the others. -/
def probeOrInsert (keys : List (List Nat × List Weight)) (values : Values) (tag stamp : Nat) :
  Option (Table × List (Option Nat)) :=
 (if t.keyed then t.reserve keys.length else some t).bind fun t =>
  (keys.zipIdx.foldlM (storeStep values tag stamp) ⟨t, 0, []⟩).map fun b =>
   let t := b.table
   (if b.stored ≠ 0 then
    { t with version := t.version + 1, stamped := max t.stamped stamp }
   else
    t, b.found)

/-! ### Repair -/

section Repair

variable (map : Rename) (stamp : Nat)

/-- The rows from `from` on whose cell of `column` the rename moves. -/
def movedIn (start column : Nat) : List Nat :=
 (List.range t.len).filter fun row =>
  start ≤ row && map.target (t.rows.cell column row) ≠ t.rows.cell column row

/-- The rows some column of a range moves, ascending. -/
def selectMoved (columns : List Nat) (start : Nat) : List Nat :=
 (List.range t.len).filter fun row => columns.any fun column => row ∈ t.movedIn map start column

def moveValue (t : Table) (row : Nat) : Table :=
 let old := t.rows.cell t.arity row
 let rows := t.rows.setCell t.arity row (map.target old)
 let rows := match map.shift old with
  | none => rows
  | some (delta, mask) => rows.setWeight t.arity row ((rows.weight t.arity row + delta) &&& mask)
 { t with rows := rows.setStamp row stamp }

def rekeyColumn (row : Nat) (rows : Rows) (column : Nat) : Rows :=
 let old := rows.cell column row
 let rows := rows.setCell column row (map.target old)
 match map.shift old with
 | none => rows
 | some (delta, mask) =>
  if delta = 0 then
   rows
  else if t.coefficients column = 0 then
   rows.setWeight column row ((rows.weight column row + delta) &&& mask)
  else
   -- op(.., to + delta, ..) == value, so op(.., to, ..) is value minus coefficient times delta
   let moved := t.coefficients column * delta
   let mask := ((map.shift (rows.cell t.arity row)).map Prod.snd).getD (BitVec.allOnes 64)
   rows.setWeight t.arity row ((rows.weight t.arity row - moved) &&& mask)

/-- Whether `(cell, weight)` pairs stand in the wrong order. -/
def exceeds (first second : Nat × Weight) : Bool :=
 second.1 < first.1 || first.1 = second.1 && second.2.toNat < first.2.toNat

def orderPair (row : Nat) (rows : Rows) : Rows :=
 match t.unordered with
 | none => rows
 | some (a, b) =>
  let first := (rows.cell a row, rows.weight a row)
  let second := (rows.cell b row, rows.weight b row)
  if exceeds first second then
   (((rows.setCell a row second.1).setCell b row first.1).setWeight a row second.2).setWeight b row
     first.2
  else
   rows

/-- Rewrite the key of `row` and keep its pair in order. -/
def rekey (t : Table) (row : Nat) : Table :=
 let rows := (List.range' t.plain (t.arity - t.plain)).foldl (t.rekeyColumn map row) t.rows
 { t with rows := (t.orderPair row rows).setStamp row stamp }

/-- The index is keyed on the cells as they were, so the entry goes before they change. -/
def dropEntry (t : Table) (row : Nat) : Option Table :=
 if t.keyed then
  let t := t.loadKey row
  (t.slotOf row).map fun slot => { t with index := t.index.setSlot slot .tombstone }
 else
  some t

/-- The view of `row` the closure is shown, through the scratch key. -/
def scratchView (row : Nat) : RowView where
 cells := t.key
 weights := t.loaded
 value := (t.rows.cell t.arity row, t.rows.weight t.arity row)
 tag := t.rows.tag.getD row 0

variable {σ : Type} (dissolve : Option (Dissolve σ))

/-- The repair so far: the table, the report and the closure's state. -/
structure Repairing (σ : Type) where
 table : Table
 report : Repair
 state : σ

def offer (r : Repairing σ) (row : Nat) : Repairing σ :=
 match dissolve with
 | none => r
 | some dissolve =>
  let t := r.table.loadKey row
  let answer := dissolve r.state (t.scratchView row)
  { r with
    table := if answer.1 then { t with dead := t.dead ++ [row] } else t
    state := answer.2 }

def rekeyRow (r : Repairing σ) (row : Nat) : Option (Repairing σ) :=
 (dropEntry r.table row).map fun t =>
  let t := rekey map stamp t row
  offer dissolve
   { r with
     table := t
     report := { r.report with rekeyed := r.report.rekeyed ++ [t.rows.cell t.arity row] } } row

/-- Log `row`, unless the value moves of this repair, ascending in `logged`, did. -/
def touch (t : Table) (row : Nat) (logged : List Nat) : Table × List Nat :=
 let logged := logged.dropWhile (· < row)
 if logged.head? = some row then (t, logged) else ({ t with touched := t.touched ++ [row] }, logged)

/-- The rows being put back: the dissolved ones still to skip, and the value moves still to pass. -/
structure Placing where
 table : Table
 report : Repair
 dissolved : List Nat
 logged : List Nat

def placeMoved (p : Placing) (row : Nat) : Option Placing :=
 if p.dissolved.head? = some row then
  some { p with dissolved := p.dissolved.tail }
 else
  let t := p.table.loadKey row
  (t.get t.key t.loadedWeights).bind fun
   | some kept =>
    let collision : Collision :=
     { kept := (t.rows.cell t.arity kept, t.rows.weight t.arity kept)
       removed := (t.rows.cell t.arity row, t.rows.weight t.arity row)
       tag := t.rows.tag.getD row 0 }
    some { p with
     table := { t with dead := t.dead ++ [row] }
     report := { p.report with collisions := p.report.collisions ++ [collision] } }
   | none =>
    (t.index.place row (keyHash t.key t.loadedWeights)).map fun index =>
     let touched := touch { t with index := index } row p.logged
     { p with table := touched.1, logged := touched.2 }

/-- The row that fills the hole may be one written since the mark. -/
def removeRow (t : Table) (row : Nat) : Option Table :=
 let last := t.len - 1
 let t := { t with marked := min t.marked row }
 (if row ≠ last ∧ t.keyed then
   let t := t.loadKey last
   (t.slotOf last).map fun slot =>
    { t with
      index := t.index.setSlot slot (.entry (match t.index.slots[slot]? with
       | some (.entry hash _) => hash
       | _ => 0) row)
      touched := t.touched ++ [row] }
  else
   some t).map fun t => { t with rows := t.rows.remove row }

/-- Put the moved rows back into the index, or report what they collide with. -/
def restore (t : Table) (report : Repair) (logged : List Nat) : Option (Table × Repair) :=
 if t.keyed then
  (t.reserve t.moved.length).bind fun t =>
   (t.moved.foldlM placeMoved ⟨t, report, t.dead, logged⟩).map fun p => (p.table, p.report)
 else
  some ((t.moved.foldl (fun (acc : Table × List Nat) row => touch acc.1 row acc.2) (t, logged)).1, report)

/-- Remove the dead rows, highest first, so the row that fills a hole is never one still to go. -/
def bury (t : Table) : Option Table :=
 let dead := t.dead.insertionSort (· ≤ ·)
 (dead.reverse.foldlM removeRow { t with moved := [], dead := dead }).map fun t => { t with dead := [] }

/-- A log longer than the delta an index rebuilds at serves no one. -/
def closeLog (start : Nat) (t : Table) : Table :=
 let t :=
  { t with
    version := t.version + 1
    stamped := max t.stamped stamp
    repairs := t.repairs ++ [(t.version + 1, start, t.len)] }
 if t.len / REBUILD_DIVISOR < t.touched.length then
  { t with touched := [], repairs := [], floor := t.version }
 else
  t

/-- Rewrite every key cell past the plain ones, and every value cell, through `map`, and restore the
functional dependency. -/
def repair (recent : Bool) (report : Repair) (state : σ) : Option (Table × Repair × σ × Bool) :=
 let start := t.touched.length
 let first := if recent then min t.marked t.len else 0
 let values := t.selectMoved map [t.arity] first
 let t := values.foldl (moveValue map stamp) { t with moved := values }
 let t := { t with touched := t.touched ++ values }
 let keys := t.selectMoved map (List.range' t.plain (t.arity - t.plain)) first
 let any := !values.isEmpty || !keys.isEmpty
 (keys.foldlM (rekeyRow map stamp dissolve) ⟨{ t with moved := keys }, report, state⟩).bind fun r =>
  (restore r.table r.report values).bind fun restored =>
   (bury restored.1).map fun t =>
    (if any then closeLog stamp start t else t, restored.2, r.state, any)

end Repair

end Table

end Tir.Relational
