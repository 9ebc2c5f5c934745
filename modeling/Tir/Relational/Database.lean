import Tir.Relational.Table
import Tir.Relational.UnionFind

/-!
# The database

A `Database` is tables whose cells name the ids of one space, with no assumption layer open. Equating
two references is immediate for `find`; the tables catch up at `canonicalize`, which flattens the
union-find and repairs the tables that may name an absorbed id. Which tables those are is kept as bits:
`Space.holding` says what tables name an id, `Space.unclean` what tables name an absorbed one, and
`Space.aged` whether a row from before the epoch may.
-/

namespace Tir.Relational

/-- The bit of a table in `Space.holding`. The slots past the word share its last bit. -/
def holder (slot : Nat) : Word :=
 1 <<< min slot 63

/-- The rename by a flattened union-find. -/
def UnionFind.rename (uf : UnionFind) : Rename where
 target id := uf.parentOf id
 shift id := uf.deltas.map fun delta => (delta.getD id 0, uf.maskAt (uf.parentOf id))

/-- An id space: a union-find, and what is known of the tables that name its ids. -/
structure Space where
 uf : UnionFind
 /-- Ids minted and not equated away. -/
 live : Nat
 /-- Whether an equate happened since the last canonicalization. -/
 dirty : Bool
 /-- Whether an equate was a contradiction. -/
 contradicted : Bool
 /-- Per id, the tables with a row naming it past the plain columns. -/
 holding : List Word
 /-- The tables with a row naming an id absorbed since the last canonicalization. -/
 unclean : Word
 /-- Whether one of those ids is older than the epoch. -/
 aged : Bool
 /-- The first id the epoch minted. -/
 fresh : Nat

namespace Space

def new : Space :=
 ⟨UnionFind.empty, 0, false, false, [], 0, false, 0⟩

variable (s : Space)

/-- Grow the bits to `size` ids, unless they reach `id`. -/
def reach (id size : Nat) : Space :=
 if s.holding.length ≤ id then
  { s with holding := s.holding ++ List.replicate (size - s.holding.length) 0 }
 else
  s

def addBits (id : Nat) (tables : Word) : Space :=
 { s with holding := s.holding.set id (s.holding.getD id 0 ||| tables) }

/-- Note that a row of the table at `slot` names `id`. An id absorbed already is renamed by the next
canonicalization, whatever epoch that runs in. -/
def holdId (slot : Nat) (s : Space) (id : Nat) : Space :=
 let minted := s.uf.len
 let s := (s.reach id (max minted (id + 1))).addBits id (holder slot)
 if id < minted ∧ s.uf.parentOf id ≠ id then
  { s.addBits (s.uf.root id) (holder slot) with unclean := s.unclean ||| holder slot, aged := true }
 else
  s

def hold (slot : Nat) (ids : List Nat) : Space :=
 ids.foldl (holdId slot) s

def holdAll (id : Nat) (tables : Word) : Space :=
 (s.reach id s.uf.len).addBits id tables

/-- The tables naming an absorbed id are to be canonicalized, and name the survivor from then on. -/
def union (a b : Ref) : Space × Merge :=
 let united := s.uf.union a b
 let s := { s with uf := united.1 }
 match united.2 with
 | .merged survivor absorbed =>
  let held := s.holding.getD absorbed 0
  if held = 0 then
   (s, united.2)
  else
   ({ s with unclean := s.unclean ||| held, aged := s.aged || absorbed < s.fresh }.holdAll survivor held,
    united.2)
 | _ => (s, united.2)

end Space

structure Database where
 tables : List Table
 space : Space
 /-- The stamp a row written now gets. -/
 epoch : Nat

namespace Database

def new : Database :=
 ⟨[], Space.new, 1⟩

variable (db : Database)

def addTable (table : Table) : Database :=
 { db with tables := db.tables ++ [table] }

/-! ## Ids -/

/-- Mint an id in a set of its own. -/
def mint (mask : Word) (pinned : Bool) : Database × Nat :=
 ({ db with space := { db.space with uf := db.space.uf.push mask pinned, live := db.space.live + 1 } },
  db.space.uf.len)

def find (ref : Ref) : Ref :=
 db.space.uf.find ref

def root (id : Nat) : Nat :=
 db.space.uf.root id

/-- Record that `a` and `b` are one value. -/
def equate (a b : Ref) : Database × Merge :=
 let a := db.find a
 let b := db.find b
 if a = b then
  (db, .same)
 else
  let united := db.space.union a b
  match united.2 with
  | .merged survivor absorbed =>
   ({ db with space := { united.1 with live := united.1.live - 1, dirty := true } },
    .merged survivor absorbed)
  | merge => ({ db with space := { united.1 with contradicted := true } }, merge)

/-! ## Rows -/

/-- The value of the row of the table at `slot` that holds a key. -/
def lookup (slot : Nat) (key : List Nat) (weights : List Weight) : Option (Option Ref) :=
 match db.tables[slot]? with
 | none => some none
 | some t => (t.get key weights).map fun found =>
  found.map fun row => db.find ⟨t.rows.cell t.arity row, t.rows.weight t.arity row⟩

/-- Insert a row into the table at `slot`, stamped with the current epoch. -/
def insert (slot : Nat) (key : List Nat) (weights : List Weight) (value : Nat × Weight) (tag : Nat) : Option Database :=
 (db.tables[slot]?).bind fun t =>
  (t.insert key weights value tag db.epoch).map fun inserted =>
   { db with
     tables := db.tables.set slot inserted.1
     space := db.space.hold slot (key.drop t.plain ++ [value.1]) }

/-! ## Canonicalization -/

/-- Repair the tables of `unclean`, the first of them at `slot`. -/
def repairTables {σ : Type} (map : Rename) (unclean : Word) (offer : Option (Dissolve σ)) (epoch : Nat)
  (recent : Bool) : List Table → Nat → Repair → σ → Option (List Table × Repair × σ)
 | [], _, report, state => some ([], report, state)
 | t :: ts, slot, report, state =>
  -- a table none of whose rows names an absorbed id reads the same
  if unclean &&& holder slot ≠ 0 then
   (t.repair map epoch offer recent report state).bind fun repaired =>
    (repairTables map unclean offer epoch recent ts (slot + 1) repaired.2.1 repaired.2.2.1).map
     fun rest => (repaired.1 :: rest.1, rest.2)
  else
   (repairTables map unclean offer epoch recent ts (slot + 1) report state).map
    fun rest => (t :: rest.1, rest.2)

/-- Rename every table through the union-find. The last component says whether there was anything to
push into the tables. -/
def canonicalize {σ : Type} (dissolve : Option (UnionFind → Dissolve σ)) (report : Repair) (state : σ) :
  Option (Database × Repair × σ × Bool) :=
 if db.space.dirty then
  let uf := db.space.uf.flatten
  let space := { db.space with uf := uf, dirty := false, unclean := 0, aged := false }
  (repairTables uf.rename db.space.unclean (dissolve.map fun dissolve => dissolve uf) db.epoch
   (!db.space.aged) db.tables 0 ⟨[], []⟩ state).map
   fun repaired => ({ db with tables := repaired.1, space := space }, repaired.2.1, repaired.2.2, true)
 else
  some (db, report, state, false)

/-- Close the epoch. -/
def advance : Database :=
 { tables := db.tables.map Table.mark
   space := { db.space with
    -- what is still to be canonicalized names ids of the epoch that just closed
    aged := db.space.aged || db.space.unclean != 0
    fresh := db.space.uf.len }
   epoch := db.epoch + 1 }

end Database

end Tir.Relational
