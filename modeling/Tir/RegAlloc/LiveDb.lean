import Tir.RegAlloc.Registers

/-!
# The database of the allocator

Tables of keyed rows, two lattices over row ids, and rules that are searched against a snapshot and then
applied. `Db.round` is one round of `saturate`: every rule is searched before any of them writes. An id is
what it names; the plain cells of a key are numbers.
-/

open Function

namespace Tir.RegAlloc.Live

/-! ## Tables -/

/-- The tables that the rules read or write. -/
inductive Table where
 | holds | uses | defs | definedIn | param | edge | phi | copy | same | clobber
 | livein | liveout | range | liveAt | interfere | forbid | affinity
deriving DecidableEq

/-- The lattices a range is bounded by. -/
inductive Lattice where
 | start | finish
deriving DecidableEq

/-- A cell of a key, or the value of a row. -/
inductive Id where
 | block (index : Nat)
 | op (block index : Nat)
 | value (number : Nat)
 | row (number : Nat)
 | plain (number : Nat)
deriving DecidableEq

structure Row where
 key : List Id
 value : Id
 tag : Nat
deriving DecidableEq

structure Db where
 rows : Table → List Row
 cell : Lattice → Id → Option Int
 /-- How many row ids are minted. -/
 minted : Nat
 /-- How many raises changed a value. -/
 raises : Nat

namespace Db

def empty : Db :=
 ⟨fun _ => [], fun _ _ => none, 0, 0⟩

def insert (db : Db) (table : Table) (row : Row) : Db :=
 { db with rows := update db.rows table (db.rows table ++ [row]) }

def lookup (db : Db) (table : Table) (key : List Id) : Option Row :=
 (db.rows table).find? fun row => row.key = key

/-- A row with a value of its own. -/
def mintRow (db : Db) (table : Table) (key : List Id) (tag : Nat) : Db :=
 { db.insert table ⟨key, .row db.minted, tag⟩ with minted := db.minted + 1 }

/-- A row with a value of its own, unless the table holds the key. -/
def row (db : Db) (table : Table) (key : List Id) (tag : Nat) : Db :=
 match db.lookup table key with
 | some _ => db
 | none => db.mintRow table key tag

end Db

/-! ## Queries -/

inductive Expr where
 | scalar (slot : Nat)
 | lit (value : Int)
 | add (a : Expr) (value : Int)

/-- What a match binds. -/
structure Env where
 vars : Nat → Option Id
 scalars : Nat → Option Int

namespace Env

def empty : Env :=
 ⟨fun _ => none, fun _ => none⟩

/-- A bound variable only matches the id it has. -/
def bindVar (env : Env) (var : Nat) (id : Id) : Option Env :=
 match env.vars var with
 | some bound => if bound = id then some env else none
 | none => some { env with vars := update env.vars var (some id) }

def bindVars (env : Env) : List Nat → List Id → Option Env
 | [], [] => some env
 | var :: vars, id :: ids => (env.bindVar var id).bind fun env => env.bindVars vars ids
 | _, _ => none

def setScalar (env : Env) (slot : Nat) (value : Int) : Env :=
 { env with scalars := update env.scalars slot (some value) }

end Env

def Expr.eval (env : Env) : Expr → Option Int
 | scalar slot => env.scalars slot
 | lit value => some value
 | add a value => (a.eval env).map (· + value)

inductive Atom where
 /-- Rows of a table: the columns of the key and the value, the tag, and the interval it is in. -/
 | rows (table : Table) (vars : List Nat) (tag : Option Nat) (within : Option (Expr × Expr))
 | lattice (column : Lattice) (key out : Nat)

/-- The tag is in the interval, whose bounds other atoms have bound. -/
def inside (env : Env) (tag : Nat) : Option (Expr × Expr) → Bool
 | none => true
 | some (lo, hi) => (lo.eval env).any (· ≤ (tag : Int)) && (hi.eval env).any ((tag : Int) < ·)

/-- The environment with a row matched. -/
def Atom.matchRow (env : Env) (vars : List Nat) (tag : Option Nat) (within : Option (Expr × Expr)) (row : Row) : Option Env :=
 if inside env row.tag within then
  (env.bindVars vars (row.key ++ [row.value])).map fun env =>
   match tag with
   | some slot => env.setScalar slot row.tag
   | none => env
 else none

/-- The ways to match an atom. -/
def Atom.extend (db : Db) (env : Env) : Atom → List Env
 | rows table vars tag within => (db.rows table).filterMap (matchRow env vars tag within)
 | lattice column key out =>
  match (env.vars key).bind (db.cell column) with
  | some value => [env.setScalar out value]
  | none => []

def search (db : Db) : List Atom → Env → List Env
 | [], env => [env]
 | atom :: atoms, env => (atom.extend db env).flatMap (search db atoms)

/-! ## Rules -/

structure Rule where
 atoms : List Atom
 /-- Pairs of variables that name two ids. -/
 distinct : List (Nat × Nat)
 /-- Tables without a row of these variables as its key. -/
 nots : List (Table × List Nat)
 /-- The table the head inserts into, its plain scalars, its arguments and whether they are an unordered
 pair. -/
 table : Table
 plain : List Nat
 args : List Nat
 sorted : Bool
 /-- The lattices the row of the head is raised in. -/
 raise : List (Lattice × Expr)

def differ (env : Env) (pair : Nat × Nat) : Bool :=
 env.vars pair.1 ≠ env.vars pair.2

/-- No row of the table has the variables as its key. -/
def absent (db : Db) (env : Env) (nested : Table × List Nat) : Bool :=
 (db.rows nested.1).all fun row => row.key.map some ≠ nested.2.map env.vars

namespace Rule

variable (rule : Rule)

def found (db : Db) : List Env :=
 (search db rule.atoms Env.empty).filter fun env =>
  rule.distinct.all (differ env) && rule.nots.all (absent db env)

end Rule

/-- The order of ids, for unordered pairs. -/
def Id.le : Id → Id → Bool
 | .value a, .value b => a ≤ b
 | _, _ => true

/-- A pair with the lower id first. -/
def sortPair : List Id → List Id
 | [a, b] => if a.le b then [a, b] else [b, a]
 | ids => ids

/-- The key of the head, or nothing where an argument is not bound. -/
def Rule.key (rule : Rule) (env : Env) : Option (List Id) := do
 let plain ← rule.plain.mapM fun slot => env.scalars slot
 let args ← rule.args.mapM env.vars
 some (plain.map (fun scalar => .plain scalar.toNat) ++ if rule.sorted then sortPair args else args)

/-- The value a lattice holds after a raise. -/
def Lattice.join : Lattice → Int → Int → Int
 | .start => min
 | .finish => max

namespace Db

/-- The value of the row the head inserts or finds, and the database with that row. -/
def keyed (db : Db) (table : Table) (key : List Id) : Id × Db :=
 match db.lookup table key with
 | some row => (row.value, db)
 | none => (.row db.minted, db.mintRow table key 0)

def setCell (db : Db) (column : Lattice) (id : Id) (value : Int) : Db :=
 { db with
   cell := update db.cell column (update (db.cell column) id (some value))
   raises := db.raises + 1 }

def raise (db : Db) (column : Lattice) (id : Id) (value : Int) : Db :=
 match db.cell column id with
 | none => db.setCell column id value
 | some old => if column.join old value = old then db else db.setCell column id (column.join old value)

/-- A raise whose value is not bound stops the head. -/
def raiseAll (db : Db) (env : Env) (id : Id) : List (Lattice × Expr) → Db
 | [] => db
 | (column, expr) :: rest =>
  match expr.eval env with
  | some value => (db.raise column id value).raiseAll env id rest
  | none => db

/-- A match's head. -/
def apply (db : Db) (rule : Rule) (env : Env) : Db :=
 match rule.key env with
 | some key => let (id, db) := db.keyed rule.table key; db.raiseAll env id rule.raise
 | none => db

/-- Every rule searched against one snapshot, and its matches applied. -/
def round (rules : List Rule) (db : Db) : Db :=
 rules.foldl (fun next rule => (rule.found db).foldl (fun next env => next.apply rule env) next) db

/-- What a round counts to see that it changed nothing. -/
def progress (db : Db) : Nat × Nat :=
 (db.minted, db.raises)

/-- Rounds up to a limit, or until one changes nothing. -/
def rounds (rules : List Rule) : Nat → Db → Db
 | 0, db => db
 | limit + 1, db =>
  let next := db.round rules
  if next.progress = db.progress then next else next.rounds rules limit

end Db

/-- No rule reads a table another writes, or raises a value. -/
def stratified (rules : List Rule) : Bool :=
 let written (table : Table) := rules.any fun rule => rule.table = table
 let reads : Atom → Bool
  | .rows table _ _ _ => written table
  | .lattice _ _ _ => false
 rules.all fun rule => rule.raise.isEmpty && rule.atoms.all (fun atom => !reads atom) &&
  rule.nots.all fun nested => !written nested.1

/-- A stratified rule set is at its fixpoint after the round that searched everything. -/
def Db.saturate (db : Db) (rules : List Rule) (limit : Nat) : Db :=
 db.rounds rules (if stratified rules then 1 else limit)

end Tir.RegAlloc.Live
