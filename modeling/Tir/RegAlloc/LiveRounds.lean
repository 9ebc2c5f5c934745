import Tir.RegAlloc.LiveSearch

/-!
# Rounds

A write only adds: what a database absorbs it goes on absorbing, and a write changes the database exactly when
its head is not absorbed yet. So rounds whose heads stay in a finite set reach a database that absorbs every
head its rules derive (`Db.rounds_settled`), and a stratified rule set does so in one round
(`Db.round_round`).
-/

open List

namespace Tir.RegAlloc.Live

/-! ## Lattices -/

theorem Lattice.join_self (column : Lattice) (value : Int) : column.join value value = value := by
 cases column
 · exact min_self value
 · exact max_self value

theorem Lattice.join_join (column : Lattice) (old value : Int) : column.join (column.join old value) value = column.join old value := by
 cases column
 · exact min_eq_left (min_le_right old value)
 · exact max_eq_left (le_max_right old value)

/-- What a value covers it covers after a raise. -/
theorem Lattice.join_mono (column : Lattice) {old value : Int} (h : column.join old value = old) (other : Int) :
  column.join (column.join old other) value = column.join old other := by
 cases column <;> simp only [Lattice.join] at h ⊢ <;> omega

namespace Db

variable (db : Db)

def Has (table : Table) (key : List Id) : Prop :=
 ∃ row ∈ db.rows table, row.key = key

/-- Raising to the value changes nothing. -/
def Covers (column : Lattice) (id : Id) (value : Int) : Prop :=
 ∃ old, db.cell column id = some old ∧ column.join old value = old

/-- Writing the head changes nothing. -/
def Absorbs (head : Head) : Prop :=
 ∃ row, db.lookup head.table head.key = some row ∧ ∀ raise ∈ head.raises, db.Covers raise.1 row.value raise.2

/-- The rows minted and the raises that changed a value. -/
def spent : Nat :=
 db.minted + db.raises

variable {db} {table : Table} {key : List Id} {row : Row} {head other : Head} {column : Lattice} {id : Id} {value : Int}

/-! ## Lookups -/

theorem mem_of_lookup (h : db.lookup table key = some row) : row ∈ db.rows table ∧ row.key = key :=
 ⟨mem_of_find?_eq_some h, by simpa using find?_some h⟩

theorem has_iff_lookup : db.Has table key ↔ ∃ row, db.lookup table key = some row := by
 constructor
 · rintro ⟨row, hrow, hkey⟩
   exact Option.isSome_iff_exists.1 (find?_isSome.2 ⟨row, hrow, decide_eq_true hkey⟩)
 · rintro ⟨row, hrow⟩
   exact ⟨row, mem_of_lookup hrow⟩

theorem lookup_eq_none : db.lookup table key = none ↔ ¬db.Has table key := by
 rw [has_iff_lookup, ← Option.isSome_iff_exists, Option.not_isSome_iff_eq_none]

theorem rows_mintRow (db : Db) (table other : Table) (key : List Id) (tag : Nat) :
  (db.mintRow table key tag).rows other =
   if other = table then db.rows table ++ [⟨key, .row db.minted, tag⟩] else db.rows other := by
 simp [mintRow, insert, Function.update_apply]

/-- A row that is found is found after another is minted. -/
theorem lookup_mintRow (h : db.lookup table key = some row) (other : Table) (added : List Id) (tag : Nat) :
  (db.mintRow other added tag).lookup table key = some row := by
 rw [lookup, rows_mintRow]
 split
 · rename_i hsame
   subst hsame
   rw [lookup] at h
   rw [find?_append, h, Option.some_or]
 · exact h

theorem lookup_mintRow_self (h : db.lookup table key = none) (tag : Nat) :
  (db.mintRow table key tag).lookup table key = some ⟨key, .row db.minted, tag⟩ := by
 rw [lookup] at h
 rw [lookup, rows_mintRow, if_pos rfl, find?_append, h, Option.none_or, find?_cons_of_pos (by simp)]

/-! ## Raises -/

/-- The value of a cell after a raise. -/
def raised (column : Lattice) (value : Int) : Option Int → Int
 | none => value
 | some old => column.join old value

theorem rows_raise : (db.raise column id value).rows = db.rows := by
 rw [raise]
 split
 · rfl
 · split <;> rfl

theorem minted_raise : (db.raise column id value).minted = db.minted := by
 rw [raise]
 split
 · rfl
 · split <;> rfl

theorem raise_of_covers (h : db.Covers column id value) : db.raise column id value = db := by
 obtain ⟨old, hold, hjoin⟩ := h
 simp [raise, hold, if_pos hjoin]

theorem raises_raise (h : ¬db.Covers column id value) : (db.raise column id value).raises = db.raises + 1 := by
 rw [raise]
 split
 · rfl
 · rename_i old hold
   rw [if_neg fun hjoin => h ⟨old, hold, hjoin⟩]
   rfl

theorem cell_raise (c : Lattice) (i : Id) : (db.raise column id value).cell c i =
   if c = column ∧ i = id then some (raised column value (db.cell column id)) else db.cell c i := by
 have hset : ∀ new, (db.setCell column id new).cell c i = if c = column ∧ i = id then some new else db.cell c i := by
  intro new
  by_cases hc : c = column
  · subst hc
    by_cases hi : i = id
    · subst hi
      simp [setCell]
    · simp [setCell, hi]
  · simp [setCell, hc]
 cases hcell : db.cell column id with
 | none => simpa only [raise, hcell, raised] using hset value
 | some old =>
  by_cases hjoin : column.join old value = old
  · rw [raise_of_covers ⟨old, hcell, hjoin⟩, raised, hjoin]
    split
    · rename_i hsame
      obtain ⟨rfl, rfl⟩ := hsame
      exact hcell
    · rfl
  · simpa only [raise, hcell, raised, if_neg hjoin] using hset (column.join old value)

theorem covers_raise_self : (db.raise column id value).Covers column id value := by
 refine ⟨raised column value (db.cell column id), by rw [cell_raise, if_pos ⟨rfl, rfl⟩], ?_⟩
 cases db.cell column id with
 | none => exact column.join_self value
 | some old => exact column.join_join old value

theorem Covers.raise {c : Lattice} {i : Id} {v : Int} (h : db.Covers c i v) : (db.raise column id value).Covers c i v := by
 obtain ⟨old, hold, hjoin⟩ := h
 rw [Covers, cell_raise]
 by_cases hsame : c = column ∧ i = id
 · obtain ⟨rfl, rfl⟩ := hsame
   rw [if_pos ⟨rfl, rfl⟩, hold]
   exact ⟨_, rfl, c.join_mono hjoin value⟩
 · rw [if_neg hsame]
   exact ⟨old, hold, hjoin⟩

theorem spent_le_raise : db.spent ≤ (db.raise column id value).spent := by
 by_cases h : db.Covers column id value
 · rw [raise_of_covers h]
 · rw [spent, spent, minted_raise, raises_raise h]
   omega

/-- The raises of a head, on the value of its row. -/
def raiseRow (db : Db) (id : Id) (raises : List (Lattice × Int)) : Db :=
 raises.foldl (fun db raise => db.raise raise.1 id raise.2) db

variable {raises : List (Lattice × Int)}

theorem rows_raiseRow : (db.raiseRow id raises).rows = db.rows := by
 induction raises generalizing db with
 | nil => rfl
 | cons raise raises ih => exact ih.trans rows_raise

theorem lookup_raiseRow : (db.raiseRow id raises).lookup table key = db.lookup table key := by
 rw [lookup, rows_raiseRow, lookup]

theorem minted_raiseRow : (db.raiseRow id raises).minted = db.minted := by
 induction raises generalizing db with
 | nil => rfl
 | cons raise raises ih => exact ih.trans minted_raise

theorem Covers.raiseRow {c : Lattice} {i : Id} {v : Int} (h : db.Covers c i v) : (db.raiseRow id raises).Covers c i v := by
 induction raises generalizing db with
 | nil => exact h
 | cons raise raises ih => exact ih h.raise

theorem covers_raiseRow_self : ∀ raise ∈ raises, (db.raiseRow id raises).Covers raise.1 id raise.2 := by
 induction raises generalizing db with
 | nil => nofun
 | cons raise raises ih => exact forall_mem_cons.2 ⟨covers_raise_self.raiseRow, ih⟩

theorem raiseRow_of_covers (h : ∀ raise ∈ raises, db.Covers raise.1 id raise.2) : db.raiseRow id raises = db := by
 induction raises with
 | nil => rfl
 | cons raise raises ih =>
  obtain ⟨hraise, hraises⟩ := forall_mem_cons.1 h
  rw [raiseRow, foldl_cons, raise_of_covers hraise]
  exact ih hraises

theorem spent_le_raiseRow (db : Db) (id : Id) (raises : List (Lattice × Int)) : db.spent ≤ (db.raiseRow id raises).spent := by
 induction raises generalizing db with
 | nil => exact le_rfl
 | cons raise raises ih => exact spent_le_raise.trans (ih _)

theorem spent_lt_raiseRow (h : ¬∀ raise ∈ raises, db.Covers raise.1 id raise.2) : db.spent < (db.raiseRow id raises).spent := by
 induction raises with
 | nil => exact absurd (fun _ hmem => absurd hmem not_mem_nil) h
 | cons raise raises ih =>
  rw [forall_mem_cons] at h
  by_cases hraise : db.Covers raise.1 id raise.2
  · rw [raiseRow, foldl_cons, raise_of_covers hraise]
    exact ih fun hraises => h ⟨hraise, hraises⟩
  · refine lt_of_lt_of_le ?_ (spent_le_raiseRow _ id raises)
    rw [spent, spent, minted_raise, raises_raise hraise]
    omega

/-! ## Writes -/

/-- A write raises the row of its key, minting it where the table has none. -/
theorem write_cases (db : Db) (head : Head) :
  (∃ row, db.lookup head.table head.key = some row ∧ db.write head = db.raiseRow row.value head.raises) ∨
   ¬db.Has head.table head.key ∧
    db.write head = (db.mintRow head.table head.key 0).raiseRow (.row db.minted) head.raises := by
 cases hlookup : db.lookup head.table head.key with
 | some row => exact .inl ⟨row, rfl, by simp only [write, keyed, hlookup]; rfl⟩
 | none => exact .inr ⟨lookup_eq_none.1 hlookup, by simp only [write, keyed, hlookup]; rfl⟩

theorem lookup_write (h : db.lookup table key = some row) : (db.write head).lookup table key = some row := by
 obtain ⟨found, -, hwrite⟩ | ⟨-, hwrite⟩ := db.write_cases head
 · rw [hwrite, lookup_raiseRow, h]
 · rw [hwrite, lookup_raiseRow, lookup_mintRow h]

theorem covers_write (h : db.Covers column id value) : (db.write head).Covers column id value := by
 obtain ⟨found, -, hwrite⟩ | ⟨-, hwrite⟩ := db.write_cases head
 · rw [hwrite]
   exact h.raiseRow
 · rw [hwrite]
   have hminted : (db.mintRow head.table head.key 0).Covers column id value := h
   exact hminted.raiseRow

theorem Absorbs.write (h : db.Absorbs other) : (db.write head).Absorbs other := by
 obtain ⟨row, hrow, hraises⟩ := h
 exact ⟨row, lookup_write hrow, fun raise hraise => covers_write (hraises raise hraise)⟩

theorem absorbs_write_self : (db.write head).Absorbs head := by
 obtain ⟨found, hfound, hwrite⟩ | ⟨habsent, hwrite⟩ := db.write_cases head
 · rw [hwrite]
   exact ⟨found, lookup_raiseRow.trans hfound, covers_raiseRow_self⟩
 · rw [hwrite]
   exact ⟨_, lookup_raiseRow.trans (lookup_mintRow_self (lookup_eq_none.2 habsent) 0), covers_raiseRow_self⟩

theorem write_of_absorbs (h : db.Absorbs head) : db.write head = db := by
 obtain ⟨row, hrow, hraises⟩ := h
 obtain ⟨found, hfound, hwrite⟩ | ⟨habsent, -⟩ := db.write_cases head
 · cases hrow.symm.trans hfound
   rw [hwrite, raiseRow_of_covers hraises]
 · exact absurd (has_iff_lookup.2 ⟨row, hrow⟩) habsent

theorem spent_lt_write (h : ¬db.Absorbs head) : db.spent < (db.write head).spent := by
 obtain ⟨found, hfound, hwrite⟩ | ⟨-, hwrite⟩ := db.write_cases head
 · rw [hwrite]
   exact spent_lt_raiseRow fun hraises => h ⟨found, hfound, hraises⟩
 · rw [hwrite]
   refine lt_of_lt_of_le ?_ (spent_le_raiseRow _ _ head.raises)
   simp only [spent, mintRow, insert]
   omega

/-- A write adds the key of its head and no other. -/
theorem has_write : (db.write head).Has table key ↔ db.Has table key ∨ table = head.table ∧ key = head.key := by
 obtain ⟨found, hfound, hwrite⟩ | ⟨-, hwrite⟩ := db.write_cases head
 · rw [hwrite, Has, rows_raiseRow]
   refine ⟨.inl, fun h => h.elim id ?_⟩
   rintro ⟨rfl, rfl⟩
   exact ⟨found, mem_of_lookup hfound⟩
 · rw [hwrite, Has, rows_raiseRow, rows_mintRow]
   split
   · rename_i hsame
     subst hsame
     simp [or_and_right, exists_or, Has, eq_comm]
   · rename_i hne
     simp [hne, Has]

theorem rows_write_of_ne (h : table ≠ head.table) : (db.write head).rows table = db.rows table := by
 obtain ⟨found, -, hwrite⟩ | ⟨-, hwrite⟩ := db.write_cases head
 · rw [hwrite, rows_raiseRow]
 · rw [hwrite, rows_raiseRow, rows_mintRow, if_neg h]

/-- A head that raises nothing leaves the lattices. -/
theorem cell_write_of_nil (h : head.raises = []) : (db.write head).cell = db.cell := by
 obtain ⟨found, -, hwrite⟩ | ⟨-, hwrite⟩ := db.write_cases head
 · rw [hwrite, h]
   rfl
 · rw [hwrite, h]
   rfl

/-! ## Heads in turn -/

variable {heads : List Head}

theorem Absorbs.foldl (h : db.Absorbs other) : (heads.foldl Db.write db).Absorbs other := by
 induction heads generalizing db with
 | nil => exact h
 | cons head heads ih => exact ih h.write

theorem absorbs_foldl : ∀ head ∈ heads, (heads.foldl Db.write db).Absorbs head := by
 induction heads generalizing db with
 | nil => nofun
 | cons head heads ih => exact forall_mem_cons.2 ⟨absorbs_write_self.foldl, ih⟩

theorem foldl_of_absorbs (h : ∀ head ∈ heads, db.Absorbs head) : heads.foldl Db.write db = db := by
 induction heads with
 | nil => rfl
 | cons head heads ih =>
  obtain ⟨hhead, hheads⟩ := forall_mem_cons.1 h
  rw [foldl_cons, write_of_absorbs hhead]
  exact ih hheads

theorem spent_le_foldl : db.spent ≤ (heads.foldl Db.write db).spent := by
 induction heads generalizing db with
 | nil => exact le_rfl
 | cons head heads ih =>
  refine le_trans ?_ ih
  by_cases h : db.Absorbs head
  · rw [write_of_absorbs h]
  · exact (spent_lt_write h).le

/-- Heads that spend nothing were absorbed. -/
theorem absorbs_of_spent (h : (heads.foldl Db.write db).spent = db.spent) : ∀ head ∈ heads, db.Absorbs head := by
 induction heads with
 | nil => nofun
 | cons head heads ih =>
  rw [foldl_cons] at h
  by_cases hhead : db.Absorbs head
  · rw [write_of_absorbs hhead] at h
    exact forall_mem_cons.2 ⟨hhead, ih h⟩
  · have hlt := spent_lt_write hhead
    have hle : (db.write head).spent ≤ (heads.foldl Db.write (db.write head)).spent := spent_le_foldl
    omega

theorem has_foldl : (heads.foldl Db.write db).Has table key ↔
  db.Has table key ∨ ∃ head ∈ heads, table = head.table ∧ key = head.key := by
 induction heads generalizing db with
 | nil => simp
 | cons head heads ih =>
  rw [List.foldl_cons, ih, has_write, or_assoc]
  simp

theorem rows_foldl_of_ne (h : ∀ head ∈ heads, table ≠ head.table) : (heads.foldl Db.write db).rows table = db.rows table := by
 induction heads generalizing db with
 | nil => rfl
 | cons head heads ih =>
  obtain ⟨hhead, hheads⟩ := forall_mem_cons.1 h
  exact (ih hheads).trans (rows_write_of_ne hhead)

theorem cell_foldl_of_nil (h : ∀ head ∈ heads, head.raises = []) : (heads.foldl Db.write db).cell = db.cell := by
 induction heads generalizing db with
 | nil => rfl
 | cons head heads ih =>
  obtain ⟨hhead, hheads⟩ := forall_mem_cons.1 h
  exact (ih hheads).trans (cell_write_of_nil hhead)

end Db

/-! ## Settled databases -/

/-- The database absorbs every head its rules derive. -/
def Settled (rules : List Rule) (db : Db) : Prop :=
 ∀ head, Derives rules db head → db.Absorbs head

namespace Db

variable {rules : List Rule} {db : Db}

/-- A round that makes no progress changes nothing, from a database that was settled. -/
theorem round_of_progress (hscoped : ∀ rule ∈ rules, rule.scoped = true) (h : (db.round rules).progress = db.progress) :
  db.round rules = db ∧ Settled rules db := by
 rw [round_eq hscoped] at h ⊢
 have hspent : ((roundHeads rules db).foldl Db.write db).spent = db.spent := by
  rw [progress, progress, Prod.mk.injEq] at h
  rw [spent, spent, h.1, h.2]
 have habsorbs := absorbs_of_spent hspent
 exact ⟨foldl_of_absorbs habsorbs, fun head hhead => habsorbs head ((mem_roundHeads hscoped).2 hhead)⟩

/-- Rounds whose heads stay in a finite set settle: each absorbs a head of the set that the one before did
not, or changes nothing. -/
theorem rounds_settled {Inv : Db → Prop} {heads : Set Head} (hscoped : ∀ rule ∈ rules, rule.scoped = true)
  (hfinite : heads.Finite) (hround : ∀ db, Inv db → Inv (db.round rules))
  (hheads : ∀ db head, Inv db → Derives rules db head → head ∈ heads) (limit : Nat) (hinv : Inv db)
  (hlimit : {head ∈ heads | ¬db.Absorbs head}.ncard < limit) :
  Settled rules (db.rounds rules limit) ∧ Inv (db.rounds rules limit) := by
 induction limit generalizing db with
 | zero => nomatch hlimit
 | succ limit ih =>
  rw [rounds]
  by_cases hprogress : (db.round rules).progress = db.progress
  · obtain ⟨hsame, hsettled⟩ := round_of_progress hscoped hprogress
    rw [if_pos hprogress, hsame]
    exact ⟨hsettled, hinv⟩
  · rw [if_neg hprogress]
    apply ih (hround db hinv)
    obtain ⟨head, hmem, hnew⟩ : ∃ head ∈ roundHeads rules db, ¬db.Absorbs head := by
     by_contra hnone
     push Not at hnone
     rw [round_eq hscoped, foldl_of_absorbs hnone] at hprogress
     exact hprogress rfl
    have hnext : ∀ other, db.Absorbs other → (db.round rules).Absorbs other := by
     intro other hother
     rw [round_eq hscoped]
     exact hother.foldl
    have habsorbed : (db.round rules).Absorbs head := by
     rw [round_eq hscoped]
     exact absorbs_foldl head hmem
    have hlt : {head ∈ heads | ¬(db.round rules).Absorbs head}.ncard < {head ∈ heads | ¬db.Absorbs head}.ncard := by
     refine Set.ncard_lt_ncard ⟨fun other hother => ⟨hother.1, fun h => hother.2 (hnext other h)⟩, fun hsub => ?_⟩
      (hfinite.subset fun other hother => hother.1)
     exact (hsub ⟨hheads db head hinv ((mem_roundHeads hscoped).1 hmem), hnew⟩).2 habsorbed
    omega

end Db

/-! ## Stratified rules -/

def Rule.reads (rule : Rule) (table : Table) : Prop :=
 (∃ vars tag within, Atom.rows table vars tag within ∈ rule.atoms) ∨ ∃ vars, (table, vars) ∈ rule.nots

section Stratified

variable {rules : List Rule} {rule : Rule} {db next : Db}

theorem raise_of_stratified (h : stratified rules = true) (hrule : rule ∈ rules) : rule.raise = [] := by
 simp only [stratified, List.all_eq_true, Bool.and_eq_true] at h
 exact List.isEmpty_iff.1 (h rule hrule).1.1

/-- A table that a stratified rule reads is one no rule writes. -/
theorem ne_of_stratified (h : stratified rules = true) (hrule : rule ∈ rules) {table : Table} (hreads : rule.reads table) :
  ∀ other ∈ rules, table ≠ other.table := by
 simp only [stratified, List.all_eq_true, Bool.and_eq_true, Bool.not_eq_true', List.any_eq_false, decide_eq_true_eq] at h
 intro other hother
 obtain ⟨vars, tag, within, hatom⟩ | ⟨vars, hnested⟩ := hreads
 · have hwritten := (h rule hrule).1.2 _ hatom
   simp only [List.any_eq_false, decide_eq_true_eq] at hwritten
   exact fun hsame => hwritten other hother hsame.symm
 · exact fun hsame => (h rule hrule).2 (table, vars) hnested other hother hsame.symm

theorem search_congr {atoms : List Atom} (hrows : ∀ table vars tag within, Atom.rows table vars tag within ∈ atoms → next.rows table = db.rows table)
  (hcell : next.cell = db.cell) (env : Env) : search next atoms env = search db atoms env := by
 induction atoms generalizing env with
 | nil => rfl
 | cons atom atoms ih =>
  have hatom : atom.extend next env = atom.extend db env := by
   cases atom with
   | rows table vars tag within => rw [Atom.extend, hrows table vars tag within mem_cons_self, Atom.extend]
   | lattice column key out => rw [Atom.extend, hcell, Atom.extend]
  rw [search, search, hatom]
  congr 1
  exact funext fun env => ih (fun table vars tag within hmem => hrows table vars tag within (.tail _ hmem)) env

/-- A rule finds the same in databases that agree on what it reads. -/
theorem found_congr (hrows : ∀ table, rule.reads table → next.rows table = db.rows table) (hcell : next.cell = db.cell) :
  rule.found next = rule.found db := by
 rw [Rule.found, Rule.found, search_congr (fun table vars tag within hmem => hrows table (.inl ⟨vars, tag, within, hmem⟩)) hcell]
 refine filter_congr fun env _ => ?_
 congr 1
 rw [Bool.eq_iff_iff]
 simp only [List.all_eq_true, absent]
 refine forall₂_congr fun nested hnested => ?_
 rw [hrows nested.1 (.inr ⟨nested.2, hnested⟩)]

/-- The heads of rules that raise nothing. -/
def plainHeads (rules : List Rule) (db : Db) : List Head :=
 rules.flatMap fun rule => (rule.found db).filterMap fun env => (rule.key env).map fun key => ⟨rule.table, key, []⟩

theorem mem_plainHeads {head : Head} (h : head ∈ plainHeads rules db) : (∃ rule ∈ rules, head.table = rule.table) ∧ head.raises = [] := by
 obtain ⟨rule, hrule, hmem⟩ := mem_flatMap.1 h
 obtain ⟨env, -, hkey⟩ := mem_filterMap.1 hmem
 obtain ⟨key, -, rfl⟩ := Option.map_eq_some_iff.1 hkey
 exact ⟨⟨rule, hrule, rfl⟩, rfl⟩

theorem round_plain (h : stratified rules = true) (db : Db) : db.round rules = (plainHeads rules db).foldl Db.write db := by
 rw [Db.round, plainHeads, foldl_flatMap]
 refine foldl_ext _ _ db fun next rule hrule => ?_
 rw [foldl_filterMap]
 refine foldl_ext _ _ next fun next env _ => ?_
 rw [Db.apply, raise_of_stratified h hrule]
 cases rule.key env with
 | none => rfl
 | some key => rfl

/-- Rules that read no table they write find in the next round what they found in this one. -/
theorem plainHeads_round (h : stratified rules = true) (db : Db) : plainHeads rules (db.round rules) = plainHeads rules db := by
 have hcell : (db.round rules).cell = db.cell := by
  rw [round_plain h]
  exact Db.cell_foldl_of_nil fun head hhead => (mem_plainHeads hhead).2
 rw [plainHeads, plainHeads]
 refine flatMap_congr fun rule hrule => ?_
 rw [found_congr (fun table hreads => ?_) hcell]
 rw [round_plain h]
 apply Db.rows_foldl_of_ne
 intro head hhead
 obtain ⟨⟨other, hother, htable⟩, -⟩ := mem_plainHeads hhead
 rw [htable]
 exact ne_of_stratified h hrule hreads other hother

/-- One round of a stratified rule set is its fixpoint. -/
theorem Db.round_round (h : stratified rules = true) (db : Db) : (db.round rules).round rules = db.round rules := by
 rw [round_plain h (db.round rules), plainHeads_round h]
 apply foldl_of_absorbs
 rw [round_plain h]
 exact absorbs_foldl

/-- However many rounds a stratified rule set is run for, it ends where one round ends. -/
theorem Db.rounds_stratified (h : stratified rules = true) (db : Db) (limit : Nat) : db.rounds rules (limit + 1) = db.round rules := by
 induction limit generalizing db with
 | zero => rw [rounds, rounds, ite_self]
 | succ limit ih =>
  rw [rounds]
  split
  · rfl
  · rw [ih, round_round h]

theorem Db.saturate_stratified (h : stratified rules = true) (db : Db) (limit : Nat) : db.saturate rules limit = db.round rules := by
 rw [saturate, if_pos h]
 exact db.rounds_stratified h 0

end Stratified

end Tir.RegAlloc.Live
