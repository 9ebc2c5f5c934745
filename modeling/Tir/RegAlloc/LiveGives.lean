import Tir.RegAlloc.LiveRounds
import Tir.RegAlloc.LiveRules

/-!
# What each rule derives

The rules of liveness and of the graph, read as implications between rows.
-/

open List

namespace Tir.RegAlloc.Live

/-- A rule derives a head from a database. -/
def Rule.Gives (rule : Rule) (db : Db) (head : Head) : Prop :=
 ∃ ids numbers, rule.Matches db ids numbers ∧ head = rule.headOf ids numbers

/-- A row of a key with a value, or with a tag besides. -/
def Db.HasRow (db : Db) (table : Table) (key : List Id) (value : Id) : Prop :=
 ∃ row ∈ db.rows table, row.key = key ∧ row.value = value

def Db.HasTag (db : Db) (table : Table) (key : List Id) (value : Id) (tag : Nat) : Prop :=
 ∃ row ∈ db.rows table, row.key = key ∧ row.value = value ∧ row.tag = tag

/-- The assignment of the variables, or of the scalars, in a list. -/
def assign (ids : List Id) (x : Nat) : Id :=
 ids.getD x (.plain 0)

def number (numbers : List Int) (slot : Nat) : Int :=
 numbers.getD slot 0

section Atoms

variable {db : Db} {ids : Nat → Id} {numbers : Nat → Int} {table : Table} {a b x slot : Nat} {lo hi : Expr}

theorem has_iff_hasRow {key : List Id} : db.Has table key ↔ ∃ value, db.HasRow table key value := by
 constructor
 · rintro ⟨row, hrow, hkey⟩
   exact ⟨row.value, row, hrow, hkey, rfl⟩
 · rintro ⟨value, row, hrow, hkey, -⟩
   exact ⟨row, hrow, hkey⟩

theorem holds_lattice {column : Lattice} : (Atom.lattice column a slot).Holds db ids numbers ↔ db.cell column (ids a) = some (numbers slot) :=
 Iff.rfl

theorem holds_pair : (rows table [a, b, x] none).Holds db ids numbers ↔ db.HasRow table [ids a, ids b] (ids x) := by
 refine exists_congr fun row => and_congr_right fun _ => ?_
 have hcols : [a, b, x].map ids = row.key ++ [row.value] ↔ row.key = [ids a, ids b] ∧ row.value = ids x := by
  rw [show [a, b, x].map ids = [ids a, ids b] ++ [ids x] from rfl, append_singleton_inj, eq_comm, @eq_comm _ (ids x)]
 grind

theorem columns_single {row : Row} : [a, x].map ids = row.key ++ [row.value] ↔ row.key = [ids a] ∧ row.value = ids x := by
 rw [show [a, x].map ids = [ids a] ++ [ids x] from rfl, append_singleton_inj, eq_comm, @eq_comm _ (ids x)]

theorem holds_single : (rows table [a, x] none).Holds db ids numbers ↔ db.HasRow table [ids a] (ids x) := by
 refine exists_congr fun row => and_congr_right fun _ => ?_
 grind [columns_single]

theorem holds_tagged : (rows table [a, x] (some slot)).Holds db ids numbers ↔
  ∃ tag : Nat, numbers slot = tag ∧ db.HasTag table [ids a] (ids x) tag := by
 constructor
 · rintro ⟨row, hrow, hcols, htag, -⟩
   obtain ⟨hkey, hval⟩ := columns_single.1 hcols
   exact ⟨row.tag, htag slot rfl, row, hrow, hkey, hval, rfl⟩
 · rintro ⟨tag, htag, row, hrow, hkey, hval, rfl⟩
   refine ⟨row, hrow, columns_single.2 ⟨hkey, hval⟩, ?_, nofun⟩
   rintro other ⟨⟩
   exact htag

theorem holds_within : (opsWithin b a slot lo hi).Holds db ids numbers ↔
  ∃ tag : Nat, numbers slot = tag ∧ db.HasTag .holds [ids a] (ids b) tag ∧ lo.value numbers ≤ tag ∧ (tag : Int) < hi.value numbers := by
 constructor
 · rintro ⟨row, hrow, hcols, htag, hwithin⟩
   obtain ⟨hkey, hval⟩ := columns_single.1 hcols
   exact ⟨row.tag, htag slot rfl, ⟨row, hrow, hkey, hval, rfl⟩, hwithin lo hi rfl⟩
 · rintro ⟨tag, htag, ⟨row, hrow, hkey, hval, rfl⟩, hwithin⟩
   refine ⟨row, hrow, columns_single.2 ⟨hkey, hval⟩, ?_, ?_⟩
   · grind
   grind

end Atoms

/-! ## Liveness -/

section Gives

variable {db : Db} {head : Head}

theorem liveinUse_gives : liveinUse.Gives db head ↔ ∃ op b v d, db.Has .uses [op, v] ∧ db.HasRow .holds [op] b ∧
  db.Has .definedIn [d, v] ∧ b ≠ d ∧ head = ⟨.livein, [b, v], []⟩ := by
 constructor
 · rintro ⟨ids, numbers, ⟨hatoms, hdist, -⟩, rfl⟩
   simp only [liveinUse, forall_mem_cons, holds_pair, holds_single] at hatoms hdist
   exact ⟨ids 1, ids 3, ids 2, ids 4, has_iff_hasRow.2 ⟨_, hatoms.1⟩, hatoms.2.1, has_iff_hasRow.2 ⟨_, hatoms.2.2.1⟩, hdist.1, rfl⟩
 · rintro ⟨op, b, v, d, huse, hholds, hdef, hne, rfl⟩
   obtain ⟨used, hused⟩ := has_iff_hasRow.1 huse
   obtain ⟨defined, hdefined⟩ := has_iff_hasRow.1 hdef
   refine ⟨assign [used, op, v, b, d, defined], number [], ⟨?_, ?_, nofun⟩, rfl⟩
   · simp only [liveinUse, forall_mem_cons, holds_pair, holds_single]
     exact ⟨hused, hholds, hdefined, nofun⟩
   · simp only [liveinUse, forall_mem_cons]
     exact ⟨hne, nofun⟩

theorem liveout_gives : liveout.Gives db head ↔ ∃ b b' v, db.Has .livein [b', v] ∧ db.Has .edge [b, b'] ∧ head = ⟨.liveout, [b, v], []⟩ := by
 constructor
 · rintro ⟨ids, numbers, ⟨hatoms, -, -⟩, rfl⟩
   simp only [liveout, forall_mem_cons, holds_pair] at hatoms
   exact ⟨ids 3, ids 1, ids 2, has_iff_hasRow.2 ⟨_, hatoms.1⟩, has_iff_hasRow.2 ⟨_, hatoms.2.1⟩, rfl⟩
 · rintro ⟨b, b', v, hlive, hedge, rfl⟩
   obtain ⟨live, hlive⟩ := has_iff_hasRow.1 hlive
   obtain ⟨edge, hedge⟩ := has_iff_hasRow.1 hedge
   refine ⟨assign [live, b', v, b, edge], number [], ⟨?_, nofun, nofun⟩, rfl⟩
   simp only [liveout, forall_mem_cons, holds_pair]
   exact ⟨hlive, hedge, nofun⟩

theorem liveinOut_gives : liveinOut.Gives db head ↔
  ∃ b v d, db.Has .liveout [b, v] ∧ db.Has .definedIn [d, v] ∧ b ≠ d ∧ head = ⟨.livein, [b, v], []⟩ := by
 constructor
 · rintro ⟨ids, numbers, ⟨hatoms, hdist, -⟩, rfl⟩
   simp only [liveinOut, forall_mem_cons, holds_pair] at hatoms hdist
   exact ⟨ids 1, ids 2, ids 3, has_iff_hasRow.2 ⟨_, hatoms.1⟩, has_iff_hasRow.2 ⟨_, hatoms.2.1⟩, hdist.1, rfl⟩
 · rintro ⟨b, v, d, hlive, hdef, hne, rfl⟩
   obtain ⟨live, hlive⟩ := has_iff_hasRow.1 hlive
   obtain ⟨defined, hdefined⟩ := has_iff_hasRow.1 hdef
   refine ⟨assign [live, b, v, d, defined], number [], ⟨?_, ?_, nofun⟩, rfl⟩
   · simp only [liveinOut, forall_mem_cons, holds_pair]
     exact ⟨hlive, hdefined, nofun⟩
   · simp only [liveinOut, forall_mem_cons]
     exact ⟨hne, nofun⟩

theorem rangeDef_gives : rangeDef.Gives db head ↔ ∃ op b v, ∃ p : Nat, db.Has .defs [op, v] ∧ db.HasTag .holds [op] b p ∧
  head = ⟨.range, [b, v], [(.start, (p : Int) + 1), (.finish, (p : Int) + 2)]⟩ := by
 constructor
 · rintro ⟨ids, numbers, ⟨hatoms, -, -⟩, rfl⟩
   simp only [rangeDef, forall_mem_cons, holds_pair, holds_tagged] at hatoms
   obtain ⟨hdef, ⟨p, hp, hholds⟩, -⟩ := hatoms
   refine ⟨ids 1, ids 3, ids 2, p, has_iff_hasRow.2 ⟨_, hdef⟩, hholds, ?_⟩
   rw [← hp]
   rfl
 · rintro ⟨op, b, v, p, hdef, hholds, rfl⟩
   obtain ⟨defined, hdefined⟩ := has_iff_hasRow.1 hdef
   refine ⟨assign [defined, op, v, b], number [p], ⟨?_, nofun, nofun⟩, rfl⟩
   simp only [rangeDef, forall_mem_cons, holds_pair, holds_tagged]
   exact ⟨hdefined, ⟨p, rfl, hholds⟩, nofun⟩

theorem rangeUse_gives : rangeUse.Gives db head ↔ ∃ op b v, ∃ p : Nat, db.Has .uses [op, v] ∧ db.HasTag .holds [op] b p ∧
  head = ⟨.range, [b, v], [(.finish, (p : Int))]⟩ := by
 constructor
 · rintro ⟨ids, numbers, ⟨hatoms, -, -⟩, rfl⟩
   simp only [rangeUse, forall_mem_cons, holds_pair, holds_tagged] at hatoms
   obtain ⟨huse, ⟨p, hp, hholds⟩, -⟩ := hatoms
   refine ⟨ids 1, ids 3, ids 2, p, has_iff_hasRow.2 ⟨_, huse⟩, hholds, ?_⟩
   rw [← hp]
   rfl
 · rintro ⟨op, b, v, p, huse, hholds, rfl⟩
   obtain ⟨used, hused⟩ := has_iff_hasRow.1 huse
   refine ⟨assign [used, op, v, b], number [p], ⟨?_, nofun, nofun⟩, rfl⟩
   simp only [rangeUse, forall_mem_cons, holds_pair, holds_tagged]
   exact ⟨hused, ⟨p, rfl, hholds⟩, nofun⟩

/-- The rules that raise a range by the rows of one table. -/
theorem oneRow_gives {rule : Rule} {source : Table} {raises : List (Lattice × Int)} (hatoms : rule.atoms = [rows source [1, 2, 0] none])
  (hdist : rule.distinct = []) (hnots : rule.nots = [])
  (hhead : ∀ ids numbers, rule.headOf ids numbers = ⟨.range, [ids 1, ids 2], raises⟩) :
  rule.Gives db head ↔ ∃ b v, db.Has source [b, v] ∧ head = ⟨.range, [b, v], raises⟩ := by
 constructor
 · rintro ⟨ids, numbers, ⟨hrows, -, -⟩, rfl⟩
   simp only [hatoms, forall_mem_cons, holds_pair] at hrows
   exact ⟨ids 1, ids 2, has_iff_hasRow.2 ⟨_, hrows.1⟩, hhead ids numbers⟩
 · rintro ⟨b, v, hrow, rfl⟩
   obtain ⟨value, hval⟩ := has_iff_hasRow.1 hrow
   refine ⟨assign [value, b, v], number [], ⟨?_, ?_, ?_⟩,
    (hhead (assign [value, b, v]) (number [])).symm⟩
   · simp only [hatoms, forall_mem_cons, holds_pair]
     exact ⟨hval, nofun⟩
   · simp [hdist]
   · simp [hnots]

theorem rangeParam_gives : rangeParam.Gives db head ↔
  ∃ b v, db.Has .param [b, v] ∧ head = ⟨.range, [b, v], [(.start, 1), (.finish, 2)]⟩ :=
 oneRow_gives rfl rfl rfl fun _ _ => rfl

theorem rangeIn_gives : rangeIn.Gives db head ↔ ∃ b v, db.Has .livein [b, v] ∧ head = ⟨.range, [b, v], [(.start, 0)]⟩ :=
 oneRow_gives rfl rfl rfl fun _ _ => rfl

theorem rangeOut_gives : rangeOut.Gives db head ↔ ∃ b v, db.Has .liveout [b, v] ∧ head = ⟨.range, [b, v], [(.finish, EXIT)]⟩ :=
 oneRow_gives rfl rfl rfl fun _ _ => rfl

theorem derives_liveness : Derives liveness db head ↔ liveinUse.Gives db head ∨ liveout.Gives db head ∨ liveinOut.Gives db head ∨
  rangeDef.Gives db head ∨ rangeUse.Gives db head ∨ rangeParam.Gives db head ∨ rangeIn.Gives db head ∨ rangeOut.Gives db head := by
 simp [Derives, liveness, Rule.Gives]

/-! ## The graph -/

/-- A range holds its value between its bounds. -/
def Db.Range (db : Db) (b v : Id) (start finish : Int) : Prop :=
 ∃ row ∈ db.rows .range, row.key = [b, v] ∧ db.cell .start row.value = some start ∧ db.cell .finish row.value = some finish

theorem range_iff {b v : Id} {start finish : Int} : db.Range b v start finish ↔
  ∃ id, db.HasRow .range [b, v] id ∧ db.cell .start id = some start ∧ db.cell .finish id = some finish := by
 constructor
 · rintro ⟨row, hrow, hkey, hstart, hfinish⟩
   exact ⟨row.value, ⟨row, hrow, hkey, rfl⟩, hstart, hfinish⟩
 · rintro ⟨_, ⟨row, hrow, hkey, rfl⟩, hstart, hfinish⟩
   exact ⟨row, hrow, hkey, hstart, hfinish⟩

theorem liveAt_gives : liveAt.Gives db head ↔ ∃ b v op start finish, ∃ p : Nat, db.Range b v start finish ∧ db.HasTag .holds [op] b p ∧
  start - 1 ≤ p ∧ p < finish - 2 ∧ head = ⟨.liveAt, [op, v], []⟩ := by
 constructor
 · rintro ⟨ids, numbers, ⟨hatoms, -, -⟩, rfl⟩
   simp only [liveAt, forall_mem_cons, holds_pair, holds_within, holds_lattice] at hatoms
   obtain ⟨hrng, hstart, hfinish, ⟨p, hp, hholds, hlo, hhi⟩, -⟩ := hatoms
   exact ⟨ids 1, ids 2, ids 3, numbers 1, numbers 2, p, range_iff.2 ⟨ids 0, hrng, hstart, hfinish⟩, hholds, hlo, hhi, rfl⟩
 · rintro ⟨b, v, op, start, finish, p, hrng, hholds, hlo, hhi, rfl⟩
   obtain ⟨id, hrow, hstart, hfinish⟩ := range_iff.1 hrng
   refine ⟨assign [id, b, v, op], number [p, start, finish], ⟨?_, nofun, nofun⟩, rfl⟩
   simp only [liveAt, forall_mem_cons, holds_pair, holds_within, holds_lattice]
   exact ⟨hrow, hstart, hfinish, ⟨p, rfl, hholds, hlo, hhi⟩, nofun⟩

/-- Two values that no SAME row relates. -/
def Db.Apart (db : Db) (v w : Id) : Prop :=
 v ≠ w ∧ ¬db.Has .same [v, w] ∧ ¬db.Has .same [w, v]

theorem interfere_gives : interfere.Gives db head ↔ ∃ b v w op start finish, ∃ p : Nat, db.Range b v start finish ∧
  db.HasTag .holds [op] b p ∧ start - 1 ≤ p ∧ p < finish - 1 ∧ db.Has .defs [op, w] ∧ db.Apart v w ∧
   head = ⟨.interfere, sortPair [v, w], []⟩ := by
 constructor
 · rintro ⟨ids, numbers, ⟨hatoms, hdist, hnots⟩, rfl⟩
   simp only [interfere, forall_mem_cons, holds_pair, holds_within, holds_lattice] at hatoms hdist hnots
   obtain ⟨hrng, hstart, hfinish, ⟨p, hp, hholds, hlo, hhi⟩, hdef, -⟩ := hatoms
   refine ⟨ids 1, ids 2, ids 4, ids 3, numbers 1, numbers 2, p, range_iff.2 ⟨ids 0, hrng, hstart, hfinish⟩, hholds, hlo, hhi,
    has_iff_hasRow.2 ⟨_, hdef⟩, ⟨hdist.1, ?_, ?_⟩, rfl⟩
   · rintro ⟨row, hrow, hkey⟩
     exact hnots.1 row hrow hkey
   · rintro ⟨row, hrow, hkey⟩
     exact hnots.2.1 row hrow hkey
 · rintro ⟨b, v, w, op, start, finish, p, hrng, hholds, hlo, hhi, hdef, ⟨hne, hsame, hsame'⟩, rfl⟩
   obtain ⟨id, hrow, hstart, hfinish⟩ := range_iff.1 hrng
   obtain ⟨defined, hdefined⟩ := has_iff_hasRow.1 hdef
   refine ⟨assign [id, b, v, op, w, defined], number [p, start, finish], ⟨?_, ?_, ?_⟩, rfl⟩
   · simp only [interfere, forall_mem_cons, holds_pair, holds_within, holds_lattice]
     exact ⟨hrow, hstart, hfinish, ⟨p, rfl, hholds, hlo, hhi⟩, hdefined, nofun⟩
   · simp only [interfere, forall_mem_cons]
     exact ⟨hne, nofun⟩
   · simp only [interfere, forall_mem_cons]
     exact ⟨fun row hrow hkey => hsame ⟨row, hrow, hkey⟩, fun row hrow hkey => hsame' ⟨row, hrow, hkey⟩, nofun⟩

theorem entry_gives {first second : Table} : (entry first second).Gives db head ↔ ∃ b v w, db.Has first [b, v] ∧ db.Has second [b, w] ∧
  db.Apart v w ∧ head = ⟨.interfere, sortPair [v, w], []⟩ := by
 constructor
 · rintro ⟨ids, numbers, ⟨hatoms, hdist, hnots⟩, rfl⟩
   simp only [entry, forall_mem_cons, holds_pair] at hatoms hdist hnots
   refine ⟨ids 1, ids 2, ids 3, has_iff_hasRow.2 ⟨_, hatoms.1⟩, has_iff_hasRow.2 ⟨_, hatoms.2.1⟩, ⟨hdist.1, ?_, ?_⟩, rfl⟩
   · rintro ⟨row, hrow, hkey⟩
     exact hnots.1 row hrow hkey
   · rintro ⟨row, hrow, hkey⟩
     exact hnots.2.1 row hrow hkey
 · rintro ⟨b, v, w, hfst, hsnd, ⟨hne, hsame, hsame'⟩, rfl⟩
   obtain ⟨id, hid⟩ := has_iff_hasRow.1 hfst
   obtain ⟨other, hother⟩ := has_iff_hasRow.1 hsnd
   refine ⟨assign [id, b, v, w, other], number [], ⟨?_, ?_, ?_⟩, rfl⟩
   · simp only [entry, forall_mem_cons, holds_pair]
     exact ⟨hid, hother, nofun⟩
   · simp only [entry, forall_mem_cons]
     exact ⟨hne, nofun⟩
   · simp only [entry, forall_mem_cons]
     exact ⟨fun row hrow hkey => hsame ⟨row, hrow, hkey⟩, fun row hrow hkey => hsame' ⟨row, hrow, hkey⟩, nofun⟩

theorem forbid_gives : forbid.Gives db head ↔ ∃ b v op start finish, ∃ p r : Nat, db.Range b v start finish ∧
  db.HasTag .holds [op] b p ∧ start - 1 ≤ p ∧ p < finish - 2 ∧ db.HasTag .clobber [op] op r ∧
   head = ⟨.forbid, [.plain r, v], []⟩ := by
 constructor
 · rintro ⟨ids, numbers, ⟨hatoms, -, -⟩, rfl⟩
   simp only [forbid, forall_mem_cons, holds_pair, holds_within, holds_tagged, holds_lattice] at hatoms
   obtain ⟨hrng, hstart, hfinish, ⟨p, hp, hholds, hlo, hhi⟩, ⟨r, hr, hclobber⟩, -⟩ := hatoms
   refine ⟨ids 1, ids 2, ids 3, numbers 2, numbers 3, p, r, range_iff.2 ⟨ids 0, hrng, hstart, hfinish⟩, hholds, hlo, hhi, hclobber, ?_⟩
   simp [Rule.headOf, Rule.keyOf, forbid, hr]
 · rintro ⟨b, v, op, start, finish, p, r, hrng, hholds, hlo, hhi, hclobber, rfl⟩
   obtain ⟨id, hrow, hstart, hfinish⟩ := range_iff.1 hrng
   refine ⟨assign [id, b, v, op], number [r, p, start, finish], ⟨?_, by rintro _ ⟨⟩, by rintro _ ⟨⟩⟩, rfl⟩
   simp only [forbid, forall_mem_cons, holds_pair, holds_within, holds_tagged, holds_lattice]
   exact ⟨hrow, hstart, hfinish, ⟨p, rfl, hholds, hlo, hhi⟩, ⟨r, rfl, hclobber⟩, by rintro _ ⟨⟩⟩

/-- The affinity rules write AFFINITY alone. -/
theorem derives_graph : Derives graph db head ↔ interfere.Gives db head ∨ (entry .livein .livein).Gives db head ∨
  (entry .livein .param).Gives db head ∨ (entry .param .param).Gives db head ∨ forbid.Gives db head ∨
   affinityPhi.Gives db head ∨ affinityCopy.Gives db head ∨ liveAt.Gives db head := by
 simp [Derives, graph, interfereIn, interfereInParam, interfereParam, 
  Rule.Gives]

theorem Rule.Gives.table_eq {rule : Rule} (h : rule.Gives db head) : head.table = rule.table := by
 obtain ⟨ids, numbers, -, rfl⟩ := h
 rfl

end Gives

end Tir.RegAlloc.Live
