import Tir.RegAlloc.LiveHeld

/-!
# The rows of a function

The tables the rules start from hold exactly the facts of the function (`Seed.has_db_sound`, `Seed.holds_db`,
`Seed.clobber_db`), and the tables they write hold nothing, the fixed windows of FORBID apart.
-/

open List

namespace Tir.RegAlloc.Live

/-! ## Values defined on entry -/

section Walk

variable {seed : Seed} {ops : List MachineOp} {blocks : List MachineBlock} {state : List Nat × List Nat} {v : Nat}

theorem mem_walkOps_defined : v ∈ (ops.foldl Seed.walkOp state).1 ↔ v ∈ state.1 ∨ ∃ op ∈ ops, v ∈ op.defs := by
 induction ops generalizing state with
 | nil => simp
 | cons op ops ih =>
  rw [foldl_cons, ih, Seed.walkOp, mem_append, or_assoc, exists_mem_cons_iff]

/-- Every read of a value that is never defined is met before a definition. -/
theorem mem_walkOps_used (h : v ∉ (ops.foldl Seed.walkOp state).1) :
  v ∈ (ops.foldl Seed.walkOp state).2 ↔ v ∈ state.2 ∨ ∃ op ∈ ops, v ∈ op.uses := by
 induction ops generalizing state with
 | nil => simp
 | cons op ops ih =>
  have hstate : v ∉ state.1 := fun hv => h (mem_walkOps_defined.2 (.inl hv))
  rw [foldl_cons] at h ⊢
  rw [ih h, Seed.walkOp, mem_append, mem_filter, or_assoc, exists_mem_cons_iff]
  simp [hstate]

theorem mem_walkBlocks_defined : v ∈ (blocks.foldl seed.walkBlock state).1 ↔
  v ∈ state.1 ∨ ∃ block ∈ blocks, v ∈ seed.paramsOf block ∨ ∃ op ∈ block.ops, v ∈ op.defs := by
 induction blocks generalizing state with
 | nil => simp
 | cons block blocks ih =>
  rw [foldl_cons, ih, Seed.walkBlock, mem_walkOps_defined, mem_append, exists_mem_cons_iff]
  simp [or_assoc]

theorem mem_walkBlocks_used (h : v ∉ (blocks.foldl seed.walkBlock state).1) :
  v ∈ (blocks.foldl seed.walkBlock state).2 ↔ v ∈ state.2 ∨ ∃ block ∈ blocks, ∃ op ∈ block.ops, v ∈ op.uses := by
 induction blocks generalizing state with
 | nil => simp
 | cons block blocks ih =>
  rw [foldl_cons] at h ⊢
  have hblk : v ∉ (block.ops.foldl Seed.walkOp (state.1 ++ seed.paramsOf block, state.2)).1 :=
   fun hv => h (mem_walkBlocks_defined.2 (.inl hv))
  rw [ih h, Seed.walkBlock, mem_walkOps_used hblk, or_assoc, exists_mem_cons_iff]

end Walk

namespace Seed

variable {seed : Seed}

theorem exists_hasOp {P : MachineOp → Prop} : (∃ block ∈ seed.blocks, ∃ op ∈ block.ops, P op) ↔ ∃ b i op, seed.HasOp b i op ∧ P op := by
 constructor
 · rintro ⟨block, hblk, op, hop, h⟩
   obtain ⟨b, hb⟩ := getElem?_of_mem hblk
   obtain ⟨i, hi⟩ := getElem?_of_mem hop
   exact ⟨b, i, op, ⟨block, hb, hi⟩, h⟩
 · rintro ⟨b, i, op, ⟨block, hb, hi⟩, h⟩
   exact ⟨block, mem_of_getElem? hb, op, mem_of_getElem? hi, h⟩

theorem mem_entryArguments {v : Nat} : v ∈ seed.entryArguments ↔ seed.Unwritten v := by
 have hused : (∃ b i, seed.Use b i v) ↔ ∃ block ∈ seed.blocks, ∃ op ∈ block.ops, v ∈ op.uses := exists_hasOp.symm
 have hdefined : v ∈ (seed.blocks.foldl seed.walkBlock ([], [])).1 ↔ (∃ b i, seed.Def b i v) ∨ ∃ b, seed.Argument b v := by
  have hdefs : (∃ b i, seed.Def b i v) ↔ ∃ block ∈ seed.blocks, ∃ op ∈ block.ops, v ∈ op.defs := exists_hasOp.symm
  have hargs : (∃ b, seed.Argument b v) ↔ ∃ block ∈ seed.blocks, v ∈ seed.paramsOf block := by
   simp only [Argument, mem_iff_getElem?]
   exact ⟨fun ⟨b, block, hblk, hv⟩ => ⟨block, ⟨b, hblk⟩, hv⟩, fun ⟨block, ⟨b, hblk⟩, hv⟩ => ⟨b, block, hblk, hv⟩⟩
  grind [mem_walkBlocks_defined]
 simp only [entryArguments, mem_eraseDups, mem_filter, decide_eq_true_eq]
 constructor
 · rintro ⟨hmem, hnot⟩
   rw [mem_walkBlocks_used hnot] at hmem
   rw [hdefined] at hnot
   push Not at hnot
   exact ⟨hused.2 (hmem.resolve_left not_mem_nil), hnot⟩
 · rintro ⟨huse, hdefs, hargs⟩
   grind [mem_walkBlocks_used]

end Seed

/-! ## Writes in turn -/

namespace Seed

def Write.table : Write → Table
 | .row table _ | .insert table _ | .mint table _ _ => table

def Write.key : Write → List Id
 | .row _ key => key
 | .insert _ entry => entry.key
 | .mint _ key _ => key

section Writes

variable {db : Db} {write : Write} {writes : List Write} {table : Table} {key : List Id}

theorem has_run : (write.run db).Has table key ↔ db.Has table key ∨ table = write.table ∧ key = write.key := by
 have happend : ∀ (other : Table) (entry : Row), (∃ row ∈ (db.insert other entry).rows table, row.key = key) ↔
   db.Has table key ∨ table = other ∧ key = entry.key := by
  intro other entry
  simp only [Db.insert, Function.update_apply]
  split
  · rename_i hsame
    subst hsame
    simp [or_and_right, exists_or, Db.Has, @eq_comm _ key entry.key]
  · rename_i hne
    simp [hne, Db.Has]
 cases write with
 | row other added =>
  cases hlookup : db.lookup other added with
  | none =>
   simp only [Write.run, Db.row, hlookup, Write.table, Write.key]
   exact happend other ⟨added, .row db.minted, 0⟩
  | some row =>
   simp only [Write.run, Db.row, hlookup, Write.table, Write.key]
   refine ⟨.inl, fun h => h.elim id ?_⟩
   rintro ⟨rfl, rfl⟩
   exact ⟨row, Db.mem_of_lookup hlookup⟩
 | insert other entry => exact happend other entry
 | mint other added tag => exact happend other ⟨added, .row db.minted, tag⟩

theorem has_writes : (writes.foldl Write.run db).Has table key ↔
  db.Has table key ∨ ∃ write ∈ writes, table = write.table ∧ key = write.key := by
 induction writes generalizing db with
 | nil => simp
 | cons write writes ih =>
  rw [foldl_cons, ih, has_run, or_assoc, exists_mem_cons_iff]

/-- A table that is only inserted into holds what is inserted. -/
theorem mem_writes {row : Row} (honly : ∀ write ∈ writes, write.table = table → ∃ entry, write = .insert table entry) :
  row ∈ (writes.foldl Write.run db).rows table ↔ row ∈ db.rows table ∨ .insert table row ∈ writes := by
 induction writes generalizing db with
 | nil => simp
 | cons write writes ih =>
  obtain ⟨hwrite, hwrites⟩ := forall_mem_cons.1 honly
  have hrun : row ∈ (write.run db).rows table ↔ row ∈ db.rows table ∨ .insert table row = write := by
   by_cases htable : write.table = table
   · obtain ⟨entry, rfl⟩ := hwrite htable
     simp [Write.run, Db.insert]
   · have hne : Write.insert table row ≠ write := fun h => htable (h ▸ rfl)
     simp only [hne, or_false]
     cases write with
     | row other added =>
      rw [Write.run, Db.row]
      split
      · rfl
      · have hother : table ≠ other := Ne.symm htable
        rw [Db.rows_mintRow, if_neg hother]
     | insert other entry =>
      have hother : table ≠ other := Ne.symm htable
      simp [Write.run, Db.insert, Function.update_of_ne hother]
     | mint other added tag =>
      have hother : table ≠ other := Ne.symm htable
      rw [Write.run, Db.rows_mintRow, if_neg hother]
  rw [foldl_cons, ih hwrites, hrun, or_assoc, mem_cons]

theorem cell_writes : (writes.foldl Write.run db).cell = db.cell := by
 induction writes generalizing db with
 | nil => rfl
 | cons write writes ih =>
  rw [foldl_cons, ih]
  cases write with
  | row other added =>
   rw [Write.run, Db.row]
   split <;> rfl
  | insert other entry => rfl
  | mint other added tag => rfl

end Writes

/-! ## The seeded tables -/

variable {seed : Seed}

/-- The writes of a function's rows and of its copies, in their order. -/
def writes (seed : Seed) : List Write :=
 seed.functionWrites ++
  seed.copies.flatMap (seed.copyWrites ((seed.functionWrites.foldl Write.run Db.empty).rows .defs))

theorem db_eq : seed.db = seed.writes.foldl Write.run Db.empty := by
 rw [writes, foldl_append]
 rfl

/-- What a key of a seeded table says of the function. -/
def Seeded (seed : Seed) : Table → List Id → Prop
 | .holds, key => ∃ b i op, seed.HasOp b i op ∧ key = [.op b i]
 | .uses, key => ∃ b i v, seed.Use b i v ∧ key = [.op b i, .value v]
 | .defs, key => ∃ b i v, seed.Def b i v ∧ key = [.op b i, .value v]
 | .definedIn, key => ∃ b v, seed.DefinedIn b v ∧ key = [.block b, .value v]
 | .param, key => ∃ b v, seed.Param b v ∧ key = [.block b, .value v]
 | .edge, key => ∃ b b', seed.Edge b b' ∧ key = [.block b, .block b']
 | .clobber, key => ∃ b i register, seed.Clobber b i register ∧ key = [.op b i]
 | .forbid, key => ∃ block ∈ seed.blocks, ∃ entry ∈ seed.refused block, key = [.plain (seed.register entry.1), .value entry.2]
 | .phi, _ | .copy, _ | .same, _ => True
 | .livein, _ | .liveout, _ | .range, _ | .liveAt, _ | .interfere, _ | .affinity, _ => False

variable {b : Nat} {op : MachineOp} {write : Write} {key : List Id} {table : Table} {row : Row}

theorem mem_opWrites {i : Nat} : write ∈ seed.opWrites b (op, i) ↔
  write = .insert .holds ⟨[.op b i], .block b, point i⟩ ∨ (∃ v ∈ op.uses, write = .row .uses [.op b i, .value v]) ∨
    (∃ v ∈ op.defs, write = .row .defs [.op b i, .value v] ∨ write = .row .definedIn [.block b, .value v]) ∨
     (∃ register, (register ∈ op.physDefs ∧ seed.allocatable register = true) ∧
      write = .insert .clobber ⟨[.op b i], .op b i, seed.register register⟩) ∨
      (∃ b', (b' ∈ op.successors ∧ b' < seed.blocks.length) ∧ write = .row .edge [.block b, .block b']) ∨
       write ∈ seed.phiWrites b op := by
 simp [opWrites, eq_comm (b := write)]

theorem mem_phiWrites (h : write ∈ seed.phiWrites b op) : ∃ entry, write = .insert .phi entry := by
 rw [phiWrites] at h
 split at h
 · nomatch h
 grind

theorem mem_copyWrites {definitions : List Row} {copy : SeededCopy} (h : write ∈ seed.copyWrites definitions copy) :
  (∃ key tag, write = .mint .copy key tag) ∨ ∃ key, write = .row .same key := by
 rw [copyWrites] at h
 split at h
 · rcases mem_cons.1 h with rfl | h
   · exact .inl ⟨_, _, rfl⟩
   grind
 · nomatch h

theorem mem_paramWrites {values : List Nat} : write ∈ paramWrites b values ↔
  ∃ v ∈ values, write = .row .definedIn [.block b, .value v] ∨ write = .row .param [.block b, .value v] := by
 simp [paramWrites]

theorem mem_functionWrites : write ∈ seed.functionWrites ↔
  (∃ b v, seed.Param b v ∧ (write = .row .definedIn [.block b, .value v] ∨ write = .row .param [.block b, .value v])) ∨
   (∃ b i op, seed.HasOp b i op ∧ write ∈ seed.opWrites b (op, i)) ∨
    ∃ block ∈ seed.blocks, ∃ entry ∈ seed.refused block, write = .row .forbid [.plain (seed.register entry.1), .value entry.2] := by
 simp only [functionWrites, mem_append, mem_flatMap, Prod.exists, mk_mem_zipIdx_iff_getElem?, blockWrites,
  mem_paramWrites, mem_entryArguments, mem_map, eq_comm (b := write)]
 constructor
 · rintro (⟨block, b, hblk, (⟨v, hv, hwrite⟩ | ⟨op, i, hop, hwrite⟩) | ⟨file, register, v, hent, hwrite⟩⟩ | ⟨v, hv, hwrite⟩)
   · exact .inl ⟨b, v, .inl ⟨block, hblk, hv⟩, hwrite⟩
   · exact .inr (.inl ⟨b, i, op, ⟨block, hblk, hop⟩, hwrite⟩)
   · exact .inr (.inr ⟨block, mem_of_getElem? hblk, file, register, v, hent, hwrite⟩)
   · exact .inl ⟨0, v, .inr ⟨rfl, hv⟩, hwrite⟩
 · rintro (⟨b, v, ⟨block, hblk, hv⟩ | ⟨rfl, hv⟩, hwrite⟩ | ⟨b, i, op, ⟨block, hblk, hop⟩, hwrite⟩ |
    ⟨block, hblk, file, register, v, hent, hwrite⟩)
   · exact .inl ⟨block, b, hblk, .inl (.inl ⟨v, hv, hwrite⟩)⟩
   · exact .inr ⟨v, hv, hwrite⟩
   · exact .inl ⟨block, b, hblk, .inl (.inr ⟨op, i, hop, hwrite⟩)⟩
   · obtain ⟨b, hb⟩ := getElem?_of_mem hblk
     exact .inl ⟨block, b, hb, .inr ⟨file, register, v, hent, hwrite⟩⟩

/-- A write says what holds of the function. -/
theorem seeded_of_mem (h : write ∈ seed.writes) : seed.Seeded write.table write.key := by
 rcases mem_append.1 h with h | h
 · rcases mem_functionWrites.1 h with ⟨b, v, hv, rfl | rfl⟩ | ⟨b, i, op, hop, hwrite⟩ | ⟨block, hblk, entry, hent, rfl⟩
   · exact ⟨b, v, .inl hv, rfl⟩
   · exact ⟨b, v, hv, rfl⟩
   · rcases mem_opWrites.1 hwrite with
      rfl | ⟨v, hv, rfl⟩ | ⟨v, hv, rfl | rfl⟩ | ⟨register, hreg, rfl⟩ | ⟨b', hb', rfl⟩ | hphi
     · exact ⟨b, i, op, hop, rfl⟩
     · exact ⟨b, i, v, ⟨op, hop, hv⟩, rfl⟩
     · exact ⟨b, i, v, ⟨op, hop, hv⟩, rfl⟩
     · exact ⟨b, v, .inr ⟨i, op, hop, hv⟩, rfl⟩
     · exact ⟨b, i, register, ⟨op, hop, hreg⟩, rfl⟩
     · exact ⟨b, b', ⟨i, op, hop, hb'⟩, rfl⟩
     · obtain ⟨entry, rfl⟩ := mem_phiWrites hphi
       trivial
   · exact ⟨block, hblk, entry, hent, rfl⟩
 · obtain ⟨copy, -, hcopy⟩ := mem_flatMap.1 h
   obtain ⟨key, tag, rfl⟩ | ⟨key, rfl⟩ := mem_copyWrites hcopy
   · trivial
   · trivial

theorem has_db_sound (h : seed.db.Has table key) : seed.Seeded table key := by
 rw [db_eq, has_writes] at h
 rcases h with ⟨row, hrow, -⟩ | ⟨write, hwrite, rfl, rfl⟩
 · nomatch hrow
 · exact seeded_of_mem hwrite

theorem has_db_of_mem (h : write ∈ seed.functionWrites) : seed.db.Has write.table write.key := by
 rw [db_eq, has_writes]
 exact .inr ⟨write, mem_append_left _ h, rfl, rfl⟩

theorem HasOp.mem {i : Nat} (h : seed.HasOp b i op) (hwrite : write ∈ seed.opWrites b (op, i)) :
  write ∈ seed.functionWrites :=
 mem_functionWrites.2 (.inr (.inl ⟨b, i, op, h, hwrite⟩))

/-- The rows of a function are its reads, its definitions, its parameters, its edges and its fixed windows. -/
theorem has_uses : seed.db.Has .uses key ↔ ∃ b i v, seed.Use b i v ∧ key = [.op b i, .value v] := by
 refine ⟨has_db_sound, ?_⟩
 rintro ⟨b, i, v, ⟨op, hop, hv⟩, rfl⟩
 exact has_db_of_mem (hop.mem (mem_opWrites.2 (.inr (.inl ⟨v, hv, rfl⟩))))

theorem has_defs : seed.db.Has .defs key ↔ ∃ b i v, seed.Def b i v ∧ key = [.op b i, .value v] := by
 refine ⟨has_db_sound, ?_⟩
 rintro ⟨b, i, v, ⟨op, hop, hv⟩, rfl⟩
 exact has_db_of_mem (hop.mem (mem_opWrites.2 (.inr (.inr (.inl ⟨v, hv, .inl rfl⟩)))))

theorem has_definedIn : seed.db.Has .definedIn key ↔ ∃ b v, seed.DefinedIn b v ∧ key = [.block b, .value v] := by
 refine ⟨has_db_sound, ?_⟩
 rintro ⟨b, v, hv | ⟨i, op, hop, hv⟩, rfl⟩
 · exact has_db_of_mem (mem_functionWrites.2 (.inl ⟨b, v, hv, .inl rfl⟩))
 · exact has_db_of_mem (hop.mem (mem_opWrites.2 (.inr (.inr (.inl ⟨v, hv, .inr rfl⟩)))))

theorem has_param : seed.db.Has .param key ↔ ∃ b v, seed.Param b v ∧ key = [.block b, .value v] := by
 refine ⟨has_db_sound, ?_⟩
 rintro ⟨b, v, hv, rfl⟩
 exact has_db_of_mem (mem_functionWrites.2 (.inl ⟨b, v, hv, .inr rfl⟩))

theorem has_edge : seed.db.Has .edge key ↔ ∃ b b', seed.Edge b b' ∧ key = [.block b, .block b'] := by
 refine ⟨has_db_sound, ?_⟩
 rintro ⟨b, b', ⟨i, op, hop, hb'⟩, rfl⟩
 exact has_db_of_mem (hop.mem (mem_opWrites.2 (.inr (.inr (.inr (.inr (.inl ⟨b', hb', rfl⟩)))))))

theorem has_forbid : seed.db.Has .forbid key ↔
  ∃ block ∈ seed.blocks, ∃ entry ∈ seed.refused block, key = [.plain (seed.register entry.1), .value entry.2] := by
 refine ⟨has_db_sound, ?_⟩
 rintro ⟨block, hblk, entry, hent, rfl⟩
 exact has_db_of_mem (mem_functionWrites.2 (.inr (.inr ⟨block, hblk, entry, hent, rfl⟩)))

/-- The tables the rules write start with no rows, the fixed windows apart. -/
theorem rows_db_eq_nil (h : ∀ key, ¬seed.Seeded table key) : seed.db.rows table = [] :=
 eq_nil_iff_forall_not_mem.2 fun row hrow => h row.key (has_db_sound ⟨row, hrow, rfl⟩)

theorem cell_db : seed.db.cell = fun _ _ => none := by
 rw [db_eq, cell_writes]
 rfl

/-- HOLDS and CLOBBER are bags: each write is a row of its own. -/
theorem insert_of_mem (h : write ∈ seed.writes) (htable : write.table = .holds ∨ write.table = .clobber) :
  ∃ entry, write = .insert write.table entry := by
 rcases mem_append.1 h with h | h
 · rcases mem_functionWrites.1 h with ⟨b, v, hv, rfl | rfl⟩ | ⟨b, i, op, hop, hwrite⟩ | ⟨block, hblk, entry, hent, rfl⟩
   · exact absurd htable (by simp [Write.table])
   · exact absurd htable (by simp [Write.table])
   · rcases mem_opWrites.1 hwrite with
      rfl | ⟨v, hv, rfl⟩ | ⟨v, hv, rfl | rfl⟩ | ⟨register, hreg, rfl⟩ | ⟨b', hb', rfl⟩ | hphi
     · exact ⟨_, rfl⟩
     · exact absurd htable (by simp [Write.table])
     · exact absurd htable (by simp [Write.table])
     · exact absurd htable (by simp [Write.table])
     · exact ⟨_, rfl⟩
     · exact absurd htable (by simp [Write.table])
     · obtain ⟨entry, rfl⟩ := mem_phiWrites hphi
       exact ⟨_, rfl⟩
   · exact absurd htable (by simp [Write.table])
 · obtain ⟨copy, -, hcopy⟩ := mem_flatMap.1 h
   obtain ⟨key, tag, rfl⟩ | ⟨key, rfl⟩ := mem_copyWrites hcopy
   · exact absurd htable (by simp [Write.table])
   · exact absurd htable (by simp [Write.table])

/-- What is inserted as a row of its own is a row of an operation. -/
theorem insert_mem_writes :
  .insert table row ∈ seed.writes ↔ ∃ b i op, seed.HasOp b i op ∧ .insert table row ∈ seed.opWrites b (op, i) := by
 constructor
 · intro h
   rcases mem_append.1 h with h | h
   · rcases mem_functionWrites.1 h with ⟨b, v, -, h | h⟩ | hop | ⟨block, -, entry, -, h⟩
     · nomatch h
     · nomatch h
     · exact hop
     · nomatch h
   grind [mem_copyWrites]
 · rintro ⟨b, i, op, hop, hwrite⟩
   exact mem_append_left _ (hop.mem hwrite)

theorem holds_db : row ∈ seed.db.rows .holds ↔ ∃ b i op, seed.HasOp b i op ∧ row = ⟨[.op b i], .block b, point i⟩ := by
 rw [db_eq, mem_writes fun write hwrite htable => htable ▸ insert_of_mem hwrite (.inl htable), insert_mem_writes]
 have hop : ∀ b i op, .insert .holds row ∈ seed.opWrites b (op, i) ↔ row = ⟨[.op b i], .block b, point i⟩ := by
  grind [mem_phiWrites, mem_opWrites]
 simp [hop, Db.empty]

theorem clobber_db : row ∈ seed.db.rows .clobber ↔
  ∃ b i register, seed.Clobber b i register ∧ row = ⟨[.op b i], .op b i, seed.register register⟩ := by
 rw [db_eq, mem_writes fun write hwrite htable => htable ▸ insert_of_mem hwrite (.inr htable), insert_mem_writes]
 have hop : ∀ b i op, .insert .clobber row ∈ seed.opWrites b (op, i) ↔
   ∃ register, (register ∈ op.physDefs ∧ seed.allocatable register = true) ∧ row = ⟨[.op b i], .op b i, seed.register register⟩ := by
  grind [mem_phiWrites, mem_opWrites]
 simp only [hop, Db.empty, not_mem_nil, false_or, Clobber]
 constructor
 · grind
 grind

end Seed

end Tir.RegAlloc.Live
