import Tir.RegAlloc.LiveRanges

/-!
# Liveness and interference are exact

The tables of a saturated database against the points at which values are held. Interference is found at the
later of two starts: at a definition, or on the entry of the block.
-/

open List Option

namespace Tir.RegAlloc.Live

open Db Id

theorem graph_scoped : ∀ rule ∈ graph, rule.scoped = true := by
 decide

theorem graph_stratified : stratified graph = true := by
 decide

/-! ## The round of the graph -/

section Graph

variable {db : Db} {table : Table} {key : List Id}

theorem has_graph (limit : Nat) : (db.saturate graph limit).Has table key ↔
  db.Has table key ∨ ∃ head, Derives graph db head ∧ table = head.table ∧ key = head.key := by
 rw [saturate_stratified graph_stratified, round_eq graph_scoped, has_foldl]
 simp [mem_roundHeads graph_scoped]

theorem table_of_graph {head : Head} (h : Derives graph db head) :
  head.table = .interfere ∨ head.table = .forbid ∨ head.table = .affinity ∨ head.table = .liveAt := by
 rcases derives_graph.1 h with h | h | h | h | h | h | h | h
 · exact .inl h.table_eq
 · exact .inl h.table_eq
 · exact .inl h.table_eq
 · exact .inl h.table_eq
 · exact .inr (.inl h.table_eq)
 · exact .inr (.inr (.inl h.table_eq))
 · exact .inr (.inr (.inl h.table_eq))
 · exact .inr (.inr (.inr h.table_eq))

section

variable (limit : Nat) (hinterfere : table ≠ .interfere) (hforbid : table ≠ .forbid) (haffinity : table ≠ .affinity)
  (hlive : table ≠ .liveAt)

include limit hinterfere hforbid haffinity hlive

/-- The graph leaves the tables of liveness and of the function. -/
theorem rows_graph
  : (db.saturate graph limit).rows table = db.rows table := by
 rw [saturate_stratified graph_stratified, round_eq graph_scoped]
 apply rows_foldl_of_ne
 intro head hhead
 rcases table_of_graph ((mem_roundHeads graph_scoped).1 hhead) with h | h | h | h
 · exact h ▸ hinterfere
 · exact h ▸ hforbid
 · exact h ▸ haffinity
 · exact h ▸ hlive

theorem has_of_graph
  : (db.saturate graph limit).Has table key ↔ db.Has table key := by
 rw [Db.Has, rows_graph limit hinterfere hforbid haffinity hlive, Db.Has]

end

theorem range_graph (limit : Nat) {b v : Id} {start finish : Int} :
  (db.saturate graph limit).Range b v start finish ↔ db.Range b v start finish := by
 have hcell : (db.saturate graph limit).cell = db.cell := by
  rw [saturate_stratified graph_stratified, round_plain graph_stratified]
  exact cell_foldl_of_nil fun head hhead => (mem_plainHeads hhead).2
 have hrows : (db.saturate graph limit).rows .range = db.rows .range := rows_graph limit nofun nofun nofun nofun
 rw [Db.Range, hrows, hcell, Db.Range]

end Graph

namespace Seed

variable {seed : Seed} {db : Db}

/-! ## Ranges and points -/

/-- The starts of ranges are the entry of a block and the points at which operations write. -/
theorem StartsAt.le_iff {b v i : Nat} {start : Int} (h : seed.StartsAt b v start) :
  start - 1 ≤ (point i : Int) ↔ start ≤ ((point i + 2 : Nat) : Int) := by
 cases h <;> simp only [point] <;> omega

namespace Inv

variable (h : seed.Inv db) (hstrict : seed.Strict) (hsettled : Settled liveness db)

include h hstrict hsettled

/-- A range covers the points of its block at which the value is held. -/
theorem held_iff {b v x : Nat} (hpoint : seed.IsPoint b x) :
  seed.HeldAt b v x ↔ ∃ start finish, db.Range (.block b) (.value v) start finish ∧ start ≤ (x : Int) ∧ (x : Int) < finish := by
 constructor
 · rintro ⟨-, hwritten, hwanted⟩
   obtain ⟨start, hstart, hle⟩ := written_iff.1 hwritten
   obtain ⟨finish, hfinish, hlt⟩ := (wanted_iff hpoint).1 hwanted
   obtain ⟨row, hrow, hkey, s, hs, hjoin⟩ := h.covers hstrict hsettled .start hstart
   obtain ⟨other, hother, hkey', f, hf, hjoin'⟩ := h.covers hstrict hsettled .finish hfinish
   obtain rfl := h.ranges.keys other hother row hrow (hkey'.trans hkey.symm)
   refine ⟨s, f, ⟨other, hother, hkey, hs, hf⟩, ?_, ?_⟩
   · exact (min_eq_left_iff.1 hjoin).trans hle
   · exact hlt.trans_le (max_eq_left_iff.1 hjoin')
 · rintro ⟨start, finish, hrng, hle, hlt⟩
   obtain ⟨⟨hstart, -⟩, hfinish, -⟩ := (h.range_iff hstrict hsettled).1 hrng
   exact ⟨hpoint, written_iff.2 ⟨start, hstart, hle⟩, (wanted_iff hpoint).2 ⟨finish, hfinish, hlt⟩⟩

/-- A range is open after an operation exactly when its value is held after it. -/
theorem after_iff {b v i : Nat} {op : MachineOp} (hop : seed.HasOp b i op) :
  seed.HeldAt b v (point i + 2) ↔ ∃ start finish, db.Range (.block b) (.value v) start finish ∧
   start - 1 ≤ (point i : Int) ∧ (point i : Int) < finish - 2 := by
 rw [h.held_iff hstrict hsettled (hop.isPoint (by omega))]
 refine exists_congr fun start => exists_congr fun finish => and_congr_right fun hrng => ?_
 obtain ⟨⟨hstart, -⟩, -⟩ := (h.range_iff hstrict hsettled).1 hrng
 rw [hstart.le_iff]
 grind

omit hstrict hsettled in
theorem range_names {b v : Id} {start finish : Int} (hrng : db.Range b v start finish) : ∃ c w, b = .block c ∧ v = .value w := by
 obtain ⟨row, hrow, hkey, -, -⟩ := hrng
 obtain ⟨c, w, hname, -⟩ := h.bounds row hrow
 grind

/-! ## LIVE_AT -/

theorem liveAt_iff {key : List Id} : (∃ head, Derives graph db head ∧ .liveAt = head.table ∧ key = head.key) ↔
  ∃ b i v op, seed.HasOp b i op ∧ seed.HeldAt b v (point i + 2) ∧ key = [.op b i, .value v] := by
 constructor
 · rintro ⟨head, hhead, htable, rfl⟩
   have hgives : liveAt.Gives db head := by
    rcases derives_graph.1 hhead with hrule | hrule | hrule | hrule | hrule | hrule | hrule | hrule
    all_goals first
     | exact hrule
     | exact nomatch htable.trans hrule.table_eq
   obtain ⟨b, v, op, start, finish, p, hrng, hholds, hlo, hhi, rfl⟩ := liveAt_gives.1 hgives
   obtain ⟨c, w, rfl, rfl⟩ := h.range_names hrng
   obtain ⟨c', i, op', hop, rfl, hb, rfl⟩ := h.hasTag_holds.1 hholds
   obtain rfl := block.inj hb
   exact ⟨c, i, w, op', hop, (h.after_iff hstrict hsettled hop).2 ⟨start, finish, hrng, hlo, hhi⟩, rfl⟩
 · rintro ⟨b, i, v, op, hop, hheld, rfl⟩
   obtain ⟨start, finish, hrng, hlo, hhi⟩ := (h.after_iff hstrict hsettled hop).1 hheld
   have hgives := liveAt_gives.2 ⟨.block b, .value v, .op b i, start, finish, point i, hrng,
    h.hasTag_holds.2 ⟨b, i, op, hop, rfl, rfl, rfl⟩, hlo, hhi, rfl⟩
   exact ⟨_, derives_graph.2 (.inr (.inr (.inr (.inr (.inr (.inr (.inr hgives))))))), rfl, rfl⟩

/-! ## FORBID -/

theorem forbid_iff {key : List Id} : (∃ head, Derives graph db head ∧ .forbid = head.table ∧ key = head.key) ↔
  ∃ b i register v, seed.Clobber b i register ∧ seed.HeldAt b v (point i + 2) ∧ key = [.plain (seed.register register), .value v] := by
 constructor
 · rintro ⟨head, hhead, htable, rfl⟩
   have hgives : Live.forbid.Gives db head := by
    rcases derives_graph.1 hhead with hrule | hrule | hrule | hrule | hrule | hrule | hrule | hrule
    all_goals first
     | exact hrule
     | exact nomatch htable.trans hrule.table_eq
   obtain ⟨b, v, op, start, finish, p, r, hrng, hholds, hlo, hhi, hclobber, rfl⟩ := forbid_gives.1 hgives
   obtain ⟨c, w, rfl, rfl⟩ := h.range_names hrng
   obtain ⟨c', i, op', hop, rfl, hb, rfl⟩ := h.hasTag_holds.1 hholds
   obtain rfl := block.inj hb
   obtain ⟨d, j, register, hclobber, hop', rfl⟩ := h.hasTag_clobber.1 hclobber
   obtain ⟨rfl, rfl⟩ := op.inj hop'
   exact ⟨c, i, register, w, hclobber, (h.after_iff hstrict hsettled hop).2 ⟨start, finish, hrng, hlo, hhi⟩, rfl⟩
 · rintro ⟨b, i, register, v, hclobber, hheld, rfl⟩
   obtain ⟨op, hop, -⟩ := id hclobber
   obtain ⟨start, finish, hrng, hlo, hhi⟩ := (h.after_iff hstrict hsettled hop).1 hheld
   have hgives := forbid_gives.2 ⟨.block b, .value v, .op b i, start, finish, point i, seed.register register, hrng,
    h.hasTag_holds.2 ⟨b, i, op, hop, rfl, rfl, rfl⟩, hlo, hhi, h.hasTag_clobber.2 ⟨b, i, register, hclobber, rfl, rfl⟩, rfl⟩
   exact ⟨_, derives_graph.2 (.inr (.inr (.inr (.inr (.inl hgives))))), rfl, rfl⟩

end Inv

/-! ## INTERFERE -/

/-- Two values are held at a common point. -/
def Meet (seed : Seed) (v w : Nat) : Prop :=
 ∃ b x, seed.HeldAt b v x ∧ seed.HeldAt b w x

theorem Meet.symm {v w : Nat} (h : seed.Meet v w) : seed.Meet w v := by
 obtain ⟨b, x, hv, hw⟩ := h
 exact ⟨b, x, hw, hv⟩

theorem sortPair_comm (v w : Nat) : sortPair [.value v, .value w] = sortPair [.value w, .value v] := by
 rcases lt_trichotomy v w with h | rfl | h
 · simp [sortPair, le, h.le, not_le.2 h]
 · rfl
 · simp [sortPair, le, h.le, not_le.2 h]

end Seed

theorem Db.Apart.symm {db : Db} {v w : Id} (h : db.Apart v w) : db.Apart w v :=
 ⟨h.1.symm, h.2.2, h.2.1⟩

namespace Seed.Inv

variable {seed : Seed} {db : Db} (h : seed.Inv db) (hstrict : seed.Strict) (hsettled : Settled liveness db)

include h hstrict hsettled

variable {b v w : Nat}

/-- A value held where another is defined meets it there. -/
theorem meet_of_interfere {i : Nat} {start finish : Int} (hrng : db.Range (.block b) (.value v) start finish)
  (hdef : seed.Def b i w) (hlo : start - 1 ≤ (point i : Int)) (hhi : (point i : Int) < finish - 1) : seed.Meet v w := by
 obtain ⟨op, hop, -⟩ := id hdef
 have hpoint : seed.IsPoint b (point i + 1) := hop.isPoint (by omega)
 refine ⟨b, point i + 1, (h.held_iff hstrict hsettled hpoint).2 ⟨start, finish, hrng, by omega, by omega⟩, hpoint, ?_, ?_⟩
 · exact .inr (.inr ⟨i, hdef, le_rfl⟩)
 · exact .inr (.inr (.inr ⟨i, hdef, by omega⟩))

omit h hstrict hsettled in
/-- A value live into a block, or a parameter of it, is held right after the block's entry. -/
theorem held_entry (hent : seed.LiveIn b v ∨ seed.Param b v) (hpoint : seed.IsPoint b 1) : seed.HeldAt b v 1 := by
 rcases hent with hlive | hparam
 · refine ⟨hpoint, .inl hlive, ?_⟩
   rcases hlive.liveOut_or_use with hout | ⟨i, huse⟩
   · exact .inl hout
   · exact .inr (.inl ⟨i, huse, by simp only [point]; omega⟩)
 · exact ⟨hpoint, .inr (.inl ⟨hparam, le_rfl⟩), .inr (.inr (.inl ⟨hparam, by omega⟩))⟩

omit h hstrict hsettled in
theorem isPoint_one (hent : seed.LiveIn b v ∨ seed.Param b v) : seed.IsPoint b 1 := by
 refine isPoint_of_lt ?_ (by omega)
 rcases hent with hlive | ⟨block, hblk, -⟩ | ⟨rfl, ⟨c, i, op, hop, -⟩, -⟩
 · exact hlive.lt
 · exact (List.getElem?_eq_some_iff.1 hblk).1
 · exact Nat.zero_lt_of_lt hop.lt

omit h hstrict hsettled in
/-- The heads of the rules of entry relate values held right after the entry of a block. -/
theorem meet_of_entry {first second : Table} {head : Head} (hgives : (entry first second).Gives db head)
  (hfst : ∀ key, db.Has first key → ∃ b v, (seed.LiveIn b v ∨ seed.Param b v) ∧ key = [.block b, .value v])
  (hsnd : ∀ key, db.Has second key → ∃ b v, (seed.LiveIn b v ∨ seed.Param b v) ∧ key = [.block b, .value v]) :
  ∃ v w, db.Apart (.value v) (.value w) ∧ seed.Meet v w ∧ head.key = sortPair [.value v, .value w] := by
 obtain ⟨b, v, w, hv, hw, hapart, rfl⟩ := entry_gives.1 hgives
 obtain ⟨c, v', hent, hkey⟩ := hfst _ hv
 obtain ⟨rfl, rfl⟩ : b = .block c ∧ v = .value v' := by simpa using hkey
 obtain ⟨d, w', hent', hkey⟩ := hsnd _ hw
 obtain ⟨hd, rfl⟩ : c = d ∧ w = .value w' := by simpa using hkey
 subst hd
 have hpoint := isPoint_one hent
 exact ⟨v', w', hapart, ⟨c, 1, held_entry hent hpoint, held_entry hent' hpoint⟩, rfl⟩

theorem meet_of_derives {head : Head} (hhead : Derives graph db head) (htable : .interfere = head.table) :
  ∃ v w, db.Apart (.value v) (.value w) ∧ seed.Meet v w ∧ head.key = sortPair [.value v, .value w] := by
 have hin : ∀ key, db.Has .livein key → ∃ b v, (seed.LiveIn b v ∨ seed.Param b v) ∧ key = [.block b, .value v] := by
  intro key hkey
  obtain ⟨b, v, hlive, hname⟩ := h.livein key hkey
  exact ⟨b, v, .inl hlive, hname⟩
 have hparam : ∀ key, db.Has .param key → ∃ b v, (seed.LiveIn b v ∨ seed.Param b v) ∧ key = [.block b, .value v] := by
  intro key hkey
  obtain ⟨b, v, hparam, hname⟩ := h.has_param.1 hkey
  exact ⟨b, v, .inr hparam, hname⟩
 rcases derives_graph.1 hhead with hrule | hrule | hrule | hrule | hrule | hrule | hrule | hrule
 · obtain ⟨b, v, w, op, start, finish, p, hrng, hholds, hlo, hhi, hdef, hapart, rfl⟩ := interfere_gives.1 hrule
   obtain ⟨c, v', rfl, rfl⟩ := h.range_names hrng
   obtain ⟨c', i, op', hop, rfl, hb, rfl⟩ := h.hasTag_holds.1 hholds
   obtain rfl := block.inj hb
   obtain ⟨d, j, w', hwrite, hkey⟩ := h.has_defs.1 hdef
   obtain ⟨⟨rfl, rfl⟩, rfl⟩ : (c = d ∧ i = j) ∧ w = .value w' := by simpa using hkey
   exact ⟨v', w', hapart, h.meet_of_interfere hstrict hsettled hrng hwrite hlo hhi, rfl⟩
 · exact meet_of_entry hrule hin hin
 · exact meet_of_entry hrule hin hparam
 · exact meet_of_entry hrule hparam hparam
 · nomatch htable.trans hrule.table_eq
 · nomatch htable.trans hrule.table_eq
 · nomatch htable.trans hrule.table_eq
 · nomatch htable.trans hrule.table_eq

omit hstrict hsettled in
/-- The definition rule relates a value to those whose ranges it is defined in. -/
theorem derives_of_write {i : Nat} {start finish : Int} (hrng : db.Range (.block b) (.value v) start finish)
  (hdef : seed.Def b i w) (hlo : start ≤ (point i : Int) + 1) (hhi : (point i : Int) + 1 < finish)
  (hapart : db.Apart (.value v) (.value w)) : Derives graph db ⟨.interfere, sortPair [.value v, .value w], []⟩ := by
 obtain ⟨op, hop, hw⟩ := hdef
 have hgives := interfere_gives.2 ⟨.block b, .value v, .value w, .op b i, start, finish, point i, hrng,
  h.hasTag_holds.2 ⟨b, i, op, hop, rfl, rfl, rfl⟩, by omega, by omega, h.has_defs.2 ⟨b, i, w, ⟨op, hop, hw⟩, rfl⟩, hapart, rfl⟩
 exact derives_graph.2 (.inl hgives)

/-- Two values that meet are related: at the later of their starts one is defined while the other is held, or
both start on the entry of the block. -/
theorem derives_of_meet (hmeet : seed.Meet v w) (hapart : db.Apart (.value v) (.value w)) :
  Derives graph db ⟨.interfere, sortPair [.value v, .value w], []⟩ := by
 obtain ⟨b, x, hv, hw⟩ := hmeet
 obtain ⟨start, finish, hrng, hle, hlt⟩ := (h.held_iff hstrict hsettled hv.point).1 hv
 obtain ⟨start', finish', hrng', hle', hlt'⟩ := (h.held_iff hstrict hsettled hw.point).1 hw
 obtain ⟨⟨hstart, -⟩, -⟩ := (h.range_iff hstrict hsettled).1 hrng
 obtain ⟨⟨hstart', -⟩, -⟩ := (h.range_iff hstrict hsettled).1 hrng'
 by_cases hlate : start ≤ start'
 · cases hstart' with
   | write hdef => exact h.derives_of_write hrng hdef hlate (hle'.trans_lt hlt) hapart
   | param hparam =>
    have hsnd := h.has_param.2 ⟨b, w, hparam, rfl⟩
    cases hstart with
    | live hlive =>
     have hgives := entry_gives.2 ⟨_, _, _, h.has_livein hstrict hsettled hlive, hsnd, hapart, rfl⟩
     exact derives_graph.2 (.inr (.inr (.inl hgives)))
    | param hparam' =>
     have hgives := entry_gives.2 ⟨_, _, _, h.has_param.2 ⟨b, v, hparam', rfl⟩, hsnd, hapart, rfl⟩
     exact derives_graph.2 (.inr (.inr (.inr (.inl hgives))))
    | write => exact absurd hlate (by simp only [point]; omega)
   | live hlive' =>
    cases hstart with
    | live hlive =>
     have hgives := entry_gives.2 ⟨_, _, _, h.has_livein hstrict hsettled hlive, h.has_livein hstrict hsettled hlive', hapart, rfl⟩
     exact derives_graph.2 (.inr (.inl hgives))
    | param => omega
    | write => exact absurd hlate (by simp only [point]; omega)
 · rw [sortPair_comm]
   cases hstart with
   | write hdef => exact h.derives_of_write hrng' hdef (le_of_not_ge hlate) (hle.trans_lt hlt') hapart.symm
   | param hparam =>
    cases hstart' with
    | live hlive =>
     have hgives := entry_gives.2
      ⟨_, _, _, h.has_livein hstrict hsettled hlive, h.has_param.2 ⟨b, v, hparam, rfl⟩, hapart.symm, rfl⟩
     exact derives_graph.2 (.inr (.inr (.inl hgives)))
    | param => exact absurd le_rfl hlate
    | write => exact absurd hlate (by simp only [point]; omega)
   | live hlive =>
    cases hstart' with
    | live => exact absurd le_rfl hlate
    | param => omega
    | write => exact absurd hlate (by simp only [point]; omega)

theorem interfere_iff {key : List Id} : (∃ head, Derives graph db head ∧ .interfere = head.table ∧ key = head.key) ↔
  ∃ v w, v < w ∧ key = [.value v, .value w] ∧ seed.Meet v w ∧ ¬db.Has .same [.value v, .value w] ∧ ¬db.Has .same [.value w, .value v] := by
 have hsorted : ∀ {v w : Nat}, v < w → sortPair [.value v, .value w] = [.value v, .value w] := by
  intro v w hlt
  simp [sortPair, le, hlt.le]
 constructor
 · rintro ⟨head, hhead, htable, rfl⟩
   obtain ⟨v, w, hapart, hmeet, hkey⟩ := h.meet_of_derives hstrict hsettled hhead htable
   rcases lt_trichotomy v w with hlt | rfl | hlt
   · exact ⟨v, w, hlt, hkey.trans (hsorted hlt), hmeet, hapart.2⟩
   · exact absurd rfl hapart.1
   · exact ⟨w, v, hlt, (hkey.trans (sortPair_comm v w)).trans (hsorted hlt), hmeet.symm, hapart.symm.2⟩
 · rintro ⟨v, w, hlt, rfl, hmeet, hsame⟩
   have hne : value v ≠ .value w := fun heq => absurd (value.inj heq) hlt.ne
   exact ⟨_, h.derives_of_meet hstrict hsettled hmeet ⟨hne, hsame⟩, rfl, (hsorted hlt).symm⟩

end Seed.Inv

/-! ## Registers -/

namespace Seed

variable {seed : Seed}

theorem register_inj {register other : PhysReg} (h : register ∈ seed.registers) (heq : seed.register register = seed.register other) :
  register = other :=
 (idxOf_inj h).1 heq

/-! ## Exactness -/

/-- The tables of a database say exactly where the values of a function are live and held. -/
structure Exact (seed : Seed) (db : Db) : Prop where
 livein : ∀ key, db.Has .livein key ↔ ∃ b v, seed.LiveIn b v ∧ key = [.block b, .value v]
 liveout : ∀ key, db.Has .liveout key ↔ ∃ b v, seed.LiveOut b v ∧ key = [.block b, .value v]
 range : ∀ b v x, seed.IsPoint b x →
  (seed.HeldAt b v x ↔ ∃ start finish, db.Range (.block b) (.value v) start finish ∧ start ≤ (x : Int) ∧ (x : Int) < finish)
 bounds : ∀ b v start finish, db.Range (.block b) (.value v) start finish ↔
  IsLeast {s | seed.StartsAt b v s} start ∧ IsGreatest {f | seed.EndsAt b v f} finish
 interfere : ∀ key, db.Has .interfere key ↔ ∃ v w, v < w ∧ key = [.value v, .value w] ∧ seed.Meet v w ∧
  ¬db.Has .same [.value v, .value w] ∧ ¬db.Has .same [.value w, .value v]
 forbid : ∀ register ∈ seed.registers, ∀ v, db.Has .forbid [.plain (seed.register register), .value v] ↔
  (∃ b i, seed.Clobber b i register ∧ seed.HeldAt b v (point i + 2)) ∨ ∃ block ∈ seed.blocks, (register, v) ∈ seed.refused block
 liveAt : ∀ key, db.Has .liveAt key ↔ ∃ b i v op, seed.HasOp b i op ∧ seed.HeldAt b v (point i + 2) ∧ key = [.op b i, .value v]
 heldAfter : ∀ b v start finish block, seed.blocks[b]? = some block → db.Range (.block b) (.value v) start finish → ∀ i,
  (db.Has .liveAt [.op b i, .value v] ↔
   (heldAfter start finish block.ops.length).1 ≤ i ∧ i < (heldAfter start finish block.ops.length).2)

/-- The operations a range holds its value after are those between the bounds of `heldAfter`. -/
theorem heldAfter_iff {start finish : Int} {len i : Nat} : (heldAfter start finish len).1 ≤ i ∧ i < (heldAfter start finish len).2 ↔
  i < len ∧ start - 1 ≤ (point i : Int) ∧ (point i : Int) < finish - 2 := by
 simp only [Live.heldAfter, point]
 omega

/-- The graph rules over settled liveness make the tables exact. -/
theorem Inv.exact {db : Db} (h : seed.Inv db) (hstrict : seed.Strict) (hsettled : Settled liveness db) (limit : Nat) :
  seed.Exact (db.saturate graph limit) := by
 have hlivein : ∀ key, (db.saturate graph limit).Has .livein key ↔ db.Has .livein key := fun _ =>
  has_of_graph limit nofun nofun nofun nofun
 have hliveout : ∀ key, (db.saturate graph limit).Has .liveout key ↔ db.Has .liveout key := fun _ =>
  has_of_graph limit nofun nofun nofun nofun
 have hsame : ∀ key, (db.saturate graph limit).Has .same key ↔ db.Has .same key := fun _ =>
  has_of_graph limit nofun nofun nofun nofun
 have hlive : ∀ key, (db.saturate graph limit).Has .liveAt key ↔
   ∃ b i v op, seed.HasOp b i op ∧ seed.HeldAt b v (point i + 2) ∧ key = [.op b i, .value v] := by
  intro key
  have hbef : ¬db.Has .liveAt key := by
   rw [h.has_kept .liveAt nofun nofun nofun]
   exact has_db_sound
  rw [has_graph, or_iff_right hbef, h.liveAt_iff hstrict hsettled]
 refine ⟨fun key => ?_, fun key => ?_, fun b v x hpoint => ?_, fun b v start finish => ?_, fun key => ?_, fun register hreg v => ?_, hlive,
  fun b v start finish block hblk hrng i => ?_⟩
 · rw [hlivein]
   refine ⟨h.livein key, ?_⟩
   rintro ⟨b, v, hv, rfl⟩
   exact h.has_livein hstrict hsettled hv
 · rw [hliveout]
   refine ⟨h.liveout key, ?_⟩
   rintro ⟨b, v, hv, rfl⟩
   exact h.has_liveout hstrict hsettled hv
 · simp only [range_graph]
   exact h.held_iff hstrict hsettled hpoint
 · rw [range_graph]
   exact h.range_iff hstrict hsettled
 · have hbef : ¬db.Has .interfere key := by
    rw [h.has_kept .interfere nofun nofun nofun]
    exact has_db_sound
   rw [has_graph, or_iff_right hbef, h.interfere_iff hstrict hsettled]
   simp [hsame]
 · rw [has_graph, h.has_kept .forbid nofun nofun nofun, has_forbid, h.forbid_iff hstrict hsettled, or_comm]
   constructor
   · rintro (⟨b, i, other, w, hclobber, hheld, hkey⟩ | ⟨block, hblk, ⟨other, w⟩, hent, hkey⟩)
     · grind [register_inj]
     grind [register_inj]
   grind
 · rw [range_graph] at hrng
   rw [hlive, heldAfter_iff]
   constructor
   · rintro ⟨c, j, w, op, hop, hheld, hkey⟩
     obtain ⟨⟨rfl, rfl⟩, rfl⟩ : (b = c ∧ i = j) ∧ v = w := by simpa using hkey
     obtain ⟨start', finish', hrng', hlo, hhi⟩ := (h.after_iff hstrict hsettled hop).1 hheld
     obtain ⟨hstart, hfinish⟩ := (h.range_iff hstrict hsettled).1 hrng
     obtain ⟨hstart', hfinish'⟩ := (h.range_iff hstrict hsettled).1 hrng'
     obtain rfl := hstart.unique hstart'
     obtain rfl := hfinish.unique hfinish'
     obtain ⟨block', hblk', hi⟩ := hop
     grind
   · rintro ⟨hi, hlo, hhi⟩
     have hop : seed.HasOp b i block.ops[i] := ⟨block, hblk, getElem?_eq_getElem hi⟩
     exact ⟨b, i, v, _, hop, (h.after_iff hstrict hsettled hop).2 ⟨start, finish, hrng, hlo, hhi⟩, rfl⟩

/-- Liveness and interference are exact for a function in strict SSA form: given the rounds they need, the
rules reach tables that say where values are live, held and in each other's way; and a stratified rule set
needs one round. -/
theorem live_exact (seed : Seed) (hstrict : seed.Strict) :
  (∃ rounds, ∀ limit, rounds ≤ limit → ∀ more, seed.Exact ((seed.db.saturate liveness limit).saturate graph more)) ∧
   ∀ rules : List Rule, stratified rules = true → ∀ (db : Db) (limit : Nat), db.rounds rules (limit + 1) = db.rounds rules 1 := by
 constructor
 · obtain ⟨rounds, hrounds⟩ := liveness_settles hstrict
   refine ⟨rounds, fun limit hlimit more => ?_⟩
   obtain ⟨hsettled, hinv⟩ := hrounds limit hlimit
   exact hinv.exact hstrict hsettled more
 · intro rules hstratified db limit
   rw [rounds_stratified hstratified, rounds_stratified hstratified db 0]

/-- A function that defines a value and reads it, with one that is defined nowhere, in a loop. -/
def loopSeed : Seed where
 blocks := [
  ⟨[], [⟨[], [0], [0], [], [], [1], none⟩], by decide⟩,
  ⟨[], [⟨[0, 7], [], [], [], [], [1], none⟩], by decide⟩]
 weights := [1, 8]
 copies := []
 allocatable := fun _ => true

theorem loopSeed_strict : loopSeed.Strict := by
 have hop : ∀ {b i op}, loopSeed.HasOp b i op → i = 0 ∧ (b = 0 ∧ op.uses = [] ∧ op.defs = [0] ∨ b = 1 ∧ op.uses = [0, 7] ∧ op.defs = []) := by
  rintro b i op ⟨block, hblk, hop⟩
  match b with
  | 0 =>
   cases hblk
   grind
  | 1 =>
   cases hblk
   grind
  | _ + 2 => nomatch hblk
 have hdef : ∀ {b i v}, loopSeed.Def b i v → b = 0 := by
  rintro b i v ⟨op, hhas, hv⟩
  rcases (hop hhas).2 with ⟨rfl, -, -⟩ | ⟨-, -, hdefs⟩
  · rfl
  grind
 have hargument : ∀ {b v}, ¬loopSeed.Argument b v := by
  rintro b v ⟨block, hblk, hv⟩
  match b with
  | 0 =>
   cases hblk
   nomatch hv
  | 1 =>
   cases hblk
   nomatch hv
  | _ + 2 => nomatch hblk
 have hent : ∀ {b v}, loopSeed.DefinedIn b v → b = 0 := by
  rintro b v ((harg | ⟨rfl, -⟩) | ⟨i, hwrite⟩)
  · exact absurd harg hargument
  · rfl
  · exact hdef hwrite
 refine ⟨fun b b' v h h' => (hent h).trans (hent h').symm, fun b i j v h huse => ?_⟩
 obtain rfl := hdef h
 obtain ⟨op, hhas, hv⟩ := huse
 rcases (hop hhas).2 with ⟨-, huses, -⟩ | ⟨hb, -, -⟩
 · grind
 · nomatch hb

theorem live_exact_loopSeed :
  ∃ rounds, ∀ limit, rounds ≤ limit → ∀ more, loopSeed.Exact ((loopSeed.db.saturate liveness limit).saturate graph more) :=
 (live_exact loopSeed loopSeed_strict).1

end Seed

end Tir.RegAlloc.Live
