import Tir.RegAlloc.LiveGives
import Tir.RegAlloc.LiveRows

/-!
# The fixpoint of the liveness rules

Every head the rules derive says what holds of the function (`Seed.Inv.sound_of_derives`), there are finitely
many of them, and a settled database has them all (`Seed.Inv.absorbs`). So the bounds of a range are the least of its starts and
the greatest of its ends.
-/

open List Nat

namespace Tir.RegAlloc.Live

open Db

/-! ## Ranges -/

/-- The rows of RANGE have one key and one value each, and the lattices hold values of these rows alone. -/
structure Db.Ranges (db : Db) : Prop where
 named : ∀ row ∈ db.rows .range, ∃ n < db.minted, row.value = .row n
 keys : ∀ row ∈ db.rows .range, ∀ other ∈ db.rows .range, row.key = other.key → row = other
 values : ∀ row ∈ db.rows .range, ∀ other ∈ db.rows .range, row.value = other.value → row = other
 cells : ∀ column id value, db.cell column id = some value → ∃ row ∈ db.rows .range, row.value = id

namespace Db

variable {db : Db} {id : Id} {raises : List (Lattice × Int)}

/-- What a cell holds after raises it held before, or one of the raises brought. -/
theorem cell_raiseRow {column : Lattice} {i : Id} {value : Int} (h : (db.raiseRow id raises).cell column i = some value) :
  db.cell column i = some value ∨ i = id ∧ (column, value) ∈ raises := by
 induction raises generalizing db with
 | nil => exact .inl h
 | cons raise raises ih =>
  rcases ih h with hcell | ⟨hi, hmem⟩
  · rw [cell_raise] at hcell
    split at hcell
    · rename_i hsame
      obtain ⟨rfl, rfl⟩ := hsame
      have hval := Option.some.inj hcell
      cases hold : db.cell raise.1 i with
      | none =>
       rw [hold, raised] at hval
       exact .inr ⟨rfl, mem_cons.2 (.inl (by rw [← hval]))⟩
      | some old =>
       rw [hold, raised] at hval
       have hjoin : raise.1.join old raise.2 = old ∨ raise.1.join old raise.2 = raise.2 := by
        cases raise.1
        · exact min_choice old raise.2
        · exact max_choice old raise.2
       rcases hjoin with hjoin | hjoin
       · exact .inl (congrArg some (hjoin.symm.trans hval))
       · exact .inr ⟨rfl, mem_cons.2 (.inl (by rw [← hval, hjoin]))⟩
    · exact .inl hcell
  · exact .inr ⟨hi, mem_cons_of_mem raise hmem⟩

theorem Ranges.raiseRow (h : db.Ranges) (hid : raises ≠ [] → ∃ row ∈ db.rows .range, row.value = id) : (db.raiseRow id raises).Ranges where
 named := by
  rw [rows_raiseRow, minted_raiseRow]
  exact h.named
 keys := by
  rw [rows_raiseRow]
  exact h.keys
 values := by
  rw [rows_raiseRow]
  exact h.values
 cells column i value hcell := by
  rw [rows_raiseRow]
  rcases cell_raiseRow hcell with hold | ⟨rfl, hmem⟩
  · exact h.cells column i value hold
  · exact hid (ne_nil_of_mem hmem)

theorem Ranges.mintRow (h : db.Ranges) {table : Table} {key : List Id} (habsent : ¬db.Has table key) : (db.mintRow table key 0).Ranges := by
 have hrows : ∀ row, row ∈ (db.mintRow table key 0).rows .range ↔
   row ∈ db.rows .range ∨ table = .range ∧ row = ⟨key, .row db.minted, 0⟩ := by
  intro row
  rw [rows_mintRow]
  split
  · grind
  grind
 have hfresh : ∀ row ∈ db.rows .range, row.value ≠ .row db.minted := by
  intro row hrow heq
  obtain ⟨n, hn, hval⟩ := h.named row hrow
  grind
 refine ⟨fun row hrow => ?_, fun row hrow other hother hkey => ?_, fun row hrow other hother hval => ?_, fun column id value hcell => ?_⟩
 · rcases (hrows row).1 hrow with hrow | ⟨-, rfl⟩
   · obtain ⟨n, hn, hval⟩ := h.named row hrow
     exact ⟨n, lt_succ_of_lt hn, hval⟩
   · exact ⟨db.minted, lt_succ_self _, rfl⟩
 · rcases (hrows row).1 hrow with hold | ⟨rfl, rfl⟩ <;> rcases (hrows other).1 hother with hold' | ⟨htable, rfl⟩
   · exact h.keys row hold other hold' hkey
   · subst htable
     exact absurd ⟨row, hold, hkey⟩ habsent
   · exact absurd ⟨other, hold', hkey.symm⟩ habsent
   · rfl
 · rcases (hrows row).1 hrow with hold | ⟨rfl, rfl⟩ <;> rcases (hrows other).1 hother with hold' | ⟨htable, rfl⟩
   · exact h.values row hold other hold' hval
   · exact absurd hval (hfresh row hold)
   · exact absurd hval.symm (hfresh other hold')
   · rfl
 · obtain ⟨row, hrow, hid⟩ := h.cells column id value hcell
   exact ⟨row, (hrows row).2 (.inl hrow), hid⟩

variable {head : Head} (h : db.Ranges) (hraises : head.table ≠ .range → head.raises = [])

include h hraises

/-- A write keeps the ranges, unless it raises the row of another table. -/
theorem Ranges.write : (db.write head).Ranges := by
 obtain ⟨row, hrow, hwrite⟩ | ⟨habsent, hwrite⟩ := db.write_cases head
 · rw [hwrite]
   refine h.raiseRow fun hne => ⟨row, ?_, rfl⟩
   grind [mem_of_lookup]
 · rw [hwrite]
   refine (h.mintRow habsent).raiseRow fun hne => ⟨⟨head.key, .row db.minted, 0⟩, ?_, rfl⟩
   grind [rows_mintRow]

/-- The cells of a range after a write: what they held, or what the head brought to its own key. -/
theorem Ranges.cell_write {row : Row}
  (hrow : row ∈ (db.write head).rows .range) {column : Lattice} {value : Int} (hcell : (db.write head).cell column row.value = some value) :
  (row ∈ db.rows .range ∧ db.cell column row.value = some value) ∨
   head.table = .range ∧ row.key = head.key ∧ (column, value) ∈ head.raises := by
 obtain ⟨found, hfound, hwrite⟩ | ⟨habsent, hwrite⟩ := db.write_cases head
 · rw [hwrite] at hrow hcell
   rw [rows_raiseRow] at hrow
   rcases cell_raiseRow hcell with hold | ⟨hval, hmem⟩
   · exact .inl ⟨hrow, hold⟩
   · have htable : head.table = .range := by
      grind
     obtain ⟨hfound, hkey⟩ := mem_of_lookup hfound
     rw [htable] at hfound
     obtain rfl := h.values row hrow found hfound hval
     exact .inr ⟨htable, hkey, hmem⟩
 · rw [hwrite] at hrow hcell
   rw [rows_raiseRow, rows_mintRow] at hrow
   rcases cell_raiseRow hcell with hold | ⟨hval, hmem⟩
   · -- a row just minted has no cell
     obtain ⟨other, hother, hval⟩ := h.cells column row.value value hold
     obtain ⟨n, hn, hname⟩ := h.named other hother
     split at hrow
     · rename_i htable
       rcases mem_append.1 hrow with hrow | hrow
       · exact .inl ⟨htable ▸ hrow, hold⟩
       grind
     · exact .inl ⟨hrow, hold⟩
   · have htable : head.table = .range := by
      grind
     rw [if_pos htable.symm] at hrow
     rcases mem_append.1 hrow with hrow | hrow
     · obtain ⟨n, hn, hname⟩ := h.named row (htable ▸ hrow)
       grind
     grind

end Db

theorem liveness_scoped : ∀ rule ∈ liveness, rule.scoped = true := by
 decide

namespace Seed

/-! ## What the rules may write -/

/-- The heads that say what holds of a function. -/
inductive Sound (seed : Seed) : Head → Prop where
 | livein {b v : Nat} : seed.LiveIn b v → Sound seed ⟨.livein, [.block b, .value v], []⟩
 | liveout {b v : Nat} : seed.LiveOut b v → Sound seed ⟨.liveout, [.block b, .value v], []⟩
 | write {b i v : Nat} : seed.Def b i v →
   Sound seed ⟨.range, [.block b, .value v], [(.start, (point i : Int) + 1), (.finish, (point i : Int) + 2)]⟩
 | read {b i v : Nat} : seed.Use b i v → Sound seed ⟨.range, [.block b, .value v], [(.finish, (point i : Int))]⟩
 | param {b v : Nat} : seed.Param b v → Sound seed ⟨.range, [.block b, .value v], [(.start, 1), (.finish, 2)]⟩
 | entry {b v : Nat} : seed.LiveIn b v → Sound seed ⟨.range, [.block b, .value v], [(.start, 0)]⟩
 | exit {b v : Nat} : seed.LiveOut b v → Sound seed ⟨.range, [.block b, .value v], [(.finish, EXIT)]⟩

def Bound (seed : Seed) (b v : Nat) : Lattice → Int → Prop
 | .start => seed.StartsAt b v
 | .finish => seed.EndsAt b v

variable {seed : Seed} {head : Head} {db : Db}

theorem Sound.raises_eq_nil (h : seed.Sound head) (htable : head.table ≠ .range) : head.raises = [] := by
 cases h <;> first | rfl | exact absurd rfl htable

theorem Sound.bound (h : seed.Sound head) (htable : head.table = .range) :
  ∃ b v, head.key = [.block b, .value v] ∧ ∀ column value, (column, value) ∈ head.raises → seed.Bound b v column value := by
 cases h with
 | livein => nomatch htable
 | liveout => nomatch htable
 | write hdef =>
  refine ⟨_, _, rfl, fun column value hmem => ?_⟩
  rcases mem_pair.1 hmem with h | h
  · cases h
    exact .write hdef
  · cases h
    exact .write hdef
 | read huse =>
  refine ⟨_, _, rfl, fun column value hmem => ?_⟩
  cases mem_singleton.1 hmem
  exact .read huse
 | param hparam =>
  refine ⟨_, _, rfl, fun column value hmem => ?_⟩
  rcases mem_pair.1 hmem with h | h
  · cases h
    exact .param hparam
  · cases h
    exact .param hparam
 | entry hlive =>
  refine ⟨_, _, rfl, fun column value hmem => ?_⟩
  cases mem_singleton.1 hmem
  exact .live hlive
 | exit hlive =>
  refine ⟨_, _, rfl, fun column value hmem => ?_⟩
  cases mem_singleton.1 hmem
  exact .live hlive

/-! ## The invariant -/

/-- The tables of liveness say what holds of the function, and the others are as they were seeded. -/
structure Inv (seed : Seed) (db : Db) : Prop where
 kept : ∀ table, table ≠ .livein → table ≠ .liveout → table ≠ .range → db.rows table = seed.db.rows table
 livein : ∀ key, db.Has .livein key → ∃ b v, seed.LiveIn b v ∧ key = [.block b, .value v]
 liveout : ∀ key, db.Has .liveout key → ∃ b v, seed.LiveOut b v ∧ key = [.block b, .value v]
 ranges : db.Ranges
 bounds : ∀ row ∈ db.rows .range, ∃ b v, row.key = [.block b, .value v] ∧
  ∀ column value, db.cell column row.value = some value → seed.Bound b v column value

theorem inv_db : seed.Inv seed.db := by
 have hrng : seed.db.rows .range = [] := rows_db_eq_nil fun key h => h
 refine ⟨fun _ _ _ _ => rfl, fun key h => absurd (has_db_sound h) id, fun key h => absurd (has_db_sound h) id, ?_, ?_⟩
 · refine ⟨?_, ?_, ?_, fun column id value h => ?_⟩
   · rw [hrng]
     nofun
   · rw [hrng]
     nofun
   · rw [hrng]
     nofun
   grind [cell_db]
 · rw [hrng]
   nofun

namespace Inv

variable {key : List Id} {op : Id}

section

variable (h : seed.Inv db)

include h

theorem has_kept (table : Table) (hin : table ≠ .livein) (hout : table ≠ .liveout) (hrng : table ≠ .range) :
  db.Has table key ↔ seed.db.Has table key := by
 rw [Db.Has, h.kept table hin hout hrng, Db.Has]

theorem has_uses : db.Has .uses key ↔ ∃ b i v, seed.Use b i v ∧ key = [.op b i, .value v] :=
 (h.has_kept .uses nofun nofun nofun).trans Seed.has_uses

theorem has_defs : db.Has .defs key ↔ ∃ b i v, seed.Def b i v ∧ key = [.op b i, .value v] :=
 (h.has_kept .defs nofun nofun nofun).trans Seed.has_defs

theorem has_definedIn : db.Has .definedIn key ↔ ∃ b v, seed.DefinedIn b v ∧ key = [.block b, .value v] :=
 (h.has_kept .definedIn nofun nofun nofun).trans Seed.has_definedIn

theorem has_param : db.Has .param key ↔ ∃ b v, seed.Param b v ∧ key = [.block b, .value v] :=
 (h.has_kept .param nofun nofun nofun).trans Seed.has_param

theorem has_edge : db.Has .edge key ↔ ∃ b b', seed.Edge b b' ∧ key = [.block b, .block b'] :=
 (h.has_kept .edge nofun nofun nofun).trans Seed.has_edge

theorem hasTag_holds {b : Id} {p : Nat} : db.HasTag .holds [op] b p ↔
  ∃ c i op', seed.HasOp c i op' ∧ op = .op c i ∧ b = .block c ∧ p = point i := by
 rw [Db.HasTag, h.kept .holds nofun nofun nofun]
 simp only [holds_db]
 constructor
 · grind
 grind

theorem hasRow_holds {b : Id} : db.HasRow .holds [op] b ↔
  ∃ c i op', seed.HasOp c i op' ∧ op = .op c i ∧ b = .block c := by
 constructor
 · rintro ⟨row, hrow, hkey, hval⟩
   obtain ⟨c, i, op', hop, hid, hb, -⟩ := h.hasTag_holds.1 ⟨row, hrow, hkey, hval, rfl⟩
   exact ⟨c, i, op', hop, hid, hb⟩
 · rintro ⟨c, i, op', hop, rfl, rfl⟩
   obtain ⟨row, hrow, hkey, hval, -⟩ := h.hasTag_holds.2 ⟨c, i, op', hop, rfl, rfl, rfl⟩
   exact ⟨row, hrow, hkey, hval⟩

theorem hasTag_clobber {r : Nat} : db.HasTag .clobber [op] op r ↔
  ∃ c i register, seed.Clobber c i register ∧ op = .op c i ∧ r = seed.register register := by
 rw [Db.HasTag, h.kept .clobber nofun nofun nofun]
 simp only [clobber_db]
 constructor
 · grind
 grind

end

/-! ## Soundness -/

section

variable (h : seed.Inv db)

include h

/-- A write of what holds of the function keeps the invariant. -/
theorem write (hhead : seed.Sound head) : seed.Inv (db.write head) := by
 refine ⟨fun table hin hout hrng => ?_, fun key hkey => ?_, fun key hkey => ?_, h.ranges.write hhead.raises_eq_nil, fun row hrow => ?_⟩
 · rw [rows_write_of_ne, h.kept table hin hout hrng]
   rintro rfl
   cases hhead <;> first | exact hin rfl | exact hout rfl | exact hrng rfl
 · rcases has_write.1 hkey with hold | ⟨htable, rfl⟩
   · exact h.livein key hold
   · cases hhead with
     | livein hlive => exact ⟨_, _, hlive, rfl⟩
     | _ => nomatch htable
 · rcases has_write.1 hkey with hold | ⟨htable, rfl⟩
   · exact h.liveout key hold
   · cases hhead with
     | liveout hlive => exact ⟨_, _, hlive, rfl⟩
     | _ => nomatch htable
 · rcases has_write.1 ⟨row, hrow, rfl⟩ with ⟨old, hold, hkey⟩ | ⟨htable, hkey⟩
   · obtain ⟨b, v, hname, hbounds⟩ := h.bounds old hold
     refine ⟨b, v, hkey ▸ hname, fun column value hcell => ?_⟩
     rcases h.ranges.cell_write hhead.raises_eq_nil hrow hcell with ⟨hrow, hcell⟩ | ⟨htable, hown, hmem⟩
     · obtain rfl := h.ranges.keys old hold row hrow hkey
       exact hbounds column value hcell
     · obtain ⟨b', v', hname', hbound⟩ := hhead.bound htable
       grind
   · obtain ⟨b, v, hname, hbound⟩ := hhead.bound htable.symm
     refine ⟨b, v, hkey.trans hname, fun column value hcell => ?_⟩
     rcases h.ranges.cell_write hhead.raises_eq_nil hrow hcell with ⟨hrow, hcell⟩ | ⟨-, -, hmem⟩
     · obtain ⟨b', v', hname', hbounds⟩ := h.bounds row hrow
       grind
     · exact hbound column value hmem

theorem foldl {heads : List Head} (hheads : ∀ head ∈ heads, seed.Sound head) : seed.Inv (heads.foldl Db.write db) := by
 induction heads generalizing db with
 | nil => exact h
 | cons head heads ih =>
  obtain ⟨hhead, hheads⟩ := forall_mem_cons.1 hheads
  exact ih (h.write hhead) hheads

/-- The rules derive what holds of a function in strict SSA form. -/
theorem sound_of_derives (hstrict : seed.Strict) (hhead : Derives liveness db head) : seed.Sound head := by
 rcases derives_liveness.1 hhead with hrule | hrule | hrule | hrule | hrule | hrule | hrule | hrule
 · obtain ⟨op, b, v, d, huse, hholds, hdef, hne, rfl⟩ := liveinUse_gives.1 hrule
   obtain ⟨c, i, w, hread, hkey⟩ := h.has_uses.1 huse
   obtain ⟨rfl, rfl⟩ : op = .op c i ∧ v = .value w := by simpa using hkey
   obtain ⟨c', i', op', hop, hid, rfl⟩ := h.hasRow_holds.1 hholds
   obtain ⟨rfl, rfl⟩ := Id.op.inj hid
   obtain ⟨e, w', hdefined, hkey⟩ := h.has_definedIn.1 hdef
   obtain ⟨rfl, rfl⟩ : d = .block e ∧ w = w' := by simpa using hkey
   exact .livein (hstrict.liveIn_of_use hread hdefined fun hsame => hne (hsame ▸ rfl))
 · obtain ⟨b, b', v, hlive, hedge, rfl⟩ := liveout_gives.1 hrule
   obtain ⟨c, w, hin, hkey⟩ := h.livein _ hlive
   obtain ⟨rfl, rfl⟩ : b' = .block c ∧ v = .value w := by simpa using hkey
   obtain ⟨d, d', hstep, hkey⟩ := h.has_edge.1 hedge
   obtain ⟨rfl, rfl⟩ : b = .block d ∧ c = d' := by simpa using hkey
   exact .liveout ⟨c, hstep, hin⟩
 · obtain ⟨b, v, d, hlive, hdef, hne, rfl⟩ := liveinOut_gives.1 hrule
   obtain ⟨c, w, ⟨c', hedge, hin⟩, hkey⟩ := h.liveout _ hlive
   obtain ⟨rfl, rfl⟩ : b = .block c ∧ v = .value w := by simpa using hkey
   obtain ⟨e, w', hdefined, hkey⟩ := h.has_definedIn.1 hdef
   obtain ⟨rfl, rfl⟩ : d = .block e ∧ w = w' := by simpa using hkey
   refine .livein (.through hedge hin fun hown => hne ?_)
   rw [hstrict.single c e w hown hdefined]
 · obtain ⟨op, b, v, p, hdef, hholds, rfl⟩ := rangeDef_gives.1 hrule
   obtain ⟨c, i, w, hwrite, hkey⟩ := h.has_defs.1 hdef
   obtain ⟨rfl, rfl⟩ : op = .op c i ∧ v = .value w := by simpa using hkey
   obtain ⟨c', i', op', hop, hid, rfl, rfl⟩ := h.hasTag_holds.1 hholds
   obtain ⟨rfl, rfl⟩ := Id.op.inj hid
   exact .write hwrite
 · obtain ⟨op, b, v, p, huse, hholds, rfl⟩ := rangeUse_gives.1 hrule
   obtain ⟨c, i, w, hread, hkey⟩ := h.has_uses.1 huse
   obtain ⟨rfl, rfl⟩ : op = .op c i ∧ v = .value w := by simpa using hkey
   obtain ⟨c', i', op', hop, hid, rfl, rfl⟩ := h.hasTag_holds.1 hholds
   obtain ⟨rfl, rfl⟩ := Id.op.inj hid
   exact .read hread
 · obtain ⟨b, v, hparam, rfl⟩ := rangeParam_gives.1 hrule
   obtain ⟨c, w, hent, hkey⟩ := h.has_param.1 hparam
   obtain ⟨rfl, rfl⟩ : b = .block c ∧ v = .value w := by simpa using hkey
   exact .param hent
 · obtain ⟨b, v, hlive, rfl⟩ := rangeIn_gives.1 hrule
   obtain ⟨c, w, hin, hkey⟩ := h.livein _ hlive
   obtain ⟨rfl, rfl⟩ : b = .block c ∧ v = .value w := by simpa using hkey
   exact .entry hin
 · obtain ⟨b, v, hlive, rfl⟩ := rangeOut_gives.1 hrule
   obtain ⟨c, w, hout, hkey⟩ := h.liveout _ hlive
   obtain ⟨rfl, rfl⟩ : b = .block c ∧ v = .value w := by simpa using hkey
   exact .exit hout

theorem round (hstrict : seed.Strict) : seed.Inv (db.round liveness) := by
 rw [round_eq liveness_scoped]
 exact h.foldl fun head hhead => h.sound_of_derives hstrict ((mem_roundHeads liveness_scoped).1 hhead)

end

/-! ## Completeness -/

section

variable (h : seed.Inv db) (hstrict : seed.Strict) (hsettled : Settled liveness db)

include h hstrict hsettled

/-- A settled database has the live values of a function. -/
theorem has_livein {b v : Nat} (hlive : seed.LiveIn b v) :
  db.Has .livein [.block b, .value v] := by
 have hadd : ∀ {head : Head}, Derives liveness db head → db.Has head.table head.key := by
  intro head hhead
  obtain ⟨row, hrow, -⟩ := hsettled head hhead
  exact has_iff_lookup.2 ⟨row, hrow⟩
 induction hlive with
 | @read b i v huse hparam hbef =>
  obtain ⟨d, hdef, hne⟩ := hstrict.exists_other huse hparam hbef
  obtain ⟨op, hop, hv⟩ := huse
  have hgives : liveinUse.Gives db ⟨.livein, [.block b, .value v], []⟩ :=
   liveinUse_gives.2 ⟨.op b i, .block b, .value v, .block d, h.has_uses.2 ⟨b, i, v, ⟨op, hop, hv⟩, rfl⟩,
    h.hasRow_holds.2 ⟨b, i, op, hop, rfl, rfl⟩, h.has_definedIn.2 ⟨d, v, hdef, rfl⟩,
    fun hsame => hne (Id.block.inj hsame), rfl⟩
  exact hadd (derives_liveness.2 (.inl hgives))
 | @through b b' v hedge hlive hown ih =>
  -- the value leaves the block, and is defined in the block that defines it
  have hout : (Live.liveout).Gives db ⟨.liveout, [.block b, .value v], []⟩ :=
   liveout_gives.2 ⟨.block b, .block b', .value v, ih, h.has_edge.2 ⟨b, b', hedge, rfl⟩, rfl⟩
  have hout := hadd (derives_liveness.2 (.inr (.inl hout)))
  obtain ⟨c, i, huse⟩ := hlive.exists_use
  obtain ⟨d, hdef⟩ := huse.exists_definedIn
  have hne : Id.block b ≠ .block d := by
   grind
  have hgives : liveinOut.Gives db ⟨.livein, [.block b, .value v], []⟩ :=
   liveinOut_gives.2 ⟨.block b, .value v, .block d, hout, h.has_definedIn.2 ⟨d, v, hdef, rfl⟩, hne, rfl⟩
  exact hadd (derives_liveness.2 (.inr (.inr (.inl hgives))))

theorem has_liveout {b v : Nat} (hlive : seed.LiveOut b v) :
  db.Has .liveout [.block b, .value v] := by
 obtain ⟨b', hedge, hlive⟩ := hlive
 have hgives : (Live.liveout).Gives db ⟨.liveout, [.block b, .value v], []⟩ :=
  liveout_gives.2 ⟨.block b, .block b', .value v, h.has_livein hstrict hsettled hlive, h.has_edge.2 ⟨b, b', hedge, rfl⟩, rfl⟩
 obtain ⟨row, hrow, -⟩ := hsettled _ (derives_liveness.2 (.inr (.inl hgives)))
 exact has_iff_lookup.2 ⟨row, hrow⟩

/-- A settled database absorbs everything that holds of the function. -/
theorem absorbs (hhead : seed.Sound head) : db.Absorbs head := by
 cases hhead with
 | livein hlive =>
  obtain ⟨row, hrow⟩ := has_iff_lookup.1 (h.has_livein hstrict hsettled hlive)
  exact ⟨row, hrow, nofun⟩
 | liveout hlive =>
  obtain ⟨row, hrow⟩ := has_iff_lookup.1 (h.has_liveout hstrict hsettled hlive)
  exact ⟨row, hrow, nofun⟩
 | @write b i v hdef =>
  obtain ⟨op, hop, hv⟩ := hdef
  have hgives := rangeDef_gives.2 ⟨.op b i, .block b, .value v, point i, h.has_defs.2 ⟨b, i, v, ⟨op, hop, hv⟩, rfl⟩,
   h.hasTag_holds.2 ⟨b, i, op, hop, rfl, rfl, rfl⟩, rfl⟩
  exact hsettled _ (derives_liveness.2 (.inr (.inr (.inr (.inl hgives)))))
 | @read b i v huse =>
  obtain ⟨op, hop, hv⟩ := huse
  have hgives := rangeUse_gives.2 ⟨.op b i, .block b, .value v, point i, h.has_uses.2 ⟨b, i, v, ⟨op, hop, hv⟩, rfl⟩,
   h.hasTag_holds.2 ⟨b, i, op, hop, rfl, rfl, rfl⟩, rfl⟩
  exact hsettled _ (derives_liveness.2 (.inr (.inr (.inr (.inr (.inl hgives))))))
 | @param b v hparam =>
  have hgives := rangeParam_gives.2 ⟨.block b, .value v, h.has_param.2 ⟨b, v, hparam, rfl⟩, rfl⟩
  exact hsettled _ (derives_liveness.2 (.inr (.inr (.inr (.inr (.inr (.inl hgives)))))))
 | @entry b v hlive =>
  have hgives := rangeIn_gives.2 ⟨.block b, .value v, h.has_livein hstrict hsettled hlive, rfl⟩
  exact hsettled _ (derives_liveness.2 (.inr (.inr (.inr (.inr (.inr (.inr (.inl hgives))))))))
 | @exit b v hlive =>
  have hgives := rangeOut_gives.2 ⟨.block b, .value v, h.has_liveout hstrict hsettled hlive, rfl⟩
  exact hsettled _ (derives_liveness.2 (.inr (.inr (.inr (.inr (.inr (.inr (.inr hgives))))))))

end

/-! ## Bounds -/

variable {b v : Nat}

variable (h : seed.Inv db) (hstrict : seed.Strict) (hsettled : Settled liveness db)

include h hstrict hsettled

/-- Each bound is covered by the row of the range. -/
theorem covers (column : Lattice) {value : Int} (hbound : seed.Bound b v column value) :
  ∃ row ∈ db.rows .range, row.key = [.block b, .value v] ∧ db.Covers column row.value value := by
 have hread : ∀ {raises : List (Lattice × Int)}, seed.Sound ⟨.range, [.block b, .value v], raises⟩ → (column, value) ∈ raises →
   ∃ row ∈ db.rows .range, row.key = [.block b, .value v] ∧ db.Covers column row.value value := by
  intro raises hhead hmem
  obtain ⟨row, hrow, hcov⟩ := h.absorbs hstrict hsettled hhead
  exact ⟨row, (mem_of_lookup hrow).1, (mem_of_lookup hrow).2, hcov _ hmem⟩
 cases column with
 | start =>
  cases hbound with
  | live hlive => exact hread (.entry hlive) (mem_singleton_self _)
  | param hparam => exact hread (.param hparam) (.head _)
  | write hdef => exact hread (.write hdef) (.head _)
 | finish =>
  cases hbound with
  | live hlive => exact hread (.exit hlive) (mem_singleton_self _)
  | param hparam => exact hread (.param hparam) (.tail _ (mem_singleton_self _))
  | write hdef => exact hread (.write hdef) (.tail _ (mem_singleton_self _))
  | read huse => exact hread (.read huse) (mem_singleton_self _)

/-- A range starts at the least of its starts and ends at the greatest of its ends. -/
theorem range_iff {start finish : Int} :
  db.Range (.block b) (.value v) start finish ↔ IsLeast {s | seed.StartsAt b v s} start ∧ IsGreatest {f | seed.EndsAt b v f} finish := by
 have hcell : ∀ {column : Lattice} {row : Row} {value bound : Int}, row ∈ db.rows .range → row.key = [.block b, .value v] →
   db.cell column row.value = some value → seed.Bound b v column bound → column.join value bound = value := by
  intro column row value bound hrow hkey hval hbound
  obtain ⟨other, hother, hkey', old, hold, hjoin⟩ := h.covers hstrict hsettled column hbound
  obtain rfl := h.ranges.keys other hother row hrow (hkey'.trans hkey.symm)
  grind
 have hmem : ∀ {column : Lattice} {row : Row} {value : Int}, row ∈ db.rows .range → row.key = [.block b, .value v] →
   db.cell column row.value = some value → seed.Bound b v column value := by
  intro column row value hrow hkey hval
  obtain ⟨c, w, hname, hbounds⟩ := h.bounds row hrow
  grind
 constructor
 · rintro ⟨row, hrow, hkey, hstart, hfinish⟩
   refine ⟨⟨hmem hrow hkey hstart, fun s hs => ?_⟩, hmem hrow hkey hfinish, fun f hf => ?_⟩
   · exact min_eq_left_iff.1 (hcell hrow hkey hstart hs)
   · exact max_eq_left_iff.1 (hcell hrow hkey hfinish hf)
 · rintro ⟨⟨hstart, hleast⟩, hfinish, hgreatest⟩
   obtain ⟨row, hrow, hkey, s, hs, hjoin⟩ := h.covers hstrict hsettled .start hstart
   obtain ⟨other, hother, hkey', f, hf, hjoin'⟩ := h.covers hstrict hsettled .finish hfinish
   obtain rfl := h.ranges.keys other hother row hrow (hkey'.trans hkey.symm)
   have hs' : s = start := le_antisymm (min_eq_left_iff.1 hjoin) (hleast (hmem hrow hkey hs))
   have hf' : f = finish := le_antisymm (hgreatest (hmem hrow hkey hf)) (max_eq_left_iff.1 hjoin')
   exact ⟨other, hother, hkey, hs' ▸ hs, hf' ▸ hf⟩

end Inv

/-! ## Settling -/

/-- The number of blocks, the lengths of the blocks and the values that a function names. -/
def numbers (seed : Seed) : List Nat :=
 seed.blocks.length :: seed.blocks.flatMap fun block =>
  block.ops.length :: seed.paramsOf block ++ block.ops.flatMap fun op => op.uses ++ op.defs

/-- The heads about a value in a block, and at an operation of the block. -/
def candidates (b i v : Nat) : List Head :=
 [⟨.livein, [.block b, .value v], []⟩, ⟨.liveout, [.block b, .value v], []⟩,
   ⟨.range, [.block b, .value v], [(.start, (point i : Int) + 1), (.finish, (point i : Int) + 2)]⟩,
   ⟨.range, [.block b, .value v], [(.finish, (point i : Int))]⟩, ⟨.range, [.block b, .value v], [(.start, 1), (.finish, 2)]⟩,
   ⟨.range, [.block b, .value v], [(.start, 0)]⟩, ⟨.range, [.block b, .value v], [(.finish, EXIT)]⟩]

section Bounded

variable {bound : Nat}

variable {b i v : Nat}

variable (hbound : ∀ n ∈ seed.numbers, n < bound)

include hbound

theorem HasOp.bounded {op : MachineOp} (h : seed.HasOp b i op) :
  b < bound ∧ i < bound ∧ ∀ v ∈ op.uses ++ op.defs, v < bound := by
 obtain ⟨block, hblk, hop⟩ := h
 have hmem := mem_of_getElem? hblk
 refine ⟨?_, ?_, fun v hv => hbound v (.tail _ (mem_flatMap.2 ⟨block, hmem, ?_⟩))⟩
 · exact (List.getElem?_eq_some_iff.1 hblk).1.trans (hbound _ (.head _))
 · refine (List.getElem?_eq_some_iff.1 hop).1.trans (hbound _ (.tail _ (mem_flatMap.2 ⟨block, hmem, ?_⟩)))
   exact mem_append_left _ (.head _)
 · exact mem_append_right _ (mem_flatMap.2 ⟨op, mem_of_getElem? hop, hv⟩)

theorem Use.bounded (h : seed.Use b i v) : b < bound ∧ i < bound ∧ v < bound := by
 obtain ⟨op, hop, hv⟩ := h
 obtain ⟨hb, hi, hvals⟩ := hop.bounded hbound
 exact ⟨hb, hi, hvals v (mem_append_left _ hv)⟩

theorem Def.bounded (h : seed.Def b i v) : b < bound ∧ i < bound ∧ v < bound := by
 obtain ⟨op, hop, hv⟩ := h
 obtain ⟨hb, hi, hvals⟩ := hop.bounded hbound
 exact ⟨hb, hi, hvals v (mem_append_right _ hv)⟩

theorem Param.bounded (h : seed.Param b v) : b < bound ∧ v < bound := by
 rcases h with ⟨block, hblk, hv⟩ | ⟨rfl, ⟨b', i, huse⟩, -⟩
 · refine ⟨(List.getElem?_eq_some_iff.1 hblk).1.trans (hbound _ (.head _)),
    hbound v (.tail _ (mem_flatMap.2 ⟨block, mem_of_getElem? hblk, ?_⟩))⟩
   exact mem_append_left _ (.tail _ hv)
 · obtain ⟨hb', -, hv⟩ := huse.bounded hbound
   exact ⟨zero_lt_of_lt hb', hv⟩

theorem LiveIn.bounded (h : seed.LiveIn b v) : b < bound ∧ v < bound := by
 obtain ⟨b', i, huse⟩ := h.exists_use
 exact ⟨h.lt.trans (hbound _ (.head _)), (huse.bounded hbound).2.2⟩

theorem LiveOut.bounded (h : seed.LiveOut b v) : b < bound ∧ v < bound := by
 refine ⟨h.lt.trans (hbound _ (.head _)), ?_⟩
 obtain ⟨b', -, hlive⟩ := h
 exact (hlive.bounded hbound).2

/-- What is said of a function is about its blocks, their operations and the values they name. -/
theorem Sound.mem_candidates (h : seed.Sound head) :
  ∃ b i v, (b < bound ∧ i < bound ∧ v < bound) ∧ head ∈ candidates b i v := by
 cases h with
 | livein hlive =>
  obtain ⟨hb, hv⟩ := hlive.bounded hbound
  exact ⟨_, 0, _, ⟨hb, zero_lt_of_lt hb, hv⟩, by simp [candidates]⟩
 | liveout hlive =>
  obtain ⟨hb, hv⟩ := hlive.bounded hbound
  exact ⟨_, 0, _, ⟨hb, zero_lt_of_lt hb, hv⟩, by simp [candidates]⟩
 | write hdef => exact ⟨_, _, _, hdef.bounded hbound, by simp [candidates]⟩
 | read huse => exact ⟨_, _, _, huse.bounded hbound, by simp [candidates]⟩
 | param hparam =>
  obtain ⟨hb, hv⟩ := hparam.bounded hbound
  exact ⟨_, 0, _, ⟨hb, zero_lt_of_lt hb, hv⟩, by simp [candidates]⟩
 | entry hlive =>
  obtain ⟨hb, hv⟩ := hlive.bounded hbound
  exact ⟨_, 0, _, ⟨hb, zero_lt_of_lt hb, hv⟩, by simp [candidates]⟩
 | exit hlive =>
  obtain ⟨hb, hv⟩ := hlive.bounded hbound
  exact ⟨_, 0, _, ⟨hb, zero_lt_of_lt hb, hv⟩, by simp [candidates]⟩

end Bounded

theorem finite_sound (seed : Seed) : {head | seed.Sound head}.Finite := by
 obtain ⟨bound, hbound⟩ : ∃ bound, ∀ n ∈ seed.numbers, n < bound :=
  ⟨seed.numbers.sum + 1, fun n hn => lt_succ_of_le (le_sum_of_mem hn)⟩
 have hplaces := (Set.finite_Iio bound).prod ((Set.finite_Iio bound).prod (Set.finite_Iio bound))
 refine (hplaces.biUnion fun place _ => finite_toSet (candidates place.1 place.2.1 place.2.2)).subset fun head hhead => ?_
 obtain ⟨b, i, v, ⟨hb, hi, hv⟩, hmem⟩ := Sound.mem_candidates hbound hhead
 exact Set.mem_biUnion (x := (b, i, v)) ⟨hb, hi, hv⟩ hmem

/-- The liveness rules settle, and what they leave says what holds of the function. -/
theorem liveness_settles (hstrict : seed.Strict) :
  ∃ rounds, ∀ limit, rounds ≤ limit → Settled liveness (seed.db.saturate liveness limit) ∧ seed.Inv (seed.db.saturate liveness limit) := by
 refine ⟨{head ∈ {head | seed.Sound head} | ¬seed.db.Absorbs head}.ncard + 1, fun limit hlimit => ?_⟩
 rw [saturate, if_neg (by decide)]
 exact rounds_settled liveness_scoped seed.finite_sound (fun db h => h.round hstrict)
  (fun db head h hhead => h.sound_of_derives hstrict hhead) limit inv_db hlimit

end Seed

end Tir.RegAlloc.Live
