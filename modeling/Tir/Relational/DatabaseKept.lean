import Tir.Relational.SpaceTracks
import Tir.Relational.TableNames
import Tir.Relational.TableRun

/-!
# What the database keeps

`Database.Kept` says that the tables are at rest and that the bits of the space cover every id a row
names. Minting, equating, inserting and closing the epoch keep it. So does `canonicalize`, which ends
(`Database.canonicalize_mends`): the tables it skips name no absorbed id, and neither do the rows before
the mark of the ones it repairs only past it, so that every row of every table is renamed.
-/

open List Option

namespace Tir.Relational.Database

open Table UnionFind Space RowView

variable {db : Database} {σ : Type}

/-- A table between two calls. -/
structure Ready (t : Table) : Prop where
 rest : t.AtRest
 fresh : t.Fresh
 pairs : t.toLayout.Pairs
 marked : t.marked ≤ t.len

/-- Every table is at rest, and the space tracks every id a row names. -/
structure Kept (db : Database) : Prop where
 space : db.space.Formed
 ready : ∀ (slot : Nat) t, db.tables[slot]? = some t → Ready t
 tracks : ∀ (slot : Nat) t, db.tables[slot]? = some t → ∀ row, row < t.len → ∀ id,
  (t.view row).Names t.toLayout id → db.space.Tracks slot (row < t.marked) id

theorem kept_new : new.Kept where
 space := by
  refine ⟨⟨rfl, rfl, rfl, rfl, nofun, nofun, nofun, fun _ _ => rfl, fun _ _ => rfl, nofun,
   fun _ => isLowMask_zero⟩, fun _ _ => rfl⟩
 ready := by
  intro slot t h
  nomatch h
 tracks := by
  intro slot t h
  nomatch h

variable {layout : Layout} {key : List Nat} {t : Table} {weights : List Weight} {value : Nat × Weight} {map : Rename}
 {found : List Collision} {offer : Option (Dissolve σ)} {tables tables' : List Table}

theorem ready_new (h : layout.Pairs) : Ready (Table.new layout) :=
 ⟨new_atRest layout, new_fresh layout, h, le_rfl⟩

theorem Kept.addTable (h : db.Kept) (hpairs : layout.Pairs) : (db.addTable (Table.new layout)).Kept where
 space := h.space
 ready := by
  intro slot t ht
  have ht' : (db.tables ++ [Table.new layout])[slot]? = some t := ht
  rcases lt_or_ge slot db.tables.length with hold | hnew
  · rw [getElem?_append_left hold] at ht'
    exact h.ready slot t ht'
  grind [ready_new]
 tracks := by
  intro slot t ht row hrow
  have ht' : (db.tables ++ [Table.new layout])[slot]? = some t := ht
  rcases lt_or_ge slot db.tables.length with hold | hnew
  · rw [getElem?_append_left hold] at ht'
    exact h.tracks slot t ht' row hrow
  · rw [getElem?_append_right hnew] at ht'
    obtain rfl := mem_singleton.1 (mem_of_getElem? ht')
    nomatch hrow

/-! ## Ids -/

theorem Kept.mint (h : db.Kept) {mask : Word} (hmask : IsLowMask mask) (pinned : Bool) : (db.mint mask pinned).1.Kept where
 space := by
  refine ⟨h.space.uf.push mask pinned hmask, fun hclean id => ?_⟩
  have hflat := h.space.flat hclean id
  show (db.space.uf.push mask pinned).parentOf ((db.space.uf.push mask pinned).parentOf id) =
   (db.space.uf.push mask pinned).parentOf id
  rwa [parentOf_push, parentOf_push]
 ready := h.ready
 tracks slot t ht row hrow id hnames :=
  tracks_push h.space.uf (h.tracks slot t ht row hrow id hnames) hmask pinned _

/-- What an equate comes to. -/
inductive Equates (db : Database) (a b : Ref) : Database × Merge → Prop where
 | same (heq : db.find a = db.find b) : Equates db a b (db, .same)
 | clash (ids : List Nat) (hne : db.find a ≠ db.find b)
   (hclash : (db.find a).id = (db.find b).id ∨
    db.space.uf.isPinned (db.find a).id = true ∧ db.space.uf.isPinned (db.find b).id = true) :
   Equates db a b ({ db with space := { db.space with
    uf := ids.foldl UnionFind.markConflict db.space.uf, contradicted := true } }, .contradiction)
 | merged (survivor absorbed : Ref) (space : Space) (hlink : db.space.uf.Linkable survivor.id absorbed.id)
   (hwhich : survivor = db.find a ∧ absorbed = db.find b ∨ survivor = db.find b ∧ absorbed = db.find a)
   (hmerges : Space.Merges db.space survivor absorbed space) :
   Equates db a b ({ db with space := space }, .merged survivor.id absorbed.id)

theorem equate_equates (h : db.Kept) {a b : Ref} (ha : a.id < db.space.uf.len) (hb : b.id < db.space.uf.len) :
  Equates db a b (db.equate a b) := by
 have hformed := h.space.uf
 have halt := find_lt hformed ha
 have hblt := find_lt hformed hb
 have hunites := union_unites hformed halt hblt
 rw [equate]
 simp only
 split
 · rename_i heq
   exact Equates.same heq
 · rename_i hne
   generalize hunion : db.space.uf.union (db.space.uf.find a) (db.space.uf.find b) = united at hunites
   cases hunites with
   | same heq =>
    rw [find_find hformed, find_find hformed] at heq
    exact absurd heq hne
   | clash ids hne' hclash =>
    rw [find_find hformed, find_find hformed] at hclash
    have hspace : db.space.union (db.find a) (db.find b) =
      ({ db.space with uf := ids.foldl UnionFind.markConflict db.space.uf }, .contradiction) := by
     rw [Space.union, find, find, hunion]
    rw [hspace]
    exact Equates.clash ids hne hclash
   | merged survivor absorbed hlink hwhich =>
    rw [find_find hformed, find_find hformed] at hwhich
    obtain ⟨hmerge, hmerges⟩ := union_merges h.space.uf hlink hunion
    have hmerge' : (db.space.union (db.find a) (db.find b)).2 = .merged survivor.id absorbed.id := hmerge
    rw [hmerge']
    exact Equates.merged survivor absorbed _ hlink hwhich hmerges

theorem formed_markConflicts {uf : UnionFind} (h : uf.Formed) (ids : List Nat) :
  (ids.foldl UnionFind.markConflict uf).Formed := by
 induction ids generalizing uf with
 | nil => exact h
 | cons id ids ih => exact ih (h.markConflict id)

theorem root_markConflicts {uf : UnionFind} (ids : List Nat) (id : Nat) :
  (ids.foldl UnionFind.markConflict uf).root id = uf.root id := by
 induction ids generalizing uf with
 | nil => rfl
 | cons first ids ih =>
  rw [foldl_cons, ih, root_markConflict]

theorem parentOf_markConflicts (uf : UnionFind) (ids : List Nat) :
  (ids.foldl UnionFind.markConflict uf).parent = uf.parent ∧ (ids.foldl UnionFind.markConflict uf).pinned = uf.pinned := by
 induction ids generalizing uf with
 | nil => exact ⟨rfl, rfl⟩
 | cons first ids ih => exact ih (uf.markConflict first)

theorem Kept.equate (h : db.Kept) {a b : Ref} (ha : a.id < db.space.uf.len) (hb : b.id < db.space.uf.len) :
  (db.equate a b).1.Kept := by
 have hequates := equate_equates h ha hb
 generalize db.equate a b = result at hequates
 cases hequates with
 | same _ => exact h
 | clash ids _ _ =>
  obtain ⟨hpar, hpinned⟩ := parentOf_markConflicts db.space.uf ids
  have hparentOf : ∀ id, (ids.foldl markConflict db.space.uf).parentOf id = db.space.uf.parentOf id := by
   intro id
   rw [parentOf, hpar]
   rfl
  refine ⟨⟨formed_markConflicts h.space.uf ids, fun hclean id => ?_⟩, h.ready, fun slot t ht row hrow id hnames => ?_⟩
  · show (ids.foldl markConflict db.space.uf).parentOf _ = _
    rw [hparentOf, hparentOf]
    exact h.space.flat hclean id
  · obtain ⟨hlt, hheld, hunclean, haged⟩ := h.tracks slot t ht row hrow id hnames
    refine ⟨?_, ?_, ?_, ?_⟩
    · show id < (ids.foldl markConflict db.space.uf).parent.length
      rw [hpar]
      exact hlt
    · show db.space.holding.getD ((ids.foldl markConflict db.space.uf).root id) 0 &&& _ ≠ 0
      rw [root_markConflicts]
      exact hheld
    · grind
    · show _ → (_ ∨ (ids.foldl markConflict db.space.uf).pinned.getD id false = true) ∧
       ((ids.foldl markConflict db.space.uf).parentOf id ≠ id → _)
      rw [hparentOf, hpinned]
      exact haged
 | merged survivor absorbed space hlink _ hmerges =>
  refine ⟨⟨?_, fun hclean => ?_⟩, h.ready, fun slot t ht row hrow id hnames =>
   hmerges.tracks _ _ _ (h.tracks slot t ht row hrow id hnames)⟩
  · show space.uf.Formed
    rw [hmerges.uf]
    exact h.space.uf.link hlink
  · have hdirty : space.dirty = false := hclean
    rw [hmerges.dirty] at hdirty
    cases hdirty

/-! ## Rows -/

/-- A row stored at the end of a table. -/
structure Stores (t : Table) (view : RowView) (t' : Table) : Prop where
 layout : t'.toLayout = t.toLayout
 len : t'.len = t.len + 1
 marked : t'.marked = t.marked
 old : ∀ row, row < t.len → t'.view row = t.view row
 new : t'.view t.len = view

/-- What an insertion of an absent key leaves of the database. -/
theorem insert_stores (h : db.Kept) {slot : Nat} (ht : db.tables[slot]? = some t) (hkey : Rows.IsKey t.arity key weights)
  (habsent : t.keyed = true → ∀ row, row < t.len → ¬ t.rows.Holds t.arity key weights row)
  (value : Nat × Weight) (tag : Nat) : ∃ t', db.insert slot key weights value tag = some
    { db with tables := db.tables.set slot t', space := db.space.hold slot (key.drop t.plain ++ [value.1]) } ∧
   Ready t' ∧ Stores t ⟨key, Rows.paddedWeights t.arity weights, value, tag⟩ t' := by
 have hready := h.ready slot t ht
 obtain ⟨t', hinsert, hwhole, hgrows, hlen, -, hrows, hmarked⟩ :=
  insert_spec hready.rest.moved hready.rest.whole hkey habsent value tag db.epoch
 obtain ⟨-, -, -, hold⟩ := Rows.store_spec hready.rest.whole.wf key weights value tag db.epoch
 have harity : t'.arity = t.arity := congrArg Layout.arity hgrows.layout
 refine ⟨t', ?_, ⟨hready.rest.grows hwhole hgrows, insert_fresh hinsert hready.fresh, ?_, ?_⟩,
  ⟨hgrows.layout, hlen, hmarked, fun row hrow => ?_, ?_⟩⟩
 · rw [insert, ht, bind_some, hinsert]
   rfl
 · rw [hgrows.layout]
   exact hready.pairs
 · rw [hmarked, hlen]
   exact Nat.le_succ_of_le hready.marked
 · show t'.rows.view t'.arity row = t.rows.view t.arity row
   rw [harity, hrows]
   exact hold row hrow
 · show t'.rows.view t'.arity t.rows.len = _
   rw [harity, hrows, Rows.view_store hready.rest.whole.wf hkey]

/-- The ids of a row are those of its key and its value. -/
theorem names_stored {tag id : Nat}
  (hkey : key.length = layout.arity) (h : RowView.Names layout ⟨key, weights, value, tag⟩ id) :
  id ∈ key.drop layout.plain ++ [value.1] := by
 rcases h with ⟨column, hplain, hlt, rfl⟩ | rfl
 · refine mem_append_left _ (mem_of_getElem? (i := column - layout.plain) ?_)
   grind
 · exact mem_append_right _ (.head _)

theorem Kept.insert (h : db.Kept) {slot : Nat} {t' : Table} (ht : db.tables[slot]? = some t) {tag : Nat} (hkey : key.length = t.arity)
  (hids : ∀ id ∈ key.drop t.plain ++ [value.1], id < db.space.uf.len)
  (hroots : ∀ id ∈ key.drop t.plain ++ [value.1], db.space.uf.parentOf id = id)
  (hready : Ready t') (hstores : Stores t ⟨key, weights, value, tag⟩ t') :
  Kept { db with tables := db.tables.set slot t', space := db.space.hold slot (key.drop t.plain ++ [value.1]) } := by
 have hwidens := widens_hold slot (key.drop t.plain ++ [value.1]) db.space
 have hget : ∀ (slot' : Nat) t'', (db.tables.set slot t')[slot']? = some t'' →
   slot' = slot ∧ t'' = t' ∨ slot' ≠ slot ∧ db.tables[slot']? = some t'' := by
  intro slot' t'' hin
  rw [getElem?_set] at hin
  by_cases heq : slot = slot'
  · grind
  grind
 refine ⟨hwidens.formed h.space, fun slot' t'' hin => ?_, fun slot' t'' hin row hrow id hnames => ?_⟩
 · rcases hget slot' t'' hin with ⟨-, rfl⟩ | ⟨-, hin'⟩
   · exact hready
   · exact h.ready slot' t'' hin'
 · rcases hget slot' t'' hin with ⟨rfl, rfl⟩ | ⟨-, hin'⟩
   · rw [hstores.layout] at hnames
     rcases lt_or_ge row t.len with hold | hnew
     · rw [hstores.old row hold] at hnames
       rw [hstores.marked]
       exact hwidens.tracks (h.tracks slot' t ht row hold id hnames)
     · obtain rfl : row = t.len := by
        rw [hstores.len] at hrow
        omega
       rw [hstores.new] at hnames
       have hin := names_stored hkey hnames
       have htracks := tracks_hold slot' hids (fun id hin hne => absurd (hroots id hin) hne)
        (fun id hin hne => absurd (hroots id hin) hne) id hin
       refine ⟨htracks.lt, htracks.held, htracks.unclean, fun hold => ?_⟩
       rw [hstores.marked] at hold
       exact absurd hold (not_lt.2 (h.ready slot' t ht).marked)
   · exact hwidens.tracks (h.tracks slot' t'' hin' row hrow id hnames)

/-! ## Canonicalizing -/

/-- What a canonicalization makes of one table. -/
structure Mended (map : Rename) (t t' : Table) (dissolved gone : List Nat) (found : List Collision)
  (origin : Nat → Nat) : Prop where
 repaired : t.Repaired map t' dissolved gone found origin
 ready : Ready t'
 layout : t'.toLayout = t.toLayout

/-- What a canonicalization makes of the tables: each is renamed as a repair renames it, the closure
asked table after table. -/
inductive Mends (map : Rename) (offer : Option (Dissolve σ)) :
  List Table → σ → List Table → List Collision → σ → Prop where
 | nil (state : σ) : Mends map offer [] state [] [] state
 | cons {t t' : Table} {ts ts' : List Table} {state state' state'' : σ} {dissolved gone : List Nat}
   {found found' : List Collision} {origin : Nat → Nat}
   (hasked : (dissolved, state') = Table.answers offer state (t.movedRows map) (t.renamed map))
   (hmended : Mended map t t' dissolved gone found origin)
   (hrest : Mends map offer ts state' ts' found' state'') :
   Mends map offer (t :: ts) state (t' :: ts') (found ++ found') state''

/-- A table whose ids all stand for themselves is as a repair would leave it. -/
theorem mended_of_still (hready : Ready t)
  (hstill : ∀ row, row < t.len → ∀ id, (t.view row).Names t.toLayout id → map.target id = id) :
  t.movedRows map = [] ∧ Mended map t t [] [] [] id := by
 have hviews : ∀ row, row < t.len → t.renamed map row = t.view row := fun row hrow =>
  renamed_of_still (hstill row hrow)
 refine ⟨?_, ⟨⟨nodup_nil, by rintro _ ⟨⟩⟩, Forall₂.nil, fun row hrow => ⟨hrow, not_mem_nil, not_mem_nil,
  (hviews row hrow).symm⟩, fun _ _ _ _ => id, fun row hrow _ _ => ⟨row, hrow, rfl⟩,
  ⟨le_rfl, id, fun _ _ _ => rfl⟩, fun _ => rfl⟩, hready, rfl⟩
 rw [movedRows, filter_eq_nil_iff]
 intro row hrow
 rw [(still_of_names (hstill row (mem_range.1 hrow))).2]
 rintro ⟨⟩

theorem answers_nil (offer : Option (Dissolve σ)) (state : σ) (view : Nat → RowView) :
  Table.answers offer state [] view = ([], state) := by
 cases offer with
 | none => rfl
 | some dissolve => rfl

/-- Repairing the tables that may name an absorbed id renames every row of every table. -/
theorem repairTables_mends (map : Rename) (unclean : Word) (offer : Option (Dissolve σ)) (epoch : Nat) (recent : Bool)
  (tables : List Table) (slot : Nat) (report : Repair) (state : σ) (hready : ∀ t ∈ tables, Ready t)
  (hrecent : ∀ (i : Nat) t, tables[i]? = some t → t.Recent map recent)
  (hstill : ∀ (i : Nat) t, tables[i]? = some t → unclean &&& holder (slot + i) = 0 →
   ∀ row, row < t.len → ∀ id, (t.view row).Names t.toLayout id → map.target id = id) :
  ∃ tables' report' state', repairTables map unclean offer epoch recent tables slot report state =
    some (tables', report', state') ∧
   ∃ found, report'.collisions = report.collisions ++ found ∧ Mends map offer tables state tables' found state' := by
 induction tables generalizing slot report state with
 | nil => exact ⟨[], report, state, rfl, [], (append_nil _).symm, Mends.nil state⟩
 | cons t ts ih =>
  have htready := hready t (.head _)
  have hready' : ∀ t ∈ ts, Ready t := fun t hin => hready t (.tail _ hin)
  have hrecent' : ∀ (i : Nat) t, ts[i]? = some t → t.Recent map recent := fun i t hin => hrecent (i + 1) t hin
  have hstill' : ∀ (i : Nat) t, ts[i]? = some t → unclean &&& holder (slot + 1 + i) = 0 →
    ∀ row, row < t.len → ∀ id, (t.view row).Names t.toLayout id → map.target id = id := by
   intro i t hin hbit
   refine hstill (i + 1) t hin ?_
   rwa [show slot + (i + 1) = slot + 1 + i by omega]
  by_cases hbit : unclean &&& holder slot = 0
  · obtain ⟨tables', report', state', hrun, found, hfound, hmends⟩ := ih (slot + 1) report state hready' hrecent' hstill'
    obtain ⟨hmoved, hmended⟩ := mended_of_still htready (hstill 0 t rfl hbit)
    refine ⟨t :: tables', report', state', ?_, found, hfound, ?_⟩
    · rw [repairTables, if_neg fun hne => hne hbit, hrun]
      rfl
    · have hcons : Mends map offer (t :: ts) state _ _ _ := Mends.cons (by rw [hmoved, answers_nil]) hmended hmends
      exact hcons
  · obtain ⟨after, state', any, dissolved, gone, found, origin, hrepair, hasked, hrepaired, hrest, hlayout, -⟩ :=
     repair_spec epoch htready.rest (hrecent 0 t rfl) (fun (_ : offer.isSome = true) _ => htready.fresh) report state
    obtain ⟨tables', report', state'', hrun, found', hfound, hmends⟩ := ih (slot + 1)
     { collisions := report.collisions ++ found
       rekeyed := report.rekeyed ++ (t.movedRows map).map fun row => (t.renamed map row).value.1 }
     state' hready' hrecent' hstill'
    refine ⟨after :: tables', report', state'', ?_, found ++ found', ?_, ?_⟩
    · rw [repairTables, if_pos hbit, hrepair, bind_some]
      grind
    · rw [hfound, append_assoc]
    · refine Mends.cons hasked ⟨hrepaired, ⟨hrest, repair_fresh hrepair htready.fresh, ?_, ?_⟩, hlayout⟩ hmends
      · rw [hlayout]
        exact htready.pairs
      · exact hrepaired.marked.2.1 htready.marked

section

variable {state state' : σ} (h : Mends map offer tables state tables' found state')

include h

theorem Mends.get : tables'.length = tables.length ∧ ∀ (slot : Nat) t', tables'[slot]? = some t' →
   ∃ t dissolved gone found origin, tables[slot]? = some t ∧ Mended map t t' dissolved gone found origin := by
 induction h with
 | nil state => exact ⟨rfl, nofun⟩
 | cons hasked hmended hrest ih =>
  refine ⟨congrArg (· + 1) ih.1, fun slot t' hin => ?_⟩
  cases slot with
  | zero =>
   grind
  | succ slot => exact ih.2 slot t' hin

/-- Every collision is of two rows of one keyed table that came to share a key. -/
theorem Mends.collision {collision : Collision}
  (hin : collision ∈ found) : ∃ t ∈ tables, ∃ kept row, t.keyed = true ∧ kept < t.len ∧ row < t.len ∧
   (t.renamed map kept).SameKey (t.renamed map row) ∧
   collision = ⟨(t.renamed map kept).value, (t.renamed map row).value, (t.renamed map row).tag⟩ := by
 induction h with
 | nil state => nomatch hin
 | @cons t t' ts ts' state state' state'' dissolved gone found found' origin hasked hmended hrest ih =>
  rcases mem_append.1 hin with hhere | hlater
  · obtain ⟨at', hat⟩ := getElem?_of_mem hhere
    have hlt := (List.getElem?_eq_some_iff.1 hat).1
    have hgone : at' < gone.length := by
     rw [hmended.repaired.reported.length_eq]
     exact hlt
    have hreports := (forall₂_iff_get.1 hmended.repaired.reported).2 at' hgone hlt
    obtain ⟨kept, hkept, hsame, heq⟩ := hreports
    have hrow := hmended.repaired.distinct.2 _ (List.get_mem gone ⟨at', hgone⟩)
    refine ⟨t, .head _, kept, _, ?_, hkept.1, hrow.1, hsame, ?_⟩
    · by_contra hbag
      rw [hmended.repaired.bag (Bool.eq_false_iff.2 hbag)] at hgone
      nomatch hgone
    grind
  grind

end

/-- What the closure keeps when it is shown a renamed row, the canonicalization keeps. -/
theorem Mends.state {map : Rename} {offer : Option (Dissolve σ)} {tables tables' : List Table} {state state' : σ}
  {found : List Collision} (h : Mends map offer tables state tables' found state') {P : σ → Prop}
  (hstep : ∀ dissolve, offer = some dissolve → ∀ t ∈ tables, ∀ row, row < t.len → ∀ s, P s →
   P (dissolve s (t.renamed map row)).2) (hstate : P state) : P state' := by
 induction h with
 | nil state => exact hstate
 | @cons t t' ts ts' state state' state'' dissolved gone found found' origin hasked hmended hrest ih =>
  refine ih (fun dissolve hsome t hin => hstep dissolve hsome t (.tail _ hin)) ?_
  have hstate' : state' = (answers offer state (t.movedRows map) (t.renamed map)).2 := congrArg Prod.snd hasked
  rw [hstate']
  have hrows : ∀ row ∈ t.movedRows map, row < t.len := fun row hin => mem_range.1 (mem_filter.1 hin).1
  cases offer with
  | none => exact hstate
  | some dissolve =>
   generalize t.movedRows map = rows at hrows
   -- the closure is asked row after row
   induction rows using List.reverseRecOn with
   | nil => exact hstate
   | append_singleton rows row ih' =>
    rw [answers_append]
    exact hstep dissolve rfl t mem_cons_self row (hrows row (mem_append_right _ (.head _))) _
     (ih' fun row hin => hrows row (mem_append_left _ hin))

/-- A canonicalization ends. Unless the space was clean, it flattens the partition and renames every row
of every table, and every row then names representatives. -/
theorem canonicalize_mends (h : db.Kept) (hdirty : db.space.dirty = true)
  (dissolve : Option (UnionFind → Dissolve σ)) (report : Repair) (state : σ) : ∃ tables report' state',
   db.canonicalize dissolve report state = some ({ db with
      tables := tables
      space := { db.space with uf := db.space.uf.flatten, dirty := false, unclean := 0, aged := false } },
     report', state', true) ∧
   Mends db.space.uf.flatten.rename (dissolve.map fun dissolve => dissolve db.space.uf.flatten) db.tables state tables
    report'.collisions state' ∧
   Kept { db with
      tables := tables
      space := { db.space with uf := db.space.uf.flatten, dirty := false, unclean := 0, aged := false } } := by
 have htgt : ∀ id, db.space.uf.flatten.rename.target id = db.space.uf.root id :=
  parentOf_flatten h.space.uf
 have hself : ∀ id, db.space.uf.parentOf id = id → db.space.uf.flatten.rename.target id = id := by
  grind [root_of_self]
 obtain ⟨tables, report', state', hrun, found, hfound, hmends⟩ := repairTables_mends db.space.uf.flatten.rename
  db.space.unclean (dissolve.map fun dissolve => dissolve db.space.uf.flatten) db.epoch (!db.space.aged) db.tables 0 ⟨[], []⟩ state
  (fun t hin => by
   obtain ⟨slot, ht⟩ := getElem?_of_mem hin
   exact h.ready slot t ht)
  (fun slot t ht hrecent row hrow => by
   -- in a recent epoch no row before the mark names an absorbed id
   have hlt : row < t.marked ∧ row < t.len := by omega
   refine still_of_names fun id hnames => ?_
   by_contra hne
   have htracks := h.tracks slot t ht row hlt.2 id hnames
   have haged := (htracks.aged hlt.1).2 fun hroot => hne (hself id hroot)
   grind)
  (fun slot t ht hbit row hrow id hnames => by
   -- and neither does a row of a table that is not unclean
   by_contra hne
   rw [zero_add] at hbit
   exact ((h.tracks slot t ht row hrow id hnames).unclean fun hroot => hne (hself id hroot)).1 hbit)
 have hfound' : report'.collisions = found := hfound
 refine ⟨tables, report', state', ?_, by rw [hfound']; exact hmends, ⟨h.space.uf.flatten, fun _ =>
  flat_flatten h.space.uf⟩, fun slot t' ht' => ?_, fun slot t' ht' row hrow id hnames => ?_⟩
 · rw [canonicalize, if_pos hdirty]
   simp only
   rw [hrun]
   rfl
 · obtain ⟨t, _, _, _, _, _, hmended⟩ := hmends.get.2 slot t' ht'
   exact hmended.ready
 · obtain ⟨t, dissolved, gone, found', origin, ht, hmended⟩ := hmends.get.2 slot t' ht'
   obtain ⟨horigin, -, -, hview⟩ := hmended.repaired.stays row hrow
   rw [hview, hmended.layout] at hnames
   obtain ⟨old, hold, rfl⟩ := names_renamed (Rows.view_sized _) (h.ready slot t ht).pairs hnames
   have htracks := tracks_flatten h.space.uf (h.tracks slot t ht _ horigin old hold)
   rw [htgt]
   refine ⟨htracks.lt, htracks.held, htracks.unclean, fun hbef => htracks.aged ?_⟩
   rw [hmended.repaired.marked.2.2 row hrow hbef]
   exact hbef.trans_le hmended.repaired.marked.1

theorem canonicalize_clean (hdirty : db.space.dirty = false) (dissolve : Option (UnionFind → Dissolve σ))
  (report : Repair) (state : σ) : db.canonicalize dissolve report state = some (db, report, state, false) := by
 rw [canonicalize, if_neg (by rw [hdirty]; exact nofun)]

/-! ## The epoch -/

theorem Kept.advance (h : db.Kept) : db.advance.Kept where
 space := ⟨h.space.uf, h.space.flat⟩
 ready := by
  intro slot t ht
  rw [Database.advance, getElem?_map, map_eq_some_iff] at ht
  obtain ⟨before, hbef, rfl⟩ := ht
  obtain ⟨hrest, hfresh, hpairs, -⟩ := h.ready slot before hbef
  exact ⟨⟨hrest.whole, hrest.moved, hrest.dead, hrest.loaded⟩, hfresh, hpairs, le_rfl⟩
 tracks := by
  intro slot t ht row hrow id hnames
  rw [Database.advance, getElem?_map, map_eq_some_iff] at ht
  obtain ⟨before, hbef, rfl⟩ := ht
  exact tracks_advance (h.tracks slot before hbef row hrow id hnames) _

end Tir.Relational.Database
