import Tir.Relational.TableRestore

/-!
# Repairing a table

`Table.repair_spec` says what a repair does as a whole: every row is renamed, the closure is asked
about the rows whose keys moved, the rows it answers true for are gone, and of the rows that came to
share a key one stays and the others are gone, each reported once (`Table.Repaired`). `Table.Logs`
says what it adds to the change log.
-/

open List Bool

namespace Tir.Relational.Table

variable {t : Table} (map : Rename)

/-- A row as it is, and as a rename makes it. -/
def view (t : Table) (row : Nat) : RowView :=
 t.rows.view t.arity row

def renamed (t : Table) (row : Nat) : RowView :=
 (t.view row).renamed t.toLayout map

/-- The rows whose keys the rename moves. -/
def movedRows (t : Table) : List Nat :=
 (List.range t.len).filter fun row => (t.view row).movesKey t.toLayout map

/-! ## The rows that move -/

variable {row : Nat}

theorem mem_selectMoved {columns : List Nat} {start : Nat} :
  row ∈ t.selectMoved map columns start ↔ row < t.len ∧ start ≤ row ∧
   ∃ column ∈ columns, map.target (t.rows.cell column row) ≠ t.rows.cell column row := by
 simp only [selectMoved, movedIn, mem_filter, mem_range, any_eq_true, decide_eq_true_eq,
  and_eq_true]
 constructor
 · grind
 grind

theorem movesValue_iff : (t.view row).movesValue map = true ↔
  ∃ column ∈ [t.arity], map.target (t.rows.cell column row) ≠ t.rows.cell column row := by
 rw [RowView.movesValue, decide_eq_true_iff]
 simp only [mem_singleton, exists_eq_left]
 rfl

theorem movesKey_iff : (t.view row).movesKey t.toLayout map = true ↔ ∃ column ∈ List.range' t.plain (t.arity - t.plain),
   map.target (t.rows.cell column row) ≠ t.rows.cell column row := by
 rw [RowView.movesKey, any_eq_true]
 refine exists_congr fun column => and_congr_right fun hcol => ?_
 obtain ⟨step, hstep, hcol'⟩ := mem_range'.1 hcol
 have hget : (t.view row).cells.getD column 0 = t.rows.cell column row :=
  Rows.getD_keyCells (by omega) row
 rw [hget, decide_eq_true_iff]

theorem selectMoved_keys (start : Nat) : t.selectMoved map (List.range' t.plain (t.arity - t.plain)) start =
   (List.range t.len).filter fun row => start ≤ row && (t.view row).movesKey t.toLayout map := by
 apply filter_congr
 intro row hrow
 rw [Bool.eq_iff_iff, and_eq_true, decide_eq_true_iff, movesKey_iff, any_eq_true]
 constructor
 · rintro ⟨column, hcol, hin⟩
   obtain ⟨-, hboth⟩ := mem_filter.1 (of_decide_eq_true hin)
   grind
 · rintro ⟨hstart, column, hcol, hmoves⟩
   refine ⟨column, hcol, decide_eq_true (mem_filter.2 ⟨hrow, ?_⟩)⟩
   grind

/-- With `recent`, no row before the mark moves. -/
def Recent (t : Table) (recent : Bool) : Prop :=
 recent = true → ∀ row, row < min t.marked t.len →
  (t.view row).movesValue map = false ∧ (t.view row).movesKey t.toLayout map = false

theorem start_le_of_moves {recent : Bool} (h : t.Recent map recent)
  (hmoves : (t.view row).movesValue map = true ∨ (t.view row).movesKey t.toLayout map = true) :
  (if recent then min t.marked t.len else 0) ≤ row := by
 cases recent with
 | false => exact Nat.zero_le _
 | true =>
  show min t.marked t.len ≤ row
  by_contra hlt
  obtain ⟨hval, hkey⟩ := h rfl row (not_le.1 hlt)
  grind

/-! ## What a repair does -/

/-- What a repair makes of the rows: those of `dissolved` and `gone` are gone, each of the latter with
one collision under the row that stays with its key; the others stand in `after` once each, renamed, and
those before the mark where they stood. -/
structure Repaired (before after : Table) (dissolved gone : List Nat) (found : List Collision)
  (origin : Nat → Nat) : Prop where
 distinct : gone.Nodup ∧ ∀ row ∈ gone, row < before.len ∧ row ∉ dissolved
 reported : Forall₂ (Reports (before.renamed map)
  fun row => row < before.len ∧ row ∉ dissolved ∧ row ∉ gone) gone found
 stays : ∀ row, row < after.len → origin row < before.len ∧ origin row ∉ dissolved ∧ origin row ∉ gone ∧
  after.view row = before.renamed map (origin row)
 inj : ∀ row other, row < after.len → other < after.len → origin row = origin other → row = other
 surj : ∀ row, row < before.len → row ∉ dissolved → row ∉ gone → ∃ other, other < after.len ∧ origin other = row
 marked : after.marked ≤ before.marked ∧ (before.marked ≤ before.len → after.marked ≤ after.len) ∧
  ∀ row, row < after.len → row < after.marked → origin row = row
 bag : before.keyed = false → gone = []

/-- The rows of `t` that `t'` may show otherwise are among `noted`, or past its end. -/
def Notes (t t' : Table) (noted : List Nat) : Prop :=
 ∀ row, row < t.len → row ∈ noted ∨ t'.len ≤ row ∨ (row < t'.len ∧ (t'.view row).SameCells (t.view row))

/-- What a repair adds to the log: nothing when nothing moved, else an entry, or a log begun anew. -/
inductive Logs (t t' : Table) : Prop where
 | still (version : t'.version = t.version) (floor : t'.floor = t.floor) (repairs : t'.repairs = t.repairs)
   (touched : t'.touched = t.touched)
   (cells : ∀ row, row < t.len → row < t'.len ∧ (t'.view row).SameCells (t.view row))
 | entry (noted : List Nat) (version : t'.version = t.version + 1) (floor : t'.floor = t.floor)
   (repairs : t'.repairs = t.repairs ++ [(t.version + 1, t.touched.length, t'.len)])
   (touched : t'.touched = t.touched ++ noted) (notes : Notes t t' noted)
 | anew (version : t'.version = t.version + 1) (floor : t'.floor = t.version + 1) (repairs : t'.repairs = [])
   (touched : t'.touched = [])

/-- Between two calls every row is in the index, and no repair is under way. -/
structure AtRest (t : Table) : Prop where
 whole : t.Whole
 moved : t.moved = []
 dead : t.dead = []
 loaded : t.loaded.length = t.arity

/-! ## The phases of a repair, one after the other -/

section Phases

variable {map} (stamp : Nat) {σ : Type} {dissolve : Option (Dissolve σ)}

/-- The table a repair re-keys rows of, once the values have moved. -/
structure Valued (map : Rename) (t : Table) (recent : Bool) (values : List Nat) (t₁ : Table) : Prop where
 selected : t.selectMoved map [t.arity] (if recent then min t.marked t.len else 0) = values
 moves : ∀ row, row ∈ values ↔ row < t.len ∧ (t.view row).movesValue map = true
 table : ∃ rows, t₁ = { t with moved := t.movedRows map, rows := rows, touched := t.touched ++ values }
 whole : t₁.Whole
 len : t₁.len = t.len
 weighted : t.rows.weighted = true → t₁.rows.weighted = true
 view : ∀ row, t₁.view row = if row ∈ values then (t.view row).moveValue map else t.view row

variable {recent : Bool} {values : List Nat}

theorem moveValues_valued (h : t.Whole) (hrecent : t.Recent map recent) : ∃ values rows, Valued map t recent values
    { t with moved := t.movedRows map, rows := rows, touched := t.touched ++ values } ∧
   values.foldl (moveValue map stamp) { t with moved := values } = { t with moved := values, rows := rows } ∧
   selectMoved { t with moved := values, rows := rows, touched := t.touched ++ values } map
    (List.range' t.plain (t.arity - t.plain)) (if recent then min t.marked t.len else 0) = t.movedRows map := by
 generalize hvals : t.selectMoved map [t.arity] (if recent then min t.marked t.len else 0) = values
 have hmoves : ∀ row, row ∈ values ↔ row < t.len ∧ (t.view row).movesValue map = true := by
  grind [mem_selectMoved, movesValue_iff, start_le_of_moves]
 have hnd : values.Nodup := by
  rw [← hvals]
  exact nodup_range.filter _
 obtain ⟨rows, hfold, hwf, hlen, hwt, hview⟩ := moveValues_spec (t := { t with moved := values }) map stamp
  h.wf hnd fun row hin => ((hmoves row).1 hin).1
 replace hlen : rows.len = t.rows.len := hlen
 have hsame : ∀ row, (rows.view t.arity row).SameKey (t.rows.view t.arity row) := by
  intro row
  have hrow : rows.view t.arity row = _ := hview row
  rw [hrow]
  split
  · exact ⟨rfl, rfl⟩
  · exact ⟨rfl, rfl⟩
 refine ⟨values, rows, ⟨hvals, hmoves, ⟨rows, rfl⟩, ?_, hlen, hwt, hview⟩, hfold, ?_⟩
 · refine h.congr hwf hlen (fun row => ?_) fun row _ => hsame row
   show row < rows.len ↔ row < t.rows.len
   rw [hlen]
 · rw [selectMoved_keys, movedRows]
   have hlen' : Table.len { t with moved := values, rows := rows, touched := t.touched ++ values } = t.len := hlen
   rw [hlen']
   apply filter_congr
   intro row hrow
   have hkey : (Table.view { t with moved := values, rows := rows, touched := t.touched ++ values } row).movesKey
     t.toLayout map = (t.view row).movesKey t.toLayout map := by
    have hrow : Table.view { t with moved := values, rows := rows, touched := t.touched ++ values } row = _ := hview row
    rw [hrow]
    split
    · rfl
    · rfl
   grind [start_le_of_moves]

theorem renamed_of_still {row : Nat} (hval : (t.view row).movesValue map = false)
  (hkey : (t.view row).movesKey t.toLayout map = false) : t.renamed map row = t.view row := by
 rw [renamed, RowView.renamed, hval, hkey]
 rfl

/-- A row is renamed once its value has moved and its key is rewritten. -/
theorem Valued.renamed {t1 : Table} (h : Valued map t recent values t1)
  {row : Nat} (hrow : row < t.len) : t.renamed map row =
   if row ∈ t.movedRows map then (t1.view row).rekey t.toLayout map else t1.view row := by
 have hmoved : t1.view row = if (t.view row).movesValue map then (t.view row).moveValue map else t.view row := by
  rw [h.view]
  by_cases hin : row ∈ values
  · rw [if_pos hin, if_pos ((h.moves row).1 hin).2]
  · rw [if_neg hin, if_neg fun hyes => hin ((h.moves row).2 ⟨hrow, hyes⟩)]
 have hkeys : row ∈ t.movedRows map ↔ (t.view row).movesKey t.toLayout map = true := by
  rw [movedRows, mem_filter, mem_range]
  exact and_iff_right hrow
 rw [Table.renamed, RowView.renamed, ← hmoved]
 exact if_congr hkeys.symm rfl rfl

theorem answers_congr {rows : List Nat} {view view' : Nat → RowView} (state : σ)
  (h : ∀ row ∈ rows, view row = view' row) : answers dissolve state rows view = answers dissolve state rows view' := by
 cases dissolve with
 | none => rfl
 | some dissolve =>
  rw [answers, answers]
  apply foldl_ext
  grind

/-- The table once its rows are renamed: the moved rows are out of the index, and `dissolved` are dead. -/
structure Renamed (map : Rename) (t : Table) (values dissolved : List Nat) (m : Table) : Prop where
 table : ∃ rows index key loaded, m =
  { t with rows := rows, index := index, key := key, loaded := loaded, moved := t.movedRows map,
           dead := dissolved, touched := t.touched ++ values }
 loaded : m.loaded.length = t.arity
 len : m.len = t.len
 keeps : Keeps t.arity t.keyed m.rows m.index fun row => row < t.len ∧ row ∉ t.movedRows map
 view : ∀ row, row < t.len → m.view row = t.renamed map row
 dissolved : dissolved.Sublist (t.movedRows map)

/-- The first half of a repair. -/
theorem rename_spec (h : t.AtRest) (hrecent : t.Recent map recent)
  (hfresh : dissolve.isSome = true → t.movedRows map ≠ [] → t.Fresh) (report : Repair) (state : σ) :
  ∃ values dissolved rows r, t.selectMoved map [t.arity] (if recent then min t.marked t.len else 0) = values ∧
   (∀ row, row ∈ values ↔ row < t.len ∧ (t.view row).movesValue map = true) ∧
   values.foldl (moveValue map stamp) { t with moved := values } = { t with moved := values, rows := rows } ∧
   selectMoved { t with moved := values, rows := rows, touched := t.touched ++ values } map
    (List.range' t.plain (t.arity - t.plain)) (if recent then min t.marked t.len else 0) = t.movedRows map ∧
   (t.movedRows map).foldlM (rekeyRow map stamp dissolve)
    ⟨{ t with moved := t.movedRows map, rows := rows, touched := t.touched ++ values }, report, state⟩ = some r ∧
   Renamed map t values dissolved r.table ∧
   (dissolved, r.state) = answers dissolve state (t.movedRows map) (t.renamed map) ∧
   r.report = { report with
    rekeyed := report.rekeyed ++ (t.movedRows map).map fun row => (t.renamed map row).value.1 } := by
 obtain ⟨hwhole, hmoved, hdead, hloaded⟩ := h
 obtain ⟨values, rows1, hvalued, hfold, hselect⟩ := moveValues_valued stamp hwhole hrecent
 have hkeysLt : ∀ row ∈ t.movedRows map, row < t.len := fun row hin =>
  mem_range.1 (mem_filter.1 hin).1
 obtain ⟨⟨rt, report2, state'⟩, hr, ⟨⟨rows2, index2, key2, loaded2, dissolved, htable2⟩, hlen2, hkeeps2, hview2,
  hcollisions2, hrekeyed2, hasked2, hloaded2⟩⟩ := rekeyAll_spec stamp hvalued.whole
   hdead hloaded (t.movedRows map) (fun hsome hne => (hfresh hsome hne).imp hvalued.weighted id)
   (nodup_range.filter _) (fun row hin => by rw [hvalued.len]; exact hkeysLt row hin) report state
 subst htable2
 have hlen1 : rows1.len = t.rows.len := hvalued.len
 have hrekeys : ∀ row ∈ t.movedRows map, (rows1.view t.arity row).rekey t.toLayout map = t.renamed map row := by
  intro row hin
  rw [hvalued.renamed (hkeysLt row hin), if_pos hin]
  rfl
 have hasked : (dissolved, state') = answers dissolve state (t.movedRows map) (t.renamed map) :=
  hasked2.trans (answers_congr state hrekeys)
 refine ⟨values, dissolved, rows1, _, hvalued.selected, hvalued.moves, hfold, hselect, hr,
  ⟨⟨rows2, index2, key2, loaded2, rfl⟩, hloaded2, hlen2.trans hvalued.len, ?_, fun row hrow => ?_, ?_⟩,
  hasked, ?_⟩
 · refine hkeeps2.congr hkeeps2.wf rfl (fun row => ?_) fun _ _ => ⟨rfl, rfl⟩
   show _ ↔ row < rows1.len ∧ _
   rw [hlen1]
   rfl
 · rw [hvalued.renamed hrow]
   exact hview2 row
 · grind [answers_sublist]
 · obtain ⟨collisions, rekeyed⟩ := report2
   simp_all

/-- The second half of a repair: the moved rows go back, or go. -/
theorem settle_spec {dissolved : List Nat} {m : Table} (h : Renamed map t values dissolved m)
  (hvals : ∀ row, row ∈ values ↔ row < t.len ∧ (t.view row).movesValue map = true) (report : Repair) :
  ∃ t3 report' t4 gone found origin noted, restore m report values = some (t3, report') ∧ bury t3 = some t4 ∧
   report' = { report with collisions := report.collisions ++ found } ∧
   (∃ rows index marked key loaded, t4 =
    { t with rows := rows, index := index, marked := marked, key := key, loaded := loaded, moved := [],
             dead := [], touched := t.touched ++ noted }) ∧
   t4.AtRest ∧ Repaired map t t4 dissolved gone found origin ∧ Notes t t4 noted ∧
   (values = [] → t.movedRows map = [] → noted = [] ∧
    ∀ row, row < t.len → row < t4.len ∧ (t4.view row).SameCells (t.view row)) := by
 obtain ⟨⟨rows, index, key, loaded, rfl⟩, hloaded, hlen, hkeeps, hview, hdissolved⟩ := h
 replace hlen : rows.len = t.len := hlen
 have hsubKeys : (t.movedRows map).Sublist (List.range t.len) := filter_sublist
 have hlt : ∀ row ∈ t.movedRows map, row < t.len := fun row hin => mem_range.1 (hsubKeys.subset hin)
 obtain ⟨t3, report', gone, found, noted, hrestore, ⟨index3, key3, loaded3, rfl⟩, hloaded3, hreport, hkeeps3,
  ⟨hsub, hgone⟩, hreported, hwithin, hcovered, hbag⟩ := restore_spec
   (m := { t with rows := rows, index := index, key := key, loaded := loaded, moved := t.movedRows map,
                  dead := dissolved, touched := t.touched ++ values })
   (by show (t.movedRows map).Sublist (List.range rows.len); rw [hlen]; exact hsubKeys) hdissolved hloaded
   (hkeeps.congr hkeeps.wf rfl (fun row => by show row < rows.len ∧ _ ↔ _; rw [hlen]) fun _ _ => ⟨rfl, rfl⟩)
   report values
 have hnodupKeys : (t.movedRows map).Nodup := hsubKeys.nodup nodup_range
 have hnd : (dissolved ++ gone).Nodup :=
  nodup_append.2 ⟨hdissolved.nodup hnodupKeys, hsub.nodup hnodupKeys, fun row hin other hin' heq =>
   hgone other hin' (heq ▸ hin)⟩
 obtain ⟨t4, origin, noted', hbury, ⟨⟨rows4, index4, marked4, key4, loaded4, rfl⟩, hloaded4, hwhole, hstays, hinj, hsurj,
  hwithin', hnoted, hmarked⟩⟩ := bury_spec hnd (fun row hin => by
    show row < rows.len
    grind) hloaded3 hkeeps3
 have hview' : ∀ row, row < t.len → rows.view t.arity row = t.renamed map row := hview
 have hlive : ∀ row, row ∉ dissolved ++ gone ↔ row ∉ dissolved ∧ row ∉ gone := by
  grind
 have hstays' : ∀ row, row < rows4.len → origin row < t.len ∧ origin row ∉ dissolved ++ gone ∧
   rows4.view t.arity row = t.renamed map (origin row) := by
  intro row hrow
  obtain ⟨horigin, hout, hrows⟩ := hstays row hrow
  replace horigin : origin row < t.len := by
   rw [← hlen]
   exact horigin
  exact ⟨horigin, hout, hrows.trans (hview' _ horigin)⟩
 have hnotes : ∀ row, row < t.len → row ∈ values ++ (noted ++ noted') ∨ rows4.len ≤ row ∨
   (row < rows4.len ∧ (rows4.view t.arity row).SameCells (t.view row)) := by
  intro row hrow
  rcases lt_or_ge row rows4.len with hrow' | hle
  · -- a row that shows another's is noted; one that shows its own was moved, or is as it was
    by_cases hkey : row ∈ t.movedRows map ∧ (t.keyed = true → row ∉ dissolved ++ gone)
    · refine .inl ?_
      rcases hcovered row hkey.1 hkey.2 with hin | hin
      · exact mem_append_right _ (mem_append_left _ hin)
      · exact mem_append_left _ hin
    · rcases hnoted row hrow' with heq | ⟨hin, hkeyed⟩
      · obtain ⟨-, hout, hrows⟩ := hstays' row hrow'
        rw [heq] at hout hrows
        have hkey' : row ∉ t.movedRows map := fun hin => hkey ⟨hin, fun _ => hout⟩
        by_cases hval : row ∈ values
        · exact .inl (mem_append_left _ hval)
        · refine .inr (.inr ⟨hrow', ?_⟩)
          rw [hrows, renamed_of_still]
          · exact RowView.SameCells.refl _
          · exact eq_false_iff.2 fun hyes => hval ((hvals row).2 ⟨hrow, hyes⟩)
          · exact eq_false_iff.2 fun hyes => hkey' (mem_filter.2 ⟨mem_range.2 hrow, hyes⟩)
      grind
  · exact .inr (.inl hle)
 refine ⟨_, report', _, gone, found, origin, values ++ (noted ++ noted'), hrestore, hbury, hreport,
  ⟨rows4, index4, marked4, key4, loaded4, ?_⟩, ⟨hwhole, rfl, rfl, hloaded4⟩,
  ⟨⟨hsub.nodup hnodupKeys, fun row hin => ⟨hlt row (hsub.subset hin), hgone row hin⟩⟩, ?_, fun row hrow => ?_,
    hinj, fun row hrow hdissolved' hgone' => ?_, ⟨hmarked.1, fun hle => hmarked.2.1 ?_,
    fun row hrow hbef => ?_⟩, hbag⟩, hnotes, fun hnone hnokey => ?_⟩
 · simp
 · have hboth := (forall₂_and_left (p := fun row => row < t.len) gone found).2
    ⟨fun row hin => hlt row (hsub.subset hin), hreported⟩
   refine hboth.imp fun row collision hreports => ?_
   obtain ⟨hrow, kept, ⟨hkept, hout⟩, hsame, hcollision⟩ := hreports
   replace hkept : kept < t.len := by
    rw [← hlen]
    exact hkept
   have hkeptView : rows.view t.arity kept = t.renamed map kept := hview' kept hkept
   have hrowView : rows.view t.arity row = t.renamed map row := hview' row hrow
   refine ⟨kept, ⟨hkept, (hlive kept).1 hout⟩, ?_, ?_⟩
   · grind
   · rw [hcollision, ← hkeptView, ← hrowView]
 · obtain ⟨horigin, hout, hrows⟩ := hstays' row hrow
   exact ⟨horigin, ((hlive _).1 hout).1, ((hlive _).1 hout).2, hrows⟩
 · exact hsurj row (by show row < rows.len; rw [hlen]; exact hrow) ((hlive row).2 ⟨hdissolved', hgone'⟩)
 · show t.marked ≤ rows.len
   rw [hlen]
   exact hle
 · rcases hnoted row hrow with heq | ⟨hin, -⟩
   · exact heq
   · exact absurd (hmarked.2.2 row hin) (not_le.2 hbef)
 · have hno : ∀ row, row ∉ dissolved ++ gone := by
    grind
   have hempty : noted = [] := eq_nil_iff_forall_not_mem.2 fun row hin => by
    grind
   have hempty' : noted' = [] := eq_nil_iff_forall_not_mem.2 fun row hin => hno row (hwithin' row hin)
   have hall : values ++ (noted ++ noted') = [] := by
    grind
   refine ⟨hall, fun row hrow => ?_⟩
   obtain ⟨other, hother, horigin⟩ := hsurj row (by show row < rows.len; rw [hlen]; exact hrow) (hno row)
   have hsame : row = other := by
    rcases hnoted other hother with heq | ⟨hin, -⟩
    · rw [← horigin, heq]
    · exact absurd hin (hno other)
   rw [← hsame] at hother
   rcases hnotes row hrow with hin | hle | hboth
   · grind
   · exact absurd hother (not_lt.2 hle)
   · exact hboth

/-- A repair ends, and what it does. -/
theorem repair_spec (h : t.AtRest) (hrecent : t.Recent map recent)
  (hfresh : dissolve.isSome = true → t.movedRows map ≠ [] → t.Fresh) (report : Repair) (state : σ) :
  ∃ after state' any dissolved gone found origin, t.repair map stamp dissolve recent report state = some (after,
    { collisions := report.collisions ++ found
      rekeyed := report.rekeyed ++ (t.movedRows map).map fun row => (t.renamed map row).value.1 },
    state', any) ∧
   (dissolved, state') = answers dissolve state (t.movedRows map) (t.renamed map) ∧
   Repaired map t after dissolved gone found origin ∧ after.AtRest ∧ after.toLayout = t.toLayout ∧
   Logs t after := by
 obtain ⟨values, dissolved, rows, r, hselected, hvals, hfold, hselect, hr, hrenamed, hasked, hreport⟩ :=
  rename_spec stamp h hrecent hfresh report state
 obtain ⟨t3, report', t4, gone, found, origin, noted, hrestore, hbury, hreport', htable4, hrest, hrepaired, hnotes,
  hstill⟩ := settle_spec hrenamed hvals r.report
 rw [hreport] at hreport'
 have hrun : t.repair map stamp dissolve recent report state =
   some (if !values.isEmpty || !(t.movedRows map).isEmpty then closeLog stamp t.touched.length t4 else t4,
    report', r.state, !values.isEmpty || !(t.movedRows map).isEmpty) := by
  rw [repair]
  grind
 obtain ⟨rows4, index4, marked4, key4, loaded4, rfl⟩ := htable4
 rw [hrun, hreport']
 cases hany : !values.isEmpty || !(t.movedRows map).isEmpty with
 | false =>
  rw [or_eq_false_iff, not_eq_false', not_eq_false', List.isEmpty_iff, List.isEmpty_iff] at hany
  obtain ⟨hnoted, hcells⟩ := hstill hany.1 hany.2
  refine ⟨_, _, _, dissolved, gone, found, origin, rfl, hasked, hrepaired, hrest, rfl,
   Logs.still rfl rfl rfl ?_ hcells⟩
  grind
 | true =>
  simp only [if_true]
  rw [closeLog]
  split
  · exact ⟨_, _, _, dissolved, gone, found, origin, rfl, hasked,
     ⟨hrepaired.distinct, hrepaired.reported, hrepaired.stays, hrepaired.inj, hrepaired.surj, hrepaired.marked, hrepaired.bag⟩,
     ⟨hrest.whole, rfl, rfl, hrest.loaded⟩, rfl, Logs.anew rfl rfl rfl rfl⟩
  · exact ⟨_, _, _, dissolved, gone, found, origin, rfl, hasked,
     ⟨hrepaired.distinct, hrepaired.reported, hrepaired.stays, hrepaired.inj, hrepaired.surj, hrepaired.marked, hrepaired.bag⟩,
     ⟨hrest.whole, rfl, rfl, hrest.loaded⟩, rfl, Logs.entry noted rfl rfl rfl rfl hnotes⟩

end Phases

end Tir.Relational.Table
