import Tir.Relational.TableInsert

/-!
# Renaming rows in place

The first half of `Table.repair`: the values move (`Table.moveValues_spec`), then each row whose key
moves leaves the index, is rewritten and offered to the caller's closure (`Table.rekeyAll_spec`). A
row is rewritten as `RowView.renamed` says, and the closure is shown the row as it is then, as long
as the scratch weights are the row's own (`Table.Fresh`).
-/

open List

namespace Tir.Relational

open Rows

/-! ## Writes to one row -/

namespace Rows

/-- `rows'` shows `view` at `row`, and every other row as `rows` does. -/
structure Rewrites (arity row : Nat) (rows rows' : Rows) (view : RowView) : Prop where
 wf : rows'.WF arity
 len : rows'.len = rows.len
 weighted : rows.weighted = true → rows'.weighted = true
 self : rows'.view arity row = view
 other : ∀ other, other ≠ row → rows'.view arity other = rows.view arity other

variable {arity row : Nat} {rows rows' rows'' : Rows} {view view' : RowView}

theorem Rewrites.refl (h : rows.WF arity) (row : Nat) : Rewrites arity row rows rows (rows.view arity row) :=
 ⟨h, rfl, id, rfl, fun _ _ => rfl⟩

theorem Rewrites.trans (h : Rewrites arity row rows rows' view) (h' : Rewrites arity row rows' rows'' view') :
  Rewrites arity row rows rows'' view' where
 wf := h'.wf
 len := h'.len.trans h.len
 weighted := fun hwt => h'.weighted (h.weighted hwt)
 self := h'.self
 other := fun other hne => (h'.other other hne).trans (h.other other hne)

theorem weighted_setWeight (column row : Nat) (weight : Weight) (h : rows.weighted = true) :
  (rows.setWeight column row weight).weighted = true := by
 rw [setWeight]
 split
 · split
   · exact h
   · rfl
 · exact h

section

variable (h : rows.WF arity) {column : Nat} (hrow : row < rows.len)
include h hrow

theorem rewrites_setCell_key (hcol : column < arity) (cell : Nat) :
  Rewrites arity row rows (rows.setCell column row cell)
   { rows.view arity row with cells := (rows.view arity row).cells.set column cell } :=
 ⟨h.setCell _ _ _, rfl, id, view_setCell_key h hrow hcol cell, fun _ => view_setCell_other _ _ _⟩

theorem rewrites_setCell_value (cell : Nat) : Rewrites arity row rows (rows.setCell arity row cell)
   { rows.view arity row with value := (cell, (rows.view arity row).value.2) } :=
 ⟨h.setCell _ _ _, rfl, id, view_setCell_value h hrow cell, fun _ => view_setCell_other _ _ _⟩

theorem rewrites_setWeight_key (hcol : column < arity) (weight : Weight) :
  Rewrites arity row rows (rows.setWeight column row weight)
   { rows.view arity row with weights := (rows.view arity row).weights.set column weight } :=
 ⟨h.setWeight _ _ _, len_setWeight _ _ _, weighted_setWeight _ _ _, view_setWeight_key h hrow hcol weight,
  fun _ => view_setWeight_other _ _ _⟩

theorem rewrites_setWeight_value (weight : Weight) : Rewrites arity row rows (rows.setWeight arity row weight)
   { rows.view arity row with value := ((rows.view arity row).value.1, weight) } :=
 ⟨h.setWeight _ _ _, len_setWeight _ _ _, weighted_setWeight _ _ _, view_setWeight_value h hrow weight,
  fun _ => view_setWeight_other _ _ _⟩

end

theorem rewrites_setStamp (h : rows.WF arity) (row stamp : Nat) :
  Rewrites arity row rows (rows.setStamp row stamp) (rows.view arity row) :=
 ⟨h.setStamp _ _, len_setStamp _ _, id, rfl, fun _ _ => rfl⟩

end Rows

namespace Table

variable {t : Table} (map : Rename) (stamp : Nat)

/-! ## Moving a value -/

theorem moveValue_spec (h : t.rows.WF t.arity) (row : Nat) (hrow : row < t.len) :
  ∃ rows', moveValue map stamp t row = { t with rows := rows' } ∧
   Rows.Rewrites t.arity row t.rows rows' ((t.rows.view t.arity row).moveValue map) := by
 have hcell := Rows.rewrites_setCell_value h hrow (map.target (t.rows.cell t.arity row))
 refine ⟨_, rfl, ?_⟩
 have hvalue : (t.rows.view t.arity row).value.1 = t.rows.cell t.arity row := rfl
 rw [RowView.moveValue, hvalue]
 cases map.shift (t.rows.cell t.arity row) with
 | none =>
  have hstamp := rewrites_setStamp hcell.wf row stamp
  rw [hcell.self] at hstamp
  exact hcell.trans hstamp
 | some shifted =>
  have hboth := hcell.trans (rewrites_setWeight_value hcell.wf (by rw [hcell.len]; exact hrow)
   (((t.rows.setCell t.arity row (map.target (t.rows.cell t.arity row))).weight t.arity row + shifted.1) &&&
     shifted.2))
  have hstamp := rewrites_setStamp hboth.wf row stamp
  rw [hboth.self, hcell.self] at hstamp
  exact hboth.trans hstamp

/-- Moving the values of distinct rows rewrites those rows and no other. -/
theorem moveValues_spec (h : t.rows.WF t.arity) {values : List Nat} (hnd : values.Nodup)
  (hvals : ∀ row ∈ values, row < t.len) :
  ∃ rows', values.foldl (moveValue map stamp) t = { t with rows := rows' } ∧ rows'.WF t.arity ∧
   rows'.len = t.len ∧ (t.rows.weighted = true → rows'.weighted = true) ∧
   ∀ row, rows'.view t.arity row =
    if row ∈ values then (t.rows.view t.arity row).moveValue map else t.rows.view t.arity row := by
 refine foldl_pass (moveValue map stamp) (fun done t' => ∃ rows', t' = { t with rows := rows' } ∧
  rows'.WF t.arity ∧ rows'.len = t.len ∧ (t.rows.weighted = true → rows'.weighted = true) ∧
  ∀ row, rows'.view t.arity row =
   if row ∈ done then (t.rows.view t.arity row).moveValue map else t.rows.view t.arity row) ?_ ?_
 · rintro done row rest t' rfl ⟨rows', rfl, hwf, hlen, hwt, hview⟩
   have hrow : row < t.len := hvals row (mem_append_right _ (.head _))
   have hout : row ∉ done := fun hin => (nodup_append.1 hnd).2.2 row hin row mem_cons_self rfl
   obtain ⟨rows'', hmove, hrewrites⟩ := moveValue_spec (t := { t with rows := rows' }) map stamp hwf
    row (by show row < rows'.len; rw [hlen]; exact hrow)
   refine ⟨rows'', hmove, hrewrites.wf, hrewrites.len.trans hlen,
    fun hyes => hrewrites.weighted (hwt hyes), fun other => ?_⟩
   rcases eq_or_ne other row with rfl | hne
   · rw [if_pos (by simp)]
     have hself : rows''.view t.arity other = (rows'.view t.arity other).moveValue map := hrewrites.self
     rw [hself, hview, if_neg hout]
   · have hother : rows''.view t.arity other = rows'.view t.arity other := hrewrites.other other hne
     grind
 · exact ⟨t.rows, rfl, h, rfl, id, fun row => by simp⟩

/-! ## Rewriting a key -/

theorem rekeyColumn_spec {rows : Rows} (h : rows.WF t.arity) (row column : Nat) (hrow : row < rows.len)
  (hcol : column < t.arity) : Rows.Rewrites t.arity row rows (t.rekeyColumn map row rows column)
   ((rows.view t.arity row).rekeyColumn t.toLayout map column) := by
 have hcell := Rows.rewrites_setCell_key h hrow hcol (map.target (rows.cell column row))
 have hold : (rows.view t.arity row).cells.getD column 0 = rows.cell column row := Rows.getD_keyCells hcol row
 have hrow' : row < (rows.setCell column row (map.target (rows.cell column row))).len := hrow
 rw [rekeyColumn, RowView.rekeyColumn, hold]
 cases map.shift (rows.cell column row) with
 | none => exact hcell
 | some shifted =>
  obtain ⟨delta, mask⟩ := shifted
  simp only
  by_cases hzero : delta = 0
  · grind
  rw [if_neg hzero, if_neg hzero]
  by_cases hplain : t.coefficients column = 0
  · have hweight := rewrites_setWeight_key hcell.wf hrow' hcol
     (((rows.setCell column row (map.target (rows.cell column row))).weight column row + delta) &&& mask)
    have hget : (rows.view t.arity row).weights.getD column 0 = rows.weight column row :=
     getD_keyWeights hcol row
    rw [hcell.self] at hweight
    rw [if_pos hplain, if_pos hplain, hget]
    exact hcell.trans hweight
  · have hval : (rows.setCell column row (map.target (rows.cell column row))).cell t.arity row =
      rows.cell t.arity row := cell_setCell_other _ _ _ _ _ (.inl (by omega))
    have hweight := rewrites_setWeight_value hcell.wf hrow'
     (((rows.setCell column row (map.target (rows.cell column row))).weight t.arity row -
       t.coefficients column * delta) &&&
       ((map.shift (rows.cell t.arity row)).map Prod.snd).getD (BitVec.allOnes 64))
    rw [hcell.self] at hweight
    rw [if_neg hplain, if_neg hplain, hval]
    exact hcell.trans hweight

theorem orderPair_spec {rows : Rows} (h : rows.WF t.arity) (row : Nat) (hrow : row < rows.len) :
  Rows.Rewrites t.arity row rows (t.orderPair row rows) ((rows.view t.arity row).orderPair t.toLayout) := by
 rw [orderPair, RowView.orderPair]
 cases t.unordered with
 | none => exact Rows.Rewrites.refl h row
 | some pair =>
  obtain ⟨a, b⟩ := pair
  have hcellA : (rows.view t.arity row).cells.getD a 0 = rows.cell a row := getD_keyCells a.isLt row
  have hcellB : (rows.view t.arity row).cells.getD b 0 = rows.cell b row := getD_keyCells b.isLt row
  have hweightA : (rows.view t.arity row).weights.getD a 0 = rows.weight a row :=
   getD_keyWeights a.isLt row
  have hweightB : (rows.view t.arity row).weights.getD b 0 = rows.weight b row :=
   getD_keyWeights b.isLt row
  simp only
  rw [hcellA, hcellB, hweightA, hweightB]
  split
  · have hfst := rewrites_setCell_key h hrow a.isLt (rows.cell b row)
    have hsnd := hfst.trans
     (rewrites_setCell_key hfst.wf (by rw [hfst.len]; exact hrow) b.isLt (rows.cell a row))
    have hthird := hsnd.trans (rewrites_setWeight_key hsnd.wf (by rw [hsnd.len]; exact hrow)
     a.isLt (rows.weight b row))
    have hfourth := hthird.trans (rewrites_setWeight_key hthird.wf (by rw [hthird.len]; exact hrow)
     b.isLt (rows.weight a row))
    rw [hthird.self, hsnd.self, hfst.self] at hfourth
    exact hfourth
  · exact Rows.Rewrites.refl h row

theorem rekey_spec (h : t.rows.WF t.arity) (row : Nat) (hrow : row < t.len) :
  ∃ rows', rekey map stamp t row = { t with rows := rows' } ∧
   Rows.Rewrites t.arity row t.rows rows' ((t.rows.view t.arity row).rekey t.toLayout map) := by
 have hcols := foldl_pass (t.rekeyColumn map row)
  (fun done rows => Rows.Rewrites t.arity row t.rows rows
   (done.foldl (RowView.rekeyColumn t.toLayout map) (t.rows.view t.arity row)))
  (l := List.range' t.plain (t.arity - t.plain)) (s := t.rows) (by
   intro done column rest rows hsplit hrewrites
   have hmem : column ∈ List.range' t.plain (t.arity - t.plain) := by
    grind
   obtain ⟨step, hstep, hcol⟩ := mem_range'.1 hmem
   have hone := rekeyColumn_spec (t := t) map hrewrites.wf row column
    (by rw [hrewrites.len]; exact hrow) (by omega)
   rw [hrewrites.self] at hone
   rw [foldl_append]
   exact hrewrites.trans hone) (Rows.Rewrites.refl h row)
 refine ⟨_, rfl, ?_⟩
 have horder := hcols.trans (orderPair_spec (t := t) hcols.wf row (by rw [hcols.len]; exact hrow))
 have hstamp := Rows.rewrites_setStamp horder.wf row stamp
 rw [horder.self, hcols.self] at hstamp
 exact horder.trans hstamp

/-! ## The scratch key -/

/-- The scratch weights are what a row without stored weights would load. -/
def Fresh (t : Table) : Prop :=
 t.rows.weighted = true ∨ ∀ weight ∈ t.loaded, weight = 0

theorem rows_loadKey (row : Nat) : (t.loadKey row).rows = t.rows :=
 rfl

theorem keyWeights_of_not_weighted (h : t.rows.WF t.arity) (hwt : t.rows.weighted = false) (row : Nat) :
  t.rows.keyWeights t.arity row = replicate t.arity 0 := by
 rw [eq_replicate_iff]
 refine ⟨by simp [Rows.keyWeights], fun weight hmem => ?_⟩
 obtain ⟨column, -, rfl⟩ := mem_map.1 hmem
 exact h.weight_of_not_weighted hwt column row

/-- What is loaded is a key, and the row's own. -/
theorem loadKey_spec (h : t.rows.WF t.arity) (row : Nat) :
  Rows.IsKey t.arity (t.loadKey row).key (t.loadKey row).loadedWeights ∧
   keyHash (t.loadKey row).key (t.loadKey row).loadedWeights = t.rows.rowHash t.arity row ∧
   ∀ other, t.rows.Holds t.arity (t.loadKey row).key (t.loadKey row).loadedWeights other ↔
    (t.rows.view t.arity other).SameKey (t.rows.view t.arity row) := by
 have hkey : (t.loadKey row).key = t.rows.keyCells t.arity row := rfl
 have hcells := (Rows.isKey_row t.rows t.arity row).1
 cases hwt : t.rows.weighted with
 | true =>
  have hwts : (t.loadKey row).loadedWeights = t.rows.keyWeights t.arity row := by
   rw [loadedWeights, rows_loadKey, if_pos hwt, loadKey]
   exact if_pos hwt
  rw [hkey, hwts]
  exact ⟨isKey_row _ _ _, rfl, fun other => holds_view_iff⟩
 | false =>
  have hwts : (t.loadKey row).loadedWeights = [] := by
   rw [loadedWeights, rows_loadKey, if_neg (by rw [hwt]; exact nofun)]
  rw [hkey, hwts]
  refine ⟨⟨hcells, .inl rfl⟩, ?_, fun other => ?_⟩
  · rw [Rows.rowHash, keyWeights_of_not_weighted h hwt, keyHash_zeros]
  · rw [← Rows.holds_view_iff]
    refine forall_congr' fun column => imp_congr_right fun hcol => and_congr_right fun _ => ?_
    rw [getD_keyWeights hcol, h.weight_of_not_weighted hwt,
     h.weight_of_not_weighted hwt]
    rfl

theorem length_loaded_loadKey (hlength : t.loaded.length = t.arity) (row : Nat) :
  (t.loadKey row).loaded.length = t.arity := by
 rw [loadKey]
 split
 · simp [Rows.keyWeights]
 · exact hlength

theorem Fresh.loadKey (h : t.Fresh) (row : Nat) : (t.loadKey row).Fresh := by
 rcases h with hwt | hzero
 · exact .inl hwt
 · cases hwt : t.rows.weighted with
   | true => exact .inl hwt
   | false =>
    refine .inr ?_
    have hloaded : (t.loadKey row).loaded = t.loaded := if_neg (by rw [hwt]; exact nofun)
    rw [hloaded]
    exact hzero

/-- From fresh scratch the closure is shown the row. -/
theorem scratchView_spec (h : t.rows.WF t.arity) (hfresh : t.Fresh) (hlength : t.loaded.length = t.arity)
  (row : Nat) : (t.loadKey row).scratchView row = t.rows.view t.arity row := by
 have hwts : (t.loadKey row).loaded = t.rows.keyWeights t.arity row := by
  cases hwt : t.rows.weighted with
  | true => exact if_pos hwt
  | false =>
   have hzero : ∀ weight ∈ t.loaded, weight = 0 := hfresh.resolve_left (by rw [hwt]; exact nofun)
   have hloaded : (t.loadKey row).loaded = t.loaded := if_neg (by rw [hwt]; exact nofun)
   rw [hloaded, keyWeights_of_not_weighted h hwt, eq_replicate_iff]
   exact ⟨hlength, hzero⟩
 rw [scratchView, hwts]
 rfl

/-! ## Taking a row out, and rewriting it -/

/-- A row in the index leaves it. -/
theorem dropEntry_spec {inside : Nat → Prop} (h : Keeps t.arity t.keyed t.rows t.index inside) (row : Nat)
  (hrow : inside row) :
  ∃ index' key' loaded', dropEntry t row = some { t with index := index', key := key', loaded := loaded' } ∧
   (Keeps t.arity t.keyed t.rows index' fun other => inside other ∧ other ≠ row) ∧
   (loaded' = t.loaded ∨ loaded' = (t.loadKey row).loaded) := by
 rw [dropEntry]
 by_cases hkeyed : t.keyed = true
 · rw [if_pos hkeyed]
   obtain ⟨at', hslot, hent⟩ := (h.indexed hkeyed).slotOf hrow
   obtain ⟨-, hhash, -⟩ := loadKey_spec h.wf row
   have hfound : (t.loadKey row).slotOf row = some at' := by
    rw [slotOf, hhash]
    exact hslot
   refine ⟨t.index.setSlot at' .tombstone, (t.loadKey row).key, (t.loadKey row).loaded, ?_,
    ⟨h.wf, fun other hin => h.lt other hin.1, fun _ => (h.indexed hkeyed).drop hent, fun _ => ?_,
     fun _ one two hone htwo => h.distinct hkeyed one two hone.1 htwo.1⟩, .inr rfl⟩
   · simp only
     rw [hfound]
     rfl
   · obtain ⟨hused, hpos⟩ := h.room hkeyed
     rw [Index.setSlot, length_set]
     exact ⟨hused, hpos⟩
 · rw [if_neg hkeyed]
   exact ⟨t.index, t.key, t.loaded, rfl,
    ⟨h.wf, fun other hin => h.lt other hin.1, fun hyes => absurd hyes hkeyed,
     fun hyes => absurd hyes hkeyed, fun hyes => absurd hyes hkeyed⟩, .inl rfl⟩

/-- What the closure answers true for when it is shown the views of `rows` in turn, and its state then. -/
def answers {σ : Type} (dissolve : Option (Dissolve σ)) (state : σ) (rows : List Nat)
  (view : Nat → RowView) : List Nat × σ :=
 match dissolve with
 | none => ([], state)
 | some dissolve =>
  rows.foldl (fun acc row =>
   let answer := dissolve acc.2 (view row)
   (if answer.1 then acc.1 ++ [row] else acc.1, answer.2)) ([], state)

section

variable {σ : Type} (dissolve : Option (Dissolve σ)) (state : σ) (rows : List Nat)

include dissolve state rows

theorem answers_append (row : Nat) (view : Nat → RowView) : answers dissolve state (rows ++ [row]) view =
   match dissolve with
   | none => ([], state)
   | some dissolve =>
    let before := answers (some dissolve) state rows view
    let answer := dissolve before.2 (view row)
    (if answer.1 then before.1 ++ [row] else before.1, answer.2) := by
 cases dissolve with
 | none => rfl
 | some dissolve =>
  rw [answers]
  simp only [foldl_append, foldl_cons, foldl_nil]
  rfl

theorem answers_sublist
  (view : Nat → RowView) : (answers dissolve state rows view).1.Sublist rows := by
 induction rows using List.reverseRecOn with
 | nil =>
  cases dissolve with
  | none => exact Sublist.slnil
  | some dissolve => exact Sublist.slnil
 | append_singleton rows row ih =>
  rw [answers_append]
  grind

end

section Rekeying

variable {σ : Type} (dissolve : Option (Dissolve σ))

/-- A repair of `t` once the rows `done` have been re-keyed. -/
structure Rekeyed (t : Table) (report : Repair) (state : σ) (done : List Nat) (r : Repairing σ) : Prop where
 table : ∃ rows index key loaded dead,
  r.table = { t with rows := rows, index := index, key := key, loaded := loaded, dead := dead }
 len : r.table.len = t.len
 keeps : Keeps t.arity t.keyed r.table.rows r.table.index fun row => row < t.len ∧ row ∉ done
 view : ∀ row, r.table.rows.view t.arity row =
  if row ∈ done then (t.rows.view t.arity row).rekey t.toLayout map else t.rows.view t.arity row
 collisions : r.report.collisions = report.collisions
 rekeyed : r.report.rekeyed =
  report.rekeyed ++ done.map fun row => ((t.rows.view t.arity row).rekey t.toLayout map).value.1
 asked : (r.table.dead, r.state) =
  answers dissolve state done fun row => (t.rows.view t.arity row).rekey t.toLayout map
 loaded : r.table.loaded.length = t.arity

variable {dissolve} {map}

theorem Rekeyed.step {report : Repair} {state : σ} {done : List Nat} {r : Repairing σ}
  (h : Rekeyed map dissolve t report state done r) (hfresh : dissolve.isSome = true → r.table.Fresh)
  {row : Nat} (hrow : row < t.len) (hout : row ∉ done) : ∃ r', rekeyRow map stamp dissolve r row = some r' ∧
   Rekeyed map dissolve t report state (done ++ [row]) r' ∧ (dissolve.isSome = true → r'.table.Fresh) := by
 obtain ⟨rt, rreport, rstate⟩ := r
 obtain ⟨⟨rows, index, key, loaded, dead, htable⟩, hlen, hkeeps, hview, hcollisions, hrekeyed, hasked,
  hloaded⟩ := h
 subst htable
 replace hlen : rows.len = t.len := hlen
 -- the entry goes first
 obtain ⟨index', key', loaded', hdrop, hkeeps', hloaded'⟩ := dropEntry_spec
  (t := { t with rows := rows, index := index, key := key, loaded := loaded, dead := dead }) hkeeps
  row ⟨hrow, hout⟩
 have hlength : loaded'.length = t.arity := by
  rcases hloaded' with rfl | rfl
  · exact hloaded
  · exact length_loaded_loadKey hloaded row
 -- then the key is rewritten
 obtain ⟨rows', hrekey, hrewrites⟩ := rekey_spec
  (t := { t with rows := rows, index := index', key := key', loaded := loaded', dead := dead }) map stamp
  hkeeps.wf row (by show row < rows.len; rw [hlen]; exact hrow)
 have hself : rows'.view t.arity row = (t.rows.view t.arity row).rekey t.toLayout map := by
  have hself' : rows'.view t.arity row = (rows.view t.arity row).rekey t.toLayout map := hrewrites.self
  grind
 have hview' : ∀ other, rows'.view t.arity other =
   if other ∈ done ++ [row] then (t.rows.view t.arity other).rekey t.toLayout map
   else t.rows.view t.arity other := by
  intro other
  rcases eq_or_ne other row with rfl | hne
  · grind
  · have hother : rows'.view t.arity other = rows.view t.arity other := hrewrites.other other hne
    grind
 have hkeeps'' : Keeps t.arity t.keyed rows' index' fun other => other < t.len ∧ other ∉ done ++ [row] := by
  refine hkeeps'.congr hrewrites.wf hrewrites.len (fun other => ?_) fun other hin => ?_
  · rw [mem_append, mem_singleton, not_or, and_assoc]
  · rw [hrewrites.other other hin.2]
    exact ⟨rfl, rfl⟩
 have hfresh' : dissolve.isSome = true →
   Fresh { t with rows := rows', index := index', key := key', loaded := loaded', dead := dead } := by
  intro hsome
  have hbef : Fresh { t with rows := rows, index := index', key := key', loaded := loaded', dead := dead } := by
   rcases hloaded' with rfl | rfl
   · exact hfresh hsome
   · exact (hfresh hsome).loadKey row
  exact hbef.imp hrewrites.weighted id
 have hval : rows'.cell t.arity row = ((t.rows.view t.arity row).rekey t.toLayout map).value.1 :=
  congrArg (fun view => view.value.1) hself
 have hrekeyed' : rreport.rekeyed ++ [rows'.cell t.arity row] =
   report.rekeyed ++ (done ++ [row]).map fun row => ((t.rows.view t.arity row).rekey t.toLayout map).value.1 := by
  grind
 rw [rekeyRow, hdrop, Option.map_some]
 refine ⟨_, rfl, ?_⟩
 rw [hrekey]
 cases dissolve with
 | none =>
  refine ⟨⟨⟨_, _, _, _, _, rfl⟩, hrewrites.len.trans hlen, hkeeps'', hview', hcollisions, hrekeyed', ?_,
   hlength⟩, hfresh'⟩
  rw [answers_append]
  exact hasked
 | some dissolve =>
  have hshown := scratchView_spec
   (t := { t with rows := rows', index := index', key := key', loaded := loaded', dead := dead })
   hrewrites.wf (hfresh' rfl) hlength row
  have hasked' := answers_append (some dissolve) state done row
   fun row => (t.rows.view t.arity row).rekey t.toLayout map
  simp only at hasked'
  rw [← hasked] at hasked'
  rw [offer]
  simp only
  rw [hshown, show Rows.view _ _ row = _ from hself]
  split
  · rename_i hyes
    refine ⟨⟨⟨_, _, _, _, _, rfl⟩, hrewrites.len.trans hlen, hkeeps'', hview', hcollisions, hrekeyed', ?_,
     length_loaded_loadKey hlength row⟩, fun _ => (hfresh' rfl).loadKey row⟩
    rw [hasked', if_pos hyes]
    rfl
  · rename_i hno
    refine ⟨⟨⟨_, _, _, _, _, rfl⟩, hrewrites.len.trans hlen, hkeeps'', hview', hcollisions, hrekeyed', ?_,
     length_loaded_loadKey hlength row⟩, fun _ => (hfresh' rfl).loadKey row⟩
    rw [hasked', if_neg hno]
    rfl

/-- Re-keying the rows `keys` of a table whose rows are all in the index. -/
theorem rekeyAll_spec (h : t.Whole) (hdead : t.dead = []) (hloaded : t.loaded.length = t.arity)
  (keys : List Nat) (hfresh : dissolve.isSome = true → keys ≠ [] → t.Fresh) (hnd : keys.Nodup)
  (hkeys : ∀ row ∈ keys, row < t.len) (report : Repair) (state : σ) :
  ∃ r, keys.foldlM (rekeyRow map stamp dissolve) ⟨t, report, state⟩ = some r ∧
   Rekeyed map dissolve t report state keys r := by
 obtain ⟨r, hr, hrekeyed, -⟩ := foldlM_pass (rekeyRow map stamp dissolve)
  (fun done r => Rekeyed map dissolve t report state done r ∧
   (dissolve.isSome = true → keys ≠ [] → r.table.Fresh)) (l := keys) (s := ⟨t, report, state⟩) (by
   rintro done row rest r rfl ⟨hrekeyed, hfresh'⟩
   have hne : done ++ row :: rest ≠ [] := by simp
   obtain ⟨r', hstep, hrekeyed', hfresh''⟩ := hrekeyed.step stamp (fun hsome => hfresh' hsome hne)
    (hkeys row (mem_append_right _ (.head _)))
    fun hin => (nodup_append.1 hnd).2.2 row hin row mem_cons_self rfl
   exact ⟨r', hstep, hrekeyed', fun hsome _ => hfresh'' hsome⟩) (by
   refine ⟨⟨⟨_, _, _, _, _, rfl⟩, rfl, ?_, fun row => by simp, rfl, by simp, ?_, hloaded⟩, hfresh⟩
   · exact h.congr h.wf rfl (fun row => by simp [len]) fun _ _ => ⟨rfl, rfl⟩
   · rw [hdead]
     cases dissolve with
     | none => rfl
     | some dissolve => rfl)
 exact ⟨r, hr, hrekeyed⟩

end Rekeying

end Table

end Tir.Relational
