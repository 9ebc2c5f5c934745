import Tir.Relational.TableRows

/-!
# A row as its reader sees it

`Rows.view` is a row with its key, value and tag, and `RowView.renamed` is what a rename makes of one:
the value moves when its cell does, the key is rewritten when one of its cells moves. The lemmas say
what each write to the columns does to the views, so that nothing above them reads a column.
-/

open List

namespace Tir.Relational

/-! ## Renaming a view -/

namespace RowView

def SameKey (view other : RowView) : Prop :=
 view.cells = other.cells ∧ view.weights = other.weights

theorem SameKey.symm {view other : RowView} (h : view.SameKey other) : other.SameKey view :=
 ⟨h.1.symm, h.2.symm⟩

theorem SameKey.trans {view other third : RowView} (h : view.SameKey other) (h' : other.SameKey third) :
  view.SameKey third :=
 ⟨h.1.trans h'.1, h.2.trans h'.2⟩

/-- Two views that differ in their tags at most. -/
def SameCells (view other : RowView) : Prop :=
 view.cells = other.cells ∧ view.weights = other.weights ∧ view.value = other.value

theorem SameCells.refl (view : RowView) : view.SameCells view :=
 ⟨rfl, rfl, rfl⟩

theorem SameCells.trans {view other third : RowView} (h : view.SameCells other)
  (h' : other.SameCells third) : view.SameCells third :=
 ⟨h.1.trans h'.1, h.2.1.trans h'.2.1, h.2.2.trans h'.2.2⟩

variable (layout : Layout) (map : Rename)

def movesValue (view : RowView) : Bool :=
 map.target view.value.1 ≠ view.value.1

def movesKey (view : RowView) : Bool :=
 (List.range' layout.plain (layout.arity - layout.plain)).any fun column =>
  map.target (view.cells.getD column 0) ≠ view.cells.getD column 0

def moveValue (view : RowView) : RowView :=
 { view with
   value := (map.target view.value.1,
    match map.shift view.value.1 with
    | none => view.value.2
    | some (delta, mask) => (view.value.2 + delta) &&& mask) }

def rekeyColumn (view : RowView) (column : Nat) : RowView :=
 let old := view.cells.getD column 0
 let view := { view with cells := view.cells.set column (map.target old) }
 match map.shift old with
 | none => view
 | some (delta, mask) =>
  if delta = 0 then
   view
  else if layout.coefficients column = 0 then
   { view with weights := view.weights.set column ((view.weights.getD column 0 + delta) &&& mask) }
  else
   let moved := layout.coefficients column * delta
   let mask := ((map.shift view.value.1).map Prod.snd).getD (BitVec.allOnes 64)
   { view with value := (view.value.1, (view.value.2 - moved) &&& mask) }

def orderPair (view : RowView) : RowView :=
 match layout.unordered with
 | none => view
 | some (a, b) =>
  let first := (view.cells.getD a 0, view.weights.getD a 0)
  let second := (view.cells.getD b 0, view.weights.getD b 0)
  if Table.exceeds first second then
   { view with
     cells := (view.cells.set a second.1).set b first.1
     weights := (view.weights.set a second.2).set b first.2 }
  else
   view

def rekey (view : RowView) : RowView :=
 ((List.range' layout.plain (layout.arity - layout.plain)).foldl (rekeyColumn layout map) view).orderPair
   layout

/-- The row once a repair has renamed its cells. -/
def renamed (view : RowView) : RowView :=
 let moved := if view.movesValue map then view.moveValue map else view
 if view.movesKey layout map then moved.rekey layout map else moved

end RowView

namespace Rows

variable {arity : Nat} {rows : Rows}

/-! ## Views of rows -/

def view (rows : Rows) (arity row : Nat) : RowView where
 cells := rows.keyCells arity row
 weights := rows.keyWeights arity row
 value := (rows.cell arity row, rows.weight arity row)
 tag := rows.tag.getD row 0

theorem length_cells_view (row : Nat) : (rows.view arity row).cells.length = arity := by
 simp [view, keyCells]

theorem length_weights_view (row : Nat) : (rows.view arity row).weights.length = arity := by
 simp [view, keyWeights]

/-- A view is determined by the cells and weights up to the value column, and the tag. -/
theorem view_congr {rows' : Rows} {row row' : Nat}
  (hcell : ∀ column, column ≤ arity → rows.cell column row = rows'.cell column row')
  (hweight : ∀ column, column ≤ arity → rows.weight column row = rows'.weight column row')
  (htag : rows.tag.getD row 0 = rows'.tag.getD row' 0) : rows.view arity row = rows'.view arity row' := by
 have hcells : rows.keyCells arity row = rows'.keyCells arity row' :=
  map_congr_left fun column hcol => hcell column (le_of_lt (mem_range.1 hcol))
 have hwts : rows.keyWeights arity row = rows'.keyWeights arity row' :=
  map_congr_left fun column hcol => hweight column (le_of_lt (mem_range.1 hcol))
 rw [view, view, hcells, hwts, hcell arity le_rfl, hweight arity le_rfl, htag]

theorem holds_iff_view {key : List Nat} {weights : List Weight} {row : Nat} :
  rows.Holds arity key weights row ↔ ∀ column, column < arity →
   (rows.view arity row).cells.getD column 0 = key.getD column 0 ∧
    (rows.view arity row).weights.getD column 0 = weights.getD column 0 := by
 refine forall_congr' fun column => imp_congr_right fun hcol => ?_
 rw [view, getD_keyCells hcol, getD_keyWeights hcol]

/-- A row holds the key another shows exactly when the two show one key. -/
theorem holds_view_iff {row other : Nat} :
  rows.Holds arity (rows.keyCells arity other) (rows.keyWeights arity other) row ↔
   (rows.view arity row).SameKey (rows.view arity other) := by
 constructor
 · intro h
   exact ⟨keyCells_of_holds (isKey_row rows arity other) h, map_congr_left fun column hcol => by
    have hlt := mem_range.1 hcol
    rw [(h column hlt).2, getD_keyWeights hlt]⟩
 · rintro ⟨hcells, hwts⟩ column hcol
   have hcells : rows.keyCells arity row = rows.keyCells arity other := hcells
   have hwts : rows.keyWeights arity row = rows.keyWeights arity other := hwts
   exact ⟨by rw [← hcells, getD_keyCells hcol], by rw [← hwts, getD_keyWeights hcol]⟩

theorem rowHash_congr {rows' : Rows} {row row' : Nat} (h : (rows.view arity row).SameKey (rows'.view arity row')) :
  rows.rowHash arity row = rows'.rowHash arity row' := by
 have hcells : rows.keyCells arity row = rows'.keyCells arity row' := h.1
 have hwts : rows.keyWeights arity row = rows'.keyWeights arity row' := h.2
 rw [rowHash, rowHash, hcells, hwts]

/-! ## Writes to one row -/

section Writes

theorem map_range_set {α : Type} {size at' : Nat} (f g : Nat → α) (hother : ∀ other, other ≠ at' → g other = f other) :
  (List.range size).map g = ((List.range size).map f).set at' (g at') := by
 apply ext_getElem
 · simp
 · intro other hlt _
   rw [getElem_set]
   split
   · rename_i heq
     subst heq
     simp
   · rename_i hne
     simpa using hother other (Ne.symm hne)

variable (h : rows.WF arity) {column row : Nat} (hrow : row < rows.len)
include h hrow

theorem view_setCell_key (hcol : column < arity) (cell : Nat) : (rows.setCell column row cell).view arity row =
   { rows.view arity row with cells := (rows.view arity row).cells.set column cell } := by
 have hcells : (rows.setCell column row cell).keyCells arity row = (rows.keyCells arity row).set column cell := by
  rw [keyCells, map_range_set (fun column => rows.cell column row) _ fun other hne =>
   cell_setCell_other column row cell other row (.inl hne),
   cell_setCell h (le_of_lt hcol) hrow, if_pos ⟨rfl, rfl⟩]
  rfl
 rw [view, hcells, cell_setCell_other column row cell arity row (.inl (by omega))]
 rfl

theorem view_setCell_value (cell : Nat) : (rows.setCell arity row cell).view arity row =
  { rows.view arity row with value := (cell, (rows.view arity row).value.2) } := by
 have hcells : (rows.setCell arity row cell).keyCells arity row = rows.keyCells arity row :=
  map_congr_left fun column hcol =>
   cell_setCell_other arity row cell column row (.inl (ne_of_lt (mem_range.1 hcol)))
 rw [view, hcells, cell_setCell h le_rfl hrow, if_pos ⟨rfl, rfl⟩]
 rfl

theorem view_setWeight_key (hcol : column < arity) (weight : Weight) :
  (rows.setWeight column row weight).view arity row =
   { rows.view arity row with weights := (rows.view arity row).weights.set column weight } := by
 have hcells : (rows.setWeight column row weight).keyCells arity row = rows.keyCells arity row :=
  map_congr_left fun column' _ => cell_setWeight column row weight column' row
 have hwts : (rows.setWeight column row weight).keyWeights arity row =
   (rows.keyWeights arity row).set column weight := by
  rw [keyWeights, map_range_set (fun column => rows.weight column row) _ fun other hne =>
   weight_setWeight_other column row weight other row (.inl hne),
   weight_setWeight h hrow, if_pos ⟨rfl, rfl⟩]
  rfl
 rw [view, hcells, hwts, cell_setWeight, tag_setWeight,
  weight_setWeight_other column row weight arity row (.inl (by omega))]
 rfl

theorem view_setWeight_value (weight : Weight) : (rows.setWeight arity row weight).view arity row =
  { rows.view arity row with value := ((rows.view arity row).value.1, weight) } := by
 have hcells : (rows.setWeight arity row weight).keyCells arity row = rows.keyCells arity row :=
  map_congr_left fun column _ => cell_setWeight arity row weight column row
 have hwts : (rows.setWeight arity row weight).keyWeights arity row = rows.keyWeights arity row :=
  map_congr_left fun column hcol =>
   weight_setWeight_other arity row weight column row (.inl (ne_of_lt (mem_range.1 hcol)))
 rw [view, hcells, hwts, cell_setWeight, tag_setWeight, weight_setWeight h hrow, if_pos ⟨rfl, rfl⟩]
 rfl

end Writes

theorem view_setCell_other (column row cell : Nat) {other : Nat} (hother : other ≠ row) :
  (rows.setCell column row cell).view arity other = rows.view arity other :=
 view_congr (fun column' _ => cell_setCell_other column row cell column' other (.inr hother))
  (fun _ _ => rfl) rfl

theorem view_setWeight_other (column row : Nat) (weight : Weight) {other : Nat} (hother : other ≠ row) :
  (rows.setWeight column row weight).view arity other = rows.view arity other :=
 view_congr (fun column' _ => cell_setWeight column row weight column' other)
  (fun column' _ => weight_setWeight_other column row weight column' other (.inr hother))
  (by rw [tag_setWeight])

/-! ## Rows that come and go -/

theorem view_push_old (h : rows.WF arity) (key : List Nat) (value tag stamp : Nat) {row : Nat}
  (hrow : row < rows.len) : (rows.push arity key value tag stamp).view arity row = rows.view arity row := by
 refine view_congr (fun column hcol => cell_push_old h key value tag stamp hcol hrow)
  (fun column _ => weight_push_old key value tag stamp column row) ?_
 rw [push]
 exact getD_append _ _ _ _ (by rw [h.tag]; exact hrow)

theorem view_remove (h : rows.WF arity) {row other : Nat} (hother : other + 1 < rows.len) :
  (rows.remove row).view arity other = rows.view arity (if other = row then rows.len - 1 else other) := by
 refine view_congr (fun column hcol => ?_) (fun column _ => ?_) ?_
 · rw [cell_remove h hcol hother]
   split <;> rfl
 · rw [weight_remove h column hother]
   split <;> rfl
 · rw [tag_remove h hother]
   split <;> rfl

end Rows

end Tir.Relational
