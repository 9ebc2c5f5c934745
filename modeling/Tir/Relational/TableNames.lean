import Tir.Relational.TableFrame

/-!
# The ids a row names

A row names ids in its key past the plain columns and in its value. A rename replaces each of them by
what stands for it (`RowView.names_renamed`), and leaves a row all of whose ids stand for themselves as
it is (`RowView.renamed_of_still`).
-/

open List

namespace Tir.Relational

open RowView

/-- The columns of a pair hold ids. -/
def Layout.Pairs (layout : Layout) : Prop :=
 ∀ a b, layout.unordered = some (a, b) → a ≠ b ∧ layout.plain ≤ a.val ∧ layout.plain ≤ b.val

namespace RowView

variable {layout : Layout} {map : Rename} {view : RowView}

/-- A view of a row of the layout. -/
structure Sized (layout : Layout) (view : RowView) : Prop where
 cells : view.cells.length = layout.arity
 weights : view.weights.length = layout.arity

def Names (layout : Layout) (view : RowView) (id : Nat) : Prop :=
 (∃ column, layout.plain ≤ column ∧ column < layout.arity ∧ view.cells.getD column 0 = id) ∨ view.value.1 = id

theorem names_cell {column : Nat} (hplain : layout.plain ≤ column) (hlt : column < layout.arity) :
  view.Names layout (view.cells.getD column 0) :=
 .inl ⟨column, hplain, hlt, rfl⟩

theorem names_value : view.Names layout view.value.1 :=
 .inr rfl

theorem mem_keyColumns {column : Nat} :
  column ∈ List.range' layout.plain (layout.arity - layout.plain) ↔ layout.plain ≤ column ∧ column < layout.arity := by
 rw [mem_range'_1]
 constructor
 · rintro ⟨hplain, hlt⟩
   exact ⟨hplain, by omega⟩
 · rintro ⟨hplain, hlt⟩
   exact ⟨hplain, by omega⟩

theorem nodup_keyColumns : (List.range' layout.plain (layout.arity - layout.plain)).Nodup :=
 nodup_range'

theorem movesKey_false : view.movesKey layout map = false ↔ ∀ column, layout.plain ≤ column → column < layout.arity →
   map.target (view.cells.getD column 0) = view.cells.getD column 0 := by
 rw [movesKey, any_eq_false]
 simp only [decide_eq_true_eq, not_not]
 constructor
 · exact fun h column hplain hlt => h column (mem_keyColumns.2 ⟨hplain, hlt⟩)
 · exact fun h column hin => h column (mem_keyColumns.1 hin).1 (mem_keyColumns.1 hin).2

theorem movesValue_false : view.movesValue map = false ↔ map.target view.value.1 = view.value.1 := by
 rw [movesValue, decide_eq_false_iff_not, not_not]

section

variable (h : ∀ id, view.Names layout id → map.target id = id)

include h

theorem renamed_of_still : view.renamed layout map = view := by
 have hval : view.movesValue map = false := movesValue_false.2 (h _ names_value)
 have hkey : view.movesKey layout map = false :=
  movesKey_false.2 fun column hplain hlt => h _ (names_cell hplain hlt)
 rw [renamed, hval]
 show (if view.movesKey layout map then _ else _) = _
 rw [hkey]
 rfl

theorem still_of_names : view.movesValue map = false ∧ view.movesKey layout map = false :=
 ⟨movesValue_false.2 (h _ names_value), movesKey_false.2 fun _ hplain hlt => h _ (names_cell hplain hlt)⟩

end

/-! ## Renaming the key -/

theorem cells_rekeyColumn (column : Nat) : (view.rekeyColumn layout map column).cells =
  view.cells.set column (map.target (view.cells.getD column 0)) := by
 rw [rekeyColumn]
 split
 · rfl
 · split
   · rfl
   · split <;> rfl

theorem value_rekeyColumn (column : Nat) : (view.rekeyColumn layout map column).value.1 = view.value.1 := by
 rw [rekeyColumn]
 split
 · rfl
 · split
   · rfl
   · split <;> rfl

theorem length_weights_rekeyColumn (column : Nat) :
  (view.rekeyColumn layout map column).weights.length = view.weights.length := by
 rw [rekeyColumn]
 split
 · rfl
 · split
   · rfl
   · split
     · exact length_set
     · rfl

theorem Sized.rekeyColumn (h : view.Sized layout) (column : Nat) : (view.rekeyColumn layout map column).Sized layout :=
 ⟨by rw [cells_rekeyColumn, length_set, h.cells], by rw [length_weights_rekeyColumn, h.weights]⟩

/-- The key with the columns `columns` rewritten. -/
theorem rekeyColumns_spec (map : Rename) (h : view.Sized layout) {columns : List Nat} (hnd : columns.Nodup)
  (hlt : ∀ column ∈ columns, column < layout.arity) :
  (columns.foldl (RowView.rekeyColumn layout map) view).Sized layout ∧
   (columns.foldl (RowView.rekeyColumn layout map) view).value.1 = view.value.1 ∧ ∀ column, column < layout.arity →
    (columns.foldl (RowView.rekeyColumn layout map) view).cells.getD column 0 =
     if column ∈ columns then map.target (view.cells.getD column 0) else view.cells.getD column 0 := by
 refine foldl_pass (rekeyColumn layout map) (fun done view' => view'.Sized layout ∧
  view'.value.1 = view.value.1 ∧ ∀ column, column < layout.arity → view'.cells.getD column 0 =
   if column ∈ done then map.target (view.cells.getD column 0) else view.cells.getD column 0) ?_
  ⟨h, rfl, fun column _ => (if_neg not_mem_nil).symm⟩
 rintro done column rest view' rfl ⟨hsized, hval, hcells⟩
 have hcol : column < layout.arity := hlt column (mem_append_right _ (.head _))
 have hout : column ∉ done := fun hin => (nodup_append.1 hnd).2.2 column hin column mem_cons_self rfl
 refine ⟨hsized.rekeyColumn column, (value_rekeyColumn column).trans hval, fun other hother => ?_⟩
 rw [cells_rekeyColumn, getD_eq_getElem?_getD, getElem?_set]
 by_cases heq : column = other
 · subst heq
   rw [if_pos rfl, if_pos (by rw [hsized.cells]; exact hcol), hcells column hcol, if_neg hout,
    if_pos (mem_append_right _ (.head _))]
   rfl
 · rw [if_neg heq, ← getD_eq_getElem?_getD, hcells other hother]
   refine if_congr ?_ rfl rfl
   simp [Ne.symm heq]

theorem orderPair_sized (h : view.Sized layout) : (view.orderPair layout).Sized layout := by
 rw [orderPair]
 split
 · exact h
 · simp only
   split
   · exact ⟨by simp [h.cells], by simp [h.weights]⟩
   · exact h

theorem value_orderPair : (view.orderPair layout).value = view.value := by
 rw [orderPair]
 split
 · rfl
 · simp only
   split <;> rfl

/-- A cell of the ordered key stood in it before: in its own column, or in the other one of the pair. -/
theorem orderPair_cell (h : view.Sized layout) (hpairs : layout.Pairs) {column : Nat} (hlt : column < layout.arity) :
  ∃ column', column' < layout.arity ∧ (column' = column ∨ layout.plain ≤ column ∧ layout.plain ≤ column') ∧
   (view.orderPair layout).cells.getD column 0 = view.cells.getD column' 0 := by
 rw [orderPair]
 cases hpair : layout.unordered with
 | none => exact ⟨column, hlt, .inl rfl, rfl⟩
 | some pair =>
  obtain ⟨a, b⟩ := pair
  obtain ⟨hne, ha, hb⟩ := hpairs a b hpair
  simp only
  split
  · simp only [getD_eq_getElem?_getD, getElem?_set, length_set, h.cells, a.isLt, b.isLt, if_true]
    by_cases hcolumnb : b.val = column
    · refine ⟨a, a.isLt, .inr ⟨hcolumnb ▸ hb, ha⟩, ?_⟩
      rw [if_pos hcolumnb]
      rfl
    · rw [if_neg hcolumnb]
      by_cases hcolumna : a.val = column
      · refine ⟨b, b.isLt, .inr ⟨hcolumna ▸ ha, hb⟩, ?_⟩
        rw [if_pos hcolumna]
        rfl
      · refine ⟨column, hlt, .inl rfl, ?_⟩
        rw [if_neg hcolumna]
  · exact ⟨column, hlt, .inl rfl, rfl⟩

theorem renamed_sized (h : view.Sized layout) : (view.renamed layout map).Sized layout := by
 have hmoved : (if view.movesValue map then view.moveValue map else view).Sized layout := by
  split
  · exact ⟨h.cells, h.weights⟩
  · exact h
 rw [renamed]
 split
 · rw [rekey]
   exact orderPair_sized (rekeyColumns_spec map hmoved nodup_keyColumns fun column hin => (mem_keyColumns.1 hin).2).1
 · exact hmoved

/-- A renamed row names what stands for the ids the row named. -/
theorem names_renamed (h : view.Sized layout) (hpairs : layout.Pairs) {id : Nat}
  (hnames : (view.renamed layout map).Names layout id) : ∃ old, view.Names layout old ∧ map.target old = id := by
 have hval : (if view.movesValue map then view.moveValue map else view).value.1 = map.target view.value.1 := by
  split
  · rfl
  · rename_i hstill
    exact (movesValue_false.1 (Bool.eq_false_iff.2 hstill)).symm
 have hcells : (if view.movesValue map then view.moveValue map else view).cells = view.cells := by
  split <;> rfl
 have hmoved : (if view.movesValue map then view.moveValue map else view).Sized layout := by
  split
  · exact ⟨h.cells, h.weights⟩
  · exact h
 rw [renamed] at hnames
 cases hkey : view.movesKey layout map with
 | true =>
  rw [hkey, if_pos rfl, rekey] at hnames
  obtain ⟨hsized, hval', hcells'⟩ := rekeyColumns_spec map hmoved
   nodup_keyColumns
   fun column hin => (mem_keyColumns.1 hin).2
  rcases hnames with ⟨column, hplain, hlt, rfl⟩ | rfl
  · obtain ⟨column', hlt', hcol, heq⟩ := orderPair_cell hsized hpairs hlt
    have hplain' : layout.plain ≤ column' := by
     rcases hcol with rfl | ⟨-, hplain'⟩
     · exact hplain
     · exact hplain'
    refine ⟨_, names_cell hplain' hlt', ?_⟩
    rw [heq, hcells' column' hlt', if_pos (mem_keyColumns.2 ⟨hplain', hlt'⟩), hcells]
  · refine ⟨_, names_value, ?_⟩
    rw [value_orderPair, hval', hval]
 | false =>
  rw [hkey, if_neg (by rintro ⟨⟩)] at hnames
  rcases hnames with ⟨column, hplain, hlt, rfl⟩ | rfl
  · rw [hcells]
    exact ⟨_, names_cell hplain hlt, movesKey_false.1 hkey column hplain hlt⟩
  · rw [hval]
    exact ⟨_, names_value, rfl⟩

end RowView

theorem Rows.view_sized {rows : Rows} {layout : Layout} (row : Nat) : (rows.view layout.arity row).Sized layout :=
 ⟨Rows.length_cells_view row, Rows.length_weights_view row⟩

end Tir.Relational
