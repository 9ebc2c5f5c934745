import Tir.Relational.Table

/-!
# The rows of a table

What each write to the columns does to the cells and weights a reader sees: a column without stored
weights reads as zero throughout, and rows stay well formed (`Rows.WF`) whatever is written. Keys
that agree have one hash, whether their weights are stored or not (`Rows.rowHash_of_holds`).
-/

open List Function

namespace Tir.Relational

/-! ## Hashes of keys without weights -/

theorem weightHash_zero (column : Nat) : weightHash column 0 = 0#32 := by
 simp [weightHash, BitVec.rotateLeft, BitVec.rotateLeftAux]

theorem foldl_weightHash_zeros (size start : Nat) (hash : BitVec 32) :
  ((List.replicate size (0 : Weight)).zipIdx start).foldl
    (fun hash entry => hash ^^^ weightHash entry.2 entry.1) hash = hash := by
 induction size generalizing start with
 | zero => rfl
 | succ size ih =>
  grind [weightHash_zero]

theorem keyHash_zeros (cells : List Nat) (size : Nat) : keyHash cells (List.replicate size 0) = keyHash cells [] :=
 foldl_weightHash_zeros size 0 (hashRow cells)

/-! ## Removing a row from a column -/

theorem length_swapRemove {α : Type} (xs : List α) (row : Nat) :
  (swapRemove xs row).length = xs.length - 1 := by
 rw [swapRemove]
 grind

theorem getD_swapRemove {α : Type} {xs : List α} {row other : Nat} (default : α) (hother : other + 1 < xs.length) :
  (swapRemove xs row).getD other default =
   if other = row then xs.getD (xs.length - 1) default else xs.getD other default := by
 have hlast : xs.getLast? = some (xs.getD (xs.length - 1) default) := by
  grind
 rw [swapRemove, hlast]
 show (List.dropLast _).getD other default = _
 rw [getD_eq_getElem?_getD, getElem?_dropLast, length_set, if_pos (by omega),
  getElem?_set]
 split
 · grind
 grind

namespace Rows

variable {arity : Nat} {rows : Rows}

/-- The columns of a table are of one length, and stored weights too. -/
structure WF (arity : Nat) (rows : Rows) : Prop where
 columns : ∀ column, column ≤ arity → (rows.columns column).length = rows.len
 weights : ∀ column, rows.weights column = [] ∨ (rows.weights column).length = rows.len
 weighted : rows.weighted = false → ∀ column, rows.weights column = []
 tag : rows.tag.length = rows.len

theorem wf_empty (arity : Nat) : Rows.empty.WF arity :=
 ⟨fun _ _ => rfl, fun _ => .inl rfl, fun _ _ => rfl, rfl⟩

/-! ## Cells and weights after a write -/

@[simp] theorem len_setCell (column row cell : Nat) : (rows.setCell column row cell).len = rows.len :=
  rfl

@[simp] theorem len_setWeight (column row : Nat) (weight : Weight) :
  (rows.setWeight column row weight).len = rows.len := by
  rw [setWeight]
  split
  · split <;> rfl
  · rfl

@[simp] theorem len_setStamp (row stamp : Nat) : (rows.setStamp row stamp).len = rows.len :=
  length_set

theorem columns_setCell (column row cell : Nat) : (rows.setCell column row cell).columns =
  update rows.columns column ((rows.columns column).set row cell) :=
 rfl

section

variable (column row : Nat) (weight : Weight)

include column row weight

theorem weights_setWeight : (rows.setWeight column row weight).weights = if rows.weights column = [] then
    if weight = 0 then rows.weights else update rows.weights column ((List.replicate rows.len 0).set row weight)
   else update rows.weights column ((rows.weights column).set row weight) := by
 rw [setWeight]
 split
 · split <;> rfl
 · rfl

@[simp] theorem tag_setWeight :
  (rows.setWeight column row weight).tag = rows.tag := by
  rw [setWeight]
  split
  · split <;> rfl
  · rfl

@[simp] theorem columns_setWeight :
  (rows.setWeight column row weight).columns = rows.columns := by
  rw [setWeight]
  split
  · split <;> rfl
  · rfl

@[simp] theorem cell_setWeight (column' row' : Nat) :
  (rows.setWeight column row weight).cell column' row' = rows.cell column' row' := by
  rw [cell, cell, columns_setWeight]

end

variable {column row other : Nat} {α : Type} {key : List Nat} {weights : List Weight}

theorem cell_setCell (h : rows.WF arity) (hcol : column ≤ arity) (hrow : row < rows.len) (cell column' row' : Nat) :
  (rows.setCell column row cell).cell column' row' =
   if column' = column ∧ row' = row then cell else rows.cell column' row' := by
 rw [Rows.cell, Rows.cell, columns_setCell]
 rcases eq_or_ne column' column with rfl | hne
 · rw [update_self, getD_eq_getElem?_getD, getElem?_set,
    h.columns column' hcol]
   rcases eq_or_ne row' row with rfl | hner
   · simp [hrow]
   · simp [hner, Ne.symm hner]
 · rw [update_of_ne hne, if_neg fun hand => hne hand.1]

theorem cell_setCell_other (column row cell column' row' : Nat) (hother : column' ≠ column ∨ row' ≠ row) :
  (rows.setCell column row cell).cell column' row' = rows.cell column' row' := by
 rw [Rows.cell, Rows.cell, columns_setCell]
 rcases eq_or_ne column' column with rfl | hne
 · grind
 · rw [update_of_ne hne]

theorem weight_setWeight_other (column row : Nat) (weight : Weight) (column' row' : Nat)
  (hother : column' ≠ column ∨ row' ≠ row) :
  (rows.setWeight column row weight).weight column' row' = rows.weight column' row' := by
 rw [Rows.weight, Rows.weight, weights_setWeight]
 rcases eq_or_ne column' column with rfl | hne
 · have hrow : row' ≠ row := hother.resolve_left fun hne => hne rfl
   split
   · rename_i hnone
     split
     · rfl
     grind
   grind
 grind

theorem weight_setWeight (h : rows.WF arity) (hrow : row < rows.len) (weight : Weight) (column' row' : Nat) :
  (rows.setWeight column row weight).weight column' row' =
   if column' = column ∧ row' = row then weight else rows.weight column' row' := by
 rcases eq_or_ne column' column with rfl | hne
 · rcases eq_or_ne row' row with rfl | hner
   · rw [if_pos ⟨rfl, rfl⟩, Rows.weight, weights_setWeight]
     split
     · rename_i hnone
       split
       · grind
       grind
     · rename_i hsome
       have hlength := (h.weights column').resolve_left hsome
       grind
   grind [weight_setWeight_other]
 grind [weight_setWeight_other]

/-! ## Writes keep rows well formed -/

namespace WF

variable (h : rows.WF arity)

include h

theorem weight_of_not_weighted (hwt : rows.weighted = false)
  (column row : Nat) : rows.weight column row = 0 := by
 rw [Rows.weight, h.weighted hwt column]
 rfl

theorem setCell (column row cell : Nat) : (rows.setCell column row cell).WF arity where
 columns := by
  intro column' hcol'
  rw [len_setCell, columns_setCell]
  rcases eq_or_ne column' column with rfl | hne
  · rw [update_self, length_set]
    exact h.columns column' hcol'
  · rw [update_of_ne hne]
    exact h.columns column' hcol'
 weights := h.weights
 weighted := h.weighted
 tag := h.tag

theorem setWeight (column row : Nat) (weight : Weight) : (rows.setWeight column row weight).WF arity where
 columns := by
  intro column' hcol'
  rw [len_setWeight, columns_setWeight]
  exact h.columns column' hcol'
 weights := by
  intro column'
  rw [len_setWeight, weights_setWeight]
  split
  · split
    · exact h.weights column'
    · rcases eq_or_ne column' column with rfl | hne
      · grind
      · rw [update_of_ne hne]
        exact h.weights column'
  · rename_i hsome
    rcases eq_or_ne column' column with rfl | hne
    · refine .inr ?_
      rw [update_self, length_set]
      exact (h.weights column').resolve_left hsome
    · rw [update_of_ne hne]
      exact h.weights column'
 weighted := by
  rw [Rows.setWeight]
  split
  · split
    · exact h.weighted
    · nofun
  · rename_i hsome
    exact fun hfalse => absurd (h.weighted hfalse column) hsome
 tag := by
  rw [len_setWeight, tag_setWeight]
  exact h.tag

theorem setStamp (row stamp : Nat) : (rows.setStamp row stamp).WF arity where
 columns := by
  intro column hcol
  rw [len_setStamp]
  exact h.columns column hcol
 weights := by
  intro column
  rw [len_setStamp]
  exact h.weights column
 weighted := h.weighted
 tag := by
  rw [len_setStamp]
  exact h.tag

end WF

/-! ## Appending a row -/

theorem getD_append_one (xs : List α) (x default : α) :
  (xs ++ [x]).getD xs.length default = x := by
 grind

@[simp] theorem len_push (key : List Nat) (value tag stamp : Nat) :
  (rows.push arity key value tag stamp).len = rows.len + 1 := by
  rw [len, push, length_append, len]
  rfl

theorem WF.push (h : rows.WF arity) (key : List Nat) (value tag stamp : Nat) :
  (rows.push arity key value tag stamp).WF arity where
 columns := by
  intro column hcol
  rw [len_push, Rows.push]
  simp only
  split
  · rw [length_append, h.columns column hcol]
    rfl
  · rw [if_pos (by omega), length_append, h.columns column hcol]
    rfl
 weights := by
  intro column
  rw [len_push, Rows.push]
  simp only
  split
  · exact .inl rfl
  · rename_i hsome
    refine .inr ?_
    rw [length_append, (h.weights column).resolve_left hsome]
    rfl
 weighted := by
  intro hfalse column
  rw [Rows.push]
  simp only
  rw [if_pos (h.weighted hfalse column)]
 tag := by
  rw [len_push, Rows.push]
  rw [length_append, h.tag]
  rfl

theorem cell_push_old (h : rows.WF arity) (key : List Nat) (value tag stamp : Nat)
  (hcol : column ≤ arity) (hrow : row < rows.len) :
  (rows.push arity key value tag stamp).cell column row = rows.cell column row := by
 rw [cell, cell, push]
 have hlt : row < (rows.columns column).length := by
  rw [h.columns column hcol]
  exact hrow
 simp only
 split
 · rw [getD_append _ _ _ _ hlt]
 · rw [if_pos (by omega), getD_append _ _ _ _ hlt]

theorem cell_push_key (h : rows.WF arity) (key : List Nat) (value tag stamp : Nat) (hcol : column < arity) :
  (rows.push arity key value tag stamp).cell column rows.len = key.getD column 0 := by
 rw [cell, push]
 simp only
 rw [if_pos hcol, ← h.columns column (le_of_lt hcol), getD_append_one]

theorem cell_push_value (h : rows.WF arity) (key : List Nat) (value tag stamp : Nat) :
  (rows.push arity key value tag stamp).cell arity rows.len = value := by
 rw [cell, push]
 simp only [lt_irrefl, if_false, if_true]
 rw [← h.columns arity le_rfl, getD_append_one]

theorem weight_push_old (key : List Nat) (value tag stamp column row : Nat) :
  (rows.push arity key value tag stamp).weight column row = rows.weight column row := by
 rw [weight, weight, push]
 simp only
 split
 · rename_i hnone
   rw [hnone]
 grind

theorem weight_push_new (h : rows.WF arity) (key : List Nat) (value tag stamp : Nat) (column : Nat) :
  (rows.push arity key value tag stamp).weight column rows.len = 0 := by
 rw [weight, push]
 simp only
 split
 · rfl
 · rename_i hsome
   have hlength := (h.weights column).resolve_left hsome
   rw [← hlength, getD_append_one]

/-! ## The weights of a key -/

theorem foldl_setWeight (weights : List Weight) (start : Nat) (h : rows.WF arity) (hrow : row < rows.len) :
  let after := (weights.zipIdx start).foldl (fun rows entry => rows.setWeight entry.2 row entry.1) rows
  after.WF arity ∧ after.len = rows.len ∧ after.columns = rows.columns ∧ after.tag = rows.tag ∧
   after.stamp = rows.stamp ∧ ∀ column row', after.weight column row' =
    if row' = row ∧ start ≤ column ∧ column - start < weights.length then weights.getD (column - start) 0
    else rows.weight column row' := by
 induction weights generalizing start rows with
 | nil =>
  grind
 | cons weight weights ih =>
  rw [zipIdx_cons, foldl_cons]
  have hstamp : (rows.setWeight start row weight).stamp = rows.stamp := by
   rw [setWeight]
   grind
  obtain ⟨hwf, hlen, hcols, htag, hstamp', hweight⟩ := ih (start + 1) (h.setWeight start row weight)
   (by rw [len_setWeight]; exact hrow)
  refine ⟨hwf, hlen.trans (len_setWeight _ _ _), hcols.trans (columns_setWeight _ _ _),
   htag.trans (tag_setWeight _ _ _), hstamp'.trans hstamp, fun column row' => ?_⟩
  rw [hweight, weight_setWeight h hrow, length_cons]
  rcases Nat.lt_trichotomy column start with hlt | rfl | hgt
  · rw [if_neg (by omega), if_neg (by omega), if_neg (by omega)]
  · rw [if_neg (by omega), Nat.sub_self]
    by_cases hr : row' = row
    · rw [if_pos ⟨rfl, hr⟩, if_pos ⟨hr, le_rfl, Nat.succ_pos _⟩]
      rfl
    · rw [if_neg fun hand => hr hand.2, if_neg fun hand => hr hand.1]
  · have hsub : column - start = (column - (start + 1)) + 1 := by omega
    rw [hsub, getD_cons_succ]
    by_cases hin : row' = row ∧ column - (start + 1) < weights.length
    · rw [if_pos ⟨hin.1, hgt, hin.2⟩, if_pos ⟨hin.1, by omega, by omega⟩]
    · rw [if_neg fun hand => hin ⟨hand.1, hand.2.2⟩, if_neg (by omega),
       if_neg fun hand => hin ⟨hand.1, by omega⟩]

theorem WF.setWeights (h : rows.WF arity) (hrow : row < rows.len) (weights : List Weight) :
  (rows.setWeights row weights).WF arity :=
 (foldl_setWeight weights 0 h hrow).1

theorem len_setWeights (h : rows.WF arity) (hrow : row < rows.len) (weights : List Weight) :
  (rows.setWeights row weights).len = rows.len :=
 (foldl_setWeight weights 0 h hrow).2.1

theorem cell_setWeights (h : rows.WF arity) (hrow : row < rows.len) (weights : List Weight)
  (column row' : Nat) : (rows.setWeights row weights).cell column row' = rows.cell column row' := by
 rw [cell, cell, setWeights, (foldl_setWeight weights 0 h hrow).2.2.1]

theorem tag_setWeights (h : rows.WF arity) (hrow : row < rows.len) (weights : List Weight) :
  (rows.setWeights row weights).tag = rows.tag :=
 (foldl_setWeight weights 0 h hrow).2.2.2.1

theorem weight_setWeights (h : rows.WF arity) (hrow : row < rows.len) (weights : List Weight)
  (column row' : Nat) : (rows.setWeights row weights).weight column row' =
   if row' = row ∧ column < weights.length then weights.getD column 0 else rows.weight column row' := by
 have hweight := (foldl_setWeight weights 0 h hrow).2.2.2.2.2 column row'
 rw [setWeights, hweight, Nat.sub_zero]
 simp

/-! ## Removing a row -/

@[simp] theorem len_remove (row : Nat) : (rows.remove row).len = rows.len - 1 :=
  length_swapRemove rows.stamp row

section

variable (h : rows.WF arity)

include h

theorem WF.remove (row : Nat) : (rows.remove row).WF arity where
 columns := by
  intro column hcol
  rw [len_remove, Rows.remove]
  rw [length_swapRemove, h.columns column hcol]
 weights := by
  intro column
  rw [len_remove, Rows.remove]
  simp only
  rcases h.weights column with hnone | hlength
  · rw [hnone]
    exact .inl rfl
  grind [length_swapRemove]
 weighted := by
  intro hfalse column
  rw [Rows.remove]
  simp only
  rw [h.weighted hfalse column]
  rfl
 tag := by
  rw [len_remove, Rows.remove]
  rw [length_swapRemove, h.tag]

theorem cell_remove (hcol : column ≤ arity) (hother : other + 1 < rows.len) : (rows.remove row).cell column other =
   if other = row then rows.cell column (rows.len - 1) else rows.cell column other := by
 rw [cell, remove]
 rw [getD_swapRemove 0 (by rw [h.columns column hcol]; exact hother), h.columns column hcol]
 rfl

theorem weight_remove (column : Nat) (hother : other + 1 < rows.len) : (rows.remove row).weight column other =
   if other = row then rows.weight column (rows.len - 1) else rows.weight column other := by
 rw [weight, remove]
 simp only
 rcases h.weights column with hnone | hlength
 · have hzero : ∀ other, rows.weight column other = 0 := by
    intro other
    rw [weight, hnone]
    rfl
   rw [hnone, hzero, hzero, ite_self]
   rfl
 · rw [getD_swapRemove 0 (by rw [hlength]; exact hother), hlength]
   rfl

theorem tag_remove (hother : other + 1 < rows.len) : (rows.remove row).tag.getD other 0 =
   if other = row then rows.tag.getD (rows.len - 1) 0 else rows.tag.getD other 0 := by
 rw [remove]
 rw [getD_swapRemove 0 (by rw [h.tag]; exact hother), h.tag]

end

/-! ## Keys -/

/-- `row` holds `key` at `weights`, which reads as zero where it is not given. -/
def Holds (rows : Rows) (arity : Nat) (key : List Nat) (weights : List Weight) (row : Nat) : Prop :=
 ∀ column, column < arity →
  rows.cell column row = key.getD column 0 ∧ rows.weight column row = weights.getD column 0

theorem holdsKey_iff :
  rows.holdsKey arity key weights row = true ↔ rows.Holds arity key weights row := by
 simp [holdsKey, Holds]

theorem rowMatches_iff (h : rows.WF arity) :
  rows.rowMatches arity key weights row = true ↔ rows.Holds arity key weights row := by
 rw [rowMatches, Bool.and_eq_true, all_eq_true, Bool.or_eq_true, Bool.and_eq_true,
  Bool.not_eq_true', List.isEmpty_iff, all_eq_true]
 simp only [mem_range, beq_iff_eq]
 constructor
 · rintro ⟨hcells, ⟨hwt, rfl⟩ | hwts⟩ column hcol
   · refine ⟨hcells column hcol, ?_⟩
     rw [h.weight_of_not_weighted hwt]
     rfl
   · exact ⟨hcells column hcol, hwts column hcol⟩
 · intro hholds
   exact ⟨fun column hcol => (hholds column hcol).1,
    .inr fun column hcol => (hholds column hcol).2⟩

/-- A key of a table of `arity`: a cell per column, and no weights or one per column. -/
def IsKey (arity : Nat) (key : List Nat) (weights : List Weight) : Prop :=
 key.length = arity ∧ (weights = [] ∨ weights.length = arity)

def rowHash (rows : Rows) (arity row : Nat) : BitVec 32 :=
 keyHash (rows.keyCells arity row) (rows.keyWeights arity row)

theorem map_range_getD (xs : List α) (default : α) :
  ((List.range xs.length).map fun at' => xs.getD at' default) = xs := by
 apply ext_getElem
 · simp
 · intro at' _ hlt
   simp [hlt]

section

variable (hkey : IsKey arity key weights) (h : rows.Holds arity key weights row)

include hkey h

theorem keyCells_of_holds :
  rows.keyCells arity row = key := by
 rw [keyCells, ← map_range_getD key 0, hkey.1]
 exact map_congr_left fun column hcol => (h column (mem_range.1 hcol)).1

theorem rowHash_of_holds :
  rows.rowHash arity row = keyHash key weights := by
 rw [rowHash, keyCells_of_holds hkey h]
 have hwts : rows.keyWeights arity row = (List.range arity).map fun column => weights.getD column 0 :=
  map_congr_left fun column hcol => (h column (mem_range.1 hcol)).2
 rw [hwts]
 rcases hkey.2 with rfl | hlength
 · have hzeros : ((List.range arity).map fun column => ([] : List Weight).getD column 0)
     = List.replicate arity 0 := by
    simp_all
   rw [hzeros, keyHash_zeros]
 · rw [← hlength, map_range_getD weights 0]

end

theorem isKey_row (rows : Rows) (arity row : Nat) : IsKey arity (rows.keyCells arity row) (rows.keyWeights arity row) :=
 ⟨by simp [keyCells], .inr (by simp [keyWeights])⟩

theorem getD_keyCells (hcol : column < arity) (row : Nat) :
  (rows.keyCells arity row).getD column 0 = rows.cell column row := by
 simp [keyCells, hcol]

theorem getD_keyWeights (hcol : column < arity) (row : Nat) :
  (rows.keyWeights arity row).getD column 0 = rows.weight column row := by
 simp [keyWeights, hcol]

end Rows

end Tir.Relational
