import Tir.Egraph.KeyValues

/-!
# What a rename leaves of a row

A row of a label stands for an equation: the label over the row's operands is the value of the row
(`RowHolds`). A rename by a flat union-find keeps the equation, whatever it moves between the key and the
value (`RowHolds.renamed`), and two rows of one key have one value (`RowHolds.value_eq`).
-/

open List Option Nat

namespace Tir.Egraph

open Tir.Relational Shape UnionFind RowView Ref

variable {L D : Type} [Label L] {I : Interpretation L D} {env : Nat → Value D} {l : L} {view : RowView} {map : Rename}

def viewOperands (view : RowView) : List Ref :=
 rowOperands view.cells view.weights

def viewValue (view : RowView) : Ref :=
 ⟨view.value.1, view.value.2⟩

/-- A row of a label says that the label over its operands is its value. A unique label says nothing. -/
def RowHolds (I : Interpretation L D) (env : Nat → Value D) (l : L) (view : RowView) : Prop :=
 Label.unique l = false → I.Takes l ((viewOperands view).map (Ref.value env)) ∧
  I.apply l ((viewOperands view).map (Ref.value env)) = (viewValue view).value env

theorem RowHolds.value_eq {other : RowView} (h : RowHolds I env l view) (h' : RowHolds I env l other)
  (hunique : Label.unique l = false) (hkey : view.SameKey other) :
  (viewValue view).value env = (viewValue other).value env := by
 have hops : viewOperands view = viewOperands other := by rw [viewOperands, viewOperands, hkey.1, hkey.2]
 rw [← (h hunique).2, ← (h' hunique).2, hops]

/-! ## Layouts -/

theorem layout_arity : (Shape.of l).layout.arity = 1 + Label.arity l :=
 rfl

theorem layout_coefficients (operand : Nat) :
  (Shape.of l).layout.coefficients (operand + 1) = (Laws.of l).coefficient operand :=
 rfl

theorem layout_pairs (shape : Shape) : shape.layout.Pairs := by
 intro a b hpair
 simp only [layout] at hpair
 split at hpair
 · cases hpair
   exact ⟨fun heq => absurd (Fin.mk.inj heq) (by decide), le_refl 1, le_succ 1⟩
 · nomatch hpair

/-! ## Renames -/

/-- A rename that keeps the value of an id. -/
structure Renames (map : Rename) (env : Nat → Value D) (id : Nat) : Prop where
 straight : map.shift id = none → env id = env (map.target id)
 shifted : ∀ delta mask, map.shift id = some (delta, mask) →
  env id = Offsets.shift (env (map.target id)) delta ∧ mask = Offsets.mask (env (map.target id))

theorem renames_of_flat {uf : UnionFind} (h : Placed uf env) (hflat : uf.Flat) {id : Nat} (hlt : id < uf.len) :
  Renames uf.rename env id := by
 have hval := h.holds.value id hlt
 rw [hflat.root_eq h.formed, hflat.total_eq h.formed] at hval
 constructor
 · intro hnone
   rw [rename, map_eq_none_iff, deltas] at hnone
   split at hnone
   · nomatch hnone
   · rename_i hstraight
     rwa [h.formed.straight (Bool.eq_false_iff.2 hstraight), Offsets.shift_zero] at hval
 · intro delta mask hsome
   rw [rename, map_eq_some_iff] at hsome
   obtain ⟨deltas, hdeltas, heq⟩ := hsome
   cases heq
   rw [UnionFind.deltas] at hdeltas
   split at hdeltas
   · cases hdeltas
     refine ⟨hval, h.holds.mask _ (h.formed.parent_lt id hlt) ?_⟩
     exact hflat id
   · nomatch hdeltas

namespace Renames

variable {id : Nat} (h : Renames map env id)
include h

theorem carrier : (env (map.target id)).carrier = (env id).carrier := by
 cases hshift : map.shift id with
 | none => rw [h.straight hshift]
 | some moved => rw [(h.shifted moved.1 moved.2 hshift).1, Value.carrier_shift]

theorem mask : Offsets.mask (env (map.target id)) = Offsets.mask (env id) := by
 rw [Value.mask_eq, Value.mask_eq, h.carrier]

end Renames

theorem moveValue_value (h : Renames map env view.value.1) :
  (viewValue (view.moveValue map)).value env = (viewValue view).value env := by
 rw [moveValue, viewValue, viewValue]
 cases hshift : map.shift view.value.1 with
 | none =>
  rw [Ref.value, Ref.value]
  rw [← h.straight hshift]
 | some moved =>
  obtain ⟨hval, hmask⟩ := h.shifted moved.1 moved.2 hshift
  rw [Ref.value, Ref.value]
  simp only
  rw [hmask, Offsets.shift_mask, hval, Offsets.shift_shift, add_comm]

/-! ## Renaming one column -/

theorem rowOperands_set {cells : List Nat} {weights : List Word} (cell operand : Nat) (weight : Word) :
  rowOperands (cells.set (operand + 1) cell) (weights.set (operand + 1) weight) =
   (rowOperands cells weights).set operand ⟨cell, weight⟩ := by
 have hzip : ∀ (cells : List Nat) (weights : List Word) (operand : Nat),
   (cells.set operand cell).zipWith Ref.mk (weights.set operand weight) =
    (cells.zipWith Ref.mk weights).set operand ⟨cell, weight⟩ := by
  intro cells
  induction cells with
  | nil =>
   intro weights operand
   rfl
  | cons first cells ih =>
   intro weights operand
   cases weights with
   | nil =>
    simp_all
   | cons weight' weights =>
    cases operand with
    | zero => rfl
    | succ operand => exact congrArg _ (ih weights operand)
 cases cells with
 | nil => rfl
 | cons first cells =>
  cases weights with
  | nil =>
   show (cells.set operand cell).zipWith Ref.mk [] = (cells.zipWith Ref.mk []).set operand _
   grind
  | cons weight' weights => exact hzip cells weights operand

theorem rowOperands_set_cell {cells : List Nat} {weights : List Word} {operand : Nat} (hlt : operand + 1 < weights.length)
  (cell : Nat) : rowOperands (cells.set (operand + 1) cell) weights =
   (rowOperands cells weights).set operand ⟨cell, weights.getD (operand + 1) 0⟩ := by
 have hset : weights.set (operand + 1) (weights.getD (operand + 1) 0) = weights := by
  rw [getD_eq_getElem _ _ hlt, set_getElem_self]
 rw [← rowOperands_set, hset]

theorem getElem_rowOperands {cells : List Nat} {weights : List Word} {operand : Nat} (hcells : operand + 1 < cells.length)
  (hwts : operand + 1 < weights.length) :
  (rowOperands cells weights)[operand]? = some ⟨cells.getD (operand + 1) 0, weights.getD (operand + 1) 0⟩ := by
 rw [rowOperands, getElem?_zipWith, getElem?_drop, getElem?_drop, add_comm 1,
  getElem?_eq_getElem hcells, getElem?_eq_getElem hwts, getD_eq_getElem _ _ hcells,
  getD_eq_getElem _ _ hwts]

/-- Rewriting an operand's cell keeps the equation. -/
theorem RowHolds.rekeyColumn (h : RowHolds I env l view) (hsized : view.Sized (Shape.of l).layout) {operand : Nat}
  (hop : operand < Label.arity l) (hcell : Renames map env (view.cells.getD (operand + 1) 0))
  (hval : Renames map env view.value.1) :
  RowHolds I env l (view.rekeyColumn (Shape.of l).layout map (operand + 1)) := by
 intro hunique
 obtain ⟨htakes, heq⟩ := h hunique
 have hcells : operand + 1 < view.cells.length := by
  rw [hsized.cells, layout_arity]
  omega
 have hwts : operand + 1 < view.weights.length := by
  rw [hsized.weights, layout_arity]
  omega
 generalize hid : view.cells.getD (operand + 1) 0 = id at hcell
 generalize hweight : view.weights.getD (operand + 1) 0 = weight
 have hget : (viewOperands view)[operand]? = some ⟨id, weight⟩ := by
  rw [viewOperands, getElem_rowOperands hcells hwts, hid, hweight]
 have hlt : operand < (viewOperands view).length := (List.getElem?_eq_some_iff.1 hget).1
 -- the operands before and after the one rewritten
 obtain ⟨before, after, hlen, hsplit, hset⟩ : ∃ before after, before.length = operand ∧
   (viewOperands view).map (value env) = before ++ value env ⟨id, weight⟩ :: after ∧
   ∀ ref, ((viewOperands view).set operand ref).map (value env) = before ++ ref.value env :: after := by
  refine ⟨((viewOperands view).take operand).map (value env), ((viewOperands view).drop (operand + 1)).map
   (value env), by rw [length_map, length_take]; omega, ?_, fun ref => ?_⟩
  · rw [← map_cons, ← map_append]
    congr 1
    rw [← (List.getElem?_eq_some_iff.1 hget).2, getElem_cons_drop, take_append_drop]
  · rw [← map_cons, ← map_append, set_eq_take_append_cons_drop, if_pos hlt]
 have hsame : ∀ ref : Ref, ref.value env = value env ⟨id, weight⟩ →
   ((viewOperands view).set operand ref).map (Ref.value env) = (viewOperands view).map (Ref.value env) := by
  grind
 rw [RowView.rekeyColumn]
 rw [hid, hweight]
 cases hshift : map.shift id with
 | none =>
  -- the id moves at no offset
  simp only
  rw [viewOperands, viewValue, rowOperands_set_cell hwts, hweight]
  have hkeeps := hsame ⟨map.target id, weight⟩ (by rw [Ref.value, Ref.value, hcell.straight hshift])
  rw [viewOperands] at hkeeps
  rw [hkeeps]
  exact ⟨htakes, heq⟩
 | some moved =>
  obtain ⟨hmoved, hmask⟩ := hcell.shifted moved.1 moved.2 hshift
  simp only
  by_cases hzero : moved.1 = 0
  · rw [if_pos hzero, viewOperands, viewValue, rowOperands_set_cell hwts, hweight]
    have hkeeps := hsame ⟨map.target id, weight⟩ (by
     rw [Ref.value, Ref.value, hmoved, hzero, Offsets.shift_zero])
    rw [viewOperands] at hkeeps
    rw [hkeeps]
    exact ⟨htakes, heq⟩
  · rw [if_neg hzero, layout_coefficients]
    by_cases hcoefficient : (Laws.of l).coefficient operand = 0
    · -- the offset stays in the key
      rw [if_pos hcoefficient, viewOperands, viewValue, rowOperands_set]
      have hkeeps := hsame ⟨map.target id, (weight + moved.1) &&& moved.2⟩ (by
       rw [Ref.value, Ref.value, hmask, Offsets.shift_mask, hmoved, Offsets.shift_shift, add_comm])
      rw [viewOperands] at hkeeps
      rw [hkeeps]
      exact ⟨htakes, heq⟩
    · -- the offset moves to the value
      rw [if_neg hcoefficient, viewOperands, viewValue, rowOperands_set_cell hwts, hweight]
      obtain ⟨hcarr, hdecl⟩ := Laws.coefficient_of hcoefficient
      have hsplit' := hset ⟨map.target id, weight⟩
      rw [viewOperands] at hsplit'
      have hold : Ref.value env ⟨id, weight⟩ =
        Offsets.shift (Ref.value env ⟨map.target id, weight⟩) moved.1 := by
       rw [Ref.value, Ref.value, hmoved, Offsets.shift_shift, Offsets.shift_shift, add_comm]
      have htakes' : I.Takes l (before ++ Ref.value env ⟨map.target id, weight⟩ :: after) := by
       apply htakes.congr
       simp_all
      rw [hsplit']
      refine ⟨htakes', ?_⟩
      rw [hsplit, hold, I.coefficient l before _ after _ moved.1 htakes' hcarr (by rw [hlen]; exact hdecl),
       Offsets.shift_eq_iff] at heq
      rw [heq, viewValue, Ref.value, Ref.value, Offsets.shift_shift, ← sub_eq_add_neg]
      cases hvalueshift : map.shift view.value.1 with
      | none =>
       simp only [map_none, getD_none]
       rw [BitVec.and_allOnes]
      | some moved' =>
       simp only [map_some, getD_some]
       rw [(hval.shifted moved'.1 moved'.2 hvalueshift).2, hval.mask, Offsets.shift_mask]

/-! ## Renaming a row -/

section

variable (h : RowHolds I env l view) (hsized : view.Sized (Shape.of l).layout)

include h hsized

/-- Rewriting the cells of the operands keeps the equation. -/
theorem RowHolds.rekeyColumns
  (hnames : ∀ id, view.Names (Shape.of l).layout id → Renames map env id) {columns : List Nat} (hnd : columns.Nodup)
  (hcols : ∀ column ∈ columns, 1 ≤ column ∧ column < (Shape.of l).layout.arity) :
  RowHolds I env l (columns.foldl (RowView.rekeyColumn (Shape.of l).layout map) view) := by
 induction columns using List.reverseRecOn with
 | nil => exact h
 | append_singleton columns column ih =>
  have hbef : ∀ column ∈ columns, 1 ≤ column ∧ column < (of l).layout.arity := fun column hin =>
   hcols column (mem_append_left _ hin)
  have hnd' := (nodup_append.1 hnd).1
  have hout : column ∉ columns := fun hin =>
   (nodup_append.1 hnd).2.2 column hin column mem_cons_self rfl
  obtain ⟨hplain, hlt⟩ := hcols column (mem_append_right _ (.head _))
  obtain ⟨hsized', hval, hcells⟩ := rekeyColumns_spec map hsized hnd' fun column hin =>
   (hbef column hin).2
  obtain ⟨operand, rfl⟩ := Nat.exists_eq_add_of_le' hplain
  rw [foldl_concat]
  refine (ih hnd' hbef).rekeyColumn hsized' (by rw [layout_arity] at hlt; omega) ?_ ?_
  · rw [hcells _ hlt, if_neg hout]
    exact hnames _ (names_cell hplain hlt)
  grind [names_value]

/-- Ordering the pair of a label that commutes keeps the equation. -/
theorem RowHolds.orderPair :
  RowHolds I env l (view.orderPair (Shape.of l).layout) := by
 intro hunique
 obtain ⟨htakes, heq⟩ := h hunique
 cases hpair : (Shape.of l).layout.unordered with
 | none =>
  rw [RowView.orderPair, hpair]
  exact ⟨htakes, heq⟩
 | some pair =>
  have hboth : (of l).commutes = true ∧ pair.1.val = 1 ∧ pair.2.val = 2 := by
   simp only [layout] at hpair
   split at hpair
   · grind
   · cases hpair
  obtain ⟨hcommutes, hfst, hsnd⟩ := hboth
  have hcommutes' : Label.arity l = 2 ∧ Label.commutative l = true := by
   have hcommutes'' : (decide (Label.arity l = 2) && Label.commutative l) = true := hcommutes
   grind
  have hcells := hsized.cells
  have hwts := hsized.weights
  rw [layout_arity, hcommutes'.1] at hcells hwts
  -- the label, and its two operands
  obtain ⟨label, a, b, habc⟩ := length_eq_three.1 hcells
  obtain ⟨w, wa, wb, hwab⟩ := length_eq_three.1 hwts
  have hops : viewOperands view = [⟨a, wa⟩, ⟨b, wb⟩] := by
   rw [viewOperands, habc, hwab]
   rfl
  rw [hops] at htakes heq
  obtain ⟨htakes', heq'⟩ := I.commutes l _ _ htakes hcommutes'.2
  rw [RowView.orderPair, hpair]
  simp only
  rw [hfst, hsnd, habc, hwab]
  split
  · exact ⟨htakes', heq'.trans heq⟩
  grind

theorem RowHolds.renamed (hnames : ∀ id, view.Names (Shape.of l).layout id → Renames map env id)
  (hagain : ∀ id, view.Names (Shape.of l).layout id → Renames map env (map.target id)) :
  RowHolds I env l (view.renamed (Shape.of l).layout map) := by
 have hmoved : ∀ moved, moved = (if view.movesValue map then view.moveValue map else view) →
   RowHolds I env l moved ∧ moved.Sized (of l).layout ∧
    ∀ id, moved.Names (of l).layout id → Renames map env id := by
  rintro moved rfl
  split
  · refine ⟨fun hunique => ?_, ⟨hsized.cells, hsized.weights⟩, ?_⟩
    · rw [moveValue_value (hnames _ names_value)]
      exact h hunique
    · rintro id (hcell | rfl)
      · exact hnames id (Or.inl hcell)
      · exact hagain _ names_value
  · exact ⟨h, hsized, hnames⟩
 obtain ⟨hholds, hsized', hnames'⟩ := hmoved _ rfl
 rw [RowView.renamed]
 split
 · rw [RowView.rekey]
   have hcols : ∀ column ∈ List.range' (of l).layout.plain
     ((of l).layout.arity - (of l).layout.plain), 1 ≤ column ∧ column < (of l).layout.arity :=
    fun column hin => mem_keyColumns.1 hin
   apply RowHolds.orderPair
   · exact hholds.rekeyColumns hsized' hnames' nodup_keyColumns hcols
   · exact (rekeyColumns_spec map hsized' nodup_keyColumns fun column hin => (hcols column hin).2).1
 · exact hholds

end

theorem label_renamed (hsized : view.Sized (Shape.of l).layout) :
  (view.renamed (Shape.of l).layout map).cells.getD 0 0 = view.cells.getD 0 0 := by
 have hzero : 0 < (of l).layout.arity := by
  rw [layout_arity]
  omega
 have hmoved : ∀ moved, moved = (if view.movesValue map then view.moveValue map else view) →
   moved.Sized (of l).layout ∧ moved.cells = view.cells := by
  rintro moved rfl
  split
  · exact ⟨⟨hsized.cells, hsized.weights⟩, rfl⟩
  · exact ⟨hsized, rfl⟩
 obtain ⟨hsized', hcells⟩ := hmoved _ rfl
 rw [renamed]
 split
 · obtain ⟨hsized'', -, hcells'⟩ := rekeyColumns_spec map hsized' nodup_keyColumns
    fun column hin => (mem_keyColumns.1 hin).2
   obtain ⟨column, hlt, hcol, heq⟩ := orderPair_cell hsized'' (layout_pairs _) hzero
   rcases hcol with rfl | ⟨hplain, -⟩
   · rw [rekey, heq, hcells' 0 hlt, if_neg (fun hin => absurd (mem_keyColumns.1 hin).1 (not_succ_le_zero 0)),
      hcells]
   · exact absurd hplain (not_succ_le_zero 0)
 · rw [hcells]

end Tir.Egraph
