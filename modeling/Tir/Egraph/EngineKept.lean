import Tir.Egraph.RowValues

/-!
# What the engine keeps

`Engine.Kept` says that the tables are those of the shapes the labels have, that each row is one of a
label known to the vocabulary, and that no row is a constant a zero stands for. `Engine.Holds` says that
under an interpretation every class stands where the partition places it and every row is an equation.
-/

open List Option

namespace Tir.Egraph

open Tir.Relational

variable {L : Type} [Label L]

/-! ## The vocabulary -/

namespace Vocabulary

variable {vocabulary vocabulary' vocabulary'' : Vocabulary L} {label : Nat} {l : L}

/-- A vocabulary some labels were met through. -/
inductive Met : Vocabulary L → Prop where
 | empty : Met empty
 | intern {vocabulary : Vocabulary L} (h : Met vocabulary) (l : L) : Met (vocabulary.intern l).1

/-- The labels met are known with the shapes of their tables. -/
def Formed (vocabulary : Vocabulary L) : Prop :=
 ∀ l ∈ vocabulary.labels, Shape.of l ∈ vocabulary.shapes

/-- Labels and shapes are met at the end. -/
structure Grows (vocabulary vocabulary' : Vocabulary L) : Prop where
 labels : vocabulary.labels <+: vocabulary'.labels
 shapes : vocabulary.shapes <+: vocabulary'.shapes

omit [Label L] in
theorem Grows.refl (vocabulary : Vocabulary L) : Grows vocabulary vocabulary :=
 ⟨prefix_refl _, prefix_refl _⟩

omit [Label L] in
theorem Grows.trans (h : Grows vocabulary vocabulary') (h' : Grows vocabulary' vocabulary'') :
  Grows vocabulary vocabulary'' :=
 ⟨h.labels.trans h'.labels, h.shapes.trans h'.shapes⟩

theorem getElem?_of_prefix {α : Type} {xs ys : List α} (h : xs <+: ys) {at' : Nat} {x : α} (hx : xs[at']? = some x) :
  ys[at']? = some x := by
 obtain ⟨rest, rfl⟩ := h
 rw [getElem?_append_left (List.getElem?_eq_some_iff.1 hx).1]
 exact hx

omit [Label L] in
theorem Grows.labelled (h : Grows vocabulary vocabulary') (hlabel : vocabulary.labels[label]? = some l) :
  vocabulary'.labels[label]? = some l :=
 getElem?_of_prefix h.labels hlabel

theorem intern_spec (h : vocabulary.Formed) (l : L) :
  (vocabulary.intern l).1.Formed ∧ Grows vocabulary (vocabulary.intern l).1 ∧
   (vocabulary.intern l).1.labels[(vocabulary.intern l).2]? = some l := by
 rw [intern]
 split
 · rename_i hin
   have hlt := idxOf_lt_length_of_mem hin
   refine ⟨h, Grows.refl _, ?_⟩
   show vocabulary.labels[vocabulary.labels.idxOf l]? = some l
   rw [getElem?_eq_getElem hlt, getElem_idxOf hlt]
 · refine ⟨fun l' hin => ?_, ⟨prefix_append _ _, ?_⟩, getElem?_concat_length⟩
   · simp only at hin ⊢
     rcases mem_append.1 hin with hold | hnew
     · split
       · exact h l' hold
       · exact mem_append_left _ (h l' hold)
     · obtain rfl := mem_singleton.1 hnew
       split
       · assumption
       · exact mem_append_right _ (.head _)
   · simp only
     split
     · exact prefix_refl _
     · exact prefix_append _ _

theorem Met.formed (h : Met vocabulary) : vocabulary.Formed := by
 induction h with
 | empty => nofun
 | intern h l ih => exact (intern_spec ih l).1

theorem shapes_slotOf (h : vocabulary.Formed) (hlabel : vocabulary.labels[label]? = some l) :
  vocabulary.shapes[vocabulary.slotOf label]? = some (Shape.of l) := by
 have hslot : vocabulary.slotOf label = vocabulary.shapes.idxOf (Shape.of l) := by
  rw [slotOf, hlabel]
  rfl
 have hlt := idxOf_lt_length_of_mem (h l (mem_of_getElem? hlabel))
 rw [hslot, getElem?_eq_getElem hlt, getElem_idxOf hlt]

theorem Grows.slotOf (h : Grows vocabulary vocabulary') (hformed : vocabulary.Formed)
  (hlabel : vocabulary.labels[label]? = some l) : vocabulary'.slotOf label = vocabulary.slotOf label := by
 rw [Vocabulary.slotOf, Vocabulary.slotOf, h.labelled hlabel, hlabel]
 obtain ⟨rest, hrest⟩ := h.shapes
 show vocabulary'.shapes.idxOf (Shape.of l) = vocabulary.shapes.idxOf (Shape.of l)
 rw [← hrest, idxOf_append_of_mem (hformed l (mem_of_getElem? hlabel))]

end Vocabulary

/-! ## Tables -/

theorem addTables_spec {db : Database} (h : db.Kept) (shapes : List Shape) :
  (shapes.foldl (fun db shape => db.addTable (Table.new shape.layout)) db).Kept ∧
   shapes.foldl (fun db shape => db.addTable (Table.new shape.layout)) db =
    { db with tables := db.tables ++ shapes.map fun shape => Table.new shape.layout } := by
 induction shapes generalizing db with
 | nil => exact ⟨h, by rw [map_nil, append_nil]; rfl⟩
 | cons shape shapes ih =>
  obtain ⟨hkept, heq⟩ := ih (h.addTable (layout_pairs shape))
  refine ⟨hkept, heq.trans ?_⟩
  rw [Database.addTable, map_cons]
  simp

/-- The tables of a database are those of the first shapes. -/
def TablesOf (shapes : List Shape) (tables : List Table) : Prop :=
 ∀ (slot : Nat) t, tables[slot]? = some t → ∃ shape, shapes[slot]? = some shape ∧ t.toLayout = shape.layout

omit [Label L] in
/-- A table is made with every table below it: the others stay, and the new ones are empty. -/
theorem Vocabulary.addTables_spec {vocabulary : Vocabulary L} {db : Database} (h : db.Kept)
  (htables : TablesOf vocabulary.shapes db.tables) {slot : Nat} (hslot : slot < vocabulary.shapes.length) :
  (vocabulary.addTables slot db).Kept ∧ (vocabulary.addTables slot db).space = db.space ∧
   (vocabulary.addTables slot db).epoch = db.epoch ∧ TablesOf vocabulary.shapes (vocabulary.addTables slot db).tables ∧
   (∀ (slot' : Nat) t, (vocabulary.addTables slot db).tables[slot']? = some t →
    db.tables[slot']? = some t ∨ t.len = 0 ∧ db.tables[slot']? = none) ∧
   ∃ t, (vocabulary.addTables slot db).tables[slot]? = some t := by
 obtain ⟨hkept, heq⟩ := Tir.Egraph.addTables_spec h ((vocabulary.shapes.take (slot + 1)).drop db.tables.length)
 have hadd : vocabulary.addTables slot db = { db with tables := db.tables ++
   ((vocabulary.shapes.take (slot + 1)).drop db.tables.length).map fun shape => Table.new shape.layout } := heq
 have hkept' : (vocabulary.addTables slot db).Kept := hkept
 have hget : ∀ (slot' : Nat) t, (db.tables ++ ((vocabulary.shapes.take (slot + 1)).drop db.tables.length).map
   fun shape => Table.new shape.layout)[slot']? = some t → db.tables[slot']? = some t ∨
    db.tables[slot']? = none ∧ ∃ shape, vocabulary.shapes[slot']? = some shape ∧ t = Table.new shape.layout := by
  intro slot' t ht
  rcases lt_or_ge slot' db.tables.length with hlt | hge
  · rw [getElem?_append_left hlt] at ht
    exact .inl ht
  · rw [getElem?_append_right hge, getElem?_map, map_eq_some_iff] at ht
    obtain ⟨shape, hshape, rfl⟩ := ht
    rw [getElem?_drop, Nat.add_sub_cancel' hge, getElem?_take] at hshape
    split at hshape
    · exact .inr ⟨getElem?_eq_none hge, shape, hshape, rfl⟩
    · nomatch hshape
 rw [hadd] at hkept' ⊢
 refine ⟨hkept', rfl, rfl, fun slot' t ht => ?_, fun slot' t ht => ?_, ?_⟩
 · rcases hget slot' t ht with hold | ⟨-, shape, hshape, rfl⟩
   · exact htables slot' t hold
   · exact ⟨shape, hshape, rfl⟩
 · rcases hget slot' t ht with hold | ⟨hnone, shape, -, rfl⟩
   · exact .inl hold
   · exact .inr ⟨rfl, hnone⟩
 · refine ⟨_, getElem?_eq_getElem ?_⟩
   simp only [length_append, length_map, length_drop, length_take]
   omega

/-! ## The invariant -/

namespace Engine

variable {e e' : Engine L} {D : Type} {I : Interpretation L D} {env : Nat → Value D}

/-- A row of a label the vocabulary knows; a constant has one only where no zero stands for it. -/
def RowKept (e : Engine L) (t : Table) (view : RowView) : Prop :=
 ∃ l, e.vocabulary.labels[view.cells.getD 0 0]? = some l ∧ t.toLayout = (Shape.of l).layout ∧
  ∀ c value, Label.arity l = 0 → leafConstant l = some (c, value) → Label.constantOf l 0 = none ∨ e.zero c.key ≠ none

structure Kept (e : Engine L) : Prop where
 vocabulary : e.vocabulary.Formed
 db : e.db.Kept
 tables : TablesOf e.vocabulary.shapes e.db.tables
 nodes : e.nodes.length = e.classCount
 rows : ∀ (slot : Nat) t, e.db.tables[slot]? = some t → ∀ row, row < t.len → e.RowKept t (t.view row)
 zeros : ∀ zero ∈ e.zeros, zero.2 < e.classCount

/-- Under an interpretation every class stands where the partition places it, and every row is an
equation. -/
structure Holds (e : Engine L) (I : Interpretation L D) (env : Nat → Value D) : Prop where
 placed : Placed e.db.space.uf env
 zeros : Zeros L env e.classCount e.zeros
 rows : ∀ (slot : Nat) t, e.db.tables[slot]? = some t → ∀ row, row < t.len → ∀ l,
  e.vocabulary.labels[(t.view row).cells.getD 0 0]? = some l → RowHolds I env l (t.view row)

/-- Labels are met at the end, and zeros and classes are minted at the end. -/
structure Extends (e e' : Engine L) : Prop where
 vocabulary : e.vocabulary.Grows e'.vocabulary
 zeros : ∀ key, e.zero key ≠ none → e'.zero key ≠ none
 nodes : e.nodes <+: e'.nodes

theorem Extends.refl (e : Engine L) : Extends e e :=
 ⟨Vocabulary.Grows.refl _, fun _ => id, prefix_refl _⟩

theorem Extends.trans {e'' : Engine L} (h : Extends e e') (h' : Extends e' e'') : Extends e e'' :=
 ⟨h.vocabulary.trans h'.vocabulary, fun key hzero => h'.zeros key (h.zeros key hzero), h.nodes.trans h'.nodes⟩

theorem RowKept.extends {t : Table} {view : RowView} (hrow : e.RowKept t view) (h : Extends e e') : e'.RowKept t view := by
 obtain ⟨l, hlabel, hlayout, hconst⟩ := hrow
 refine ⟨l, h.vocabulary.labelled hlabel, hlayout, fun c value harity hval => ?_⟩
 exact (hconst c value harity hval).imp_right fun hzero => h.zeros c.key hzero

/-! ## Interning -/

theorem Kept.intern (h : e.Kept) (l : L) : (e.intern l).1.Kept ∧ Extends e (e.intern l).1 ∧
  (e.intern l).1.vocabulary.labels[(e.intern l).2]? = some l := by
 obtain ⟨hformed, hgrows, hlabel⟩ := Vocabulary.intern_spec h.vocabulary l
 have hexts : Extends e (e.intern l).1 := ⟨hgrows, fun _ => id, prefix_refl _⟩
 refine ⟨⟨hformed, h.db, fun slot t ht => ?_, h.nodes, fun slot t ht row hrow => ?_, h.zeros⟩, hexts, hlabel⟩
 · obtain ⟨shape, hshape, hlayout⟩ := h.tables slot t ht
   exact ⟨shape, Vocabulary.getElem?_of_prefix hgrows.shapes hshape, hlayout⟩
 · exact (h.rows slot t ht row hrow).extends hexts

theorem Holds.intern (hholds : e.Holds I env) (h : e.Kept) (l : L) : (e.intern l).1.Holds I env where
 placed := hholds.placed
 zeros := hholds.zeros
 rows := by
  intro slot t ht row hrow l' hlabel
  obtain ⟨known, hknown, -⟩ := h.rows slot t ht row hrow
  obtain ⟨-, hexts, -⟩ := h.intern l
  cases hlabel.symm.trans (hexts.vocabulary.labelled hknown)
  exact hholds.rows slot t ht row hrow l' hknown

end Engine

end Tir.Egraph
