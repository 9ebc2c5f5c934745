import Tir.Egraph.EngineKept

/-!
# Minting classes and interning nodes

A class is minted with its row (`Engine.makeClass_spec`), the carrier's zero the first time a constant of
it is met (`Engine.intConstantRef_spec`). Each ends, and under an interpretation the reference has the
value of the node.
-/

open List Option Nat

namespace Tir.Egraph

open Tir.Relational

variable {L : Type} [Label L]

namespace Engine

variable {e e' : Engine L} {D : Type} {I : Interpretation L D} {env : Nat → Value D} {l : L} {label : Nat}

/-! ## Minting -/

theorem lawsAt_eq (hlabel : e.vocabulary.labels[label]? = some l) : e.vocabulary.lawsAt label = Laws.of l := by
 rw [Vocabulary.lawsAt, hlabel]
 rfl

theorem isLowMask_laws (l : L) : IsLowMask (Laws.of l).mask := by
 rw [Laws.mask_of]
 cases Label.carrier l with
 | none => exact isLowMask_zero
 | some carrier => exact isLowMask_lowMask carrier.width

/-- What minting a class leaves: a class of its own, and no row yet. -/
theorem mintClass_spec (h : e.Kept) (hlabel : e.vocabulary.labels[label]? = some l) (pinned : Bool) :
  ∃ vocabulary, vocabulary.Formed ∧ e.vocabulary.Grows vocabulary ∧ e.mintClass l label pinned =
   ({ vocabulary := vocabulary
      db := (e.db.mint (Laws.of l).mask pinned).1
      nodes := e.nodes
      lists := e.lists ++ [[]]
      zeros := if pinned then e.zeros ++ ((Label.carrier l).map fun carrier => (carrier.key, e.classCount)).toList
       else e.zeros }, e.classCount) := by
 rw [mintClass, lawsAt_eq hlabel, ← Laws.carrier_of]
 split
 · exact ⟨e.vocabulary, h.vocabulary, Vocabulary.Grows.refl _, rfl⟩
 · rename_i constant _
   obtain ⟨hformed, hgrows, -⟩ := Vocabulary.intern_spec h.vocabulary constant
   exact ⟨_, hformed, hgrows, rfl⟩

/-- A zero minted is found from then on. -/
theorem zero_append {zeros : List (Nat × Nat)} {key : Nat} (h : ((zeros.find? fun known => known.1 = key).map Prod.snd) ≠ none)
  (more : List (Nat × Nat)) : (((zeros ++ more).find? fun known => known.1 = key).map Prod.snd) ≠ none := by
 grind

/-- A label's row over canonical operands, in a table that has none. -/
structure Fresh (e : Engine L) (l : L) (label : Nat) (key : Key) (refs : List Ref) : Prop where
 known : e.vocabulary.labels[label]? = some l
 shows : key.Shows label refs
 length : refs.length = Label.arity l
 canonical : Canonical e.db.space.uf refs
 absent : Label.unique l = false → ∀ t, e.db.tables[e.vocabulary.slotOf label]? = some t → ∀ row, row < t.len →
  ¬ t.rows.Holds t.arity key.cells key.shown row

/-! ## Storing a row -/

/-- A row of a label stored in a database whose tables are those of some shapes. -/
structure Stored (shapes : List Shape) (l : L) (view : RowView) (db db' : Database) : Prop where
 kept : db'.Kept
 uf : db'.space.uf = db.space.uf
 tables : TablesOf shapes db'.tables
 rows : ∀ (slot : Nat) t', db'.tables[slot]? = some t' → ∀ row, row < t'.len →
  (∃ t, db.tables[slot]? = some t ∧ t.toLayout = t'.toLayout ∧ row < t.len ∧ t'.view row = t.view row) ∨
   t'.toLayout = (Shape.of l).layout ∧ t'.view row = view

/-- A row of a key that the table of its label has none of is stored. -/
theorem store_stored {vocabulary : Vocabulary L} {db : Database} (h : db.Kept) (hformed : vocabulary.Formed)
  (htables : TablesOf vocabulary.shapes db.tables) (hlabel : vocabulary.labels[label]? = some l) {key : Key}
  {refs : List Ref} (hshows : key.Shows label refs) (hlength : refs.length = Label.arity l)
  (hcanonical : Canonical db.space.uf refs)
  (habsent : Label.unique l = false → ∀ t, db.tables[vocabulary.slotOf label]? = some t → ∀ row, row < t.len →
   ¬ t.rows.Holds t.arity key.cells key.shown row)
  (classId tag : Nat) (hclass : classId < db.space.uf.len ∧ db.space.uf.parentOf classId = classId) :
  ∃ db', (vocabulary.addTables (vocabulary.slotOf label) db).insert (vocabulary.slotOf label) key.cells key.shown
    (classId, 0) tag = some db' ∧
   Stored vocabulary.shapes l ⟨key.cells, key.weights, (classId, 0), tag⟩ db db' := by
 have hshape := Vocabulary.shapes_slotOf hformed hlabel
 obtain ⟨hkept, hspace, -, htables', hold, t, ht⟩ := Vocabulary.addTables_spec h htables
  (List.getElem?_eq_some_iff.1 hshape).1
 generalize vocabulary.addTables (vocabulary.slotOf label) db = db1 at hkept hspace htables' hold ht ⊢
 generalize vocabulary.slotOf label = slot at *
 have hlt := (List.getElem?_eq_some_iff.1 ht).1
 have hlayout : t.toLayout = (Shape.of l).layout := by
  obtain ⟨shape, hknown, hlayout⟩ := htables' _ t ht
  grind
 have harity : t.arity = 1 + Label.arity l := congrArg Layout.arity hlayout
 have hcells : key.cells.length = t.arity := by
  rw [hshows.cells, length_cons, length_map, hlength, harity, add_comm]
 have hkey : Rows.IsKey t.arity key.cells key.shown := by
  refine ⟨hcells, ?_⟩
  rw [Key.shown]
  split
  · refine .inr ?_
    rw [hshows.weights, length_cons, length_map, hlength, harity, add_comm]
  · exact .inl rfl
 have hkeyed : t.keyed = true → Label.unique l = false := by
  intro hkeyed
  have hkeyed' : (!Label.unique l) = true := (congrArg Layout.keyed hlayout).symm.trans hkeyed
  rwa [Bool.not_eq_true'] at hkeyed'
 -- the table of the label is the one there was, or empty
 have hnew : ∀ (slot' : Nat) t1, db1.tables[slot']? = some t1 → ∀ row, row < t1.len → db.tables[slot']? = some t1 := by
  intro slot' t1 hin row hrow
  rcases hold slot' t1 hin with hbef | ⟨hempty, -⟩
  · exact hbef
  grind
 obtain ⟨t', hinsert, hready, hstores⟩ := Database.insert_stores hkept ht hkey
  (fun hyes row hrow => habsent (hkeyed hyes) t (hnew slot t ht row hrow) row hrow) (classId, 0) tag
 have hids : ∀ id ∈ key.cells.drop t.plain ++ [classId], id < db1.space.uf.len ∧ db1.space.uf.parentOf id = id := by
  have hplain : t.plain = 1 := congrArg Layout.plain hlayout
  intro id hin
  rw [hspace]
  rw [hplain, hshows.cells, drop_succ_cons, drop_zero] at hin
  rcases mem_append.1 hin with hin | hin
  · obtain ⟨ref, href, rfl⟩ := List.mem_map.1 hin
    exact hcanonical ref href
  grind
 have hinserted := hkept.insert ht hcells (fun id hin => (hids id hin).1) (fun id hin => (hids id hin).2) hready hstores
 have hwidens := Space.widens_hold slot (key.cells.drop t.plain ++ [classId]) db1.space
 refine ⟨_, hinsert, hinserted, hwidens.uf.trans (congrArg Space.uf hspace), fun slot' t'' hin => ?_,
  fun slot' t'' hin row hrow => ?_⟩
 · have hin' : (db1.tables.set slot t')[slot']? = some t'' := hin
   rw [getElem?_set] at hin'
   split at hin'
   · rename_i heq
     subst heq
     cases hin'
     exact ⟨_, hshape, hstores.layout.trans hlayout⟩
   · exact htables' slot' t'' hin'
 · have hin' : (db1.tables.set slot t')[slot']? = some t'' := hin
   rw [getElem?_set] at hin'
   split at hin'
   · rename_i heq
     subst heq
     cases hin'
     rcases lt_or_ge row t.len with hbef | hge
     · exact .inl ⟨t, hnew slot t ht row hbef, hstores.layout.symm, hbef, hstores.old row hbef⟩
     · obtain rfl : row = t.len := by
        rw [hstores.len] at hrow
        omega
       refine .inr ⟨hstores.layout.trans hlayout, ?_⟩
       rw [hstores.new, harity, hshows.padded hlength]
   · exact .inl ⟨t'', hnew slot' t'' hin' row hrow, rfl, hrow, rfl⟩

/-! ## Making a class -/

/-- What minting a class and storing its row leaves. -/
structure Makes (e : Engine L) (l : L) (refs : List Ref) (pinned : Bool) (e' : Engine L) : Prop where
 kept : e'.Kept
 vocabulary : e.vocabulary.Grows e'.vocabulary
 uf : e'.db.space.uf = e.db.space.uf.push (Laws.of l).mask pinned
 zeros : e'.zeros = if pinned then e.zeros ++ ((Label.carrier l).map fun carrier => (carrier.key, e.classCount)).toList
  else e.zeros
 holds : ∀ {D : Type} (I : Interpretation L D) (env : Nat → Value D), e.Holds I env →
  (env e.classCount).carrier = Label.carrier l →
  (pinned = true → ∃ carrier, env e.classCount = Value.int carrier 0) →
  (Label.unique l = false → I.Takes l (refs.map (Ref.value env)) ∧
   I.apply l (refs.map (Ref.value env)) = env e.classCount) → e'.Holds I env

theorem makeClass_spec (h : e.Kept) {key : Key} {refs : List Ref} (hfresh : e.Fresh l label key refs) (node : Node L)
  (hnode : node.label = l) (pinned : Bool)
  (hconst : ∀ c value, Label.arity l = 0 → leafConstant l = some (c, value) →
   Label.constantOf l 0 = none ∨ e.zero c.key ≠ none ∨ pinned = true) :
  ∃ e', e.makeClass node label key.cells key.shown pinned = some (e', e.classCount) ∧ Makes e l refs pinned e' ∧
   e'.nodes = e.nodes ++ [{ node with
    labelId := label, classId := e.classCount
    offsets := if (key.shown.drop 1).any (· ≠ 0) then some (key.shown.drop 1) else none }] := by
 subst hnode
 obtain ⟨vocabulary, hformed, hgrows, hmint⟩ := mintClass_spec h hfresh.known pinned
 have hmask : IsLowMask (Laws.of node.label).mask := isLowMask_laws _
 have hminted : (e.db.mint (Laws.of node.label).mask pinned).1.Kept := h.db.mint hmask pinned
 have hlabel := hgrows.labelled hfresh.known
 have huf : (e.db.mint (Laws.of node.label).mask pinned).1.space.uf =
  e.db.space.uf.push (Laws.of node.label).mask pinned := rfl
 have hlen : (e.db.mint (Laws.of node.label).mask pinned).1.space.uf.len = e.classCount + 1 :=
  UnionFind.len_push _ _
 obtain ⟨db', hinsert, hstored⟩ := store_stored hminted hformed
  (fun slot t ht => by
   obtain ⟨shape, hknown, hlayout⟩ := h.tables slot t ht
   exact ⟨shape, Vocabulary.getElem?_of_prefix hgrows.shapes hknown, hlayout⟩)
  hlabel hfresh.shows hfresh.length
  (fun ref hin => by
   obtain ⟨hlt, hroot⟩ := hfresh.canonical ref hin
   rw [hlen, huf, UnionFind.parentOf_push]
   exact ⟨lt_succ_of_lt hlt, hroot⟩)
  (fun hunique t ht => by
   rw [hgrows.slotOf h.vocabulary hfresh.known] at ht
   exact hfresh.absent hunique t ht) e.classCount e.nodes.length
  (by
   rw [hlen, huf, UnionFind.parentOf_push]
   exact ⟨lt_succ_self _, UnionFind.parentOf_of_le _ le_rfl⟩)
 have hlen' : db'.space.uf.len = e.classCount + 1 := by rw [hstored.uf, hlen]
 generalize hzeros : (if pinned then e.zeros ++ ((Label.carrier node.label).map fun carrier =>
  (carrier.key, e.classCount)).toList else e.zeros) = zeros at hmint
 have hzero : ∀ wanted, e.zero wanted ≠ none → ((zeros.find? fun known => known.1 = wanted).map Prod.snd) ≠ none := by
  intro wanted hknown
  rw [← hzeros]
  split
  · exact zero_append hknown _
  · exact hknown
 have hcell : (⟨key.cells, key.weights, (e.classCount, 0), e.nodes.length⟩ : RowView).cells.getD 0 0 = label := by
  rw [hfresh.shows.cells]
  rfl
 refine ⟨{ vocabulary := vocabulary, db := db', zeros := zeros, nodes := _
           lists := (e.lists ++ [[]]).set e.classCount ((e.lists ++ [[]]).getD e.classCount [] ++ [e.nodes.length]) }, ?_,
  ⟨⟨hformed, hstored.kept, hstored.tables, ?_, ?_, ?_⟩, hgrows, hstored.uf.trans huf, hzeros.symm, ?_⟩, rfl⟩
 · rw [makeClass, hmint]
   rw [store]
   simp only
   rw [hinsert]
   rfl
 · show (e.nodes ++ [_]).length = db'.space.uf.len
   rw [hlen', length_append, h.nodes]
   rfl
 · intro slot t' hin row hrow
   rcases hstored.rows slot t' hin row hrow with ⟨t, ht, hsame, hrow', heq⟩ | ⟨hlayout, heq⟩
   · obtain ⟨l', hlabel', hlayout', hconst'⟩ := h.rows slot t ht row hrow'
     rw [heq]
     refine ⟨l', hgrows.labelled hlabel', hsame.symm.trans hlayout', fun c value harity' hval => ?_⟩
     exact (hconst' c value harity' hval).imp_right fun hknown => hzero _ hknown
   · rw [heq]
     refine ⟨node.label, by rw [hcell]; exact hlabel, hlayout, fun c value harity' hval => ?_⟩
     rcases hconst c value harity' hval with hnone | hknown | hpinned
     · exact .inl hnone
     · exact .inr (hzero _ hknown)
     · refine .inr ?_
       rw [leafConstant, bind_eq_some_iff] at hval
       obtain ⟨carrier, hcarr, hval⟩ := hval
       obtain ⟨word, -, hpair⟩ := map_eq_some_iff.1 hval
       obtain ⟨rfl, -⟩ := Prod.mk.inj hpair
       rw [hpinned, hcarr] at hzeros
       show (zeros.find? _).map Prod.snd ≠ none
       grind
 · intro zero hin
   show zero.2 < db'.space.uf.len
   rw [hlen']
   have hin' : zero ∈ zeros := hin
   rw [← hzeros] at hin'
   split at hin'
   · rcases mem_append.1 hin' with hold | hnew
     · exact lt_succ_of_lt (h.zeros zero hold)
     · obtain ⟨carrier, -, rfl⟩ := map_eq_some_iff.1 (mem_toList.1 hnew)
       exact lt_succ_self _
   · exact lt_succ_of_lt (h.zeros zero hin')
 · intro D I env hholds hcarr hpinned hval
   have hmasked : (Laws.of node.label).mask = Offsets.mask (env e.classCount) := by
    rw [Laws.mask_of, Value.mask_eq, hcarr]
   have hformed' := hholds.placed.formed
   refine ⟨⟨?_, ?_, fun id hlt hpin => ?_⟩, ?_, fun slot t' hin row hrow l' hlabel' => ?_⟩
   · show db'.space.uf.Formed
     rw [hstored.uf, huf]
     exact hformed'.push _ _ hmask
   · show db'.space.uf.Holds env
     rw [hstored.uf, huf]
     exact hholds.placed.holds.push hformed' pinned hmask hmasked
   · have hpin' : db'.space.uf.isPinned id = true := hpin
     have hlt' : id < db'.space.uf.len := hlt
     rw [hstored.uf, huf, UnionFind.isPinned_push _ _ hformed'] at hpin'
     rw [hlen'] at hlt'
     split at hpin'
     · rename_i heq
       rw [heq]
       exact hpinned hpin'
     · rename_i hne
       refine hholds.placed.pinned id ?_ hpin'
       exact lt_of_le_of_ne (le_of_lt_succ hlt') hne
   · intro zero hin
     show zero.2 < db'.space.uf.len ∧ _
     rw [hlen']
     have hin' : zero ∈ zeros := hin
     rw [← hzeros] at hin'
     have hold : zero ∈ e.zeros → zero.2 < e.classCount + 1 ∧
       ∃ (l : L) (c : Carrier), Label.carrier l = some c ∧ c.key = zero.1 ∧ env zero.2 = Value.int c 0 := fun hin =>
      ⟨lt_succ_of_lt (hholds.zeros zero hin).1, (hholds.zeros zero hin).2⟩
     split at hin'
     · rename_i hpin
       rcases mem_append.1 hin' with hin'' | hnew
       · exact hold hin''
       grind [Value.carrier_int]
     · exact hold hin'
   · rcases hstored.rows slot t' hin row hrow with ⟨t, ht, -, hrow', heq⟩ | ⟨hlayout, heq⟩
     · obtain ⟨known, hknown, -⟩ := h.rows slot t ht row hrow'
       rw [heq] at hlabel' ⊢
       cases hlabel'.symm.trans (hgrows.labelled hknown)
       exact hholds.rows slot t ht row hrow' l' hknown
     · rw [heq] at hlabel' ⊢
       rw [hcell] at hlabel'
       cases hlabel'.symm.trans hlabel
       intro hunique
       rw [viewOperands, hfresh.shows.operands, viewValue, Ref.value, Offsets.shift_zero]
       exact hval hunique

end Engine

end Tir.Egraph
