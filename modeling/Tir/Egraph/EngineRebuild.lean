import Tir.Egraph.EngineIntern

/-!
# Unions and rebuilding

A union of two references of one value keeps the equations of an engine (`Engine.union_unites`). A rebuild
ends, since every pass but the last two lowers the number of classes, and keeps the equations too: the
rows it renames say what they said, and the merges it makes are of equal values
(`Engine.rebuild_rebuilds`).
-/

open List Option Nat

namespace Tir.Egraph

open Tir.Relational Database UnionFind RowView

variable {L : Type} [Label L]

namespace Engine

variable {e e' e'' : Engine L} {D : Type} {I : Interpretation L D} {env : Nat → Value D}

/-! ## Unions -/

/-- What a call that merges classes leaves: the terms stay, and where something is to be pushed into the
tables that was not before, there are fewer classes. -/
structure Unites (e e' : Engine L) : Prop where
 kept : e'.Kept
 nodes : e'.nodes = e.nodes
 vocabulary : e'.vocabulary = e.vocabulary
 zeros : e'.zeros = e.zeros
 classes : e'.classCount = e.classCount
 roots : e'.db.space.uf.roots.card ≤ e.db.space.uf.roots.card
 dirty : e'.db.space.dirty = true → e.db.space.dirty = true ∨ e'.db.space.uf.roots.card < e.db.space.uf.roots.card

theorem Unites.refl (h : e.Kept) : Unites e e :=
 ⟨h, rfl, rfl, rfl, rfl, le_rfl, .inl⟩

theorem Unites.trans (h : Unites e e') (h' : Unites e' e'') : Unites e e'' where
 kept := h'.kept
 nodes := h'.nodes.trans h.nodes
 vocabulary := h'.vocabulary.trans h.vocabulary
 zeros := h'.zeros.trans h.zeros
 classes := h'.classes.trans h.classes
 roots := h'.roots.trans h.roots
 dirty hdirty := by
  rcases h'.dirty hdirty with hbef | hless
  · exact (h.dirty hbef).imp_right fun hless => lt_of_le_of_lt h'.roots hless
  · exact .inr (hless.trans_le h.roots)

theorem Unites.grows (h : Unites e e') : Extends e e' where
 vocabulary := by
  rw [h.vocabulary]
  exact Vocabulary.Grows.refl _
 zeros key hzero := by
  rw [zero, h.zeros]
  exact hzero
 nodes := by rw [h.nodes]

/-- An engine whose database was changed and whose tables were not. -/
theorem Kept.of_db (h : e.Kept) {db : Database} (hdb : db.Kept) (htables : db.tables = e.db.tables)
  (hlen : db.space.uf.len = e.classCount) (lists : List (List Nat)) : Kept { e with db := db, lists := lists } where
 vocabulary := h.vocabulary
 db := hdb
 tables := by
  show TablesOf e.vocabulary.shapes db.tables
  rw [htables]
  exact h.tables
 nodes := h.nodes.trans hlen.symm
 rows := by
  show ∀ (slot : Nat) t, db.tables[slot]? = some t → _
  rw [htables]
  exact h.rows
 zeros := by
  show ∀ zero ∈ e.zeros, zero.2 < db.space.uf.len
  rw [hlen]
  exact h.zeros

theorem Holds.of_db (h : e.Holds I env) {db : Database} (huf : Placed db.space.uf env) (htables : db.tables = e.db.tables)
  (hlen : db.space.uf.len = e.classCount) (lists : List (List Nat)) :
  Holds { e with db := db, lists := lists } I env where
 placed := huf
 zeros := by
  show Zeros L env db.space.uf.len e.zeros
  rw [hlen]
  exact h.zeros
 rows := by
  show ∀ (slot : Nat) t, db.tables[slot]? = some t → _
  rw [htables]
  exact h.rows

section

variable {a b : Ref} (h : e.Kept) (ha : a.id < e.classCount) (hb : b.id < e.classCount)

include h ha hb

/-- What equating two references does to the database of an engine. -/
theorem equate_spec : (e.db.equate a b).1.tables = e.db.tables ∧ (e.db.equate a b).1.space.uf.len = e.classCount ∧
   (e.db.equate a b).1.space.uf.roots.card ≤ e.db.space.uf.roots.card ∧
   ((e.db.equate a b).1.space.dirty = true → e.db.space.dirty = true ∨
     (e.db.equate a b).1.space.uf.roots.card < e.db.space.uf.roots.card) ∧
   ∀ {D : Type} (I : Interpretation L D) (env : Nat → Value D), e.Holds I env → a.value env = b.value env →
    Placed (e.db.equate a b).1.space.uf env := by
 have hequates := equate_equates h.db ha hb
 generalize e.db.equate a b = result at hequates
 cases hequates with
 | same heq => exact ⟨rfl, rfl, le_rfl, .inl, fun I env hholds _ => hholds.placed⟩
 | clash ids hne hclash =>
  obtain ⟨hpar, hpinned⟩ := parentOf_markConflicts e.db.space.uf ids
  have hlen : (ids.foldl markConflict e.db.space.uf).len = e.db.space.uf.len := congrArg List.length hpar
  have hroots : (ids.foldl markConflict e.db.space.uf).roots = e.db.space.uf.roots := by
   rw [roots, roots, hlen]
   refine Finset.filter_congr fun id _ => ?_
   rw [parentOf, hpar]
   rfl
  refine ⟨rfl, hlen, le_of_eq (congrArg Finset.card hroots), .inl, fun I env hholds _ =>
   ⟨formed_markConflicts h.db.space.uf ids, hholds.placed.holds.markConflict ids, fun id hlt hpin => ?_⟩⟩
  refine hholds.placed.pinned id (hlen ▸ hlt) ?_
  rw [isPinned, ← hpinned]
  exact hpin
 | merged survivor absorbed space hlink hwhich hmerges =>
  have huf : space.uf = e.db.space.uf.link survivor absorbed := hmerges.uf
  have hless : space.uf.roots.card < e.db.space.uf.roots.card := by
   rw [huf]
   exact card_roots_link hlink
  have hlen : space.uf.len = e.classCount := by
   rw [huf, len_link]
   rfl
  refine ⟨rfl, hlen, le_of_lt hless, fun _ => .inr hless, fun I env hholds heq => ?_⟩
  have hformed := h.db.space.uf
  have hfound : (e.db.find a).value env = (e.db.find b).value env := by
   have ha' := hholds.placed.holds.value_find hformed ha
   have hb' := hholds.placed.holds.value_find hformed hb
   rw [Database.find, Database.find, ha', hb', heq]
  have hboth : survivor.value env = absorbed.value env := by
   rcases hwhich with ⟨rfl, rfl⟩ | ⟨rfl, rfl⟩
   · exact hfound
   · exact hfound.symm
  show Placed space.uf env
  rw [huf]
  refine ⟨hformed.link hlink, hholds.placed.holds.link hformed hlink hboth, fun id hlt hpin => ?_⟩
  rw [len_link] at hlt
  rw [isPinned_link] at hpin
  exact hholds.placed.pinned id hlt hpin

/-- A union of two references of one value keeps every equation. -/
theorem union_unites :
  Unites e (e.union a b).1 ∧ ∀ {D : Type} (I : Interpretation L D) (env : Nat → Value D), e.Holds I env →
   a.value env = b.value env → (e.union a b).1.Holds I env := by
 obtain ⟨htables, hlen, hroots, hdirty, hplaced⟩ := equate_spec h ha hb
 have hdb := h.db.equate ha hb
 have hres : ∃ lists, (e.union a b).1 = { e with db := (e.db.equate a b).1, lists := lists } := by
  rw [union]
  generalize e.db.equate a b = result
  cases result with
  | mk db merge =>
   cases merge with
   | same => exact ⟨e.lists, rfl⟩
   | contradiction => exact ⟨e.lists, rfl⟩
   | merged survivor absorbed => exact ⟨_, rfl⟩
 obtain ⟨lists, hres⟩ := hres
 rw [hres]
 exact ⟨⟨h.of_db hdb htables hlen lists, rfl, rfl, rfl, hlen, hroots, hdirty⟩, fun I env hholds heq =>
  hholds.of_db (hplaced I env hholds heq) htables hlen lists⟩

end

/-- Unions one after the other. -/
theorem unions_unites (h : e.Kept) (pairs : List (Ref × Ref))
  (hlt : ∀ pair ∈ pairs, pair.1.id < e.classCount ∧ pair.2.id < e.classCount) :
  Unites e (pairs.foldl (fun e pair => (union e pair.1 pair.2).1) e) ∧
   ∀ {D : Type} (I : Interpretation L D) (env : Nat → Value D), e.Holds I env →
    (∀ pair ∈ pairs, pair.1.value env = pair.2.value env) →
    (pairs.foldl (fun e pair => (union e pair.1 pair.2).1) e).Holds I env := by
 induction pairs generalizing e with
 | nil => exact ⟨Unites.refl h, fun I env hholds _ => hholds⟩
 | cons pair pairs ih =>
  obtain ⟨ha, hb⟩ := hlt pair (.head _)
  obtain ⟨hunites, hholds⟩ := union_unites h ha hb
  obtain ⟨hunites', hholds'⟩ := ih hunites.kept fun pair' hin => by
   rw [hunites.classes]
   exact hlt pair' (.tail _ hin)
  refine ⟨hunites.trans hunites', fun I env hbef hequal => ?_⟩
  grind

/-! ## One pass -/

variable {view : RowView}

theorem mem_viewOperands {l : L} (hsized : view.Sized (Shape.of l).layout) {ref : Ref}
  (h : ref ∈ viewOperands view) : view.Names (Shape.of l).layout ref.id := by
 obtain ⟨operand, hget⟩ := getElem?_of_mem h
 have hlt : operand < (viewOperands view).length := (List.getElem?_eq_some_iff.1 hget).1
 rw [viewOperands, rowOperands, length_zipWith, length_drop, length_drop, hsized.cells, hsized.weights,
  layout_arity] at hlt
 have hcells : operand + 1 < view.cells.length := by
  rw [hsized.cells, layout_arity]
  omega
 have hwts : operand + 1 < view.weights.length := by
  rw [hsized.weights, layout_arity]
  omega
 rw [viewOperands, getElem_rowOperands hcells hwts] at hget
 rw [← some.inj hget]
 exact names_cell (succ_le_succ (zero_le _)) (by rw [← hsized.cells]; exact hcells)

theorem length_viewOperands {l : L} (hsized : view.Sized (Shape.of l).layout) :
  (viewOperands view).length = Label.arity l := by
 rw [viewOperands, rowOperands, length_zipWith, length_drop, length_drop, hsized.cells, hsized.weights,
  layout_arity]
 omega

/-- The flattened partition of an engine places every class as before. -/
theorem Holds.flatten (h : e.Holds I env) : Placed e.db.space.uf.flatten env where
 formed := h.placed.formed.flatten
 holds := h.placed.holds.flatten h.placed.formed
 pinned := by
  intro id hlt hpin
  rw [len_flatten h.placed.formed] at hlt
  rw [isPinned_flatten h.placed.formed] at hpin
  exact h.placed.pinned id hlt hpin

/-- A row of an engine, renamed by the flattened partition: it is a row of its label over representatives,
and says what it said. -/
structure RenamedRow (e : Engine L) (l : L) (view renamed : RowView) : Prop where
 sized : renamed.Sized (Shape.of l).layout
 label : e.vocabulary.labels[renamed.cells.getD 0 0]? = some l ∧ renamed.cells.getD 0 0 = view.cells.getD 0 0
 names : ∀ id, renamed.Names (Shape.of l).layout id →
  id < e.classCount ∧ e.db.space.uf.flatten.parentOf id = id
 holds : ∀ {D : Type} (I : Interpretation L D) (env : Nat → Value D), e.Holds I env → RowHolds I env l renamed

theorem renamed_row (h : e.Kept) {slot : Nat} {t : Table} (ht : e.db.tables[slot]? = some t) {row : Nat} (hrow : row < t.len) :
  ∃ l, t.toLayout = (Shape.of l).layout ∧
   RenamedRow e l (t.view row) (t.renamed e.db.space.uf.flatten.rename row) := by
 obtain ⟨l, hlabel, hlayout, -⟩ := h.rows slot t ht row hrow
 have hformed := h.db.space.uf
 have hsized : (t.view row).Sized (Shape.of l).layout := by
  rw [← hlayout]
  exact Rows.view_sized row
 have hlt : ∀ id, (t.view row).Names (Shape.of l).layout id → id < e.classCount := by
  intro id hnames
  rw [← hlayout] at hnames
  exact (h.db.tracks slot t ht row hrow id hnames).lt
 have htgt : ∀ id, e.db.space.uf.flatten.rename.target id = e.db.space.uf.root id :=
  parentOf_flatten hformed
 rw [show t.renamed e.db.space.uf.flatten.rename row = (t.view row).renamed t.toLayout e.db.space.uf.flatten.rename from
  rfl, hlayout]
 have hcell : ((t.view row).renamed (Shape.of l).layout e.db.space.uf.flatten.rename).cells.getD 0 0 =
  (t.view row).cells.getD 0 0 := label_renamed hsized
 refine ⟨l, rfl, renamed_sized hsized, ⟨by rw [hcell]; exact hlabel, hcell⟩, fun id hnames => ?_,
  fun I env hholds => ?_⟩
 · obtain ⟨old, hold, rfl⟩ := names_renamed hsized (layout_pairs _) hnames
   rw [htgt]
   refine ⟨root_lt hformed (hlt old hold), ?_⟩
   rw [parentOf_flatten hformed, root_root hformed]
 · have hflat := flat_flatten hformed
   have hlen := len_flatten hformed
   apply RowHolds.renamed (hholds.rows slot t ht row hrow l hlabel) hsized
   · intro id hnames
     exact renames_of_flat hholds.flatten hflat (by rw [hlen]; exact hlt id hnames)
   · intro id hnames
     rw [htgt]
     exact renames_of_flat hholds.flatten hflat (by rw [hlen]; exact root_lt hformed (hlt id hnames))

/-- What the rows that left their tables settle to is what they were. -/
def SettledRight (e : Engine L) (settled : List Settled) : Prop :=
 ∀ entry ∈ settled, (entry.value.id < e.classCount ∧ entry.settles.id < e.classCount) ∧
  ∀ {D : Type} (I : Interpretation L D) (env : Nat → Value D), e.Holds I env →
   entry.value.value env = entry.settles.value env

theorem dissolve_right (h : e.Kept) {l : L} {renamed : RowView} (hrow : RenamedRow e l view renamed)
  {settled : List Settled} (hsettled : SettledRight e settled) :
  SettledRight e (dissolve e.vocabulary e.zeros e.db.space.uf.flatten settled renamed).2 := by
 have hlaws : e.vocabulary.lawsAt (renamed.cells.getD 0 0) = Laws.of l := lawsAt_eq hrow.label.1
 rw [dissolve, hlaws]
 cases hfold : fold e.db.space.uf.flatten e.zeros (Laws.of l)
  ((renamed.cells.drop 1).zipWith Ref.mk (renamed.weights.drop 1)) with
 | none => exact hsettled
 | some settles =>
  intro entry hin
  rcases mem_append.1 hin with hold | hnew
  · exact hsettled entry hold
  · obtain rfl := mem_singleton.1 hnew
    have hops : (viewOperands renamed).length = Label.arity l := length_viewOperands hrow.sized
    have hnames : ∀ ref ∈ viewOperands renamed, ref.id < e.classCount ∧
      e.db.space.uf.flatten.parentOf ref.id = ref.id := fun ref href =>
     hrow.names ref.id (mem_viewOperands hrow.sized href)
    refine ⟨⟨(hrow.names _ names_value).1, ?_⟩, fun I env hholds => ?_⟩
    · rcases fold_id hops hfold with ⟨ref, href, hid⟩ | ⟨zero, hzero, hid⟩
      · grind
      · rw [hid]
        exact h.zeros zero hzero
    · cases hunique : Label.unique l with
      | true =>
       grind [fold_unique]
      | false =>
       obtain ⟨htakes, heq⟩ := hrow.holds I env hholds hunique
       have hlen := len_flatten h.db.space.uf
       have hcanonical : Canonical e.db.space.uf.flatten (viewOperands renamed) := by
        intro ref href
        rw [hlen]
        exact hnames ref href
       have hzeros : Zeros L env e.db.space.uf.flatten.len e.zeros := by
        rw [hlen]
        exact hholds.zeros
       obtain ⟨-, hval⟩ := fold_value hholds.flatten hcanonical htakes hzeros hfold
       exact heq.symm.trans hval.symm

/-- The merges of a pass are unions one after the other. -/
theorem mergeAll_eq (collisions : List Collision) (settled : List Settled) :
  ∃ pairs : List (Ref × Ref), e.mergeAll collisions settled = pairs.foldl (fun e pair => (union e pair.1 pair.2).1) e ∧
   ∀ pair ∈ pairs, (∃ collision ∈ collisions, pair = (⟨collision.kept.1, collision.kept.2⟩,
     ⟨collision.removed.1, collision.removed.2⟩)) ∨
    ∃ entry ∈ settled, pair = (entry.value, entry.settles) := by
 rw [mergeAll]
 generalize hcollisions : collisions.mergeSort _ = collisions'
 generalize hsettled : settled.mergeSort _ = settled'
 refine ⟨(collisions'.map fun collision => (⟨collision.kept.1, collision.kept.2⟩,
  ⟨collision.removed.1, collision.removed.2⟩)) ++ settled'.map fun entry => (entry.value, entry.settles), ?_, ?_⟩
 · rw [foldl_append, foldl_map, foldl_map]
 · intro pair hin
   rcases mem_append.1 hin with hin | hin
   · obtain ⟨collision, hcollision, rfl⟩ := List.mem_map.1 hin
     rw [← hcollisions, mem_mergeSort] at hcollision
     exact .inl ⟨collision, hcollision, rfl⟩
   · obtain ⟨entry, hent, rfl⟩ := List.mem_map.1 hin
     rw [← hsettled, mem_mergeSort] at hent
     exact .inr ⟨entry, hent, rfl⟩

/-- What a pass over the tables leaves: a pass that finds something to push pushes it, and leaves something
only where it merged classes. -/
structure Passes (e e' : Engine L) (more : Bool) : Prop where
 unites : Unites e e'
 last : more = false → e' = e ∧ e.db.space.dirty = false
 fewer : more = true → e'.db.space.dirty = true → e'.db.space.uf.roots.card < e.db.space.uf.roots.card
 holds : ∀ {D : Type} (I : Interpretation L D) (env : Nat → Value D), e.Holds I env → e'.Holds I env

theorem rebuildPass_passes (h : e.Kept) : ∃ e' more, e.rebuildPass = some (e', more) ∧ Passes e e' more := by
 rw [rebuildPass]
 generalize hoffer : (if e.vocabulary.reshapes then some (dissolve e.vocabulary e.zeros) else none) = offer
 cases hdirty : e.db.space.dirty with
 | false =>
  rw [canonicalize_clean hdirty]
  exact ⟨e, false, rfl, Unites.refl h, fun _ => ⟨rfl, hdirty⟩, by rintro ⟨⟩, fun I env hholds => hholds⟩
 | true =>
  obtain ⟨tables, report, settled, hrun, hmends, hkept⟩ := canonicalize_mends h.db hdirty offer ⟨[], []⟩ []
  have hformed := h.db.space.uf
  have hlen := len_flatten hformed
  -- every row of the tables is one there was, renamed
  have hrows : ∀ (slot : Nat) t', tables[slot]? = some t' → ∃ t, e.db.tables[slot]? = some t ∧
    t'.toLayout = t.toLayout ∧ ∀ row, row < t'.len → ∃ origin, origin < t.len ∧
     t'.view row = t.renamed e.db.space.uf.flatten.rename origin := by
   intro slot t' ht'
   obtain ⟨t, _, _, _, origin, ht, hmended⟩ := hmends.get.2 slot t' ht'
   refine ⟨t, ht, hmended.layout, fun row hrow => ?_⟩
   obtain ⟨hlt, -, -, hview⟩ := hmended.repaired.stays row hrow
   exact ⟨origin row, hlt, hview⟩
  obtain ⟨db, hdb⟩ : ∃ db : Database, db = { e.db with
   tables := tables
   space := { e.db.space with uf := e.db.space.uf.flatten, dirty := false, unclean := 0, aged := false } } := ⟨_, rfl⟩
  rw [← hdb] at hrun hkept
  have hpass : Kept { e with db := db } := by
   refine ⟨h.vocabulary, hkept, fun slot t' ht' => ?_, ?_, fun slot t' ht' row hrow => ?_, ?_⟩
   · rw [hdb] at ht'
     obtain ⟨t, ht, hlayout, -⟩ := hrows slot t' ht'
     obtain ⟨shape, hshape, hknown⟩ := h.tables slot t ht
     exact ⟨shape, hshape, hlayout.trans hknown⟩
   · rw [h.nodes, classCount, classCount, hdb]
     exact hlen.symm
   · rw [hdb] at ht'
     obtain ⟨t, ht, hlayout, hview⟩ := hrows slot t' ht'
     obtain ⟨origin, horigin, heq⟩ := hview row hrow
     obtain ⟨l, hlabel, hknown, hconst⟩ := h.rows slot t ht origin horigin
     obtain ⟨l', hlayout', hrenamed⟩ := renamed_row h ht horigin
     rw [heq]
     refine ⟨l, ?_, hlayout.trans hknown, hconst⟩
     show e.vocabulary.labels[_]? = _
     rw [hrenamed.label.2]
     exact hlabel
   · intro zero hin
     rw [classCount, hdb]
     show zero.2 < e.db.space.uf.flatten.len
     rw [hlen]
     exact h.zeros zero hin
  have hpassHolds : ∀ {D : Type} (I : Interpretation L D) (env : Nat → Value D), e.Holds I env →
    Holds { e with db := db } I env := by
   intro D I env hholds
   refine ⟨?_, ?_, fun slot t' ht' row hrow l hlabel => ?_⟩
   · rw [hdb]
     exact hholds.flatten
   · rw [classCount, hdb]
     show Zeros L env e.db.space.uf.flatten.len e.zeros
     rw [hlen]
     exact hholds.zeros
   · rw [hdb] at ht'
     obtain ⟨t, ht, hlayout, hview⟩ := hrows slot t' ht'
     obtain ⟨origin, horigin, heq⟩ := hview row hrow
     obtain ⟨l', -, hrenamed⟩ := renamed_row h ht horigin
     rw [heq] at hlabel ⊢
     cases hlabel.symm.trans hrenamed.label.1
     exact hrenamed.holds I env hholds
  have hclasses : Engine.classCount { e with db := db } = e.classCount := by
   rw [classCount, classCount, hdb]
   exact hlen
  have hunites : Unites e { e with db := db } := by
   refine ⟨hpass, rfl, rfl, rfl, hclasses, ?_, fun hyes => ?_⟩
   · grind [roots_flatten]
   grind
  have hsettled : SettledRight e settled := by
   refine hmends.state (fun dissolve' hsome t hin row hrow s hs => ?_) (by rintro _ ⟨⟩)
   obtain ⟨slot, ht⟩ := getElem?_of_mem hin
   obtain ⟨l, -, hrenamed⟩ := renamed_row h ht hrow
   rw [← hoffer] at hsome
   split at hsome
   · cases hsome
     exact dissolve_right h hrenamed hs
   · cases hsome
  have hcollisions : ∀ collision ∈ report.collisions,
    (collision.kept.1 < e.classCount ∧ collision.removed.1 < e.classCount) ∧
    ∀ {D : Type} (I : Interpretation L D) (env : Nat → Value D), e.Holds I env →
     Ref.value env ⟨collision.kept.1, collision.kept.2⟩ = Ref.value env ⟨collision.removed.1, collision.removed.2⟩ := by
   intro collision hin
   obtain ⟨t, ht, kept, row, hkeyed, hkeptlt, hrow, hsame, rfl⟩ := hmends.collision hin
   obtain ⟨slot, ht⟩ := getElem?_of_mem ht
   obtain ⟨l, hlayout, hrenamed⟩ := renamed_row h ht hkeptlt
   obtain ⟨l', -, hrenamed'⟩ := renamed_row h ht hrow
   obtain rfl : l = l' := by
    have hlabel := hrenamed.label.1
    rw [hsame.1] at hlabel
    exact some.inj (hlabel.symm.trans hrenamed'.label.1)
   refine ⟨⟨(hrenamed.names _ names_value).1, (hrenamed'.names _ names_value).1⟩,
    fun I env hholds => ?_⟩
   have hunique : Label.unique l = false := by
    have hkeyed' : (!Label.unique l) = true := (congrArg Layout.keyed hlayout).symm.trans hkeyed
    rwa [Bool.not_eq_true'] at hkeyed'
   exact (hrenamed.holds I env hholds).value_eq (hrenamed'.holds I env hholds) hunique hsame
  obtain ⟨pairs, hmerge, hpairs⟩ := mergeAll_eq (e := { e with db := db }) report.collisions settled
  have hpair : ∀ pair ∈ pairs, (pair.1.id < e.classCount ∧ pair.2.id < e.classCount) ∧
    ∀ {D : Type} (I : Interpretation L D) (env : Nat → Value D), e.Holds I env →
     pair.1.value env = pair.2.value env := by
   intro pair hin
   rcases hpairs pair hin with ⟨collision, hcollision, rfl⟩ | ⟨entry, hent, rfl⟩
   · exact hcollisions collision hcollision
   · exact hsettled entry hent
  obtain ⟨hmerged, hmergedHolds⟩ := unions_unites hpass pairs fun pair hin => by
   grind
  rw [hrun]
  refine ⟨_, true, rfl, ?_⟩
  show Passes e (mergeAll { e with db := db } report.collisions settled) true
  rw [hmerge]
  refine ⟨hunites.trans hmerged, by rintro ⟨⟩, fun _ hyes => ?_, fun I env hholds => ?_⟩
  · rcases hmerged.dirty hyes with hbef | hless
    · grind
    · exact hless.trans_le hunites.roots
  · exact hmergedHolds I env (hpassHolds I env hholds) fun pair hin => (hpair pair hin).2 I env hholds

/-! ## The loop -/

/-- What a rebuild leaves. -/
structure Rebuilds (e e' : Engine L) : Prop where
 unites : Unites e e'
 clean : e'.db.space.dirty = false
 holds : ∀ {D : Type} (I : Interpretation L D) (env : Nat → Value D), e.Holds I env → e'.Holds I env

/-- The loop of passes ends: each of them but the last merges some classes, or is the first. -/
theorem rebuildFrom_rebuilds (fuel : Nat) (h : e.Kept)
  (hfuel : (if e.db.space.dirty then e.db.space.uf.roots.card + 2 else 1) ≤ fuel) :
  ∃ e', e.rebuildFrom fuel = some e' ∧ Rebuilds e e' := by
 induction fuel generalizing e with
 | zero =>
  split at hfuel
  · nomatch hfuel
  · nomatch hfuel
 | succ fuel ih =>
  obtain ⟨e1, more, hpass, hpasses⟩ := rebuildPass_passes h
  rw [rebuildFrom, hpass, bind_some]
  cases more with
  | false =>
   obtain ⟨rfl, hclean⟩ := hpasses.last rfl
   exact ⟨e1, rfl, Unites.refl h, hclean, fun I env hholds => hholds⟩
  | true =>
   have hdirty : e.db.space.dirty = true := by
    cases hdirty : e.db.space.dirty with
    | true => rfl
    | false =>
     rw [rebuildPass, canonicalize_clean hdirty] at hpass
     nomatch congrArg Prod.snd (some.inj hpass)
   rw [if_pos hdirty] at hfuel
   obtain ⟨e', hrun, hrebuilds⟩ := ih hpasses.unites.kept (by
    split
    · rename_i hyes
      have hless := hpasses.fewer rfl hyes
      omega
    · omega)
   refine ⟨e', hrun, hpasses.unites.trans hrebuilds.unites, hrebuilds.clean, fun I env hholds => ?_⟩
   exact hrebuilds.holds I env (hpasses.holds I env hholds)

/-- A rebuild ends, and keeps every equation. -/
theorem rebuild_rebuilds (h : e.Kept) : ∃ e', e.rebuild = some e' ∧ Rebuilds e e' := by
 apply rebuildFrom_rebuilds _ h
 have hle := e.db.space.uf.card_roots_le
 rw [classCount]
 split
 · omega
 · omega

end Engine

end Tir.Egraph
