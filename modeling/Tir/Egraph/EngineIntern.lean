import Tir.Egraph.EngineInsert

/-!
# Interning nodes

A node comes to the reference its laws, its row or its new class is (`Engine.insertCanonical_interns`),
and a constant to an offset of its carrier's zero (`Engine.intConstantRef_spec`). Under an interpretation
that reference has the value of the node, whichever way it was found (`Engine.Interns`).
-/

open List Option

namespace Tir.Egraph

open Tir.Relational UnionFind

variable {L : Type} [Label L]

namespace Engine

variable {e : Engine L} {D : Type} {I : Interpretation L D} {env : Nat → Value D} {l : L} {label : Nat}
 {operands : List Ref}

/-- What interning a node of a label over operands leaves, and the reference it gives. -/
structure Interns (e : Engine L) (l : L) (operands : List Ref) (e' : Engine L) (found : Ref) : Prop where
 kept : e'.Kept
 grows : Extends e e'
 ordered : Ordered e.nodes → Ordered e'.nodes
 lt : found.id < e'.classCount
 value : ∀ {D : Type} (I : Interpretation L D) (env : Nat → Value D), e.Holds I env → I.Models env e'.nodes →
  (Label.unique l = false → I.Takes l (operands.map (Ref.value env))) →
  e'.Holds I env ∧ I.Evaluates l (operands.map (Ref.value env)) (found.value env)

/-! ## Values found -/

variable {found : Ref} {v : Value D} {nodes : List (ENode L)} {c : Carrier}

theorem foldIdentity_id {uf : UnionFind} {laws : Laws} {operand : Nat}
  (hlength : ∀ identity, laws.identity.getD operand none = some identity → operands.length = 2 ∧ operand < 2)
  (h : foldIdentity uf laws operands operand = some found) : ∃ ref ∈ operands, found.id = ref.id := by
 rw [foldIdentity] at h
 split at h
 · rename_i identity element hidentity _
   have hother : operands.getD (1 - operand) default ∈ operands := by
    grind
   refine ⟨operands.getD (1 - operand) default, hother, ?_⟩
   generalize operands.getD (1 - operand) default = other at h
   split at h
   · simp only at h
     split at h
     · split at h
       · split at h
         · rw [← some.inj h]
         · cases h
       · cases h
     grind
   · cases h
 · cases h

/-- What the laws settle a node to is an operand or a zero, at some offset. -/
theorem fold_id {uf : UnionFind} {zeros : List (Nat × Nat)} (hlength : operands.length = Label.arity l)
  (h : fold uf zeros (Laws.of l) operands = some found) :
  (∃ ref ∈ operands, found.id = ref.id) ∨ ∃ zero ∈ zeros, found.id = zero.2 := by
 have hpair : ∀ operand identity, (Laws.of l).identity.getD operand none = some identity →
   operands.length = 2 ∧ operand < 2 := by
  grind [Laws.identity_of]
 rw [fold, or_eq_some_iff, or_eq_some_iff] at h
 rcases h with hleft | ⟨-, hright | ⟨-, hlinear⟩⟩
 · exact .inl (foldIdentity_id (hpair 0) hleft)
 · exact .inl (foldIdentity_id (hpair 1) hright)
 · rw [foldLinear] at hlinear
   split at hlinear
   · obtain ⟨carrier, -, hmap⟩ := bind_eq_some_iff.1 hlinear
     obtain ⟨zero, hfind, rfl⟩ := map_eq_some_iff.1 hmap
     exact .inr ⟨zero, mem_of_find?_eq_some hfind, rfl⟩
   · cases hlinear

theorem evaluates_of_apply {args : List (Value D)} (hunique : Label.unique l = false)
  (h : v = I.apply l args) : I.Evaluates l args v := by
 rw [Meaning.Evaluates, hunique]
 exact h

/-- A find keeps values, an offset added to it too. -/
theorem value_find_add (h : e.Holds I env) {ref : Ref} (hlt : ref.id < e.classCount) (offset : Word) :
  (e.find ⟨ref.id, ref.offset + offset⟩).value env = Offsets.shift (ref.value env) offset := by
 have hval := h.placed.holds.value_find h.placed.formed
  (show (Ref.mk ref.id (ref.offset + offset)).id < e.db.space.uf.len from hlt)
 rw [find, Database.find, hval, Ref.value, Ref.value, Offsets.shift_shift]

/-- The offset a key leaves out is one of the node's carrier. -/
theorem shift_moved (htakes : I.Takes l (operands.map (Ref.value env)))
  (heq : I.apply l (operands.map (Ref.value env)) = Offsets.shift v ((Laws.of l).moved operands)) :
  Offsets.shift v ((Laws.of l).moved operands &&& (Laws.of l).mask) = I.apply l (operands.map (Ref.value env)) := by
 have hcarr := I.carrier_apply l _ htakes
 grind [Laws.mask_of, Value.mask_eq, Offsets.mask_shift, Offsets.shift_mask]

theorem moved_unique (hunique : Label.unique l = true) : (Laws.of l).moved operands = 0 := by
 rw [Laws.moved]
 generalize operands.zipIdx = entries
 induction entries using List.reverseRecOn with
 | nil => rfl
 | append_singleton entries entry ih =>
  rw [foldl_concat, ih, Laws.coefficient, (Laws.of_unique hunique).1, getD_nil, zero_mul, add_zero]

/-! ## Probing -/

/-- What a probe of the table of a label finds. -/
theorem probe_spec (h : e.Kept) (hlabel : e.vocabulary.labels[label]? = some l) {key : Key} {refs : List Ref}
  (hshows : key.Shows label refs) (hlength : refs.length = Label.arity l) : ∃ found, e.probe label key = some found ∧
   (found = none → Label.unique l = false → ∀ t, e.db.tables[e.vocabulary.slotOf label]? = some t →
    ∀ row, row < t.len → ¬ t.rows.Holds t.arity key.cells key.shown row) ∧
   ∀ ref, found = some ref → Label.unique l = false ∧ ∃ (slot : Nat) (t : Table) (row : Nat), e.db.tables[slot]? = some t ∧
    row < t.len ∧ (t.view row).cells = key.cells ∧ (t.view row).weights = key.weights ∧ ref = e.find (viewValue (t.view row)) := by
 rw [probe, Database.lookup]
 cases ht : e.db.tables[e.vocabulary.slotOf label]? with
 | none => exact ⟨none, rfl, by rintro - - _ ⟨⟩, by rintro _ ⟨⟩⟩
 | some t =>
  have hlayout : t.toLayout = (Shape.of l).layout := by
   obtain ⟨shape, hknown, hlayout⟩ := h.tables _ t ht
   cases hknown.symm.trans (Vocabulary.shapes_slotOf h.vocabulary hlabel)
   exact hlayout
  have harity : t.arity = 1 + Label.arity l := congrArg Layout.arity hlayout
  have hkeyed : t.keyed = !Label.unique l := congrArg Layout.keyed hlayout
  have hready := h.db.ready _ t ht
  have hpadded : Rows.paddedWeights t.arity key.shown = key.weights := by rw [harity, hshows.padded hlength]
  have hkey : Rows.IsKey t.arity key.cells key.shown := by
   refine ⟨by rw [hshows.cells, length_cons, length_map, hlength, harity, add_comm], ?_⟩
   rw [Key.shown]
   split
   · refine .inr ?_
     rw [hshows.weights, length_cons, length_map, hlength, harity, add_comm]
   · exact .inl rfl
  simp only
  cases hunique : Label.unique l with
  | true =>
   rw [hunique] at hkeyed
   have hget : t.get key.cells key.shown = some none := by
    rw [Table.get, if_neg (by rw [hkeyed]; rintro ⟨⟩)]
   simp_all
  | false =>
   rw [hunique] at hkeyed
   obtain ⟨found, hget, hfound⟩ := Table.get_spec hready.rest.whole hkeyed hkey
   rw [hget]
   refine ⟨_, rfl, fun hnone _ t' ht' row hrow hholds => ?_, fun ref hsome => ⟨rfl, ?_⟩⟩
   · grind
   · obtain ⟨row, hrow, rfl⟩ := map_eq_some_iff.1 hsome
     obtain ⟨hlt, hholds⟩ := (hfound row).1 hrow
     refine ⟨_, t, row, ht, hlt, Rows.keyCells_of_holds hkey hholds, ?_, rfl⟩
     rw [← hpadded]
     exact map_congr_left fun column hcol => (hholds column (mem_range.1 hcol)).2

/-- A row names classes minted. -/
theorem Kept.value_lt (h : e.Kept) {slot : Nat} {t : Table} (ht : e.db.tables[slot]? = some t) {row : Nat} (hrow : row < t.len) :
  (viewValue (t.view row)).id < e.classCount :=
 (h.db.tracks slot t ht row hrow _ RowView.names_value).lt

/-! ## A new class -/

theorem Kept.renode (h : e.Kept) (hlength : nodes.length = e.nodes.length) : Kept { e with nodes := nodes } :=
 ⟨h.vocabulary, h.db, h.tables, hlength.trans h.nodes, h.rows, h.zeros⟩

theorem Holds.renode (h : e.Holds I env) (nodes : List (ENode L)) : Holds { e with nodes := nodes } I env :=
 ⟨h.placed, h.zeros, h.rows⟩

theorem exchangeOffsets_concat {node : ENode L} (h : e.nodes = nodes ++ [node]) :
  e.exchangeOffsets = { e with nodes := nodes ++ [{ node with
   offsets := node.offsets.map fun offsets => (offsets.set 0 (offsets.getD 1 0)).set 1 (offsets.getD 0 0) }] } := by
 rw [exchangeOffsets, h, getLast?_concat, dropLast_concat]

/-- The e-node of a class made for a key keeps the operands as they were written, stripped. -/
theorem exchange_spec {e1 : Engine L} {key : Key} {refs : List Ref} {exchanged : Bool} (hshows : key.Shows label refs)
  (hkeyed : Shape.Keyed l operands refs exchanged) (hlength : operands.length = Label.arity l)
  (hnodes : e1.nodes = e.nodes ++ [{ label := l, children := operands.map Ref.id, labelId := label
                                     classId := e.classCount
                                     offsets := if (key.shown.drop 1).any (· ≠ 0) then some (key.shown.drop 1)
                                      else none }]) :
  ∃ node : ENode L, (if exchanged then e1.exchangeOffsets else e1) = { e1 with nodes := e.nodes ++ [node] } ∧
   node.label = l ∧ node.operands = operands.zipIdx.map (Laws.of l).strip := by
 have hoffsets := hshows.offsets
 have hids : (operands.zipIdx.map (Laws.of l).strip).map Ref.id = operands.map Ref.id := by
  rw [List.map_map, ← map_fst_zipIdx Ref.id operands]
  refine map_congr_left fun entry _ => ?_
  show ((Laws.of l).strip entry).id = entry.1.id
  rw [Laws.strip]
  split <;> rfl
 cases exchanged with
 | false =>
  refine ⟨_, by rw [if_neg (by rintro ⟨⟩), ← hnodes], rfl, ?_⟩
  rw [hkeyed.straight rfl] at hoffsets
  exact operands_eq hids.symm hoffsets
 | true =>
  obtain ⟨-, harity, hreverse⟩ := hkeyed.exchanged rfl
  refine ⟨_, by rw [if_pos rfl, exchangeOffsets_concat hnodes], rfl, ?_⟩
  apply operands_eq hids.symm
  have hlength' : refs.length = 2 := by rw [hkeyed.length, hlength, harity]
  obtain ⟨first, second, rfl⟩ := length_eq_two.1 hlength'
  rw [← hreverse]
  rcases hoffsets with hsome | ⟨hnone, hzero⟩
  · exact .inl (by rw [hsome]; rfl)
  grind

/-- A node over canonical operands comes to a reference of its value. -/
theorem insertCanonical_interns (h : e.Kept) (hlabel : e.vocabulary.labels[label]? = some l)
  (hcanonical : Canonical e.db.space.uf operands) (hlength : operands.length = Label.arity l)
  (hconst : ∀ c value, Label.arity l = 0 → leafConstant l = some (c, value) →
   Label.constantOf l 0 = none ∨ e.zero c.key ≠ none) :
  ∃ e' found, e.insertCanonical label ⟨l, operands.map Ref.id⟩ operands = some (e', found) ∧
   Interns e l operands e' found := by
 rw [insertCanonical]
 cases hshape : e.shape label operands with
 | ref found =>
  -- the laws settle the node
  have hfold := shape_ref hlabel hshape
  refine ⟨e, found, rfl, h, Extends.refl e, id, ?_, fun I env hholds _ htakes => ⟨hholds, ?_⟩⟩
  · rcases fold_id hlength hfold with ⟨ref, href, hid⟩ | ⟨zero, hzero, hid⟩
    · rw [hid]
      exact (hcanonical ref href).1
    · rw [hid]
      exact h.zeros zero hzero
  · cases hunique : Label.unique l with
    | true =>
     grind [fold_unique]
    | false =>
     exact evaluates_of_apply hunique
      (fold_value hholds.placed hcanonical (htakes hunique) hholds.zeros hfold).2
 | key key shift exchanged =>
  obtain ⟨refs, hshows, hkeyed, rfl⟩ := shape_shows hlabel hlength hshape
  have hrefs : refs.length = Label.arity l := hkeyed.length.trans hlength
  obtain ⟨found, hprobe, habsent, hfound⟩ := probe_spec h hlabel hshows hrefs
  simp only
  rw [hprobe, bind_some]
  cases found with
  | some ref =>
   -- a row holds the key
   obtain ⟨hunique, slot, t, row, ht, hrow, hcells, hwts, rfl⟩ := hfound ref rfl
   have hval := h.value_lt ht hrow
   have hlt : (e.find (viewValue (t.view row))).id < e.classCount := UnionFind.find_lt h.db.space.uf hval
   refine ⟨e, _, rfl, h, Extends.refl e, id, UnionFind.find_lt h.db.space.uf hlt, fun I env hholds _ htakes =>
    ⟨hholds, evaluates_of_apply hunique ?_⟩⟩
   have hlabel' : e.vocabulary.labels[(t.view row).cells.getD 0 0]? = some l := by
    rw [hcells, hshows.cells]
    exact hlabel
   obtain ⟨-, heq⟩ := hholds.rows slot t ht row hrow l hlabel' hunique
   rw [viewOperands, hcells, hwts, hshows.operands] at heq
   obtain ⟨-, heq'⟩ := hkeyed.value (htakes hunique)
   rw [value_find_add hholds hlt]
   have hfind : (e.find (viewValue (t.view row))).value env = (viewValue (t.view row)).value env :=
    hholds.placed.holds.value_find hholds.placed.formed hval
   grind [shift_moved]
  | none =>
   -- a class is minted for it
   have hfresh : e.Fresh l label key refs := by
    refine ⟨hlabel, hshows, hrefs, fun ref href => ?_, habsent rfl⟩
    obtain ⟨operand, hop, hid⟩ := hkeyed.mem href
    rw [hid]
    exact hcanonical operand hop
   obtain ⟨e1, hmake, hmakes, hnodes⟩ := makeClass_spec h hfresh ⟨l, operands.map Ref.id⟩ rfl false
    fun c value harity hval => (hconst c value harity hval).imp_right .inl
   obtain ⟨node, hexchange, hnode, hops⟩ := exchange_spec hshows hkeyed hlength hnodes
   rw [hmake, map_some, hexchange]
   have hlen : e1.classCount = e.classCount + 1 := by
    rw [classCount, hmakes.uf, UnionFind.len_push]
    rfl
   refine ⟨_, _, rfl, hmakes.kept.renode ?_, ⟨hmakes.vocabulary, ?_, prefix_append _ _⟩, fun hord => ?_, ?_,
    fun I env hholds hmodels htakes => ?_⟩
   · grind
   · intro wanted hknown
     rw [zero, show Engine.zeros { e1 with nodes := e.nodes ++ [node] } = e.zeros from hmakes.zeros]
     exact hknown
   · refine hord.concat fun ref href => ?_
     rw [hops] at href
     have hstraight : Shape.Keyed l operands (operands.zipIdx.map (Laws.of l).strip) false :=
      ⟨fun _ => rfl, by rintro ⟨⟩⟩
     obtain ⟨operand, hop, hid⟩ := hstraight.mem href
     rw [hid, h.nodes]
     exact (hcanonical operand hop).1
   · show e.classCount < e1.classCount
     grind
   · have hclass : env e.classCount = I.valueOf env e.classCount node := by
      refine hmodels e.classCount node ?_
      rw [← h.nodes]
      exact getElem?_concat_length
     rw [Meaning.valueOf, hnode, hops] at hclass
     cases hunique : Label.unique l with
     | true =>
      rw [if_pos hunique] at hclass
      refine ⟨(hmakes.holds I env hholds (by rw [hclass]; exact I.carrier_unknown l _ hunique) (by rintro ⟨⟩)
       (fun hfalse => absurd (hfalse.symm.trans hunique) (by rintro ⟨⟩))).renode _, ?_⟩
      rw [Meaning.Evaluates, if_pos hunique, moved_unique hunique]
      refine ⟨e.classCount, ?_⟩
      rw [Ref.value]
      have hnone : (0 : Word) &&& (Laws.of l).mask = 0 := BitVec.zero_and
      rw [hnone, Offsets.shift_zero, hclass]
     | false =>
      rw [if_neg (by rw [hunique]; rintro ⟨⟩)] at hclass
      obtain ⟨htakes', heq⟩ := hkeyed.value (htakes hunique)
      obtain ⟨hstripped, heq'⟩ := apply_strip (htakes hunique)
      -- the row and the e-node are one value, written in either order
      have hrow : I.apply l (refs.map (Ref.value env)) = env e.classCount := by
       rw [hclass]
       have hboth := heq.symm.trans heq'
       rw [Offsets.shift_eq_iff, Offsets.shift_shift, add_neg_cancel, Offsets.shift_zero] at hboth
       exact hboth
      refine ⟨(hmakes.holds I env hholds (by rw [← hrow]; exact I.carrier_apply l _ htakes') (by rintro ⟨⟩)
       (fun _ => ⟨htakes', hrow⟩)).renode _, evaluates_of_apply hunique ?_⟩
      rw [hrow] at heq
      exact shift_moved (htakes hunique) heq

/-! ## Constants -/

theorem leafConstant_eq {value : Word} (h : leafConstant l = some (c, value)) :
  Label.carrier l = some c ∧ ∃ written, Label.intValue l = some written ∧ value = written &&& c.mask := by
 obtain ⟨carrier, hcarr, hval⟩ := bind_eq_some_iff.1 h
 obtain ⟨written, hwritten, hpair⟩ := map_eq_some_iff.1 hval
 grind

/-- A constant is the integer its zero's offset says. -/
theorem evaluates_constant {value : Word} (harity : Label.arity l = 0)
  (h : leafConstant l = some (c, value)) (hv : v = Value.int c value) : I.Evaluates l [] v := by
 obtain ⟨hcarr, written, hwritten, rfl⟩ := leafConstant_eq h
 obtain ⟨-, happly, hunknown⟩ := I.constant l c written harity hcarr hwritten
 rw [Value.int_and_mask] at hv
 rw [Meaning.Evaluates]
 split
 · simp_all
 · exact hv.trans happly.symm

theorem zero_mem {key known : Nat} (h : e.zero key = some known) : (key, known) ∈ e.zeros := by
 obtain ⟨zero, hfind, rfl⟩ := map_eq_some_iff.1 h
 grind

/-- What a carrier's zero comes to: a class with the carrier's integer zero, minted here or before. -/
structure Zeroed (e : Engine L) (c : Carrier) (e' : Engine L) (known : Nat) : Prop where
 kept : e'.Kept
 grows : Extends e e'
 ordered : Ordered e.nodes → Ordered e'.nodes
 lt : known < e'.classCount
 value : ∀ {D : Type} (I : Interpretation L D) (env : Nat → Value D), e.Holds I env → I.Models env e'.nodes →
  e'.Holds I env ∧ env known = Value.int c 0

theorem zeroOrMint_spec (h : e.Kept) (hcarr : Label.carrier l = some c) :
  ∃ e' known, e.zeroOrMint l c = some (e', known) ∧ match known with
   | some known => Zeroed e c e' known
   | none => e' = e ∧ Label.constantOf l 0 = none := by
 rw [zeroOrMint]
 cases hzero : e.zero c.key with
 | some known =>
  have hin := zero_mem hzero
  refine ⟨e, some known, rfl, h, Extends.refl e, id, h.zeros _ hin, fun I env hholds _ => ⟨hholds, ?_⟩⟩
  obtain ⟨-, l', c', hcarr', hkey, hval⟩ := hholds.zeros _ hin
  grind [Label.carrier_key]
 | none =>
  cases hconst : Label.constantOf l 0 with
  | none => exact ⟨e, none, rfl, rfl, rfl⟩
  | some z =>
   obtain ⟨harity, hcarr', hunique, written, hwritten, hmasked⟩ :=
    Label.constantOf_spec l c 0 z hcarr hconst
   obtain ⟨hkept, hgrows, hlabel⟩ := h.intern z
   -- no row is a constant whose zero is still to be minted
   have hfresh : (e.intern z).1.Fresh z (e.intern z).2 ⟨[(e.intern z).2], [0], false⟩ [] := by
    refine ⟨hlabel, ⟨rfl, rfl, rfl⟩, harity.symm, by rintro _ ⟨⟩, fun _ t ht row hrow hholds => ?_⟩
    obtain ⟨known, hknown, hlayout, hrow'⟩ := hkept.rows _ t ht row hrow
    have hpositive : 0 < t.arity := by
     grind [layout_arity]
    have hcell : (t.view row).cells.getD 0 0 = (e.intern z).2 :=
     (Rows.holds_iff_view.1 hholds 0 hpositive).1
    rw [hcell] at hknown
    cases hlabel.symm.trans hknown
    have hval : leafConstant z = some (c, written &&& c.mask) := by
     rw [leafConstant, hcarr', bind_some, hwritten, map_some]
    rcases hrow' c _ harity hval with hnone | hsome
    · rw [Label.constantOf_congr z l c 0 hcarr' hcarr, hconst] at hnone
      cases hnone
    · exact hsome hzero
   obtain ⟨e', hmake, hmakes, hnodes⟩ := makeClass_spec hkept hfresh ⟨z, []⟩ rfl true
    fun _ _ _ _ => .inr (.inr rfl)
   have hlen : e'.classCount = e.classCount + 1 := by
    rw [classCount, hmakes.uf, UnionFind.len_push]
    rfl
   simp only
   refine ⟨e', some e.classCount, ?_, hmakes.kept,
    ⟨hgrows.vocabulary.trans hmakes.vocabulary, fun wanted hknown => ?_, ?_⟩, fun hord => ?_, ?_,
    fun I env hholds hmodels => ?_⟩
   · rw [show [(e.intern z).2] = (Key.mk [(e.intern z).2] [0] false).cells from rfl,
      show ([] : List Word) = (Key.mk [(e.intern z).2] [0] false).shown from rfl, hmake]
     rfl
   · rw [zero, hmakes.zeros, if_pos rfl]
     exact zero_append hknown _
   · rw [hnodes]
     exact prefix_append _ _
   · rw [hnodes]
     exact hord.concat (by rintro _ ⟨⟩)
   · grind
   · have hclass : env e.classCount = Value.int c 0 := by
      obtain ⟨-, happly, -⟩ := I.constant z c written harity hcarr' hwritten
      have hmodel := hmodels e.classCount _ (by
       rw [hnodes, ← h.nodes]
       exact getElem?_concat_length)
      rw [hmodel, Meaning.valueOf, if_neg (by rw [hunique]; rintro ⟨⟩)]
      show I.apply z [] = _
      rw [happly, ← Value.int_and_mask, hmasked, Value.int_and_mask]
     refine ⟨hmakes.holds I env (hholds.intern h z) ?_ (fun _ => ⟨c, hclass⟩) (fun _ => ?_), hclass⟩
     · show (env e.classCount).carrier = _
       simp_all
     · obtain ⟨haccepts, happly, -⟩ := I.constant z c written harity hcarr' hwritten
       refine ⟨⟨hunique, harity.symm, haccepts⟩, ?_⟩
       show I.apply z [] = env e.classCount
       rw [hclass, happly, ← Value.int_and_mask, hmasked, Value.int_and_mask]

/-- A constant is an offset of its zero, and any other node stores no constant a zero stands for. -/
theorem intConstantRef_spec (h : e.Kept) (node : Node L) (hkids : node.children.length = Label.arity node.label) :
  ∃ e' found, e.intConstantRef node = some (e', found) ∧ match found with
   | some found => Label.arity node.label = 0 ∧ Interns e node.label [] e' found
   | none => e' = e ∧ ∀ c value, Label.arity node.label = 0 → leafConstant node.label = some (c, value) →
     Label.constantOf node.label 0 = none := by
 rw [intConstantRef]
 split
 · grind
 · rename_i hleaf
   have harity : Label.arity node.label = 0 := by
    grind
   cases hconst : leafConstant node.label with
   | none => exact ⟨e, none, rfl, rfl, nofun⟩
   | some constant =>
    obtain ⟨c, value⟩ := constant
    obtain ⟨e', known, hzero, hspec⟩ := zeroOrMint_spec h (leafConstant_eq hconst).1
    simp only
    rw [hzero, map_some]
    cases known with
    | none =>
     grind
    | some known =>
     refine ⟨e', some ⟨known, value⟩, rfl, harity, hspec.kept, hspec.grows, hspec.ordered, hspec.lt,
      fun I env hholds hmodels _ => ?_⟩
     obtain ⟨hholds', hval⟩ := hspec.value I env hholds hmodels
     refine ⟨hholds', evaluates_constant harity hconst ?_⟩
     rw [Ref.value, hval, Value.shift_int, zero_add]

/-! ## Nodes -/

/-- The operands found are canonical, and the values they had. -/
theorem canonical_find (h : e.Kept) (hlt : ∀ ref ∈ operands, ref.id < e.classCount) :
  Canonical e.db.space.uf (operands.map e.find) ∧ ∀ {D : Type} (I : Interpretation L D) (env : Nat → Value D),
   e.Holds I env → (operands.map e.find).map (Ref.value env) = operands.map (Ref.value env) := by
 refine ⟨fun ref hin => ?_, fun I env hholds => ?_⟩
 · obtain ⟨operand, hop, rfl⟩ := List.mem_map.1 hin
   refine ⟨find_lt h.db.space.uf (hlt operand hop), ?_⟩
   show e.db.space.uf.parentOf (e.db.space.uf.find operand).id = (e.db.space.uf.find operand).id
   rw [find_id h.db.space.uf]
   exact parentOf_root h.db.space.uf _
 · rw [List.map_map]
   exact map_congr_left fun operand hop =>
    hholds.placed.holds.value_find hholds.placed.formed (hlt operand hop)

theorem Interns.of_canonical {e' : Engine L} {operands' : List Ref}
  (h : Interns (e.intern l).1 l operands' e' found) (hkept : e.Kept)
  (hval : ∀ {D : Type} (I : Interpretation L D) (env : Nat → Value D), e.Holds I env →
   operands'.map (Ref.value env) = operands.map (Ref.value env)) : Interns e l operands e' found where
 kept := h.kept
 grows := (hkept.intern l).2.1.trans h.grows
 ordered := h.ordered
 lt := h.lt
 value := by
  intro D I env hholds hmodels htakes
  have hboth := h.value I env (hholds.intern hkept l) hmodels
  grind

/-- Interning a node over operands ends, and gives a reference of its value. -/
theorem insert_interns (h : e.Kept) (node : Node L) (hkids : node.children.length = Label.arity node.label)
  (hlength : operands.length = node.children.length) (hlt : ∀ ref ∈ operands, ref.id < e.classCount) :
  ∃ e' found, e.insert node operands = some (e', found) ∧ Interns e node.label operands e' found := by
 obtain ⟨e1, constant, hconst, hspec⟩ := intConstantRef_spec h node hkids
 rw [insert, hconst, bind_some]
 cases constant with
 | some found =>
  grind
 | none =>
  obtain ⟨rfl, hnone⟩ := hspec
  obtain ⟨hcanonical, hval⟩ := canonical_find h hlt
  obtain ⟨hkept, -, hlabel⟩ := h.intern node.label
  obtain ⟨e', found, hinsert, hinterns⟩ := insertCanonical_interns hkept hlabel hcanonical
   (by rw [length_map, hlength, hkids]) fun c value harity hleaf => .inl (hnone c value harity hleaf)
  exact ⟨e', found, hinsert, hinterns.of_canonical h hval⟩

/-- Where no class sits at an offset, a child at offset zero is found at its representative. -/
theorem find_of_straight (hstraight : e.db.space.uf.deltas.isNone = true) (child : Nat) :
  (⟨e.root child, 0⟩ : Ref) = e.find ⟨child, 0⟩ := by
 have hshifted : e.db.space.uf.shifted = false := by
  rw [deltas] at hstraight
  split at hstraight
  · cases hstraight
  grind
 rw [find, Database.find, UnionFind.find, hshifted]
 rfl

/-- Interning a node over its children ends, and gives a reference of its value. -/
theorem add_interns (h : e.Kept) (node : Node L) (hkids : node.children.length = Label.arity node.label)
  (hlt : ∀ child ∈ node.children, child < e.classCount) : ∃ e' found, e.add node = some (e', found) ∧
   Interns e node.label (node.children.map fun child => ⟨child, 0⟩) e' found := by
 have hops : ∀ ref ∈ node.children.map fun child => (⟨child, 0⟩ : Ref), ref.id < e.classCount := by
  grind
 obtain ⟨e', found, hinsert, hinterns⟩ := insert_interns h node hkids (length_map _) hops
 refine ⟨e', found, ?_, hinterns⟩
 rw [← hinsert, add, insert]
 obtain ⟨e1, constant, hconst, hspec⟩ := intConstantRef_spec h node hkids
 rw [hconst, bind_some, bind_some]
 cases constant with
 | some found => rfl
 | none =>
  obtain ⟨rfl, -⟩ := hspec
  have hfound : (if e1.db.space.uf.deltas.isNone then node.children.map fun child => (⟨e1.root child, 0⟩ : Ref)
    else node.children.map fun child => e1.find ⟨child, 0⟩) =
     (node.children.map fun child => (⟨child, 0⟩ : Ref)).map e1.find := by
   rw [List.map_map]
   split
   · rename_i hstraight
     exact map_congr_left fun child _ => find_of_straight hstraight child
   · rfl
  simp only
  rw [hfound]

end Engine

end Tir.Egraph
