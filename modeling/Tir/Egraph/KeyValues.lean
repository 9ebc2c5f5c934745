import Tir.Egraph.FoldValues
import Tir.Relational.DatabaseKept

/-!
# What a key shows

A key and a row show operands (`rowOperands`). The key of a node shows the node's operands without the
offsets that moved to the value, in either order where the label commutes (`Engine.shape_shows`), so that
the node's value is the value over what the key shows, shifted (`Shape.Keyed.value`).
-/

open List Bool

namespace Tir.Egraph

open Tir.Relational Vocabulary

variable {L : Type} [Label L]

/-! ## Operands of keys and rows -/

/-- The operands a row's cells and weights are past the label. -/
def rowOperands (cells : List Nat) (weights : List Word) : List Ref :=
 (cells.drop 1).zipWith Ref.mk (weights.drop 1)

namespace Key

variable {key : Key} {label : Nat} {refs : List Ref}

/-- A key of a label over operands. -/
structure Shows (key : Key) (label : Nat) (refs : List Ref) : Prop where
 cells : key.cells = label :: refs.map Ref.id
 weights : key.weights = 0 :: refs.map Ref.offset
 weighted : key.weighted = refs.any fun ref => ref.offset != 0

theorem zipWith_mk (refs : List Ref) : (refs.map Ref.id).zipWith Ref.mk (refs.map Ref.offset) = refs := by
 rw [zipWith_map, zipWith_self, map_id'' fun _ => rfl]

section

variable (h : key.Shows label refs)

include h

theorem Shows.operands : rowOperands key.cells key.weights = refs := by
 rw [h.cells, h.weights]
 exact zipWith_mk refs

/-- The weights a row of the key is stored with are the key's. -/
theorem Shows.padded {arity : Nat} (harity : refs.length = arity) :
  Rows.paddedWeights (1 + arity) key.shown = key.weights := by
 rw [shown]
 have hlen : key.weights.length = 1 + arity := by
  rw [h.weights, length_cons, length_map, harity, add_comm]
 cases hwt : key.weighted with
 | true => exact Rows.paddedWeights_of_length hlen
 | false =>
  rw [if_neg nofun, Rows.paddedWeights_nil, eq_comm, eq_replicate_iff]
  refine ⟨hlen, fun weight hin => ?_⟩
  rw [h.weights] at hin
  rcases mem_cons.1 hin with rfl | hin
  · rfl
  · obtain ⟨ref, href, rfl⟩ := mem_map.1 hin
    have hzero := any_eq_false.1 (h.weighted.symm.trans hwt) ref href
    simpa using hzero

/-- The offsets an e-node keeps of a key are those of the operands it shows. -/
theorem Shows.offsets :
  (if (key.shown.drop 1).any (· ≠ 0) then some (key.shown.drop 1) else none) = some (refs.map Ref.offset) ∨
   (if (key.shown.drop 1).any (· ≠ 0) then some (key.shown.drop 1) else none) = none ∧
    ∀ ref ∈ refs, ref.offset = 0 := by
 rw [shown]
 cases hwt : key.weighted with
 | true =>
  refine .inl ?_
  rw [if_pos rfl, h.weights, drop_succ_cons, drop_zero, if_pos]
  have hany := h.weighted.symm.trans hwt
  rw [any_eq_true] at hany ⊢
  obtain ⟨ref, href, hne⟩ := hany
  exact ⟨ref.offset, mem_map_of_mem href, by simpa using hne⟩
 | false =>
  refine .inr ⟨rfl, fun ref href => ?_⟩
  have hzero := any_eq_false.1 (h.weighted.symm.trans hwt) ref href
  simpa using hzero

end

theorem Shows.exchange {first second : Ref} (h : key.Shows label [first, second]) :
  key.exchange.Shows label [second, first] where
 cells := by
  rw [Key.exchange, h.cells]
  rfl
 weights := by
  rw [Key.exchange, h.weights]
  rfl
 weighted := by
  show key.weighted = _
  rw [h.weighted]
  simp only [any_cons, any_nil, Bool.or_false]
  exact Bool.or_comm _ _

/-- An operand stays in the key without the offset that moves to the value. -/
theorem Shows.operand {keyed : Key × Word} (h : keyed.1.Shows label refs) (laws : Laws) (entry : Ref × Nat) :
  (Key.operand laws keyed entry).1.Shows label (refs ++ [laws.strip entry]) ∧
   (Key.operand laws keyed entry).2 = keyed.2 + laws.coefficient entry.2 * entry.1.offset := by
 rw [Key.operand, Laws.strip]
 by_cases hzero : laws.coefficient entry.2 = 0
 · rw [if_pos hzero, if_pos hzero]
   refine ⟨⟨?_, ?_, ?_⟩, ?_⟩
   · simp [h.cells]
   · simp [h.weights]
   · simp [h.weighted]
   · rw [hzero, zero_mul, add_zero]
 · rw [if_neg hzero, if_neg hzero]
   refine ⟨⟨?_, ?_, ?_⟩, rfl⟩
   · simp [h.cells]
   · simp [h.weights]
   · simp [h.weighted]

/-- The key of a label keeps its operands without the offsets that move to the value. -/
theorem of_shows (laws : Laws) (label : Nat) (operands : List Ref) :
  (Key.of laws label operands).1.Shows label (operands.zipIdx.map laws.strip) ∧
   (Key.of laws label operands).2 = laws.moved operands := by
 rw [Key.of, Laws.moved]
 generalize operands.zipIdx = entries
 induction entries using List.reverseRecOn with
 | nil => exact ⟨⟨rfl, rfl, rfl⟩, rfl⟩
 | append_singleton entries entry ih =>
  obtain ⟨hshows, hmoved⟩ := ih
  rw [foldl_concat, foldl_concat, map_append, map_singleton, ← hmoved]
  exact hshows.operand laws entry

end Key

/-! ## The shape of a node -/

/-- What a key holds of operands: each without the offset that moves to the value, in either order where
the label commutes. -/
structure Shape.Keyed (l : L) (operands refs : List Ref) (exchanged : Bool) : Prop where
 straight : exchanged = false → refs = operands.zipIdx.map (Laws.of l).strip
 exchanged : exchanged = true → Label.commutative l = true ∧ Label.arity l = 2 ∧
  refs.reverse = operands.zipIdx.map (Laws.of l).strip

namespace Shape.Keyed

variable {l : L} {operands refs : List Ref} {exchanged : Bool} (h : Shape.Keyed l operands refs exchanged)
include h

theorem length : refs.length = operands.length := by
 cases exchanged with
 | false => rw [h.straight rfl, length_map, length_zipIdx]
 | true =>
  rw [← length_reverse, (h.exchanged rfl).2.2, length_map, length_zipIdx]

theorem mem {ref : Ref} (hin : ref ∈ refs) : ∃ operand ∈ operands, ref.id = operand.id := by
 have hstrip : ref ∈ operands.zipIdx.map (Laws.of l).strip := by
  cases exchanged with
  | false => rwa [h.straight rfl] at hin
  | true =>
   rw [← (h.exchanged rfl).2.2]
   exact mem_reverse.2 hin
 obtain ⟨⟨operand, index⟩, hent, rfl⟩ := mem_map.1 hstrip
 refine ⟨operand, ?_, ?_⟩
 · obtain ⟨-, -, hget⟩ := mem_zipIdx hent
   rw [hget]
   exact getElem_mem _
 · rw [Laws.strip]
   split <;> rfl

/-- The value of a node is the value over what its key shows, shifted. -/
theorem value {D : Type} {I : Interpretation L D} {env : Nat → Value D}
  (htakes : I.Takes l (operands.map (Ref.value env))) : I.Takes l (refs.map (Ref.value env)) ∧
   I.apply l (operands.map (Ref.value env)) =
    Offsets.shift (I.apply l (refs.map (Ref.value env))) ((Laws.of l).moved operands) := by
 obtain ⟨htakes', heq⟩ := apply_strip htakes
 cases exchanged with
 | false =>
  rw [h.straight rfl]
  exact ⟨htakes', heq⟩
 | true =>
  obtain ⟨hcommutes, harity, hreverse⟩ := h.exchanged rfl
  rw [← hreverse] at htakes' heq
  obtain ⟨second, first, hpair⟩ := pair_of_takes htakes' harity
  obtain rfl : refs = [first, second] := by
   rw [← reverse_reverse refs, hpair]
   rfl
  obtain ⟨htakes'', heq'⟩ := I.commutes l _ _ htakes' hcommutes
  refine ⟨htakes'', ?_⟩
  rw [heq]
  exact congrArg (fun v => Offsets.shift v _) heq'.symm

end Shape.Keyed

namespace Engine

variable {e : Engine L} {label : Nat} {l : L} {operands : List Ref}

/-- The shape of a node whose laws do not settle it. -/
theorem shape_shows (hlabel : e.vocabulary.labels[label]? = some l) (hlen : operands.length = Label.arity l) {key : Key}
  {shift : Word} {exchanged : Bool} (hshape : e.shape label operands = .key key shift exchanged) :
  ∃ refs, key.Shows label refs ∧ Shape.Keyed l operands refs exchanged ∧
   shift = (Laws.of l).moved operands &&& (Laws.of l).mask := by
 have hlaws : e.vocabulary.lawsAt label = Laws.of l := by
  rw [lawsAt, hlabel]
  rfl
 obtain ⟨hshows, hmoved⟩ := Key.of_shows (Laws.of l) label operands
 rw [shape, hlaws] at hshape
 split at hshape
 · nomatch hshape
 · obtain ⟨rfl, rfl, rfl⟩ := Shaped.key.inj hshape
   split
   · rename_i hexchanged
     have hcommutes : Label.arity l = 2 ∧ Label.commutative l = true := by
      have hboth := (and_eq_true _ _ ▸ hexchanged).1
      rw [commutes, hlabel, Option.any_some, and_eq_true] at hboth
      exact ⟨of_decide_eq_true hboth.1, hboth.2⟩
     rw [hcommutes.1] at hlen
     obtain ⟨first, second, rfl⟩ := length_eq_two.1 hlen
     refine ⟨_, hshows.exchange, ⟨fun hnot => absurd (hnot.symm.trans hexchanged) nofun,
      fun _ => ⟨hcommutes.2, hcommutes.1, rfl⟩⟩, ?_⟩
     rw [hmoved]
   · refine ⟨_, hshows, ⟨fun _ => rfl, fun htrue => ?_⟩, ?_⟩
     · rename_i hnot
       exact absurd htrue hnot
     · rw [hmoved]

theorem shape_ref (hlabel : e.vocabulary.labels[label]? = some l) {found : Ref}
  (hshape : e.shape label operands = .ref found) : fold e.db.space.uf e.zeros (Laws.of l) operands = some found := by
 have hlaws : e.vocabulary.lawsAt label = Laws.of l := by
  rw [lawsAt, hlabel]
  rfl
 rw [shape, hlaws] at hshape
 split at hshape
 · rename_i found' hfold
   obtain rfl := Shaped.ref.inj hshape
   split at hfold
   · exact hfold
   · nomatch hfold
 · nomatch hshape

end Engine

end Tir.Egraph
