import Tir.Backend.EncodingBits

/-!
# The tables of an instruction agree

Where the runs of each shape are apart, clear of the fixed bits and inside the word, and the patch and decode
tables give an operand the runs of its encode field, the encoder, the patcher and the decoder agree
(`tables_consistent`).
-/

open List

namespace Tir.Backend.Encodings

/-! ## Guards -/

mutual

/-- The operands whose fit a guard tests. -/
def Guard.fits : Guard → List String
 | .true => []
 | .not guard => guard.fits
 | .and guards => fitsOf guards
 | .or guards => fitsOf guards
 | .bit _ _ => []
 | .sliceEq _ _ _ _ => []
 | .signedFits op _ _ => [op]
 | .unsignedFits op _ _ => [op]
 | .cmp _ _ _ _ _ => []
 | .same _ _ _ => []

def fitsOf : List Guard → List String
 | [] => []
 | guard :: guards => guard.fits ++ fitsOf guards

end

/-- Operands some of which have no value yet, and operands that give those a value: a fixup's fit is not
tested. -/
def Refines (fits : List String) (operands operands' : Operands) : Prop :=
 ∀ name, operands' name = operands name ∨ operands name = .missing ∨
  (∃ target, operands name = .fixup target) ∧ name ∉ fits

/-- A truth value that another keeps once it is decided. -/
def Truth.Below (a b : Truth) : Prop :=
 a = .undecided ∨ a = b

namespace Truth

variable {a a' b b' : Truth}

theorem Below.refl (a : Truth) : Below a a :=
 .inr rfl

theorem Below.not (h : Below a a') : Below a.not a'.not := by
 rcases h with rfl | rfl
 · exact .inl rfl
 · exact .inr rfl

theorem Below.and (ha : Below a a') (hb : Below b b') : Below (a.and b) (a'.and b') := by
 rcases ha with rfl | rfl <;> rcases hb with rfl | rfl
 · exact .inl rfl
 · cases a' <;> cases b <;> simp [Below, Truth.and]
 · cases a <;> cases b' <;> simp [Below, Truth.and]
 · exact .inr rfl

theorem Below.or (ha : Below a a') (hb : Below b b') : Below (a.or b) (a'.or b') := by
 rcases ha with rfl | rfl <;> rcases hb with rfl | rfl
 · exact .inl rfl
 · cases a' <;> cases b <;> simp [Below, Truth.or]
 · cases a <;> cases b' <;> simp [Below, Truth.or]
 · exact .inr rfl

end Truth

section Guards

variable {operands operands' : Operands} {fits : List String}

section

variable (h : Refines fits operands operands')

include h

theorem Refines.mono {fits' : List String} (hsub : fits' ⊆ fits) : Refines fits' operands operands' :=
 fun name => (h name).imp_right fun hor => hor.imp_right fun hfix => ⟨hfix.1, fun hmem => hfix.2 (hsub hmem)⟩

theorem Refines.pattern {name : String} {width : Nat} {pattern : BitVec 128}
  (hpattern : operands.pattern name width = some pattern) : operands'.pattern name width = some pattern := by
 rcases h name with heq | hmissing | ⟨⟨target, hfix⟩, -⟩
 · rwa [Operands.pattern, heq]
 · rw [Operands.pattern, hmissing] at hpattern
   nomatch hpattern
 · rw [Operands.pattern, hfix] at hpattern
   nomatch hpattern

/-- A test of one operand's pattern that is undecided without one. -/
theorem Refines.test (name : String) (width : Nat) (test : BitVec 128 → Truth) :
  Truth.Below (match operands.pattern name width with | some pattern => test pattern | none => .undecided)
   (match operands'.pattern name width with | some pattern => test pattern | none => .undecided) := by
 cases hpattern : operands.pattern name width with
 | none => exact .inl rfl
 | some pattern => rw [h.pattern hpattern]; exact Truth.Below.refl _

end

/-- A fit test: a fixup answers no, so it stays a fixup. -/
theorem Refines.fit {name : String} (h : Refines [name] operands operands') (width : Nat) (test : BitVec 128 → Truth) :
  Truth.Below
   (match operands.pattern name width with | some pattern => test pattern | none => fixupFits operands name)
   (match operands'.pattern name width with | some pattern => test pattern | none => fixupFits operands' name) := by
 rcases h name with heq | hmissing | ⟨-, hout⟩
 · rw [Operands.pattern, Operands.pattern, fixupFits, fixupFits, Operands.isFixup, Operands.isFixup, heq]
   exact Truth.Below.refl _
 · rw [Operands.pattern, fixupFits, Operands.isFixup, hmissing]
   exact .inl rfl
 · exact absurd (mem_singleton.2 rfl) hout

mutual

/-- A decided guard stays decided when operands without a value get one. -/
theorem Guard.holds_below (guard : Guard) (h : Refines guard.fits operands operands') :
  Truth.Below (guard.holds operands) (guard.holds operands') := by
 cases guard with
 | true => exact Truth.Below.refl _
 | not guard => exact (guard.holds_below h).not
 | and guards => exact holdsAll_below guards h (Truth.Below.refl _)
 | or guards => exact holdsAny_below guards h (Truth.Below.refl _)
 | bit op bit => exact h.test op (bit + 1) fun pattern => .of (pattern.getLsbD bit)
 | sliceEq op lo hi value => exact h.test op (hi + 1) fun pattern => .of (pattern >>> lo = value)
 | signedFits op width bits => exact h.fit width _
 | unsignedFits op width bits => exact h.fit width _
 | cmp op width cmpWidth cmp value => exact h.test op width _
 | same a b width =>
  rw [Guard.holds, Guard.holds]
  cases hx : operands.pattern a width with
  | none => exact .inl rfl
  | some x =>
   cases hy : operands.pattern b width with
   | none => exact .inl rfl
   | some y => rw [h.pattern hx, h.pattern hy]; exact Truth.Below.refl _

theorem holdsAll_below (guards : List Guard) (h : Refines (fitsOf guards) operands operands') {acc acc' : Truth}
  (hacc : Truth.Below acc acc') : Truth.Below (holdsAll operands acc guards) (holdsAll operands' acc' guards) := by
 cases guards with
 | nil => exact hacc
 | cons guard guards =>
  exact holdsAll_below guards (h.mono (List.subset_append_right ..))
   (hacc.and (guard.holds_below (h.mono (List.subset_append_left ..))))

theorem holdsAny_below (guards : List Guard) (h : Refines (fitsOf guards) operands operands') {acc acc' : Truth}
  (hacc : Truth.Below acc acc') : Truth.Below (holdsAny operands acc guards) (holdsAny operands' acc' guards) := by
 cases guards with
 | nil => exact hacc
 | cons guard guards =>
  exact holdsAny_below guards (h.mono (List.subset_append_right ..))
   (hacc.or (guard.holds_below (h.mono (List.subset_append_left ..))))

end

end Guards

/-! ## Encoding -/

/-- The runs of a shape's fields are apart, clear of its fixed bits and inside the word, each operand has one
field, and a patch has the runs of its field. -/
structure EncodeShape.WellFormed (shape : EncodeShape) : Prop where
 width : shape.widthBytes ≤ 16
 apart : (shape.fields.flatMap EncodeField.runs).Pairwise FieldRun.Apart
 inside : ∀ run ∈ shape.fields.flatMap EncodeField.runs, run.wordLo + run.width ≤ 8 * shape.widthBytes
 clear : ∀ run ∈ shape.fields.flatMap EncodeField.runs, ∀ i, run.Covers i → shape.constWord.getLsbD i = false
 names : (shape.fields.map EncodeField.attr).Nodup
 patches : ∀ patch ∈ shape.patch, ∀ field ∈ shape.fields, patch.attr = field.attr → patch.runs = field.runs

namespace EncodeShape.WellFormed

variable {shape : EncodeShape} {field other : EncodeField} {run run' : FieldRun} {i : Nat}

theorem runs_apart (hshape : shape.WellFormed) (hfield : field ∈ shape.fields) : field.runs.Pairwise FieldRun.Apart :=
 (pairwise_flatMap.1 hshape.apart).1 field hfield

theorem field_eq (hshape : shape.WellFormed) (hfield : field ∈ shape.fields) (hother : other ∈ shape.fields)
  (hrun : run ∈ field.runs) (hrun' : run' ∈ other.runs) (hcov : run.Covers i) (hcov' : run'.Covers i) :
  field = other := by
 by_contra hne
 have hsymm : Std.Symm fun a b : EncodeField => ∀ x ∈ a.runs, ∀ y ∈ b.runs, x.Apart y :=
  ⟨fun a b h x hx y hy => (h y hy x hx).symm⟩
 exact FieldRun.not_apart hcov hcov'
  ((pairwise_flatMap.1 hshape.apart).2.forall hfield hother hne run hrun run' hrun')

end EncodeShape.WellFormed

/-- The bits that the known operands put into the word. -/
def Scattered (operands : Operands) (fields : List EncodeField) (i : Nat) : Prop :=
 ∃ field ∈ fields, ∃ bits signed, operands field.attr = .known bits signed ∧
  ∃ run ∈ field.runs, run.Covers i ∧ bits.getLsbD (run.source i) = true

section Encode

variable {shape : EncodeShape} {operands : Operands}

variable {before : Encoding} {fields : List EncodeField} {e : EncodedInst} {patched : List (BitVec 8)}
 {value : BitVec 64}

section

variable {after : Encoding} (h : fields.foldlM (shape.field operands) before = some after)

include h

/-- The loop over the fields: the known operands are scattered and the fixups recorded. -/
theorem fields_spec :
  (∀ i, after.word.getLsbD i = true ↔ before.word.getLsbD i = true ∨ i < 128 ∧ Scattered operands fields i) ∧
   (∀ fixup ∈ after.fixups, fixup ∈ before.fixups ∨ fixup.patch ∈ shape.patch ∧
    ∃ field ∈ fields, fixup.patch.attr = field.attr ∧ operands field.attr = .fixup fixup.target) ∧
   ∀ field ∈ fields, operands field.attr ≠ .missing := by
 induction fields generalizing before with
 | nil =>
  cases h
  exact ⟨fun i => by simp [Scattered], fun fixup hfixup => .inl hfixup, nofun⟩
 | cons field fields ih =>
  obtain ⟨middle, hfield, hrest⟩ := Option.bind_eq_some_iff.1 h
  obtain ⟨hword, hfixups, hmissing⟩ := ih hrest
  have hcons : ∀ i, Scattered operands (field :: fields) i ↔ (∃ bits signed, operands field.attr = .known bits signed ∧
    ∃ run ∈ field.runs, run.Covers i ∧ bits.getLsbD (run.source i) = true) ∨ Scattered operands fields i := by
   intro i
   rw [Scattered, List.exists_mem_cons_iff]
   rfl
  rw [EncodeShape.field] at hfield
  cases hop : operands field.attr with
  | missing =>
   grind
  | known bits signed =>
   rw [hop] at hfield
   dsimp only at hfield
   split at hfield
   · nomatch hfield
   · cases hfield
     refine ⟨fun i => ?_, fun fixup hfixup => ?_, fun other hother => ?_⟩
     · rw [hword, getLsbD_scatter, hcons, hop, or_assoc]
       apply or_congr_right
       constructor
       · rintro (⟨hi, run, hrun, hbit⟩ | ⟨hi, hrest⟩)
         · exact ⟨hi, .inl ⟨bits, signed, rfl, run, hrun, hbit⟩⟩
         · exact ⟨hi, .inr hrest⟩
       grind
     · rcases hfixups fixup hfixup with hold | ⟨hpatch, other, hother, hattr⟩
       · exact .inl hold
       · exact .inr ⟨hpatch, other, .tail _ hother, hattr⟩
     grind
  | fixup target =>
   rw [hop] at hfield
   obtain ⟨patch, hpatch, rfl⟩ := Option.map_eq_some_iff.1 hfield
   refine ⟨fun i => ?_, fun fixup hfixup => ?_, fun other hother => ?_⟩
   · rw [hword, hcons, hop]
     apply or_congr_right
     apply and_congr_right
     intro _
     constructor
     · exact .inr
     grind
   · rcases hfixups fixup hfixup with hold | ⟨hpatch', other, hother, hattr⟩
     · rcases List.mem_append.1 hold with hold | hnew
       · exact .inl hold
       grind
     · exact .inr ⟨hpatch', other, .tail _ hother, hattr⟩
   grind

/-- The fixups of an encoding are of its fields, in their order. -/
theorem fixups_sublist
  (hpatches : ∀ patch ∈ shape.patch, ∀ field ∈ fields, patch.attr = field.attr → patch.runs = field.runs) :
  ∃ more, after.fixups = before.fixups ++ more ∧
   (more.map fun fixup => fixup.patch.runs).Sublist (fields.map EncodeField.runs) := by
 induction fields generalizing before with
 | nil =>
  simp_all
 | cons field fields ih =>
  rw [foldlM_cons] at h
  obtain ⟨middle, hstep, hrest⟩ := Option.bind_eq_some_iff.1 h
  obtain ⟨more, hmore, hsub⟩ := ih hrest fun patch hpatch other hother => hpatches patch hpatch other (.tail _ hother)
  rw [EncodeShape.field] at hstep
  split at hstep
  · grind
  · rename_i target _
    obtain ⟨patch, hfind, rfl⟩ := Option.map_eq_some_iff.1 hstep
    refine ⟨⟨target, patch⟩ :: more, by rw [hmore, List.append_assoc]; rfl, ?_⟩
    grind
  · nomatch hstep

end

/-- What encoding a shape gives: the bytes of the word with the known operands scattered, and a fixup for each
operand that is one. -/
theorem encode_spec (h : shape.encode operands = some e) : ∃ word, e.bytes = leBytes word shape.widthBytes ∧
   (∀ i, word.getLsbD i = true ↔ shape.constWord.getLsbD i = true ∨ i < 128 ∧ Scattered operands shape.fields i) ∧
   (∀ fixup ∈ e.fixups, fixup.patch ∈ shape.patch ∧
    ∃ field ∈ shape.fields, fixup.patch.attr = field.attr ∧ operands field.attr = .fixup fixup.target) ∧
   ∀ field ∈ shape.fields, operands field.attr ≠ .missing := by
 obtain ⟨after, hfields, rfl⟩ := Option.map_eq_some_iff.1 h
 grind [fields_spec]

/-- The width of an encoded instruction is the one said beforehand. -/
theorem encodedWidth_eq {spec : EncodeSpec} (h : encodeWith operands spec = some e) :
  encodedWidth operands spec = e.bytes.length := by
 obtain ⟨shape, hselect, hencode⟩ := Option.bind_eq_some_iff.1 h
 obtain ⟨word, hbytes, -⟩ := encode_spec hencode
 rw [hbytes, length_leBytes, encodedWidth]
 split
 · rename_i only hshapes
   have hmem := mem_of_find?_eq_some hselect
   grind
 · rw [hselect]
   rfl

/-- The operands with one of them known. -/
def Operands.with (operands : Operands) (name : String) (value : BitVec 64) : Operands := fun other =>
 if other = name then .known (value.signExtend 128) value.toInt else operands other

/-- What a patch that is not refused makes of the bytes. -/
theorem patchWith_eq {bytes : List (BitVec 8)} {field : PatchField} (h : patchWith bytes value field = some patched) :
  patched = leBytes (scatter (ofLeBytes bytes) (value.signExtend 128) field.runs) (min bytes.length 16) ++ bytes.drop 16 := by
 exact (Option.some.inj (Option.ite_none_left_eq_some.1 h).2).symm

/-- **A fixup patched with a value gives the word of the value known.** -/
theorem patch_known {name : String} {e' : EncodedInst} {fixup : EncodedFixup}
  (hshape : shape.WellFormed) (h : shape.encode operands = some e) (h' : shape.encode (operands.with name value) = some e')
  (hfixup : fixup ∈ e.fixups) (hattr : fixup.patch.attr = name) (hpatched : patchWith e.bytes value fixup.patch = some patched) :
  patched = e'.bytes := by
 obtain ⟨word, hbytes, hword, hfixups, -⟩ := encode_spec h
 obtain ⟨word', hbytes', hword', -, -⟩ := encode_spec h'
 obtain ⟨hpatch, field, hfield, hsame, hop⟩ := hfixups fixup hfixup
 have hruns := hshape.patches _ hpatch field hfield hsame
 rw [hattr] at hsame
 have hwid := hshape.width
 rw [patchWith_eq hpatched, hbytes, hbytes', length_leBytes, min_eq_left hwid,
  List.drop_eq_nil_of_le (by rw [length_leBytes]; exact hwid), List.append_nil]
 apply leBytes_congr
 intro i hi
 rw [Bool.eq_iff_iff, getLsbD_scatter, getLsbD_ofLeBytes hwid hi, hword, hword', hruns, or_assoc]
 apply or_congr_right
 have hi' : i < 128 := by omega
 simp only [hi', true_and]
 constructor
 · rintro (⟨other, hother, bits, signed, hknown, hbit⟩ | ⟨run, hrun, hcov, hbit⟩)
   · refine ⟨other, hother, bits, signed, ?_, hbit⟩
     rw [Operands.with, if_neg fun heq => ?_, hknown]
     grind
   · exact ⟨field, hfield, _, _, if_pos hsame.symm, run, hrun, hcov, hbit⟩
 · rintro ⟨other, hother, bits, signed, hknown, run, hrun, hcov, hbit⟩
   rw [Operands.with] at hknown
   split at hknown
   · rename_i heq
     obtain rfl := List.inj_on_of_nodup_map hshape.names hother hfield (heq.trans hsame)
     grind
   · exact .inl ⟨other, hother, bits, signed, hknown, run, hrun, hcov, hbit⟩

end Encode

/-! ## Decoding -/

def DecodedValue.bits : DecodedValue → BitVec 64
 | register index => index.setWidth 64
 | int value => value

/-- A decode shape reads an encode shape backwards: the same fields, and the fixed bits of the word. -/
structure DecodeShape.Inverts (dshape : DecodeShape) (shape : EncodeShape) : Prop where
 width : shape.widthBytes ≤ 4
 fields : dshape.fields.map (fun field => (field.attr, field.runs)) = shape.fields.map fun field => (field.attr, field.runs)
 const : dshape.constWord = shape.constWord.setWidth 32
 fixed : dshape.constWord &&& dshape.fixedMask = dshape.constWord
 clear : ∀ run ∈ shape.fields.flatMap EncodeField.runs, ∀ i, run.Covers i → dshape.fixedMask.getLsbD i = false
 narrow : ∀ i, 8 * shape.widthBytes ≤ i → dshape.fixedMask.getLsbD i = false
 operand : ∀ field ∈ dshape.fields, ∀ run ∈ field.runs, run.opLo + run.width ≤ 64
 register : ∀ field ∈ dshape.fields, ∀ registers, field.kind = .register registers →
  ∀ run ∈ field.runs, run.opLo + run.width ≤ 16

/-- The completed index has the field's bits. -/
theorem getLsbD_registerIndex {registers : List (BitVec 16)} {value : BitVec 64} {runs : List FieldRun} {run : FieldRun} {i : Nat}
  (hrun : run ∈ runs) (hi : i < run.opLo + run.width) (hlt : i < 16) :
  (registerIndex registers value runs).getLsbD i = value.getLsbD i := by
 have hmax : run.opLo + run.width ≤ (runs.map fun run => run.opLo + run.width).max?.getD 0 :=
  le_max?_getD_of_mem (List.mem_map_of_mem hrun)
 have hlow : ∀ low : BitVec 16, low = (if 16 ≤ (runs.map fun run => run.opLo + run.width).max?.getD 0 then BitVec.allOnes 16
   else ((1 : BitVec 16) <<< (runs.map fun run => run.opLo + run.width).max?.getD 0) - 1) → low.getLsbD i = true := by
  intro low heq
  rw [heq]
  split
  · rw [BitVec.getLsbD_allOnes, decide_eq_true hlt]
  grind [getLsbD_ones]
 have hval : (value.setWidth 16).getLsbD i = value.getLsbD i := by
  rw [BitVec.getLsbD_setWidth, decide_eq_true hlt, Bool.true_and]
 unfold registerIndex
 extract_lets bits low high
 have hbit : low.getLsbD i = true := hlow low rfl
 have hhigh : high.getLsbD i = false := by
  cases hhead : registers.head? with
  | none => simp [high, hhead]
  | some first => simp [high, hhead, hbit]
 split
 · rw [BitVec.getLsbD_or, hval, hhigh, Bool.false_or]
 · exact hval

section Decode

variable {dshape : DecodeShape} {shape : EncodeShape} {operands : Operands} {e : EncodedInst} {word : BitVec 32}

/-- The field of a decode shape is that of the encode shape. -/
theorem DecodeShape.Inverts.field (hinverts : dshape.Inverts shape) {field : DecodeField} (hfield : field ∈ dshape.fields) :
  ∃ other ∈ shape.fields, other.attr = field.attr ∧ other.runs = field.runs := by
 have hmem : (field.attr, field.runs) ∈ shape.fields.map fun field => (field.attr, field.runs) := by
  rw [← hinverts.fields]
  exact List.mem_map.2 ⟨field, hfield, rfl⟩
 obtain ⟨other, hother, heq⟩ := List.mem_map.1 hmem
 exact ⟨other, hother, congrArg Prod.fst heq, congrArg Prod.snd heq⟩

theorem DecodeShape.Inverts.field' (hinverts : dshape.Inverts shape) {field : EncodeField} (hfield : field ∈ shape.fields) :
  ∃ other ∈ dshape.fields, other.attr = field.attr ∧ other.runs = field.runs := by
 have hmem : (field.attr, field.runs) ∈ dshape.fields.map fun field => (field.attr, field.runs) := by
  rw [hinverts.fields]
  exact List.mem_map.2 ⟨field, hfield, rfl⟩
 grind

section

variable (hshape : shape.WellFormed) (hinverts : dshape.Inverts shape) (h : shape.encode operands = some e)
  (hword : leBytes (word.setWidth 128) shape.widthBytes = e.bytes)

include hshape hinverts h hword

/-- The bits of an encoded word under a field are those of its operand. -/
theorem word_eq :
  (∀ i < 8 * shape.widthBytes, word.getLsbD i = true ↔ shape.constWord.getLsbD i = true ∨ Scattered operands shape.fields i) ∧
   ∀ field ∈ shape.fields, ∀ bits signed, operands field.attr = .known bits signed → ∀ run ∈ field.runs, ∀ i, run.Covers i →
    word.getLsbD i = bits.getLsbD (run.source i) := by
 obtain ⟨encoded, hbytes, hencoded, -, -⟩ := encode_spec h
 have hwid := hinverts.width
 have hall : ∀ i < 8 * shape.widthBytes, word.getLsbD i = true ↔
   shape.constWord.getLsbD i = true ∨ Scattered operands shape.fields i := by
  intro i hi
  have hsame := leBytes_inj (hword.trans hbytes) hi
  grind
 refine ⟨hall, fun field hfield bits signed hknown run hrun i hcov => ?_⟩
 have hmem : run ∈ shape.fields.flatMap EncodeField.runs := mem_flatMap.2 ⟨field, hfield, hrun⟩
 rw [Bool.eq_iff_iff, hall i (hcov.2.trans_le (hshape.inside run hmem)), hshape.clear run hmem i hcov]
 constructor
 · rintro (hset | ⟨other, hother, bits', signed', hknown', run', hrun', hcov', hbit⟩)
   · nomatch hset
   · obtain rfl := hshape.field_eq hfield hother hrun hrun' hcov hcov'
     obtain rfl := eq_of_covers (hshape.runs_apart hfield) hrun hrun' hcov hcov'
     grind
 · intro hbit
   exact .inr ⟨field, hfield, bits, signed, hknown, run, hrun, hcov, hbit⟩

/-- A decode shape matches the word of its encode shape. -/
theorem matches_word
  : dshape.matches word = true := by
 rw [DecodeShape.matches, decide_eq_true_iff]
 apply BitVec.eq_of_getLsbD_eq
 intro i hi
 have hfixed := congrArg (fun w : BitVec 32 => w.getLsbD i) hinverts.fixed
 rw [BitVec.getLsbD_and]
 cases hmask : dshape.fixedMask.getLsbD i with
 | false =>
  grind
 | true =>
  -- a fixed bit is inside the word and under no run
  have hin : i < 8 * shape.widthBytes := by
   by_contra hout
   rw [hinverts.narrow i (not_lt.1 hout)] at hmask
   nomatch hmask
  rw [Bool.and_true, hinverts.const, BitVec.getLsbD_setWidth, decide_eq_true hi, Bool.true_and, Bool.eq_iff_iff,
   (word_eq hshape hinverts h hword).1 i hin]
  constructor
  · rintro (hconst | ⟨field, hfield, bits, signed, -, run, hrun, hcov, -⟩)
    · exact hconst
    · rw [hinverts.clear run (mem_flatMap.2 ⟨field, hfield, hrun⟩) i hcov] at hmask
      nomatch hmask
  · exact .inl

/-- The decoded value of a field has the bits of the operand encoded in it. -/
theorem value_bits {field : DecodeField} (hfield : field ∈ dshape.fields)
  {bits : BitVec 128} {signed : Int} (hknown : operands field.attr = .known bits signed) {run : FieldRun}
  (hrun : run ∈ field.runs) {i : Nat} (hi : run.opLo ≤ i ∧ i < run.opLo + run.width) :
  (field.value word).bits.getLsbD i = bits.getLsbD i := by
 obtain ⟨other, hother, hattr, hruns⟩ := hinverts.field hfield
 have hlt : i < 64 := hi.2.trans_le (hinverts.operand field hfield run hrun)
 have hgather : (gather word field.runs).getLsbD i = bits.getLsbD i := by
  rw [gather_eq fun run hrun => (word_eq hshape hinverts h hword).2 other hother bits signed (hattr ▸ hknown) run (hruns ▸ hrun),
   BitVec.getLsbD_and, BitVec.getLsbD_setWidth, decide_eq_true hlt, Bool.true_and,
   getLsbD_fieldBits.2 ⟨hlt, run, hrun, hi⟩, Bool.and_true]
 rw [DecodeField.value]
 cases hkind : field.kind with
 | int => exact hgather
 | register registers =>
  have hnarrow : i < 16 := hi.2.trans_le (hinverts.register field hfield registers hkind run hrun)
  rw [DecodedValue.bits, BitVec.getLsbD_setWidth, decide_eq_true hlt, Bool.true_and,
   getLsbD_registerIndex hrun hi.2 hnarrow, hgather]

end

/-- An attribute of a decoded word is the value of its field. -/
theorem lookup_value (word : BitVec 32) (hshape : shape.WellFormed) (hinverts : dshape.Inverts shape) {field : DecodeField}
  (hfield : field ∈ dshape.fields) :
  (dshape.fields.map fun field => (field.attr, field.value word)).lookup field.attr = some (field.value word) := by
 have hnames : (dshape.fields.map DecodeField.attr).Nodup := by
  have heq : dshape.fields.map DecodeField.attr = shape.fields.map EncodeField.attr := by
   have := congrArg (List.map Prod.fst) hinverts.fields
   rwa [List.map_map, List.map_map] at this
  rw [heq]
  exact hshape.names
 generalize dshape.fields = fields at hfield hnames
 induction fields with
 | nil => nomatch hfield
 | cons first fields ih =>
  rw [map_cons, nodup_cons] at hnames
  rw [map_cons, lookup_cons]
  rcases mem_cons.1 hfield with rfl | hfield
  · rw [beq_self_eq_true]
  grind

/-- A decoded operand, encoded again. -/
theorem get_decodedInst {attributes : List (String × DecodedValue)} {name : String} {value : DecodedValue}
  (h : attributes.lookup name = some value) : ∃ bits signed, (decodedInst attributes).get name = .known bits signed ∧
   ∀ i < 64, bits.getLsbD i = value.bits.getLsbD i := by
 cases value with
 | register index =>
  refine ⟨index.setWidth 128, index.toNat, ?_, fun i hi => ?_⟩
  · simp [Inst.get, decodedInst, h]
  · rw [DecodedValue.bits, BitVec.getLsbD_setWidth, BitVec.getLsbD_setWidth, decide_eq_true hi,
     decide_eq_true (by omega)]
 | int value =>
  refine ⟨value.signExtend 128, value.toInt, ?_, fun i hi => ?_⟩
  · simp [Inst.get, decodedInst, h]
  · rw [BitVec.getLsbD_signExtend, if_pos hi, decide_eq_true (by omega), Bool.true_and]
    rfl

/-- **The word of known operands decodes to their field values**, and these encode the word again. -/
theorem decode_known {dspec : DecodeSpec} {earlier later : List DecodeShape} (hshape : shape.WellFormed)
  (hinverts : dshape.Inverts shape) (h : shape.encode operands = some e)
  (hknown : ∀ field ∈ shape.fields, ∃ bits signed, operands field.attr = .known bits signed)
  (hword : leBytes (word.setWidth 128) shape.widthBytes = e.bytes) (hshapes : dspec.shapes = earlier ++ dshape :: later)
  (hfst : ∀ other ∈ earlier, other.matches word = false)
  (hattrs : ∀ declared ∈ dspec.attrs, declared ∈ shape.fields.map EncodeField.attr) :
  ∃ attributes, decodeWith word dspec = some attributes ∧
   (∀ field ∈ shape.fields, ∀ bits signed, operands field.attr = .known bits signed →
    ∃ value, attributes.lookup field.attr = some value ∧
     value.bits &&& fieldBits field.runs = bits.setWidth 64 &&& fieldBits field.runs) ∧
   ∀ again, shape.encode (decodedInst attributes).get = some again → again.bytes = e.bytes := by
 refine ⟨dshape.fields.map fun field => (field.attr, field.value word), ?_, ?_, ?_⟩
 · have hfind : dspec.shapes.find? (fun shape => shape.matches word) = some dshape := by
    grind [matches_word]
   rw [decodeWith, hfind, Option.bind_some, if_pos]
   rw [List.all_eq_true]
   intro declared hdecl
   obtain ⟨field, hfield, hattr⟩ := List.mem_map.1 (hattrs declared hdecl)
   obtain ⟨other, hother, hsame, -⟩ := hinverts.field' hfield
   exact List.any_eq_true.2 ⟨other, hother, decide_eq_true (hsame.trans hattr)⟩
 · intro field hfield bits signed hbits
   obtain ⟨other, hother, hattr, hruns⟩ := hinverts.field' hfield
   refine ⟨other.value word, hattr ▸ lookup_value word hshape hinverts hother, ?_⟩
   apply BitVec.eq_of_getLsbD_eq
   grind [getLsbD_fieldBits, value_bits]
 · intro again hagain
   obtain ⟨encoded, hbytes, hencoded, -, -⟩ := encode_spec hagain
   rw [hbytes, ← hword]
   apply leBytes_congr
   intro i hi
   have hwid := hinverts.width
   have hlt : i < 128 := by omega
   rw [BitVec.getLsbD_setWidth, decide_eq_true hlt, Bool.true_and, Bool.eq_iff_iff, hencoded,
    (word_eq hshape hinverts h hword).1 i hi]
   apply or_congr_right
   simp only [hlt, true_and]
   -- under a run both words have the bit of the operand first encoded
   have hsrc : ∀ field ∈ shape.fields, ∀ bits signed, operands field.attr = .known bits signed → ∀ run ∈ field.runs,
     run.Covers i → ∃ bits' signed', (decodedInst (dshape.fields.map fun field => (field.attr, field.value word))).get
      field.attr = .known bits' signed' ∧ bits'.getLsbD (run.source i) = bits.getLsbD (run.source i) := by
    intro field hfield bits signed hbits run hrun hcov
    obtain ⟨other, hother, hattr, hruns⟩ := hinverts.field' hfield
    obtain ⟨bits', signed', hget, hsame⟩ := get_decodedInst (lookup_value word hshape hinverts hother)
    rw [hattr] at hget
    rw [← hruns] at hrun
    have hin : run.opLo ≤ run.source i ∧ run.source i < run.opLo + run.width := by
     have hlo := hcov.1
     have hhi := hcov.2
     rw [FieldRun.source]
     omega
    refine ⟨bits', signed', hget, ?_⟩
    rw [hsame _ (hin.2.trans_le (hinverts.operand other hother run hrun)),
     value_bits hshape hinverts h hword hother (hattr ▸ hbits) hrun hin]
   constructor
   · rintro ⟨field, hfield, bits', signed', hget, run, hrun, hcov, hbit⟩
     obtain ⟨bits, signed, hbits⟩ := hknown field hfield
     obtain ⟨bits'', signed'', hget', hsame⟩ := hsrc field hfield bits signed hbits run hrun hcov
     rw [hget] at hget'
     injection hget' with heq
     subst heq
     exact ⟨field, hfield, bits, signed, hbits, run, hrun, hcov, hsame ▸ hbit⟩
   · rintro ⟨field, hfield, bits, signed, hbits, run, hrun, hcov, hbit⟩
     obtain ⟨bits', signed', hget, hsame⟩ := hsrc field hfield bits signed hbits run hrun hcov
     exact ⟨field, hfield, bits', signed', hget, run, hrun, hcov, hsame.trans hbit⟩

end Decode

/-! ## The tables of an instruction -/

/-- **The encoder, the patcher and the decoder of well-formed tables agree.** -/
theorem tables_consistent (spec : EncodeSpec) (hspec : ∀ shape ∈ spec.shapes, shape.WellFormed) :
  (∀ shape ∈ spec.shapes, shape.widthBytes ≤ 4 → ∀ field ∈ shape.fields, ∀ word value : BitVec 128,
   (∀ run ∈ field.runs, ∀ i, run.Covers i → word.getLsbD i = false) →
   gather ((scatter word value field.runs).setWidth 32) field.runs = value.setWidth 64 &&& fieldBits field.runs) ∧
  (∀ operands name value shape e e', select operands spec = some shape → select (operands.with name value) spec = some shape →
   encodeWith operands spec = some e → encodeWith (operands.with name value) spec = some e' →
   ∀ fixup ∈ e.fixups, fixup.patch.attr = name → ∀ patched, patchWith e.bytes value fixup.patch = some patched →
   patched = e'.bytes) ∧ (∀ operands shape e, select operands spec = some shape → encodeWith operands spec = some e →
   (∀ field ∈ shape.fields, ∃ bits signed, operands field.attr = .known bits signed) →
   ∀ (word : BitVec 32) (dspec : DecodeSpec) earlier dshape later, leBytes (word.setWidth 128) shape.widthBytes = e.bytes →
   dspec.shapes = earlier ++ dshape :: later → (∀ other ∈ earlier, other.matches word = false) → dshape.Inverts shape →
   (∀ declared ∈ dspec.attrs, declared ∈ shape.fields.map EncodeField.attr) →
   ∃ attributes, decodeWith word dspec = some attributes ∧
    (∀ field ∈ shape.fields, ∀ bits signed, operands field.attr = .known bits signed →
     ∃ value, attributes.lookup field.attr = some value ∧
      value.bits &&& fieldBits field.runs = bits.setWidth 64 &&& fieldBits field.runs) ∧
    (select (decodedInst attributes).get spec = some shape →
     ∀ again, encodeWith (decodedInst attributes).get spec = some again → again.bytes = e.bytes)) ∧
  (∀ operands e, encodeWith operands spec = some e → encodedWidth operands spec = e.bytes.length) ∧
  ∀ (guard : Guard) (operands operands' : Operands), Refines guard.fits operands operands' →
   guard.holds operands ≠ .undecided → guard.holds operands' = guard.holds operands := by
 have hencode : ∀ {operands shape e}, select operands spec = some shape → encodeWith operands spec = some e →
   shape ∈ spec.shapes ∧ shape.encode operands = some e := by
  intro operands shape e hselect h
  rw [encodeWith, hselect] at h
  exact ⟨mem_of_find?_eq_some hselect, h⟩
 refine ⟨?_, ?_, ?_, fun _ _ => encodedWidth_eq, ?_⟩
 · intro shape hshape hwid field hfield word value hclear
   apply gather_scatter ((hspec shape hshape).runs_apart hfield) _ hclear
   intro run hrun
   have hinside := (hspec shape hshape).inside run (mem_flatMap.2 ⟨field, hfield, hrun⟩)
   omega
 · intro operands name value shape e e' hselect hselect' h h' fixup hfixup hattr patched hpatched
   obtain ⟨hshape, h⟩ := hencode hselect h
   exact patch_known (hspec shape hshape) h (hencode hselect' h').2 hfixup hattr hpatched
 · intro operands shape e hselect h hknown word dspec earlier dshape later hword hshapes hfst hinverts hattrs
   obtain ⟨hshape, h⟩ := hencode hselect h
   obtain ⟨attributes, hdecode, hvals, hagain⟩ :=
    decode_known (hspec shape hshape) hinverts h hknown hword hshapes hfst hattrs
   exact ⟨attributes, hdecode, hvals, fun hselect' again h' => hagain again (hencode hselect' h').2⟩
 · intro guard operands operands' hrefines hdecided
   exact ((guard.holds_below hrefines).resolve_left hdecided).symm

/-- A short shape for immediates that fit six bits and a long one for the others. -/
def shortSpec : EncodeSpec where
 shapes :=
  [⟨.signedFits "imm" 64 6, 1, 1, [⟨"imm", some (-32, 32, 64), 0, false, [⟨0, 2, 6⟩]⟩],
    [⟨"imm", some (-32, 32), 0, [⟨0, 2, 6⟩]⟩]⟩,
    ⟨.true, 3, 2, [⟨"imm", some (-2048, 2048, 4096), 0, false, [⟨0, 4, 12⟩]⟩],
     [⟨"imm", some (-2048, 2048), 0, [⟨0, 4, 12⟩]⟩]⟩]
 widthBytes := (1, 2)

theorem shortSpec_wellFormed : ∀ shape ∈ shortSpec.shapes, shape.WellFormed := by
 intro shape hshape
 have hclear : ∀ lo width (word : BitVec 128), word &&& (runMask width <<< lo) = 0 → ∀ i, FieldRun.Covers ⟨0, lo, width⟩ i →
   word.getLsbD i = false := by
  intro lo width word hword i hcov
  have hbit := congrArg (fun w : BitVec 128 => w.getLsbD i) hword
  have hlo := hcov.1
  have hhi := hcov.2
  dsimp only at hlo hhi
  simp only [BitVec.getLsbD_and, BitVec.getLsbD_shiftLeft, getLsbD_runMask, BitVec.ofNat_eq_ofNat, BitVec.getLsbD_zero,
   decide_eq_false (not_lt.2 hlo), decide_eq_true (show i - lo < width by omega)] at hbit
  by_cases hi : i < 128
  · grind
  · exact BitVec.getLsbD_of_ge _ _ (not_lt.1 hi)
 rcases mem_cons.1 hshape with rfl | hshape
 · exact ⟨by decide, by decide, by decide, fun run hrun => by
    grind, by decide, by decide⟩
 · obtain rfl := mem_singleton.1 hshape
   exact ⟨by decide, by decide, by decide, fun run hrun => by
    obtain rfl := mem_singleton.1 hrun
    exact hclear 4 12 3 (by decide), by decide, by decide⟩

/-- A branch patched with `100`, which takes the long shape. -/
theorem tables_consistent_short : ∃ e e', encodeWith (fun _ => .fixup (.block 0)) shortSpec = some e ∧
  encodeWith (Operands.with (fun _ => .fixup (.block 0)) "imm" 100) shortSpec = some e' ∧
  (∀ fixup ∈ e.fixups, patchWith e.bytes 100 fixup.patch = some e'.bytes) ∧
  encodedWidth (fun _ => .fixup (.block 0)) shortSpec = 2 := by
 have hconsistent := tables_consistent shortSpec shortSpec_wellFormed
 let long : PatchField := ⟨"imm", some (-2048, 2048), 0, [⟨0, 4, 12⟩]⟩
 have hfixup : encodeWith (fun _ => .fixup (.block 0)) shortSpec = some ⟨leBytes 3 2, [⟨.block 0, long⟩]⟩ := rfl
 have hpatched : patchWith (leBytes 3 2) 100 long = some (leBytes 1603 2) := by decide
 obtain ⟨e', he'⟩ : ∃ e', encodeWith (Operands.with (fun _ => .fixup (.block 0)) "imm" 100) shortSpec = some e' := ⟨_, rfl⟩
 have hsame := hconsistent.2.1 _ "imm" 100 _ _ _ rfl rfl hfixup he' _ (mem_singleton.2 rfl) rfl _ hpatched
 refine ⟨_, _, hfixup, he', fun fixup hmem => ?_, hconsistent.2.2.2.1 _ _ hfixup⟩
 obtain rfl := mem_singleton.1 hmem
 rw [hpatched, hsame]

/-- A fit test answers no for a fixup and yes for a value of it, and `-1` decodes to the field value `63`,
which encodes at another width. -/
theorem tables_not_consistent :
  (∃ guard : Guard, guard.holds (fun _ => .fixup (.block 0)) = .no ∧ guard.holds (fun _ => .known 0 0) = .yes) ∧
  ∃ e again attributes, encodeWith (fun _ => .known (-1) (-1)) shortSpec = some e ∧
   e.bytes = leBytes 253 1 ∧ decodeWith 253 ⟨[⟨3, 1, [⟨"imm", .int, [⟨0, 2, 6⟩]⟩]⟩], ["imm"]⟩ = some attributes ∧
   encodeWith (decodedInst attributes).get shortSpec = some again ∧ again.bytes ≠ e.bytes := by
 refine ⟨⟨.signedFits "imm" 64 6, by decide, by decide⟩, ?_⟩
 refine ⟨⟨leBytes 253 1, []⟩, ⟨leBytes 1011 2, []⟩, [("imm", .int 63)], ?_, rfl, ?_, ?_, by decide⟩
 · rfl
 · rfl
 · rfl

end Tir.Backend.Encodings
