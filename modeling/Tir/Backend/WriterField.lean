import Tir.Backend.EncodingTables
import Tir.Backend.Writer

/-!
# The bits of laid-out bytes

What appending, splicing and patching do to each bit of a section's bytes (`byteBit_splice_in`, `patchWith_spec`),
and that a field that was patched with a value reads as that value (`read_eq`).
-/

open List Int

namespace Tir.Backend.Writer

open Bytes Encodings

variable {i p n : Nat} {a b data bytes : List Byte}

/-- A bit of a list of bytes, the least significant one of the first byte first; clear past the end. -/
def byteBit (data : List Byte) (i : Nat) : Bool :=
 (data[i / 8]?.getD 0).getLsbD (i % 8)

theorem byteBit_append_left (h : i < 8 * a.length) : byteBit (a ++ b) i = byteBit a i := by
 rw [byteBit, byteBit, getElem?_append_left (by omega)]

theorem byteBit_append_right (h : 8 * a.length ≤ i) : byteBit (a ++ b) i = byteBit b (i - 8 * a.length) := by
 have hidx : i / 8 - a.length = (i - 8 * a.length) / 8 := by omega
 have hbit : i % 8 = (i - 8 * a.length) % 8 := by omega
 rw [byteBit, byteBit, getElem?_append_right (by omega), hidx, hbit]

theorem byteBit_past (h : 8 * data.length ≤ i) : byteBit data i = false := by
 rw [byteBit, List.getElem?_eq_none (by omega)]
 exact BitVec.getLsbD_zero

theorem byteBit_slice (h : i < 8 * n) : byteBit ((data.drop p).take n) i = byteBit data (8 * p + i) := by
 have hidx : (8 * p + i) / 8 = p + i / 8 := by omega
 have hbit : (8 * p + i) % 8 = i % 8 := by omega
 rw [byteBit, byteBit, getElem?_take_of_lt (by omega), getElem?_drop, hidx, hbit]

section

variable (h : p + bytes.length ≤ data.length)

include h

theorem length_splice : (splice data p bytes).length = data.length := by
 rw [splice, length_append, length_append, length_take, length_drop]
 omega

theorem byteBit_splice_in (hlo : 8 * p ≤ i) (hhi : i < 8 * (p + bytes.length)) :
  byteBit (splice data p bytes) i = byteBit bytes (i - 8 * p) := by
 have htake : (data.take p).length = p := by rw [length_take]; omega
 rw [splice, byteBit_append_right (by omega), htake, byteBit_append_left (by omega)]

theorem byteBit_splice_out (hout : i < 8 * p ∨ 8 * (p + bytes.length) ≤ i) :
  byteBit (splice data p bytes) i = byteBit data i := by
 have htake : (data.take p).length = p := by rw [length_take]; omega
 have hsplit : data = data.take p ++ data.drop p := (take_append_drop p data).symm
 rcases hout with hlo | hhi
 · rw [splice, byteBit_append_left (by omega)]
   conv_rhs => rw [hsplit]
   rw [byteBit_append_left (by omega)]
 · rw [splice, byteBit_append_right (by omega), htake, byteBit_append_right (by omega)]
   have hdrop : (data.take (p + bytes.length)).length = p + bytes.length := by rw [length_take]; omega
   conv_rhs => rw [← take_append_drop (p + bytes.length) data]
   rw [byteBit_append_right (by omega), hdrop]
   congr 1
   omega

end

/-- The word of an instruction's bytes has their bits. -/
theorem getLsbD_ofLeBytes_eq (h : bytes.length ≤ 16) : (ofLeBytes bytes).getLsbD i = byteBit bytes i := by
 rw [ofLeBytes, take_of_length_le h, Bool.eq_iff_iff, getLsbD_foldl_bytes]
 constructor
 · rintro (hset | ⟨-, ⟨byte, k⟩, hmem, hlo, hbit⟩)
   · simp at hset
   · dsimp only at hlo hbit
     have hbyte := mem_zipIdx_iff_getElem?.1 hmem
     have hlt : i - 8 * k < 8 := by
      by_contra hge
      rw [BitVec.getLsbD_of_ge _ _ (not_lt.1 hge)] at hbit
      cases hbit
     have hidx : i / 8 = k := by omega
     have hmod : i % 8 = i - 8 * k := by omega
     rw [byteBit, hidx, hbyte, hmod]
     exact hbit
 · intro hbit
   have hlt : i < 8 * bytes.length := by
    by_contra hge
    rw [byteBit_past (not_lt.1 hge)] at hbit
    cases hbit
   have hidx : i / 8 < bytes.length := by omega
   have hget := List.getElem?_eq_getElem hidx
   refine Or.inr ⟨by omega, (_, i / 8), mem_zipIdx_iff_getElem?.2 hget, by dsimp only; omega, ?_⟩
   have hmod : i - 8 * (i / 8) = i % 8 := by omega
   rw [byteBit, hget] at hbit
   rw [hmod]
   exact hbit

theorem byteBit_leBytes {word : BitVec 128} {count : Nat} (h : i < 8 * count) : byteBit (leBytes word count) i = word.getLsbD i := by
 have hlt : i / 8 < count := by omega
 rw [byteBit, leBytes, getElem?_map, getElem?_range hlt, Option.map_some, Option.getD_some,
  BitVec.getLsbD_extractLsb', decide_eq_true (by omega : i % 8 < 8), Bool.true_and, Nat.div_add_mod]

/-! ## Patching -/

/-- A value that a patch does not refuse. -/
structure Accepts (field : PatchField) (value : BitVec 64) : Prop where
 range : ∀ min max, field.range = some (min, max) → min ≤ value.toInt ∧ value.toInt < max
 dropped : value.signExtend 128 &&& field.droppedMask = 0

/-- Patching sets the bits of the value in the field and keeps every other one. -/
theorem patchWith_spec {patched : List Byte} {value : BitVec 64} {field : PatchField} (hlen : bytes.length ≤ 16)
  (h : patchWith bytes value field = some patched) : Accepts field value ∧ patched.length = bytes.length ∧
   (∀ run ∈ field.runs, run.wordLo + run.width ≤ 8 * bytes.length) ∧
   ∀ j < 8 * bytes.length, (byteBit patched j = true ↔ byteBit bytes j = true ∨
    ∃ run ∈ field.runs, run.Covers j ∧ (value.signExtend 128).getLsbD (run.source j) = true) := by
 have hpatched := patchWith_eq h
 rw [min_eq_left hlen, List.drop_eq_nil_of_le hlen, List.append_nil] at hpatched
 have hok := (Option.ite_none_left_eq_some.1 h).1
 simp only [Bool.or_eq_true, not_or, min_eq_left hlen, List.any_eq_true, decide_eq_true_eq, not_exists, not_and, not_lt] at hok
 obtain ⟨⟨hrng, hdropped⟩, hruns⟩ := hok
 refine ⟨⟨?_, Decidable.of_not_not hdropped⟩, by rw [hpatched, length_leBytes], fun run hrun => ?_, fun j hj => ?_⟩
 · intro min max hsome
   rw [hsome] at hrng
   simp only [Bool.not_eq_true', Bool.not_eq_false, Bool.and_eq_true, decide_eq_true_eq] at hrng
   exact hrng
 · have := hruns run hrun
   omega
 · rw [hpatched, byteBit_leBytes hj, getLsbD_scatter, getLsbD_ofLeBytes_eq hlen]
   apply or_congr_right
   constructor
   · rintro ⟨-, hrun⟩
     exact hrun
   · intro hrun
     exact ⟨by omega, hrun⟩

/-! ## Reading a field -/

/-- The operand bits of a field, gathered from an instruction of any width. -/
def gatherWord (word : BitVec 128) (runs : List FieldRun) : BitVec 128 :=
 runs.foldl (fun value run => value ||| ((word >>> run.wordLo &&& runMask run.width) <<< run.opLo)) 0

theorem getLsbD_gatherWord {word : BitVec 128} {runs : List FieldRun} : (gatherWord word runs).getLsbD i = true ↔
  i < 128 ∧ ∃ run ∈ runs, (run.opLo ≤ i ∧ i < run.opLo + run.width) ∧ word.getLsbD (run.wordLo + (i - run.opLo)) = true := by
 rw [gatherWord, getLsbD_foldl_union fun run => (word >>> run.wordLo &&& runMask run.width) <<< run.opLo]
 have hone : ∀ run : FieldRun, ((word >>> run.wordLo &&& runMask run.width) <<< run.opLo).getLsbD i = true ↔
   i < 128 ∧ (run.opLo ≤ i ∧ i < run.opLo + run.width) ∧ word.getLsbD (run.wordLo + (i - run.opLo)) = true := by
  intro run
  simp only [BitVec.getLsbD_shiftLeft, BitVec.getLsbD_and, BitVec.getLsbD_ushiftRight, getLsbD_runMask, Bool.and_eq_true,
   Bool.not_eq_true', decide_eq_true_iff, decide_eq_false_iff_not]
  constructor
  · rintro ⟨⟨hi, hlo⟩, hbit, hin, -⟩
    exact ⟨hi, ⟨by omega, by omega⟩, hbit⟩
  · rintro ⟨hi, ⟨hlo, hhi⟩, hbit⟩
    exact ⟨⟨hi, by omega⟩, hbit, by omega, by omega⟩
 simp only [BitVec.ofNat_eq_ofNat, BitVec.getLsbD_zero, Bool.false_eq_true, false_or]
 constructor
 · rintro ⟨run, hrun, hbit⟩
   exact ⟨((hone run).1 hbit).1, run, hrun, ((hone run).1 hbit).2⟩
 · rintro ⟨hi, run, hrun, hbit⟩
   exact ⟨run, hrun, (hone run).2 ⟨hi, hbit⟩⟩

/-- The operand bits that a field spells, from bit zero on. -/
def fieldWidth (runs : List FieldRun) : Nat :=
 (runs.map fun run => run.opLo + run.width).max?.getD 0

/-- What the processor reads in a field: its bits as a signed number. -/
def readField (bytes : List Byte) (field : PatchField) : Int :=
 ((gatherWord (ofLeBytes bytes) field.runs).setWidth (fieldWidth field.runs)).toInt

/-- A patch field as the table generator writes it: its range is that of the bits spelled, and an operand bit
that is not spelled has to be zero. -/
structure Exact (field : PatchField) : Prop where
 width : fieldWidth field.runs ≤ 128
 range : match field.range with
  | some (min, max) => -(2 ^ (fieldWidth field.runs - 1)) ≤ min ∧ max ≤ (2 ^ (fieldWidth field.runs - 1) : Int) ∧ 0 < fieldWidth field.runs
  | none => 64 ≤ fieldWidth field.runs
 spelled : ∀ j < fieldWidth field.runs, field.droppedMask.getLsbD j = true ∨ ∃ run ∈ field.runs, run.opLo ≤ j ∧ j < run.opLo + run.width

variable {field : PatchField} {value : BitVec 64} (hexact : Exact field) (h : Accepts field value)

include hexact h

/-- A value that is accepted is a signed number of the bits spelled. -/
theorem Exact.bounds : 0 < fieldWidth field.runs ∧
   -(2 ^ (fieldWidth field.runs - 1)) ≤ value.toInt ∧ value.toInt < (2 ^ (fieldWidth field.runs - 1) : Int) := by
 have hrng := hexact.range
 split at hrng
 · rename_i min max hsome
   obtain ⟨hlow, hhigh⟩ := h.range min max hsome
   exact ⟨hrng.2.2, hrng.1.trans hlow, hhigh.trans_le hrng.2.1⟩
 · have hpow : (2 ^ 63 : Int) ≤ 2 ^ (fieldWidth field.runs - 1) := by
    exact_mod_cast Nat.pow_le_pow_right (by decide : 0 < 2) (by omega : 63 ≤ fieldWidth field.runs - 1)
   have hlow := BitVec.le_toInt value
   have hhigh := BitVec.toInt_lt (x := value)
   exact ⟨by omega, by omega, by omega⟩

/-- **A field that holds the bits of a value it accepts reads as that value.** -/
theorem read_eq (hlen : bytes.length ≤ 16)
  (hbits : ∀ run ∈ field.runs, ∀ j, run.Covers j → byteBit bytes j = (value.signExtend 128).getLsbD (run.source j)) :
  readField bytes field = value.toInt := by
 obtain ⟨hpos, hlow, hhigh⟩ := hexact.bounds h
 have hword : (gatherWord (ofLeBytes bytes) field.runs).setWidth (fieldWidth field.runs) =
   (value.signExtend 128).setWidth (fieldWidth field.runs) := by
  apply BitVec.eq_of_getLsbD_eq
  intro j hj
  have hlt : j < 128 := hj.trans_le hexact.width
  have hone : ∀ run ∈ field.runs, run.opLo ≤ j ∧ j < run.opLo + run.width →
    (ofLeBytes bytes).getLsbD (run.wordLo + (j - run.opLo)) = (value.signExtend 128).getLsbD j := by
   intro run hrun hin
   have hcov : run.Covers (run.wordLo + (j - run.opLo)) := ⟨by omega, by omega⟩
   have hsrc : run.source (run.wordLo + (j - run.opLo)) = j := by rw [FieldRun.source]; omega
   rw [getLsbD_ofLeBytes_eq hlen, hbits run hrun _ hcov, hsrc]
  rw [BitVec.getLsbD_setWidth, BitVec.getLsbD_setWidth, decide_eq_true hj, Bool.true_and, Bool.true_and, Bool.eq_iff_iff,
   getLsbD_gatherWord]
  constructor
  · rintro ⟨-, run, hrun, hin, hbit⟩
    rwa [hone run hrun hin] at hbit
  · intro hbit
    rcases hexact.spelled j hj with hdropped | ⟨run, hrun, hin⟩
    · have hzero := congrArg (fun w : BitVec 128 => w.getLsbD j) h.dropped
      simp only [BitVec.getLsbD_and, hbit, hdropped, Bool.and_self] at hzero
      exact absurd hzero (by simp)
    · exact ⟨hlt, run, hrun, hin, by rw [hone run hrun hin]; exact hbit⟩
 have hcast : ((value.signExtend 128).setWidth (fieldWidth field.runs)).toInt = value.toInt := by
  have hdvd : 2 ^ fieldWidth field.runs ∣ 2 ^ 128 := Nat.pow_dvd_pow 2 hexact.width
  have htwice : (2 ^ fieldWidth field.runs : Int) = 2 ^ (fieldWidth field.runs - 1) * 2 := by
   rw [← pow_succ, Nat.sub_add_cancel hpos]
  rw [BitVec.toInt_setWidth, ← bmod_bmod_of_dvd hdvd, ← BitVec.toInt_eq_toNat_bmod,
   BitVec.toInt_signExtend_of_le (by decide)]
  apply bmod_eq_of_le_mul_two
  · push_cast
    omega
  · push_cast
    omega
 rw [readField, hword, hcast]

end Tir.Backend.Writer
