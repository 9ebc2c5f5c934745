import Mathlib.Data.List.Pairwise
import Tir.Backend.Encodings

/-!
# The bits of an encoding

What scattering, gathering and the bytes of a word do to each bit (`getLsbD_scatter`, `getLsbD_gather`,
`getLsbD_ofLeBytes`), and from it that gathering what was scattered is the value cut to the field
(`gather_scatter`).
-/

open List Nat

namespace Tir.Backend.Encodings

variable {i : Nat} {run : FieldRun} {runs : List FieldRun} {word value : BitVec 128}

theorem getLsbD_ones {w n : Nat} (h : n < w) : ((1 : BitVec w) <<< n - 1).getLsbD i = decide (i < n) := by
 have hpow : 2 ^ n < 2 ^ w := Nat.pow_lt_pow_right (by decide) h
 have hunit : (1 : BitVec w).toNat = 1 := by
  rw [BitVec.ofNat_eq_ofNat, BitVec.toNat_ofNat, mod_eq_of_lt (Nat.one_lt_two_pow (by omega))]
 have hone : ((1 : BitVec w) <<< n).toNat = 2 ^ n := by
  rw [BitVec.toNat_shiftLeft, Nat.shiftLeft_eq, hunit, one_mul, mod_eq_of_lt hpow]
 have hpos := Nat.two_pow_pos n
 rw [BitVec.getLsbD, BitVec.toNat_sub_of_le (by rw [BitVec.le_def, hone, hunit]; exact hpos), hone, hunit,
  testBit_two_pow_sub_one]

theorem getLsbD_runMask {width : Nat} : (runMask width).getLsbD i = (decide (i < width) && decide (i < 128)) := by
 rw [runMask]
 split
 · rename_i hle
   rw [BitVec.getLsbD_allOnes]
   by_cases hi : i < 128
   · rw [decide_eq_true (hi.trans_le hle), Bool.true_and]
   · rw [decide_eq_false hi, Bool.and_false]
 · rename_i hlt
   rw [getLsbD_ones (not_le.1 hlt)]
   by_cases hi : i < width
   · rw [decide_eq_true hi, decide_eq_true (by omega), Bool.true_and]
   · rw [decide_eq_false hi, Bool.false_and]

/-! ## Scattering and gathering -/

def FieldRun.Covers (run : FieldRun) (i : Nat) : Prop :=
 run.wordLo ≤ i ∧ i < run.wordLo + run.width

/-- The operand bit that a run puts at a bit of the word. -/
def FieldRun.source (run : FieldRun) (i : Nat) : Nat :=
 run.opLo + (i - run.wordLo)

/-- A union over the runs holds what one of them does. -/
theorem getLsbD_foldl_union {w : Nat} (maskOf : FieldRun → BitVec w) (union : BitVec w) :
  (runs.foldl (fun union run => union ||| maskOf run) union).getLsbD i = true ↔
   union.getLsbD i = true ∨ ∃ run ∈ runs, (maskOf run).getLsbD i = true := by
 induction runs generalizing union with
 | nil => simp
 | cons run runs ih =>
  rw [List.foldl_cons, ih, BitVec.getLsbD_or, Bool.or_eq_true, or_assoc]
  apply or_congr_right
  simp

theorem getLsbD_scatter : (scatter word value runs).getLsbD i = true ↔
  word.getLsbD i = true ∨ i < 128 ∧ ∃ run ∈ runs, run.Covers i ∧ value.getLsbD (run.source i) = true := by
 rw [scatter, getLsbD_foldl_union fun run => (value >>> run.opLo &&& runMask run.width) <<< run.wordLo]
 apply or_congr_right
 have hone : ∀ run : FieldRun, ((value >>> run.opLo &&& runMask run.width) <<< run.wordLo).getLsbD i = true ↔
   i < 128 ∧ run.Covers i ∧ value.getLsbD (run.source i) = true := by
  intro run
  simp only [BitVec.getLsbD_shiftLeft, BitVec.getLsbD_and, BitVec.getLsbD_ushiftRight, getLsbD_runMask, Bool.and_eq_true,
   Bool.not_eq_true', decide_eq_true_iff, decide_eq_false_iff_not, FieldRun.Covers, FieldRun.source]
  constructor
  · grind
  grind
 constructor
 · grind
 grind

theorem getLsbD_gather {word : BitVec 32} : (gather word runs).getLsbD i = true ↔
  i < 64 ∧ ∃ run ∈ runs, (run.opLo ≤ i ∧ i < run.opLo + run.width) ∧ word.getLsbD (run.wordLo + (i - run.opLo)) = true := by
 rw [gather, getLsbD_foldl_union fun run =>
  ((word >>> run.wordLo).setWidth 64 &&& (runMask run.width).setWidth 64) <<< run.opLo]
 have hone : ∀ run : FieldRun,
   (((word >>> run.wordLo).setWidth 64 &&& (runMask run.width).setWidth 64) <<< run.opLo).getLsbD i = true ↔
     i < 64 ∧ (run.opLo ≤ i ∧ i < run.opLo + run.width) ∧ word.getLsbD (run.wordLo + (i - run.opLo)) = true := by
  intro run
  simp only [BitVec.getLsbD_shiftLeft, BitVec.getLsbD_and, BitVec.getLsbD_setWidth, BitVec.getLsbD_ushiftRight,
   getLsbD_runMask, Bool.and_eq_true, Bool.not_eq_true', decide_eq_true_iff, decide_eq_false_iff_not]
  constructor
  · grind
  grind
 simp only [BitVec.ofNat_eq_ofNat, BitVec.getLsbD_zero, Bool.false_eq_true, false_or]
 constructor
 · rintro ⟨run, hrun, hbit⟩
   exact ⟨((hone run).1 hbit).1, run, hrun, ((hone run).1 hbit).2⟩
 grind

/-- The operand bits a field has. -/
def fieldBits (runs : List FieldRun) : BitVec 64 :=
 runs.foldl (fun mask run => mask ||| ((runMask run.width).setWidth 64 <<< run.opLo)) 0

theorem getLsbD_fieldBits : (fieldBits runs).getLsbD i = true ↔
  i < 64 ∧ ∃ run ∈ runs, run.opLo ≤ i ∧ i < run.opLo + run.width := by
 rw [fieldBits, getLsbD_foldl_union fun run => (runMask run.width).setWidth 64 <<< run.opLo]
 simp only [BitVec.ofNat_eq_ofNat, BitVec.getLsbD_zero, Bool.false_eq_true, false_or, BitVec.getLsbD_shiftLeft,
  BitVec.getLsbD_setWidth, getLsbD_runMask, Bool.and_eq_true, Bool.not_eq_true', decide_eq_true_iff,
  decide_eq_false_iff_not]
 constructor
 · grind
 grind

/-- Two runs share no bit of the word. -/
def FieldRun.Apart (a b : FieldRun) : Prop :=
 a.wordLo + a.width ≤ b.wordLo ∨ b.wordLo + b.width ≤ a.wordLo

instance (a b : FieldRun) : Decidable (a.Apart b) :=
 inferInstanceAs (Decidable (_ ∨ _))

instance : Std.Symm FieldRun.Apart :=
 ⟨fun _ _ => Or.symm⟩

theorem FieldRun.not_apart {a b : FieldRun} (ha : a.Covers i) (hb : b.Covers i) : ¬ a.Apart b := by
 have hlow := ha.1
 have hhigh := ha.2
 have hlow' := hb.1
 have hhigh' := hb.2
 rintro (h | h)
 · omega
 · omega

/-- Of runs that are apart one covers a bit. -/
theorem eq_of_covers (hapart : runs.Pairwise FieldRun.Apart) {a b : FieldRun} (ha : a ∈ runs) (hb : b ∈ runs)
  (hai : a.Covers i) (hbi : b.Covers i) : a = b := by
 by_contra hne
 exact FieldRun.not_apart hai hbi (hapart.forall ha hb hne)

/-- Gathering from a word whose bits in the runs are those of a value. -/
theorem gather_eq {word : BitVec 32} (hbits : ∀ run ∈ runs, ∀ i, run.Covers i → word.getLsbD i = value.getLsbD (run.source i)) :
  gather word runs = value.setWidth 64 &&& fieldBits runs := by
 apply BitVec.eq_of_getLsbD_eq
 intro i hi
 rw [Bool.eq_iff_iff, getLsbD_gather, BitVec.getLsbD_and, BitVec.getLsbD_setWidth, Bool.and_eq_true, Bool.and_eq_true,
  getLsbD_fieldBits, decide_eq_true_iff]
 have hone : ∀ run ∈ runs, run.opLo ≤ i ∧ i < run.opLo + run.width →
   word.getLsbD (run.wordLo + (i - run.opLo)) = value.getLsbD i := by
  intro run hrun hin
  rw [hbits run hrun _ ⟨by omega, by omega⟩, FieldRun.source]
  congr 1
  omega
 constructor
 · grind
 grind

/-- **Gathering what was scattered is the value cut to the field.** -/
theorem gather_scatter (hapart : runs.Pairwise FieldRun.Apart) (hin : ∀ run ∈ runs, run.wordLo + run.width ≤ 32)
  (hclear : ∀ run ∈ runs, ∀ i, run.Covers i → word.getLsbD i = false) :
  gather ((scatter word value runs).setWidth 32) runs = value.setWidth 64 &&& fieldBits runs := by
 apply gather_eq
 intro run hrun i hcov
 have hlt : i < 32 := hcov.2.trans_le (hin run hrun)
 rw [BitVec.getLsbD_setWidth, decide_eq_true hlt, Bool.true_and, Bool.eq_iff_iff, getLsbD_scatter, hclear run hrun i hcov]
 constructor
 · rintro (hset | ⟨-, other, hother, hcov', hbit⟩)
   · nomatch hset
   · rwa [eq_of_covers hapart hrun hother hcov hcov']
 grind

/-! ## Bytes -/

theorem length_leBytes {count : Nat} : (leBytes word count).length = count := by
 rw [leBytes, length_map, length_range]

theorem leBytes_congr {word' : BitVec 128} {count : Nat} (h : ∀ i < 8 * count, word.getLsbD i = word'.getLsbD i) :
  leBytes word count = leBytes word' count := by
 apply map_congr_left
 grind

theorem leBytes_inj {word' : BitVec 128} {count : Nat} (h : leBytes word count = leBytes word' count) (hi : i < 8 * count) :
  word.getLsbD i = word'.getLsbD i := by
 have hlt : i / 8 < count := by omega
 have hbyte : (leBytes word count)[i / 8]? = (leBytes word' count)[i / 8]? := by rw [h]
 rw [leBytes, leBytes, getElem?_map, getElem?_map, getElem?_range hlt, Option.map_some, Option.map_some,
  Option.some_inj] at hbyte
 have hbit := congrArg (fun byte : BitVec 8 => byte.getLsbD (i % 8)) hbyte
 simp only [BitVec.getLsbD_extractLsb', div_add_mod, mod_lt i (by decide : 0 < 8), decide_true, Bool.true_and] at hbit
 exact hbit

theorem getLsbD_foldl_bytes {entries : List (BitVec 8 × Nat)} (union : BitVec 128) :
  (entries.foldl (fun (word : BitVec 128) entry => word ||| ((entry.1.setWidth 128 : BitVec 128) <<< (8 * entry.2 : Nat))) union).getLsbD i = true ↔
   union.getLsbD i = true ∨ i < 128 ∧ ∃ entry ∈ entries, 8 * entry.2 ≤ i ∧ entry.1.getLsbD (i - 8 * entry.2) = true := by
 induction entries generalizing union with
 | nil => simp
 | cons entry entries ih =>
  rw [List.foldl_cons, ih, BitVec.getLsbD_or, Bool.or_eq_true, or_assoc]
  apply or_congr_right
  rw [BitVec.getLsbD_shiftLeft, BitVec.getLsbD_setWidth, List.exists_mem_cons_iff]
  simp only [Bool.and_eq_true, Bool.not_eq_true', decide_eq_true_iff, decide_eq_false_iff_not, not_lt]
  constructor
  · rintro (⟨⟨hi, hlo⟩, -, hbit⟩ | ⟨hi, hrest⟩)
    · exact ⟨hi, .inl ⟨hlo, hbit⟩⟩
    · exact ⟨hi, .inr hrest⟩
  · rintro ⟨hi, ⟨hlo, hbit⟩ | hrest⟩
    · exact .inl ⟨⟨hi, hlo⟩, by omega, hbit⟩
    · exact .inr ⟨hi, hrest⟩

/-- The word of the bytes of a word. -/
theorem getLsbD_ofLeBytes {count : Nat} (hle : count ≤ 16) (hi : i < 8 * count) :
  (ofLeBytes (leBytes word count)).getLsbD i = word.getLsbD i := by
 rw [ofLeBytes, take_of_length_le (by rw [length_leBytes]; exact hle), Bool.eq_iff_iff, getLsbD_foldl_bytes]
 have hget : ∀ k < count, (leBytes word count)[k]? = some (word.extractLsb' (8 * k) 8) := by
  intro k hk
  rw [leBytes, getElem?_map, getElem?_range hk, Option.map_some]
 constructor
 · rintro (hset | ⟨-, ⟨byte, k⟩, hmem, hlo, hbit⟩)
   · simp at hset
   grind
 · intro hbit
   have hk : i / 8 < count := by omega
   refine .inr ⟨by omega, (word.extractLsb' (8 * (i / 8)) 8, i / 8), mem_zipIdx_iff_getElem?.2 (hget _ hk),
    by dsimp only; omega, ?_⟩
   have hlt : i - 8 * (i / 8) < 8 := by omega
   rw [BitVec.getLsbD_extractLsb', decide_eq_true hlt, Bool.true_and, add_sub_of_le (by omega)]
   exact hbit

end Tir.Backend.Encodings
