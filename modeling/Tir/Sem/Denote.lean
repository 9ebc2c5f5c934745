import Tir.Sem.Axiom

/-!
# What the operators denote

`Denotes` reads the value of a tree as a bit vector of a width known beforehand; each operator of the limb
rules has the bit-vector operation it is named after.
-/

open Option BitVec Nat Bool

namespace Tir.Sem

open Tir.Adt Tir.Lang APInt ScalarOp

/-- A value is a bit vector, whatever its signedness. -/
def Denotes {w : Nat} (value : Option APInt) (bits : BitVec w) : Prop :=
 ∃ hpos signed, value = some ⟨w, hpos, signed, bits⟩

/-- A value is a number of an immediate. -/
def Carries (value : Option APInt) (n : Nat) : Prop :=
 ∃ immediate, value = some immediate ∧ immediate.toU64 = n

variable {widths : Widths} {captures : Nat → APInt} {w : Nat} {x y z : AxNode} {p q : BitVec w}

theorem Denotes.pos (h : Denotes (x.eval widths captures) p) : 0 < w :=
 h.elim fun hpos _ => hpos

/-! ## Leaves -/

theorem denotes_hole (widths : Widths) {index : Nat} (h : (captures index).width = w) :
  ∃ p : BitVec w, Denotes ((AxNode.hole index).eval widths captures) p := by
 subst h
 exact ⟨(captures index).bits, (captures index).width_pos, (captures index).signed, rfl⟩

variable {v : Nat} {value : WidthExpr} {kind : SymKind} {a b : APInt} {hpos : 0 < w} {s : Bool}

theorem denotes_const {width : WidthExpr} (hval : value.eval widths = some v)
  (hwid : width.eval widths = some w) (hpos : 0 < w) :
  Denotes ((AxNode.const value (.explicit width)).eval widths captures) (BitVec.ofNat w v) := by
 refine ⟨hpos, false, ?_⟩
 simp [AxNode.eval, hval, hwid, APInt.new, hpos]

theorem carries_register (hval : value.eval widths = some v) (hlt : v < 2 ^ 64) :
  Carries ((AxNode.const value .register).eval widths captures) v := by
 refine ⟨⟨64, by decide, false, BitVec.ofNat 64 v⟩, ?_, ?_⟩
 · simp only [AxNode.eval, hval, APInt.new, bind_eq_bind, bind_some]
   rfl
 · rw [APInt.toU64, toNat_ofNat, mod_mod, mod_eq_of_lt hlt]

/-! ## Operands -/

theorem eval_unary {value : APInt} (hx : x.eval widths captures = some value) :
  (AxNode.unary kind x).eval widths captures = opValue kind [value] := by
 simp [AxNode.eval, hx]

section

variable (hx : x.eval widths captures = some a) (hy : y.eval widths captures = some b)

include hx hy

theorem eval_binary
  : (AxNode.binary kind x y).eval widths captures = opValue kind [a, b] := by
 simp [AxNode.eval, hx, hy]

theorem eval_ternary {c : APInt} (hz : z.eval widths captures = some c) :
  (AxNode.ternary kind x y z).eval widths captures = opValue kind [a, b, c] := by
 simp [AxNode.eval, hx, hy, hz]

end

theorem coerceInts_same {hpos' : 0 < w} {s' : Bool} :
  coerceInts ⟨w, hpos, s, p⟩ ⟨w, hpos', s', q⟩ = some (⟨w, hpos, s, p⟩, ⟨w, hpos', s', q⟩) := by
 simp [coerceInts, widen]

/-! ## The integer table -/

theorem withSigned_eq_iff {hpos' : 0 < w} {s' : Bool} :
  (⟨w, hpos, s, p⟩ : APInt).withSigned false = (⟨w, hpos', s', q⟩ : APInt).withSigned false ↔ p = q := by
 constructor
 · intro h
   injection h
 · rintro rfl
   rfl

/-- A shift amount is the number, cut to the width. -/
theorem shiftAmount_eq (hlt : w < 2 ^ 64) : shiftAmount ⟨w, hpos, s, q⟩ w = min q.toNat w := by
 rw [shiftAmount, countLeadingZeros, toU64]
 dsimp only
 have hsize : q.toNat.size ≤ w := size_le.2 q.isLt
 split
 · -- more than 64 bits hold a number past every width
   have hbig : 2 ^ 64 ≤ q.toNat := lt_size.1 (by omega)
   omega
 · have hsmall : q.toNat < 2 ^ 64 := size_le.1 (by omega)
   rw [mod_eq_of_lt hsmall]

/-- Shifting the sign in stops at the width. -/
theorem sshiftRight_min (a : BitVec w) (amount : Nat) : a.sshiftRight (min amount w) = a.sshiftRight amount := by
 apply eq_of_getLsbD_eq
 intro i hi
 rw [getLsbD_sshiftRight, getLsbD_sshiftRight]
 rcases le_total amount w with hle | hle
 · rw [min_eq_left hle]
 grind

section Table

variable (hx : Denotes (x.eval widths captures) p) (hy : Denotes (y.eval widths captures) q)

include hx

theorem denotes_neg : Denotes ((AxNode.unary .neg x).eval widths captures) (-p) := by
 obtain ⟨hpos, s, heval⟩ := hx
 exact ⟨hpos, s, eval_unary heval⟩

theorem denotes_not : Denotes ((AxNode.unary .not x).eval widths captures) (~~~p) := by
 obtain ⟨hpos, s, heval⟩ := hx
 exact ⟨hpos, s, eval_unary heval⟩

include hy

/-- An entry of the table on operands of one width. -/
theorem denotes_table {kind : SymKind} {width : WidthRule} {eval : EvalRule} {v : Nat} {r : BitVec v}
  (hop : scalarOp kind = some ⟨2, width, eval⟩)
  (h : ∀ hpos s hpos' s', Denotes (ScalarOp.evalBinary ⟨2, width, eval⟩ ⟨w, hpos, s, p⟩ ⟨w, hpos', s', q⟩) r) :
  Denotes ((AxNode.binary kind x y).eval widths captures) r := by
 obtain ⟨hpos, s, heval⟩ := hx
 obtain ⟨hpos', s', heval'⟩ := hy
 rw [eval_binary heval heval']
 simp only [opValue, hop]
 exact h hpos s hpos' s'

theorem denotes_add : Denotes ((AxNode.binary .add x y).eval widths captures) (p + q) := by
 apply denotes_table hx hy rfl
 intro hpos s hpos' s'
 refine ⟨hpos, s && s', ?_⟩
 simp [evalBinary, coerceInts_same, bind_eq_bind, bind_some, APInt.add, zipWith]

theorem denotes_sub : Denotes ((AxNode.binary .sub x y).eval widths captures) (p - q) := by
 apply denotes_table hx hy rfl
 intro hpos s hpos' s'
 refine ⟨hpos, s && s', ?_⟩
 simp [evalBinary, coerceInts_same, bind_eq_bind, bind_some, APInt.sub, zipWith, BitVec.cast_eq]

theorem denotes_mul : Denotes ((AxNode.binary .mul x y).eval widths captures) (p * q) := by
 apply denotes_table hx hy rfl
 intro hpos s hpos' s'
 refine ⟨hpos, s && s', ?_⟩
 simp [evalBinary, coerceInts_same, bind_eq_bind, bind_some, APInt.mul, zipWith, BitVec.cast_eq]

theorem denotes_and : Denotes ((AxNode.binary .and x y).eval widths captures) (p &&& q) := by
 apply denotes_table hx hy rfl
 intro hpos s hpos' s'
 refine ⟨hpos, s && s', ?_⟩
 simp [ScalarOp.evalBinary, coerceInts_same, APInt.and, APInt.zipWith]

theorem denotes_or : Denotes ((AxNode.binary .or x y).eval widths captures) (p ||| q) := by
 apply denotes_table hx hy rfl
 intro hpos s hpos' s'
 refine ⟨hpos, s && s', ?_⟩
 simp [ScalarOp.evalBinary, coerceInts_same, APInt.or, APInt.zipWith]

theorem denotes_xor : Denotes ((AxNode.binary .xor x y).eval widths captures) (p ^^^ q) := by
 apply denotes_table hx hy rfl
 intro hpos s hpos' s'
 refine ⟨hpos, s && s', ?_⟩
 simp [ScalarOp.evalBinary, coerceInts_same, APInt.xor, APInt.zipWith]

theorem denotes_ult : Denotes ((AxNode.binary .ult x y).eval widths captures) (ofBool (p.ult q)) := by
 apply denotes_table hx hy rfl
 intro hpos s hpos' s'
 refine ⟨Nat.one_pos, false, ?_⟩
 simp [evalBinary, coerceInts_same, ult, compareWith, boolean]

theorem denotes_ule : Denotes ((AxNode.binary .ule x y).eval widths captures) (ofBool (p.ule q)) := by
 apply denotes_table hx hy rfl
 intro hpos s hpos' s'
 refine ⟨Nat.one_pos, false, ?_⟩
 simp [evalBinary, coerceInts_same, ule, compareWith, boolean]

theorem denotes_ugt : Denotes ((AxNode.binary .ugt x y).eval widths captures) (ofBool (q.ult p)) := by
 apply denotes_table hx hy rfl
 intro hpos s hpos' s'
 refine ⟨Nat.one_pos, false, ?_⟩
 simp [evalBinary, coerceInts_same, ugt, compareWith, boolean]

theorem denotes_uge : Denotes ((AxNode.binary .uge x y).eval widths captures) (ofBool (q.ule p)) := by
 apply denotes_table hx hy rfl
 intro hpos s hpos' s'
 refine ⟨Nat.one_pos, false, ?_⟩
 simp [evalBinary, coerceInts_same, uge, compareWith, boolean]

theorem denotes_lt : Denotes ((AxNode.binary .lt x y).eval widths captures) (ofBool (p.slt q)) := by
 apply denotes_table hx hy rfl
 intro hpos s hpos' s'
 refine ⟨Nat.one_pos, false, ?_⟩
 simp [evalBinary, coerceInts_same, slt, compareWith, boolean]

theorem denotes_le : Denotes ((AxNode.binary .le x y).eval widths captures) (ofBool (p.sle q)) := by
 apply denotes_table hx hy rfl
 intro hpos s hpos' s'
 refine ⟨Nat.one_pos, false, ?_⟩
 simp [evalBinary, coerceInts_same, sle, compareWith, boolean]

theorem denotes_gt : Denotes ((AxNode.binary .gt x y).eval widths captures) (ofBool (q.slt p)) := by
 apply denotes_table hx hy rfl
 intro hpos s hpos' s'
 refine ⟨Nat.one_pos, false, ?_⟩
 simp [evalBinary, coerceInts_same, sgt, compareWith, boolean]

theorem denotes_ge : Denotes ((AxNode.binary .ge x y).eval widths captures) (ofBool (q.sle p)) := by
 apply denotes_table hx hy rfl
 intro hpos s hpos' s'
 refine ⟨Nat.one_pos, false, ?_⟩
 simp [evalBinary, coerceInts_same, sge, compareWith, boolean]

theorem denotes_eq : Denotes ((AxNode.binary .eq x y).eval widths captures) (ofBool (p == q)) := by
 apply denotes_table hx hy rfl
 intro hpos s hpos' s'
 refine ⟨Nat.one_pos, false, ?_⟩
 simp only [evalBinary, coerceInts_same, bind_eq_bind, bind_some, withSigned_eq_iff, boolean]
 rfl

theorem denotes_ne : Denotes ((AxNode.binary .ne x y).eval widths captures) (ofBool (p != q)) := by
 apply denotes_table hx hy rfl
 intro hpos s hpos' s'
 refine ⟨Nat.one_pos, false, ?_⟩
 simp only [evalBinary, coerceInts_same, bind_eq_bind, bind_some, ne_eq, withSigned_eq_iff, boolean,
  bne, decide_not]
 rfl

theorem denotes_shl (hlt : w < 2 ^ 64) : Denotes ((AxNode.binary .shiftLeft x y).eval widths captures) (p <<< q.toNat) := by
 apply denotes_table hx hy rfl
 intro hpos s hpos' s'
 simp only [evalBinary, coerceInts_same, bind_eq_bind, bind_some, shiftAmount_eq hlt, shl]
 split
 · rename_i hle
   have hzero : p <<< q.toNat = 0 := shiftLeft_eq_zero (by omega)
   exact ⟨hpos, false, by rw [hzero]; rfl⟩
 · rename_i hle
   rw [Nat.min_eq_left (by omega)]
   exact ⟨hpos, s, rfl⟩

theorem denotes_lshr (hlt : w < 2 ^ 64) :
  Denotes ((AxNode.binary .shiftRightLogic x y).eval widths captures) (p >>> q.toNat) := by
 apply denotes_table hx hy rfl
 intro hpos s hpos' s'
 simp only [evalBinary, coerceInts_same, bind_eq_bind, bind_some, shiftAmount_eq hlt, lshr]
 split
 · rename_i hle
   have hzero : p >>> q.toNat = 0 := ushiftRight_eq_zero (by omega)
   exact ⟨hpos, false, by rw [hzero]; rfl⟩
 · rename_i hle
   rw [Nat.min_eq_left (by omega)]
   exact ⟨hpos, false, rfl⟩

theorem denotes_ashr (hlt : w < 2 ^ 64) :
  Denotes ((AxNode.binary .shiftRightArithmetic x y).eval widths captures) (p.sshiftRight q.toNat) := by
 apply denotes_table hx hy rfl
 intro hpos s hpos' s'
 simp only [evalBinary, coerceInts_same, bind_eq_bind, bind_some, shiftAmount_eq hlt, ashr,
  isNegative, withSigned, Bool.true_and]
 split
 · rename_i hzero
   have hq : q.toNat = 0 := by omega
   exact ⟨hpos, true, by rw [hq, sshiftRight_zero]⟩
 · split
   · rename_i hmsb
     exact ⟨hpos, true, by rw [sshiftRight_min]⟩
   · rename_i hmsb
     rw [sshiftRight_eq_of_msb_false (eq_false_of_not_eq_true hmsb), lshr]
     dsimp only
     split
     · rename_i hle
       have hzero : p >>> q.toNat = 0 := ushiftRight_eq_zero (by omega)
       exact ⟨hpos, false, by rw [hzero]; rfl⟩
     · rename_i hle
       rw [Nat.min_eq_left (by omega)]
       exact ⟨hpos, false, rfl⟩

end Table

/-! ## Past the table -/

theorem append_eq (a : BitVec w) (b : BitVec v) :
  a.setWidth (w + v) <<< v ||| b.setWidth (w + v) = a ++ b := by
 apply eq_of_getLsbD_eq
 intro i hi
 rw [getLsbD_append, getLsbD_or, getLsbD_shiftLeft, getLsbD_setWidth, getLsbD_setWidth,
  decide_eq_true hi]
 by_cases hlt : i < v
 · simp [- getLsbD_eq_getElem, hlt]
 grind

theorem widen_isSome (value : APInt) (width : Nat) : ∃ wide, widen value width = some wide := by
 rw [widen]
 split
 · exact ⟨value, rfl⟩
 · rename_i hlt
   have hle : value.width ≤ width := by omega
   rw [APInt.signExtend, APInt.zeroExtend, dif_pos hle, dif_pos hle]
   split
   · exact ⟨_, rfl⟩
   · exact ⟨_, rfl⟩

theorem coerceInts_isSome : ∃ both, coerceInts a b = some both := by
 obtain ⟨wide, hwide⟩ := widen_isSome a (max a.width b.width)
 obtain ⟨wide', hwide'⟩ := widen_isSome b (max a.width b.width)
 exact ⟨(wide, wide'), by simp [coerceInts, hwide, hwide']⟩

theorem denotes_concat {r : BitVec v} (hx : Denotes (x.eval widths captures) p)
  (hy : Denotes (y.eval widths captures) r) : Denotes ((AxNode.binary .concat x y).eval widths captures) (p ++ r) := by
 obtain ⟨hpos, s, heval⟩ := hx
 obtain ⟨hpos', s', heval'⟩ := hy
 obtain ⟨both, hboth⟩ := coerceInts_isSome (a := ⟨w, hpos, s, p⟩) (b := ⟨v, hpos', s', r⟩)
 have hsum : 0 < w + v := by omega
 have hshl : (⟨w + v, hsum, false, p.setWidth (w + v)⟩ : APInt).shl v = ⟨w + v, hsum, false, p.setWidth (w + v) <<< v⟩ :=
  if_neg (by dsimp only; omega)
 refine ⟨hsum, false, ?_⟩
 rw [eval_binary heval heval']
 simp only [opValue, scalarOp, ScalarOp.evalInt, ScalarOp.evalBinary, hboth, bind_eq_bind, bind_some, if_true,
  APInt.zeroExtend, Nat.le_add_right, Nat.le_add_left, dite_true]
 rw [hshl]
 simp [APInt.or, APInt.zipWith, BitVec.cast_eq, append_eq, Bool.and_self]

theorem denotes_ite {r : BitVec v} (hz : Denotes (z.eval widths captures) r) (hx : Denotes (x.eval widths captures) p)
  (hy : Denotes (y.eval widths captures) q) :
  Denotes ((AxNode.ternary .ite z x y).eval widths captures) (if r = 0 then q else p) := by
 obtain ⟨hpos, s, heval⟩ := hz
 obtain ⟨hpos', s', heval'⟩ := hx
 obtain ⟨hpos'', s'', heval''⟩ := hy
 have hzero : (⟨v, hpos, s, r⟩ : APInt).isZero = true ↔ r = 0 := by
  rw [isZero, beq_iff_eq, ← toNat_inj]
  simp
 rw [eval_ternary heval heval' heval'']
 simp only [opValue, scalarOp, hzero]
 split
 · exact ⟨hpos'', s'', rfl⟩
 · exact ⟨hpos', s', rfl⟩

/-- A choice on a truth value. -/
theorem denotes_ite_ofBool {b : Bool} (hz : Denotes (z.eval widths captures) (ofBool b))
  (hx : Denotes (x.eval widths captures) p) (hy : Denotes (y.eval widths captures) q) :
  Denotes ((AxNode.ternary .ite z x y).eval widths captures) (if b then p else q) := by
 grind [denotes_ite]

section

variable (hx : Denotes (x.eval widths captures) p) (hy : Carries (y.eval widths captures) v) (hle : w ≤ v)

include hx hy hle

theorem denotes_zext
  : Denotes ((AxNode.binary .zext x y).eval widths captures) (p.setWidth v) := by
 obtain ⟨hpos, s, heval⟩ := hx
 obtain ⟨immediate, heval', rfl⟩ := hy
 refine ⟨by omega, false, ?_⟩
 rw [eval_binary heval heval']
 simp [opValue, scalarOp, APInt.zeroExtend, dif_pos hle]

theorem denotes_sext
  : Denotes ((AxNode.binary .sext x y).eval widths captures) (p.signExtend v) := by
 obtain ⟨hpos, s, heval⟩ := hx
 obtain ⟨immediate, heval', rfl⟩ := hy
 refine ⟨by omega, true, ?_⟩
 rw [eval_binary heval heval']
 simp only [opValue, scalarOp, APInt.withSigned, APInt.signExtend, dif_pos hle, APInt.isNegative, Bool.true_and]
 split
 · rfl
 · rename_i hmsb
   rw [signExtend_eq_setWidth_of_msb_false (eq_false_of_not_eq_true hmsb)]

end

theorem denotes_extract {hi lo n : Nat} (hx : Denotes (x.eval widths captures) p) (hy : Carries (y.eval widths captures) hi)
  (hz : Carries (z.eval widths captures) lo) (hn : 0 < n) (hhi : hi + 1 = lo + n) (hle : lo + n ≤ w) :
  Denotes ((AxNode.ternary .extract x y z).eval widths captures) (p.extractLsb' lo n) := by
 obtain ⟨hpos, s, heval⟩ := hx
 obtain ⟨high, heval', rfl⟩ := hy
 obtain ⟨low, heval'', rfl⟩ := hz
 obtain rfl : n = high.toU64 - low.toU64 + 1 := by omega
 refine ⟨hn, false, ?_⟩
 have hbytes : 0 < 8 * ((w + 7) / 8) := by omega
 have hin : low.toU64 ≤ high.toU64 ∧ high.toU64 < 8 * ((w + 7) / 8) := by omega
 have hbits : (p.setWidth (8 * ((w + 7) / 8))).extractLsb' low.toU64 (high.toU64 - low.toU64 + 1) =
   p.extractLsb' low.toU64 (high.toU64 - low.toU64 + 1) := by
  grind
 have hraw : (RawBits.fromAPInt ⟨w, hpos, s, p⟩).toAPInt =
   some ⟨8 * ((w + 7) / 8), hbytes, false, p.setWidth (8 * ((w + 7) / 8))⟩ := dif_pos hbytes
 rw [eval_ternary heval heval' heval'']
 simp [opValue, scalarOp, hraw, extractBits, if_pos hin, hbits]

end Tir.Sem
