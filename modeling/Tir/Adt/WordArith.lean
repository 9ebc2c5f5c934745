import Tir.Basic.Words
import Mathlib.Tactic.Linarith

/-!
# Arithmetic on the limbs of a wide integer

The functions on 64-bit limbs, least significant first, that carry the integers wider than one word. Each is
followed by what it does to the number its limbs spell, at the length the limbs have.
-/

open List BitVec Bool Nat

namespace Tir.Adt.Limbs

open Tir.Words

abbrev Word : Type := BitVec 64

/-- The words the bits of `width` take. -/
def limbCount (width : Nat) : Nat := (width + 63) / 64

/-! ## Sums and differences -/

/-- Each word's sum with the carry into it; a carry leaves where either addition overflows. -/
def addCarry : Bool → List Word → List Word → List Word
 | carry, a :: as, b :: bs =>
  let sum := a + b
  let first := decide (2 ^ 64 ≤ a.toNat + b.toNat)
  let total := sum + (BitVec.ofBool carry).setWidth 64
  let second := decide (2 ^ 64 ≤ sum.toNat + carry.toNat)
  total :: addCarry (first || second) as bs
 | _, _, _ => []

def addWords (a b : List Word) : List Word := addCarry false a b

/-- Each word's difference with the borrow from it; a borrow leaves where either subtraction overflows. -/
def subBorrow : Bool → List Word → List Word → List Word
 | borrow, a :: as, b :: bs =>
  let difference := a - b
  let first := decide (a.toNat < b.toNat)
  let total := difference - (BitVec.ofBool borrow).setWidth 64
  let second := decide (difference.toNat < borrow.toNat)
  total :: subBorrow (first || second) as bs
 | _, _, _ => []

def subWords (a b : List Word) : List Word := subBorrow false a b

theorem length_subBorrow (borrow : Bool) (a b : List Word) : (subBorrow borrow a b).length = min a.length b.length := by
 induction a generalizing borrow b with
 | nil => simp [subBorrow]
 | cons a as ih =>
  cases b with
  | nil => simp [subBorrow]
  | cons b bs => simp only [subBorrow, length_cons, ih, succ_min_succ]

theorem toNat_flag (flag : Bool) : ((BitVec.ofBool flag).setWidth 64).toNat = flag.toNat := by
 cases flag <;> rfl

/-- What one word hands to the next: the low word of a sum stays, the rest is carried. -/
theorem carry_step (r q M : Nat) : r % 2 ^ 64 + 2 ^ 64 * ((q + r / 2 ^ 64) % M) = (r + 2 ^ 64 * q) % (2 ^ 64 * M) := by
 rw [mod_mul, add_mul_mod_self_left, add_mul_div_left _ _ (by decide), add_comm q]

theorem pow_succ_words (n : Nat) : 2 ^ (64 * (n + 1)) = 2 ^ 64 * 2 ^ (64 * n) := by
 rw [Nat.mul_succ, pow_add, mul_comm]

variable {a b : List Word}

theorem value_addCarry (carry : Bool) (hlen : a.length = b.length) :
  value (addCarry carry a b) = (value a + value b + carry.toNat) % 2 ^ (64 * a.length) := by
 induction a generalizing b carry with
 | nil =>
  cases b with
  | nil => rw [length_nil, Nat.mul_zero, Nat.pow_zero, Nat.mod_one]; rfl
  | cons b bs => nomatch hlen
 | cons a as ih =>
  cases b with
  | nil => nomatch hlen
  | cons b bs =>
   have hflag : carry.toNat ≤ 1 := toNat_le carry
   -- Only one of the two additions of a word can overflow.
   have htotal : (a + b + (BitVec.ofBool carry).setWidth 64).toNat = (a.toNat + b.toNat + carry.toNat) % 2 ^ 64 := by
    rw [toNat_add, toNat_add, toNat_flag, Nat.mod_add_mod]
   have hcarry : (decide (2 ^ 64 ≤ a.toNat + b.toNat) || decide (2 ^ 64 ≤ (a + b).toNat + carry.toNat)).toNat
     = (a.toNat + b.toNat + carry.toNat) / 2 ^ 64 := by
    rw [toNat_add]
    by_cases hfst : 2 ^ 64 ≤ a.toNat + b.toNat
    · simp only [hfst, decide_true, Bool.true_or, toNat_true]
      omega
    · rw [decide_eq_false hfst, Bool.false_or, Nat.mod_eq_of_lt (by omega)]
      by_cases hsnd : 2 ^ 64 ≤ a.toNat + b.toNat + carry.toNat
      · rw [decide_eq_true hsnd, toNat_true]
        omega
      · rw [decide_eq_false hsnd, toNat_false]
        omega
   simp only [addCarry, value_cons, length_cons]
   rw [ih _ (Nat.succ.inj hlen), htotal, hcarry, carry_step, pow_succ_words]
   congr 1
   ring

theorem value_addWords (hlen : a.length = b.length) :
  value (addWords a b) = (value a + value b) % 2 ^ (64 * a.length) :=
 value_addCarry false hlen

theorem value_subBorrow (borrow : Bool) (hlen : a.length = b.length) :
  ∃ out : Bool, value (subBorrow borrow a b) + value b + borrow.toNat = value a + 2 ^ (64 * a.length) * out.toNat := by
 induction a generalizing b borrow with
 | nil =>
  cases b with
  | nil => exact ⟨borrow, by simp [subBorrow]⟩
  | cons b bs => nomatch hlen
 | cons a as ih =>
  cases b with
  | nil => nomatch hlen
  | cons b bs =>
   obtain ⟨out, hout⟩ := ih (decide (a.toNat < b.toNat) || decide ((a - b).toNat < borrow.toNat)) (Nat.succ.inj hlen)
   refine ⟨out, ?_⟩
   have hflag : borrow.toNat ≤ 1 := toNat_le borrow
   have hword : (a - b - (BitVec.ofBool borrow).setWidth 64).toNat + b.toNat + borrow.toNat = a.toNat
     + 2 ^ 64 * (decide (a.toNat < b.toNat) || decide ((a - b).toNat < borrow.toNat)).toNat := by
    rw [toNat_sub, toNat_flag, toNat_sub]
    by_cases hfst : a.toNat < b.toNat
    · simp only [hfst, decide_true, Bool.true_or, toNat_true]
      omega
    · rw [decide_eq_false hfst, Bool.false_or]
      by_cases hsnd : (2 ^ 64 - b.toNat + a.toNat) % 2 ^ 64 < borrow.toNat
      · rw [decide_eq_true hsnd, toNat_true]
        omega
      · rw [decide_eq_false hsnd, toNat_false]
        omega
   have hrest := congrArg (2 ^ 64 * ·) hout
   simp only [subBorrow, value_cons, length_cons, pow_succ_words, Nat.mul_assoc]
   omega

theorem value_subWords (hlen : a.length = b.length) :
  (value (subWords a b) : Int) = ((value a : Int) - value b) % 2 ^ (64 * a.length) := by
 obtain ⟨out, hout⟩ := value_subBorrow false hlen
 have hlt := value_lt (subWords a b)
 rw [subWords, length_subBorrow, ← hlen, min_self] at hlt
 have hout' : ((value a : Int) - value b) = value (subWords a b) + 2 ^ (64 * a.length) * (-out.toNat : Int) := by
  have hcast : ((value (subBorrow false a b) : Int) + value b) = value a + 2 ^ (64 * a.length) * out.toNat := by
   exact_mod_cast hout
  rw [subWords]
  linarith
 rw [hout', Int.add_mul_emod_self_left]
 symm
 apply Int.emod_eq_of_lt
 · positivity
 · exact_mod_cast hlt

/-! ## Products -/

/-- One row of the product: the limbs of `b` times `a`, added to what stands there. `carry` is the high half of the
last 128-bit sum. -/
def mulRow (a : Word) : Nat → List Word → List Word → List Word
 | carry, b :: bs, p :: ps =>
  let current := a.toNat * b.toNat + p.toNat + carry
  BitVec.ofNat 64 current :: mulRow a (current >>> 64) bs ps
 | _, _, ps => ps

/-- The row of limb `i` starts at word `i` of the product. -/
def addRow (b : List Word) (product : List Word) (row : Word × Nat) : List Word :=
 product.take row.2 ++ mulRow row.1 0 b (product.drop row.2)

/-- The low `a.length` limbs of the product. -/
def mulWords (a b : List Word) : List Word :=
 a.zipIdx.foldl (addRow b) (List.replicate a.length 0)

theorem length_mulRow (a : Word) (carry : Nat) (b product : List Word) :
  (mulRow a carry b product).length = product.length := by
 fun_induction mulRow a carry b product with
 | case1 carry b bs p ps current ih => rw [length_cons, ih, length_cons]
 | case2 carry b ps hnil => rfl

theorem value_mulRow (a : Word) (carry : Nat) {product : List Word} (hlen : product.length ≤ b.length) :
  value (mulRow a carry b product) = (value product + a.toNat * value b + carry) % 2 ^ (64 * product.length) := by
 induction product generalizing b carry with
 | nil => cases b <;> simp [mulRow, mod_one]
 | cons p ps ih =>
  cases b with
  | nil => nomatch hlen
  | cons b bs =>
   simp only [mulRow, value_cons, length_cons, toNat_ofNat]
   rw [ih _ (le_of_succ_le_succ hlen), Nat.shiftRight_eq_div_pow, carry_step, pow_succ_words]
   congr 1
   ring

theorem addRow_spec (b product : List Word) (x : Word) (i : Nat) (hi : i ≤ product.length) (hb : product.length ≤ b.length) :
  (addRow b product (x, i)).length = product.length
   ∧ value (addRow b product (x, i)) = (value product + 2 ^ (64 * i) * (x.toNat * value b)) % 2 ^ (64 * product.length) := by
 have hlow : (product.take i).length = i := length_take_of_le hi
 have hhigh : (product.drop i).length = product.length - i := length_drop
 constructor
 · rw [addRow, length_append, length_mulRow, hlow, hhigh, Nat.add_sub_cancel' hi]
 · have hpow : 2 ^ (64 * product.length) = 2 ^ (64 * i) * 2 ^ (64 * (product.length - i)) := by
    rw [← Nat.pow_add, ← Nat.mul_add, Nat.add_sub_cancel' hi]
   rw [addRow, value_append, hlow, value_mulRow x 0 (by rw [hhigh]; omega), hhigh, value_take, value_drop, hpow, mod_mul,
    add_mul_mod_self_left, add_mul_div_left _ _ (Nat.two_pow_pos _), Nat.add_zero]

/-- After the rows of the first limbs the product is theirs. -/
theorem mulRows_spec (b : List Word) (done rest product : List Word) (n : Nat) (hn : done.length + rest.length = n)
  (hb : n ≤ b.length) (hlen : product.length = n) (hval : value product = value done * value b % 2 ^ (64 * n)) :
  ((rest.zipIdx done.length).foldl (addRow b) product).length = n
    ∧ value ((rest.zipIdx done.length).foldl (addRow b) product) = value (done ++ rest) * value b % 2 ^ (64 * n) := by
 induction rest generalizing done product with
 | nil => exact ⟨hlen, by rw [append_nil]; exact hval⟩
 | cons x rest ih =>
  rw [length_cons] at hn
  obtain ⟨hlen', hval'⟩ := addRow_spec b product x done.length (by omega) (by omega)
  have hstep : value (addRow b product (x, done.length)) = value (done ++ [x]) * value b % 2 ^ (64 * n) := by
   rw [hval', hlen, hval, mod_add_mod, value_append, value_cons, value_nil]
   congr 1
   ring
  have hrest := ih (done ++ [x]) (addRow b product (x, done.length)) (by rw [length_append, length_singleton]; omega)
   (by rw [hlen', hlen]) hstep
  simp_all

theorem value_mulWords (hlen : a.length = b.length) :
  value (mulWords a b) = value a * value b % 2 ^ (64 * a.length) := by
 have hspec := mulRows_spec b [] a (List.replicate a.length 0) a.length (by simp) hlen.le (by simp)
  (by simp [value_replicate_zero])
 exact hspec.2

/-! ## Shifts -/

/-- Each word takes its bits from two neighbours. -/
def shlWords (words : List Word) (shift : Nat) : List Word :=
 (List.range words.length).map fun i =>
  let at' := fun k => if k ≤ i then words.getD (i - k) 0#64 else 0#64
  if shift % 64 = 0 then at' (shift / 64)
  else at' (shift / 64) <<< (shift % 64) ||| at' (shift / 64 + 1) >>> (64 - shift % 64)

def lshrWords (words : List Word) (shift : Nat) : List Word :=
 (List.range words.length).map fun i =>
  let at' := fun k => words.getD (i + k) 0#64
  if shift % 64 = 0 then at' (shift / 64)
  else at' (shift / 64) >>> (shift % 64) ||| at' (shift / 64 + 1) <<< (64 - shift % 64)

section

variable (words : List Word) (shift : Nat)

include words shift

@[simp] theorem length_shlWords : (shlWords words shift).length = words.length := by
  rw [shlWords, length_map, length_range]

theorem value_shlWords :
  value (shlWords words shift) = value words * 2 ^ shift % 2 ^ (64 * words.length) := by
 apply eq_of_testBit_eq
 intro i
 rw [shlWords, testBit_range_map (by decide), testBit_mod_two_pow, testBit_mul_two_pow]
 congr 1
 by_cases hshift : shift ≤ i
 · rw [testBit_value (by decide), decide_eq_true hshift, Bool.true_and]
   by_cases hbits : shift % 64 = 0
   · have hword : (i - shift) / 64 = i / 64 - shift / 64 := by omega
     have hbit : (i - shift) % 64 = i % 64 := by omega
     have hle : shift / 64 ≤ i / 64 := by omega
     simp only [hbits, hword, hbit, hle, if_true]
   · by_cases hlow : i % 64 < shift % 64
     -- The bits below the shift come from the word before.
     · have hword : (i - shift) / 64 = i / 64 - (shift / 64 + 1) := by omega
       have hbit : (i - shift) % 64 = 64 - shift % 64 + i % 64 := by omega
       have hle : shift / 64 + 1 ≤ i / 64 := by omega
       simp_all
     · have hword : (i - shift) / 64 = i / 64 - shift / 64 := by omega
       have hbit : (i - shift) % 64 = i % 64 - shift % 64 := by omega
       have hle : shift / 64 ≤ i / 64 := by omega
       have hin : i % 64 < 64 := mod_lt _ (by decide)
       have hpast : 64 ≤ 64 - shift % 64 + i % 64 := by omega
       simp only [hbits, if_false, getLsbD_or, getLsbD_shiftLeft, getLsbD_ushiftRight, hlow, decide_false,
        Bool.not_false, Bool.and_true, Bool.true_and, hin, decide_true, hle, if_true, hword, hbit,
        getLsbD_of_ge _ _ hpast, Bool.or_false]
 · rw [decide_eq_false hshift, Bool.false_and]
   by_cases hbits : shift % 64 = 0
   · have hle : ¬ shift / 64 ≤ i / 64 := by omega
     simp only [hbits, if_true, hle, if_false, getLsbD_zero]
   · have hle' : ¬ shift / 64 + 1 ≤ i / 64 := by omega
     simp only [hbits, if_false, getLsbD_or, getLsbD_shiftLeft, getLsbD_ushiftRight, hle',
      getLsbD_zero, Bool.or_false]
     by_cases hle : shift / 64 ≤ i / 64
     · grind
     · simp only [hle, if_false, getLsbD_zero, Bool.and_false]

theorem value_lshrWords : value (lshrWords words shift) = value words / 2 ^ shift := by
 apply eq_of_testBit_eq
 intro i
 rw [lshrWords, testBit_range_map (by decide), testBit_div_two_pow]
 by_cases hi : i < 64 * words.length
 · rw [decide_eq_true hi, Bool.true_and, testBit_value (by decide)]
   by_cases hbits : shift % 64 = 0
   · have hword : (i + shift) / 64 = i / 64 + shift / 64 := by omega
     have hbit : (i + shift) % 64 = i % 64 := by omega
     simp [hbits, hword, hbit]
   · have hin : i % 64 < 64 := mod_lt _ (by decide)
     by_cases hlow : i % 64 + shift % 64 < 64
     · have hword : (i + shift) / 64 = i / 64 + shift / 64 := by omega
       have hbit : (i + shift) % 64 = shift % 64 + i % 64 := by omega
       simp_all
     -- The bits the shift moves past the word come from the word above.
     · have hword : (i + shift) / 64 = i / 64 + (shift / 64 + 1) := by omega
       have hbit : (i + shift) % 64 = i % 64 - (64 - shift % 64) := by omega
       have hnot : ¬ i % 64 < 64 - shift % 64 := by omega
       have hpast : 64 ≤ shift % 64 + i % 64 := by omega
       simp only [hbits, if_false, getLsbD_or, getLsbD_shiftLeft, getLsbD_ushiftRight, hnot, decide_false,
        Bool.not_false, Bool.and_true, Bool.true_and, hin, decide_true, hword, hbit, getLsbD_of_ge _ _ hpast, Bool.false_or]
 · have hle : 2 ^ (64 * words.length) ≤ 2 ^ (i + shift) := Nat.pow_le_pow_right (by decide) (by omega)
   rw [decide_eq_false hi, Bool.false_and, testBit_lt_two_pow ((value_lt words).trans_le hle)]

end

/-! ## Comparison -/

/-- The lexicographic order of two lists of words. -/
def cmpLex : List Word → List Word → Ordering
 | [], [] => .eq
 | [], _ :: _ => .lt
 | _ :: _, [] => .gt
 | a :: as, b :: bs => (compare a.toNat b.toNat).then (cmpLex as bs)

/-- The words are compared from the top. -/
def cmpWords (a b : List Word) : Ordering := cmpLex a.reverse b.reverse

theorem cmpLex_append {as bs : List Word} (hlen : as.length = bs.length) (a b : Word) :
  cmpLex (as ++ [a]) (bs ++ [b]) = (cmpLex as bs).then (compare a.toNat b.toNat) := by
 induction as generalizing bs with
 | nil =>
  cases bs with
  | nil => simp [cmpLex]
  | cons b bs => nomatch hlen
 | cons x as ih =>
  cases bs with
  | nil => nomatch hlen
  | cons y bs => rw [List.cons_append, List.cons_append, cmpLex, ih (Nat.succ.inj hlen), cmpLex, Ordering.then_assoc]

theorem compare_digits {B x y r s : Nat} (hr : r < B) (hs : s < B) :
  compare (r + B * x) (s + B * y) = (compare x y).then (compare r s) := by
 rcases Nat.lt_trichotomy x y with hlt | heq | hgt
 · have hmul : B * (x + 1) ≤ B * y := Nat.mul_le_mul_left B hlt
   rw [Nat.mul_succ] at hmul
   rw [Nat.compare_eq_lt.mpr hlt, Nat.compare_eq_lt.mpr (by omega)]
   rfl
 · subst heq
   have hself : compare x x = .eq := Nat.compare_eq_eq.mpr rfl
   rw [hself, Ordering.eq_then]
   simp [Nat.compare_eq_ite_lt]
 · have hmul : B * (y + 1) ≤ B * x := Nat.mul_le_mul_left B hgt
   rw [Nat.mul_succ] at hmul
   rw [Nat.compare_eq_gt.mpr hgt, Nat.compare_eq_gt.mpr (by omega)]
   rfl

theorem cmpWords_eq (hlen : a.length = b.length) : cmpWords a b = compare (value a) (value b) := by
 induction a generalizing b with
 | nil =>
  cases b with
  | nil => rfl
  | cons b bs => nomatch hlen
 | cons a as ih =>
  cases b with
  | nil => nomatch hlen
  | cons b bs =>
   have hrest := ih (Nat.succ.inj hlen)
   rw [cmpWords] at hrest
   rw [cmpWords, reverse_cons, reverse_cons, cmpLex_append (by simpa using hlen), hrest, value_cons, value_cons,
    compare_digits a.isLt b.isLt]

/-! ## Division -/

/-- Bit `bit` of the dividend enters the remainder; the divisor is taken off it where it fits. -/
def divStep (a divisor : List Word) (state : List Word × List Word) (bit : Nat) : List Word × List Word :=
 let shifted := shlWords state.1 1
 let remainder := shifted.modify 0 (· ||| (a.getD (bit / 64) 0#64 >>> (bit % 64) &&& 1#64))
 if cmpWords remainder divisor ≠ .lt then
  (subWords remainder divisor, state.2.modify (bit / 64) (· ||| 1#64 <<< (bit % 64)))
 else (remainder, state.2)

/-- Restoring division, a bit at a time: the quotient and the remainder. The remainder has one limb more than the
operands while it runs. -/
def divremWords (a b : List Word) (width : Nat) : List Word × List Word :=
 let state := (List.range width).reverse.foldl (divStep a (b ++ [0#64]))
  (List.replicate (a.length + 1) 0#64, List.replicate a.length 0#64)
 (state.2, state.1.dropLast)

/-- The state once the bits of `a` from `k` on are divided by `d`. -/
structure Divided (n a d k : Nat) (state : List Word × List Word) : Prop where
 remainder_length : state.1.length = n + 1
 quotient_length : state.2.length = n
 remainder : value state.1 = a / 2 ^ k % d
 quotient : value state.2 = a / 2 ^ k / d * 2 ^ k

theorem toNat_bit (a : List Word) (k : Nat) :
  (a.getD (k / 64) 0#64 >>> (k % 64) &&& 1#64).toNat = value a / 2 ^ k % 2 := by
 have hbit := testBit_value (by decide) a k
 rw [testBit_eq_decide_div_mod_eq] at hbit
 rw [toNat_and, toNat_ushiftRight, Nat.shiftRight_eq_div_pow]
 have hone : (1#64).toNat = 2 ^ 1 - 1 := rfl
 rw [hone, and_two_pow_sub_one_eq_mod, pow_one]
 rw [BitVec.getLsbD, testBit_eq_decide_div_mod_eq, decide_eq_decide] at hbit
 omega

/-- The long division of `A`, one bit after `A / 2`. -/
theorem div_bit (A d : Nat) (hd : 0 < d) :
  (2 * (A / 2 % d) + A % 2 < d → A % d = 2 * (A / 2 % d) + A % 2 ∧ A / d = 2 * (A / 2 / d))
   ∧ (d ≤ 2 * (A / 2 % d) + A % 2 → A % d = 2 * (A / 2 % d) + A % 2 - d ∧ A / d = 2 * (A / 2 / d) + 1) := by
 have hhalf := div_add_mod (A / 2) d
 have hlt := mod_lt (A / 2) hd
 have hA : d * (2 * (A / 2 / d)) + (2 * (A / 2 % d) + A % 2) = A := by
  grind
 constructor
 · intro hfits
   obtain ⟨hq, hr⟩ := (Nat.div_mod_unique hd).mpr ⟨Nat.add_comm _ _ ▸ hA, hfits⟩
   exact ⟨hr, hq⟩
 · intro hpast
   have hA' : 2 * (A / 2 % d) + A % 2 - d + d * (2 * (A / 2 / d) + 1) = A := by
    rw [Nat.mul_succ]
    omega
   obtain ⟨hq, hr⟩ := (Nat.div_mod_unique hd).mpr ⟨hA', by omega⟩
   exact ⟨hr, hq⟩

section DivStep

variable {a b : List Word} {n k : Nat} {state : List Word × List Word}
variable (ha : a.length = n) (hb : b.length = n) (hpos : 0 < value b) (hk : k < 64 * n)

include ha hb hpos hk

theorem divStep_spec (hinv : Divided n (value a) (value b) (k + 1) state) :
  Divided n (value a) (value b) k (divStep a (b ++ [0#64]) state k) := by
 obtain ⟨hrl, hql, hr, hq⟩ := hinv
 have hhalf : value a / 2 ^ (k + 1) = value a / 2 ^ k / 2 := by rw [pow_succ, Nat.div_div_eq_div_mul]
 rw [hhalf] at hr hq
 have hblt : value b < 2 ^ (64 * n) := hb ▸ value_lt b
 have hdivisor : value (b ++ [0#64]) = value b := by rw [value_append]; simp
 have hdlength : (b ++ [0#64]).length = n + 1 := by rw [length_append, length_singleton, hb]
 have hrlt := mod_lt (value a / 2 ^ k / 2) hpos
 -- The spare limb keeps the shifted remainder.
 have hshifted : value (shlWords state.1 1) = 2 * (value a / 2 ^ k / 2 % value b) := by
  have hroom : 2 ^ (64 * (n + 1)) = 2 ^ (64 * n) * 2 ^ 64 := by rw [Nat.mul_succ, pow_add]
  rw [value_shlWords, hrl, hr, pow_one, mul_comm, mod_eq_of_lt]
  rw [hroom]
  omega
 have hentered : value ((shlWords state.1 1).modify 0 (· ||| (a.getD (k / 64) 0#64 >>> (k % 64) &&& 1#64)))
   = 2 * (value a / 2 ^ k / 2 % value b) + value a / 2 ^ k % 2 := by
  have hbit := two_pow_add_eq_or_of_lt (b := value a / 2 ^ k % 2) (i := 1) (by omega) (value a / 2 ^ k / 2 % value b)
  rw [Nat.pow_one] at hbit
  rw [value_or_at _ _ (by rw [length_shlWords, hrl]; omega), hshifted, toNat_bit, Nat.mul_zero, Nat.pow_zero, Nat.mul_one, hbit]
 have hlen : ((shlWords state.1 1).modify 0 (· ||| (a.getD (k / 64) 0#64 >>> (k % 64) &&& 1#64))).length = n + 1 := by
  rw [length_modify, length_shlWords, hrl]
 obtain ⟨hless, hmore⟩ := div_bit (value a / 2 ^ k) (value b) hpos
 simp only [divStep]
 rw [cmpWords_eq (by rw [hlen, hdlength]), hentered, hdivisor]
 split
 next hge =>
  have hle : value b ≤ 2 * (value a / 2 ^ k / 2 % value b) + value a / 2 ^ k % 2 := by
   by_contra hlt
   exact hge (Nat.compare_eq_lt.mpr (not_le.1 hlt))
  obtain ⟨hmod, hdiv⟩ := hmore hle
  refine ⟨?_, ?_, ?_, ?_⟩
  · rw [subWords, length_subBorrow, hlen, hdlength, min_self]
  · rw [length_modify, hql]
  · have hsub := value_subWords (hlen.trans hdlength.symm)
    have hlt := value_lt ((shlWords state.1 1).modify 0 (· ||| (a.getD (k / 64) 0#64 >>> (k % 64) &&& 1#64)))
    rw [hentered] at hsub hlt
    rw [hdivisor, ← Nat.cast_sub hle, Int.emod_eq_of_lt (by positivity) (by exact_mod_cast (sub_le _ _).trans_lt hlt)]
     at hsub
    grind
  · have hword : (1#64 <<< (k % 64)).toNat = 2 ^ (k % 64) := by
     rw [toNat_shiftLeft, Nat.shiftLeft_eq, mod_eq_of_lt]
     · simp
     · simpa using Nat.pow_lt_pow_right (show 1 < 2 by decide) (mod_lt k (show 64 > 0 by decide))
    have hplace : (1#64 <<< (k % 64)).toNat * 2 ^ (64 * (k / 64)) = 2 ^ k := by
     rw [hword, ← pow_add, mod_add_div]
    have hor := two_pow_add_eq_or_of_lt (b := 2 ^ k) (i := k + 1) (Nat.pow_lt_pow_right (by decide) (Nat.lt_succ_self k))
     (value a / 2 ^ k / 2 / value b)
    rw [value_or_at _ _ (by rw [hql]; omega), hplace, hq, mul_comm _ (2 ^ (k + 1)), ← hor, hdiv, pow_succ]
    ring
 next hlt =>
  have hlt' : 2 * (value a / 2 ^ k / 2 % value b) + value a / 2 ^ k % 2 < value b := by
   rw [Classical.not_not] at hlt
   exact Nat.compare_eq_lt.mp hlt
  obtain ⟨hmod, hdiv⟩ := hless hlt'
  refine ⟨hlen, hql, ?_, ?_⟩
  · rw [hentered, hmod]
  grind

theorem divLoop_spec (hinv : Divided n (value a) (value b) (k + 1) state) :
  Divided n (value a) (value b) 0 ((List.range (k + 1)).reverse.foldl (divStep a (b ++ [0#64])) state) := by
 induction k generalizing state with
 | zero => exact divStep_spec ha hb hpos hk hinv
 | succ k ih =>
  rw [range_succ, List.reverse_append, reverse_singleton, singleton_append, foldl_cons]
  exact ih (by omega) (divStep_spec ha hb hpos hk hinv)

end DivStep

/-- Division by a nonzero number, of a number that the bits taken hold. -/
theorem divremWords_spec {width : Nat} (hlen : a.length = b.length) (hwid : width ≤ 64 * a.length)
  (ha : value a < 2 ^ width) (hb : 0 < value b) :
  value (divremWords a b width).1 = value a / value b ∧ value (divremWords a b width).2 = value a % value b := by
 have hstart : Divided a.length (value a) (value b) width
   (List.replicate (a.length + 1) 0#64, List.replicate a.length 0#64) := by
  refine ⟨length_replicate, length_replicate, ?_, ?_⟩
  · rw [value_replicate_zero, div_eq_of_lt ha, zero_mod]
  · rw [value_replicate_zero, div_eq_of_lt ha, Nat.zero_div, Nat.zero_mul]
 have hend : Divided a.length (value a) (value b) 0 ((List.range width).reverse.foldl (divStep a (b ++ [0#64]))
   (List.replicate (a.length + 1) 0#64, List.replicate a.length 0#64)) := by
  cases width with
  | zero => exact hstart
  | succ k => exact divLoop_spec rfl hlen.symm hb (by omega) hstart
 obtain ⟨hrl, hql, hr, hq⟩ := hend
 rw [pow_zero, Nat.div_one] at hr hq
 refine ⟨by rw [divremWords, hq, mul_one], ?_⟩
 have hlt : value a % value b < 2 ^ (64 * a.length) := (mod_lt _ hb).trans (hlen ▸ value_lt b)
 rw [divremWords, dropLast_eq_take, hrl, Nat.add_sub_cancel, value_take, hr, mod_eq_of_lt hlt]

end Tir.Adt.Limbs
