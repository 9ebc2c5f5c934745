import Tir.Adt.WordAPInt
import Tir.Basic.LowBits

/-!
# Wide and narrow integers compute modulo their width

Both paths of every operation against the value of the bits, and the representation of every result.
-/

open List Option BitVec Bool Nat

namespace Tir.Adt.Limbs

open Tir.Words APInt

/-! ## Lengths and masks -/

variable {width : Nat}

theorem limbCount_pos (h : 0 < width) : 0 < limbCount width := by
 rw [limbCount]
 omega

theorem le_limbCount (width : Nat) : width ≤ 64 * limbCount width := by
 rw [limbCount]
 omega

theorem limbCount_mono {wider : Nat} (h : width ≤ wider) : limbCount width ≤ limbCount wider := by
 rw [limbCount, limbCount]
 omega

theorem limbCount_narrow (hpos : 0 < width) (h : width ≤ 64) : limbCount width = 1 := by
 rw [limbCount]
 omega

theorem mod_mod_pow {w k : Nat} (h : w ≤ k) (n : Nat) : n % 2 ^ k % 2 ^ w = n % 2 ^ w :=
 mod_mod_of_dvd n (Nat.pow_dvd_pow 2 h)

theorem toNat_maskForWidth (h : width ≤ 64) : (maskForWidth width).toNat = 2 ^ width - 1 := by
 rw [maskForWidth]
 split
 next hwide => rw [le_antisymm h hwide]; rfl
 next hnarrow =>
  have hlt : (2 : Nat) ^ width < 2 ^ 64 := Nat.pow_lt_pow_right (by decide) (not_le.1 hnarrow)
  have hpos := Nat.two_pow_pos width
  have hone : (1#64).toNat = 1 := rfl
  rw [toNat_sub, toNat_shiftLeft, Nat.shiftLeft_eq, hone, one_mul, Nat.mod_eq_of_lt hlt]
  omega

theorem toNat_and_mask (v : Word) (h : width ≤ 64) :
  (v &&& maskForWidth width).toNat = v.toNat % 2 ^ width := by
 rw [toNat_and, toNat_maskForWidth h, and_two_pow_sub_one_eq_mod]

theorem length_resize (words : List Word) (length : Nat) (fill : Word) : (resize words length fill).length = length := by
 rw [resize, length_append, length_take, length_replicate]
 omega

theorem value_resize_zero (words : List Word) (length : Nat) :
  value (resize words length 0#64) = value words % 2 ^ (64 * length) := by
 rw [resize, value_append, value_replicate_zero, Nat.mul_zero, Nat.add_zero, value_take]

theorem value_resize_ones {words : List Word} {length : Nat} (h : words.length ≤ length) :
  value (resize words length (BitVec.allOnes 64)) + 2 ^ (64 * words.length) = value words + 2 ^ (64 * length) := by
 have hones := value_replicate_ones (W := 64) (length - words.length)
 have hpow : 2 ^ (64 * length) = 2 ^ (64 * words.length) * 2 ^ (64 * (length - words.length)) := by
  rw [← Nat.pow_add, ← Nat.mul_add, Nat.add_sub_cancel' h]
 rw [resize, value_append, take_of_length_le h, hpow, ← hones]
 ring

namespace APInt

variable {x y : APInt}

/-! ## The values built -/

variable {width : Nat} {n : Int} {words : List Word} {v : Word}

section

variable (hpos : 0 < width)

include hpos

theorem fromWords_spec (signed : Bool) (words : List Word) :
  Valid (fromWords width signed words) ∧ (fromWords width signed words).u = Words.value words % 2 ^ width := by
 have hcnt := limbCount_pos hpos
 have hsized := length_resize words (limbCount width) 0#64
 have hlast : (resize words (limbCount width) 0#64).length - 1 < (resize words (limbCount width) 0#64).length := by
  omega
 have hrest : width - 64 * (limbCount width - 1) ≤ 64 := by
  rw [limbCount]
  omega
 have hsplit : 2 ^ width = 2 ^ (64 * (limbCount width - 1)) * 2 ^ (width - 64 * (limbCount width - 1)) := by
  have hle : 64 * (limbCount width - 1) ≤ width := by
   rw [limbCount]
   omega
  rw [← pow_add, Nat.add_sub_cancel' hle]
 -- The limbs below the top one stay; the top one keeps the bits the width reaches.
 have hmasked : Words.value ((resize words (limbCount width) 0#64).modify ((resize words (limbCount width) 0#64).length - 1)
   (· &&& maskForWidth (width - 64 * (limbCount width - 1)))) = Words.value words % 2 ^ width := by
  have hmodify := value_modify (resize words (limbCount width) 0#64)
   (· &&& maskForWidth (width - 64 * (limbCount width - 1))) hlast
  have htop : ((resize words (limbCount width) 0#64).getD (limbCount width - 1) 0#64).toNat
    = Words.value words % 2 ^ (64 * limbCount width) / 2 ^ (64 * (limbCount width - 1)) := by
   have hdrop := value_drop (resize words (limbCount width) 0#64) (limbCount width - 1)
   rw [drop_eq_getElem_cons (by rw [hsized]; omega), drop_eq_nil_of_le (by rw [hsized]; omega), value_cons,
    value_nil, Nat.mul_zero, Nat.add_zero, value_resize_zero] at hdrop
   rw [← hdrop, getD_eq_getElem?_getD, List.getElem?_eq_getElem, getD_some]
  simp only [hsized] at hmodify ⊢
  rw [toNat_and_mask _ hrest, htop, value_resize_zero] at hmodify
  have hfull := div_add_mod (Words.value words % 2 ^ (64 * limbCount width)) (2 ^ (64 * (limbCount width - 1)))
  have hcut : Words.value words % 2 ^ width
    = Words.value words % 2 ^ (64 * limbCount width) % 2 ^ (64 * (limbCount width - 1))
     + 2 ^ (64 * (limbCount width - 1)) * (Words.value words % 2 ^ (64 * limbCount width) / 2 ^ (64 * (limbCount width - 1))
      % 2 ^ (width - 64 * (limbCount width - 1))) := by
   rw [← mod_mul, ← hsplit, mod_mod_pow (le_limbCount width)]
  linarith
 have hlen : ((resize words (limbCount width) 0#64).modify ((resize words (limbCount width) 0#64).length - 1)
   (· &&& maskForWidth (width - 64 * (limbCount width - 1)))).length = limbCount width := by
  rw [length_modify, hsized]
 have hu : (fromWords width signed words).u = Words.value words % 2 ^ width := by
  rw [← hmasked, u, limbs, fromWords]
  generalize hw : (resize words (limbCount width) 0#64).modify ((resize words (limbCount width) 0#64).length - 1)
   (· &&& maskForWidth (width - 64 * (limbCount width - 1))) = masked at hlen ⊢
  cases masked with
  | nil => exact absurd hlen (by simp only [length_nil]; omega)
  | cons w ws =>
   by_cases hwide : 64 < width
   · simp [hwide]
   · have hone := limbCount_narrow hpos (not_lt.1 hwide)
     have hws : ws = [] := eq_nil_of_length_eq_zero (by rw [length_cons, hone] at hlen; omega)
     simp [hwide, hws]
 refine ⟨⟨hpos, ?_, ?_⟩, hu⟩
 · rw [fromWords]
   by_cases hwide : 64 < width
   · simp [hwide, hlen]
   · simp [hwide]
 · rw [hu]
   exact mod_lt _ (Nat.two_pow_pos _)

theorem fromWords_yields (signed : Bool)
  (h : (Words.value words : Int) % 2 ^ width = n % 2 ^ width) : Yields (some (fromWords width signed words)) width n := by
 obtain ⟨hvalid, hu⟩ := fromWords_spec hpos signed words
 refine ⟨_, rfl, hvalid, rfl, ?_⟩
 simp_all

section

variable (h : width ≤ 64) (signed : Bool)

include h signed

/-- A word below the width's power is an integer of that width. -/
theorem valid_of_lt (hv : v.toNat < 2 ^ width) :
  Valid ⟨width, signed, v, none⟩ ∧ u ⟨width, signed, v, none⟩ = v.toNat := by
 have hu : u ⟨width, signed, v, none⟩ = v.toNat := by simp [u, limbs]
 refine ⟨⟨hpos, ?_, ?_⟩, hu⟩
 · simp [not_lt.mpr h]
 · rw [hu]
   exact hv

theorem value_yields
  (hv : (v.toNat : Int) = n % 2 ^ width) : Yields (some ⟨width, signed, v, none⟩) width n := by
 have hlt : v.toNat < 2 ^ width := by
  have hcast : (v.toNat : Int) < 2 ^ width := hv ▸ Int.emod_lt_of_pos n (by positivity)
  exact_mod_cast hcast
 obtain ⟨hvalid, hu⟩ := valid_of_lt hpos h signed hlt
 exact ⟨_, rfl, hvalid, rfl, by rw [hu, hv]⟩

theorem word_yields
  (hv : (v.toNat : Int) % 2 ^ width = n % 2 ^ width) : Yields (some (word width signed v)) width n := by
 apply value_yields hpos h
 rw [toNat_and_mask v h, ← hv]
 exact_mod_cast rfl

end

theorem zero_yields (hn : n % 2 ^ width = 0) : Yields (zero width) width n := by
 have hzero : ((0 : Nat) : Int) % 2 ^ width = n % 2 ^ width := by rw [hn]; simp
 rw [zero, new, if_neg (ne_of_gt hpos)]
 by_cases hwide : 64 < width
 · rw [if_pos hwide]
   exact fromWords_yields hpos false hzero
 grind [word_yields]

end

/-! ## The values read -/

theorem isZero_eq (x : APInt) : x.isZero = decide (x.u = 0) := by
 have hall : x.isZero = x.limbs.all (· == 0#64) := rfl
 rw [hall, u, decide_eq_decide.mpr (value_eq_zero x.limbs), Bool.eq_iff_iff, List.all_eq_true, decide_eq_true_iff]
 simp

theorem getLsbD_eq_and_one (limb : Word) (i : Nat) : (limb >>> i &&& 1#64 != 0#64) = limb.getLsbD i := by
 have hone : (1#64).toNat = 2 ^ 1 - 1 := rfl
 have hzero : (0#64).toNat = 0 := rfl
 rw [Bool.eq_iff_iff, bne_iff_ne, ne_eq, ← toNat_inj, toNat_and, hone, and_two_pow_sub_one_eq_mod,
  toNat_ushiftRight, Nat.shiftRight_eq_div_pow, BitVec.getLsbD, testBit_eq_decide_div_mod_eq, decide_eq_true_iff,
  hzero, pow_one]
 omega

theorem bit_eq (x : APInt) (i : Nat) : x.bit i = x.u.testBit i := by
 rw [u, testBit_value (by decide), bit, getLsbD_eq_and_one]
 cases i / 64 with
 | zero => rfl
 | succ n => cases hhigh : x.high <;> simp [limbs, hhigh]

theorem s_eq (x : APInt) : x.s = if x.topBit then (x.u : Int) - 2 ^ x.width else x.u := by
 rw [s, topBit, bit_eq]

theorem mod_word (h : ¬ 64 < x.width) (n : Int) : n % 2 ^ 64 % 2 ^ x.width = n % 2 ^ x.width :=
 Int.emod_emod_of_dvd n (pow_dvd_pow 2 (not_lt.1 h))

theorem reading_eq (x : APInt) : x.reading = if x.isNegative then (x.u : Int) - 2 ^ x.width else x.u := by
 rw [reading, isNegative]
 grind [s_eq]

namespace Valid

variable (hx : Valid x)

include hx

theorem length_limbs : x.limbs.length = limbCount x.width := by
 have hlen := hx.high_length
 have hcnt := limbCount_pos hx.width_pos
 rw [limbs, length_cons]
 cases hhigh : x.high with
 | none =>
  rw [hhigh, map_none] at hlen
  split at hlen
  next => nomatch hlen
  next hnarrow => exact (limbCount_narrow hx.width_pos (not_lt.1 hnarrow)).symm
 | some high =>
  rw [hhigh, map_some] at hlen
  split at hlen
  next =>
   grind
  next => nomatch hlen

theorem high_none (h : ¬ 64 < x.width) : x.high = none := by
 have hlen := hx.high_length
 rw [if_neg h, map_eq_none_iff] at hlen
 exact hlen

theorem u_narrow (h : ¬ 64 < x.width) : x.u = x.value.toNat := by
 simp [u, limbs, hx.high_none h]

theorem value_lt (h : ¬ 64 < x.width) : x.value.toNat < 2 ^ x.width :=
 hx.u_narrow h ▸ hx.clear

theorem topBit_eq : x.topBit = decide (2 ^ (x.width - 1) ≤ x.u) := by
 have hclear := hx.clear
 have hpos := hx.width_pos
 have hhalf : 2 ^ x.width = 2 ^ (x.width - 1) * 2 := by simp_all
 rw [topBit, bit_eq, testBit_eq_decide_div_mod_eq, decide_eq_decide]
 have hlt : x.u / 2 ^ (x.width - 1) < 2 := by
  rw [Nat.div_lt_iff_lt_mul (Nat.two_pow_pos _), mul_comm, ← hhalf]
  exact hclear
 rw [mod_eq_of_lt hlt, ← Nat.one_le_div_iff (Nat.two_pow_pos (x.width - 1))]
 omega

theorem s_mod : x.s % 2 ^ x.width = x.u := by
 have hclear : (x.u : Int) < 2 ^ x.width := by exact_mod_cast hx.clear
 have hself : (x.u : Int) % 2 ^ x.width = x.u := Int.emod_eq_of_lt (by positivity) hclear
 rw [s]
 split
 · rw [Int.sub_emod_right, hself]
 · exact hself

theorem reading_mod : x.reading % 2 ^ x.width = x.u := by
 have hclear : (x.u : Int) < 2 ^ x.width := by exact_mod_cast hx.clear
 rw [reading]
 split
 · exact hx.s_mod
 · exact Int.emod_eq_of_lt (by positivity) hclear

theorem le_words : x.width ≤ 64 * x.limbs.length := by
 rw [hx.length_limbs]
 exact le_limbCount x.width

/-- What the limbs compute at their length is what the width keeps. -/
theorem mod_words (n : Int) : n % 2 ^ (64 * x.limbs.length) % 2 ^ x.width = n % 2 ^ x.width :=
 Int.emod_emod_of_dvd n (pow_dvd_pow 2 hx.le_words)

end Valid

/-! ## Sums, differences, products -/

theorem add_word (a b : Word) : ((a + b).toNat : Int) = (a.toNat + b.toNat : Int) % 2 ^ 64 := by
 grind

theorem sub_word (a b : Word) : ((a - b).toNat : Int) = (a.toNat - b.toNat : Int) % 2 ^ 64 := by
 rw [toNat_sub]
 omega

theorem mul_word (a b : Word) : (((a.setWidth 128 * b.setWidth 128).toNat : Nat) : Int) = a.toNat * b.toNat := by
 have ha : a.toNat ≤ 2 ^ 64 - 1 := Nat.le_pred_of_lt a.isLt
 have hb : b.toNat ≤ 2 ^ 64 - 1 := Nat.le_pred_of_lt b.isLt
 have hmul := Nat.mul_le_mul ha hb
 rw [toNat_mul, toNat_setWidth_of_le (by decide), toNat_setWidth_of_le (by decide), Nat.mod_eq_of_lt (by omega)]
 exact_mod_cast rfl

section Pair

variable (hx : Valid x) (hy : Valid y) (hw : x.width = y.width)

include hx hy hw

theorem length_eq : x.limbs.length = y.limbs.length := by
 rw [hx.length_limbs, hy.length_limbs, hw]

theorem add_yields : Yields (add x y) x.width (x.u + y.u) := by
 rw [add, if_pos hw]
 split
 next hwide =>
  apply fromWords_yields hx.width_pos
  rw [value_addWords (length_eq hx hy hw)]
  exact_mod_cast hx.mod_words (x.u + y.u)
 next hnarrow =>
  apply word_yields hx.width_pos (not_lt.1 hnarrow)
  rw [add_word, mod_word hnarrow, hx.u_narrow hnarrow, hy.u_narrow (hw ▸ hnarrow)]

theorem sub_yields : Yields (sub x y) x.width (x.u - y.u) := by
 rw [sub, if_pos hw]
 split
 next hwide =>
  apply fromWords_yields hx.width_pos
  rw [value_subWords (length_eq hx hy hw)]
  exact hx.mod_words (x.u - y.u)
 next hnarrow =>
  apply word_yields hx.width_pos (not_lt.1 hnarrow)
  rw [sub_word, mod_word hnarrow, hx.u_narrow hnarrow, hy.u_narrow (hw ▸ hnarrow)]

theorem mul_yields : Yields (mul x y) x.width (x.u * y.u) := by
 rw [mul, if_pos hw]
 split
 next hwide =>
  apply fromWords_yields hx.width_pos
  rw [value_mulWords (length_eq hx hy hw)]
  exact_mod_cast hx.mod_words (x.u * y.u)
 next hnarrow =>
  apply word_yields hx.width_pos (not_lt.1 hnarrow)
  rw [toNat_setWidth, Int.natCast_emod, mul_word, hx.u_narrow hnarrow, hy.u_narrow (hw ▸ hnarrow)]
  exact mod_word hnarrow _

end Pair

/-! ## Logic -/

section Bitwise

variable (f : Word → Word → Word) (g : Bool → Bool → Bool) (op : Nat → Nat → Nat)
variable (hf : ∀ a b i, i < 64 → (f a b).getLsbD i = g (a.getLsbD i) (b.getLsbD i))
variable (hop : ∀ a b i, (op a b).testBit i = g (a.testBit i) (b.testBit i)) (hg : g false false = false)

include hop hg

theorem bitwise_lt {a b n : Nat} (ha : a < 2 ^ n) (hb : b < 2 ^ n) : op a b < 2 ^ n := by
 apply lt_pow_two_of_testBit
 intro i hi
 have hpow : 2 ^ n ≤ 2 ^ i := Nat.pow_le_pow_right (by decide) hi
 rw [hop, testBit_lt_two_pow (ha.trans_le hpow), testBit_lt_two_pow (hb.trans_le hpow), hg]

include hf

theorem value_zipWith {ws vs : List Word} (hlen : ws.length = vs.length) :
  Words.value (List.zipWith f ws vs) = op (Words.value ws) (Words.value vs) := by
 apply eq_of_testBit_eq
 intro i
 rw [testBit_zipWith (by decide) hlen, hop]
 by_cases hi : i < 64 * ws.length
 · rw [decide_eq_true hi, Bool.true_and, hf _ _ _ (mod_lt _ (by decide)), testBit_value (by decide), testBit_value (by decide)]
 · have hpow : 2 ^ (64 * ws.length) ≤ 2 ^ i := Nat.pow_le_pow_right (by decide) (not_lt.1 hi)
   rw [decide_eq_false hi, Bool.false_and, testBit_lt_two_pow ((Words.value_lt ws).trans_le hpow),
    testBit_lt_two_pow ((hlen ▸ Words.value_lt vs).trans_le hpow), hg]

theorem limbwise_yields (hx : Valid x) (hy : Valid y) (hw : x.width = y.width) :
  Yields (limbwise f x y) x.width (op x.u y.u) := by
 rw [limbwise, if_pos hw]
 split
 next hwide =>
  apply fromWords_yields hx.width_pos
  rw [value_zipWith f g op hf hop hg (length_eq hx hy hw), u, u]
 next hnarrow =>
  have hval := value_zipWith f g op hf hop hg (show [x.value].length = [y.value].length from rfl)
  simp only [zipWith_cons_cons, zipWith_nil_left, value_cons, value_nil, Nat.mul_zero, Nat.add_zero] at hval
  have hlt := bitwise_lt g op hop hg hx.clear (hw ▸ hy.clear)
  rw [hx.u_narrow hnarrow, hy.u_narrow (hw ▸ hnarrow)] at hlt ⊢
  apply value_yields hx.width_pos (not_lt.1 hnarrow)
  rw [hval]
  exact_mod_cast (mod_eq_of_lt hlt).symm

end Bitwise

section Pair

variable (hx : Valid x) (hy : Valid y) (hw : x.width = y.width)

include hx hy hw

theorem and_yields : Yields (and x y) x.width ((x.u &&& y.u : Nat) : Int) :=
 limbwise_yields (· &&& ·) Bool.and (· &&& ·) (fun _ _ _ _ => getLsbD_and) (fun _ _ _ => testBit_and ..) rfl hx hy hw

theorem or_yields : Yields (or x y) x.width ((x.u ||| y.u : Nat) : Int) :=
 limbwise_yields (· ||| ·) Bool.or (· ||| ·) (fun _ _ _ _ => getLsbD_or) (fun _ _ _ => testBit_or ..) rfl hx hy hw

theorem xor_yields : Yields (xor x y) x.width ((x.u ^^^ y.u : Nat) : Int) :=
 limbwise_yields (· ^^^ ·) Bool.xor (· ^^^ ·) (fun _ _ _ _ => getLsbD_xor) (fun _ _ _ => testBit_xor ..) rfl hx hy hw

end Pair

theorem value_map_not (ws : List Word) : Words.value (ws.map (~~~ ·)) + Words.value ws + 1 = 2 ^ (64 * ws.length) := by
 induction ws with
 | nil => rfl
 | cons w ws ih =>
  rw [map_cons, value_cons, value_cons, length_cons, pow_succ_words, toNat_not]
  omega

section Single

variable (hx : Valid x)

include hx

theorem not_yields : Yields (some x.not) x.width (-x.u - 1) := by
 rw [not]
 split
 next hwide =>
  have hval : (Words.value (x.limbs.map (~~~ ·)) : Int) = (-x.u - 1) + 2 ^ (64 * x.limbs.length) := by
   have hmap := value_map_not x.limbs
   have hcast : (Words.value (x.limbs.map (~~~ ·)) + x.u + 1 : Int) = 2 ^ (64 * x.limbs.length) := by exact_mod_cast hmap
   linarith
  apply fromWords_yields hx.width_pos
  rw [hval, ← hx.mod_words, Int.add_emod_right, hx.mod_words]
 next hnarrow =>
  have hval : ((~~~ x.value).toNat : Int) = (-x.u - 1) + 2 ^ 64 := by
   rw [toNat_not, hx.u_narrow hnarrow]
   omega
  apply word_yields hx.width_pos (not_lt.1 hnarrow)
  rw [hval, ← mod_word hnarrow, Int.add_emod_right, mod_word hnarrow]

theorem neg_yields : Yields (neg x) x.width (-x.u) := by
 rw [neg]
 split
 next hwide =>
  obtain ⟨zero', hzero, hvalid, hwid, hu⟩ := zero_yields hx.width_pos (n := 0) (by simp)
  obtain ⟨z, hsub, hz, hzw, hzu⟩ := sub_yields hvalid hx hwid
  have hvalid' : Valid (z.withSigned x.signed) := ⟨hz.width_pos, hz.high_length, hz.clear⟩
  have hzero' : zero'.u = 0 := by simpa using hu
  refine ⟨z.withSigned x.signed, ?_, hvalid', hzw.trans hwid, ?_⟩
  · simp [hzero, hsub]
  · rw [hzero', hwid, Nat.cast_zero, Int.zero_sub] at hzu
    exact hzu
 next hnarrow =>
  have hone : (1#64).toNat = 1 := rfl
  have hval : ((~~~ x.value + 1#64).toNat : Int) = (-x.u : Int) % 2 ^ 64 := by
   rw [toNat_add, toNat_not, hone, hx.u_narrow hnarrow]
   omega
  apply word_yields hx.width_pos (not_lt.1 hnarrow)
  rw [hval, mod_word hnarrow]

end Single

/-! ## Shifts -/

theorem Yields.spec {z : APInt} (h : Yields (some z) width n) :
  Valid z ∧ z.width = width ∧ (z.u : Int) = n % 2 ^ width := by
 obtain ⟨z', heq, hspec⟩ := h
 cases heq
 exact hspec

theorem Yields.congr {result : Option APInt} {m : Int} (h : Yields result width n)
  (heq : n % 2 ^ width = m % 2 ^ width) : Yields result width m := by
 obtain ⟨z, hz, hvalid, hwid, hu⟩ := h
 exact ⟨z, hz, hvalid, hwid, hu.trans heq⟩

section Shifts

variable (hx : Valid x) (k : Nat)

include hx

theorem shl_yields : Yields (shl x k) x.width (x.u * 2 ^ k) := by
 rw [shl]
 split
 next hpast =>
  apply zero_yields hx.width_pos
  exact Int.emod_eq_zero_of_dvd (Dvd.dvd.mul_left (pow_dvd_pow 2 hpast) _)
 next hin =>
  split
  next hwide =>
   apply fromWords_yields hx.width_pos
   rw [value_shlWords]
   exact_mod_cast hx.mod_words (x.u * 2 ^ k)
  next hnarrow =>
   apply word_yields hx.width_pos (not_lt.1 hnarrow)
   rw [toNat_shiftLeft, Nat.shiftLeft_eq, ← hx.u_narrow hnarrow]
   exact_mod_cast mod_word hnarrow (x.u * 2 ^ k)

theorem lshr_yields : Yields (lshr x k) x.width (x.u / 2 ^ k : Nat) := by
 have hlt : x.u / 2 ^ k < 2 ^ x.width := (Nat.div_le_self _ _).trans_lt hx.clear
 rw [lshr]
 split
 next hpast =>
  have hle : 2 ^ x.width ≤ 2 ^ k := Nat.pow_le_pow_right (by decide) hpast
  apply zero_yields hx.width_pos
  rw [div_eq_of_lt (hx.clear.trans_le hle)]
  rfl
 next hin =>
  split
  next hwide =>
   apply fromWords_yields hx.width_pos
   rw [value_lshrWords, u]
  next hnarrow =>
   apply value_yields hx.width_pos (not_lt.1 hnarrow)
   rw [toNat_ushiftRight, Nat.shiftRight_eq_div_pow, ← hx.u_narrow hnarrow]
   exact_mod_cast (mod_eq_of_lt hlt).symm

/-- A negative value shifted right is the complement of its complement shifted. -/
theorem negative_div : ((x.u : Int) - 2 ^ x.width) / 2 ^ k = -((2 ^ x.width - 1 - x.u) / 2 ^ k : Nat) - 1 := by
 have hclear := hx.clear
 have hcast : (x.u : Int) - 2 ^ x.width = Int.negSucc (2 ^ x.width - 1 - x.u) := by
  grind
 rw [hcast, Int.negSucc_ediv _ (by positivity), Int.neg_add]
 rfl

theorem not_u : x.not.u = 2 ^ x.width - 1 - x.u := by
 have hclear := hx.clear
 obtain ⟨-, -, hu⟩ := (not_yields hx).spec
 have hpow : ((2 ^ x.width : Nat) : Int) = 2 ^ x.width := by push_cast; rfl
 have hmod : (-x.u - 1 : Int) % 2 ^ x.width = -x.u - 1 + 2 ^ x.width := by
  rw [← Int.add_emod_right, Int.emod_eq_of_lt]
  · rw [← hpow]
    omega
  · rw [← hpow]
    omega
 grind

omit hx in
/-- The ones an arithmetic shift puts above a word's bits. -/
theorem toNat_signFill {width : Nat} (hk : k ≤ width) (h : width ≤ 64) :
  (maskForWidth width <<< (width - k) &&& maskForWidth width).toNat = 2 ^ (width - k) * (2 ^ k - 1) := by
 have hsplit : 2 ^ width = 2 ^ (width - k) * 2 ^ k := by rw [← pow_add, Nat.sub_add_cancel hk]
 rw [toNat_and_mask _ h, toNat_shiftLeft, Nat.shiftLeft_eq, mod_mod_pow h, toNat_maskForWidth h]
 have hsum : (2 ^ width - 1) * 2 ^ (width - k) = 2 ^ (width - k) * (2 ^ k - 1) + 2 ^ width * (2 ^ (width - k) - 1) := by
  zify [Nat.two_pow_pos k, Nat.two_pow_pos width, Nat.two_pow_pos (width - k)]
  grind
 rw [hsum, add_mul_mod_self_left, mod_eq_of_lt]
 simp_all

theorem ashr_yields : Yields (ashr x k) x.width (x.reading / 2 ^ k) := by
 have hreading := reading_eq x
 have hplain : x.isNegative = false → Yields (lshr x k) x.width (x.reading / 2 ^ k) := by
  grind [lshr_yields]
 rw [ashr]
 split
 next hzero =>
  subst hzero
  refine ⟨x, rfl, hx, rfl, ?_⟩
  rw [pow_zero, Int.ediv_one, hx.reading_mod]
 next hpos =>
  cases hsign : x.isNegative with
  | false =>
   simp only [Bool.not_false, if_true, Bool.and_false, false_eq_true, if_false]
   split
   next => exact hplain hsign
   next hnarrow =>
    split
    next hpast =>
     apply zero_yields hx.width_pos
     have hle : 2 ^ x.width ≤ 2 ^ k := Nat.pow_le_pow_right (by decide) hpast
     rw [hreading, hsign]
     have hdiv : (x.u : Int) / 2 ^ k = 0 :=
      Int.ediv_eq_zero_of_lt (by positivity) (by exact_mod_cast hx.clear.trans_le hle)
     simp [hdiv]
    next => exact hplain hsign
  | true =>
   have hsigned : x.signed = true := by
    rw [isNegative, and_eq_true] at hsign
    exact hsign.1
   have hnegative : x.reading = (x.u : Int) - 2 ^ x.width := by rw [hreading, hsign, if_pos rfl]
   rw [hnegative, negative_div hx k]
   simp only [Bool.not_true, false_eq_true, if_false, if_true, hsigned, Bool.and_self]
   split
   next hwide =>
    obtain ⟨hnot, hnotWidth, -⟩ := (not_yields hx).spec
    obtain ⟨filled, hfilled, hvalid, hwid, hu⟩ := lshr_yields hnot k
    obtain ⟨hback, hbackWidth, hbackU⟩ := (not_yields hvalid).spec
    rw [not_u hx] at hu
    have hlt : (2 ^ x.width - 1 - x.u) / 2 ^ k < 2 ^ x.width := by
     have hle := Nat.div_le_self (2 ^ x.width - 1 - x.u) (2 ^ k)
     have hpow := Nat.two_pow_pos x.width
     omega
    have hfilledU : (filled.u : Int) = ((2 ^ x.width - 1 - x.u) / 2 ^ k : Nat) := by
     rw [hu, hnotWidth]
     exact_mod_cast mod_eq_of_lt hlt
    refine ⟨filled.not.withSigned true, by rw [hfilled]; rfl, ⟨hback.width_pos, hback.high_length, hback.clear⟩,
     (hbackWidth.trans hwid).trans hnotWidth, ?_⟩
    rw [hfilledU, hwid, hnotWidth] at hbackU
    exact hbackU
   next hnarrow =>
    have hle := not_lt.1 hnarrow
    have hclear := hx.clear
    have hpow : ((2 ^ x.width : Nat) : Int) = 2 ^ x.width := by push_cast; rfl
    split
    next hpast =>
     have hdiv : (2 ^ x.width - 1 - x.u) / 2 ^ k = 0 := by
      have hmono : 2 ^ x.width ≤ 2 ^ k := Nat.pow_le_pow_right (by decide) hpast
      apply div_eq_of_lt
      omega
     apply value_yields hx.width_pos hle
     rw [hdiv, toNat_maskForWidth hle, ← Int.add_emod_right, Int.emod_eq_of_lt]
     · rw [← hpow]; omega
     · rw [← hpow]; omega
     · rw [← hpow]; omega
    next hin =>
     have hlow : x.u / 2 ^ k < 2 ^ (x.width - k) := by
      rw [Nat.div_lt_iff_lt_mul (Nat.two_pow_pos k), ← pow_add, Nat.sub_add_cancel (Nat.le_of_not_le hin)]
      exact hclear
     have hsplit : 2 ^ x.width = 2 ^ k * 2 ^ (x.width - k) := by
      rw [← pow_add, Nat.add_sub_cancel' (Nat.le_of_not_le hin)]
     have hcomplement : (2 ^ x.width - 1 - x.u) / 2 ^ k = 2 ^ (x.width - k) - (x.u / 2 ^ k + 1) := by
      rw [Nat.sub_sub, add_comm 1, hsplit]
      exact mul_sub_div x.u (2 ^ k) _ (hsplit ▸ hclear)
     have hfill := toNat_signFill k (Nat.le_of_not_le hin) hle
     have hor := two_pow_add_eq_or_of_lt hlow (2 ^ k - 1)
     have hfillEq : 2 ^ (x.width - k) * (2 ^ k - 1) = 2 ^ x.width - 2 ^ (x.width - k) := by
      rw [Nat.mul_sub, mul_one, hsplit, mul_comm]
     have hsmall : 2 ^ (x.width - k) ≤ 2 ^ x.width := Nat.pow_le_pow_right (by decide) (sub_le _ _)
     apply value_yields hx.width_pos hle
     rw [toNat_or, hfill, toNat_ushiftRight, Nat.shiftRight_eq_div_pow, ← hx.u_narrow hnarrow, Nat.or_comm, ← hor,
      hfillEq, hcomplement, ← Int.add_emod_right, Int.emod_eq_of_lt]
     · rw [← hpow]; omega
     · rw [← hpow]; omega
     · rw [← hpow]; omega

end Shifts

/-! ## Widening, narrowing and slicing -/

section Widening

variable (hx : Valid x)

include hx

variable {n : Nat}

theorem zeroExtend_yields (h : x.width ≤ n) : Yields (zeroExtend x n) n x.u := by
 rw [zeroExtend, if_pos h]
 apply fromWords_yields (hx.width_pos.trans_le h)
 rfl

omit hx in
theorem truncate_yields (hpos : 0 < n) (h : n ≤ x.width) : Yields (truncate x n) n x.u := by
 rw [truncate, if_pos ⟨hpos, h⟩]
 apply fromWords_yields hpos
 rfl

theorem extractBits_yields {high low : Nat} (hle : low ≤ high) (hlt : high < x.width) :
  Yields (extractBits x high low) (high - low + 1) (x.u / 2 ^ low : Nat) := by
 rw [extractBits, if_pos ⟨hle, hlt⟩]
 split
 next hwide =>
  apply fromWords_yields (succ_pos _)
  rw [value_lshrWords, u]
 next hnarrow =>
  apply word_yields (succ_pos _) (by omega)
  rw [toNat_ushiftRight, Nat.shiftRight_eq_div_pow, hx.u_narrow hnarrow]

/-- The ones a sign extension puts above the bits of the top limb, and then above the limbs. -/
theorem value_signFill (h : x.width ≤ n) :
  (Words.value (resize (x.limbs.modify (x.limbs.length - 1) (· ||| ~~~ maskForWidth (x.width - 64 * (x.limbs.length - 1))))
   (limbCount n) (BitVec.allOnes 64)) : Int) = x.u - 2 ^ x.width + 2 ^ (64 * limbCount n) := by
 have hpos := limbCount_pos hx.width_pos
 have hlen := hx.length_limbs
 have hrest : x.width - 64 * (x.limbs.length - 1) ≤ 64 ∧ 64 * (x.limbs.length - 1) ≤ x.width := by
  rw [hlen, limbCount]
  grind
 have hroom := hx.le_words
 have hlow : 2 ^ x.width = 2 ^ (x.width - 64 * (x.limbs.length - 1)) * 2 ^ (64 * (x.limbs.length - 1)) := by
  rw [← pow_add, Nat.sub_add_cancel hrest.2]
 have hall : 2 ^ (64 * x.limbs.length) = 2 ^ x.width * 2 ^ (64 * x.limbs.length - x.width) := by
  rw [← pow_add, Nat.add_sub_cancel' hroom]
 have hword : 2 ^ (64 * x.limbs.length) = 2 ^ 64 * 2 ^ (64 * (x.limbs.length - 1)) := by
  rw [← pow_succ_words, Nat.sub_add_cancel (hlen ▸ hpos)]
 have hfill : (~~~ maskForWidth (x.width - 64 * (x.limbs.length - 1))).toNat * 2 ^ (64 * (x.limbs.length - 1))
   = 2 ^ x.width * (2 ^ (64 * x.limbs.length - x.width) - 1) := by
  have hpow := Nat.two_pow_pos (x.width - 64 * (x.limbs.length - 1))
  rw [toNat_not, toNat_maskForWidth hrest.1, Nat.sub_sub, Nat.add_sub_cancel' hpow, Nat.sub_mul, ← hword, ← hlow,
   Nat.mul_sub (2 ^ x.width), ← hall, mul_one]
 have hor := two_pow_add_eq_or_of_lt hx.clear (2 ^ (64 * x.limbs.length - x.width) - 1)
 have htop : Words.value (x.limbs.modify (x.limbs.length - 1) (· ||| ~~~ maskForWidth (x.width - 64 * (x.limbs.length - 1))))
   + 2 ^ x.width = x.u + 2 ^ (64 * x.limbs.length) := by
  have hle : 2 ^ x.width ≤ 2 ^ (64 * x.limbs.length) := Nat.pow_le_pow_right (by decide) hroom
  rw [value_or_at _ _ (by omega), hfill, ← u, Nat.or_comm, ← hor, Nat.mul_sub (2 ^ x.width), ← hall, mul_one]
  omega
 grind [limbCount_mono, value_resize_ones]

theorem signExtend_yields (h : x.width ≤ n) : Yields (signExtend x n) n x.reading := by
 have hpos := hx.width_pos.trans_le h
 rw [signExtend, if_pos h, reading_eq]
 cases x.isNegative with
 | false =>
  apply fromWords_yields hpos
  rfl
 | true =>
  apply fromWords_yields hpos
  rw [value_signFill hx h, if_pos rfl]
  obtain ⟨more, hmore⟩ := pow_dvd_pow (2 : Int) (le_limbCount n)
  rw [hmore, Int.add_mul_emod_self_left]

end Widening

/-! ## The high half of a product -/

/-- The bits of a number above the first `w`, read from the number cut at `m` bits. -/
theorem emod_ediv_emod (n : Int) {m w k : Nat} (h : w + k ≤ m) : n % 2 ^ m / 2 ^ w % 2 ^ k = n / 2 ^ w % 2 ^ k := by
 have hsplit : (2 : Int) ^ m = 2 ^ w * (2 ^ k * 2 ^ (m - w - k)) := by
  rw [← pow_add, ← pow_add]
  congr 1
  omega
 have hn : n = n % 2 ^ m + 2 ^ w * (2 ^ k * (2 ^ (m - w - k) * (n / 2 ^ m))) := by
  have hdiv := Int.emod_add_mul_ediv n (2 ^ m)
  grind
 conv_rhs => rw [hn]
 rw [Int.add_mul_ediv_left _ _ (by positivity), Int.add_mul_emod_self_left]

theorem sextU128_mod (hx : Valid x) (hnarrow : ¬ 64 < x.width) : (x.sextU128.toNat : Int) = x.reading % 2 ^ 128 := by
 have hclear := hx.value_lt hnarrow
 have hle : 2 ^ x.width ≤ 2 ^ 64 := Nat.pow_le_pow_right (by decide) (not_lt.1 hnarrow)
 rw [reading_eq, sextU128, hx.u_narrow hnarrow]
 cases x.isNegative with
 | false =>
  grind
 | true =>
  have hfill : (BitVec.allOnes 128 <<< x.width).toNat = 2 ^ x.width * (2 ^ (128 - x.width) - 1) := by
   have hsplit : (2 : Nat) ^ 128 = 2 ^ x.width * 2 ^ (128 - x.width) := by
    rw [← pow_add, Nat.add_sub_cancel' (by omega)]
   have hsum : (2 ^ 128 - 1) * 2 ^ x.width = 2 ^ x.width * (2 ^ (128 - x.width) - 1) + 2 ^ 128 * (2 ^ x.width - 1) := by
    zify [Nat.two_pow_pos x.width, Nat.two_pow_pos (128 - x.width), Nat.two_pow_pos 128]
    grind
   rw [toNat_shiftLeft, Nat.shiftLeft_eq, toNat_allOnes, hsum, add_mul_mod_self_left, mod_eq_of_lt]
   grind
  have hor := two_pow_add_eq_or_of_lt hclear (2 ^ (128 - x.width) - 1)
  have hsplit : (2 : Nat) ^ 128 = 2 ^ x.width * 2 ^ (128 - x.width) := by
   rw [← pow_add, Nat.add_sub_cancel' (by omega)]
  have hpow : ((2 ^ x.width : Nat) : Int) = 2 ^ x.width := by push_cast; rfl
  simp only [if_true]
  rw [toNat_or, hfill, toNat_setWidth_of_le (by decide), Nat.or_comm, ← hor, Nat.mul_sub, ← hsplit, mul_one,
   ← hpow]
  omega

section Pair

variable (hx : Valid x) (hy : Valid y) (hw : x.width = y.width)

include hx hy hw

theorem mulhu_yields : Yields (mulhu x y) x.width (x.u * y.u / 2 ^ x.width : Nat) := by
 have hxpos := hx.width_pos
 rw [mulhu, if_pos hw]
 split
 next hwide =>
  obtain ⟨a, ha, haValid, haWidth, hau⟩ := zeroExtend_yields hx (n := 2 * x.width) (by omega)
  obtain ⟨b, hb, hbValid, hbWidth, hbu⟩ := zeroExtend_yields hy (n := 2 * x.width) (by omega)
  obtain ⟨product, hp, hpValid, hpWidth, hpu⟩ := mul_yields haValid hbValid (haWidth.trans hbWidth.symm)
  have hslice := extractBits_yields hpValid (show x.width ≤ 2 * x.width - 1 by omega) (by omega)
  have hlen : 2 * x.width - 1 - x.width + 1 = x.width := by omega
  rw [hlen] at hslice
  simp only [ha, hb, hp, bind_eq_bind, bind_some]
  apply hslice.congr
  rw [haWidth, hau, hbu, ← Int.mul_emod] at hpu
  push_cast
  rw [hpu, emod_ediv_emod _ (by omega)]
 next hnarrow =>
  have hle := not_lt.1 hnarrow
  apply word_yields hxpos hle
  rw [toNat_setWidth, toNat_ushiftRight, Nat.shiftRight_eq_div_pow, hx.u_narrow hnarrow, hy.u_narrow (hw ▸ hnarrow)]
  grind [mul_word, mod_word]

theorem mulh_yields : Yields (mulh x y) x.width (x.reading * y.reading / 2 ^ x.width) := by
 have hxpos := hx.width_pos
 rw [mulh, if_pos hw]
 split
 next hwide =>
  obtain ⟨a, ha, haValid, haWidth, hau⟩ := signExtend_yields hx (n := 2 * x.width) (by omega)
  obtain ⟨b, hb, hbValid, hbWidth, hbu⟩ := signExtend_yields hy (n := 2 * x.width) (by omega)
  obtain ⟨product, hp, hpValid, hpWidth, hpu⟩ := mul_yields haValid hbValid (haWidth.trans hbWidth.symm)
  obtain ⟨z, hz, hzValid, hzWidth, hzu⟩ :=
   extractBits_yields hpValid (show x.width ≤ 2 * x.width - 1 by omega) (by omega)
  have hlen : 2 * x.width - 1 - x.width + 1 = x.width := by omega
  rw [hlen] at hzWidth hzu
  refine ⟨z.withSigned true, ?_, ⟨hzValid.width_pos, hzValid.high_length, hzValid.clear⟩, hzWidth, ?_⟩
  · simp [ha, hb, hp, hz]
  · rw [haWidth, hau, hbu, ← Int.mul_emod] at hpu
    push_cast at hzu
    rw [hpu, emod_ediv_emod _ (by omega)] at hzu
    exact hzu
 next hnarrow =>
  have hle := not_lt.1 hnarrow
  apply word_yields hxpos hle
  rw [toNat_setWidth, toNat_ushiftRight, Nat.shiftRight_eq_div_pow, toNat_mul]
  simp only [Int.natCast_emod, Int.natCast_ediv, Int.natCast_mul, Nat.cast_pow, Nat.cast_ofNat]
  rw [sextU128_mod hx hnarrow, sextU128_mod hy (hw ▸ hnarrow), ← Int.mul_emod, mod_word hnarrow, emod_ediv_emod _ (by omega)]

end Pair

/-! ## Division -/

theorem toNat_mod_eq_toInt (hnarrow : ¬ 64 < x.width) (v : Word) : (v.toNat : Int) % 2 ^ x.width = v.toInt % 2 ^ x.width := by
 have hcast : ((2 ^ 64 : Nat) : Int) = 2 ^ 64 := by norm_num
 rw [toInt_eq_toNat_cond]
 split
 · rfl
 · rw [hcast, ← mod_word hnarrow (v.toNat - 2 ^ 64), Int.sub_emod_right, mod_word hnarrow]

theorem toInt_signedAtWidth (hx : Valid x) (hnarrow : ¬ 64 < x.width) : x.signedAtWidth.toInt = x.s := by
 have hpos := hx.width_pos
 have hlt := hx.value_lt hnarrow
 have hle := not_lt.1 hnarrow
 have hsame : x.signedAtWidth = (x.value.setWidth x.width).signExtend 64 := by
  rw [signedAtWidth]
  split
  next hfull =>
   have hwid : x.width = 64 := le_antisymm hle hfull
   rw [hwid, setWidth_eq, signExtend_eq]
  next => rw [LowBits.signExtend_low x.value hpos hle]
 have hcast : ((2 ^ x.width : Nat) : Int) = 2 ^ x.width := by push_cast; rfl
 rw [hsame, toInt_signExtend_of_le hle, toInt_eq_msb_cond, msb_eq_getLsbD_last, BitVec.getLsbD,
  toNat_setWidth, mod_eq_of_lt hlt, hcast, s, hx.u_narrow hnarrow]

theorem natAbs_s (hx : Valid x) : x.s.natAbs = if x.topBit then 2 ^ x.width - x.u else x.u := by
 have hclear := hx.clear
 grind [s_eq]

theorem s_sign (hx : Valid x) : x.s = if x.topBit then -(x.s.natAbs : Int) else x.s.natAbs := by
 have hclear := hx.clear
 have hcast : ((2 ^ x.width : Nat) : Int) = 2 ^ x.width := by push_cast; rfl
 rw [natAbs_s hx, s_eq]
 split
 · rw [← hcast]
   omega
 · rfl

theorem magnitude_spec (hx : Valid x) : ∃ words, x.magnitude = some words ∧ words.length = x.limbs.length
  ∧ Words.value words = x.s.natAbs ∧ x.s.natAbs < 2 ^ x.width := by
 have hclear := hx.clear
 have htop := hx.topBit_eq
 have hhalf := Nat.two_pow_pos (x.width - 1)
 rw [natAbs_s hx, magnitude]
 split
 next hneg =>
  rw [hneg] at htop
  have hle : 2 ^ (x.width - 1) ≤ x.u := of_decide_eq_true htop.symm
  obtain ⟨z, hz, hvalid, hwid, hu⟩ := neg_yields hx
  have hcast : ((2 ^ x.width : Nat) : Int) = 2 ^ x.width := by push_cast; rfl
  have hmod : (-x.u : Int) % 2 ^ x.width = 2 ^ x.width - x.u := by
   rw [← Int.add_emod_right, Int.emod_eq_of_lt]
   · ring
   · rw [← hcast]; omega
   · rw [← hcast]; omega
  refine ⟨z.limbs, by rw [hz]; rfl, ?_, ?_, by omega⟩
  · rw [hvalid.length_limbs, hx.length_limbs, hwid]
  · have hval : z.u = 2 ^ x.width - x.u := by
     grind
    exact hval
 next => exact ⟨x.limbs, rfl, rfl, rfl, hclear⟩

/-- A magnitude under the sign the source gives it. -/
theorem signed_yields {n : Nat} (hpos : 0 < width) (hn : Words.value words = n) (flip : Bool) :
  ∃ z, (fromWords width true words).negateIf flip = some z
   ∧ Yields (some z) width (if flip then -(n : Int) else n) := by
 obtain ⟨hvalid, hu⟩ := fromWords_spec hpos true words
 cases flip with
 | false => exact ⟨_, rfl, fromWords_yields hpos true (by rw [hn]; rfl)⟩
 | true =>
  obtain ⟨z, hz, hzValid, hzWidth, hzu⟩ := neg_yields hvalid
  refine ⟨z, hz, z, rfl, hzValid, hzWidth, ?_⟩
  have hwid : (fromWords width true words).width = width := rfl
  have hneg : -(n % 2 ^ width : Int) = -n + 2 ^ width * (n / 2 ^ width) := by
   rw [Int.emod_def]
   ring
  simp_all

section Pair

variable (hx : Valid x) (hy : Valid y) (hw : x.width = y.width) (hnz : y.u ≠ 0)

include hx hy hw hnz

theorem divrem_unsigned : ∃ q r, divrem x y false = some (q, r)
  ∧ Yields (some q) x.width (x.u / y.u : Nat) ∧ Yields (some r) x.width (x.u % y.u : Nat) := by
 have hpos := hx.width_pos
 have hguard : x.width = y.width ∧ (!y.isZero) = true := ⟨hw, by grind [isZero_eq]⟩
 rw [divrem, if_pos hguard, if_neg (by simp)]
 split
 next hwide =>
  obtain ⟨hq, hr⟩ := divremWords_spec (length_eq hx hy hw) hx.le_words hx.clear (Nat.pos_of_ne_zero hnz)
  refine ⟨fromWords x.width false (divremWords x.limbs y.limbs x.width).1,
   fromWords x.width false (divremWords x.limbs y.limbs x.width).2, rfl, ?_, ?_⟩
  · exact fromWords_yields hpos false (by rw [hq, u, u])
  · exact fromWords_yields hpos false (by rw [hr, u, u])
 next hnarrow =>
  have hle := not_lt.1 hnarrow
  refine ⟨_, _, rfl, word_yields hpos hle false ?_, word_yields hpos hle false ?_⟩
  · rw [toNat_udiv, hx.u_narrow hnarrow, hy.u_narrow (hw ▸ hnarrow)]
  · rw [toNat_umod, hx.u_narrow hnarrow, hy.u_narrow (hw ▸ hnarrow)]

theorem divrem_signed : ∃ q r, divrem x y true = some (q, r)
  ∧ Yields (some q) x.width (x.s.tdiv y.s) ∧ Yields (some r) x.width (x.s.tmod y.s) := by
 have hpos := hx.width_pos
 have hguard : x.width = y.width ∧ (!y.isZero) = true := ⟨hw, by grind [isZero_eq]⟩
 rw [divrem, if_pos hguard]
 split
 next hwide =>
  obtain ⟨a, ha, haLength, haValue, haLt⟩ := magnitude_spec hx
  obtain ⟨b, hb, hbLength, hbValue, hbLt⟩ := magnitude_spec hy
  have hbpos : 0 < y.s.natAbs := by
   rw [natAbs_s hy]
   have hclear := hy.clear
   grind
  have hlen : a.length = b.length := by rw [haLength, hbLength, length_eq hx hy hw]
  obtain ⟨hq, hr⟩ := divremWords_spec hlen (haLength ▸ hx.le_words) (haValue ▸ haLt) (hbValue ▸ hbpos)
  obtain ⟨q, hqEq, hqYields⟩ := signed_yields hpos hq (x.topBit != y.topBit)
  obtain ⟨r, hrEq, hrYields⟩ := signed_yields hpos hr x.topBit
  refine ⟨q, r, ?_, ?_, ?_⟩
  · simp [signedDivrem, ha, hb, hqEq, hrEq]
  · have hquotient : x.s.tdiv y.s
      = if x.topBit != y.topBit then -((x.s.natAbs / y.s.natAbs : Nat) : Int) else (x.s.natAbs / y.s.natAbs : Nat) := by
     rw [Int.ofNat_tdiv]
     conv_lhs => rw [s_sign hx, s_sign hy]
     cases x.topBit <;> cases y.topBit <;> simp [Int.neg_tdiv, Int.tdiv_neg]
    grind
  · have hremainder : x.s.tmod y.s
      = if x.topBit then -((x.s.natAbs % y.s.natAbs : Nat) : Int) else (x.s.natAbs % y.s.natAbs : Nat) := by
     rw [Int.ofNat_tmod]
     conv_lhs => rw [s_sign hx, s_sign hy]
     cases x.topBit <;> cases y.topBit <;> simp [Int.neg_tmod, Int.tmod_neg]
    grind
 next hpath =>
  have hnarrow : ¬ 64 < x.width := fun h => hpath ⟨h, rfl⟩
  have hle := not_lt.1 hnarrow
  have hxs := toInt_signedAtWidth hx hnarrow
  have hys := toInt_signedAtWidth hy (hw ▸ hnarrow)
  have hcast : ((2 ^ 64 : Nat) : Int) = 2 ^ 64 := by norm_num
  rw [if_neg hnarrow]
  refine ⟨_, _, rfl, word_yields hpos hle true ?_, word_yields hpos hle true ?_⟩
  · rw [toNat_mod_eq_toInt hnarrow, toInt_sdiv, hxs, hys, ← mod_word hnarrow, ← hcast, Int.bmod_emod, hcast,
     mod_word hnarrow]
  · rw [toNat_mod_eq_toInt hnarrow, toInt_srem, hxs, hys]

end Pair

/-! ## Comparison -/

section Pair

variable (hx : Valid x) (hy : Valid y) (hw : x.width = y.width)

include hx hy hw

theorem ucmp_eq : ucmp x y = some (compare x.u y.u) := by
 rw [ucmp, if_pos hw]
 split
 next => rw [cmpWords_eq (length_eq hx hy hw), u, u]
 next hnarrow => rw [hx.u_narrow hnarrow, hy.u_narrow (hw ▸ hnarrow)]

theorem scmp_eq : scmp x y = some (compare x.s y.s) := by
 rw [scmp, if_pos hw]
 split
 next =>
  have hxclear := hx.clear
  have hyclear := hy.clear
  have hcast : ((2 ^ x.width : Nat) : Int) = 2 ^ x.width := by push_cast; rfl
  have hcompare : ∀ n m : Nat, ∀ i j : Int, (n < m ↔ i < j) → (m < n ↔ j < i) → compare n m = compare i j := by
   intro n m i j hlt hgt
   rcases Nat.lt_trichotomy n m with h | h | h
   · rw [Nat.compare_eq_lt.mpr h, Int.compare_eq_lt.mpr (hlt.mp h)]
   · grind
   · rw [Nat.compare_eq_gt.mpr h, Int.compare_eq_gt.mpr (hgt.mp h)]
  have hyt := hy.topBit_eq
  rw [cmpWords_eq (length_eq hx hy hw), ← u, ← u, s_eq, s_eq, ← hw, ← hcast]
  rw [← hw] at hyt hyclear
  cases hxTop : x.topBit with
  | false =>
   cases hyTop : y.topBit with
   | false => exact congrArg some (hcompare _ _ _ _ (by simp) (by simp))
   | true =>
    have hgt : ((y.u : Int) - (2 ^ x.width : Nat)) < x.u := by omega
    simp only [false_eq_true, if_true, if_false, Int.compare_eq_gt.mpr hgt]
    rfl
  | true =>
   cases hyTop : y.topBit with
   | false =>
    have hlt : ((x.u : Int) - (2 ^ x.width : Nat)) < y.u := by omega
    simp only [false_eq_true, if_true, if_false, Int.compare_eq_lt.mpr hlt]
    rfl
   | true => exact congrArg some (hcompare _ _ _ _ (by simp) (by simp))
 grind [toInt_signedAtWidth]

end Pair

/-! ## Counting -/

theorem rposition_spec {p : Nat → Bool} {n : Nat} (h : ∃ j < n, p j = true) :
  ∃ i, rposition p n = some i ∧ i < n ∧ p i = true ∧ ∀ j, i < j → j < n → p j = false := by
 induction n with
 | zero =>
  grind
 | succ n ih =>
  rw [rposition]
  split
  next hp => grind
  next hp =>
   obtain ⟨j, hj, hpj⟩ := h
   have hne : j ≠ n := fun heq => hp (heq ▸ hpj)
   obtain ⟨i, hi, hlt, hpi, hafter⟩ := ih ⟨j, by omega, hpj⟩
   refine ⟨i, hi, by omega, hpi, fun k hk hkn => ?_⟩
   by_cases hkeq : k = n
   · grind
   · exact hafter k hk (by omega)

theorem leadingZeros_spec {w : Word} (h : w ≠ 0#64) : leadingZeros w < 64 ∧ w.getLsbD (63 - leadingZeros w) = true
  ∧ ∀ i, 64 - leadingZeros w ≤ i → w.getLsbD i = false := by
 rw [leadingZeros]
 cases hfind : (List.range 64).find? fun k => w.getLsbD (63 - k) with
 | none =>
  rw [find?_range_eq_none] at hfind
  have hzero : w = 0#64 := by
   grind
  exact absurd hzero h
 | some k =>
  rw [find?_range_eq_some, mem_range] at hfind
  obtain ⟨hset, hlt, hbef⟩ := hfind
  refine ⟨hlt, hset, fun i hi => ?_⟩
  rw [getD_some] at hi
  by_cases hin : i < 64
  · have hbit := hbef (63 - i) (by omega)
    grind
  simp_all

theorem trailingZeros_spec {w : Word} (h : w ≠ 0#64) : trailingZeros w < 64 ∧ w.getLsbD (trailingZeros w) = true
  ∧ ∀ i < trailingZeros w, w.getLsbD i = false := by
 rw [trailingZeros]
 cases hfind : (List.range 64).find? fun k => w.getLsbD k with
 | none =>
  rw [find?_range_eq_none] at hfind
  grind
 | some k =>
  simp_all

theorem exists_limb (h : x.u ≠ 0) : ∃ j < x.limbs.length, (x.limbs.getD j 0#64 != 0#64) = true := by
 have hsome : ¬ ∀ w ∈ x.limbs, w = 0#64 := fun hall => h ((value_eq_zero x.limbs).mpr hall)
 push Not at hsome
 obtain ⟨w, hmem, hw⟩ := hsome
 obtain ⟨j, hj, hget⟩ := mem_iff_getElem.mp hmem
 exact ⟨j, hj, by simp_all⟩

theorem testBit_u (x : APInt) (i : Nat) : x.u.testBit i = (x.limbs.getD (i / 64) 0#64).getLsbD (i % 64) := by
 rw [u, testBit_value (by decide)]

theorem Valid.testBit_past (hx : Valid x) {i : Nat} (h : x.width ≤ i) : x.u.testBit i = false :=
 testBit_lt_two_pow (hx.clear.trans_le (Nat.pow_le_pow_right (by decide) h))

theorem countLeadingZeros_spec (hx : Valid x) : LeadingZeros x x.countLeadingZeros := by
 rw [countLeadingZeros, isZero_eq]
 by_cases hzero : x.u = 0
 · rw [decide_eq_true hzero, if_pos rfl]
   exact ⟨le_rfl, fun i _ _ => by rw [hzero, zero_testBit], fun h => absurd h (lt_irrefl _)⟩
 rw [decide_eq_false hzero, if_neg (by decide)]
 -- The highest bit set, at a place below the width.
 have hplace : ∀ set, 0 < set → x.u.testBit (set - 1) = true → (∀ i, set ≤ i → x.u.testBit i = false)
   → LeadingZeros x (x.width - set) := by
  intro set hpos htop habove
  have hle : set ≤ x.width := by
   by_contra hlt
   have hpast := hx.testBit_past (i := set - 1) (by omega)
   grind
  refine ⟨sub_le _ _, fun i hi _ => habove i (by omega), fun _ => ?_⟩
  grind
 split
 next hwide =>
  obtain ⟨top, htop, hlt, hlimb, hafter⟩ := rposition_spec (exists_limb hzero)
  obtain ⟨hcnt, hset, hclear⟩ := leadingZeros_spec (bne_iff_ne.mp hlimb)
  simp only [htop, getD_some]
  apply hplace
  · omega
  · have hword : (64 * top + 64 - leadingZeros (x.limbs.getD top 0#64) - 1) / 64 = top := by omega
    have hbit : (64 * top + 64 - leadingZeros (x.limbs.getD top 0#64) - 1) % 64
      = 63 - leadingZeros (x.limbs.getD top 0#64) := by omega
    rw [testBit_u, hword, hbit, hset]
  · intro i hi
    rw [testBit_u]
    by_cases hsame : i / 64 = top
    · rw [hsame]
      exact hclear (i % 64) (by omega)
    · by_cases hin : i / 64 < x.limbs.length
      · have hzeroLimb := hafter (i / 64) (by omega) hin
        rw [bne_eq_false_iff_eq] at hzeroLimb
        rw [hzeroLimb, getLsbD_zero]
      · rw [getD_eq_default _ _ (not_lt.1 hin), getLsbD_zero]
 next hnarrow =>
  have hle := not_lt.1 hnarrow
  have hlt := hx.value_lt hnarrow
  have hmask : x.value &&& maskForWidth x.width = x.value := by
   apply eq_of_toNat_eq
   rw [toNat_and_mask _ hle, mod_eq_of_lt hlt]
  have hne : x.value ≠ 0#64 := fun heq => hzero (by rw [hx.u_narrow hnarrow, heq]; rfl)
  obtain ⟨hcnt, hset, hclear⟩ := leadingZeros_spec hne
  have hu : ∀ i, x.u.testBit i = x.value.getLsbD i := fun i => by rw [hx.u_narrow hnarrow]; rfl
  have hsame : x.width - (64 - leadingZeros x.value) = leadingZeros x.value - (64 - x.width) := by
   omega
  grind

theorem countTrailingZeros_spec (hx : Valid x) : TrailingZeros x x.countTrailingZeros := by
 rw [countTrailingZeros, isZero_eq]
 by_cases hzero : x.u = 0
 · rw [decide_eq_true hzero, if_pos rfl]
   exact ⟨le_rfl, fun i _ => by rw [hzero, zero_testBit], fun h => absurd h (lt_irrefl _)⟩
 rw [decide_eq_false hzero, if_neg (by decide)]
 -- The lowest bit set lies within the width.
 have hplace : ∀ low, x.u.testBit low = true → (∀ i < low, x.u.testBit i = false) → low < x.width ∧ TrailingZeros x low := by
  intro low hset hbelow
  have hlt : low < x.width := by
   by_contra hge
   rw [hx.testBit_past (not_lt.1 hge)] at hset
   nomatch hset
  exact ⟨hlt, le_of_lt hlt, hbelow, fun _ => hset⟩
 split
 next hwide =>
  obtain ⟨j, hj, hlimb⟩ := exists_limb hzero
  cases hfind : (List.range x.limbs.length).find? fun i => x.limbs.getD i 0#64 != 0#64 with
  | none =>
   simp_all
  | some low =>
   rw [find?_range_eq_some, mem_range] at hfind
   obtain ⟨hlow, hlt, hbef⟩ := hfind
   obtain ⟨hcnt, hset, hclear⟩ := trailingZeros_spec (bne_iff_ne.mp hlow)
   simp only [getD_some]
   refine (hplace _ ?_ fun i hi => ?_).2
   · have hword : (64 * low + trailingZeros (x.limbs.getD low 0#64)) / 64 = low := by omega
     have hbit : (64 * low + trailingZeros (x.limbs.getD low 0#64)) % 64 = trailingZeros (x.limbs.getD low 0#64) := by omega
     rw [testBit_u, hword, hbit, hset]
   · rw [testBit_u]
     by_cases hsame : i / 64 = low
     · rw [hsame]
       exact hclear (i % 64) (by omega)
     · have hzeroLimb := hbef (i / 64) (by omega)
       grind
 next hnarrow =>
  have hne : x.value ≠ 0#64 := fun heq => hzero (by rw [hx.u_narrow hnarrow, heq]; rfl)
  obtain ⟨hcnt, hset, hclear⟩ := trailingZeros_spec hne
  have hu : ∀ i, x.u.testBit i = x.value.getLsbD i := fun i => by rw [hx.u_narrow hnarrow]; rfl
  grind

/-! ## Every operation -/

/-- What the operations on two values of one width compute. An operation that reads signs by the flag computes on the
readings; division and the signed comparison read the bits. -/
structure ComputesModulo (x y : APInt) : Prop where
 add : Yields (x.add y) x.width (x.u + y.u)
 sub : Yields (x.sub y) x.width (x.u - y.u)
 mul : Yields (x.mul y) x.width (x.u * y.u)
 neg : Yields x.neg x.width (-x.u)
 not : Yields (some x.not) x.width (-x.u - 1)
 and : Yields (x.and y) x.width (x.u &&& y.u : Nat)
 or : Yields (x.or y) x.width (x.u ||| y.u : Nat)
 xor : Yields (x.xor y) x.width (x.u ^^^ y.u : Nat)
 shl : ∀ k, Yields (x.shl k) x.width (x.u * 2 ^ k)
 lshr : ∀ k, Yields (x.lshr k) x.width (x.u / 2 ^ k : Nat)
 ashr : ∀ k, Yields (x.ashr k) x.width (x.reading / 2 ^ k)
 udiv : y.u ≠ 0 → Yields (x.udiv y) x.width (x.u / y.u : Nat)
 urem : y.u ≠ 0 → Yields (x.urem y) x.width (x.u % y.u : Nat)
 sdiv : y.u ≠ 0 → Yields (x.sdiv y) x.width (x.s.tdiv y.s)
 srem : y.u ≠ 0 → Yields (x.srem y) x.width (x.s.tmod y.s)
 mulhu : Yields (x.mulhu y) x.width (x.u * y.u / 2 ^ x.width : Nat)
 mulh : Yields (x.mulh y) x.width (x.reading * y.reading / 2 ^ x.width)
 zeroExtend : ∀ n, x.width ≤ n → Yields (x.zeroExtend n) n x.u
 signExtend : ∀ n, x.width ≤ n → Yields (x.signExtend n) n x.reading
 truncate : ∀ n, 0 < n → n ≤ x.width → Yields (x.truncate n) n x.u
 extractBits : ∀ high low, low ≤ high → high < x.width →
  Yields (x.extractBits high low) (high - low + 1) (x.u / 2 ^ low : Nat)
 ucmp : x.ucmp y = some (compare x.u y.u)
 scmp : x.scmp y = some (compare x.s y.s)
 countLeadingZeros : LeadingZeros x x.countLeadingZeros
 countTrailingZeros : TrailingZeros x x.countTrailingZeros

theorem computes_modulo (x y : APInt) (hx : Valid x) (hy : Valid y) (hw : x.width = y.width) : ComputesModulo x y where
 add := add_yields hx hy hw
 sub := sub_yields hx hy hw
 mul := mul_yields hx hy hw
 neg := neg_yields hx
 not := not_yields hx
 and := and_yields hx hy hw
 or := or_yields hx hy hw
 xor := xor_yields hx hy hw
 shl := shl_yields hx
 lshr := lshr_yields hx
 ashr := ashr_yields hx
 udiv := by
  intro hnz
  obtain ⟨q, r, hdiv, hq, -⟩ := divrem_unsigned hx hy hw hnz
  rw [udiv, hdiv]
  exact hq
 urem := by
  intro hnz
  obtain ⟨q, r, hdiv, -, hr⟩ := divrem_unsigned hx hy hw hnz
  rw [urem, hdiv]
  exact hr
 sdiv := by
  intro hnz
  obtain ⟨q, r, hdiv, hq, -⟩ := divrem_signed hx hy hw hnz
  rw [sdiv, hdiv]
  exact hq
 srem := by
  intro hnz
  obtain ⟨q, r, hdiv, -, hr⟩ := divrem_signed hx hy hw hnz
  rw [srem, hdiv]
  exact hr
 mulhu := mulhu_yields hx hy hw
 mulh := mulh_yields hx hy hw
 zeroExtend := fun _ => zeroExtend_yields hx
 signExtend := fun _ => signExtend_yields hx
 truncate := fun _ => truncate_yields
 extractBits := fun _ _ => extractBits_yields hx
 ucmp := ucmp_eq hx hy hw
 scmp := scmp_eq hx hy hw
 countLeadingZeros := countLeadingZeros_spec hx
 countTrailingZeros := countTrailingZeros_spec hx

/-- A value of 100 bits, its high bit set. -/
def wideNegative : APInt := ⟨100, true, 5#64, some [0x800000000#64]⟩

def wideSeven : APInt := ⟨100, true, 7#64, some [0#64]⟩

theorem computes_modulo_wide : ComputesModulo wideNegative wideSeven :=
 computes_modulo wideNegative wideSeven ⟨by decide, by decide, by decide⟩ ⟨by decide, by decide, by decide⟩ rfl

/-- Without the flag a sign extension fills with zeros: `0xF0` widens to `0x00F0`. -/
theorem signExtend_unflagged : ¬ ∀ (x : APInt) (n : Nat), Valid x → x.width ≤ n → Yields (x.signExtend n) n x.s := by
 intro h
 obtain ⟨z, hz, -, -, hu⟩ := h ⟨8, false, 0xF0#64, none⟩ 16 ⟨by decide, by decide, by decide⟩ (by decide)
 have hres : signExtend ⟨8, false, 0xF0#64, none⟩ 16 = some ⟨16, false, 0xF0#64, none⟩ := by decide
 rw [hres, some.injEq] at hz
 subst hz
 nomatch hu

end APInt

end Tir.Adt.Limbs
