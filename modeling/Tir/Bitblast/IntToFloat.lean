import Tir.Bitblast.Circuits
import Tir.Basic.Rounding

/-!
# The integer to float circuit

`int_to_float` shifts the leading one of the magnitude to the top of a register, rounds what is below the mantissa to
nearest with ties to even, and counts the shift off the exponent, which is computed modulo its field
(`yields_intToFloat`).
-/

open List Bool Nat

namespace Tir.Bitblast

open Tir.Sat Tir.Rounding Blaster RoundingMode

namespace Blaster

/-- `while l < need { l <<= 1 }`. -/
def doubled (need l : Nat) : Nat :=
 if l < need ∧ 0 < l then doubled need (2 * l) else l
termination_by need - l

/-- `while (1 << stages) < width { stages += 1 }`. -/
def stagesOf (width stages : Nat) : Nat :=
 if 2 ^ stages < width then stagesOf width (stages + 1) else stages
termination_by width - 2 ^ stages
decreasing_by
 grind

def resize (bits : List Lit) (width : Nat) (fill : Lit) : List Lit :=
 bits.take width ++ replicate (width - bits.length) fill

def shiftLeft (bits : List Lit) (amount : Nat) (fill : Lit) : List Lit :=
 replicate (min amount bits.length) fill ++ bits.take (bits.length - amount)

/-- Shifts the leading one up, a power of two at a time, and records the shift. -/
def normalize (zero : Lit) : Nat → List Lit → Blast (List Lit × List Lit)
 | 0, cur => return (cur, [])
 | k + 1, cur => do
   let highZero ← nor (cur.drop (cur.length - 2 ^ k))
   let shifted := shiftLeft cur (2 ^ k) zero
   let cur ← muxBits highZero shifted cur
   let (cur, shift) ← normalize zero k cur
   return (cur, shift ++ [highZero])

def signMagnitude (zero : Lit) (value : List Lit) (signed : Bool) : Blast (Lit × List Lit) :=
 if signed then do
  let sign := value.getLastD zero
  let neg ← negate value
  return (sign, ← muxBits sign neg value)
 else return (zero, value)

/-- Splits the register at the mantissa boundary and rounds. The carry out of the significand comes first. -/
def roundRegister (zero : Lit) (cur : List Lit) (m : Nat) : Blast (Lit × List Lit) := do
 let fracLo := cur.length - 1 - m
 let guard := cur.getD (fracLo - 1) zero
 let sticky ← orReduce (cur.take (fracLo - 1))
 let fracLsb := cur.getD fracLo zero
 let stickyOrLsb ← gateOr sticky fracLsb
 let roundUp ← gateAnd guard stickyOrLsb
 let significand := cur.drop fracLo ++ [zero]
 let addend := replicate significand.length zero
 let (rounded, _) ← adder significand addend roundUp
 return (rounded.getD (m + 1) zero, rounded.take m)

def biasedExponent (zero : Lit) (l e : Nat) (shift : List Lit) (overflow : Lit) : Blast (List Lit) := do
 let base ← constBits (l - 1 + (2 ^ (e - 1) - 1)) e
 let unrounded ← subtract base (resize shift e zero)
 let padding := replicate e zero
 return (← adder unrounded padding overflow).1

/-- The bits of the float, unless a signed operand is empty or the bias does not fit its 64-bit word. -/
def intToFloat (value : List Lit) (signed : Bool) (e m : Nat) : Option (Blast (List Lit)) :=
 if signed = true ∧ value = [] ∨ e = 0 ∨ 64 < e then none
 else some do
  let zero ← zero
  let (sign, magnitude) ← signMagnitude zero value signed
  let l := doubled (max value.length (m + 2)) 1
  let cur := resize magnitude l zero
  let isZero ← nor cur
  let (cur, shift) ← normalize zero (stagesOf l 0) cur
  let (overflow, fraction) ← roundRegister zero cur m
  let biased ← biasedExponent zero l e shift overflow
  let out := fraction ++ (biased ++ [sign])
  let zeros := replicate out.length zero
  muxBits isZero zeros out

theorem doubled_spec (need k : Nat) : ∃ j, doubled need (2 ^ k) = 2 ^ j ∧ need ≤ 2 ^ j := by
 induction hn : need - 2 ^ k using Nat.strongRecOn generalizing k with
 | ind n ih =>
  have hpos := Nat.two_pow_pos k
  unfold doubled
  split
  · rename_i h
    rw [← pow_succ']
    exact ih _ (by rw [pow_succ']; omega) (k + 1) rfl
  · exact ⟨k, rfl, by omega⟩

theorem stagesOf_spec (j k : Nat) (hk : k ≤ j) : stagesOf (2 ^ j) k = j := by
 induction hn : j - k generalizing k with
 | zero =>
  obtain rfl : k = j := by omega
  unfold stagesOf
  rw [if_neg (lt_irrefl _)]
 | succ n ih =>
  unfold stagesOf
  rw [if_pos (Nat.pow_lt_pow_right (by omega) (by omega)), ih (k + 1) (by omega) (by omega)]

end Blaster

/-- The quotient by `2 ^ (f + 1)`, rounded to nearest with ties to even. -/
def nearestEven (n f : Nat) : Nat :=
 RoundingMode.tiesToEven.pick false (n / 2 ^ f) (decide (n % 2 ^ f ≠ 0))

theorem nearestEven_scaled (n f k : Nat) : nearestEven (n * 2 ^ k) (f + k) = nearestEven n f := by
 have hpos := Nat.two_pow_pos k
 have hzero : n % 2 ^ f * 2 ^ k ≠ 0 ↔ n % 2 ^ f ≠ 0 := by simp
 rw [nearestEven, nearestEven, pow_add, Nat.mul_div_mul_right _ _ hpos, mul_mod_mul_right, decide_eq_decide.2 hzero]

/-- The integer that the operand's bits spell. -/
def integer (signed : Bool) (width n : Nat) : Int :=
 if (signed && n.testBit (width - 1)) = true then n - 2 ^ width else n

/-- A magnitude rounded to `m` bits below its leading one. -/
def roundedMagnitude (m n : Nat) : Nat :=
 nearestEven (n * 2 ^ (m + 1)) (Nat.log2 n)

/-- The number that the circuit's bits spell. -/
def floatBits (e m : Nat) (i : Int) : Nat :=
 if i = 0 then 0
 else
  let rounded := roundedMagnitude m i.natAbs
  rounded % 2 ^ m + 2 ^ m * ((Nat.log2 i.natAbs + (2 ^ (e - 1) - 1) + (rounded.testBit (m + 1)).toNat) % 2 ^ e +
   2 ^ e * (decide (i < 0)).toNat)

/-- A magnitude shifted to the top of its register tells its logarithm by the shift. -/
theorem normalized {m n f z : Nat} (hn : n ≠ 0) (hge : n ≠ 0 → 2 ^ (f + m + 1) ≤ n * 2 ^ z)
  (hlt : n * 2 ^ z < 2 ^ (f + m + 1 + 1)) :
  Nat.log2 n + z = f + m + 1 ∧ nearestEven (n * 2 ^ z) f = roundedMagnitude m n := by
 have hlog : Nat.log2 (n * 2 ^ z) = f + m + 1 :=
  (log2_eq_iff (Nat.mul_ne_zero hn (Nat.two_pow_pos z).ne')).2 ⟨hge hn, hlt⟩
 have hsum : Nat.log2 n + z = f + m + 1 := by
  rw [← hlog, eq_comm, log2_eq_iff (Nat.mul_ne_zero hn (Nat.two_pow_pos z).ne')]
  constructor
  · rw [pow_add]
    exact Nat.mul_le_mul_right _ (log2_self_le hn)
  · rw [add_right_comm, pow_add]
    exact Nat.mul_lt_mul_of_pos_right lt_log2_self (Nat.two_pow_pos z)
 refine ⟨hsum, ?_⟩
 calc nearestEven (n * 2 ^ z) f
   = nearestEven (n * 2 ^ z * 2 ^ Nat.log2 n) (f + Nat.log2 n) := (nearestEven_scaled ..).symm
  _ = nearestEven (n * 2 ^ (m + 1) * 2 ^ f) (Nat.log2 n + f) := by
    rw [mul_assoc, mul_assoc, ← pow_add, ← pow_add, add_comm f]
    congr 3
    omega
  _ = roundedMagnitude m n := nearestEven_scaled ..

namespace Valued

variable {s t : Valued} {cur bits value : List Lit} {n w : Nat} {zero : Lit}

section

variable (hzero : s.Means zero false) (h : s.Spells bits n)

include hzero h

theorem spells_resize (w : Nat) :
  (Blaster.resize bits w zero).length = w ∧ s.Spells (Blaster.resize bits w zero) (n % 2 ^ w) := by
 rw [resize]
 rcases le_total w bits.length with hle | hle
 · rw [Nat.sub_eq_zero_of_le hle, replicate_zero, append_nil]
   exact ⟨length_take_of_le hle, spells_take h hle⟩
 · have hlt := h.lt.trans_le (Nat.pow_le_pow_right (by omega) hle)
   rw [take_of_length_le hle, length_append, length_replicate, mod_eq_of_lt hlt]
   have hpad := spells_append h (spells_replicate hzero (w - bits.length))
   grind

theorem spells_shiftLeft (i : Nat) : (Blaster.shiftLeft bits i zero).length = bits.length ∧
   s.Spells (Blaster.shiftLeft bits i zero) (n * 2 ^ i % 2 ^ bits.length) := by
 rw [Blaster.shiftLeft]
 rcases le_total i bits.length with hi | hi
 · have hshift := spells_append (spells_replicate hzero i) (spells_take h (sub_le bits.length i))
   have hsplit : 2 ^ bits.length = 2 ^ i * 2 ^ (bits.length - i) := by rw [← pow_add, Nat.add_sub_cancel' hi]
   rw [min_eq_left hi, length_append, length_replicate, length_take, mul_comm n, hsplit,
    mul_mod_mul_left]
   grind
 · have hall : n * 2 ^ i % 2 ^ bits.length = 0 := mod_eq_zero_of_dvd (Dvd.dvd.mul_left (Nat.pow_dvd_pow 2 hi) n)
   rw [min_eq_right hi, Nat.sub_eq_zero_of_le hi, take_zero, append_nil, hall]
   exact ⟨length_replicate, spells_replicate hzero _⟩

theorem means_getD (i : Nat) : s.Means (bits.getD i zero) (n.testBit i) := by
 rw [getD_eq_getElem?_getD]
 cases hi : bits[i]? with
 | some l => exact means_getElem h hi
 | none =>
  have hlt := h.lt.trans_le (Nat.pow_le_pow_right (show 0 < 2 by omega) (List.getElem?_eq_none_iff.1 hi))
  rw [testBit_lt_two_pow hlt]
  exact hzero

end

/-- Each stage halves the leading zeros that there can be. -/
theorem yields_normalize (k : Nat) (hzero : s.Means zero false) (h : s.Spells cur n) (hk : 2 ^ k ≤ cur.length)
  (hn : n ≠ 0 → 2 ^ (cur.length - 2 ^ k) ≤ n) :
  s.Yields (Blaster.normalize zero k cur) fun t r => r.1.length = cur.length ∧ r.2.length = k ∧ ∃ z,
   t.Spells r.2 z ∧ t.Spells r.1 (n * 2 ^ z) ∧ (n ≠ 0 → 2 ^ (cur.length - 1) ≤ n * 2 ^ z) := by
 induction k generalizing cur n s with
 | zero => exact yields_pure ⟨rfl, rfl, 0, rfl, by rwa [pow_zero, mul_one], by rwa [pow_zero, mul_one]⟩
 | succ k ih =>
  rw [pow_succ] at hk hn
  have hsplit : 2 ^ cur.length = 2 ^ (cur.length - 2 ^ k) * 2 ^ 2 ^ k := by
   rw [← pow_add]
   congr 1
   omega
  apply yields_bind (yields_nor (spells_drop h (sub_le cur.length (2 ^ k))))
  intro s1 highZero h1 hhigh
  have hiff : (n / 2 ^ (cur.length - 2 ^ k) = 0) = (n < 2 ^ (cur.length - 2 ^ k)) :=
   propext (div_eq_zero_iff_lt (Nat.two_pow_pos _))
  simp only [hiff] at hhigh
  obtain ⟨hlen, hshifted⟩ := spells_shiftLeft (hzero.mono h1) (h.mono h1) (2 ^ k)
  apply yields_bind (yields_muxBits hhigh hshifted (h.mono h1) hlen)
  rintro s2 cur' h2 ⟨hcur', hmux⟩
  -- what the stage leaves: shifted where its high bits were zero
  obtain ⟨d, hd, hspells, htop⟩ : ∃ d : Bool, s2.Means highZero d ∧ s2.Spells cur' (n * 2 ^ (2 ^ k * d.toNat)) ∧
    (n ≠ 0 → 2 ^ (cur.length - 2 ^ k) ≤ n * 2 ^ (2 ^ k * d.toNat)) := by
   refine ⟨_, hhigh.mono h2, ?_⟩
   by_cases hless : n < 2 ^ (cur.length - 2 ^ k)
   · have hfits : n * 2 ^ 2 ^ k < 2 ^ cur.length := by
      rw [hsplit]
      exact Nat.mul_lt_mul_of_pos_right hless (Nat.two_pow_pos _)
     rw [decide_eq_true hless, if_pos rfl, mod_eq_of_lt hfits] at hmux
     rw [decide_eq_true hless, toNat_true, mul_one]
     refine ⟨hmux, fun hne => ?_⟩
     calc 2 ^ (cur.length - 2 ^ k) = 2 ^ (cur.length - 2 ^ k * 2) * 2 ^ 2 ^ k := by
           rw [← pow_add]
           congr 1
           omega
      _ ≤ n * 2 ^ 2 ^ k := Nat.mul_le_mul_right _ (hn hne)
   · rw [decide_eq_false hless, if_neg Bool.false_ne_true] at hmux
     rw [decide_eq_false hless, toNat_false, mul_zero, pow_zero, mul_one]
     exact ⟨hmux, fun _ => not_lt.1 hless⟩
  rw [hlen] at hcur'
  rw [← hcur'] at htop
  apply yields_bind (ih (hzero.mono (h1.trans h2)) hspells (by omega) fun hne =>
   htop fun h0 => hne (by rw [h0, zero_mul]))
  rintro s3 ⟨last, shift⟩ h3 ⟨hlast, hshift, z, hz, hcur, hnormal⟩
  have hsum := spells_append hz (spells_cons (hd.mono h3) (show s3.Spells [] 0 from rfl))
  rw [hshift, mul_zero, add_zero] at hsum
  have htotal : n * 2 ^ (z + 2 ^ k * d.toNat) = n * 2 ^ (2 ^ k * d.toNat) * 2 ^ z := by
   rw [mul_assoc, ← pow_add, add_comm z]
  refine yields_pure ⟨hlast.trans hcur', ?_, _, hsum, ?_, fun hne => ?_⟩
  · rw [length_append, hshift]
    rfl
  · rwa [htotal]
  grind

section

variable (hzero : s.Means zero false)

include hzero

/-- The sign and the magnitude of an operand, from the number it spells. -/
theorem yields_signMagnitude (h : s.Spells value n) {signed : Bool} (hval : signed = true → value ≠ []) :
  s.Yields (Blaster.signMagnitude zero value signed) fun t r => r.2.length = value.length ∧
   t.Means r.1 (integer signed value.length n < 0) ∧ t.Spells r.2 (integer signed value.length n).natAbs := by
 have hlt := h.lt
 cases signed with
 | false =>
  refine yields_pure ⟨rfl, ?_, ?_⟩
  · rwa [integer, if_neg (by simp), decide_eq_false (by omega)]
  · rwa [integer, if_neg (by simp)]
 | true =>
  have hlast : value[value.length - 1]? = some (value.getLastD zero) := by
   have hpos := length_pos_iff.2 (hval rfl)
   grind
  have hsign := means_getElem h hlast
  apply yields_bind (yields_negate h)
  rintro s1 neg h1 ⟨hlen, hneg⟩
  apply yields_bind (yields_muxBits (hsign.mono h1) hneg (h.mono h1) hlen)
  rintro s2 r h2 ⟨hr, hspells⟩
  refine yields_pure ⟨hr.trans hlen, ?_, ?_⟩
  · convert hsign.mono (h1.trans h2) using 1
    rw [integer, Bool.true_and]
    cases n.testBit (value.length - 1)
    · simp
    grind
  · convert hspells using 1
    rw [integer, Bool.true_and]
    cases htop : n.testBit (value.length - 1) with
    | false => rfl
    | true =>
     have hge := ge_two_pow_of_testBit htop
     have hpos := Nat.two_pow_pos (value.length - 1)
     rw [if_pos rfl, if_pos rfl, mod_eq_of_lt (by omega)]
     grind

/-- A normalized register is rounded to nearest, ties to even. -/
theorem yields_roundRegister {m f : Nat} (h : s.Spells cur n) (hm : cur.length = f + 1 + (m + 1)) :
  s.Yields (Blaster.roundRegister zero cur m) fun t r => r.2.length = m ∧
   t.Means r.1 ((nearestEven n f).testBit (m + 1)) ∧ t.Spells r.2 (nearestEven n f % 2 ^ m) := by
 have hlo : cur.length - 1 - m = f + 1 := by omega
 apply yields_bind (yields_orReduce (spells_take h (show cur.length - 1 - m - 1 ≤ cur.length by omega)))
 intro s1 sticky h1 hsticky
 apply yields_bind (yields_or hsticky (means_getD (hzero.mono h1) (h.mono h1) _))
 intro s2 stickyOrLsb h2 hor
 have h₁2 := h1.trans h2
 apply yields_bind (yields_and ((means_getD hzero h _).mono h₁2) hor)
 intro s3 roundUp h3 hup
 rw [hlo, Nat.add_sub_cancel] at hup
 have h₁3 := h₁2.trans h3
 have hsig := spells_append (spells_drop (h.mono h₁3) (show cur.length - 1 - m ≤ cur.length by omega))
  (spells_cons (hzero.mono h₁3) (show s3.Spells [] 0 from rfl))
 apply yields_bind (yields_adder hsig (spells_replicate (hzero.mono h₁3) _) (length_replicate ..).symm hup)
 rintro s4 ⟨sum, carry⟩ h4 ⟨hlen, hsum, -⟩
 have hwid : (cur.drop (cur.length - 1 - m) ++ [zero]).length = m + 2 := by
  rw [length_append, length_drop, length_singleton]
  omega
 have hpick : n / 2 ^ (f + 1) + (n.testBit f && (decide (n % 2 ^ f ≠ 0) || n.testBit (f + 1))).toNat = nearestEven n f := by
  have hdiv : n / 2 ^ (f + 1) = n / 2 ^ f / 2 := by rw [pow_succ, Nat.div_div_eq_div_mul]
  have hincrement : tiesToEven.increment false (n / 2 ^ f) (decide (n % 2 ^ f ≠ 0)) =
    (n.testBit f && (decide (n % 2 ^ f ≠ 0) || n.testBit (f + 1))) := by
   rw [increment, testBit_eq_decide_div_mod_eq, testBit_eq_decide_div_mod_eq, hdiv]
  rw [nearestEven, pick, hincrement, hdiv]
  cases n.testBit f && (decide (n % 2 ^ f ≠ 0) || n.testBit (f + 1)) <;> rfl
 have hfits : nearestEven n f < 2 ^ (m + 2) := by
  have hlt := h.lt
  rw [hm, pow_add] at hlt
  have hdiv := Nat.div_lt_of_lt_mul hlt
  have hbit := toNat_le (n.testBit f && (decide (n % 2 ^ f ≠ 0) || n.testBit (f + 1)))
  grind
 dsimp only at hlen hsum
 rw [hwid, hlo, toNat_false, Nat.mul_zero, Nat.add_zero, Nat.add_zero, hpick,
  mod_eq_of_lt hfits] at hsum
 rw [hwid] at hlen
 have hcarry := means_getD (hzero.mono (h₁3.trans h4)) hsum (m + 1)
 exact yields_pure ⟨length_take_of_le (by omega), hcarry, spells_take hsum (by omega)⟩

theorem yields_biasedExponent {l e z : Nat} {shift : List Lit} {overflow : Lit} {o : Bool}
  (hshift : s.Spells shift z) (ho : s.Means overflow o) (hz : z ≤ l - 1) :
  s.Yields (Blaster.biasedExponent zero l e shift overflow) fun t r => r.length = e ∧
   t.Spells r ((l - 1 - z + (2 ^ (e - 1) - 1) + o.toNat) % 2 ^ e) := by
 apply yields_bind (yields_constBits _ e)
 rintro s1 base h1 ⟨hbase, hspells⟩
 obtain ⟨hresize, hcnt⟩ := spells_resize (hzero.mono h1) (hshift.mono h1) e
 apply yields_bind (yields_subtract hspells hcnt (hbase.trans hresize.symm))
 rintro s2 unrounded h2 ⟨hlen, hdiff⟩
 rw [hbase] at hlen hdiff
 have h₁2 := h1.trans h2
 apply yields_bind (yields_adder hdiff (spells_replicate (hzero.mono h₁2) e) (by rw [length_replicate, hlen])
  (ho.mono h₁2))
 rintro s3 r - ⟨hr, hsum, -⟩
 have heq : ((l - 1 + (2 ^ (e - 1) - 1)) % 2 ^ e + 2 ^ e - z % 2 ^ e) % 2 ^ e =
   (l - 1 - z + (2 ^ (e - 1) - 1)) % 2 ^ e := by
  apply Nat.ModEq.add_right_cancel' z
  have hdecompose := div_add_mod z (2 ^ e)
  have hleft : (l - 1 + (2 ^ (e - 1) - 1)) % 2 ^ e + 2 ^ e - z % 2 ^ e + z =
    (l - 1 + (2 ^ (e - 1) - 1)) % 2 ^ e + 2 ^ e * (z / 2 ^ e + 1) := by
   rw [mul_add, mul_one]
   omega
  have hright : l - 1 - z + (2 ^ (e - 1) - 1) + z = l - 1 + (2 ^ (e - 1) - 1) := by omega
  rw [hleft, hright, ModEq, add_mul_mod_self_left, mod_mod]
 rw [hlen, add_zero, heq, mod_add_mod] at hsum
 exact yields_pure ⟨hr.trans hlen, hsum⟩

end

/-- The circuit spells `floatBits` of its operand. -/
theorem yields_intToFloat (h : s.Spells value n) {signed : Bool} (hval : signed = true → value ≠ []) {e m : Nat}
  (he : 1 ≤ e) (he' : e ≤ 64) : ∃ act, Blaster.intToFloat value signed e m = some act ∧
   s.Yields act fun t r => r.length = m + (e + 1) ∧ t.Spells r (floatBits e m (integer signed value.length n)) := by
 obtain ⟨j, hl, hneed⟩ := doubled_spec (max value.length (m + 2)) 0
 rw [pow_zero] at hl
 rw [intToFloat, if_neg (by rintro (⟨hsigned, hnil⟩ | hbad) <;> [exact hval hsigned hnil; omega])]
 refine ⟨_, rfl, ?_⟩
 apply yields_bind yields_zero
 intro s1 zero h1 hzero
 apply yields_bind (yields_signMagnitude hzero (h.mono h1) hval)
 rintro s2 ⟨sign, magnitude⟩ h2 ⟨hlen, hsign, hmagnitude⟩
 generalize integer signed value.length n = i at hsign hmagnitude ⊢
 have hzero2 := hzero.mono h2
 obtain ⟨hwid, hcur⟩ := spells_resize hzero2 hmagnitude (2 ^ j)
 have hsmall : i.natAbs < 2 ^ 2 ^ j :=
  hmagnitude.lt.trans_le (Nat.pow_le_pow_right (by omega) (by omega))
 rw [mod_eq_of_lt hsmall] at hcur
 simp only [hl, stagesOf_spec j 0 (zero_le j)]
 apply yields_bind (yields_nor hcur)
 intro s3 isZero h3 hisZero
 apply yields_bind (yields_normalize j (hzero2.mono h3) (hcur.mono h3) hwid.ge fun hne => by
  grind)
 rintro s4 ⟨cur, shift⟩ h4 ⟨hcurLength, hshift, z, hz, hnormal, htop⟩
 dsimp only at hcurLength hshift hz hnormal htop ⊢
 rw [hwid] at hcurLength htop
 have hlt := hz.lt
 rw [hshift] at hlt
 have h₂4 := h3.trans h4
 obtain ⟨f, hf⟩ : ∃ f, 2 ^ j = f + m + 1 + 1 := ⟨2 ^ j - (m + 2), by omega⟩
 apply yields_bind (yields_roundRegister (hzero2.mono h₂4) hnormal (show cur.length = f + 1 + (m + 1) by omega))
 rintro s5 ⟨overflow, fraction⟩ h5 ⟨hfractionLength, hoverflow, hfrac⟩
 apply yields_bind (yields_biasedExponent (e := e) ((hzero2.mono h₂4).mono h5) (hz.mono h5) hoverflow (le_sub_one_of_lt hlt))
 rintro s₆ biased h₆ ⟨hbiasedLength, hbiased⟩
 have h₂₆ := h₂4.trans (h5.trans h₆)
 have hout := spells_append (hfrac.mono h₆) (spells_append hbiased
  (spells_cons (hsign.mono h₂₆) (show s₆.Spells [] 0 from rfl)))
 rw [hfractionLength, hbiasedLength, mul_zero, add_zero] at hout
 apply (yields_muxBits (hisZero.mono (h4.trans (h5.trans h₆))) (spells_replicate (hzero2.mono h₂₆) _) hout
  length_replicate).mono
 rintro s₇ r - ⟨hr, hspells⟩
 refine ⟨by rw [hr, length_replicate, length_append, length_append, hfractionLength, hbiasedLength,
  length_singleton], ?_⟩
 convert hspells using 1
 rw [floatBits]
 by_cases hi : i = 0
 · rw [if_pos hi, if_pos (decide_eq_true (by rw [hi]; rfl))]
 · have hne := Int.natAbs_ne_zero.2 hi
   have hless := hnormal.lt
   rw [hcurLength, hf] at hless
   rw [hf, Nat.add_sub_cancel] at htop
   obtain ⟨hlog, hround⟩ := normalized hne htop hless
   grind

end Valued

end Tir.Bitblast
