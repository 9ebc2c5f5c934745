import Tir.Adt.FloatSpec
import Tir.Bitblast.Circuits

/-!
# Comparing floating-point numbers

The circuit of `encode_float_compare` orders two IEEE bit patterns by their signs and by their low bits as unsigned numbers, with
NaNs and zeros apart. The low bits order magnitudes (`modulus_strictMono`), infinities beyond every finite number, so the literals are
the ordered comparisons of the exact values (`float_compare_correct`).
-/

open List Nat

namespace Tir.Bitblast

open Tir.Sat Tir.Adt Rounding Format

/-! ## The circuit -/

/-- The kinds that the encoder is called for. -/
inductive FloatCompare where
 | eq | ne | lt | le | gt | ge

namespace Blaster

def floatFormat : Nat → Option (Nat × Nat)
 | 32 => some (8, 23)
 | 64 => some (11, 52)
 | _ => none

/-- `fold(self.one, gate_and)`. -/
def andReduce : List Lit → Lit → Blast Lit
 | b :: bits, acc => do
   let acc ← gateAnd acc b
   andReduce bits acc
 | [], acc => return acc

def floatIsNan (fraction exponent : List Lit) : Blast Lit := do
 let exponentAllOnes ← andReduce exponent (← getOne)
 let fractionNonzero ← orReduce fraction
 gateAnd exponentAllOnes fractionNonzero

def floatIsZero (fraction exponent : List Lit) : Blast Lit := do
 let fractionZero ← nor fraction
 let exponentZero ← nor exponent
 gateAnd fractionZero exponentZero

/-- Whether the operands are ordered, both zero, and ordered and equal. -/
def floatEqual (e m : Nat) (lhs rhs : List Lit) : Blast (Lit × Lit × Lit) := do
 let lhsNan ← floatIsNan (lhs.take m) ((lhs.drop m).take e)
 let rhsNan ← floatIsNan (rhs.take m) ((rhs.drop m).take e)
 let unordered ← gateOr lhsNan rhsNan
 let ordered := unordered.negate
 let lhsZero ← floatIsZero (lhs.take m) ((lhs.drop m).take e)
 let rhsZero ← floatIsZero (rhs.take m) ((rhs.drop m).take e)
 let bothZero ← gateAnd lhsZero rhsZero
 let bitEqual ← eqBits lhs rhs
 let equalValue ← gateOr bitEqual bothZero
 let orderedEqual ← gateAnd ordered equalValue
 return (ordered, bothZero, orderedEqual)

def numericLess (lhs rhs : List Lit) (lhsSign rhsSign : Lit) : Blast Lit := do
 let signsDiffer ← gateXor lhsSign rhsSign
 let negativeBeforePositive ← gateAnd lhsSign signsDiffer
 let lhsMagnitude := lhs.take (lhs.length - 1)
 let rhsMagnitude := rhs.take (rhs.length - 1)
 let positiveNotLess ← uge lhsMagnitude rhsMagnitude
 let negativeNotLess ← uge rhsMagnitude lhsMagnitude
 let sameSignLess ← gateMux lhsSign negativeNotLess.negate positiveNotLess.negate
 gateMux signsDiffer negativeBeforePositive sameSignLess

def floatCompare (kind : FloatCompare) (e m : Nat) (lhs rhs : List Lit) (lhsSign rhsSign : Lit) : Blast (List Lit) := do
 let (ordered, bothZero, orderedEqual) ← floatEqual e m lhs rhs
 let numericLess ← numericLess lhs rhs lhsSign rhsSign
 let nonzeroLess ← gateAnd bothZero.negate numericLess
 let orderedLess ← gateAnd ordered nonzeroLess
 let neitherLessNorEqual ← gateAnd orderedLess.negate orderedEqual.negate
 let orderedGreater ← gateAnd ordered neitherLessNorEqual
 let result ← match kind with
  | .eq => pure orderedEqual
  | .ne => pure orderedEqual.negate
  | .lt => pure orderedLess
  | .le => gateAnd ordered orderedGreater.negate
  | .gt => pure orderedGreater
  | .ge => gateAnd ordered orderedLess.negate
 return [result]

/-- `none` is `UnknownWidth`. -/
def encodeFloatCompare (kind : FloatCompare) (lhs rhs : List Lit) : Option (Blast (List Lit)) := do
 let (e, m) ← floatFormat lhs.length
 if rhs.length ≠ lhs.length then none
 else
  let lhsSign ← lhs[m + e]?
  let rhsSign ← rhs[m + e]?
  return floatCompare kind e m lhs rhs lhsSign rhsSign

end Blaster

/-! ## Ordered comparisons -/

/-- The exact value of a datum, with infinities beyond every finite number. -/
noncomputable def extended : Datum → Option EReal
 | .nan _ _ => none
 | .infinity negative => some (signed negative ⊤)
 | .finite negative x => some (signed negative (x : EReal))

/-- Neither operand is a NaN, and the values are related. -/
def Ordered (R : EReal → EReal → Prop) (x y : Datum) : Prop :=
 ∃ a b, extended x = some a ∧ extended y = some b ∧ R a b

/-- The IEEE comparison of two data. -/
def FloatCompare.Holds : FloatCompare → Datum → Datum → Prop
 | .eq, x, y => Ordered (· = ·) x y
 | .ne, x, y => ¬Ordered (· = ·) x y
 | .lt, x, y => Ordered (· < ·) x y
 | .le, x, y => Ordered (· ≤ ·) x y
 | .gt, x, y => Ordered (· > ·) x y
 | .ge, x, y => Ordered (· ≥ ·) x y

/-- How two data compare. -/
inductive Comparison where
 | less | equal | greater | unordered

def Comparison.Holds : Comparison → Datum → Datum → Prop
 | .less, x, y => Ordered (· < ·) x y
 | .equal, x, y => Ordered (· = ·) x y
 | .greater, x, y => Ordered (· > ·) x y
 | .unordered, x, y => extended x = none ∨ extended y = none

theorem comparison_unique (x y : Datum) : ∃! c : Comparison, c.Holds x y := by
 cases hx : extended x with
 | none =>
  refine ⟨.unordered, .inl hx, fun c hc => ?_⟩
  cases c <;> simp_all [Comparison.Holds, Ordered]
 | some a =>
  cases hy : extended y with
  | none =>
   refine ⟨.unordered, .inr hy, fun c hc => ?_⟩
   cases c <;> simp_all [Comparison.Holds, Ordered]
  | some b =>
   rcases lt_trichotomy a b with hlt | heq | hgt
   · refine ⟨.less, ⟨a, b, hx, hy, hlt⟩, fun c hc => ?_⟩
     cases c <;> simp_all [Comparison.Holds, Ordered, hlt.ne, hlt.not_gt]
   · refine ⟨.equal, ⟨a, b, hx, hy, heq⟩, fun c hc => ?_⟩
     cases c <;> simp_all [Comparison.Holds, Ordered]
   · refine ⟨.greater, ⟨a, b, hx, hy, hgt⟩, fun c hc => ?_⟩
     cases c <;> simp_all [Comparison.Holds, Ordered, hgt.ne', hgt.not_gt]

/-! ## Magnitudes -/

section Magnitude

variable (format : Format)

/-- The magnitude that the bits below the sign stand for. -/
noncomputable def modulus (low : Nat) : EReal :=
 if low / 2 ^ format.fraction = format.special then ⊤ else (format.magnitude (low / 2 ^ format.fraction) (low % 2 ^ format.fraction) : ℝ)

variable {format}

theorem magnitude_lt {b c f g : Nat} (hf : f < 2 ^ format.fraction) (h : b < c ∨ b = c ∧ f < g) :
  format.magnitude b f < format.magnitude c g := by
 rcases h with hlt | ⟨rfl, hlt⟩
 · have hfrac : (f : ℝ) < 2 ^ format.fraction := by exact_mod_cast hf
   have hc : format.magnitude c g = (2 ^ format.fraction + g) * 2 ^ (c - format.bias - format.fraction) := if_neg (by omega)
   have hpow : (2 : ℝ) ^ (b - format.bias - format.fraction + 1) ≤ 2 ^ (c - format.bias - format.fraction) :=
    zpow_le_zpow_right₀ one_le_two (by omega)
   rw [zpow_add_one₀ two_ne_zero] at hpow
   have hunit : (0 : ℝ) < 2 ^ (b - format.bias - format.fraction) := by positivity
   have hb : format.magnitude b f < 2 ^ format.fraction * (2 ^ (b - format.bias - format.fraction) * 2) := by
    rw [magnitude]
    split
    next hzero =>
     have hexp : format.minimum - format.fraction = b - format.bias - format.fraction + 1 := by
      rw [Format.minimum, hzero]
      ring
     rw [hexp, zpow_add_one₀ two_ne_zero]
     exact mul_lt_mul_of_pos_right hfrac (by positivity)
    next => nlinarith
   rw [hc]
   calc format.magnitude b f < 2 ^ format.fraction * (2 ^ (b - format.bias - format.fraction) * 2) := hb
    _ ≤ (2 ^ format.fraction + g) * 2 ^ (c - format.bias - format.fraction) := by gcongr; linarith
 · have hfrac : (f : ℝ) < g := by exact_mod_cast hlt
   rw [magnitude, magnitude]
   split
   next => exact mul_lt_mul_of_pos_right hfrac (by positivity)
   next => exact mul_lt_mul_of_pos_right (by linarith) (by positivity)

/-- Up to the infinity, the bits below the sign order the magnitudes. -/
theorem modulus_strictMono : StrictMonoOn (modulus format) (Set.Iic (format.special * 2 ^ format.fraction)) := by
 intro k hk n hn hlt
 have hpos := Nat.two_pow_pos format.fraction
 have hdivide := Nat.div_le_div_right (c := 2 ^ format.fraction) hlt.le
 have hk' := Nat.div_add_mod k (2 ^ format.fraction)
 have hn' := Nat.div_add_mod n (2 ^ format.fraction)
 have hfinite : k / 2 ^ format.fraction ≠ format.special := by
  intro heq
  have hle := Nat.div_mul_le_self k (2 ^ format.fraction)
  rw [heq] at hle
  exact absurd (hlt.trans_le hn) (not_lt.2 hle)
 rw [modulus, modulus, if_neg hfinite]
 split
 next => exact EReal.coe_lt_top _
 next =>
  refine EReal.coe_lt_coe_iff.2 (magnitude_lt (Nat.mod_lt _ hpos) ?_)
  rcases hdivide.lt_or_eq with hless | hsame
  · exact .inl hless
  · refine .inr ⟨hsame, ?_⟩
    rw [hsame] at hk'
    omega

theorem modulus_zero (he : 1 < format.exponent) : modulus format 0 = 0 := by
 have hspecial : format.special ≠ 0 := by
  have hpow := Nat.one_lt_two_pow (n := format.exponent) (by omega)
  rw [special]
  omega
 rw [modulus, Nat.zero_div, if_neg hspecial.symm]
 simp [magnitude]

/-- Signed magnitudes are ordered by their signs and by the bits below them, and both zeros are equal. -/
theorem signed_modulus (he : 1 < format.exponent) {k n : Nat} (p q : Bool) (hk : k ≤ format.special * 2 ^ format.fraction)
  (hn : n ≤ format.special * 2 ^ format.fraction) : (signed p (modulus format k) < signed q (modulus format n) ↔
   ¬(k = 0 ∧ n = 0) ∧ if p = q then (if p then n < k else k < n) else p = true) ∧
  (signed p (modulus format k) = signed q (modulus format n) ↔ p = q ∧ k = n ∨ k = 0 ∧ n = 0) := by
 have hmono : StrictMonoOn (modulus format) (Set.Iic (format.special * 2 ^ format.fraction)) := modulus_strictMono
 have hzero : (0 : Nat) ∈ Set.Iic (format.special * 2 ^ format.fraction) := Nat.zero_le _
 have hlt := hmono.lt_iff_lt hk hn
 have hgt := hmono.lt_iff_lt hn hk
 have heq := hmono.injOn.eq_iff hk hn
 have hk0 : 0 ≤ modulus format k := modulus_zero he ▸ (hmono.le_iff_le hzero hk).2 k.zero_le
 have hn0 : 0 ≤ modulus format n := modulus_zero he ▸ (hmono.le_iff_le hzero hn).2 n.zero_le
 have hkz : modulus format k = 0 ↔ k = 0 := modulus_zero he ▸ hmono.injOn.eq_iff hk hzero
 have hnz : modulus format n = 0 ↔ n = 0 := modulus_zero he ▸ hmono.injOn.eq_iff hn hzero
 have hopposite : ∀ {a b : EReal}, 0 ≤ a → 0 ≤ b → (-a = b ↔ a = 0 ∧ b = 0) := by
  intro a b ha hb
  constructor
  · rintro rfl
    have ha' := le_antisymm (EReal.neg_nonneg.1 hb) ha
    exact ⟨ha', by rw [ha', neg_zero]⟩
  · rintro ⟨rfl, rfl⟩
    exact neg_zero
 have hbelow : ∀ {a b : EReal}, 0 ≤ a → 0 ≤ b → -a ≤ b := fun ha hb => (by simpa using EReal.neg_le_neg_iff.2 ha : _ ≤ (0 : EReal)).trans hb
 cases p <;> cases q
 · simp only [signed, Bool.false_eq_true, if_false, if_true, true_and, hlt, heq]
   omega
 · have hle := hbelow hn0 hk0
   have hsame := hopposite hn0 hk0
   simp only [signed, Bool.false_eq_true, if_false, if_true, false_and, false_or, and_false, eq_comm (a := modulus format k),
    hsame, hnz, hle.not_gt, true_and]
   rw [@eq_comm EReal 0, hkz, and_comm]
 · have hle := hbelow hk0 hn0
   have hsame := hopposite hk0 hn0
   simp [signed, lt_iff_le_and_ne, hle, hsame, hkz, hnz]
 · simp only [signed, if_true, EReal.neg_lt_neg_iff, neg_inj, true_and, hgt, heq]
   omega

end Magnitude

/-! ## Bit patterns -/

section Patterns

variable {format : Format}

/-- The bit pattern of a NaN. -/
def IsNan (format : Format) (x : Nat) : Prop :=
 x / 2 ^ format.fraction % 2 ^ format.exponent = format.special ∧ x % 2 ^ format.fraction ≠ 0

instance (x : Nat) : Decidable (IsNan format x) :=
 inferInstanceAs (Decidable (_ ∧ _))

/-- The bits below the sign. -/
def low (format : Format) (x : Nat) : Nat :=
 x % 2 ^ (format.fraction + format.exponent)

variable (format) in
theorem low_fields (x : Nat) : low format x / 2 ^ format.fraction = x / 2 ^ format.fraction % 2 ^ format.exponent ∧
  low format x % 2 ^ format.fraction = x % 2 ^ format.fraction := by
 rw [low, pow_add]
 exact ⟨Nat.mod_mul_right_div_self .., Nat.mod_mul_right_mod ..⟩

theorem low_le {x : Nat} (h : ¬IsNan format x) : low format x ≤ format.special * 2 ^ format.fraction := by
 obtain ⟨hexp, hfrac⟩ := low_fields format x
 have hdivide := Nat.div_add_mod (low format x) (2 ^ format.fraction)
 rw [hexp, hfrac, mul_comm] at hdivide
 rcases eq_or_ne (x / 2 ^ format.fraction % 2 ^ format.exponent) format.special with heq | hne
 · have hzero : x % 2 ^ format.fraction = 0 := not_not.1 fun hne => h ⟨heq, hne⟩
   rw [← hdivide, heq, hzero, add_zero]
 · have hless : x / 2 ^ format.fraction % 2 ^ format.exponent + 1 ≤ format.special := by
    rw [special] at hne ⊢
    omega
   have hmul := Nat.mul_le_mul_right (2 ^ format.fraction) hless
   rw [add_mul, one_mul] at hmul
   omega

theorem extended_datum (x : Nat) : extended (format.datum x) = if IsNan format x then none
  else some (signed (decide (x / 2 ^ (format.fraction + format.exponent) % 2 = 1)) (modulus format (low format x))) := by
 obtain ⟨hexp, hfrac⟩ := low_fields format x
 rw [datum, modulus, hexp, hfrac]
 by_cases hspecial : x / 2 ^ format.fraction % 2 ^ format.exponent = format.special
 · by_cases hzero : x % 2 ^ format.fraction = 0
   · simp [hspecial, hzero, IsNan, extended]
   · simp [hspecial, hzero, IsNan, extended]
 · simp [hspecial, IsNan, extended]

theorem ordered_datum {R : EReal → EReal → Prop} (x y : Nat) : Ordered R (format.datum x) (format.datum y) ↔
  (¬IsNan format x ∧ ¬IsNan format y) ∧
   R (signed (decide (x / 2 ^ (format.fraction + format.exponent) % 2 = 1)) (modulus format (low format x)))
    (signed (decide (y / 2 ^ (format.fraction + format.exponent) % 2 = 1)) (modulus format (low format y))) := by
 rw [Ordered, extended_datum, extended_datum]
 split
 next hx => simp [hx]
 next hx =>
  split
  next hy => simp [hy]
  next hy => simp [hx, hy]

/-- What the literals of a comparison say about two bit patterns. -/
structure Compares (format : Format) (x y : Nat) (ordered equal less : Bool) : Prop where
 ordered : ordered = true ↔ ¬IsNan format x ∧ ¬IsNan format y
 equal : equal = true ↔ Ordered (· = ·) (format.datum x) (format.datum y)
 less : less = true ↔ Ordered (· < ·) (format.datum x) (format.datum y)

/-- The bits of a comparison from those of the three literals. -/
def FloatCompare.value (kind : FloatCompare) (ordered equal less : Bool) : Bool :=
 let greater := ordered && (!less && !equal)
 match kind with
 | .eq => equal
 | .ne => !equal
 | .lt => less
 | .le => ordered && !greater
 | .gt => greater
 | .ge => ordered && !less

variable {x y : Nat} {ordered equal less : Bool}

theorem Compares.value_iff (h : Compares format x y ordered equal less) (kind : FloatCompare) :
  kind.value ordered equal less = true ↔ kind.Holds (format.datum x) (format.datum y) := by
 obtain ⟨hord, hequal, hless⟩ := h
 rw [ordered_datum, ← hord] at hequal hless
 cases ordered with
 | false =>
  simp only [Bool.false_eq_true, false_and, iff_false, Bool.not_eq_true] at hequal hless
  cases kind <;> simp [FloatCompare.value, FloatCompare.Holds, ordered_datum, ← hord, hequal, hless]
 | true =>
  rw [and_iff_right rfl] at hequal hless
  cases kind <;>
   simp only [FloatCompare.value, FloatCompare.Holds, ordered_datum, gt_iff_lt, ge_iff_le, ← hord, Bool.true_and, true_and,
    Bool.and_eq_true, Bool.not_eq_true', ← Bool.not_eq_true, hequal, hless]
  · rw [← not_or, not_not, le_iff_lt_or_eq]
  · exact ⟨fun h => lt_of_le_of_ne (not_lt.1 h.1) (Ne.symm h.2), fun h => ⟨h.not_gt, h.ne'⟩⟩
  · exact not_lt

/-- The circuit's tests on the signs and on the bits below them are the comparisons. -/
theorem compares (he : 1 < format.exponent) (hx : x < 2 ^ (format.fraction + format.exponent + 1))
  (hy : y < 2 ^ (format.fraction + format.exponent + 1)) {p q : Bool}
  (hp : p = decide (x / 2 ^ (format.fraction + format.exponent) % 2 = 1))
  (hq : q = decide (y / 2 ^ (format.fraction + format.exponent) % 2 = 1)) :
  let ordered := !(decide (IsNan format x) || decide (IsNan format y))
  let zeros := decide (low format x = 0) && decide (low format y = 0)
  Compares format x y ordered (ordered && (decide (x = y) || zeros))
   (ordered && (!zeros && if p ^^ q then p && (p ^^ q)
    else if p then !decide (low format x ≤ low format y) else !decide (low format y ≤ low format x))) := by
 intro ordered zeros
 have hord : ordered = true ↔ ¬IsNan format x ∧ ¬IsNan format y := by simp [ordered]
 refine ⟨hord, ?_, ?_⟩
 all_goals
  rw [ordered_datum, Bool.and_eq_true, ← hord, ← hp, ← hq]
  refine and_congr_right fun hboth => ?_
  obtain ⟨hnanx, hnany⟩ := hord.1 hboth
  obtain ⟨hlt, heq⟩ := signed_modulus he p q (low_le hnanx) (low_le hnany)
 · have hsame : x = y ↔ p = q ∧ low format x = low format y := by
    rw [pow_succ] at hx hy
    have hx' := Nat.div_lt_of_lt_mul hx
    have hy' := Nat.div_lt_of_lt_mul hy
    have hdx := Nat.div_add_mod x (2 ^ (format.fraction + format.exponent))
    have hdy := Nat.div_add_mod y (2 ^ (format.fraction + format.exponent))
    constructor
    · rintro rfl
      exact ⟨hp.trans hq.symm, rfl⟩
    · rintro ⟨hsign, hlow⟩
      have hbit : ∀ a < 2, ∀ b < 2, (a % 2 = 1 ↔ b % 2 = 1) → a = b := by decide
      rw [hp, hq, decide_eq_decide] at hsign
      have hdiv := hbit _ hx' _ hy' hsign
      rw [low, low] at hlow
      rw [← hdx, ← hdy, hdiv, hlow]
   rw [heq, ← hsame]
   simp [zeros]
 · rw [hlt]
   cases p <;> cases q <;> simp [zeros, imp_iff_not_or]

end Patterns

/-! ## Correctness -/

section Circuit

variable {s : Valued} {format : Format} {bits lhs rhs : List Lit} {n x y : Nat}

open Tir.Bitblast.Valued

theorem yields_andReduce {acc : Lit} {v : Bool} (hacc : s.Means acc v) (h : s.Spells bits n) :
  s.Yields (Blaster.andReduce bits acc) fun t r => t.Means r (v && n + 1 = 2 ^ bits.length) := by
 induction bits generalizing n s acc v with
 | nil =>
  obtain rfl : n = 0 := h
  exact yields_pure (by simpa using hacc)
 | cons l bits ih =>
  obtain ⟨p, n, hl, hbits, rfl⟩ := h
  apply yields_bind (yields_and hacc hl)
  intro t r hext hr
  apply (ih hr (hbits.mono hext)).mono
  intro u r _ hr
  convert hr using 1
  rw [length_cons, pow_succ, Bool.and_assoc]
  congr 1
  cases p
  · simp
    omega
  · simp
    omega

variable (hx : s.Spells lhs x) (hlength : lhs.length = format.fraction + format.exponent + 1)

include hx hlength

theorem spells_fields : s.Spells (lhs.take format.fraction) (x % 2 ^ format.fraction) ∧
  s.Spells ((lhs.drop format.fraction).take format.exponent) (x / 2 ^ format.fraction % 2 ^ format.exponent) := by
 refine ⟨spells_take hx (by omega), spells_take (spells_drop hx (by omega)) ?_⟩
 rw [length_drop]
 omega

theorem yields_floatIsNan : s.Yields (Blaster.floatIsNan (lhs.take format.fraction) ((lhs.drop format.fraction).take format.exponent))
  fun t r => t.Means r (IsNan format x) := by
 obtain ⟨hfrac, hexp⟩ := spells_fields hx hlength
 have hlen : ((lhs.drop format.fraction).take format.exponent).length = format.exponent := by
  rw [length_take, length_drop]
  omega
 apply yields_bind yields_one
 intro t one hext hone
 apply yields_bind (yields_andReduce hone (hexp.mono hext))
 intro u ones hext' hones
 apply yields_bind (yields_orReduce (hfrac.mono (hext.trans hext')))
 intro w nonzero hext'' hnonzero
 apply (yields_and (hones.mono hext'') hnonzero).mono
 intro _ r _ hr
 convert hr using 1
 rw [hlen, Bool.true_and, ← Bool.decide_and, decide_eq_decide]
 refine and_congr ?_ Iff.rfl
 rw [special]
 omega

theorem yields_floatIsZero : s.Yields (Blaster.floatIsZero (lhs.take format.fraction) ((lhs.drop format.fraction).take format.exponent))
  fun t r => t.Means r (low format x = 0) := by
 obtain ⟨hfrac, hexp⟩ := spells_fields hx hlength
 apply yields_bind (yields_nor hfrac)
 intro t fractionZero hext hfractionZero
 apply yields_bind (yields_nor (hexp.mono hext))
 intro u exponentZero hext' hexponentZero
 apply (yields_and (hfractionZero.mono hext') hexponentZero).mono
 intro _ r _ hr
 convert hr using 1
 obtain ⟨hdiv, hmod⟩ := low_fields format x
 rw [← Bool.decide_and, decide_eq_decide, ← hdiv, ← hmod]
 have hsplit := Nat.div_add_mod (low format x) (2 ^ format.fraction)
 constructor
 · intro hzero
   rw [hzero]
   simp
 · rintro ⟨hm, hd⟩
   rw [← hsplit, hm, hd, mul_zero]

variable (hy : s.Spells rhs y) (hlen : rhs.length = lhs.length)

include hy hlen

theorem yields_floatEqual : s.Yields (Blaster.floatEqual format.exponent format.fraction lhs rhs) fun t r =>
  let ordered := !(decide (IsNan format x) || decide (IsNan format y))
  let zeros := decide (low format x = 0) && decide (low format y = 0)
  t.Means r.1 ordered ∧ t.Means r.2.1 zeros ∧ t.Means r.2.2 (ordered && (decide (x = y) || zeros)) := by
 have hlength' := hlen.trans hlength
 apply yields_bind (yields_floatIsNan hx hlength)
 intro t1 lhsNan h1 hlhsNan
 apply yields_bind (yields_floatIsNan (hy.mono h1) hlength')
 intro t2 rhsNan h2 hrhsNan
 apply yields_bind (yields_or (hlhsNan.mono h2) hrhsNan)
 intro t3 unordered h3 hunordered
 have e3 := (h1.trans h2).trans h3
 apply yields_bind (yields_floatIsZero (hx.mono e3) hlength)
 intro t4 lhsZero h4 hlhsZero
 apply yields_bind (yields_floatIsZero (hy.mono (e3.trans h4)) hlength')
 intro t5 rhsZero h5 hrhsZero
 apply yields_bind (yields_and (hlhsZero.mono h5) hrhsZero)
 intro t₆ bothZero h₆ hbothZero
 have e₆ := ((e3.trans h4).trans h5).trans h₆
 apply yields_bind (yields_eqBits (hx.mono e₆) (hy.mono e₆) hlen.symm)
 intro t₇ bitEqual h₇ hbitEqual
 apply yields_bind (yields_or hbitEqual (hbothZero.mono h₇))
 intro t₈ equalValue h₈ hequalValue
 have hord := hunordered.negate.mono ((((h4.trans h5).trans h₆).trans h₇).trans h₈)
 apply yields_bind (yields_and hord hequalValue)
 intro t₉ orderedEqual h₉ horderedEqual
 exact yields_pure ⟨hord.mono h₉, hbothZero.mono ((h₇.trans h₈).trans h₉), horderedEqual⟩

theorem yields_numericLess {lhsSign rhsSign : Lit} {p q : Bool} (hp : s.Means lhsSign p) (hq : s.Means rhsSign q) :
  s.Yields (Blaster.numericLess lhs rhs lhsSign rhsSign) fun t r => t.Means r (if p ^^ q then p && (p ^^ q)
   else if p then !decide (low format x ≤ low format y) else !decide (low format y ≤ low format x)) := by
 have hlow : s.Spells (lhs.take (lhs.length - 1)) (low format x) := by
  rw [hlength, Nat.add_sub_cancel]
  exact spells_take hx (by omega)
 have hlow' : s.Spells (rhs.take (rhs.length - 1)) (low format y) := by
  rw [hlen, hlength, Nat.add_sub_cancel]
  exact spells_take hy (by omega)
 have hsame : (lhs.take (lhs.length - 1)).length = (rhs.take (rhs.length - 1)).length := by
  rw [length_take, length_take, hlen]
 apply yields_bind (yields_xor hp hq)
 intro t1 signsDiffer h1 hsignsDiffer
 apply yields_bind (yields_and (hp.mono h1) hsignsDiffer)
 intro t2 negative h2 hnegative
 have e2 := h1.trans h2
 apply yields_bind (yields_uge (hlow.mono e2) (hlow'.mono e2) hsame)
 intro t3 positiveNotLess h3 hpositive
 have e3 := e2.trans h3
 apply yields_bind (yields_uge (hlow'.mono e3) (hlow.mono e3) hsame.symm)
 intro t4 negativeNotLess h4 hnegativeNotLess
 apply yields_bind (yields_mux (hp.mono (e3.trans h4)) hnegativeNotLess.negate (hpositive.mono h4).negate)
 intro t5 sameSignLess h5 hsameSign
 exact yields_mux (hsignsDiffer.mono (((h2.trans h3).trans h4).trans h5)) (hnegative.mono ((h3.trans h4).trans h5)) hsameSign

variable (format) in
theorem yields_floatCompare (he : 1 < format.exponent) (kind : FloatCompare) {lhsSign rhsSign : Lit}
  (hp : s.Means lhsSign (x.testBit (format.fraction + format.exponent)))
  (hq : s.Means rhsSign (y.testBit (format.fraction + format.exponent))) :
  s.Yields (Blaster.floatCompare kind format.exponent format.fraction lhs rhs lhsSign rhsSign) fun t r =>
   ∃ l v, r = [l] ∧ t.Means l v ∧ (v = true ↔ kind.Holds (format.datum x) (format.datum y)) := by
 have hcompares := compares he (hlength ▸ hx.lt) (hlength ▸ hlen ▸ hy.lt) (Nat.testBit_eq_decide_div_mod_eq ..)
  (Nat.testBit_eq_decide_div_mod_eq ..)
 apply yields_bind (yields_floatEqual hx hlength hy hlen)
 rintro t1 ⟨ordered, bothZero, orderedEqual⟩ h1 ⟨hord, hbothZero, hequal⟩
 apply yields_bind (yields_numericLess (hx.mono h1) hlength (hy.mono h1) hlen (hp.mono h1) (hq.mono h1))
 intro t2 numericLess h2 hnumeric
 apply yields_bind (yields_and (hbothZero.mono h2).negate hnumeric)
 intro t3 nonzeroLess h3 hnonzero
 have e3 := h2.trans h3
 apply yields_bind (yields_and (hord.mono e3) hnonzero)
 intro t4 orderedLess h4 hless
 have e4 := e3.trans h4
 apply yields_bind (yields_and hless.negate (hequal.mono e4).negate)
 intro t5 neither h5 hneither
 have e5 := e4.trans h5
 apply yields_bind (yields_and (hord.mono e5) hneither)
 intro t₆ orderedGreater h₆ hgreater
 have e₆ := e5.trans h₆
 have hval := hcompares.value_iff kind
 cases kind
 · exact yields_pure ⟨_, _, rfl, hequal.mono e₆, hval⟩
 · exact yields_pure ⟨_, _, rfl, (hequal.mono e₆).negate, hval⟩
 · exact yields_pure ⟨_, _, rfl, hless.mono (h5.trans h₆), hval⟩
 · exact yields_bind (yields_and (hord.mono e₆) hgreater.negate) fun _ _ _ h => yields_pure ⟨_, _, rfl, h, hval⟩
 · exact yields_pure ⟨_, _, rfl, hgreater, hval⟩
 · exact yields_bind (yields_and (hord.mono e₆) (hless.mono (h5.trans h₆)).negate) fun _ _ _ h =>
    yields_pure ⟨_, _, rfl, h, hval⟩

end Circuit

theorem floatFormat_eq {w e m : Nat} (h : Blaster.floatFormat w = some (e, m)) : w = m + e + 1 ∧ 1 < e := by
 rw [Blaster.floatFormat.eq_def] at h
 split at h
 next => cases h; decide
 next => cases h; decide
 next => cases h

/-- Every comparison's literal is the ordered comparison of the exact values of the operands, of which one at a time holds. -/
theorem float_compare_correct {s : Valued} {lhs rhs : List Lit} {x y e m : Nat} (hformat : Blaster.floatFormat lhs.length = some (e, m))
  (hlen : rhs.length = lhs.length) (hx : s.Spells lhs x) (hy : s.Spells rhs y) :
  (∀ kind, ∃ act, Blaster.encodeFloatCompare kind lhs rhs = some act ∧ s.Yields act fun t r =>
   ∃ l v, r = [l] ∧ t.Means l v ∧ (v = true ↔ kind.Holds (Format.datum ⟨m, e⟩ x) (Format.datum ⟨m, e⟩ y))) ∧
  ∃! c : Comparison, c.Holds (Format.datum ⟨m, e⟩ x) (Format.datum ⟨m, e⟩ y) := by
 obtain ⟨hlength, he⟩ := floatFormat_eq hformat
 refine ⟨fun kind => ?_, comparison_unique _ _⟩
 have hl : lhs[m + e]? = some (lhs.get ⟨m + e, by omega⟩) := getElem?_eq_getElem _
 have hr : rhs[m + e]? = some (rhs.get ⟨m + e, by omega⟩) := getElem?_eq_getElem _
 refine ⟨Blaster.floatCompare kind e m lhs rhs _ _, ?_,
  yields_floatCompare ⟨m, e⟩ hx hlength hy hlen he kind (Valued.means_getElem hx hl) (Valued.means_getElem hy hr)⟩
 simp [Blaster.encodeFloatCompare, hformat, hlen, hl, hr]

theorem float_compare_correct_one_two :
  (∀ kind, ∃ act, Blaster.encodeFloatCompare kind (Valued.start.constants 0x3F800000 32) (Valued.start.constants 0x40000000 32) = some act ∧
   Valued.start.Yields act fun t r => ∃ l v, r = [l] ∧ t.Means l v ∧
    (v = true ↔ kind.Holds (Format.datum ⟨23, 8⟩ 0x3F800000) (Format.datum ⟨23, 8⟩ 0x40000000))) ∧
  ∃! c : Comparison, c.Holds (Format.datum ⟨23, 8⟩ 0x3F800000) (Format.datum ⟨23, 8⟩ 0x40000000) :=
 float_compare_correct (by decide) (by decide) (Valued.start.spells_constants 0x3F800000 32) (Valued.start.spells_constants 0x40000000 32)

end Tir.Bitblast
