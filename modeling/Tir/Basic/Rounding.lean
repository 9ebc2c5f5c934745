import Mathlib.Data.Int.Log
import Mathlib.Algebra.Order.Archimedean.Real.Basic
import Mathlib.Tactic.Positivity

/-!
# Rounding a real to an integer

The five IEEE rounding directions on reals (`RoundingMode.toInt`). Which integer a magnitude rounds to depends
only on its whole number of halves and on whether more is left (`toInt_signed`). A natural number whose lowest
bit is sticky stands for every real in the open interval between its even neighbours: dividing both by a
multiple of two leaves the same whole number and the same answer to whether something is left (`Sticky.floor_div`).
-/

open Nat Int

namespace Tir.Rounding

/-- IEEE rounding directions and tie-breaking rules. -/
inductive RoundingMode where
 | tiesToEven | towardZero | towardNegative | towardPositive | tiesToAway
deriving DecidableEq

scoped instance atLeastTwo_two : Nat.AtLeastTwo 2 := ⟨le_rfl⟩

/-- The integer a real rounds to. -/
noncomputable def RoundingMode.toInt (mode : RoundingMode) (v : ℝ) : ℤ :=
 match mode with
 | .tiesToEven =>
  if v - ⌊v⌋ < 1 / 2 then ⌊v⌋ else if 1 / 2 < v - ⌊v⌋ then ⌊v⌋ + 1 else if Even ⌊v⌋ then ⌊v⌋ else ⌊v⌋ + 1
 | .towardZero => if v < 0 then ⌈v⌉ else ⌊v⌋
 | .towardNegative => ⌊v⌋
 | .towardPositive => ⌈v⌉
 | .tiesToAway =>
  if v - ⌊v⌋ < 1 / 2 then ⌊v⌋ else if 1 / 2 < v - ⌊v⌋ then ⌊v⌋ + 1 else if v < 0 then ⌊v⌋ else ⌊v⌋ + 1

/-- A sign applied to a magnitude. -/
def signed {α : Type} [Neg α] (negative : Bool) (a : α) : α :=
 if negative then -a else a

/-- A magnitude of a whole number of halves, and perhaps something more, is rounded up. -/
def RoundingMode.increment (mode : RoundingMode) (negative : Bool) (halves : ℕ) (more : Bool) : Bool :=
 match mode with
 | .tiesToEven => halves % 2 = 1 && (more || halves / 2 % 2 = 1)
 | .tiesToAway => halves % 2 = 1
 | .towardZero => false
 | .towardNegative => negative && (halves % 2 = 1 || more)
 | .towardPositive => !negative && (halves % 2 = 1 || more)

def RoundingMode.pick (mode : RoundingMode) (negative : Bool) (halves : ℕ) (more : Bool) : ℕ :=
 halves / 2 + if mode.increment negative halves more then 1 else 0

/-! ## Signs -/

section Signed

variable {negative : Bool} {a : ℝ}

theorem abs_signed (ha : 0 ≤ a) : |signed negative a| = a := by
 cases negative
 · exact abs_of_nonneg ha
 · change |-a| = a
   rw [abs_neg, abs_of_nonneg ha]

theorem signed_neg_iff (ha : 0 < a) : signed negative a < 0 ↔ negative = true := by
 cases negative
 · exact ⟨fun h => absurd h ha.le.not_gt, nofun⟩
 · exact ⟨fun _ => rfl, fun _ => neg_neg_of_pos ha⟩

theorem signed_div (b : ℝ) : signed negative a / b = signed negative (a / b) := by
 cases negative
 · rfl
 · exact neg_div b a

theorem signed_mul (b : ℝ) : signed negative a * b = signed negative (a * b) := by
 cases negative
 · rfl
 · exact neg_mul a b

theorem cast_signed (n : ℤ) : ((signed negative n : ℤ) : ℝ) = signed negative (n : ℝ) := by
 cases negative
 · rfl
 · exact cast_neg n

theorem signed_inj {b : ℝ} : signed negative a = signed negative b ↔ a = b := by
 cases negative
 · exact Iff.rfl
 · exact neg_inj

theorem signed_eq_zero : signed negative a = 0 ↔ a = 0 := by
 cases negative
 · exact Iff.rfl
 · exact neg_eq_zero

theorem signed_add (b : ℝ) : signed negative a + signed negative b = signed negative (a + b) := by
 cases negative
 · rfl
 · exact (neg_add a b).symm

theorem signed_not : signed (!negative) a = signed negative (-a) := by
 cases negative
 · rfl
 · exact (neg_neg a).symm

theorem signed_add_not (b : ℝ) : signed negative a + signed (!negative) b = signed negative (a - b) := by
 rw [signed_not, signed_add, sub_eq_add_neg]

end Signed

/-! ## Magnitudes -/

section Magnitude

variable {a : ℝ} {n : ℕ}

section

variable {v : ℝ} {n c : ℤ} (hfloor : ⌊v⌋ = n) (hceil : ⌈v⌉ = c)

include hfloor hceil

theorem toInt_near_floor (hless : v - n < 1 / 2) (mode : RoundingMode) :
  mode.toInt v = match mode with
   | .towardZero => if v < 0 then c else n
   | .towardPositive => c
   | _ => n := by
 subst hfloor hceil
 cases mode with
 | tiesToEven => exact if_pos hless
 | tiesToAway => exact if_pos hless
 | towardZero => rfl
 | towardNegative => rfl
 | towardPositive => rfl

theorem toInt_near_ceil (hgreater : 1 / 2 < v - n) (mode : RoundingMode) :
  mode.toInt v = match mode with
   | .towardZero => if v < 0 then c else n
   | .towardNegative => n
   | .towardPositive => c
   | _ => n + 1 := by
 subst hfloor hceil
 cases mode with
 | tiesToEven => exact (if_neg hgreater.not_gt).trans (if_pos hgreater)
 | tiesToAway => exact (if_neg hgreater.not_gt).trans (if_pos hgreater)
 | towardZero => rfl
 | towardNegative => rfl
 | towardPositive => rfl

theorem toInt_halfway (heq : v - n = 1 / 2) (mode : RoundingMode) :
  mode.toInt v = match mode with
   | .tiesToEven => if Even n then n else n + 1
   | .tiesToAway => if v < 0 then n else n + 1
   | .towardZero => if v < 0 then c else n
   | .towardNegative => n
   | .towardPositive => c := by
 subst hfloor hceil
 cases mode with
 | tiesToEven => exact (if_neg heq.not_lt).trans (if_neg heq.not_gt)
 | tiesToAway => exact (if_neg heq.not_lt).trans (if_neg heq.not_gt)
 | towardZero => rfl
 | towardNegative => rfl
 | towardPositive => rfl

end

theorem toInt_bounds (mode : RoundingMode) (v : ℝ) : ⌊v⌋ ≤ mode.toInt v ∧ mode.toInt v ≤ ⌈v⌉ := by
 have hle := Int.floor_le_ceil v
 rcases lt_trichotomy (v - ⌊v⌋) (1 / 2) with hless | heq | hgreater
 · rw [toInt_near_floor rfl rfl hless]
   cases mode <;> dsimp only <;> (try split) <;> omega
 · have hsucc : ⌊v⌋ < ⌈v⌉ := Int.lt_ceil.2 (by linarith)
   rw [toInt_halfway rfl rfl heq]
   cases mode <;> dsimp only <;> (try split) <;> omega
 · have hsucc : ⌊v⌋ < ⌈v⌉ := Int.lt_ceil.2 (by linarith)
   rw [toInt_near_ceil rfl rfl hgreater]
   cases mode <;> dsimp only <;> (try split) <;> omega

/-- The natural number a magnitude rounds to stands between its floor and its ceiling. -/
theorem magnitude_bounds {mode : RoundingMode} {negative : Bool} {p : ℕ}
  (h : mode.toInt (signed negative a) = signed negative (p : ℤ)) : ⌊a⌋ ≤ p ∧ (p : ℤ) ≤ ⌈a⌉ := by
 obtain ⟨hlow, hhigh⟩ := toInt_bounds mode (signed negative a)
 rw [h] at hlow hhigh
 cases negative
 · exact ⟨hlow, hhigh⟩
 · change ⌊-a⌋ ≤ -(p : ℤ) at hlow
   change -(p : ℤ) ≤ ⌈-a⌉ at hhigh
   rw [floor_neg] at hlow
   rw [ceil_neg] at hhigh
   omega

variable (mode : RoundingMode) (negative : Bool)

include mode negative

theorem pick_even (n : ℕ) (more : Bool) :
  mode.pick negative (2 * n) more = match mode with
   | .towardNegative => n + if negative && more then 1 else 0
   | .towardPositive => n + if !negative && more then 1 else 0
   | _ => n := by
 have hdiv : 2 * n / 2 = n := by omega
 have hmod : 2 * n % 2 = 0 := by omega
 cases mode <;> simp [RoundingMode.pick, RoundingMode.increment, hdiv, hmod]

theorem pick_odd (n : ℕ) (more : Bool) :
  mode.pick negative (2 * n + 1) more = match mode with
   | .tiesToEven => n + if more || n % 2 = 1 then 1 else 0
   | .tiesToAway => n + 1
   | .towardZero => n
   | .towardNegative => n + if negative then 1 else 0
   | .towardPositive => n + if !negative then 1 else 0 := by
 have hdiv : (2 * n + 1) / 2 = n := by omega
 have hmod : (2 * n + 1) % 2 = 1 := by omega
 cases mode <;> simp [RoundingMode.pick, RoundingMode.increment, hdiv, hmod]

theorem toInt_natCast (n : ℕ) :
  mode.toInt (signed negative (n : ℝ)) = signed negative (n : ℤ) := by
 have hcast : signed negative (n : ℝ) = ((signed negative (n : ℤ) : ℤ) : ℝ) := by
  rw [cast_signed, cast_natCast]
 rw [hcast, toInt_near_floor (floor_intCast _) (Int.ceil_intCast _) (by rw [sub_self]; norm_num)]
 cases mode <;> simp

theorem toInt_below (hlow : (n : ℝ) < a) (hhigh : 2 * a < 2 * n + 1) :
  mode.toInt (signed negative a) = signed negative (mode.pick negative (2 * n) true : ℤ) := by
 have hfloor : ⌊a⌋ = (n : ℤ) := Int.floor_eq_iff.2 ⟨by rw [cast_natCast]; linarith, by rw [cast_natCast]; linarith⟩
 have hceil : ⌈a⌉ = (n : ℤ) + 1 := Int.ceil_eq_iff.2 ⟨by push_cast; linarith, by push_cast; linarith⟩
 have hpos : 0 < a := (Nat.cast_nonneg n).trans_lt hlow
 rw [pick_even]
 cases negative with
 | false =>
  change mode.toInt a = _
  rw [toInt_near_floor hfloor hceil (by push_cast; linarith)]
  cases mode <;> simp [signed, hpos.not_gt]
 | true =>
  change mode.toInt (-a) = _
  rw [toInt_near_ceil (floor_neg.trans (congrArg _ hceil)) (ceil_neg.trans (congrArg _ hfloor))
   (by push_cast; linarith)]
  cases mode <;> simp [signed, hpos]

/-- A magnitude at the half: the negative one is even where the magnitude's floor is odd. -/
theorem toInt_half (heq : 2 * a = 2 * n + 1) :
  mode.toInt (signed negative a) = signed negative (mode.pick negative (2 * n + 1) false : ℤ) := by
 have hfloor : ⌊a⌋ = (n : ℤ) := Int.floor_eq_iff.2 ⟨by rw [cast_natCast]; linarith, by rw [cast_natCast]; linarith⟩
 have hceil : ⌈a⌉ = (n : ℤ) + 1 := Int.ceil_eq_iff.2 ⟨by push_cast; linarith, by push_cast; linarith⟩
 have hpos : 0 < a := by linarith
 rw [pick_odd]
 rcases Nat.even_or_odd n with heven | hodd
 · have hmod : n % 2 = 0 := Nat.even_iff.1 heven
   have hup : ¬Even (-((n : ℤ) + 1)) := by
    grind
   cases negative with
   | false =>
    change mode.toInt a = _
    rw [toInt_halfway hfloor hceil (by push_cast; linarith)]
    cases mode <;> simp [signed, hpos.not_gt, heven, hmod]
   | true =>
    change mode.toInt (-a) = _
    rw [toInt_halfway (floor_neg.trans (congrArg _ hceil)) (ceil_neg.trans (congrArg _ hfloor))
     (by push_cast; linarith)]
    cases mode with
    | tiesToEven => exact (if_neg hup).trans (by simp [signed, hmod])
    | _ => simp [signed, hpos]
 · have hmod : n % 2 = 1 := Nat.odd_iff.1 hodd
   have hup : Even (-((n : ℤ) + 1)) := by
    grind
   have hdown : ¬Even n := Nat.not_even_iff_odd.2 hodd
   cases negative with
   | false =>
    change mode.toInt a = _
    rw [toInt_halfway hfloor hceil (by push_cast; linarith)]
    cases mode <;> simp [signed, hpos.not_gt, hdown, hmod]
   | true =>
    change mode.toInt (-a) = _
    rw [toInt_halfway (floor_neg.trans (congrArg _ hceil)) (ceil_neg.trans (congrArg _ hfloor))
     (by push_cast; linarith)]
    cases mode with
    | tiesToEven => exact (if_pos hup).trans (by simp [signed, hmod])
    | _ => simp [signed, hpos]

theorem toInt_above (hlow : 2 * (n : ℝ) + 1 < 2 * a) (hhigh : a < n + 1) :
  mode.toInt (signed negative a) = signed negative (mode.pick negative (2 * n + 1) true : ℤ) := by
 have hfloor : ⌊a⌋ = (n : ℤ) := Int.floor_eq_iff.2 ⟨by rw [cast_natCast]; linarith, by rw [cast_natCast]; linarith⟩
 have hceil : ⌈a⌉ = (n : ℤ) + 1 := Int.ceil_eq_iff.2 ⟨by push_cast; linarith, by push_cast; linarith⟩
 have hpos : 0 < a := by linarith
 rw [pick_odd]
 cases negative with
 | false =>
  change mode.toInt a = _
  rw [toInt_near_ceil hfloor hceil (by push_cast; linarith)]
  cases mode <;> simp [signed, hpos.not_gt]
 | true =>
  change mode.toInt (-a) = _
  rw [toInt_near_floor (floor_neg.trans (congrArg _ hceil)) (ceil_neg.trans (congrArg _ hfloor))
   (by push_cast; linarith)]
  cases mode <;> simp [signed, hpos]

/-- The integer a signed magnitude rounds to depends on its halves and on whether more is left. -/
theorem toInt_signed {h : ℕ} (hle : (h : ℝ) ≤ 2 * a) (hlt : 2 * a < h + 1) :
  mode.toInt (signed negative a) = signed negative (mode.pick negative h (decide ((h : ℝ) ≠ 2 * a)) : ℤ) := by
 rcases Nat.even_or_odd' h with ⟨n, rfl | rfl⟩
 · push_cast at hle hlt ⊢
   by_cases hexact : 2 * (n : ℝ) = 2 * a
   · grind [toInt_natCast, pick_even]
   grind [toInt_below]
 · push_cast at hle hlt ⊢
   by_cases hexact : 2 * (n : ℝ) + 1 = 2 * a
   · grind [toInt_half]
   grind [toInt_above]

end Magnitude

/-! ## Sticky bits -/

/-- A natural number stands for a real: exactly, or with a lowest bit that says the real is strictly between the
even neighbours. -/
def Sticky (m : ℕ) (x : ℝ) : Prop :=
 x = m ∨ Odd m ∧ (m : ℝ) - 1 < x ∧ x < m + 1

theorem Sticky.exact (m : ℕ) : Sticky m m :=
 .inl rfl

namespace Sticky

variable {m : ℕ} {x : ℝ}

section

variable {t : ℕ} (h : Sticky m x) (ht : x = m ∨ Even t)

include h ht

/-- Even numbers separate the real as they separate the number that stands for it. -/
theorem lt_iff : x < t ↔ m < t := by
 rcases h with rfl | ⟨hodd, hlow, hhigh⟩
 · exact Nat.cast_lt
 · rcases ht with rfl | heven
   · exact Nat.cast_lt
   · obtain ⟨i, rfl⟩ := hodd
     obtain ⟨j, rfl⟩ := heven
     push_cast at hlow hhigh ⊢
     constructor
     · intro hless
       have hcast : (2 * (i : ℝ)) < j + j := by linarith
       have hij : 2 * i < j + j := by exact_mod_cast hcast
       omega
     · intro hless
       have hij : i + 1 ≤ j := by omega
       have hcast : (i : ℝ) + 1 ≤ j := by exact_mod_cast hij
       linarith

theorem le_iff : (t : ℝ) ≤ x ↔ t ≤ m := by
 rw [← not_lt, h.lt_iff ht, not_lt]

theorem eq_iff : x = t ↔ m = t := by
 rcases h with rfl | ⟨hodd, hlow, hhigh⟩
 · exact Nat.cast_inj
 · rcases ht with rfl | heven
   · exact Nat.cast_inj
   · obtain ⟨i, rfl⟩ := hodd
     obtain ⟨j, rfl⟩ := heven
     push_cast at hlow hhigh ⊢
     constructor
     · rintro rfl
       have hcast : 2 * (i : ℝ) < 2 * j := by linarith
       have hcast' : 2 * (j : ℝ) < 2 * (i + 1) := by linarith
       have hij : 2 * i < 2 * j := by exact_mod_cast hcast
       have hij' : 2 * j < 2 * (i + 1) := by exact_mod_cast hcast'
       omega
     · intro heq
       omega

end

theorem mul_even {k t : ℕ} (hk : x = m ∨ Even k) : x = m ∨ Even (t * k) :=
 hk.imp_right fun heven => heven.mul_left t

section

variable (h : Sticky m x)

include h

/-- Dividing leaves the same whole number, and something more on both sides or on neither. -/
theorem floor_div {k : ℕ} (hpos : 0 < k) (hk : x = m ∨ Even k) :
  ((m / k : ℕ) : ℝ) ≤ x / k ∧ x / k < ((m / k : ℕ) : ℝ) + 1 ∧ (((m / k : ℕ) : ℝ) = x / k ↔ m % k = 0) := by
 have hposR : (0 : ℝ) < k := Nat.cast_pos.2 hpos
 have hdiv := div_add_mod m k
 have hmod := mod_lt m hpos
 refine ⟨?_, ?_, ?_⟩
 · rw [le_div_iff₀ hposR, ← Nat.cast_mul, h.le_iff (mul_even hk)]
   exact div_mul_le_self m k
 · rw [div_lt_iff₀ hposR, ← cast_succ, ← Nat.cast_mul, h.lt_iff (mul_even hk), succ_mul, mul_comm]
   omega
 · rw [eq_div_iff hposR.ne', eq_comm, ← Nat.cast_mul, h.eq_iff (mul_even hk), mul_comm]
   omega

/-- The integer that a sticky magnitude rounds to after a shift, by its halves. -/
theorem toInt_shift (mode : RoundingMode) (negative : Bool) {k : ℕ} (hk : x = m ∨ 1 ≤ k) :
  mode.toInt (signed negative (x / 2 ^ (k + 1))) =
   signed negative (mode.pick negative (m / 2 ^ k) (decide (m % 2 ^ k ≠ 0)) : ℤ) := by
 have heven : x = m ∨ Even (2 ^ k) := hk.imp_right fun hle => (Nat.even_pow.2 ⟨even_two, by omega⟩)
 obtain ⟨hle, hlt, hexact⟩ := h.floor_div (Nat.two_pow_pos k) heven
 have hhalf : 2 * (x / 2 ^ (k + 1)) = x / ((2 ^ k : ℕ) : ℝ) := by
  rw [pow_succ, Nat.cast_pow, Nat.cast_ofNat]
  field_simp
 rw [← hhalf] at hle hlt hexact
 rw [toInt_signed mode negative hle hlt]
 grind

/-- Rounding after a shift changes the value exactly where the shift loses bits. -/
theorem toInt_shift_eq_iff (mode : RoundingMode) (negative : Bool) {k : ℕ} (hk : x = m ∨ 1 ≤ k) :
  (mode.toInt (signed negative (x / 2 ^ (k + 1))) : ℝ) = signed negative (x / 2 ^ (k + 1)) ↔ m % 2 ^ (k + 1) = 0 := by
 have hpos : (0 : ℝ) < 2 ^ (k + 1) := by positivity
 have heven : x = m ∨ Even (2 ^ (k + 1)) := .inr (Nat.even_pow.2 ⟨even_two, by omega⟩)
 constructor
 · intro heq
   rw [h.toInt_shift mode negative hk, cast_signed, signed_inj, cast_natCast, eq_div_iff hpos.ne', eq_comm] at heq
   have hm := (h.eq_iff (mul_even heven)).1 (heq.trans (by push_cast; rfl))
   rw [hm, mul_mod_left]
 · intro hmod
   obtain ⟨n, hn⟩ := dvd_of_mod_eq_zero hmod
   have hx : x = m := (h.eq_iff (.inr (by rw [hn]; exact (Nat.even_pow.2 ⟨even_two, by omega⟩).mul_right n))).2 rfl
   have hnat : x / 2 ^ (k + 1) = (n : ℝ) := by
    simp_all
   rw [hnat, toInt_natCast, cast_signed, cast_natCast]

/-- The exponent of the leading bit. -/
theorem log_eq (hm : 0 < m) (hexact : x = m ∨ 2 ≤ m) (e : ℤ) :
  Int.log 2 (x * 2 ^ e) = (Nat.log2 m : ℤ) + e := by
 have hlow : 2 ^ Nat.log2 m ≤ m := log2_self_le hm.ne'
 have hhigh : m < 2 ^ (Nat.log2 m + 1) := lt_log2_self
 have heven : x = m ∨ Even (2 ^ Nat.log2 m) := hexact.imp_right fun htwo => by
  refine Nat.even_pow.2 ⟨even_two, fun hzero => ?_⟩
  rw [hzero] at hhigh
  omega
 have hlow' := (h.le_iff heven).2 hlow
 have hhigh' := (h.lt_iff (.inr (Nat.even_pow.2 ⟨even_two, succ_ne_zero _⟩))).2 hhigh
 have hscale : (0 : ℝ) < 2 ^ e := zpow_pos (by norm_num) e
 have hposx : 0 < x := lt_of_lt_of_le (by exact_mod_cast Nat.two_pow_pos (Nat.log2 m)) hlow'
 have hpos : 0 < x * 2 ^ e := mul_pos hposx hscale
 have hle : (Nat.log2 m : ℤ) + e ≤ Int.log 2 (x * 2 ^ e) := by
  rw [← zpow_le_iff_le_log (by norm_num) hpos, Nat.cast_ofNat, zpow_add₀ (by norm_num), zpow_natCast]
  simp_all
 have hlt : Int.log 2 (x * 2 ^ e) < (Nat.log2 m : ℤ) + e + 1 := by
  rw [← lt_zpow_iff_log_lt (by norm_num) hpos, Nat.cast_ofNat,
   show (Nat.log2 m : ℤ) + e + 1 = ((Nat.log2 m + 1 : ℕ) : ℤ) + e by push_cast; ring, zpow_add₀ (by norm_num), zpow_natCast]
  simp_all
 omega

theorem pos (hx : 0 < x) : 0 < m := by
 rcases h with rfl | ⟨hodd, -, -⟩
 · exact_mod_cast hx
 · exact hodd.pos

end

/-- Setting the lowest bit of the whole number below a real. -/
theorem or_one (hlow : (m : ℝ) < x) (hhigh : x < m + 1) : Sticky (m ||| 1) x := by
 have hor : m ||| 1 = 2 * (m / 2) + 1 := by
  have hhalf := two_pow_add_eq_or_of_lt (i := 1) (show 1 < 2 ^ 1 by norm_num) (m / 2)
  have hbit : m = 2 ^ 1 * (m / 2) ||| m % 2 := by
   rw [← two_pow_add_eq_or_of_lt (mod_lt m (show 2 ^ 1 > 0 by norm_num)), pow_one]
   omega
  grind
 have hlow' : ((2 * (m / 2) : ℕ) : ℝ) ≤ m := Nat.cast_le.2 (by omega)
 have hhigh' : (m : ℝ) + 1 ≤ ((2 * (m / 2) + 2 : ℕ) : ℝ) := by exact_mod_cast (show m + 1 ≤ 2 * (m / 2) + 2 by omega)
 rw [hor]
 refine .inr ⟨⟨m / 2, rfl⟩, ?_, ?_⟩
 · grind
 grind

/-- The whole number below a real, its lowest bit set where something is left. -/
theorem jam {b : Bool} (hle : (m : ℝ) ≤ x) (hlt : x < m + 1) (hb : b = true ↔ x ≠ m) : Sticky (m ||| b.toNat) x := by
 grind [exact, or_one]

theorem quotient (n : ℕ) {d : ℕ} (hd : 0 < d) : Sticky (n / d ||| (decide (n % d ≠ 0)).toNat) ((n : ℝ) / d) := by
 grind [Sticky.exact, floor_div, jam]

theorem even_add {a : ℕ} (h : Sticky m x) (ha : Even a) : Sticky (a + m) (a + x) := by
 rcases h with rfl | ⟨hodd, hlow, hhigh⟩
 · exact .inl (by push_cast; rfl)
 · exact .inr ⟨ha.add_odd hodd, by push_cast; linarith, by push_cast; linarith⟩

theorem even_sub {a : ℕ} (h : Sticky m x) (ha : Even a) (hle : m ≤ a) : Sticky (a - m) (a - x) := by
 rcases h with rfl | ⟨hodd, hlow, hhigh⟩
 · exact .inl (by rw [Nat.cast_sub hle])
 · exact .inr ⟨Nat.Even.sub_odd hle ha hodd, by rw [Nat.cast_sub hle]; linarith, by rw [Nat.cast_sub hle]; linarith⟩

end Sticky

end Tir.Rounding
