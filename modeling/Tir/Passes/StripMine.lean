import Tir.Basic.Limbs

/-!
# Strip-mining a counted loop

`strip_mine` replaces a loop by a loop over its whole tiles, each a loop of its own, and a loop over what is left. The split point
is computed modulo the counter's width. Below the split the tile loop runs what the loop ran (`tile_runs`), so the two forms agree
wherever the split does not pass the lower bound of a loop that runs no iteration (`preserves_iff`).
-/

namespace Tir.Passes.StripMine

variable {W : Nat} {σ : Type}

/-! ## Counted loops -/

/-- A counted loop from a counter value on: the counter is compared, signed, before each iteration, and is the loop's result. -/
inductive Runs (upper step : BitVec W) (body : BitVec W → σ → σ → Prop) : BitVec W → σ → BitVec W → σ → Prop where
 | exit {i : BitVec W} {s : σ} (h : i.slt upper = false) : Runs upper step body i s i s
 | next {i j : BitVec W} {s s₁ s' : σ} (h : i.slt upper = true) (hbody : body i s s₁) (hrest : Runs upper step body (i + step) s₁ j s') :
   Runs upper step body i s j s'

/-- The operands of a loop and the size of its tiles: the step is positive, and the step of the tile loop is in the signed range. A
tile is one of the schedule's sizes and so a 64-bit number. -/
structure Mining (W : Nat) where
 lower : BitVec W
 upper : BitVec W
 step : BitVec W
 tile : Nat
 step_pos : 0 < step.toInt
 tile_gt : 1 < tile
 tile_lt : tile < 2 ^ 63
 stride_lt : step.toInt * tile < 2 ^ (W - 1)

namespace Mining

variable (m : Mining W)

/-- `tile as i64`, a constant of the counter's type. -/
def tileConstant : BitVec W :=
 BitVec.ofInt W (BitVec.ofNat 64 m.tile).toInt

def stride : BitVec W := m.step * m.tileConstant

def span : BitVec W := m.upper - m.lower

def tiles : BitVec W := m.span / m.stride

def covered : BitVec W := m.tiles * m.stride

def last : BitVec W := m.lower + m.covered

/-- The body of the tile loop: the inner loop, with its predicate on the end of the tile. -/
def TileBody (body : BitVec W → σ → σ → Prop) (base : BitVec W) (s s' : σ) : Prop :=
 ∃ i, Runs (base + m.stride) m.step body base s i s'

/-- The loop as it was. -/
def Plain (body : BitVec W → σ → σ → Prop) (s : σ) (j : BitVec W) (s' : σ) : Prop :=
 Runs m.upper m.step body m.lower s j s'

/-- The tile loop, then the remainder from the counter that the tile loop ended at. -/
def Mined (body : BitVec W → σ → σ → Prop) (s : σ) (j : BitVec W) (s' : σ) : Prop :=
 ∃ i t, Runs m.last m.stride (m.TileBody body) m.lower s i t ∧ Runs m.upper m.step body i t j s'

/-- Both forms have the same runs: whatever a body does, it is executed for the same counters in the same order. -/
def Preserves : Prop :=
 ∀ (σ : Type) (body : BitVec W → σ → σ → Prop) (s : σ) (j : BitVec W) (s' : σ), m.Mined body s j s' ↔ m.Plain body s j s'

/-- The loop runs no iteration, its span modulo the width has a whole tile, and less is left of it than the bound lies above the
least number. -/
def Slips : Prop :=
 let span := m.upper.toInt - m.lower.toInt + 2 ^ W
 m.upper.toInt < m.lower.toInt ∧ m.step.toInt * m.tile ≤ span ∧ m.upper.toInt + 2 ^ (W - 1) < span % (m.step.toInt * m.tile)

end Mining

/-! ## Runs -/

section Runs

variable {upper step mid i j : BitVec W} {body : BitVec W → σ → σ → Prop} {s s' : σ}

theorem runs_of_lt (h : i.slt upper = true) :
  Runs upper step body i s j s' ↔ ∃ s1, body i s s1 ∧ Runs upper step body (i + step) s1 j s' := by
 constructor
 · intro hruns
   cases hruns with
   | exit hge => exact absurd (h.symm.trans hge) (by decide)
   | next _ hbody hrest => exact ⟨_, hbody, hrest⟩
 · rintro ⟨s1, hbody, hrest⟩
   exact .next h hbody hrest

theorem runs_of_ge (h : i.slt upper = false) : Runs upper step body i s j s' ↔ j = i ∧ s' = s := by
 constructor
 · intro hruns
   cases hruns with
   | exit _ => exact ⟨rfl, rfl⟩
   | next hlt _ _ => exact absurd (h.symm.trans hlt) (by decide)
 · rintro ⟨rfl, rfl⟩
   exact .exit h

theorem slt_false_iff {x y : BitVec W} : x.slt y = false ↔ y.toInt ≤ x.toInt := by
 rw [← Bool.not_eq_true, BitVec.slt_iff_toInt_lt, not_lt]

theorem toInt_add_of_le {x y : BitVec W} {z : Int} (hy : 0 ≤ y.toInt) (hle : x.toInt + y.toInt ≤ z) (hz : z < 2 ^ (W - 1)) :
  (x + y).toInt = x.toInt + y.toInt := by
 have hx := x.le_two_mul_toInt
 rw [BitVec.toInt_add]
 cases W with
 | zero => simp [BitVec.eq_nil x, BitVec.eq_nil y]
 | succ w =>
  apply Int.bmod_eq_of_le_mul_two
  · push_cast
    omega
  · rw [Nat.add_sub_cancel] at hz
    push_cast
    rw [pow_succ]
    omega

variable (n : Nat) (hstep : 0 < step.toInt) (hmid : mid.toInt = i.toInt + n * step.toInt)

include n hstep hmid

/-- A run to a bound is a run to a multiple of the step below it, which ends there, and a run from there. -/
theorem runs_split (hle : mid.toInt ≤ upper.toInt) :
  Runs upper step body i s j s' ↔ ∃ t, Runs mid step body i s mid t ∧ Runs upper step body mid t j s' := by
 induction n generalizing i s with
 | zero =>
  obtain rfl : mid = i := BitVec.eq_of_toInt_eq (by simpa using hmid)
  have hself : mid.slt mid = false := slt_false_iff.2 le_rfl
  simp [runs_of_ge hself]
 | succ n ih =>
  have hgain := mul_nonneg (Int.natCast_nonneg n) hstep.le
  have hsum : i.toInt + step.toInt + n * step.toInt = mid.toInt := by
   rw [hmid]
   push_cast
   ring
  have hlt : i.slt mid = true := BitVec.slt_iff_toInt_lt.2 (by omega)
  have hlt' : i.slt upper = true := BitVec.slt_iff_toInt_lt.2 (by omega)
  have hnext := toInt_add_of_le hstep.le (show i.toInt + step.toInt ≤ mid.toInt by omega) mid.toInt_lt
  simp only [runs_of_lt hlt, runs_of_lt hlt', ih (show mid.toInt = (i + step).toInt + n * step.toInt by rw [hnext, hsum])]
  constructor
  · rintro ⟨s1, hbody, t, hfst, hrest⟩
    exact ⟨t, ⟨s1, hbody, hfst⟩, hrest⟩
  · rintro ⟨t, ⟨s1, hbody, hfst⟩, hrest⟩
    exact ⟨s1, hbody, t, hfst, hrest⟩

/-- A run to a multiple of the step ends there. -/
theorem runs_end
  (h : Runs mid step body i s j s') : j = mid := by
 obtain ⟨t, -, hrest⟩ := (runs_split n hstep hmid le_rfl).1 h
 exact ((runs_of_ge (slt_false_iff.2 le_rfl)).1 hrest).1

end Runs

namespace Mining

variable {m : Mining W}

/-! ## The split -/

theorem width_pos (m : Mining W) : 0 < W := by
 rcases Nat.eq_zero_or_pos W with rfl | hpos
 · have hstep := m.step_pos
   simp [BitVec.eq_nil m.step] at hstep
 · exact hpos

theorem two_pow (m : Mining W) : (2 : Int) ^ W = 2 * 2 ^ (W - 1) := by
 rw [← pow_succ', Nat.sub_add_cancel m.width_pos]

theorem stride_toInt (m : Mining W) : m.stride.toInt = m.step.toInt * m.tile := by
 have hpow := m.two_pow
 have hfits := m.stride_lt
 have htile : (m.tile : Int) ≤ m.step.toInt * m.tile := le_mul_of_one_le_left (Int.natCast_nonneg _) m.step_pos
 have hword : (BitVec.ofNat 64 m.tile).toInt = m.tile := by
  have hlt := m.tile_lt
  rw [BitVec.toInt_ofNat']
  apply Int.bmod_eq_of_le_mul_two <;> omega
 have hconst : m.tileConstant.toInt = m.tile := by
  rw [tileConstant, hword, BitVec.toInt_ofInt]
  apply Int.bmod_eq_of_le_mul_two <;> push_cast <;> omega
 rw [stride, BitVec.toInt_mul, hconst]
 apply Int.bmod_eq_of_le_mul_two <;> push_cast <;> omega

theorem stride_pos (m : Mining W) : 0 < m.stride.toInt := by
 rw [m.stride_toInt]
 exact mul_pos m.step_pos (by exact_mod_cast (Nat.zero_lt_one.trans m.tile_gt))

/-- The bounds' distance modulo the width. -/
def distance (m : Mining W) : Int :=
 (m.upper.toInt - m.lower.toInt) % 2 ^ W

theorem last_toInt (m : Mining W) : m.last.toInt = (m.lower.toInt + m.distance / m.stride.toInt * m.stride.toInt).bmod (2 ^ W) := by
 have hspan : (m.span.toNat : Int) = m.distance := by
  have hsub : m.span = BitVec.ofInt W (m.upper.toInt - m.lower.toInt) := by
   rw [Limbs.ofInt_sub, BitVec.ofInt_toInt, BitVec.ofInt_toInt, span]
  rw [hsub, BitVec.toNat_ofInt, distance]
  exact Int.toNat_of_nonneg (Int.emod_nonneg _ (by positivity))
 have hstride : (m.stride.toNat : Int) = m.stride.toInt := by
  rw [BitVec.toInt_eq_toNat_of_msb]
  rw [BitVec.msb_eq_toInt]
  exact decide_eq_false (not_lt.2 m.stride_pos.le)
 have hcovered : (m.covered.toNat : Int) = m.distance / m.stride.toInt * m.stride.toInt := by
  have hle := Nat.div_mul_le_self m.span.toNat m.stride.toNat
  rw [covered, tiles, BitVec.toNat_mul, BitVec.toNat_udiv, Nat.mod_eq_of_lt (hle.trans_lt m.span.isLt)]
  push_cast
  rw [hspan, hstride]
 rw [last, BitVec.toInt_add, BitVec.toInt_eq_toNat_bmod m.covered, hcovered, Int.add_bmod_bmod]

/-! ## The tiles -/

/-- The loop over whole tiles runs what the loop runs up to the split. -/
theorem tile_runs {body : BitVec W → σ → σ → Prop} {last base i : BitVec W} {s t : σ} (n : Nat)
  (hbase : last.toInt = base.toInt + n * m.stride.toInt) :
  Runs last m.stride (m.TileBody body) base s i t ↔ i = last ∧ Runs last m.step body base s last t := by
 induction n generalizing base s with
 | zero =>
  obtain rfl : last = base := BitVec.eq_of_toInt_eq (by simpa using hbase)
  have hself : last.slt last = false := slt_false_iff.2 le_rfl
  simp [runs_of_ge hself]
 | succ n ih =>
  have hstride := m.stride_pos
  have hgain := mul_nonneg (Int.natCast_nonneg n) hstride.le
  have hsum : base.toInt + m.stride.toInt + n * m.stride.toInt = last.toInt := by
   rw [hbase]
   push_cast
   ring
  have hlt : base.slt last = true := BitVec.slt_iff_toInt_lt.2 (by omega)
  have hend := toInt_add_of_le hstride.le (show base.toInt + m.stride.toInt ≤ last.toInt by omega) last.toInt_lt
  have htile : (base + m.stride).toInt = base.toInt + m.tile * m.step.toInt := by
   rw [hend, m.stride_toInt, mul_comm]
  rw [runs_of_lt hlt, runs_split m.tile m.step_pos htile (by omega)]
  simp only [ih (show last.toInt = (base + m.stride).toInt + n * m.stride.toInt by rw [hend, hsum])]
  constructor
  · rintro ⟨s1, ⟨j, hinner⟩, rfl, hrest⟩
    obtain rfl := runs_end m.tile m.step_pos htile hinner
    exact ⟨rfl, s1, hinner, hrest⟩
  · rintro ⟨rfl, s1, hinner, hrest⟩
    exact ⟨s1, ⟨_, hinner⟩, rfl, hrest⟩

/-- A loop that runs no iteration, with a split that is no higher than its lower bound. -/
theorem mined_of_last_le {body : BitVec W → σ → σ → Prop} {s s' : σ} {j : BitVec W} (h : m.last.toInt ≤ m.lower.toInt) :
  m.Mined body s j s' ↔ m.Plain body s j s' := by
 simp only [Mined, Plain, runs_of_ge (slt_false_iff.2 h)]
 constructor
 · rintro ⟨i, t, ⟨rfl, rfl⟩, hrest⟩
   exact hrest
 · exact fun hrest => ⟨_, _, ⟨rfl, rfl⟩, hrest⟩

theorem bounds (m : Mining W) : -2 ^ (W - 1) ≤ m.lower.toInt ∧ m.lower.toInt < 2 ^ (W - 1) ∧ -2 ^ (W - 1) ≤ m.upper.toInt ∧
  m.upper.toInt < 2 ^ (W - 1) :=
 ⟨m.lower.le_toInt, m.lower.toInt_lt, m.upper.le_toInt, m.upper.toInt_lt⟩

theorem div_stride (m : Mining W) : m.distance / m.stride.toInt * m.stride.toInt = m.distance - m.distance % m.stride.toInt ∧
  0 ≤ m.distance % m.stride.toInt ∧ m.distance % m.stride.toInt < m.stride.toInt ∧ m.distance % m.stride.toInt ≤ m.distance := by
 have hstride := m.stride_pos
 have hdistance : 0 ≤ m.distance := Int.emod_nonneg _ (by positivity)
 have hdivide := Int.ediv_mul_add_emod m.distance m.stride.toInt
 have hquotient := mul_nonneg (Int.ediv_nonneg hdistance hstride.le) hstride.le
 have hnonneg := Int.emod_nonneg m.distance hstride.ne'
 exact ⟨by omega, hnonneg, Int.emod_lt_of_pos _ hstride, by omega⟩

theorem preserves_of_lt (h : m.lower.toInt < m.upper.toInt) : m.Preserves := by
 intro σ body s j s'
 have hpow := m.two_pow
 obtain ⟨hlower, -, hupper, hupper'⟩ := m.bounds
 obtain ⟨hcovered, hnonneg, hless, hle⟩ := m.div_stride
 have hdistance : m.distance = m.upper.toInt - m.lower.toInt := Int.emod_eq_of_lt (by omega) (by omega)
 have hlast : m.last.toInt = m.lower.toInt + m.distance / m.stride.toInt * m.stride.toInt := by
  rw [m.last_toInt]
  apply Int.bmod_eq_of_le_mul_two <;> push_cast <;> omega
 obtain ⟨n, hn⟩ := Int.eq_ofNat_of_zero_le (Int.ediv_nonneg (show 0 ≤ m.distance by omega) m.stride_pos.le)
 rw [hn] at hlast
 have hsteps : m.last.toInt = m.lower.toInt + ((n * m.tile : Nat) : Int) * m.step.toInt := by
  rw [hlast, m.stride_toInt]
  push_cast
  ring
 rw [Mined, Plain, runs_split (n * m.tile) m.step_pos hsteps (by rw [hn] at hcovered; omega)]
 simp only [tile_runs n hlast]
 constructor
 · rintro ⟨i, t, ⟨rfl, htiles⟩, hrest⟩
   exact ⟨t, htiles, hrest⟩
 · rintro ⟨t, htiles, hrest⟩
   exact ⟨_, t, ⟨rfl, htiles⟩, hrest⟩

/-- The split of a loop that runs no iteration is a tile or more above its lower bound, or not above it. -/
theorem split_cases (h : m.upper.toInt ≤ m.lower.toInt) :
  m.Slips ∧ m.lower.toInt + m.stride.toInt ≤ m.last.toInt ∨ ¬m.Slips ∧ m.last.toInt ≤ m.lower.toInt := by
 have hpow := m.two_pow
 obtain ⟨hlower, hlower', hupper, hupper'⟩ := m.bounds
 obtain ⟨hcovered, hnonneg, hless, hle⟩ := m.div_stride
 rw [Slips, ← m.stride_toInt, m.last_toInt, hcovered]
 rcases h.eq_or_lt with heq | hlt
 · have hdistance : m.distance = 0 := by rw [distance, heq, sub_self, Int.zero_emod]
   refine .inr ⟨fun hslips => absurd hslips.1 heq.not_lt, ?_⟩
   rw [hdistance, Int.zero_emod, sub_zero, add_zero, Int.bmod_eq_of_le_mul_two (by push_cast; omega) (by push_cast; omega)]
 · have hdistance : m.distance = m.upper.toInt - m.lower.toInt + 2 ^ W := by
    rw [distance, ← Int.add_emod_right]
    exact Int.emod_eq_of_lt (by omega) (by omega)
   rw [← hdistance]
   by_cases hpast : m.upper.toInt + 2 ^ (W - 1) < m.distance % m.stride.toInt
   · rw [Int.bmod_eq_of_le_mul_two (by push_cast; omega) (by push_cast; omega)]
     by_cases hwhole : m.stride.toInt ≤ m.distance
     · have htiles := Int.ediv_mul_add_emod m.distance m.stride.toInt
       have hquotient : 1 ≤ m.distance / m.stride.toInt := Int.le_ediv_of_mul_le m.stride_pos (by rwa [one_mul])
       have hmore := mul_le_mul_of_nonneg_right hquotient m.stride_pos.le
       exact .inl ⟨⟨hlt, hwhole, hpast⟩, by omega⟩
     · have hshort := Int.emod_eq_of_lt (show 0 ≤ m.distance by omega) (not_le.1 hwhole)
       exact .inr ⟨fun hslips => hwhole hslips.2.1, by omega⟩
   · -- the split wraps below the upper bound
     rw [← Int.sub_bmod_right, Int.bmod_eq_of_le_mul_two (by push_cast; omega) (by push_cast; omega)]
     exact .inr ⟨fun hslips => hpast hslips.2.2, by push_cast; omega⟩

/-- The tile loop of an empty loop whose split slips executes the body for the lower bound. -/
theorem not_preserves (h : m.Slips) : ¬m.Preserves := by
 intro hpreserves
 have hge := h.1.le
 obtain ⟨-, hpast⟩ | ⟨hno, -⟩ := split_cases hge
 · have hstride := m.stride_pos
   have hend := toInt_add_of_le hstride.le hpast m.last.toInt_lt
   have hlt : m.lower.slt m.last = true := BitVec.slt_iff_toInt_lt.2 (by omega)
   have hinside : m.lower.slt (m.lower + m.stride) = true := BitVec.slt_iff_toInt_lt.2 (by omega)
   -- no run passes a body that does not end
   obtain ⟨i, t, htiles, -⟩ := (hpreserves Unit (fun _ _ _ => False) () m.lower ()).2 (.exit (slt_false_iff.2 hge))
   obtain ⟨s1, ⟨j, hinner⟩, -⟩ := (runs_of_lt hlt).1 htiles
   obtain ⟨s2, hbody, -⟩ := (runs_of_lt hinside).1 hinner
   exact hbody
 · exact hno h

/-- The two forms have the same runs unless the loop is empty and its split slips. -/
theorem preserves_iff (m : Mining W) : m.Preserves ↔ ¬m.Slips := by
 constructor
 · exact fun hpreserves hslips => not_preserves hslips hpreserves
 · intro hslips
   rcases lt_or_ge m.lower.toInt m.upper.toInt with hlt | hge
   · exact preserves_of_lt hlt
   · obtain ⟨hslips', -⟩ | ⟨-, hle⟩ := split_cases hge
     · exact absurd hslips' hslips
     · exact fun σ body s j s' => mined_of_last_le hle

/-- `for i = 10; i < i32::MIN; i += 1` in tiles of 64. -/
def emptyLoop : Mining 32 where
 lower := 10
 upper := BitVec.intMin 32
 step := 1
 tile := 64
 step_pos := by decide
 tile_gt := by decide
 tile_lt := by decide
 stride_lt := by decide

theorem emptyLoop_runs : ¬emptyLoop.Preserves := by
 apply not_preserves
 rw [Slips]
 decide

end Mining

end Tir.Passes.StripMine
