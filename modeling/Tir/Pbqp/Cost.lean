import Mathlib.Tactic

/-!
# Saturating costs

The cost arithmetic of `core/src/backend/pbqp.rs`: `u64` values, added with saturation and cut
at `infCost`, the cost of an alternative that must not be chosen. Every value from `infCost` on
means infinity, so two costs are compared after the cut (`cap`). Cutting commutes with addition
(`cap_add_congr`), which is what lets costs move between nodes and edges without loss.
-/

open List Option

namespace Tir.Pbqp

/-- The cost of an alternative that must not be chosen. -/
def infCost : Nat := (2 ^ 64 - 1) / 4

/-- `u64::saturating_add`. -/
def saturatingAdd (lhs rhs : Nat) : Nat := min (lhs + rhs) (2 ^ 64 - 1)

def add (lhs rhs : Nat) : Nat := min (saturatingAdd lhs rhs) infCost

/-- A cost with everything from `infCost` on taken for infinity. -/
def cap (c : Nat) : Nat := min c infCost

theorem infCost_lt : infCost < 2 ^ 64 - 1 := by decide

theorem infCost_pos : 0 < infCost := by decide

theorem add_eq_cap (lhs rhs : Nat) : add lhs rhs = cap (lhs + rhs) := by
 have h := infCost_lt
 simp only [add, saturatingAdd, cap]
 omega

theorem cap_le_self (c : Nat) : cap c ≤ c := min_le_left c infCost

theorem cap_lt_iff (c : Nat) : cap c < infCost ↔ c < infCost := by
 simp only [cap]
 omega

theorem cap_of_lt {c : Nat} (h : c < infCost) : cap c = c := min_eq_left h.le

theorem cap_of_le {c : Nat} (h : infCost ≤ c) : cap c = infCost := min_eq_right h

theorem cap_of_cap (c : Nat) : cap (cap c) = cap c := by
 simp only [cap]
 omega

theorem cap_mono {a b : Nat} (h : a ≤ b) : cap a ≤ cap b := by
 simp only [cap]
 omega

theorem cap_cap_add (a b : Nat) : cap (cap a + b) = cap (a + b) := by
 simp only [cap]
 omega

theorem cap_add_cap (a b : Nat) : cap (a + cap b) = cap (a + b) := by
 simp only [cap]
 omega

/-- Costs equal after the cut stay equal under addition. -/
theorem cap_add_congr {a b : Nat} (h : cap a = cap b) (c : Nat) : cap (c + a) = cap (c + b) := by
 simp only [cap] at h ⊢
 omega

theorem cap_add_mono {a b : Nat} (h : cap a ≤ cap b) (c : Nat) : cap (c + a) ≤ cap (c + b) := by
 simp only [cap] at h ⊢
 omega

/-- A part of a cost may be exchanged for one that is equal after the cut. -/
theorem cap_exchange {a b p q : Nat} (h : a + p = b + q) (hp : p ≤ b) (hpq : cap q = cap p) :
  cap a = cap b := by
 have ha : a = b - p + q := by omega
 have hb : b - p + p = b := by omega
 rw [ha, cap_add_congr hpq, hb]

/-- The least sum of two vectors of `k` costs, infinite when there is none. -/
def minSum (k : Nat) (lhs rhs : Nat → Nat) : Nat :=
 (((List.range k).map fun i => saturatingAdd (lhs i) (rhs i)).min?).elim infCost fun c =>
   min c infCost

private theorem min_saturatingAdd (a b : Nat) : min (saturatingAdd a b) infCost = cap (a + b) := by
 have h := infCost_lt
 simp only [saturatingAdd, cap]
 omega

theorem minSum_le {k i : Nat} (hi : i < k) (lhs rhs : Nat → Nat) :
  minSum k lhs rhs ≤ cap (lhs i + rhs i) := by
 have hmem : saturatingAdd (lhs i) (rhs i) ∈
   (List.range k).map fun i => saturatingAdd (lhs i) (rhs i) :=
  List.mem_map.2 ⟨i, mem_range.2 hi, rfl⟩
 cases hmin : ((List.range k).map fun i => saturatingAdd (lhs i) (rhs i)).min? with
 | none =>
  rw [min?_eq_none_iff] at hmin
  rw [hmin] at hmem
  nomatch hmem
 | some c =>
  have hle : c ≤ saturatingAdd (lhs i) (rhs i) := (min?_eq_some_iff.1 hmin).2 _ hmem
  rw [minSum, hmin, elim_some, ← min_saturatingAdd]
  omega

theorem minSum_attained {k : Nat} (hk : 0 < k) (lhs rhs : Nat → Nat) :
  ∃ i, i < k ∧ minSum k lhs rhs = cap (lhs i + rhs i) := by
 cases hmin : ((List.range k).map fun i => saturatingAdd (lhs i) (rhs i)).min? with
 | none =>
  rw [min?_eq_none_iff, map_eq_nil_iff, range_eq_nil] at hmin
  omega
 | some c =>
  obtain ⟨i, hi, hc⟩ := List.mem_map.1 (min?_eq_some_iff.1 hmin).1
  refine ⟨i, mem_range.1 hi, ?_⟩
  rw [minSum, hmin, elim_some, ← min_saturatingAdd, hc]

/-- The least sum is the sum at any index where it is least. -/
theorem minSum_eq {k b : Nat} (hb : b < k) {lhs rhs : Nat → Nat}
  (hmin : ∀ i, i < k → cap (lhs b + rhs b) ≤ cap (lhs i + rhs i)) :
  minSum k lhs rhs = cap (lhs b + rhs b) := by
 obtain ⟨i, hi, hatt⟩ := minSum_attained (Nat.zero_lt_of_lt hb) lhs rhs
 have hle := minSum_le hb lhs rhs
 have hge := hmin i hi
 omega

/-- The least of the values of `f` at the indices below `k` that `keep` selects, zero when it
selects none. -/
def minWhere (k : Nat) (keep : Nat → Bool) (f : Nat → Nat) : Nat :=
 ((((List.range k).filter keep).map f).min?).getD 0

section

variable {k i : Nat} {keep : Nat → Bool} (hi : i < k) (hkeep : keep i = true) (f : Nat → Nat)

include hi hkeep f

theorem minWhere_le
  : minWhere k keep f ≤ f i := by
 have hmem : f i ∈ ((List.range k).filter keep).map f :=
  List.mem_map.2 ⟨i, mem_filter.2 ⟨mem_range.2 hi, hkeep⟩, rfl⟩
 cases hmin : (((List.range k).filter keep).map f).min? with
 | none =>
  rw [min?_eq_none_iff] at hmin
  rw [hmin] at hmem
  nomatch hmem
 | some c =>
  rw [minWhere, hmin, getD_some]
  exact (min?_eq_some_iff.1 hmin).2 _ hmem

/-- The minimum is taken at a selected index, if there is one. -/
theorem minWhere_attained
  : ∃ j, j < k ∧ keep j = true ∧ minWhere k keep f = f j := by
 cases hmin : (((List.range k).filter keep).map f).min? with
 | none =>
  rw [min?_eq_none_iff, map_eq_nil_iff, filter_eq_nil_iff] at hmin
  exact absurd hkeep (hmin i (mem_range.2 hi))
 | some c =>
  obtain ⟨j, hj, hc⟩ := List.mem_map.1 (min?_eq_some_iff.1 hmin).1
  obtain ⟨hjr, hjk⟩ := mem_filter.1 hj
  refine ⟨j, mem_range.1 hjr, hjk, ?_⟩
  rw [minWhere, hmin, getD_some, hc]

end

/-- The first index below `k` at which `f` is least, zero when there is none. -/
def argminBelow (k : Nat) (f : Nat → Nat) : Nat := (List.argmin f (List.range k)).getD 0

theorem argminBelow_spec {k : Nat} (hk : 0 < k) (f : Nat → Nat) :
  argminBelow k f < k ∧ ∀ i, i < k → f (argminBelow k f) ≤ f i := by
 cases hmin : List.argmin f (List.range k) with
 | none =>
  rw [argmin_eq_none, range_eq_nil] at hmin
  omega
 | some i =>
  rw [argminBelow, hmin, getD_some]
  refine ⟨mem_range.1 (argmin_mem hmin), fun j hj => ?_⟩
  exact le_of_mem_argmin (mem_range.2 hj) hmin

end Tir.Pbqp
