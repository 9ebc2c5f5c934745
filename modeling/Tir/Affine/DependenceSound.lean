import Mathlib.Algebra.BigOperators.Ring.Finset
import Mathlib.Data.List.GetD
import Tir.Affine.Schedule

/-!
# The dependence test is conservative

Every distance within the iteration space that takes the linear form into a target is among those the summary
admits (`distances_sound`): its directions pass the Banerjee and divisor tests, and at each depth it lies in
the interval that the summary spans.
-/

open List Int Bool

namespace Tir.Affine

open Lexicographic

/-! ## Sums over the depths -/

theorem zipIdx_eq (coefficients : List Int) :
  coefficients.zipIdx = (List.range coefficients.length).map fun d => (coefficients.getD d 0, d) := by
 apply ext_getElem
 · rw [length_zipIdx, length_map, length_range]
 · intro d hd hd'
   rw [length_zipIdx] at hd
   rw [getElem_zipIdx, getElem_map, getElem_range, getD_eq_getElem _ _ hd, zero_add]

/-- The value of a linear form. -/
def total (coefficients : List Int) (δ : Nat → Int) : Int :=
 ((List.range coefficients.length).map fun d => coefficients.getD d 0 * δ d).sum

theorem total_neg (coefficients : List Int) (δ : Nat → Int) : total coefficients (fun d => -δ d) = -total coefficients δ := by
 rw [total, total, sum_neg, map_map]
 congr 1
 apply map_congr_left
 intro d _
 rw [Function.comp_apply, Int.mul_neg]

theorem sum_skip {depths : List Nat} (hnd : depths.Nodup) {f : Nat → Int} {k : Nat} (hk : k ∈ depths) :
  (depths.map fun d => if k = d then 0 else f d).sum + f k = (depths.map f).sum := by
 induction depths with
 | nil => nomatch hk
 | cons d depths ih =>
  obtain ⟨hd, hrest⟩ := nodup_cons.1 hnd
  rw [map_cons, map_cons, sum_cons, sum_cons]
  by_cases heq : k = d
  · subst heq
    have hsame : (depths.map fun d => if k = d then 0 else f d) = depths.map f := by
     apply map_congr_left
     intro e he
     have hne : k ≠ e := by
      rintro rfl
      exact hd he
     rw [if_neg hne]
    rw [if_pos rfl, hsame]
    omega
  · have hmem := (mem_cons.1 hk).resolve_left heq
    rw [if_neg heq, ← ih hrest hmem]
    omega

section Bounds

variable {coefficients extents : List Int} {directions : List Direction} {δ : Nat → Int}

/-- The distances lie within the spans of their directions. -/
def Spanned (extents : List Int) (directions : List Direction) (depth : Nat) (δ : Nat → Int) : Prop :=
 ∀ d < depth, (span extents directions d).1 ≤ δ d ∧ δ d ≤ (span extents directions d).2

theorem mul_bounds {c first last v : Int} (hfst : first ≤ v) (hlast : v ≤ last) :
  min (c * first) (c * last) ≤ c * v ∧ c * v ≤ max (c * first) (c * last) := by
 rcases le_total 0 c with hc | hc
 · exact ⟨(min_le_left _ _).trans (mul_le_mul_of_nonneg_left hfst hc), (mul_le_mul_of_nonneg_left hlast hc).trans (le_max_right _ _)⟩
 · exact ⟨(min_le_right _ _).trans (mul_le_mul_of_nonpos_left hlast hc), (mul_le_mul_of_nonpos_left hfst hc).trans (le_max_left _ _)⟩

variable (hspan : Spanned extents directions coefficients.length δ)

include hspan

/-- The Banerjee bounds: the induction carries the bounds of the depths already summed. -/
theorem sumRange_bounds (skip : Option Nat) : (sumRange coefficients extents directions skip).1 ≤
    ((List.range coefficients.length).map fun d => if skip = some d then 0 else coefficients.getD d 0 * δ d).sum ∧
   ((List.range coefficients.length).map fun d => if skip = some d then 0 else coefficients.getD d 0 * δ d).sum ≤
     (sumRange coefficients extents directions skip).2 := by
 rw [sumRange, zipIdx_eq]
 have hall : ∀ d ∈ List.range coefficients.length, (span extents directions d).1 ≤ δ d ∧ δ d ≤ (span extents directions d).2 :=
  fun d hd => hspan d (mem_range.1 hd)
 generalize List.range coefficients.length = depths at hall
 have hstep : ∀ (depths : List Nat) (range : Int × Int) (v : Int), range.1 ≤ v → v ≤ range.2 →
   (∀ d ∈ depths, (span extents directions d).1 ≤ δ d ∧ δ d ≤ (span extents directions d).2) →
   ((depths.map fun d => (coefficients.getD d 0, d)).foldl (fun range entry => if skip = some entry.2 then range else
     let bounds := span extents directions entry.2
     (range.1 + min (entry.1 * bounds.1) (entry.1 * bounds.2), range.2 + max (entry.1 * bounds.1) (entry.1 * bounds.2))) range).1 ≤
      v + (depths.map fun d => if skip = some d then 0 else coefficients.getD d 0 * δ d).sum ∧
   v + (depths.map fun d => if skip = some d then 0 else coefficients.getD d 0 * δ d).sum ≤
    ((depths.map fun d => (coefficients.getD d 0, d)).foldl (fun range entry => if skip = some entry.2 then range else
    let bounds := span extents directions entry.2
    (range.1 + min (entry.1 * bounds.1) (entry.1 * bounds.2), range.2 + max (entry.1 * bounds.1) (entry.1 * bounds.2))) range).2 := by
  intro depths
  induction depths with
  | nil =>
   intro range v hlow hhigh _
   simp only [map_nil, sum_nil, foldl_nil, add_zero]
   exact ⟨hlow, hhigh⟩
  | cons d depths ih =>
   intro range v hlow hhigh hall
   have hrest := fun e he => hall e (.tail _ he)
   simp only [map_cons, sum_cons, foldl_cons]
   by_cases hskip : skip = some d
   · rw [if_pos hskip, if_pos hskip, zero_add]
     exact ih range v hlow hhigh hrest
   · rw [if_neg hskip, if_neg hskip, ← add_assoc]
     obtain ⟨hfst, hlast⟩ := hall d (.head _)
     have hone := mul_bounds (c := coefficients.getD d 0) hfst hlast
     exact ih _ _ (by dsimp only; omega) (by dsimp only; omega) hrest
 have hzero := hstep depths (0, 0) 0 le_rfl le_rfl hall
 rwa [zero_add] at hzero

theorem sumRange_none : (sumRange coefficients extents directions none).1 ≤ total coefficients δ ∧
   total coefficients δ ≤ (sumRange coefficients extents directions none).2 := by
 have hbounds := sumRange_bounds hspan none
 exact hbounds

theorem sumRange_some {k : Nat} (hk : k < coefficients.length) :
  (sumRange coefficients extents directions (some k)).1 ≤ total coefficients δ - coefficients.getD k 0 * δ k ∧
   total coefficients δ - coefficients.getD k 0 * δ k ≤ (sumRange coefficients extents directions (some k)).2 := by
 have hbounds := sumRange_bounds hspan (some k)
 have hskip := sum_skip nodup_range (f := fun d => coefficients.getD d 0 * δ d) (mem_range.2 hk)
 simp only [Option.some_inj] at hbounds
 rw [total]
 omega

end Bounds

/-! ## Directions -/

def directionOf (d : Int) : Direction :=
 if d = 0 then .zero else if 0 < d then .positive else .negative

theorem directionOf_zero_iff {d : Int} : directionOf d = .zero ↔ d = 0 := by
 rw [directionOf]
 split
 · simp [*]
 · split
   · simp [*]
   · simp [*]

theorem directionOf_positive_iff {d : Int} : directionOf d = .positive ↔ 0 < d := by
 rw [directionOf]
 split
 · simp [*]
 · split
   · simp [*]
   · simp [*]

def directionsOf (depth : Nat) (δ : Nat → Int) : List Direction :=
 (List.range depth).map fun d => directionOf (δ d)

variable {depth : Nat} {δ : Nat → Int}

theorem getD_directionsOf {d : Nat} (hd : d < depth) (δ : Nat → Int) :
  (directionsOf depth δ).getD d .zero = directionOf (δ d) := by
 rw [directionsOf, getD_eq_getElem _ _ (by rw [length_map, length_range]; exact hd), getElem_map,
  getElem_range]

/-- The directions of distances that are first positive are enumerated. -/
theorem directionsOf_mem (h : lexPositive ((List.range depth).map δ) = true) :
  directionsOf depth δ ∈ enumerate depth := by
 rw [enumerate, mem_filter]
 constructor
 · rw [mem_choices, directionsOf, forall₂_map_left_iff]
   have hlen : (List.range depth).length = depth := length_range
   refine forall₂_iff_get.2 ⟨by rw [length_replicate, hlen], fun i _ hi => ?_⟩
   rw [get_eq_getElem, get_eq_getElem, getElem_replicate]
   cases directionOf (δ (List.range depth)[i]) <;> simp
 · rw [directionsOf]
   generalize List.range depth = depths at h
   induction depths with
   | nil => nomatch h
   | cons d depths ih =>
    rw [map_cons, lexPositive_cons] at h
    rw [map_cons, find?_cons]
    split at h
    · rename_i hzero
      rw [decide_eq_false (not_not_intro (directionOf_zero_iff.2 hzero))]
      exact ih h
    · rename_i hne
      rw [decide_eq_true (mt directionOf_zero_iff.1 hne)]
      exact decide_eq_true (directionOf_positive_iff.2 (of_decide_eq_true h))

theorem spanned_directionsOf {extents : List Int}
  (hext : ∀ d < depth, -extents.getD d 0 ≤ δ d ∧ δ d ≤ extents.getD d 0) :
  Spanned extents (directionsOf depth δ) depth δ := by
 intro d hd
 obtain ⟨hlow, hhigh⟩ := hext d hd
 rw [span, getD_directionsOf hd, directionOf]
 split
 · rename_i hdir
   split at hdir
   · dsimp only
     omega
   · split at hdir
     · nomatch hdir
     · nomatch hdir
 · rename_i hdir
   split at hdir
   · nomatch hdir
   · split at hdir
     · dsimp only
       omega
     · nomatch hdir
 · rename_i hdir
   split at hdir
   · nomatch hdir
   · split at hdir
     · nomatch hdir
     · dsimp only
       omega

/-! ## The tests of a vector of directions -/

section Tests

variable {coefficients extents : List Int} {targets : List (Int × Int)} {δ : Nat → Int}

/-- The divisor of the coefficients that contribute divides the sum. -/
theorem divisor_dvd (coefficients : List Int) (δ : Nat → Int) :
  (coefficients.zipIdx.filter fun entry => (directionsOf coefficients.length δ).getD entry.2 .zero ≠ .zero).foldl
   (fun acc entry => gcd acc entry.1) 0 ∣ total coefficients δ := by
 have hfold : ∀ (entries : List (Int × Nat)) (acc : Int),
   (entries.foldl (fun acc entry => gcd acc entry.1) acc ∣ acc) ∧
    ∀ entry ∈ entries, entries.foldl (fun acc entry => gcd acc entry.1) acc ∣ entry.1 := by
  intro entries
  induction entries with
  | nil => exact fun acc => ⟨dvd_refl _, nofun⟩
  | cons first entries ih =>
   intro acc
   obtain ⟨hacc, hrest⟩ := ih (gcd acc first.1)
   rw [foldl_cons]
   refine ⟨hacc.trans (Int.gcd_dvd_left ..), fun entry hent => ?_⟩
   rcases mem_cons.1 hent with rfl | hmem
   · exact hacc.trans (Int.gcd_dvd_right ..)
   · exact hrest entry hmem
 have hdvd := (hfold (coefficients.zipIdx.filter fun entry =>
  (directionsOf coefficients.length δ).getD entry.2 .zero ≠ .zero) 0).2
 rw [total]
 apply dvd_sum
 intro term hterm
 obtain ⟨d, hd, rfl⟩ := mem_map.1 hterm
 rw [mem_range] at hd
 by_cases hzero : δ d = 0
 · rw [hzero, mul_zero]
   exact dvd_zero _
 · apply Dvd.dvd.mul_right
   refine hdvd (coefficients.getD d 0, d) (mem_filter.2 ⟨?_, ?_⟩)
   · rw [zipIdx_eq]
     exact mem_map.2 ⟨d, mem_range.2 hd, rfl⟩
   · rw [getD_directionsOf hd, decide_eq_true_iff]
     exact mt directionOf_zero_iff.1 hzero

variable {v : Int}

theorem dividesSomething_of_dvd {divisor low high : Int} (hnonneg : 0 ≤ divisor) (hdvd : divisor ∣ v) (hlow : low ≤ v)
  (hhigh : v ≤ high) : dividesSomething divisor low high = true := by
 rw [dividesSomething]
 split
 · rename_i hzero
   subst hzero
   rw [and_eq_true, decide_eq_true_iff, decide_eq_true_iff]
   omega
 · rename_i hne
   obtain ⟨k, rfl⟩ := hdvd
   have hpos : 0 < divisor := by omega
   have hk : k ≤ high / divisor := (Int.le_ediv_iff_mul_le hpos).2 (by rw [mul_comm]; exact hhigh)
   have hle := mul_le_mul_of_nonneg_right hk hnonneg
   rw [decide_eq_true_iff]
   rw [mul_comm] at hlow
   omega

theorem admits_of_target (hspan : Spanned extents (directionsOf coefficients.length δ) coefficients.length δ)
  (htgt : ∃ target ∈ targets, target.1 ≤ total coefficients δ ∧ total coefficients δ ≤ target.2) :
  admits coefficients extents targets (directionsOf coefficients.length δ) = true := by
 obtain ⟨target, hmem, hlow, hhigh⟩ := htgt
 obtain ⟨hlow', hhigh'⟩ := sumRange_none hspan
 have hnonneg : ∀ (entries : List (Int × Nat)) (acc : Int), 0 ≤ acc → 0 ≤ entries.foldl (fun acc entry => gcd acc entry.1) acc := by
  intro entries
  induction entries with
  | nil => exact fun acc h => h
  | cons entry entries ih => exact fun acc _ => ih _ (natCast_nonneg _)
 rw [admits, any_eq_true]
 refine ⟨target, hmem, ?_⟩
 rw [and_eq_true, decide_eq_true_iff]
 exact ⟨(max_le hlow hlow').trans (le_min hhigh hhigh'),
  dividesSomething_of_dvd (hnonneg _ _ le_rfl) (divisor_dvd coefficients δ) (max_le hlow hlow') (le_min hhigh hhigh')⟩

/-- A fold of intervals spans a value that one of them holds. -/
theorem foldl_spans {α : Type} (f : Int × Int → α → Int × Int) (hmono : ∀ r a, (f r a).1 ≤ r.1 ∧ r.2 ≤ (f r a).2)
  {l : List α} (hhit : ∃ a ∈ l, ∀ r, (f r a).1 ≤ v ∧ v ≤ (f r a).2) (r : Int × Int) :
  (l.foldl f r).1 ≤ v ∧ v ≤ (l.foldl f r).2 := by
 have hgrow : ∀ (l : List α) (r : Int × Int), (l.foldl f r).1 ≤ r.1 ∧ r.2 ≤ (l.foldl f r).2 := by
  intro l
  induction l with
  | nil => exact fun r => ⟨le_rfl, le_rfl⟩
  | cons a l ih => exact fun r => ⟨(ih (f r a)).1.trans (hmono r a).1, (hmono r a).2.trans (ih (f r a)).2⟩
 induction l generalizing r with
 | nil =>
  obtain ⟨a, ha, -⟩ := hhit
  nomatch ha
 | cons first l ih =>
  obtain ⟨a, ha, hspans⟩ := hhit
  rw [foldl_cons]
  rcases mem_cons.1 ha with rfl | hmem
  · exact ⟨(hgrow l _).1.trans (hspans r).1, (hspans r).2.trans (hgrow l _).2⟩
  · exact ih ⟨a, hmem, hspans⟩ (f r first)

theorem le_floorDiv {a b : Int} (hb : b ≠ 0) (h : if 0 < b then b * v ≤ a else a ≤ b * v) : v ≤ floorDiv a b := by
 rw [floorDiv]
 split
 · rename_i hneg
   rw [if_neg (by omega)] at h
   apply (Int.le_ediv_iff_mul_le (by omega)).2
   linarith [mul_comm v (-b), Int.neg_mul b v]
 · rename_i hpos
   rw [if_pos (by omega)] at h
   apply (Int.le_ediv_iff_mul_le (by omega)).2
   linarith [mul_comm v b]

theorem ceilDiv_le {a b : Int} (hb : b ≠ 0) (h : if 0 < b then a ≤ b * v else b * v ≤ a) : ceilDiv a b ≤ v := by
 have hle : -v ≤ floorDiv (-a) b := by
  apply le_floorDiv hb
  split
  · rename_i hpos
    rw [if_pos hpos] at h
    linarith [Int.mul_neg b v]
  · rename_i hneg
    rw [if_neg hneg] at h
    linarith [Int.mul_neg b v]
 rw [ceilDiv]
 omega

variable (hspan : Spanned extents (directionsOf coefficients.length δ) coefficients.length δ)
  (htgt : ∃ target ∈ targets, target.1 ≤ total coefficients δ ∧ total coefficients δ ≤ target.2)

include hspan htgt

/-- The distance at a depth is among those reachable. -/
theorem reachable_spans {k : Nat} (hk : k < coefficients.length) :
  (reachable coefficients extents targets (directionsOf coefficients.length δ) k).1 ≤ δ k ∧
   δ k ≤ (reachable coefficients extents targets (directionsOf coefficients.length δ) k).2 := by
 obtain ⟨hfst, hlast⟩ := hspan k hk
 obtain ⟨hlow, hhigh⟩ := sumRange_some hspan hk
 rw [reachable]
 dsimp only
 split
 · exact ⟨hfst, hlast⟩
 · rename_i hne
   have hfold := foldl_spans (fun (range : Int × Int) (target : Int × Int) =>
    let productLow := target.1 - (sumRange coefficients extents (directionsOf coefficients.length δ) (some k)).2
    let productHigh := target.2 - (sumRange coefficients extents (directionsOf coefficients.length δ) (some k)).1
    let bounds := if 0 < coefficients.getD k 0 then
        (ceilDiv productLow (coefficients.getD k 0), floorDiv productHigh (coefficients.getD k 0))
     else (ceilDiv productHigh (coefficients.getD k 0), floorDiv productLow (coefficients.getD k 0))
    let a := max bounds.1 (span extents (directionsOf coefficients.length δ) k).1
    let b := min bounds.2 (span extents (directionsOf coefficients.length δ) k).2
    if a ≤ b then (min range.1 a, max range.2 b) else range) (fun r a => by
     dsimp only
     generalize (if 0 < coefficients.getD k 0 then _ else _ : Int × Int) = bounds
     split
     · exact ⟨min_le_left _ _, le_max_left _ _⟩
     · exact ⟨le_rfl, le_rfl⟩) (by
     obtain ⟨target, hmem, hlow', hhigh'⟩ := htgt
     refine ⟨target, hmem, fun r => ?_⟩
     dsimp only
     split
     · rename_i hpos
       have ha := ceilDiv_le (a := target.1 - (sumRange coefficients extents (directionsOf coefficients.length δ) (some k)).2)
        (v := δ k) hne (by rw [if_pos hpos]; omega)
       have hb := le_floorDiv (a := target.2 - (sumRange coefficients extents (directionsOf coefficients.length δ) (some k)).1)
        (v := δ k) hne (by rw [if_pos hpos]; omega)
       rw [if_pos ((max_le ha hfst).trans (le_min hb hlast))]
       exact ⟨(min_le_right _ _).trans (max_le ha hfst), (le_min hb hlast).trans (le_max_right _ _)⟩
     · rename_i hneg
       have ha := ceilDiv_le (a := target.2 - (sumRange coefficients extents (directionsOf coefficients.length δ) (some k)).1)
        (v := δ k) hne (by rw [if_neg hneg]; omega)
       have hb := le_floorDiv (a := target.1 - (sumRange coefficients extents (directionsOf coefficients.length δ) (some k)).2)
        (v := δ k) hne (by rw [if_neg hneg]; omega)
       rw [if_pos ((max_le ha hfst).trans (le_min hb hlast))]
       exact ⟨(min_le_right _ _).trans (max_le ha hfst), (le_min hb hlast).trans (le_max_right _ _)⟩) (I128_MAX, I128_MIN)
   dsimp only at hfold
   rw [if_neg (by omega)]
   exact hfold

/-- The component at a depth has the sign of the distance there. -/
theorem sign_mem_summarize {admitted : List (List Direction)}
  (hadmitted : directionsOf coefficients.length δ ∈ admitted) {k : Nat} (hk : k < coefficients.length) :
  (δ k).sign ∈ signs (summarize coefficients extents targets admitted k) := by
 have hreach := reachable_spans hspan htgt hk
 have hfold := foldl_spans (fun (range : Int × Int) directions =>
   let bounds := reachable coefficients extents targets directions k
   (min range.1 bounds.1, max range.2 bounds.2)) (fun r _ => ⟨min_le_left _ _, le_max_left _ _⟩)
  ⟨_, hadmitted, fun r => ⟨(min_le_right _ _).trans hreach.1, hreach.2.trans (le_max_right _ _)⟩⟩ (I128_MAX, I128_MIN)
 rw [summarize]
 dsimp only at hfold ⊢
 split
 · rename_i heq
   have hk : δ k = (admitted.foldl (fun (range : Int × Int) directions =>
     (min range.1 (reachable coefficients extents targets directions k).1,
      max range.2 (reachable coefficients extents targets directions k).2)) (I128_MAX, I128_MIN)).1 := by omega
   rw [← hk]
   exact mem_singleton.2 rfl
 · split
   · rw [sign_eq_one_of_pos (by omega)]
     exact mem_singleton.2 rfl
   · split
     · rw [sign_eq_neg_one_of_neg (by omega)]
       exact mem_singleton.2 rfl
     · rcases lt_trichotomy (δ k) 0 with hneg | hzero | hpos
       · rw [sign_eq_neg_one_of_neg hneg]
         decide
       · rw [hzero]
         decide
       · rw [sign_eq_one_of_pos hpos]
         decide

end Tests

/-- A distance within the iteration space that takes the form into a target, and is first positive, has its
signs among those of the summary. -/
theorem distances_sound {coefficients : List Int} {extents : List (Option Int)} {targets : List (Int × Int)}
  (hlen : extents.length = coefficients.length)
  (hext : ∀ d < coefficients.length, |δ d| ≤ (extents.getD d none).getD UNBOUNDED)
  (htgt : ∃ target ∈ targets, target.1 ≤ total coefficients δ ∧ total coefficients δ ≤ target.2)
  (hlex : lexPositive ((List.range coefficients.length).map δ) = true) :
  ∃ components, distances coefficients extents targets = some components ∧
   (List.range coefficients.length).map (fun d => (δ d).sign) ∈ expand components := by
 have hspan : Spanned (extents.map fun extent => extent.getD UNBOUNDED) (directionsOf coefficients.length δ)
   coefficients.length δ := by
  apply spanned_directionsOf
  intro d hd
  have hd' : d < extents.length := hlen ▸ hd
  have hle := hext d hd
  rw [getD_eq_getElem _ _ hd'] at hle
  rw [getD_eq_getElem _ _ (by rw [length_map]; exact hd'), getElem_map]
  exact abs_le.1 hle
 have hadmitted : directionsOf coefficients.length δ ∈ (enumerate coefficients.length).filter
   (admits coefficients (extents.map fun extent => extent.getD UNBOUNDED) targets) :=
  mem_filter.2 ⟨directionsOf_mem hlex, admits_of_target hspan htgt⟩
 rw [distances]
 rw [if_neg (by rw [List.isEmpty_iff]; exact ne_nil_of_mem hadmitted)]
 refine ⟨_, rfl, mem_filter.2 ⟨?_, ?_⟩⟩
 · rw [mem_choices, map_map, forall₂_map_left_iff, forall₂_map_right_iff, forall₂_same]
   exact fun k hk => sign_mem_summarize hspan htgt hadmitted (mem_range.1 hk)
 · rw [← hlex, ← lexPositive_map_sign ((List.range coefficients.length).map δ), map_map]
   rfl

end Tir.Affine
