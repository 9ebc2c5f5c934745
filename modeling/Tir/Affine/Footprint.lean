import Mathlib.Tactic.Ring
import Tir.Affine.DependenceSound

/-!
# The bytes that accesses touch

A run of a nest fixes where its objects stand, what its symbols hold and how often its loops run. Two accesses
conflict at two iterations if one of them writes and they touch a common byte. The distance between the
iterations then takes the accesses' common slopes into one of the two targets that `dependence` asks for
(`constraints_of_conflict`).
-/

open List

namespace Tir.Affine

open Lexicographic AffineForm Offset

/-! ## Forms -/

/-- The value of the symbols' part of a form. -/
def dot : List Int → (Nat → Int) → Int
 | [], _ => 0
 | c :: slots, symbols => c * symbols 0 + dot slots fun i => symbols (i + 1)

theorem dot_combineSlots (sign : Int) (slots values : List Int) (symbols : Nat → Int) :
  dot (AffineForm.combineSlots sign slots values) symbols = dot slots symbols + sign * dot values symbols := by
 induction slots, values using combineSlots.induct generalizing symbols with
 | case1 slots => simp [combineSlots, dot]
 | case2 value values ih =>
  rw [combineSlots, dot, dot, dot, ih, dot]
  ring
 | case3 slot slots value values ih =>
  rw [combineSlots, dot, dot, dot, ih]
  ring

theorem getD_combineSlots (sign : Int) (slots values : List Int) (d : Nat) :
  (AffineForm.combineSlots sign slots values).getD d 0 = slots.getD d 0 + sign * values.getD d 0 := by
 induction slots, values using combineSlots.induct generalizing d with
 | case1 slots => simp [combineSlots]
 | case2 value values ih =>
  rw [combineSlots]
  cases d with
  | zero => simp
  | succ d => simpa using ih d
 | case3 slot slots value values ih =>
  rw [combineSlots]
  cases d with
  | zero => simp
  | succ d => simpa using ih d

theorem dot_of_zero {slots : List Int} (h : ∀ c ∈ slots, c = 0) (symbols : Nat → Int) : dot slots symbols = 0 := by
 induction slots generalizing symbols with
 | nil => rfl
 | cons c slots ih =>
  rw [dot, h c mem_cons_self, ih fun other hother => h other (mem_cons_of_mem _ hother)]
  ring

theorem getD_of_zero {slots : List Int} (h : ∀ c ∈ slots, c = 0) (d : Nat) : slots.getD d 0 = 0 := by
 by_cases hd : d < slots.length
 · rw [getD_eq_getElem _ _ hd]
   exact h _ (getElem_mem hd)
 · rw [getD_eq_default _ _ (by omega)]

section SameSlopes

variable {left right : AffineForm}

section

variable (h : left.sameSlopes right = true)

include h

theorem slots_of_sameSlopes : (∀ c ∈ AffineForm.combineSlots (-1) left.counters right.counters, c = 0) ∧
   ∀ c ∈ AffineForm.combineSlots (-1) left.symbols right.symbols, c = 0 := by
 rw [sameSlopes, isConstant, all_eq_true] at h
 exact ⟨fun c hc => of_decide_eq_true (h c (mem_append_left _ hc)),
  fun c hc => of_decide_eq_true (h c (mem_append_right _ hc))⟩

theorem counterCoefficient_eq_of_sameSlopes (d : Nat) :
  right.counterCoefficient d = left.counterCoefficient d := by
 have hzero := getD_of_zero (slots_of_sameSlopes h).1 d
 rw [getD_combineSlots] at hzero
 rw [counterCoefficient, counterCoefficient]
 omega

theorem dot_eq_of_sameSlopes (symbols : Nat → Int) :
  dot right.symbols symbols = dot left.symbols symbols := by
 have hzero := dot_of_zero (slots_of_sameSlopes h).2 symbols
 rw [dot_combineSlots] at hzero
 omega

end

theorem sameSlopes_self (form : AffineForm) : form.sameSlopes form = true := by
 have hzero : ∀ slots : List Int, ∀ c ∈ combineSlots (-1) slots slots, c = 0 := by
  intro slots
  induction slots with
  | nil => nofun
  | cons slot slots ih =>
   rw [combineSlots]
   intro c hc
   rcases mem_cons.1 hc with rfl | hmem
   · omega
   · exact ih c hmem
 rw [sameSlopes, isConstant, all_eq_true]
 intro c hc
 rcases mem_append.1 hc with hcounter | hsymbol
 · exact decide_eq_true (hzero _ c hcounter)
 · exact decide_eq_true (hzero _ c hsymbol)

end SameSlopes

/-! ## Runs -/

/-- What one run of a nest fixes. -/
structure Run where
 /-- Where each object stands. -/
 base : Nat → Int
 symbols : Nat → Int
 /-- How often each loop runs. -/
 trips : Nat → Int

namespace AffineView

variable (view : AffineView) (run : Run)

/-- The loops run as often as their bounds spell. -/
def Agrees : Prop :=
 ∀ d level trip, view.loops[d]? = some level → level.trip = some trip → run.trips d = trip

/-- The nests whose accesses the view reads in full. -/
structure IsAffine : Prop where
 transparent : view.opaqueBody = false
 rectangular : view.isRectangular = true
 affine : ∀ access ∈ view.accesses, access.wrapping = false ∧ ∃ form, access.offset = .affine form

/-- The iteration is one of the run's. -/
def InSpace (x : Nat → Int) : Prop :=
 ∀ d < view.depth, 0 ≤ x d ∧ x d < run.trips d

def value (form : AffineForm) (x : Nat → Int) : Int :=
 ((List.range view.depth).map fun d => form.counterCoefficient d * x d).sum + dot form.symbols run.symbols +
   form.constantTerm

/-- The access covers the byte in an iteration. -/
def Touches (access : Access) (x : Nat → Int) (byte : Int) : Prop :=
 ∃ form, access.offset = .affine form ∧ run.base access.base + view.value run form x ≤ byte ∧
  byte < run.base access.base + view.value run form x + access.extent

/-- Two accesses on one chain, of which one writes, touch a common byte: the first in one iteration, the second
in another. -/
def Conflict (i j : Nat) (x y : Nat → Int) : Prop :=
 ∃ a b, view.accesses[i]? = some a ∧ view.accesses[j]? = some b ∧ disjointChains a b = false ∧
  (a.write || b.write) = true ∧ ∃ byte, view.Touches run a x byte ∧ view.Touches run b y byte

/-- A loop whose trip count nothing spells runs further than the dependence test looks. -/
def Exceeds (x y : Nat → Int) : Prop :=
 ∃ d level, view.loops[d]? = some level ∧ level.trip = none ∧ UNBOUNDED < |y d - x d|

variable {view run}

variable {left right : AffineForm} {x y : Nat → Int}

/-- With common slopes, two values differ by the form's value at the distance. -/
theorem value_sub (view : AffineView) (run : Run) (h : left.sameSlopes right = true) (x y : Nat → Int) :
  view.value run right y - view.value run left x =
   total ((List.range view.depth).map left.counterCoefficient) (fun d => y d - x d) -
    (left.constantTerm - right.constantTerm) := by
 have hsum : ((List.range view.depth).map fun d => right.counterCoefficient d * y d).sum =
   ((List.range view.depth).map fun d => left.counterCoefficient d * x d).sum +
     total ((List.range view.depth).map left.counterCoefficient) fun d => y d - x d := by
  rw [total, length_map, length_range, ← sum_map_add]
  congr 1
  apply map_congr_left
  grind [counterCoefficient_eq_of_sameSlopes]
 rw [value, value, dot_eq_of_sameSlopes h]
 omega

/-- An access meets itself at a distance that its own slopes take into its extent. -/
theorem conflict_self_iff {i : Nat} :
  view.Conflict run i i x y ↔ ∃ access form, view.accesses[i]? = some access ∧ access.offset = .affine form ∧
   access.write = true ∧ access.chains ≠ [] ∧
   |total ((List.range view.depth).map form.counterCoefficient) fun d => y d - x d| < access.extent := by
 have hchains : ∀ access : Access, disjointChains access access = false ↔ access.chains ≠ [] := by
  intro access
  rw [← Bool.not_eq_true, disjointChains, all_eq_true, not_iff_not]
  constructor
  · intro h
    apply eq_nil_iff_forall_not_mem.2
    exact fun chain hchain => of_decide_eq_true (h chain hchain) hchain
  grind
 constructor
 · rintro ⟨access, other, haccess, hother, hdisjoint, hwrite, byte, ⟨form, hform, hlow, hhigh⟩, form', hform', hlow', hhigh'⟩
   obtain rfl : access = other := Option.some.inj (haccess.symm.trans hother)
   obtain rfl : form = form' := affine.inj (hform.symm.trans hform')
   have hsub := value_sub view run (sameSlopes_self form) x y
   grind
 · rintro ⟨access, form, haccess, hform, hwrite, hchain, hless⟩
   have hsub := value_sub view run (sameSlopes_self form) x y
   rw [abs_lt] at hless
   refine ⟨access, access, haccess, haccess, (hchains access).2 hchain, by rw [Bool.or_self]; exact hwrite,
    max (run.base access.base + view.value run form x) (run.base access.base + view.value run form y), ?_, ?_⟩
   · refine ⟨form, hform, le_max_left _ _, ?_⟩
     omega
   · refine ⟨form, hform, le_max_right _ _, ?_⟩
     omega

/-- A distance that the iteration space allows is one the dependence test looks at. -/
theorem distance_le (hagrees : view.Agrees run) (hx : view.InSpace run x) (hy : view.InSpace run y)
  (hexceeds : ¬view.Exceeds x y) {d : Nat} (hd : d < view.loops.length) :
  |y d - x d| ≤ ((view.loops.map fun l => l.trip.map (· - 1)).getD d none).getD UNBOUNDED := by
 rw [getD_eq_getElem _ _ (by rw [length_map]; exact hd), getElem_map]
 have hat : view.loops[d]? = some view.loops[d] := getElem?_eq_getElem hd
 cases htrip : view.loops[d].trip with
 | none =>
  rw [Option.map_none, Option.getD_none]
  by_contra hgreater
  exact hexceeds ⟨d, _, hat, htrip, by omega⟩
 | some trip =>
  have htrips := hagrees d _ trip hat htrip
  have hxd := hx d hd
  have hyd := hy d hd
  grind

/-- Two accesses to one object with common slopes that touch a common byte reach one of the two targets, the
first for the left access in the first iteration, the second for the left access in the second. -/
theorem target_of_touches {a b : Access} (ha : a.offset = .affine left)
  (hb : b.offset = .affine right) (hbase : a.base = b.base) (hslopes : left.sameSlopes right = true)
  (hmeet : (∃ byte, view.Touches run a x byte ∧ view.Touches run b y byte) ∨
   ∃ byte, view.Touches run a y byte ∧ view.Touches run b x byte) :
  ∃ target ∈ [(left.constantTerm - right.constantTerm - b.extent + 1, left.constantTerm - right.constantTerm + a.extent - 1),
    (-(left.constantTerm - right.constantTerm) - a.extent + 1, -(left.constantTerm - right.constantTerm) + b.extent - 1)],
   target.1 ≤ total ((List.range view.depth).map left.counterCoefficient) (fun d => y d - x d) ∧
    total ((List.range view.depth).map left.counterCoefficient) (fun d => y d - x d) ≤ target.2 := by
 rcases hmeet with ⟨byte, ⟨form, hform, hlow, hhigh⟩, form', hform', hlow', hhigh'⟩ |
  ⟨byte, ⟨form, hform, hlow, hhigh⟩, form', hform', hlow', hhigh'⟩
 · obtain rfl : left = form := affine.inj (ha.symm.trans hform)
   obtain rfl : right = form' := affine.inj (hb.symm.trans hform')
   have hsub := value_sub view run hslopes x y
   rw [← hbase] at hlow' hhigh'
   exact ⟨_, .head _, by dsimp only; omega, by dsimp only; omega⟩
 · obtain rfl : left = form := affine.inj (ha.symm.trans hform)
   obtain rfl : right = form' := affine.inj (hb.symm.trans hform')
   have hsub := value_sub view run hslopes y x
   have hneg : total ((List.range view.depth).map left.counterCoefficient) (fun d => x d - y d) =
     -total ((List.range view.depth).map left.counterCoefficient) fun d => y d - x d := by
    grind [total_neg]
   rw [hneg] at hsub
   rw [← hbase] at hlow' hhigh'
   exact ⟨_, .tail _ (.head _), by dsimp only; omega, by dsimp only; omega⟩

/-- What a pair says allows the signs of a distance. -/
def Covers : Dependence → List Int → Prop
 | .independent, _ => False
 | .distances components, vector => vector ∈ expand components
 | .conditional .., _ => True
 | .unknown, _ => True

/-- The dependence of two accesses allows the distance of any two iterations in which they touch a common byte. -/
theorem dependence_covers {a b : Access} (haffine : view.opaqueBody = false)
  (hwrapping : a.wrapping = false ∧ b.wrapping = false) (hdistance : ∀ d < view.loops.length, |y d - x d| ≤
   ((view.loops.map fun l => l.trip.map (· - 1)).getD d none).getD UNBOUNDED)
  (hlex : lexPositive ((List.range view.depth).map fun d => y d - x d) = true)
  (hmeet : (∃ byte, view.Touches run a x byte ∧ view.Touches run b y byte) ∨
   ∃ byte, view.Touches run a y byte ∧ view.Touches run b x byte) :
  Covers (view.dependence a b) ((List.range view.depth).map fun d => (y d - x d).sign) := by
 rw [dependence]
 split
 · rename_i left right ha hb
   rw [if_neg (by rw [haffine, hwrapping.1, hwrapping.2]; exact nofun)]
   split
   · -- two objects: the pair is conditional or unknown
     split <;> trivial
   · rename_i hbase
     split
     · trivial
     · rename_i hslopes
       have hslopes : left.sameSlopes right = true := by
        cases h : left.sameSlopes right
        · grind
        · rfl
       have hlen : ((List.range view.loops.length).map left.counterCoefficient).length = view.loops.length := by
        rw [length_map, length_range]
       obtain ⟨components, hcomponents, hmem⟩ := distances_sound (δ := fun d => y d - x d)
        (show (view.loops.map fun l => l.trip.map (· - 1)).length =
         ((List.range view.loops.length).map left.counterCoefficient).length by rw [hlen, length_map])
        (by rw [hlen]; exact hdistance) (target_of_touches ha hb (not_not.1 hbase) hslopes hmeet)
        (by rw [hlen]; exact hlex)
       rw [hlen] at hmem
       dsimp only
       rw [hcomponents]
       exact hmem
 · trivial

end AffineView

/-! ## Constraints -/

theorem constraints_keep {vector : List Int} (pairs : List Pair) (c : Constraints) (h : c.undecided = true ∨ vector ∈ c.vectors) :
   (pairs.foldl (fun c pair => match pair.dependence with
    | .independent => c
    | .distances components => { c with vectors := c.vectors ++ expand components }
    | .conditional _ _ => { c with undecided := true }
    | .unknown => { c with undecided := true }) c).undecided = true ∨
   vector ∈ (pairs.foldl (fun c pair => match pair.dependence with
    | .independent => c
    | .distances components => { c with vectors := c.vectors ++ expand components }
    | .conditional _ _ => { c with undecided := true }
    | .unknown => { c with undecided := true }) c).vectors := by
 induction pairs generalizing c with
 | nil => exact h
 | cons other pairs ih =>
  rw [foldl_cons]
  apply ih
  cases other.dependence with
  | independent => exact h
  | distances components => exact h.imp_right fun hmem => mem_append_left _ hmem
  | conditional left right => exact .inl rfl
  | unknown => exact .inl rfl

/-- The constraints gather what each pair allows. -/
theorem constraints_of_pair {view : AffineView} {pair : Pair} {vector : List Int} (hpair : pair ∈ view.pairs)
  (hcov : AffineView.Covers pair.dependence vector) :
  (constraints view).undecided = true ∨ vector ∈ (constraints view).vectors := by
 rw [constraints]
 generalize hstart : Constraints.mk [] _ = start
 clear hstart
 generalize view.pairs = pairs at hpair
 induction pairs generalizing start with
 | nil => cases hpair
 | cons other pairs ih =>
  rw [foldl_cons]
  rcases mem_cons.1 hpair with rfl | hmem
  · apply constraints_keep
    cases hdep : pair.dependence with
    | independent =>
     rw [hdep] at hcov
     exact hcov.elim
    | distances components =>
     rw [hdep] at hcov
     exact .inr (mem_append_right _ hcov)
    | conditional left right => exact .inl rfl
    | unknown => exact .inl rfl
  · exact ih _ hmem

namespace AffineView

variable {view : AffineView} {run : Run}

theorem mem_pairs {i j : Nat} {a b : Access} (hlt : i < j) (ha : view.accesses[i]? = some a)
  (hb : view.accesses[j]? = some b) (hchains : disjointChains a b = false) (hwrite : (a.write || b.write) = true) :
  ⟨i, j, view.dependence a b⟩ ∈ view.pairs := by
 have hj : j < view.accesses.length := (List.getElem?_eq_some_iff.1 hb).1
 rw [pairs, mem_flatMap]
 refine ⟨i, mem_range.2 (by omega), ?_⟩
 rw [mem_filterMap]
 refine ⟨j, ?_, ?_⟩
 · rw [mem_range'_1]
   omega
 grind

theorem disjointChains_comm (a b : Access) : disjointChains a b = disjointChains b a := by
 rw [disjointChains, disjointChains, Bool.eq_iff_iff, all_eq_true, all_eq_true]
 constructor
 · exact fun h chain hb => decide_eq_true fun ha => of_decide_eq_true (h chain ha) hb
 · exact fun h chain ha => decide_eq_true fun hb => of_decide_eq_true (h chain hb) ha

/-- Two different accesses that conflict at a distance the dependence test looks at leave their mark on the
constraints. -/
theorem constraints_of_conflict {i j : Nat} {x y : Nat → Int} (haffine : view.IsAffine) (hagrees : view.Agrees run)
  (hx : view.InSpace run x) (hy : view.InSpace run y) (hexceeds : ¬view.Exceeds x y)
  (hlex : lexPositive ((List.range view.depth).map fun d => y d - x d) = true) (hne : i ≠ j)
  (hconflict : view.Conflict run i j x y) : (constraints view).undecided = true ∨
   ((List.range view.depth).map fun d => (y d - x d).sign) ∈ (constraints view).vectors := by
 obtain ⟨a, b, ha, hb, hchains, hwrite, hmeet⟩ := hconflict
 have hwrapping := (haffine.affine a (mem_of_getElem? ha)).1
 have hwrapping' := (haffine.affine b (mem_of_getElem? hb)).1
 have hdistance := fun d (hd : d < view.loops.length) => distance_le hagrees hx hy hexceeds hd
 rcases Nat.lt_or_gt_of_ne hne with hlt | hgt
 · exact constraints_of_pair (mem_pairs hlt ha hb hchains hwrite)
    (dependence_covers haffine.transparent ⟨hwrapping, hwrapping'⟩ hdistance hlex (.inl hmeet))
 · -- the later access runs in the first iteration, so the pair has the two the other way round
   rw [disjointChains_comm] at hchains
   rw [Bool.or_comm] at hwrite
   obtain ⟨byte, hfst, hsnd⟩ := hmeet
   exact constraints_of_pair (mem_pairs hgt hb ha hchains hwrite)
    (dependence_covers haffine.transparent ⟨hwrapping', hwrapping⟩ hdistance hlex (.inr ⟨byte, hsnd, hfst⟩))

end AffineView

end Tir.Affine
