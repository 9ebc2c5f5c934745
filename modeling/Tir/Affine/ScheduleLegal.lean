import Tir.Affine.Footprint

/-!
# The schedules of a nest

`candidates` admits a schedule where the nest's pairs allow its order. A pair has two different accesses, so
what an access does to itself in two iterations is not asked: a candidate keeps the order of all conflicts if
and only if it keeps those of a writing access with itself, and those further apart than the dependence test
looks in a loop whose trip count nothing spells (`legal_iff`).
-/

open List Option

namespace Tir.Affine

open Lexicographic Candidate AffineView

/-! ## Orders -/

/-- What a loop of a candidate's nest counts in an iteration. -/
def Level.key (candidate : Candidate) : Level → (Nat → Int) → Int
 | .plain d, x => x d
 | .tileOuter d, x => x d / candidate.tile d
 | .tileInner d, x => x d % candidate.tile d

/-- The original nest runs one iteration before another. -/
def Before (depth : Nat) (x y : Nat → Int) : Prop :=
 RunsBefore ((List.range depth).map fun d (x : Nat → Int) => x d) x y

/-- The candidate's nest runs one iteration before another. -/
def Candidate.Before (candidate : Candidate) (x y : Nat → Int) : Prop :=
 RunsBefore ((levels candidate).map (Level.key candidate)) x y

theorem before_iff {depth : Nat} {x y : Nat → Int} :
  Before depth x y ↔ lexPositive ((List.range depth).map fun d => y d - x d) = true := by
 rw [Before, runsBefore_iff, List.map_map]
 rfl

namespace Candidate

variable {candidate : Candidate}

theorem band_le {first last : Nat} (h : candidate.band = some (first, last)) :
  first ≤ last ∧ last ≤ candidate.permutation.length := by
 rw [band] at h
 generalize hfilter : (List.range candidate.permutation.length).filter
  (fun p => 1 < candidate.tile (candidate.dimension p)) = tiled at h
 split at h
 · rename_i start stop hhead hlast
   split at h
   · rename_i hcnt
     cases h
     have hmem : stop ∈ tiled := mem_of_getLast? hlast
     rw [← hfilter, mem_filter, mem_range] at hmem
     refine ⟨?_, hmem.1⟩
     by_contra hgt
     -- one position only: the first is the last
     have hone : tiled.length = 1 := by omega
     obtain ⟨only, rfl⟩ := length_eq_one_iff.1 hone
     grind
   · nomatch h
 · nomatch h

/-- Without a band no position is tiled: the loops are the permuted ones. -/
theorem levels_of_band_none (h : candidate.band = none) :
  levels candidate = candidate.permutation.map .plain := by
 rw [levels, h]
 dsimp only [getD_none]
 rw [Nat.sub_self, ← range_eq_range']
 simp only [range'_zero, map_nil, append_nil]
 apply ext_getElem
 · rw [length_map, length_map, length_range]
 · intro p hp hp'
   rw [length_map] at hp'
   rw [getElem_map, getElem_map, getElem_range, dimension, getD_eq_getElem _ _ hp']

end Candidate

/-! ## The identity -/

theorem identity_band (depth : Nat) : (Candidate.identity depth).band = none := by
 have htile : ∀ d, (identity depth).tile d = 1 := by
  intro d
  rw [tile, identity]
  by_cases hd : d < depth
  · rw [getD_eq_getElem _ _ (by rw [length_replicate]; exact hd), getElem_replicate]
  · rw [getD_eq_default _ _ (by rw [length_replicate]; omega)]
 rw [band]
 grind

theorem identity_before (depth : Nat) (x y : Nat → Int) : (Candidate.identity depth).Before x y ↔ Before depth x y := by
 rw [Candidate.Before, Before, levels_of_band_none (identity_band depth), List.map_map]
 rfl

/-! ## Admitted candidates -/

theorem mem_permutations {depth : Nat} {permutation : List Nat} (h : permutation ∈ permutations depth) :
  permutation.length = depth ∧ ∀ d ∈ permutation, d < depth := by
 have hgrow : ∀ (steps : List Nat) (all : List (List Nat)) (taken : Nat),
   (∀ front ∈ all, front.length = taken ∧ ∀ d ∈ front, d < depth) →
   ∀ front ∈ steps.foldl (fun all _ => all.flatMap fun front =>
    ((List.range depth).filter fun dimension => dimension ∉ front).map fun dimension => front ++ [dimension]) all,
    front.length = taken + steps.length ∧ ∀ d ∈ front, d < depth := by
  intro steps
  induction steps with
  | nil => exact fun all taken hall => hall
  | cons step steps ih =>
   intro all taken hall front hfront
   rw [foldl_cons] at hfront
   have hstep := ih _ (taken + 1) (by
    intro longer hlonger
    obtain ⟨front, hin, hmap⟩ := mem_flatMap.1 hlonger
    obtain ⟨d, hd, rfl⟩ := List.mem_map.1 hmap
    obtain ⟨hlen, hless⟩ := hall front hin
    rw [mem_filter, mem_range] at hd
    refine ⟨by rw [length_append, hlen]; rfl, fun e he => ?_⟩
    rcases mem_append.1 he with hmem | hlast
    · exact hless e hmem
    grind) front hfront
   grind
 have hall := hgrow (List.range depth) [[]] 0 (by
  grind) permutation h
 grind

/-- A candidate that the constraints admit is the identity, or lets no vector run backwards, nor fall within
its band. -/
theorem admits_cases {c : Constraints} {candidate : Candidate} (h : c.admits candidate = true) :
  c.undecided = true ∧ candidate = Candidate.identity candidate.permutation.length ∨
   c.undecided = false ∧ ∀ vector ∈ c.vectors, lexPositive (candidate.permutation.map fun d => vector.getD d 0) = true ∧
     ∀ first last, candidate.band = some (first, last) →
      ∀ s ∈ ((candidate.permutation.map fun d => vector.getD d 0).drop first).take (last - first), 0 ≤ s := by
 rw [Constraints.admits] at h
 cases hundecided : c.undecided with
 | true =>
  rw [hundecided, if_pos rfl, isIdentity, decide_eq_true_iff] at h
  exact Or.inl ⟨rfl, h⟩
 | false =>
  rw [hundecided, if_neg Bool.false_ne_true] at h
  split at h
  · nomatch h
  grind

/-- The signs of a permuted distance: a candidate that keeps the order of the signs, and whose band does not
fall, keeps the order of the iterations. -/
theorem before_of_signs {depth : Nat} {candidate : Candidate} {x y : Nat → Int}
  (hless : ∀ d ∈ candidate.permutation, d < depth)
  (hlex : lexPositive (candidate.permutation.map fun d => ((List.range depth).map fun d => (y d - x d).sign).getD d 0) = true)
  (hband : ∀ first last, candidate.band = some (first, last) → ∀ s ∈ ((candidate.permutation.map fun d =>
   ((List.range depth).map fun d => (y d - x d).sign).getD d 0).drop first).take (last - first), 0 ≤ s) :
  candidate.Before x y := by
 have hsigns : (candidate.permutation.map fun d => ((List.range depth).map fun d => (y d - x d).sign).getD d 0) =
   (candidate.permutation.map fun d => y d - x d).map Int.sign := by
  rw [List.map_map]
  apply map_congr_left
  grind
 rw [hsigns] at hlex hband
 rw [lexPositive_map_sign] at hlex
 rw [Candidate.Before, runsBefore_iff]
 cases hfound : candidate.band with
 | none =>
  rw [levels_of_band_none hfound, List.map_map, List.map_map]
  exact hlex
 | some range =>
  obtain ⟨first, last⟩ := range
  obtain ⟨hle, hle'⟩ := band_le hfound
  have hsplit : candidate.permutation = (List.range' 0 first).map candidate.dimension ++
    ((List.range' first (last - first)).map candidate.dimension ++
      (List.range' last (candidate.permutation.length - last)).map candidate.dimension) := by
   rw [← map_append, ← map_append]
   have hjoin : List.range' 0 first ++ (List.range' first (last - first) ++
     List.range' last (candidate.permutation.length - last)) = List.range candidate.permutation.length := by
    rw [range_eq_range']
    have hinner : List.range' first (last - first) ++ List.range' last (candidate.permutation.length - last) =
      List.range' first (candidate.permutation.length - first) := by
     have happ := range'_append_1 (s := first) (m := last - first) (n := candidate.permutation.length - last)
     rw [show first + (last - first) = last by omega] at happ
     grind
    have happ := range'_append_1 (s := 0) (m := first) (n := candidate.permutation.length - first)
    grind
   rw [hjoin]
   apply ext_getElem
   · rw [length_map, length_range]
   · intro p hp _
     rw [getElem_map, getElem_range, dimension, getD_eq_getElem _ _ hp]
  have hmiddle : ((candidate.permutation.map fun d => y d - x d).drop first).take (last - first) =
    (List.range' first (last - first)).map fun p => y (candidate.dimension p) - x (candidate.dimension p) := by
   conv_lhs => rw [hsplit]
   rw [map_append, map_append, List.map_map, List.map_map,
    drop_left' (by rw [length_map, length_range']),
    take_left' (by rw [length_map, length_range'])]
   rfl
  have htiles : ∀ entry ∈ (List.range' first (last - first)).map fun p =>
    ((candidate.tile (candidate.dimension p) : Int), x (candidate.dimension p), y (candidate.dimension p)), 0 ≤ entry.1 := by
   intro entry hent
   obtain ⟨p, -, rfl⟩ := List.mem_map.1 hent
   exact Int.natCast_nonneg _
  have hrises : ∀ entry ∈ (List.range' first (last - first)).map fun p =>
    ((candidate.tile (candidate.dimension p) : Int), x (candidate.dimension p), y (candidate.dimension p)),
    0 ≤ entry.2.2 - entry.2.1 := by
   intro entry hent
   obtain ⟨p, hp, rfl⟩ := List.mem_map.1 hent
   have hnonneg := hband first last hfound ((y (candidate.dimension p) - x (candidate.dimension p)).sign) (by
    rw [← map_drop, ← map_take, hmiddle, List.map_map]
    exact List.mem_map.2 ⟨p, hp, rfl⟩)
   exact Int.sign_nonneg_iff.1 hnonneg
  rw [hsplit, map_append, map_append, List.map_map, List.map_map, List.map_map] at hlex
  have htiled := lexPositive_tiled htiles hrises (by
   rw [List.map_map]
   exact hlex)
  rw [levels, hfound]
  simp only [map_append, List.map_map, getD_some] at htiled ⊢
  exact htiled

/-! ## Legality -/

section Legality

variable (view : AffineView) (run : Run)

/-- The candidate keeps the order of every two iterations in which accesses conflict. -/
def Legal (candidate : Candidate) : Prop :=
 ∀ x y, view.InSpace run x → view.InSpace run y → Before view.depth x y → ∀ i j, view.Conflict run i j x y →
  candidate.Before x y

/-- The candidate keeps the order of two iterations at a distance that a writing access's own slopes take into
its extent. -/
def KeepsOwn (candidate : Candidate) : Prop :=
 ∀ access ∈ view.accesses, access.write = true → access.chains ≠ [] → ∀ form, access.offset = .affine form →
  ∀ x y, view.InSpace run x → view.InSpace run y → Before view.depth x y →
   |total ((List.range view.depth).map form.counterCoefficient) fun d => y d - x d| < access.extent → candidate.Before x y

/-- The candidate keeps the order of conflicts at a distance that the dependence test does not look at. -/
def KeepsFar (candidate : Candidate) : Prop :=
 ∀ x y, view.InSpace run x → view.InSpace run y → Before view.depth x y → view.Exceeds x y →
  ∀ i j, view.Conflict run i j x y → candidate.Before x y

variable {view run}

/-- An admitted candidate keeps the order of two different accesses that conflict. -/
theorem before_of_conflict {candidate : Candidate} (haffine : view.IsAffine) (hagrees : view.Agrees run)
  (hcandidate : candidate ∈ candidates view (constraints view)) {x y : Nat → Int} (hx : view.InSpace run x)
  (hy : view.InSpace run y) (hbef : Before view.depth x y) {i j : Nat} (hconflict : view.Conflict run i j x y)
  (hne : i ≠ j) (hexceeds : ¬view.Exceeds x y) : candidate.Before x y := by
 rw [candidates, mem_filter, Bool.and_eq_true] at hcandidate
 obtain ⟨hmem, hadmits, -⟩ := hcandidate
 obtain ⟨permutation, hpermutation, htiles⟩ := mem_flatMap.1 hmem
 obtain ⟨tiles, -, rfl⟩ := List.mem_map.1 htiles
 obtain ⟨hlen, hless⟩ := mem_permutations hpermutation
 rcases admits_cases hadmits with ⟨-, hidentity⟩ | ⟨hdecided, hvectors⟩
 · grind [identity_before]
 · rcases constraints_of_conflict haffine hagrees hx hy hexceeds (before_iff.1 hbef) hne hconflict with
    hundecided | hvector
   · grind
   · obtain ⟨hlex, hband⟩ := hvectors _ hvector
     exact before_of_signs hless hlex hband

/-- An admitted candidate is legal exactly when it keeps the order of what the pairs miss. -/
theorem legal_iff {candidate : Candidate} (haffine : view.IsAffine) (hagrees : view.Agrees run)
  (hcandidate : candidate ∈ candidates view (constraints view)) :
  Legal view run candidate ↔ KeepsOwn view run candidate ∧ KeepsFar view run candidate := by
 constructor
 · intro hlegal
   constructor
   · intro access haccess hwrite hchains form hform x y hx hy hbef hless
     obtain ⟨i, hi⟩ := mem_iff_getElem?.1 haccess
     exact hlegal x y hx hy hbef i i (conflict_self_iff.2 ⟨access, form, hi, hform, hwrite, hchains, hless⟩)
   · exact fun x y hx hy hbef _ i j hconflict => hlegal x y hx hy hbef i j hconflict
 · rintro ⟨hown, hfar⟩ x y hx hy hbef i j hconflict
   by_cases hexceeds : view.Exceeds x y
   · exact hfar x y hx hy hbef hexceeds i j hconflict
   · by_cases hsame : i = j
     · subst hsame
       obtain ⟨access, form, hi, hform, hwrite, hchains, hless⟩ := conflict_self_iff.1 hconflict
       exact hown access (mem_of_getElem? hi) hwrite hchains form hform x y hx hy hbef hless
     · exact before_of_conflict haffine hagrees hcandidate hx hy hbef hconflict hsame hexceeds

end Legality

/-! ## A wavefront -/

/-- Two loops of two iterations that write one byte at the sum of their counters. -/
def wavefront : AffineView where
 loops := replicate 2 ⟨.constant 0, .constant 2, .constant 1, some 2⟩
 accesses := [{ write := true, chains := [0], base := 0, offset := .affine ⟨[1, 1], [], 0⟩, extent := 1, wrapping := false }]
 opaqueBody := false

def wavefrontRun : Run :=
 ⟨fun _ => 0, fun _ => 0, fun _ => 2⟩

theorem wavefront_isAffine : wavefront.IsAffine where
 transparent := rfl
 rectangular := by decide
 affine := by
  intro access haccess
  rw [mem_singleton.1 haccess]
  exact ⟨rfl, _, rfl⟩

theorem wavefront_agrees : wavefront.Agrees wavefrontRun := by
 intro d level trip hlevel htrip
 have hmem := mem_of_getElem? hlevel
 rw [eq_of_mem_replicate hmem] at htrip
 exact some.inj htrip

theorem wavefront_inSpace {x : Nat → Int} (h : ∀ d < 2, 0 ≤ x d ∧ x d < 2) : wavefront.InSpace wavefrontRun x :=
 h

/-- The loops may be exchanged although the iterations (0, 1) and (1, 0) write the same byte. -/
theorem wavefront_exchange_illegal : ¬∀ view run candidate, view.IsAffine → view.Agrees run →
  (∀ access ∈ view.accesses, 0 < access.extent) → candidate ∈ candidates view (constraints view) →
   Legal view run candidate := by
 intro h
 have hlegal := h wavefront wavefrontRun ⟨[1, 0], [1, 1]⟩ wavefront_isAffine wavefront_agrees (by decide) (by decide)
 have hbef := hlegal (fun d => if d = 0 then 0 else 1) (fun d => if d = 0 then 1 else 0)
  (wavefront_inSpace (by decide)) (wavefront_inSpace (by decide))
  (before_iff.2 (by decide)) 0 0 (conflict_self_iff.2 ⟨_, _, rfl, rfl, rfl, by decide, by decide⟩)
 rw [Candidate.Before, runsBefore_iff] at hbef
 revert hbef
 decide

/-- What the theorem says of the exchange. -/
theorem wavefront_exchange_legal_iff : ⟨[1, 0], [1, 1]⟩ ∈ candidates wavefront (constraints wavefront) ∧
  (Legal wavefront wavefrontRun ⟨[1, 0], [1, 1]⟩ ↔
   KeepsOwn wavefront wavefrontRun ⟨[1, 0], [1, 1]⟩ ∧ KeepsFar wavefront wavefrontRun ⟨[1, 0], [1, 1]⟩) :=
 ⟨by decide, legal_iff wavefront_isAffine wavefront_agrees (by decide)⟩

end Tir.Affine
