import Tir.RegAlloc.Split
import Tir.RegAlloc.StrictSsa

/-!
# The names of a split value

The last copy of a value before a point (`lastCopy_cases`), and the names at the ends and the entries of
blocks as the dominator tree gives them (`Naming.endName_eq`).
-/

open List

namespace Tir.RegAlloc

open Tir.Graph Tir.Backend

variable {n : Nat}

/-! ## The last copy before a point -/

theorem maxByKey_concat {α : Type} (key : α → Nat) (l : List α) (z : α) : maxByKey key (l ++ [z]) = match maxByKey key l with
   | none => some z
   | some y => if key y ≤ key z then some z else some y := by
 rw [maxByKey, foldl_append]
 rfl

theorem maxByKey_cases {α : Type} (key : α → Nat) (l : List α) : (l = [] ∧ maxByKey key l = none) ∨
   ∃ x ∈ l, maxByKey key l = some x ∧ ∀ y ∈ l, key y ≤ key x := by
 induction l using List.reverseRecOn with
 | nil => exact .inl ⟨rfl, rfl⟩
 | append_singleton l z ih =>
  refine .inr ?_
  have hstep := maxByKey_concat key l z
  rcases ih with ⟨rfl, -⟩ | ⟨x, hx, hmax, hall⟩
  · exact ⟨z, by simp, rfl, by simp⟩
  · rw [hmax] at hstep
    by_cases hle : key x ≤ key z
    · refine ⟨z, by simp, by rw [hstep]; exact if_pos hle, fun y hy => ?_⟩
      rcases mem_append.1 hy with hy | hy
      · exact (hall y hy).trans hle
      · rw [mem_singleton.1 hy]
    · refine ⟨x, by simp [hx], by rw [hstep]; exact if_neg hle, fun y hy => ?_⟩
      rcases mem_append.1 hy with hy | hy
      · exact hall y hy
      · rw [mem_singleton.1 hy]
        omega

/-- A site of the block copies the value before the operation at an index. -/
def CopiedAt (sites : List (Site n)) (value : Nat) (block : Fin n) (index : Nat) : Prop :=
 ∃ site ∈ sites, site.block = block ∧ site.index = index ∧ value ∈ site.values

theorem before_lt_before {i j : Nat} : before i < before j ↔ i < j := by
 simp only [before, point]
 omega

theorem before_lt_point {i j : Nat} : before i < point j ↔ i ≤ j := by
 simp only [before, point]
 omega

section

variable {sites : List (Site n)} {value : Nat} {block : Fin n}

variable (sites value block) in
/-- No copy before the limit, or the last one. -/
theorem lastCopy_cases (limit : Option Nat) : (lastCopy sites value block limit = none ∧
   ∀ j, CopiedAt sites value block j → ¬ limit.all fun p => before j < p) ∨
  ∃ j, lastCopy sites value block limit = some (.copy block j value) ∧
   CopiedAt sites value block j ∧ (limit.all fun p => before j < p) ∧
   ∀ k, CopiedAt sites value block k → (limit.all fun p => before k < p) → k ≤ j := by
 have hmem : ∀ x, x ∈ ((namesOf sites value).filter fun name =>
   name.1 = block ∧ limit.all fun p => name.2.1 < p) ↔
   ∃ j, CopiedAt sites value block j ∧ (limit.all fun p => before j < p) ∧
    x = (block, before j, .copy block j value) := by
  intro x
  simp only [namesOf, mem_filter, mem_map, decide_eq_true_eq]
  constructor
  · rintro ⟨⟨site, ⟨hs, hv⟩, rfl⟩, hb, hl⟩
    exact ⟨site.index, ⟨site, hs, hb, rfl, hv⟩, hl, by rw [← hb]⟩
  · rintro ⟨j, ⟨site, hs, rfl, rfl, hv⟩, hl, rfl⟩
    exact ⟨⟨site, ⟨hs, hv⟩, rfl⟩, rfl, hl⟩
 rcases maxByKey_cases (fun name : Fin n × Nat × Name n => name.2.1)
   ((namesOf sites value).filter fun name =>
     name.1 = block ∧ limit.all fun p => name.2.1 < p) with ⟨hnil, hnone⟩ | ⟨x, hx, hmax, hall⟩
 · refine .inl ⟨by rw [lastCopy, hnone]; rfl, fun j hj hl => ?_⟩
   have := (hmem _).2 ⟨j, hj, hl, rfl⟩
   rw [hnil] at this
   simp at this
 · obtain ⟨j, hj, hl, rfl⟩ := (hmem x).1 hx
   refine .inr ⟨j, by rw [lastCopy, hmax]; rfl, hj, hl, fun k hk hkl => ?_⟩
   have hle : before k ≤ before j := hall _ ((hmem _).2 ⟨k, hk, hkl, rfl⟩)
   by_contra hlt
   have := before_lt_before.2 (not_le.1 hlt)
   omega

/-- Limits that let the same copies pass have the same last copy. -/
theorem lastCopy_congr {limit limit' : Option Nat} (h : ∀ j, CopiedAt sites value block j →
   ((limit.all fun p => before j < p) ↔ (limit'.all fun p => before j < p))) :
  lastCopy sites value block limit = lastCopy sites value block limit' := by
 rcases lastCopy_cases sites value block limit with ⟨hnone, hno⟩ | ⟨j, hj, hcj, hlj, hmax⟩
 · rcases lastCopy_cases sites value block limit' with ⟨hnone', -⟩ | ⟨k, -, hck, hlk, -⟩
   · rw [hnone, hnone']
   · exact absurd ((h k hck).2 hlk) (hno k hck)
 · rcases lastCopy_cases sites value block limit' with ⟨-, hno'⟩ | ⟨k, hk, hck, hlk, hmax'⟩
   · exact absurd ((h j hcj).1 hlj) (hno' j hcj)
   · have h1 := hmax k hck ((h k hck).2 hlk)
     have h2 := hmax' j hcj ((h j hcj).1 hlj)
     rw [hj, hk, le_antisymm h1 h2]

theorem lastCopy_none_of (limit : Option Nat)
  (h : ∀ j, CopiedAt sites value block j → ¬ limit.all fun p => before j < p) :
  lastCopy sites value block limit = none := by
 rcases lastCopy_cases sites value block limit with ⟨hnone, -⟩ | ⟨j, -, hcj, hlj, -⟩
 · exact hnone
 · exact absurd hlj (h j hcj)

end

/-! ## The names through the dominator tree -/

def Name.value : Name n → Nat
 | .original value => value
 | .copy _ _ value => value
 | .param _ value => value

namespace Naming

variable {r : Naming n}

/-- The dominator above a block ranks lower. -/
def Ordered (r : Naming n) : Prop :=
 ∀ b i, r.dominance.idom b = some i → r.dominance.rank i < r.dominance.rank b

theorem climbNames_stable (hr : r.Ordered) (value : Nat) {steps : Nat} {b : Fin n}
  (h : r.dominance.rank b < steps) : r.climbNames value steps b = r.endName value b := by
 rw [endName]
 -- both climbs take the same turns, and neither runs out of steps
 induction hk : r.dominance.rank b using Nat.strong_induction_on generalizing b steps with
 | _ k ih =>
  obtain ⟨steps, rfl⟩ : ∃ m, steps = m + 1 := ⟨steps - 1, by omega⟩
  rw [climbNames, climbNames]
  cases hi : r.dominance.idom b with
  | none => rfl
  | some i =>
   have hlt := hr b i hi
   have h1 := @ih (r.dominance.rank i) (by omega) steps i (by omega) rfl
   have h2 := @ih (r.dominance.rank i) (by omega) k i (by omega) rfl
   simp [h1, h2]

/-- The name at the end of a block is its last copy, or the name it enters with. -/
theorem endName_eq (hr : r.Ordered) (value : Nat) (b : Fin n) :
  r.endName value b = (lastCopy r.sites value b none).getD (r.entryName value b) := by
 rw [endName, climbNames, entryName]
 cases lastCopy r.sites value b none with
 | some name => rfl
 | none =>
  cases hi : r.dominance.idom b with
  | none => rfl
  | some i => simp only [climbNames_stable hr value (hr b i hi), Option.getD_none]

theorem nameAt_eq (value : Nat) (b : Fin n) (p : Nat) :
  r.nameAt value b p = (lastCopy r.sites value b (some p)).getD (r.entryName value b) := by
 rw [nameAt]
 cases lastCopy r.sites value b (some p) with
 | some name => rfl
 | none => rfl

theorem climbNames_value (value steps : Nat) (b : Fin n) :
  (r.climbNames value steps b).value = value := by
 induction steps generalizing b with
 | zero => rfl
 | succ steps ih =>
  rw [climbNames]
  rcases lastCopy_cases r.sites value b none with
   ⟨hnone, -⟩ | ⟨j, hj, -⟩
  · rw [hnone]
    by_cases hm : value ∈ r.met b
    · simp only [hm, if_true]
      rfl
    · simp only [hm, if_false]
      cases r.dominance.idom b with
      | none => rfl
      | some i => exact ih i
  · rw [hj]
    rfl

theorem entryName_value (value : Nat) (b : Fin n) : (r.entryName value b).value = value := by
 rw [entryName]
 by_cases hm : value ∈ r.met b
 · rw [if_pos hm]
   rfl
 · rw [if_neg hm]
   cases r.dominance.idom b with
   | none => rfl
   | some i => exact climbNames_value value _ i

end Naming

end Tir.RegAlloc
