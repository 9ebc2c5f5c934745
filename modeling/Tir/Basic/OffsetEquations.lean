import Mathlib.Tactic.Abel

/-!
# Equations between unknowns at offsets

An equation says that one unknown plus an offset is another plus an offset, over any additive
group. `Entails` is what a list of equations implies. A `Placement` puts each unknown at an offset
from a root; it is `Exact` for a list of equations when two terms are placed alike exactly when they
are implied equal (`Exact.place_eq_iff`). Exactness is kept by merging two roots
(`Exact.merge`), and under it implication is truth in every solution (`Exact.entails_iff_solutions`)
and an equation without a common solution is one between two offsets of one root
(`Exact.unsolvable_iff`).
-/

open List

namespace Tir.OffsetEquations

universe u v

variable {ι : Type u} {G : Type v} [AddCommGroup G]

/-- An equation between two unknowns, each at an offset. -/
abbrev Equation (ι : Type u) (G : Type v) :=
 (ι × G) × (ι × G)

/-- What equations imply: the least congruence for adding an offset that holds them. -/
inductive Entails (E : List (Equation ι G)) : ι × G → ι × G → Prop where
 | given {a b : ι × G} (hin : (a, b) ∈ E) : Entails E a b
 | refl (a : ι × G) : Entails E a a
 | symm {a b : ι × G} (h : Entails E a b) : Entails E b a
 | trans {a b c : ι × G} (h : Entails E a b) (h' : Entails E b c) : Entails E a c
 | shift {i j : ι} {g g' : G} (h : Entails E (i, g) (j, g')) (k : G) : Entails E (i, g + k) (j, g' + k)

theorem Entails.mono {E E' : List (Equation ι G)} (hsub : ∀ e ∈ E, e ∈ E') {a b : ι × G} (h : Entails E a b) :
  Entails E' a b := by
 induction h with
 | given hin => exact Entails.given (hsub _ hin)
 | refl a => exact Entails.refl a
 | symm _ ih => exact ih.symm
 | trans _ _ ih ih' => exact ih.trans ih'
 | shift _ k ih => exact ih.shift k

/-! ## Solutions -/

def value (sol : ι → G) (a : ι × G) : G :=
 sol a.1 + a.2

/-- A solution makes every equation true. -/
def Solves (sol : ι → G) (E : List (Equation ι G)) : Prop :=
 ∀ e ∈ E, value sol e.1 = value sol e.2

theorem Entails.sound {E : List (Equation ι G)} {sol : ι → G} (hsol : Solves sol E) {a b : ι × G}
  (h : Entails E a b) : value sol a = value sol b := by
 induction h with
 | given hin => exact hsol _ hin
 | refl a => rfl
 | symm _ ih => exact ih.symm
 | trans _ _ ih ih' => exact ih.trans ih'
 | shift _ k ih =>
  simp only [value] at ih ⊢
  rw [← add_assoc, ih, add_assoc]

/-! ## Placements -/

/-- Each unknown at an offset from a root. -/
@[ext] structure Placement (ι : Type u) (G : Type v) [AddCommGroup G] where
  root : ι → ι
  offset : ι → G
  root_root : ∀ i, root (root i) = root i
  offset_root : ∀ i, offset (root i) = 0

namespace Placement

/-- Every unknown is a root. -/
def apart : Placement ι G where
 root i := i
 offset _ := 0
 root_root _ := rfl
 offset_root _ := rfl

variable (P : Placement ι G)

/-- Where a term stands. -/
def place (a : ι × G) : ι × G :=
 (P.root a.1, a.2 + P.offset a.1)

theorem place_shift (i : ι) (g k : G) : P.place (i, g + k) = ((P.place (i, g)).1, (P.place (i, g)).2 + k) := by
 simp only [place, Prod.mk.injEq, true_and]
 abel

variable {P}

theorem place_eq_iff {a b : ι × G} :
  P.place a = P.place b ↔ P.root a.1 = P.root b.1 ∧ a.2 + P.offset a.1 = b.2 + P.offset b.1 := by
 simp [place]

variable [DecidableEq ι]

/-- Move every unknown under the root `gone` under the root `kept`, so that the two terms stand alike. -/
def merge (P : Placement ι G) (kept gone : ι × G) (hkept : P.root kept.1 = kept.1) (hne : kept.1 ≠ gone.1) :
  Placement ι G where
 root i := if P.root i = gone.1 then kept.1 else P.root i
 offset i := if P.root i = gone.1 then P.offset i + (kept.2 - gone.2) else P.offset i
 root_root := by
  intro i
  by_cases hgone : P.root i = gone.1
  · rw [if_pos hgone, hkept, if_neg hne]
  · rw [if_neg hgone, P.root_root, if_neg hgone]
 offset_root := by
  intro i
  by_cases hgone : P.root i = gone.1
  · rw [if_pos hgone, hkept, if_neg hne, ← hkept, P.offset_root]
  · rw [if_neg hgone, P.root_root, if_neg hgone, P.offset_root]

end Placement

/-! ## Exact placements -/

/-- The equations are true where the unknowns stand, and imply that they stand there. -/
structure Exact (P : Placement ι G) (E : List (Equation ι G)) : Prop where
 holds : ∀ e ∈ E, P.place e.1 = P.place e.2
 implied : ∀ i, Entails E (i, 0) (P.root i, P.offset i)

namespace Exact

theorem nil : Exact (Placement.apart : Placement ι G) [] :=
 ⟨nofun, fun _ => Entails.refl _⟩

variable {P : Placement ι G} {E : List (Equation ι G)} (h : Exact P E)
include h

theorem entails_place (a : ι × G) : Entails E a (P.place a) := by
 have hshift := (h.implied a.1).shift a.2
 rw [zero_add, add_comm] at hshift
 exact hshift

/-- Terms stand alike exactly when they are implied equal. -/
theorem place_eq_iff {a b : ι × G} : P.place a = P.place b ↔ Entails E a b := by
 constructor
 · intro heq
   have ha := h.entails_place a
   rw [heq] at ha
   exact ha.trans (h.entails_place b).symm
 · intro hentails
   induction hentails with
   | given hin => exact h.holds _ hin
   | refl a => rfl
   | symm _ ih => exact ih.symm
   | trans _ _ ih ih' => exact ih.trans ih'
   | shift _ k ih => rw [P.place_shift, P.place_shift, ih]

theorem cons {e : Equation ι G} (he : P.place e.1 = P.place e.2) : Exact P (e :: E) where
 holds := by
  intro e' hin
  rcases mem_cons.1 hin with rfl | hin
  · exact he
  · exact h.holds e' hin
 implied := fun i => (h.implied i).mono fun _ hin => .tail _ hin

section Merge

variable [DecidableEq ι] {e : Equation ι G} {kept gone : ι × G} (hkept : P.root kept.1 = kept.1) (hne : kept.1 ≠ gone.1)

omit h in
/-- A merge moves what stood at the root it drops, and nothing else. -/
theorem place_merge (a : ι × G) : (P.merge kept gone hkept hne).place a =
  if (P.place a).1 = gone.1 then (kept.1, (P.place a).2 + (kept.2 - gone.2)) else P.place a := by
 by_cases hroot : P.root a.1 = gone.1
 · have hplace : (P.place a).1 = gone.1 := hroot
   rw [if_pos hplace]
   simp [Placement.place, Placement.merge, if_pos hroot, add_assoc]
 · have hplace : (P.place a).1 ≠ gone.1 := hroot
   rw [if_neg hplace]
   simp [Placement.place, Placement.merge, if_neg hroot]

/-- A merge that makes one more equation true is exact for the equations with it. -/
theorem merge (he : P.place e.1 = kept ∧ P.place e.2 = gone ∨ P.place e.1 = gone ∧ P.place e.2 = kept) :
  Exact (P.merge kept gone hkept hne) (e :: E) where
 holds := by
  have hgone : (gone.2 + (kept.2 - gone.2) : G) = kept.2 := by abel
  intro e' hin
  rw [place_merge hkept hne, place_merge hkept hne]
  rcases mem_cons.1 hin with rfl | hin
  · rcases he with ⟨hfst, hsnd⟩ | ⟨hfst, hsnd⟩
    · rw [hfst, hsnd, if_neg hne, if_pos rfl, hgone]
    · rw [hfst, hsnd, if_neg hne, if_pos rfl, hgone]
  · rw [h.holds e' hin]
 implied := by
  intro i
  have hold : Entails (e :: E) (i, 0) (P.root i, P.offset i) :=
   (h.implied i).mono fun _ hin => .tail _ hin
  by_cases hroot : P.root i = gone.1
  · -- the new equation leads on from the root that is dropped
    have hboth : Entails (e :: E) gone kept := by
     have hgiven : Entails (e :: E) e.1 e.2 := Entails.given (.head _)
     have hplace : ∀ a, Entails (e :: E) a (P.place a) := fun a =>
      (h.entails_place a).mono fun _ hin => .tail _ hin
     rcases he with ⟨rfl, rfl⟩ | ⟨rfl, rfl⟩
     · exact ((hplace _).symm.trans (hgiven.symm)).trans (hplace _)
     · exact ((hplace _).symm.trans hgiven).trans (hplace _)
    have hmoved := hboth.shift (P.offset i - gone.2)
    have hgone : (gone.1, gone.2 + (P.offset i - gone.2)) = (P.root i, P.offset i) := by
     rw [hroot, add_sub_cancel]
    have hkept : kept.2 + (P.offset i - gone.2) = P.offset i + (kept.2 - gone.2) := by abel
    rw [hgone, hkept] at hmoved
    simp only [Placement.merge, if_pos hroot]
    exact hold.trans hmoved
  · simp only [Placement.merge, if_neg hroot]
    exact hold

end Merge

/-! ## Implication and solutions -/

/-- The offsets are a solution, whatever the roots are worth. -/
theorem solves (base : ι → G) : Solves (fun i => base (P.root i) + P.offset i) E := by
 intro e hin
 obtain ⟨hroot, hoff⟩ := Placement.place_eq_iff.1 (h.holds e hin)
 simp only [value]
 rw [hroot, add_assoc, add_assoc, add_comm (P.offset e.1.1), add_comm (P.offset e.2.1), hoff]

/-- No unknown is implied to be at an offset from itself. -/
theorem eq_of_entails {i : ι} {g g' : G} (hentails : Entails E (i, g) (i, g')) : g = g' := by
 have heq := hentails.sound (h.solves fun _ => 0)
 exact add_left_cancel heq

/-- Implication is truth in every solution. -/
theorem entails_iff_solutions [DecidableEq ι] [Nontrivial G] {a b : ι × G} :
  Entails E a b ↔ ∀ sol : ι → G, Solves sol E → value sol a = value sol b := by
 refine ⟨fun hentails sol hsol => hentails.sound hsol, fun hall => ?_⟩
 obtain ⟨g, hg⟩ := exists_ne (0 : G)
 have hflat := hall _ (h.solves fun _ => 0)
 simp only [value, zero_add] at hflat
 -- a solution that lifts one root alone tells the roots apart
 have hlift := hall _ (h.solves fun i => if i = P.root a.1 then g else 0)
 simp only [value, if_true] at hlift
 rw [← h.place_eq_iff, Placement.place_eq_iff]
 constructor
 · by_contra hne
   rw [if_neg (Ne.symm hne), zero_add, add_assoc, hflat] at hlift
   exact hg (add_eq_right.1 hlift)
 · rw [add_comm a.2, add_comm b.2]
   exact hflat

/-- A further equation has no solution beside the others exactly when it sets two offsets of one
root equal. -/
theorem unsolvable_iff [DecidableEq ι] {e : Equation ι G} : (¬ ∃ sol : ι → G, Solves sol (e :: E)) ↔
  (P.place e.1).1 = (P.place e.2).1 ∧ P.place e.1 ≠ P.place e.2 := by
 constructor
 · intro hnone
   by_contra hnot
   apply hnone
   by_cases hplace : P.place e.1 = P.place e.2
   · exact ⟨_, (h.cons hplace).solves fun _ => 0⟩
   · have hroots : (P.place e.1).1 ≠ (P.place e.2).1 := fun heq => hnot ⟨heq, hplace⟩
     have hroot : P.root (P.place e.1).1 = (P.place e.1).1 := P.root_root _
     exact ⟨_, (h.merge hroot hroots (Or.inl ⟨rfl, rfl⟩)).solves fun _ => 0⟩
 · rintro ⟨hroot, hne⟩ ⟨sol, hsol⟩
   have hold : ∀ a b, Entails E a b → value sol a = value sol b := fun a b hentails =>
    hentails.sound fun e' hin => hsol e' (.tail _ hin)
   have hboth : value sol (P.place e.1) = value sol (P.place e.2) := by
    rw [← hold _ _ (h.entails_place e.1), ← hold _ _ (h.entails_place e.2)]
    exact hsol e (.head _)
   simp only [value, hroot] at hboth
   exact hne (Prod.ext hroot (add_left_cancel hboth))

end Exact

end Tir.OffsetEquations
