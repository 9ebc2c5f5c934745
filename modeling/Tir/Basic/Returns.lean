import Mathlib.Data.List.Forall2
import Mathlib.Data.Nat.Basic

/-!
# Loops with fuel that return

A loop of a program is a function of its fuel that gives `none` when the fuel is spent.
`Returns f x` says that the loop ends: from some fuel on, `f` gives `x`, always the same one.
The rules follow the shapes such functions are written in: a turn of the loop (`Returns.turn`),
a sequence (`Returns.bind`), and a pass over a list (`Returns.foldlM`).
-/

open List Option

namespace Tir

universe u v

variable {α : Type u} {β : Type v}

/-- With enough fuel, `f` gives `x`. -/
def Returns (f : Nat → Option α) (x : α) : Prop :=
 ∃ k, ∀ fuel, k ≤ fuel → f fuel = some x

namespace Returns

theorem pure (x : α) : Returns (fun _ => some x) x :=
 ⟨0, fun _ _ => rfl⟩

theorem unique {f : Nat → Option α} {x y : α} (hx : Returns f x) (hy : Returns f y) : x = y := by
 obtain ⟨k, hk⟩ := hx
 obtain ⟨m, hm⟩ := hy
 have h1 := hk (max k m) (le_max_left k m)
 have h2 := hm (max k m) (le_max_right k m)
 exact some.inj (h1.symm.trans h2)

/-- One turn of a loop: with one unit of fuel more, `f` does what `g` does. -/
theorem turn {f g : Nat → Option α} {x : α} (h : ∀ fuel, f (fuel + 1) = g fuel)
  (hg : Returns g x) : Returns f x := by
 obtain ⟨k, hk⟩ := hg
 refine ⟨k + 1, fun fuel hf => ?_⟩
 obtain ⟨m, rfl⟩ : ∃ m, fuel = m + 1 := ⟨fuel - 1, by omega⟩
 rw [h m]
 exact hk m (by omega)

theorem congr {f g : Nat → Option α} {x : α} (h : ∀ fuel, f fuel = g fuel) (hg : Returns g x) :
  Returns f x := by
 have hfg : f = g := funext h
 rwa [hfg]

theorem bind {f : Nat → Option α} {g : Nat → α → Option β} {x : α} {y : β}
  (hf : Returns f x) (hg : Returns (fun fuel => g fuel x) y) :
  Returns (fun fuel => (f fuel).bind (g fuel)) y := by
 obtain ⟨k, hk⟩ := hf
 obtain ⟨m, hm⟩ := hg
 refine ⟨max k m, fun fuel hfuel => ?_⟩
 have hx : f fuel = some x := hk fuel (le_trans (le_max_left k m) hfuel)
 have hy : g fuel x = some y := hm fuel (le_trans (le_max_right k m) hfuel)
 show (f fuel).bind (g fuel) = some y
 rw [hx, bind_some, hy]

/-- A pass over a list keeps an invariant of the elements passed and the state. -/
theorem foldlM (step : Nat → β → α → Option β) (I : List α → β → Prop) {l : List α}
  (hstep : ∀ pre x rest s, l = pre ++ x :: rest → I pre s →
   ∃ s', Returns (fun fuel => step fuel s x) s' ∧ I (pre ++ [x]) s') {s : β} (h : I [] s) :
  ∃ s', Returns (fun fuel => l.foldlM (step fuel) s) s' ∧ I l s' := by
 -- the invariant is carried over the elements still to come
 suffices H : ∀ rest pre s, l = pre ++ rest → I pre s →
   ∃ s', Returns (fun fuel => rest.foldlM (step fuel) s) s' ∧ I l s' from H l [] s rfl h
 intro rest
 induction rest with
 | nil =>
  intro pre s hl hI
  rw [append_nil] at hl
  subst hl
  exact ⟨s, Returns.pure s, hI⟩
 | cons x rest ih =>
  intro pre s hl hI
  obtain ⟨s1, h1, hI1⟩ := hstep pre x rest s hl hI
  obtain ⟨s2, h2, hI2⟩ := ih (pre ++ [x]) s1 (by simpa using hl) hI1
  exact ⟨s2, h1.bind h2, hI2⟩

/-- A filter whose test returns keeps the elements that pass it. -/
theorem filterM {γ : Type} (test : Nat → γ → Option Bool) {P : γ → Prop} {l : List γ}
  (htest : ∀ x ∈ l, ∃ v, Returns (fun fuel => test fuel x) v ∧ (v = true ↔ P x)) :
  ∃ l', Returns (fun fuel => l.filterM (test fuel)) l' ∧ ∀ x, x ∈ l' ↔ x ∈ l ∧ P x := by
 -- the elements kept so far are collected in reverse
 suffices H : ∀ acc, ∃ l', Returns (fun fuel => l.filterAuxM (test fuel) acc) l' ∧
   ∀ x, x ∈ l' ↔ (x ∈ l ∧ P x) ∨ x ∈ acc by
  obtain ⟨l', hl', hmem⟩ := H []
  refine ⟨l'.reverse, hl'.bind (Returns.pure _), fun x => ?_⟩
  rw [mem_reverse, hmem]
  simp
 induction l with
 | nil =>
  intro acc
  exact ⟨acc, Returns.pure acc, by simp⟩
 | cons y l ih =>
  intro acc
  obtain ⟨v, hv, hP⟩ := htest y (.head _)
  obtain ⟨l', hl', hmem⟩ := ih (fun x hx => htest x (mem_cons_of_mem y hx))
   (cond v (y :: acc) acc)
  refine ⟨l', hv.bind hl', fun x => ?_⟩
  rw [hmem x, mem_cons]
  cases v with
  | true =>
   have hy : P y := hP.1 rfl
   rw [Bool.cond_true, mem_cons]
   constructor
   · rintro (h | rfl | h)
     · exact .inl ⟨.inr h.1, h.2⟩
     · exact .inl ⟨.inl rfl, hy⟩
     · exact .inr h
   · rintro (⟨rfl | hx, hp⟩ | h)
     · exact .inr (.inl rfl)
     · exact .inl ⟨hx, hp⟩
     · exact .inr (.inr h)
  | false =>
   have hy : ¬ P y := fun h => nomatch hP.2 h
   rw [Bool.cond_false]
   constructor
   · rintro (h | h)
     · exact .inl ⟨.inr h.1, h.2⟩
     · exact .inr h
   · rintro (⟨rfl | hx, hp⟩ | h)
     · exact absurd hp hy
     · exact .inl ⟨hx, hp⟩
     · exact .inr h

theorem mapM {γ δ : Type} (step : Nat → γ → Option δ) {P : γ → δ → Prop} {l : List γ}
  (hstep : ∀ x ∈ l, ∃ y, Returns (fun fuel => step fuel x) y ∧ P x y) :
  ∃ ys, Returns (fun fuel => l.mapM (step fuel)) ys ∧ Forall₂ P l ys := by
 induction l with
 | nil => exact ⟨[], Returns.pure [], Forall₂.nil⟩
 | cons x l ih =>
  obtain ⟨y, hy, hP⟩ := hstep x (.head _)
  obtain ⟨ys, hys, hall⟩ := ih fun z hz => hstep z (mem_cons_of_mem x hz)
  refine ⟨y :: ys, ?_, Forall₂.cons hP hall⟩
  refine Returns.congr (fun fuel => mapM_cons) ?_
  exact hy.bind (hys.bind (Returns.pure (y :: ys)))

end Returns

end Tir
