import Mathlib.Data.List.Basic

/-!
# Passes over a list

A pass folds a step over a list. What a step preserves of the elements passed and the state, the pass
preserves (`foldl_pass`), and where every step gives a state so does the pass (`foldlM_pass`).
-/

open List

namespace Tir

universe u v

variable {α : Type u} {β : Type v}

/-- A pass keeps an invariant of the elements passed and the state. -/
theorem foldl_pass (step : β → α → β) (I : List α → β → Prop) {l : List α}
  (hstep : ∀ pre x rest s, l = pre ++ x :: rest → I pre s → I (pre ++ [x]) (step s x))
  {s : β} (h : I [] s) : I l (l.foldl step s) := by
 -- the invariant is carried over the elements still to come
 suffices H : ∀ rest pre s, l = pre ++ rest → I pre s → I l (rest.foldl step s) from H l [] s rfl h
 intro rest
 induction rest with
 | nil =>
  intro pre s hl hI
  rw [append_nil] at hl
  subst hl
  exact hI
 | cons x rest ih =>
  intro pre s hl hI
  exact ih (pre ++ [x]) (step s x) (by simpa using hl) (hstep pre x rest s hl hI)

/-- A pass whose every step gives a state that keeps the invariant gives one. -/
theorem foldlM_pass (step : β → α → Option β) (I : List α → β → Prop) {l : List α}
  (hstep : ∀ pre x rest s, l = pre ++ x :: rest → I pre s → ∃ s', step s x = some s' ∧ I (pre ++ [x]) s')
  {s : β} (h : I [] s) : ∃ s', l.foldlM step s = some s' ∧ I l s' := by
 suffices H : ∀ rest pre s, l = pre ++ rest → I pre s → ∃ s', rest.foldlM step s = some s' ∧ I l s' from
  H l [] s rfl h
 intro rest
 induction rest with
 | nil =>
  intro pre s hl hI
  rw [append_nil] at hl
  subst hl
  exact ⟨s, rfl, hI⟩
 | cons x rest ih =>
  intro pre s hl hI
  obtain ⟨s1, h1, hI1⟩ := hstep pre x rest s hl hI
  obtain ⟨s2, h2, hI2⟩ := ih (pre ++ [x]) s1 (by simpa using hl) hI1
  refine ⟨s2, ?_, hI2⟩
  rw [foldlM_cons, h1]
  exact h2

end Tir
