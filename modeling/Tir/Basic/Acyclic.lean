import Mathlib.Data.Fintype.EquivFin

/-!
# Acyclic relations that grow

A relation grows by edges into new values. `Acyclic.of_numbered` is for edges to higher numbers than
any the old relation leaves from, `Acyclic.of_sinks` for edges to values that nothing leaves. Along an
acyclic relation on finitely many numbers one can argue from the ends back (`Acyclic.induction`).
-/

open Relation

namespace Tir

open TransGen

variable {α : Type} {R R' : α → α → Prop}

def Acyclic (R : α → α → Prop) : Prop :=
 ∀ v, ¬ TransGen R v v

/-- A path that can be continued uses no edge into a sink. -/
theorem transGen_of_sinks (h : ∀ v w, R' v w → R v w ∨ ∀ x, ¬ R' w x) {v w x : α}
  (hpath : TransGen R' v w) (hnext : R' w x) : TransGen R v w := by
 induction hpath generalizing x with
 | single hedge =>
  rcases h _ _ hedge with hold | hsink
  · exact single hold
  · exact absurd hnext (hsink x)
 | tail _ hedge ih =>
  rcases h _ _ hedge with hold | hsink
  · exact tail (ih hedge) hold
  · exact absurd hnext (hsink x)

theorem Acyclic.of_sinks (hacyclic : Acyclic R) (h : ∀ v w, R' v w → R v w ∨ ∀ x, ¬ R' w x) :
  Acyclic R' := by
 intro v hcycle
 obtain ⟨x, hedge, -⟩ := head'_iff.1 hcycle
 exact hacyclic v (transGen_of_sinks h hcycle hedge)

section

variable {R R' : Nat → Nat → Prop} {bound : Nat} {v w : Nat} (hold : ∀ v w, R v w → v < bound)
  (h : ∀ v w, R' v w → R v w ∨ bound ≤ w ∧ v < w) (hpath : TransGen R' v w)

include hold h hpath

/-- A path from a new number climbs: no old edge leaves it. -/
theorem lt_of_transGen_numbered
  (hv : bound ≤ v) : v < w := by
 induction hpath with
 | single hedge =>
  rcases h _ _ hedge with hr | hlt
  · exact absurd (hold _ _ hr) (not_lt.2 hv)
  · exact hlt.2
 | @tail w x _ hedge ih =>
  rcases h _ _ hedge with hr | hlt
  · have hw : w < bound := hold _ _ hr
    omega
  · exact ih.trans hlt.2

/-- A path to an old number uses old edges only. -/
theorem transGen_of_numbered
  (hw : w < bound) : TransGen R v w := by
 induction hpath with
 | single hedge =>
  rcases h _ _ hedge with hr | hlt
  · exact single hr
  · omega
 | @tail w x _ hedge ih =>
  rcases h _ _ hedge with hr | hlt
  · exact tail (ih (hold _ _ hr)) hr
  · omega

end

theorem Acyclic.of_numbered {R R' : Nat → Nat → Prop} (hacyclic : Acyclic R) (bound : Nat)
  (hold : ∀ v w, R v w → v < bound) (h : ∀ v w, R' v w → R v w ∨ bound ≤ w ∧ v < w) :
  Acyclic R' := by
 intro v hcycle
 rcases lt_or_ge v bound with hlt | hge
 · exact hacyclic v (transGen_of_numbered hold h hcycle hlt)
 · exact lt_irrefl v (lt_of_transGen_numbered hold h hcycle hge)

theorem Acyclic.induction {R : Nat → Nat → Prop} (hacyclic : Acyclic R) {bound : Nat}
  (hbound : ∀ v w, R v w → w < bound) {P : Nat → Prop}
  (step : ∀ v, (∀ w, R v w → P w) → P v) (v : Nat) : P v := by
 let back : Fin bound → Fin bound → Prop := fun w v => TransGen R v.val w.val
 have hirrefl : Std.Irrefl back := ⟨fun v => hacyclic v.val⟩
 have hwf : WellFounded back := Finite.wellFounded_of_trans_of_irrefl back
 have hfin : ∀ v : Fin bound, P v.val := by
  intro v
  induction v using hwf.induction with
  | _ v ih => exact step v.val fun w hw => ih ⟨w, hbound v.val w hw⟩ (single hw)
 exact step v fun w hw => hfin ⟨w, hbound v w hw⟩

end Tir
