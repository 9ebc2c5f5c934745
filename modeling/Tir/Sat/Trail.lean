import Tir.Sat.Solver

/-!
# The trail and the clauses

The invariant of the solver that does not mention watch lists (`Core`): the clauses follow from
those that were added, the trail lists the assigned literals level by level, every literal of
level 0 follows from the added clauses, and every other literal is a decision or is forced by the
clause its reason names. Pushing a literal, reordering a clause and opening a level keep it.
-/

open List Function Option

namespace Tir.Sat

open Solver

namespace Solver

variable {A : Type} {F : List Clause} {s : Solver A}

/-- The decision level of a position on the trail. -/
def levelAt (s : Solver A) (i : Nat) : Nat := s.trailLim.countP fun t => decide (t ≤ i)

/-- What the search keeps of an added clause: it is a tautology, or a literal of it is settled, or
some of its literals are a clause of the solver. -/
def Covered (s : Solver A) (c : Clause) : Prop :=
 (∃ l ∈ c, l.negate ∈ c) ∨ (∃ l ∈ c, l ∈ s.trail ∧ s.level l.var = 0) ∨
  ∃ d ∈ s.clauses, ∀ l ∈ d, l ∈ c

/-- The invariant of clauses, trail, levels, reasons and queue; `F` are the added clauses. -/
structure Core (F : List Clause) (s : Solver A) : Prop where
 clause_lt : ∀ c ∈ s.clauses, ∀ l ∈ c, l.var < s.numVars
 clause_two : ∀ c ∈ s.clauses, 2 ≤ c.length
 clause_nodup : ∀ c ∈ s.clauses, c.Nodup
 clause_entailed : ∀ c ∈ s.clauses, Entails F c
 trail_lt : ∀ l ∈ s.trail, l.var < s.numVars
 trail_nodup : s.trail.Nodup
 assigned : ∀ l, s.assign l.var = some (!l.negated) ↔ l ∈ s.trail
 lim_sorted : s.trailLim.Pairwise (· ≤ ·)
 lim_le : ∀ t ∈ s.trailLim, t ≤ s.trail.length
 level_eq : ∀ i l, s.trail[i]? = some l → s.level l.var = s.levelAt i
 settled : ∀ l ∈ s.trail, s.level l.var = 0 → Entails F [l]
 reason_some : ∀ i l c, s.trail[i]? = some l → s.reason l.var = some c →
  ∃ rest, s.clauses[c]? = some (l :: rest) ∧ ∀ q ∈ rest, q.negate ∈ s.trail.take i
 reason_none : ∀ i l, s.trail[i]? = some l → s.reason l.var = none →
  i ∈ s.trailLim ∨ s.level l.var = 0
 slots : s.vsids.Slots
 queued : ∀ v, v < s.numVars → s.assign v = none → v ∈ s.vsids.order
 queued_lt : ∀ v ∈ s.vsids.order, v < s.numVars
 unseen : ∀ v, s.seen v = false
 covered : ∀ c ∈ F, s.Covered c

/-! ## Truth values -/

namespace Core

variable (h : Core F s)
include h

theorem value_true (l : Lit) : s.valueLit l = some true ↔ l ∈ s.trail := by
 rw [← h.assigned, valueLit]
 cases s.assign l.var with
 | none => simp
 | some b => cases b <;> cases l.negated <;> simp

theorem value_false (l : Lit) : s.valueLit l = some false ↔ l.negate ∈ s.trail := by
 rw [← h.assigned, valueLit, Lit.negate_var]
 cases s.assign l.var with
 | none => simp
 | some b => cases b <;> cases hn : l.negated <;> simp [Lit.negate, hn]

theorem value_none (l : Lit) : s.valueLit l = none ↔ l ∉ s.trail ∧ l.negate ∉ s.trail := by
 rw [← h.value_true, ← h.value_false]
 cases s.valueLit l with
 | none => simp
 | some b => cases b <;> simp

theorem assign_none (v : Nat) : s.assign v = none ↔ ∀ l ∈ s.trail, l.var ≠ v := by
 constructor
 · intro hv l hl hlv
   have hsome := (h.assigned l).2 hl
   grind
 · intro hv
   cases hasgn : s.assign v with
   | none => rfl
   | some b =>
    have hmem := (h.assigned ⟨v, !b⟩).1 (by simpa using hasgn)
    exact absurd rfl (hv _ hmem)

/-- The trail does not hold a literal and its negation. -/
theorem not_both {l : Lit} (hl : l ∈ s.trail) : l.negate ∉ s.trail := by
 intro hneg
 have h1 := (h.value_true l).2 hl
 rw [(h.value_false l).2 hneg] at h1
 cases h1

/-- A variable is on the trail once. -/
theorem eq_of_var {l k : Lit} (hl : l ∈ s.trail) (hk : k ∈ s.trail) (hvar : l.var = k.var) :
  l = k := by
 rcases Lit.eq_or_eq_negate hvar with heq | heq
 · exact heq
 · rw [heq] at hl
   exact absurd hl (h.not_both hk)

theorem trail_length_le : s.trail.length ≤ s.numVars := by
 have hnd : (s.trail.map Lit.var).Nodup := by
  refine (nodup_map_iff_inj_on h.trail_nodup).2 ?_
  exact fun l hl k hk hvar => h.eq_of_var hl hk hvar
 have hsub : (s.trail.map Lit.var) ⊆ List.range s.numVars := by
  intro v hv
  obtain ⟨l, hl, rfl⟩ := mem_map.1 hv
  exact mem_range.2 (h.trail_lt l hl)
 have hle := (subperm_of_subset hnd hsub).length_le
 simpa using hle

end Core

/-! ## Levels -/

theorem levelAt_mono (s : Solver A) {i j : Nat} (hij : i ≤ j) : s.levelAt i ≤ s.levelAt j := by
 apply countP_mono_left
 grind

theorem levelAt_le (s : Solver A) (i : Nat) : s.levelAt i ≤ s.decisionLevel := countP_le_length

/-- Past the beginning of the last level, every position has that level. -/
theorem levelAt_eq (s : Solver A) {i : Nat} (h : ∀ t ∈ s.trailLim, t ≤ i) :
  s.levelAt i = s.decisionLevel := by
 unfold levelAt decisionLevel
 simp_all

/-- The positions up to level `d` are those before level `d + 1` began. -/
theorem Core.levelAt_le_iff (h : Core F s) {d t : Nat} (hd : s.trailLim[d]? = some t) (i : Nat) :
  s.levelAt i ≤ d ↔ i < t := by
 obtain ⟨hlt, rfl⟩ := List.getElem?_eq_some_iff.1 hd
 have hsplit : s.trailLim = s.trailLim.take d ++ s.trailLim[d] :: s.trailLim.drop (d + 1) := by
  rw [getElem_cons_drop, take_append_drop]
 have hsorted := h.lim_sorted
 rw [hsplit, pairwise_append, pairwise_cons] at hsorted
 obtain ⟨-, ⟨hafter, -⟩, hbef⟩ := hsorted
 generalize s.trailLim[d] = t at *
 rw [levelAt, hsplit, countP_append, countP_cons]
 have hlen : (s.trailLim.take d).length = d := by
  rw [length_take]
  omega
 constructor
 · intro hle
   by_contra hge
   have hall : (s.trailLim.take d).countP (fun t => decide (t ≤ i)) = d := by
    conv_rhs => rw [← hlen]
    rw [countP_eq_length]
    intro u hu
    have := hbef u hu t (.head _)
    grind
   grind
 · intro hlt
   have hnone : (s.trailLim.drop (d + 1)).countP (fun t => decide (t ≤ i)) = 0 := by
    rw [countP_eq_zero]
    grind
   grind

/-! ## Pushing a literal -/

theorem push_trail (s : Solver A) (l : Lit) (reason : Option Nat) : (s.push l reason).trail = s.trail ++ [l] := rfl

theorem push_level {l k : Lit} (reason : Option Nat) (hk : k.var ≠ l.var) :
  (s.push l reason).level k.var = s.level k.var := by
 simp [push, hk]

/-- A literal that may be pushed: it is unassigned, forced by its reason or a decision, and
entailed if it is settled. -/
structure Pushable (F : List Clause) (s : Solver A) (l : Lit) (reason : Option Nat) : Prop where
 var_lt : l.var < s.numVars
 fresh : ∀ k ∈ s.trail, k.var ≠ l.var
 forced : ∀ c, reason = some c →
  ∃ rest, s.clauses[c]? = some (l :: rest) ∧ ∀ q ∈ rest, q.negate ∈ s.trail
 decided : reason = none → s.trail.length ∈ s.trailLim ∨ s.decisionLevel = 0
 entailed : s.decisionLevel = 0 → Entails F [l]

/-- The literals on the trail after a push: the old ones, and the new one at the end. -/
theorem getElem?_push {l k : Lit} {i : Nat} (h : (s.trail ++ [l])[i]? = some k) :
  (i < s.trail.length ∧ s.trail[i]? = some k) ∨ (i = s.trail.length ∧ k = l) := by
 rcases lt_trichotomy i s.trail.length with hlt | heq | hgt
 · grind
 · grind
 grind

/-- Pushing a literal, for clauses `F'` that entail as much as `F`. -/
theorem Core.pushTo {F' : List Clause} (h : Core F s) (hF : ∀ c, Entails F c → Entails F' c)
  {l : Lit} {reason : Option Nat} (hl : Pushable F' s l reason)
  (hcovered : ∀ c ∈ F', (s.push l reason).Covered c) : Core F' (s.push l reason) := by
 have hold : ∀ k ∈ s.trail, (s.push l reason).level k.var = s.level k.var :=
  fun k hk => push_level reason (hl.fresh k hk)
 have hnew : (s.push l reason).level l.var = s.decisionLevel := by simp [push]
 have hlast : s.levelAt s.trail.length = s.decisionLevel := s.levelAt_eq h.lim_le
 refine
  { h with
    clause_entailed := fun c hc => hF c (h.clause_entailed c hc)
    covered := hcovered
    trail_lt := ?_, trail_nodup := ?_, assigned := ?_, lim_le := ?_, level_eq := ?_
    settled := ?_, reason_some := ?_, reason_none := ?_, queued := ?_ }
 · intro k hk
   rcases mem_append.1 hk with hk | hk
   · exact h.trail_lt k hk
   · rw [mem_singleton.1 hk]
     exact hl.var_lt
 · refine nodup_append.2 ⟨h.trail_nodup, nodup_singleton l, ?_⟩
   rintro k hk k' hk' rfl
   exact hl.fresh k hk (by rw [mem_singleton.1 hk'])
 · intro k
   rw [push_trail, mem_append, mem_singleton]
   by_cases hvar : k.var = l.var
   · have hasgn : (s.push l reason).assign k.var = some (!l.negated) := by
      rw [hvar]
      simp [push]
     rw [hasgn]
     constructor
     · intro hsign
       right
       obtain ⟨v, b⟩ := k
       obtain ⟨w, c⟩ := l
       simp_all
     · rintro (hk | rfl)
       · exact absurd hvar (hl.fresh k hk)
       · rfl
   · have hasgn : (s.push l reason).assign k.var = s.assign k.var := by
      simp [push, hvar]
     have hne : k ≠ l := fun heq => hvar (congrArg Lit.var heq)
     rw [hasgn, h.assigned]
     simp [hne]
 · intro t ht
   have := h.lim_le t ht
   rw [push_trail, length_append]
   omega
 · intro i k hk
   rcases getElem?_push hk with ⟨-, hk⟩ | ⟨rfl, rfl⟩
   · rw [hold k (mem_of_getElem? hk)]
     exact h.level_eq i k hk
   · rw [hnew]
     exact hlast.symm
 · intro k hk hlevel
   rcases mem_append.1 hk with hk | hk
   · rw [hold k hk] at hlevel
     exact hF _ (h.settled k hk hlevel)
   · rw [mem_singleton.1 hk] at hlevel ⊢
     rw [hnew] at hlevel
     exact hl.entailed hlevel
 · intro i k c hk hreason
   rw [push_trail]
   rcases getElem?_push hk with ⟨hi, hk⟩ | ⟨rfl, rfl⟩
   · have hne := hl.fresh k (mem_of_getElem? hk)
     simp only [push, update_of_ne hne] at hreason
     rw [take_append_of_le_length hi.le]
     exact h.reason_some i k c hk hreason
   · simp only [push, update_self] at hreason
     rw [take_left]
     exact hl.forced c hreason
 · intro i k hk hreason
   rcases getElem?_push hk with ⟨hi, hk⟩ | ⟨rfl, rfl⟩
   · have hne := hl.fresh k (mem_of_getElem? hk)
     rw [hold k (mem_of_getElem? hk)]
     simp only [push, update_of_ne hne] at hreason
     exact h.reason_none i k hk hreason
   · simp only [push, update_self] at hreason
     rw [hnew]
     exact hl.decided hreason
 · intro v hv hasgn
   apply h.queued v hv
   by_cases hvar : v = l.var
   · simp [push, hvar] at hasgn
   · simpa [push, hvar] using hasgn

theorem Covered.push {c : Clause} (h : s.Covered c) {l : Lit}
  (hfresh : ∀ k ∈ s.trail, k.var ≠ l.var) (reason : Option Nat) :
  (s.push l reason).Covered c := by
 rcases h with htaut | ⟨k, hk, htrail, hlevel⟩ | hclause
 · exact .inl htaut
 · refine .inr (.inl ⟨k, hk, mem_append_left _ htrail, ?_⟩)
   grind [push_level]
 · exact .inr (.inr hclause)

theorem Core.push (h : Core F s) {l : Lit} {reason : Option Nat} (hl : Pushable F s l reason) :
  Core F (s.push l reason) :=
 h.pushTo (fun _ hc => hc) hl fun c hc => (h.covered c hc).push hl.fresh reason

theorem Core.enqueue (h : Core F s) {l : Lit} (hfresh : ∀ k ∈ s.trail, k.var ≠ l.var)
  (reason : Option Nat) : s.enqueue l reason = (s.push l reason, true) := by
 have hnone : s.valueLit l = none := (h.value_none l).2
  ⟨fun hl => hfresh l hl rfl, fun hl => hfresh _ hl rfl⟩
 simp [Solver.enqueue, hnone]

/-! ## Opening a level -/

/-- The solver at the beginning of a new level. -/
def openLevel (s : Solver A) : Solver A :=
 { s with trailLim := s.trailLim ++ [s.trail.length] }

theorem openLevel_levelAt {i : Nat} (hi : i < s.trail.length) :
  s.openLevel.levelAt i = s.levelAt i := by
 unfold levelAt openLevel
 grind

theorem Core.openLevel (h : Core F s) : Core F s.openLevel where
 clause_lt := h.clause_lt
 clause_two := h.clause_two
 clause_nodup := h.clause_nodup
 clause_entailed := h.clause_entailed
 trail_lt := h.trail_lt
 trail_nodup := h.trail_nodup
 assigned := h.assigned
 lim_sorted := by
  refine pairwise_append.2 ⟨h.lim_sorted, pairwise_singleton _ _, ?_⟩
  intro t ht u hu
  rw [mem_singleton.1 hu]
  exact h.lim_le t ht
 lim_le := by
  intro t ht
  rcases mem_append.1 ht with ht | ht
  · exact h.lim_le t ht
  · rw [mem_singleton.1 ht]
    exact le_rfl
 level_eq := by
  intro i l hl
  have hi : i < s.trail.length := (List.getElem?_eq_some_iff.1 hl).1
  exact (h.level_eq i l hl).trans (openLevel_levelAt hi).symm
 settled := h.settled
 reason_some := h.reason_some
 reason_none := fun i l hl hreason =>
  (h.reason_none i l hl hreason).imp_left fun hi => mem_append_left _ hi
 slots := h.slots
 queued := h.queued
 queued_lt := h.queued_lt
 unseen := h.unseen
 covered := h.covered

/-! ## Reordering a clause -/

/-- The solver with another order of the literals of a clause. -/
def setClause (s : Solver A) (cref : Nat) (c : Clause) : Solver A :=
 { s with clauses := s.clauses.set cref c }

theorem mem_setClause {cref : Nat} {c d : Clause} (h : d ∈ (s.setClause cref c).clauses) :
  d ∈ s.clauses ∨ d = c := mem_or_eq_of_mem_set h

theorem getElem?_setClause {cref : Nat} {old : Clause} (hold : s.clauses[cref]? = some old) (c : Clause) (i : Nat) :
  (s.setClause cref c).clauses[i]? = if i = cref then some c else s.clauses[i]? := by
 simp only [setClause, getElem?_set, eq_comm (b := i)]
 grind

/-- A clause may be reordered as long as it forces no literal, or goes on forcing the same. -/
theorem Core.setClause (h : Core F s) {cref : Nat} {old c : Clause}
  (hold : s.clauses[cref]? = some old) (hperm : c.Perm old) (hforced : ∀ l rest, old = l :: rest → l ∈ s.trail →
   ∃ rest', c = l :: rest' ∧ rest'.Perm rest) :
  Core F (s.setClause cref c) := by
 have hmem : old ∈ s.clauses := mem_of_getElem? hold
 have hall : ∀ P : Clause → Prop, (∀ d ∈ s.clauses, P d) → (P old → P c) →
   ∀ d ∈ (s.setClause cref c).clauses, P d := by
  intro P hP hc d hd
  rcases mem_setClause hd with hd | rfl
  · exact hP d hd
  · exact hc (hP old hmem)
 refine
  { h with
    clause_lt := ?_, clause_two := ?_, clause_nodup := ?_, clause_entailed := ?_
    reason_some := ?_, covered := ?_ }
 · exact hall _ h.clause_lt fun hP l hl => hP l (hperm.mem_iff.1 hl)
 · exact hall (fun d => 2 ≤ d.length) h.clause_two fun hP => by rwa [hperm.length_eq]
 · exact hall (fun d => d.Nodup) h.clause_nodup hperm.nodup_iff.2
 · exact hall _ h.clause_entailed fun hP => hP.of_subset fun l hl => hperm.mem_iff.2 hl
 · intro i l d hl hreason
   obtain ⟨rest, hd, hrest⟩ := h.reason_some i l d hl hreason
   rw [getElem?_setClause hold]
   by_cases hdc : d = cref
   · subst hdc
     rw [hold, some.injEq] at hd
     obtain ⟨rest', hc, hperm'⟩ := hforced l rest hd (mem_of_getElem? hl)
     refine ⟨rest', by rw [if_pos rfl, hc], fun q hq => hrest q (hperm'.mem_iff.1 hq)⟩
   · exact ⟨rest, by rw [if_neg hdc, hd], hrest⟩
 · intro e he
   rcases h.covered e he with htaut | hsettled | ⟨d, hd, hsub⟩
   · exact .inl htaut
   · exact .inr (.inl hsettled)
   · obtain ⟨i, hi⟩ := getElem?_of_mem hd
     by_cases hic : i = cref
     · subst hic
       rw [hold, some.injEq] at hi
       refine .inr (.inr ⟨c, ?_, fun l hl => hsub l (hi ▸ hperm.mem_iff.1 hl)⟩)
       exact mem_of_getElem? ((getElem?_setClause hold c i).trans (if_pos rfl))
     · refine .inr (.inr ⟨d, ?_, hsub⟩)
       exact mem_of_getElem? ((getElem?_setClause hold c i).trans ((if_neg hic).trans hi))

end Solver

end Tir.Sat
