import Tir.Sat.Trail

/-!
# Unit propagation

The invariant of the watch lists: a list holds the clauses that watch its literal, and a watched
literal that is false and was propagated is paired with a true one, assigned no later than it
(`Watched`). Visiting one clause keeps it (`visit_spec`), so propagation ends either with every
literal of the trail propagated, or with a clause all of whose literals are false and one of whose
literals belongs to the current level (`propagate_spec`).
-/

open List Option Function Nat

namespace Tir.Sat

namespace Solver

variable {A : Type} {F : List Clause} {s t u : Solver A}

/-! ## Watch lists -/

/-- Of the two literals a clause watches, one that is false, and is among the first `n` of the
trail, has a true one of no higher level beside it. -/
def Watched (s : Solver A) (n cref : Nat) : Prop :=
 ∀ a b rest, s.clauses[cref]? = some (a :: b :: rest) →
  (a.negate ∈ s.trail.take n → b ∈ s.trail ∧ s.level b.var ≤ s.level a.var) ∧
   (b.negate ∈ s.trail.take n → a ∈ s.trail ∧ s.level a.var ≤ s.level b.var)

def Watches (s : Solver A) (cref : Nat) (l : Lit) : Prop :=
 ∃ c, s.clauses[cref]? = some c ∧ l ∈ c.take 2

variable {cref n : Nat}

theorem watches_iff {a b : Lit} {rest : Clause} (hc : s.clauses[cref]? = some (a :: b :: rest)) (l : Lit) :
  s.Watches cref l ↔ l = a ∨ l = b := by
 simp [Watches, hc]

theorem Watched.mono {m : Nat} (hmn : m ≤ n) (h : s.Watched n cref) : s.Watched m cref := by
 intro a b rest hc
 have hsub : ∀ l, l ∈ s.trail.take m → l ∈ s.trail.take n := fun l hl =>
  (take_prefix_take_left hmn).subset hl
 exact ⟨fun ha => (h a b rest hc).1 (hsub _ ha), fun hb => (h a b rest hc).2 (hsub _ hb)⟩

/-- Pushing a literal leaves what was propagated as it is. -/
theorem Watched.push (h : s.Watched n cref) (hn : n ≤ s.trail.length) {l : Lit}
  (hfresh : ∀ k ∈ s.trail, k.var ≠ l.var) (reason : Option Nat) :
  (s.push l reason).Watched n cref := by
 intro a b rest hc
 rw [push_trail, take_append_of_le_length hn]
 have hkeep : ∀ {x y : Lit}, x.negate ∈ s.trail.take n →
   (y ∈ s.trail ∧ s.level y.var ≤ s.level x.var) →
   y ∈ s.trail ++ [l] ∧ (s.push l reason).level y.var ≤ (s.push l reason).level x.var := by
  grind [push_level, Lit.negate_var]
 exact ⟨fun ha => hkeep ha ((h a b rest hc).1 ha), fun hb => hkeep hb ((h a b rest hc).2 hb)⟩

/-- The invariant of the solver, with the first `n` literals of the trail propagated. -/
structure Inv (F : List Clause) (n : Nat) (s : Solver A) : Prop where
 core : Core F s
 bound : n ≤ s.trail.length
 lim_le : ∀ t ∈ s.trailLim, t ≤ n
 mem_watches : ∀ l cref, cref ∈ s.watches l ↔ s.Watches cref l
 watches_nodup : ∀ l, (s.watches l).Nodup
 watched : ∀ cref, s.Watched n cref

theorem Inv.push (h : Inv F n s) {l : Lit} {reason : Option Nat}
  (hl : Pushable F s l reason) : Inv F n (s.push l reason) where
 core := h.core.push hl
 bound := by
  have := h.bound
  rw [push_trail, length_append]
  omega
 lim_le := h.lim_le
 mem_watches := h.mem_watches
 watches_nodup := h.watches_nodup
 watched := fun cref => (h.watched cref).push h.bound hl.fresh reason

/-- What propagation may change: it reorders the literals of clauses and extends the trail. -/
structure Extends (s t : Solver A) : Prop where
 numVars : t.numVars = s.numVars
 trailLim : t.trailLim = s.trailLim
 sets : clauseSets t.clauses = clauseSets s.clauses
 trail : s.trail <+: t.trail

theorem Extends.refl (s : Solver A) : Extends s s := ⟨rfl, rfl, rfl, prefix_rfl⟩

theorem Extends.trans (h : Extends s t) (h' : Extends t u) : Extends s u :=
 ⟨h'.numVars.trans h.numVars, h'.trailLim.trans h.trailLim, h'.sets.trans h.sets,
  h.trail.trans h'.trail⟩

/-! ## Visiting a clause -/

/-- The state of the inner loop of propagation: the literal at position `q` of the trail is being
propagated, the clauses `ws` of its negation's list are still to be visited, and `kept` are those
that keep the watch. -/
structure Visiting (F : List Clause) (q : Nat) (falseLit : Lit) (ws kept : List Nat) (s : Solver A) : Prop where
 core : Core F s
 qhead : s.qhead = q + 1
 lit : s.trail[q]? = some falseLit.negate
 lim_le : ∀ t ∈ s.trailLim, t ≤ q
 mem_watches : ∀ l, l ≠ falseLit → ∀ cref, cref ∈ s.watches l ↔ s.Watches cref l
 mem_own : ∀ cref, cref ∈ kept ++ ws ↔ s.Watches cref falseLit
 watches_nodup : ∀ l, l ≠ falseLit → (s.watches l).Nodup
 own_nodup : (kept ++ ws).Nodup
 watched : ∀ cref, s.Watched (if cref ∈ ws then q else q + 1) cref

namespace Visiting

variable {q cref : Nat} {falseLit : Lit} {ws kept : List Nat}

theorem lit_mem (h : Visiting F q falseLit ws kept s) : falseLit.negate ∈ s.trail :=
 mem_of_getElem? h.lit

/-- The literal belongs to the current level. -/
theorem level_eq (h : Visiting F q falseLit ws kept s) :
  s.level falseLit.var = s.decisionLevel := by
 have hlevel := h.core.level_eq q _ h.lit
 rw [Lit.negate_var] at hlevel
 rw [hlevel]
 exact s.levelAt_eq h.lim_le

variable {l : Lit} {rest : Clause}

section

variable (h : Visiting F q falseLit ws kept s)

include h

theorem level_le (hl : l ∈ s.trail) :
  s.level l.var ≤ s.level falseLit.var := by
 obtain ⟨i, hi⟩ := getElem?_of_mem hl
 rw [h.level_eq, h.core.level_eq i l hi]
 exact s.levelAt_le i

theorem lt_length : q < s.trail.length :=
 (List.getElem?_eq_some_iff.1 h.lit).1

/-- A literal propagated before, or right now. -/
theorem mem_take (hl : l ∈ s.trail.take (q + 1)) :
  l ∈ s.trail.take q ∨ l = falseLit.negate := by
 rw [take_add_one, h.lit] at hl
 simpa using hl

end

section

variable (h : Visiting F q falseLit (cref :: ws) kept s)

include h

/-- The clause at the head of the list watches the falsified literal and another one. -/
theorem clause : ∃ l0 l1 rest, s.clauses[cref]? = some (l0 :: l1 :: rest) ∧
   (l0 = falseLit ∨ l1 = falseLit) ∧ (l0 :: l1 :: rest).Nodup := by
 obtain ⟨c, hc, hmem⟩ := (h.mem_own cref).1 (by simp)
 have hin := mem_of_getElem? hc
 have htwo := h.core.clause_two c hin
 match c, htwo with
 | l0 :: l1 :: rest, _ =>
  simp only [take_succ_cons, take_zero, mem_cons, not_mem_nil,
   or_false] at hmem
  exact ⟨l0, l1, rest, hc, hmem.imp Eq.symm Eq.symm, h.core.clause_nodup _ hin⟩

/-- Exchanging the watched literals of a clause still to be visited. -/
theorem swap {l0 l1 : Lit} (hc : s.clauses[cref]? = some (l0 :: l1 :: rest)) (hl0 : l0 = falseLit) :
  Visiting F q falseLit (cref :: ws) kept (s.setClause cref (l1 :: l0 :: rest)) := by
 have hget := getElem?_setClause hc (l1 :: l0 :: rest)
 have hwatches : ∀ i l, (s.setClause cref (l1 :: l0 :: rest)).Watches i l ↔ s.Watches i l := by
  intro i l
  by_cases hi : i = cref
  · grind [watches_iff]
  · simp [Watches, hget i, if_neg hi]
 refine
  { core := ?_, qhead := h.qhead, lit := h.lit, lim_le := h.lim_le, mem_watches := ?_, mem_own := ?_
    watches_nodup := h.watches_nodup, own_nodup := h.own_nodup, watched := ?_ }
 · refine h.core.setClause hc (Perm.swap l0 l1 rest) ?_
   -- the clause forces no literal: its first one is false
   intro l rest' heq hl
   cases heq
   exact absurd h.lit_mem (hl0 ▸ h.core.not_both hl)
 · exact fun l hl i => (h.mem_watches l hl i).trans (hwatches i l).symm
 · exact fun i => (h.mem_own i).trans (hwatches i falseLit).symm
 · intro i a b rest' hi
   rw [hget] at hi
   by_cases hic : i = cref
   · subst hic
     simp only [if_true, some.injEq, List.cons.injEq] at hi
     obtain ⟨rfl, rfl, rfl⟩ := hi
     exact (h.watched i l0 l1 rest hc).symm
   · rw [if_neg hic] at hi
     exact h.watched i a b rest' hi

/-- A clause whose other watched literal is true keeps the watch. -/
theorem keep {w0 : Lit} (hc : s.clauses[cref]? = some (w0 :: falseLit :: rest)) (hw0 : w0 ∈ s.trail) :
  Visiting F q falseLit ws (kept ++ [cref]) s := by
 have hown : kept ++ [cref] ++ ws = kept ++ cref :: ws := by simp
 refine { h with mem_own := ?_, own_nodup := ?_, watched := ?_ }
 · rw [hown]
   exact h.mem_own
 · rw [hown]
   exact h.own_nodup
 · intro i a b rest' hi
   by_cases hic : i = cref
   · subst hic
     rw [hc] at hi
     obtain ⟨rfl, rfl, rfl⟩ := hi
     refine ⟨fun ha => ?_, fun _ => ⟨hw0, h.level_le hw0⟩⟩
     exact absurd (mem_of_mem_take ha) (h.core.not_both hw0)
   · have hi' := h.watched i a b rest' hi
     simpa only [mem_cons, hic, false_or] using hi'

end

theorem push (h : Visiting F q falseLit ws kept s) {reason : Option Nat}
  (hl : Pushable F s l reason) : Visiting F q falseLit ws kept (s.push l reason) := by
 have hlt := h.lt_length
 refine
  { core := h.core.push hl, qhead := h.qhead, lit := ?_, lim_le := h.lim_le
    mem_watches := h.mem_watches, mem_own := h.mem_own, watches_nodup := h.watches_nodup
    own_nodup := h.own_nodup, watched := ?_ }
 · rw [push_trail, getElem?_append_left hlt]
   exact h.lit
 · intro i
   have hn : (if i ∈ ws then q else q + 1) ≤ s.trail.length := by split <;> omega
   exact (h.watched i).push hn hl.fresh reason

/-- The solver after a clause takes the literal at `k` of the others as its second watch. -/
def moveWatch (s : Solver A) (cref : Nat) (w0 nw : Lit) (rest : Clause) : Solver A :=
 { s.setClause cref (w0 :: nw :: rest) with
   watches := update s.watches nw (s.watches nw ++ [cref]) }

/-- A clause that finds a literal that is not false watches it instead. -/
theorem moved (h : Visiting F q falseLit (cref :: ws) kept s) {w0 nw : Lit} {k : Nat}
  (hc : s.clauses[cref]? = some (w0 :: falseLit :: rest)) (hw0 : w0 ∉ s.trail)
  (hk : rest[k]? = some nw) (hnw : nw.negate ∉ s.trail) :
  Visiting F q falseLit ws kept (moveWatch s cref w0 nw (rest.set k falseLit)) := by
 have hmem : nw ∈ rest := mem_of_getElem? hk
 have hnd := h.core.clause_nodup _ (mem_of_getElem? hc)
 simp only [nodup_cons, mem_cons, not_or] at hnd
 obtain ⟨⟨hw0f, hw0r⟩, hfr, -⟩ := hnd
 have hnwf : nw ≠ falseLit := fun heq => hfr (heq ▸ hmem)
 have hnw0 : nw ≠ w0 := fun heq => hw0r (heq ▸ hmem)
 have hget := getElem?_setClause hc (w0 :: nw :: rest.set k falseLit)
 have hown := h.own_nodup
 have hout : cref ∉ kept ++ ws := by
  grind
 -- what the clause watches now; the others watch what they did
 have hself : ∀ l, (moveWatch s cref w0 nw (rest.set k falseLit)).Watches cref l ↔
   l = w0 ∨ l = nw :=
  watches_iff ((hget cref).trans (if_pos rfl))
 have hothers : ∀ i, i ≠ cref → ∀ l,
   (moveWatch s cref w0 nw (rest.set k falseLit)).Watches i l ↔ s.Watches i l := by
  intro i hi l
  simp [Watches, moveWatch, hget i, if_neg hi]
 have hbef := watches_iff hc
 refine
  { core := ?_, qhead := h.qhead, lit := h.lit, lim_le := h.lim_le, mem_watches := ?_, mem_own := ?_
    watches_nodup := ?_, own_nodup := ?_, watched := ?_ }
 · have hcore := h.core.setClause hc ((cons_set_perm hk falseLit).cons w0) fun l rest' heq hl =>
    absurd ((List.cons.inj heq).1 ▸ hl) hw0
   exact { hcore with }
 · intro l hl i
   have hi := h.mem_watches l hl i
   by_cases hic : i = cref
   · subst hic
     rw [hbef] at hi
     rw [hself]
     by_cases hln : l = nw
     · subst hln
       simp [moveWatch]
     · simp [moveWatch, hi, hl, hln]
   · rw [hothers i hic, ← hi]
     by_cases hln : l = nw
     · subst hln
       simp [moveWatch, hic]
     · simp [moveWatch, update_of_ne hln]
 · intro i
   by_cases hic : i = cref
   · grind
   · rw [hothers i hic, ← h.mem_own]
     simp [hic]
 · intro l hl
   by_cases hln : l = nw
   · subst hln
     simp only [moveWatch, update_self]
     refine nodup_append.2 ⟨h.watches_nodup l hl, nodup_singleton _, ?_⟩
     rintro i hi i' hi' rfl
     rw [mem_singleton.1 hi', h.mem_watches l hl, hbef] at hi
     exact hi.elim hnw0 hnwf
   · simp only [moveWatch, update_of_ne hln]
     exact h.watches_nodup l hl
 · grind
 · intro i a b rest' hi
   simp only [moveWatch, hget] at hi
   by_cases hic : i = cref
   · subst hic
     simp only [if_true, some.injEq, List.cons.injEq] at hi
     obtain ⟨rfl, rfl, rfl⟩ := hi
     refine ⟨fun ha => ?_, fun hb => absurd (mem_of_mem_take hb) hnw⟩
     -- had the first literal been propagated as false, the second would be true
     have hlt : i ∉ ws := fun hmem => hout (mem_append_right _ hmem)
     rw [if_neg hlt] at ha
     rcases h.mem_take ha with ha | ha
     · have hpair := (h.watched i w0 falseLit rest hc).1 (by simpa using ha)
       exact absurd h.lit_mem (h.core.not_both hpair.1)
     grind [Lit.negate_negate]
   · rw [if_neg hic] at hi
     have hi' := h.watched i a b rest' hi
     simp only [mem_cons, hic, false_or] at hi'
     exact hi'

end Visiting

/-- What a visit comes to, in the terms of the loop's invariant. -/
def AfterVisit (F : List Clause) (q : Nat) (falseLit : Lit) (cref : Nat) (ws kept : List Nat)
  (s : Solver A) : Visit → Prop
 | .keep => Visiting F q falseLit ws (kept ++ [cref]) s
 | .moved => Visiting F q falseLit ws kept s
 | .conflict => Visiting F q falseLit (cref :: ws) kept s ∧
   ∃ c, s.clauses[cref]? = some c ∧ falseLit ∈ c ∧ ∀ l ∈ c, l.negate ∈ s.trail

variable {q cref : Nat} {falseLit : Lit} {ws kept : List Nat}

theorem setClause_self {c : Clause} (hc : s.clauses[cref]? = some c) : s.setClause cref c = s := by
 obtain ⟨hlt, rfl⟩ := List.getElem?_eq_some_iff.1 hc
 simp [setClause]

theorem extends_setClause {c d : Clause} (hc : s.clauses[cref]? = some c) (hperm : d.Perm c) :
  Extends s (s.setClause cref d) :=
 ⟨rfl, rfl, clauseSets_set hc (toFinset_eq_of_perm _ _ hperm), prefix_rfl⟩

theorem extends_push (s : Solver A) (l : Lit) (reason : Option Nat) : Extends s (s.push l reason) :=
 ⟨rfl, rfl, rfl, prefix_append _ _⟩

theorem rewatch_spec (h : Visiting F q falseLit (cref :: ws) kept s) {w0 : Lit} {rest : Clause}
  (hc : s.clauses[cref]? = some (w0 :: falseLit :: rest)) : Extends s (s.rewatch cref w0 falseLit rest).1 ∧
   AfterVisit F q falseLit cref ws kept (s.rewatch cref w0 falseLit rest).1
    (s.rewatch cref w0 falseLit rest).2 := by
 unfold rewatch
 have hmem := mem_of_getElem? hc
 split
 · rename_i hw0
   exact ⟨Extends.refl s, h.keep hc ((h.core.value_true w0).1 hw0)⟩
 · rename_i hw0
   rw [h.core.value_true] at hw0
   split
   · rename_i k hk
     obtain ⟨hlt, hval, -⟩ := findIdx?_eq_some_iff_getElem.1 hk
     have hget : rest[k]? = some (rest.getD k falseLit) := by simp [hlt]
     have hgetD : rest.getD k falseLit = rest[k] := by simp [hlt]
     have hnw : (rest.getD k falseLit).negate ∉ s.trail := by
      rw [← h.core.value_false, hgetD]
      simpa using hval
     have hmoved := h.moved hc hw0 hget hnw
     refine ⟨?_, hmoved⟩
     obtain ⟨hnumVars, hlim, hsets, htrail⟩ :=
      extends_setClause hc ((cons_set_perm hget falseLit).cons w0)
     exact ⟨hnumVars, hlim, hsets, htrail⟩
   · rename_i hnone
     have hrest : ∀ l ∈ rest, l.negate ∈ s.trail := by
      intro l hl
      have hl' := findIdx?_eq_none_iff.1 hnone l hl
      rw [← h.core.value_false]
      simpa using hl'
     split
     · rename_i hfalse
       refine ⟨Extends.refl s, h, _, hc, by simp, ?_⟩
       intro l hl
       simp only [mem_cons] at hl
       rcases hl with rfl | rfl | hl
       · exact (h.core.value_false l).1 hfalse
       · exact h.lit_mem
       · exact hrest l hl
     · rename_i hfalse
       -- the clause is unit on its first literal
       rw [h.core.value_false] at hfalse
       have hfresh : ∀ k ∈ s.trail, k.var ≠ w0.var := by
        intro k hk hvar
        rcases Lit.eq_or_eq_negate hvar with rfl | rfl
        · exact hw0 hk
        · exact hfalse hk
       have hfalsified : ∀ l ∈ falseLit :: rest, l.negate ∈ s.trail := by
        intro l hl
        rcases mem_cons.1 hl with rfl | hl
        · exact h.lit_mem
        · exact hrest l hl
       have hpush : Pushable F s w0 (some cref) :=
        { var_lt := h.core.clause_lt _ hmem w0 (.head _)
          fresh := hfresh
          forced := fun c hc' => ⟨_, some.inj hc' ▸ hc, hfalsified⟩
          decided := fun hnone => by cases hnone
          entailed := fun hzero => (h.core.clause_entailed _ hmem).unit fun l hl => by
           have hlt := h.level_le (hfalsified l hl)
           rw [h.level_eq, hzero] at hlt
           exact h.core.settled _ (hfalsified l hl) (le_zero.1 hlt) }
       rw [h.core.enqueue hfresh]
       refine ⟨extends_push s w0 _, (h.push hpush).keep hc ?_⟩
       exact mem_append_right _ (mem_singleton_self w0)

/-- Visiting the next clause never fails, and keeps the invariant of the loop. -/
theorem visit_spec (h : Visiting F q falseLit (cref :: ws) kept s) :
  ∃ t v, s.visit falseLit cref = some (t, v) ∧ Extends s t ∧
   AfterVisit F q falseLit cref ws kept t v := by
 obtain ⟨l0, l1, rest, hc, hone, hnd⟩ := h.clause
 by_cases hl0 : l0 = falseLit
 · have hget := (getElem?_setClause hc (l1 :: l0 :: rest) cref).trans (if_pos rfl)
   have hswap := h.swap hc hl0
   subst hl0
   obtain ⟨hext, hafter⟩ := rewatch_spec hswap hget
   refine ⟨_, _, ?_, (extends_setClause hc (Perm.swap _ _ _)).trans hext, hafter⟩
   simp [visit, hc, setClause]
 · have hl1 := hone.resolve_left hl0
   subst hl1
   obtain ⟨hext, hafter⟩ := rewatch_spec h hc
   refine ⟨_, _, ?_, hext, hafter⟩
   simp only [visit, hc, if_neg hl0]
   exact congrArg (fun t => some (rewatch t cref l0 l1 rest)) (setClause_self hc)

/-- What the loop over the watch list comes to. -/
def AfterVisits (F : List Clause) (q : Nat) (falseLit : Lit) (kept : List Nat) (s : Solver A) : Option Nat → Prop
 | none => Visiting F q falseLit [] kept s
 | some cref => ∃ ws kept', kept = kept' ++ ws ∧ Visiting F q falseLit ws kept' s ∧
   ∃ c, s.clauses[cref]? = some c ∧ falseLit ∈ c ∧ ∀ l ∈ c, l.negate ∈ s.trail

/-- The loop over the watch list never fails. -/
theorem visitAll_spec (ws : List Nat) : ∀ (s : Solver A) (kept : List Nat), Visiting F q falseLit ws kept s →
  ∃ t kept' conflict, visitAll falseLit ws s kept = some (t, kept', conflict) ∧ Extends s t ∧
   AfterVisits F q falseLit kept' t conflict := by
 induction ws with
 | nil => exact fun s kept h => ⟨s, kept, none, rfl, Extends.refl s, h⟩
 | cons cref ws ih =>
  intro s kept h
  obtain ⟨t, v, hvisit, hext, hafter⟩ := visit_spec h
  cases v with
  | keep =>
   obtain ⟨u, kept', conflict, hall, hext', hafter'⟩ := ih t (kept ++ [cref]) hafter
   exact ⟨u, kept', conflict, by simp [visitAll, hvisit, hall], hext.trans hext', hafter'⟩
  | moved =>
   obtain ⟨u, kept', conflict, hall, hext', hafter'⟩ := ih t kept hafter
   exact ⟨u, kept', conflict, by simp [visitAll, hvisit, hall], hext.trans hext', hafter'⟩
  | conflict =>
   refine ⟨t, kept ++ cref :: ws, some cref, by simp [visitAll, hvisit], hext, ?_⟩
   exact ⟨cref :: ws, kept, rfl, hafter.1, hafter.2⟩

/-! ## The outer loop -/

/-- The state in which the loop over the watch list of the next literal begins. -/
theorem Inv.visiting {p : Lit} (h : Inv F q s) (hq : s.qhead = q) (hp : s.trail[q]? = some p) :
  Visiting F q p.negate (s.watches p.negate) []
   { s with qhead := s.qhead + 1, watches := update s.watches p.negate [] } := by
 refine
  { core := { h.core with }, qhead := by rw [hq], lit := by rw [Lit.negate_negate]; exact hp
    lim_le := h.lim_le, mem_watches := ?_, mem_own := ?_, watches_nodup := ?_, own_nodup := ?_
    watched := ?_ }
 · intro l hl cref
   simp only [update_of_ne hl]
   exact h.mem_watches l cref
 · exact h.mem_watches p.negate
 · intro l hl
   simp only [update_of_ne hl]
   exact h.watches_nodup l
 · exact h.watches_nodup p.negate
 · intro cref a b rest (hc : s.clauses[cref]? = some (a :: b :: rest))
   split
   · exact h.watched cref a b rest hc
   · rename_i hnot
     have hout : ¬ (p.negate = a ∨ p.negate = b) := by
      rw [← watches_iff hc, ← h.mem_watches]
      exact hnot
     have hearlier : ∀ l : Lit, l ≠ p.negate → l.negate ∈ s.trail.take (q + 1) →
       l.negate ∈ s.trail.take q := by
      intro l hne hl
      rw [take_add_one, hp] at hl
      grind [Lit.negate_negate]
     have hw := h.watched cref a b rest hc
     grind

theorem Visiting.inv (h : Visiting F q falseLit ws kept s) {n : Nat} (hn : n ≤ q + 1)
  (hws : ws ≠ [] → n ≤ q) (hlim : ∀ t ∈ s.trailLim, t ≤ n) (k : Nat) :
  Inv F n { s with watches := update s.watches falseLit (kept ++ ws), qhead := k } where
 core := { h.core with }
 bound := by
  have := h.lt_length
  grind
 lim_le := hlim
 mem_watches := by
  intro l cref
  by_cases hl : l = falseLit
  · subst hl
    simp only [update_self]
    exact h.mem_own cref
  · simp only [update_of_ne hl]
    exact h.mem_watches l hl cref
 watches_nodup := by
  intro l
  by_cases hl : l = falseLit
  · subst hl
    simp only [update_self]
    exact h.own_nodup
  · simp only [update_of_ne hl]
    exact h.watches_nodup l hl
 watched := by
  intro cref
  refine (h.watched cref).mono ?_
  split
  · grind
  · exact hn

/-- A clause all of whose literals are false, one of them of the current level. -/
def Conflicting (s : Solver A) (cref : Nat) : Prop :=
 ∃ c, s.clauses[cref]? = some c ∧ (∀ l ∈ c, l.negate ∈ s.trail) ∧
  ∃ l ∈ c, s.level l.var = s.decisionLevel

/-- What propagation comes to. -/
def AfterPropagate (F : List Clause) (s : Solver A) : Option Nat → Prop
 | none => Inv F s.qhead s ∧ s.qhead = s.trail.length
 | some cref => (∃ n, Inv F n s) ∧ Conflicting s cref

theorem propagateLoop_spec (fuel : Nat) : ∀ s : Solver A, Inv F s.qhead s → s.numVars < fuel + s.qhead →
  ∃ t conflict, propagateLoop fuel s = some (t, conflict) ∧ Extends s t ∧
   AfterPropagate F t conflict := by
 induction fuel with
 | zero =>
  intro s h hfuel
  have hbound := h.bound
  have hle := h.core.trail_length_le
  omega
 | succ fuel ih =>
  intro s h hfuel
  simp only [propagateLoop]
  cases hp : s.trail[s.qhead]? with
  | none =>
   have hle := List.getElem?_eq_none_iff.1 hp
   exact ⟨s, none, rfl, Extends.refl s, h, le_antisymm h.bound hle⟩
  | some p =>
   obtain ⟨t, kept, conflict, hall, hext, hafter⟩ := visitAll_spec _ _ _ (h.visiting rfl hp)
   simp only [hall]
   have hext' : Extends s t := ⟨hext.numVars, hext.trailLim, hext.sets, hext.trail⟩
   have hlim : ∀ u ∈ t.trailLim, u ≤ s.qhead := by
    rw [hext'.trailLim]
    exact h.lim_le
   cases conflict with
   | none =>
    -- the literal is propagated; the next turn takes the next one
    have hq : t.qhead = s.qhead + 1 := hafter.qhead
    have hinv := hafter.inv le_rfl (fun hne => absurd rfl hne)
     (fun u hu => (hlim u hu).trans (le_succ _)) (s.qhead + 1)
    rw [append_nil, ← hq] at hinv
    obtain ⟨u, conflict, hloop, hext'', hend⟩ := ih
     { t with watches := update t.watches p.negate kept } hinv (by
     show t.numVars < fuel + t.qhead
     rw [hq, hext'.numVars]
     omega)
    exact ⟨u, conflict, hloop,
     hext'.trans ⟨hext''.numVars, hext''.trailLim, hext''.sets, hext''.trail⟩, hend⟩
   | some cref =>
    obtain ⟨ws, kept', rfl, hvisiting, c, hc, hmem, hfalse⟩ := hafter
    have hinv := hvisiting.inv (le_succ _) (fun _ => le_rfl) hlim t.trail.length
    refine ⟨_, some cref, rfl, ⟨hext'.numVars, hext'.trailLim, hext'.sets, hext'.trail⟩,
     ⟨s.qhead, hinv⟩, c, hc, hfalse, p.negate, hmem, ?_⟩
    exact hvisiting.level_eq

/-- Propagation never fails. -/
theorem propagate_spec (h : Inv F s.qhead s) :
  ∃ t conflict, s.propagate = some (t, conflict) ∧ Extends s t ∧ AfterPropagate F t conflict :=
 propagateLoop_spec (s.numVars + 1) s h (by omega)

end Solver

end Tir.Sat
