import Tir.Sat.Analyze

/-!
# Jumping back and learning

Taking literals off the trail down to the beginning of a level keeps the invariant: a propagated
false watch of a level that stays is paired with a true one of a level that stays
(`cancelUntil_spec`). Learning an asserting clause keeps it too, and the clause is a new one
(`learn_spec`): at the level it asserts its literal at, every clause the solver has is true or
watches two literals that are not false.
-/

open List Option Function Nat

namespace Tir.Sat

namespace Solver

variable {A : Type} {r : Ranking A} {F : List Clause} {s t : Solver A}

/-! ## Taking literals off the trail -/

/-- The state after the trail is cut to its first `m` literals. -/
structure Undone (s t : Solver A) (m : Nat) : Prop where
 same : t =
  { s with
    trail := t.trail, phase := t.phase, assign := t.assign, reason := t.reason
    vsids := t.vsids }
 trail : t.trail = s.trail.take m
 assign_cut : ∀ l ∈ s.trail.drop m, t.assign l.var = none
 assign_keep : ∀ v, (∀ l ∈ s.trail.drop m, l.var ≠ v) → t.assign v = s.assign v
 reason_keep : ∀ v, (∀ l ∈ s.trail.drop m, l.var ≠ v) → t.reason v = s.reason v
 slots : t.vsids.Slots
 queued : ∀ v, v ∈ t.vsids.order ↔ v ∈ s.vsids.order ∨ ∃ l ∈ s.trail.drop m, l.var = v

theorem undo_spec (n : Nat) : ∀ s : Solver A, s.vsids.Slots → (s.trail.map Lit.var).Nodup →
  (∀ l ∈ s.trail, s.assign l.var ≠ none) → n ≤ s.trail.length →
  ∃ t, s.undo r n = some t ∧ Undone s t (s.trail.length - n) := by
 induction n with
 | zero =>
  intro s hslots _ _ _
  refine ⟨s, rfl, ⟨rfl, by simp, ?_, fun v _ => rfl, fun v _ => rfl, hslots, ?_⟩⟩
  · simp
  · simp
 | succ n ih =>
  intro s hslots hnd hasgn hn
  have hne : s.trail ≠ [] := length_pos_iff.1 (by omega)
  obtain ⟨init, l, htrail⟩ := eq_nil_or_concat' s.trail |>.resolve_left hne
  have hlast : s.trail.getLast? = some l := by simp [htrail]
  cases hval : s.assign l.var with
  | none => exact absurd hval (hasgn l (by simp [htrail]))
  | some value =>
   simp only [undo, hlast, hval]
   have hdrop : s.trail.dropLast = init := by simp [htrail]
   rw [hdrop]
   have hnd' : (init.map Lit.var).Nodup ∧ ∀ k ∈ init, k.var ≠ l.var := by
    rw [htrail, map_append, nodup_append] at hnd
    exact ⟨hnd.1, fun k hk => hnd.2.2 _ (List.mem_map_of_mem hk) _ (by simp)⟩
   obtain ⟨hslots', hmem⟩ := VarOrder.queue_spec (r := r) hslots l.var
   have hlen : s.trail.length = init.length + 1 := by simp [htrail]
   obtain ⟨t, hundo, ht⟩ := ih
    { s with
      trail := init
      phase := update s.phase l.var value
      assign := update s.assign l.var none
      reason := update s.reason l.var none
      vsids := VarOrder.queue r s.vsids l.var }
    hslots' hnd'.1
    (fun k hk => by
     grind)
    (by simp only; omega)
   have hm : s.trail.length - (n + 1) = init.length - n := by omega
   -- the literals dropped are those dropped later, and the last
   have hcut : s.trail.drop (init.length - n) = init.drop (init.length - n) ++ [l] := by
    rw [htrail, drop_append_of_le_length (by omega)]
   refine ⟨t, hundo, ?_⟩
   rw [hm]
   refine ⟨ht.same, ?_, ?_, ?_, ?_, ht.slots, ?_⟩
   · rw [ht.trail, htrail, take_append_of_le_length (by omega)]
   · intro k hk
     rw [hcut, mem_append, mem_singleton] at hk
     by_cases hin : ∃ k' ∈ init.drop (init.length - n), k'.var = k.var
     · obtain ⟨k', hk', hvar⟩ := hin
       rw [← hvar]
       exact ht.assign_cut k' hk'
     · rcases hk with hk | rfl
       · exact ht.assign_cut k hk
       · rw [ht.assign_keep _ fun k' hk' hvar => hin ⟨k', hk', hvar⟩]
         simp
   · intro v hv
     rw [hcut] at hv
     have hlv : v ≠ l.var := (hv l (by simp)).symm
     rw [ht.assign_keep v fun k hk => hv k (mem_append_left _ hk)]
     simp [hlv]
   · intro v hv
     rw [hcut] at hv
     have hlv : v ≠ l.var := (hv l (by simp)).symm
     rw [ht.reason_keep v fun k hk => hv k (mem_append_left _ hk)]
     simp [hlv]
   · intro v
     rw [ht.queued, hcut]
     simp only [hmem, mem_append, mem_singleton]
     constructor
     · rintro ((rfl | hv) | ⟨k, hk, hvar⟩)
       · exact .inr ⟨l, .inr rfl, rfl⟩
       · exact .inl hv
       · exact .inr ⟨k, .inl hk, hvar⟩
     · rintro (hv | ⟨k, hk | rfl, hvar⟩)
       · exact .inl (.inr hv)
       · exact .inr ⟨k, hk, hvar⟩
       · exact .inl (.inl hvar.symm)

/-! ## Jumping back -/

variable {d m : Nat} {l : Lit} {lower : List Lit}

section

variable (h : Core F s) (hd : s.trailLim[d]? = some m)

include h hd

/-- A literal is on the part of the trail that stays exactly when its level stays. -/
theorem Core.mem_take_lim
  (hl : l ∈ s.trail) : l ∈ s.trail.take m ↔ s.level l.var ≤ d := by
 obtain ⟨i, hi⟩ := getElem?_of_mem hl
 rw [h.level_eq i l hi, h.levelAt_le_iff hd]
 constructor
 · intro hmem
   obtain ⟨j, hj⟩ := getElem?_of_mem hmem
   rw [getElem?_take] at hj
   split at hj
   · rename_i hjm
     have hij := (getElem?_inj (List.getElem?_eq_some_iff.1 hi).1 h.trail_nodup).1
      (hi.trans hj.symm)
     omega
   · cases hj
 · intro him
   exact mem_of_getElem? (i := i) (by rw [getElem?_take, if_pos him, hi])

theorem Core.levelAt_take {i : Nat} (hi : i < m) :
  (s.trailLim.take d).countP (fun t => decide (t ≤ i)) = s.levelAt i := by
 obtain ⟨hlt, rfl⟩ := List.getElem?_eq_some_iff.1 hd
 have hsplit : s.trailLim = s.trailLim.take d ++ s.trailLim.drop d :=
  (take_append_drop d _).symm
 have hsorted := h.lim_sorted
 rw [levelAt]
 conv_rhs => rw [hsplit, countP_append]
 rw [eq_comm, Nat.add_eq_left, countP_eq_zero]
 intro t ht
 rw [← getElem_cons_drop (h := hlt)] at ht
 rw [hsplit, ← getElem_cons_drop (h := hlt), pairwise_append, pairwise_cons] at hsorted
 grind

/-- Where a level begins, among the beginnings of levels. -/
theorem Core.lim_split :
  (∀ t ∈ s.trailLim.take d, t ≤ m) ∧ ∀ t ∈ s.trailLim, t < m → t ∈ s.trailLim.take d := by
 obtain ⟨hlt, rfl⟩ := List.getElem?_eq_some_iff.1 hd
 have hsplit : s.trailLim = s.trailLim.take d ++ s.trailLim[d] :: s.trailLim.drop (d + 1) := by
  rw [getElem_cons_drop, take_append_drop]
 have hsorted := h.lim_sorted
 rw [hsplit, pairwise_append, pairwise_cons] at hsorted
 refine ⟨fun t ht => hsorted.2.2 t ht _ (.head _), fun t ht htm => ?_⟩
 rw [hsplit, mem_append, mem_cons] at ht
 rcases ht with ht | rfl | ht
 · exact ht
 · omega
 grind

theorem Core.cut {q : Nat} (ht : Undone s t m) :
  Core F { t with trailLim := t.trailLim.take d, qhead := q } := by
 have hm : m ≤ s.trail.length := h.lim_le m (mem_of_getElem? hd)
 have hlim : t.trailLim = s.trailLim := by rw [ht.same]
 have hclauses : t.clauses = s.clauses := by rw [ht.same]
 have hlevel : t.level = s.level := by rw [ht.same]
 have hnum : t.numVars = s.numVars := by rw [ht.same]
 have hseen : t.seen = s.seen := by rw [ht.same]
 -- a variable that stays is not among those cut off
 have hstay : ∀ l ∈ s.trail.take m, ∀ k ∈ s.trail.drop m, k.var ≠ l.var := by
  intro l hl k hk hvar
  have heq := h.eq_of_var (mem_of_mem_drop hk) (mem_of_mem_take hl) hvar
  have hnd := h.trail_nodup
  rw [← take_append_drop m s.trail, nodup_append] at hnd
  exact hnd.2.2 l hl k hk heq.symm
 have hget : ∀ i l, t.trail[i]? = some l → i < m ∧ s.trail[i]? = some l ∧ l ∈ s.trail.take m := by
  intro i l hl
  have hmem := mem_of_getElem? hl
  rw [ht.trail] at hl hmem
  rw [getElem?_take] at hl
  split at hl
  · grind
  · cases hl
 obtain ⟨hbef, hafter⟩ := h.lim_split hd
 constructor
 · simp only [hclauses, hnum]
   exact h.clause_lt
 · simp only [hclauses]
   exact h.clause_two
 · simp only [hclauses]
   exact h.clause_nodup
 · simp only [hclauses]
   exact h.clause_entailed
 · simp only [ht.trail, hnum]
   exact fun l hl => h.trail_lt l (mem_of_mem_take hl)
 · simp only [ht.trail]
   exact Nodup.sublist (take_sublist _ _) h.trail_nodup
 · intro l
   simp only [ht.trail]
   by_cases hcut : ∃ k ∈ s.trail.drop m, k.var = l.var
   · obtain ⟨k, hk, hvar⟩ := hcut
     have hnone := ht.assign_cut k hk
     grind
   · rw [ht.assign_keep l.var fun k hk hvar => hcut ⟨k, hk, hvar⟩, h.assigned]
     refine ⟨fun hl => ?_, mem_of_mem_take⟩
     rw [← take_append_drop m s.trail, mem_append] at hl
     exact hl.resolve_right fun hl => hcut ⟨l, hl, rfl⟩
 · simp only [hlim]
   exact h.lim_sorted.sublist (take_sublist _ _)
 · intro u hu
   simp only [hlim] at hu
   simp only [ht.trail, length_take, min_eq_left hm]
   exact hbef u hu
 · intro i l hl
   obtain ⟨him, hl, -⟩ := hget i l hl
   simp only [hlevel, levelAt, hlim]
   rw [h.levelAt_take hd him]
   exact h.level_eq i l hl
 · intro l hl hzero
   simp only [ht.trail] at hl
   simp only [hlevel] at hzero
   exact h.settled l (mem_of_mem_take hl) hzero
 · intro i l c hl hreason
   obtain ⟨him, hl, hmem⟩ := hget i l hl
   simp only [ht.reason_keep l.var (hstay l hmem)] at hreason
   simp only [hclauses, ht.trail, take_take, min_eq_left him.le]
   exact h.reason_some i l c hl hreason
 · intro i l hl hreason
   obtain ⟨him, hl, hmem⟩ := hget i l hl
   simp only [ht.reason_keep l.var (hstay l hmem)] at hreason
   simp only [hlim, hlevel]
   exact (h.reason_none i l hl hreason).imp_left fun hi => hafter i hi him
 · exact ht.slots
 · intro v hv hassign
   simp only [hnum] at hv
   rw [ht.queued]
   by_cases hcut : ∃ k ∈ s.trail.drop m, k.var = v
   · exact .inr hcut
   · simp only [ht.assign_keep v fun k hk hvar => hcut ⟨k, hk, hvar⟩] at hassign
     exact .inl (h.queued v hv hassign)
 · intro v hv
   simp only [hnum]
   rcases (ht.queued v).1 hv with hv | ⟨k, hk, rfl⟩
   · exact h.queued_lt v hv
   · exact h.trail_lt k (mem_of_mem_drop hk)
 · simp only [hseen]
   exact h.unseen
 · intro c hc
   rcases h.covered c hc with htaut | ⟨l, hl, hmem, hzero⟩ | hsub
   · exact .inl htaut
   · refine .inr (.inl ⟨l, hl, ?_, ?_⟩)
     · simp only [ht.trail]
       exact (h.mem_take_lim hd hmem).2 (by omega)
     grind
   · refine .inr (.inr ?_)
     grind

end

/-- What jumping back to level `d` leaves. -/
structure Jumped (s t : Solver A) (d m : Nat) : Prop where
 numVars : t.numVars = s.numVars
 clauses : t.clauses = s.clauses
 level : t.level = s.level
 trail : t.trail = s.trail.take m
 trailLim : t.trailLim = s.trailLim.take d
 qhead : t.qhead = t.trail.length

/-- Jumping back never fails; what stays on the trail stays propagated. -/
theorem cancelUntil_spec {n : Nat} (h : Inv F n s) (hd : s.trailLim[d]? = some m) :
  ∃ t, s.cancelUntil r d = some t ∧ Inv F t.qhead t ∧ Jumped s t d m := by
 have hm : m ≤ s.trail.length := h.core.lim_le m (mem_of_getElem? hd)
 have hmn : m ≤ n := h.lim_le m (mem_of_getElem? hd)
 have hnd : (s.trail.map Lit.var).Nodup :=
  (nodup_map_iff_inj_on h.core.trail_nodup).2 fun l hl k hk hvar => h.core.eq_of_var hl hk hvar
 obtain ⟨t, hundo, ht⟩ := undo_spec (r := r) (s.trail.length - m) s h.core.slots hnd
  (fun l hl hnone => by rw [(h.core.assigned l).2 hl] at hnone; cases hnone) (sub_le _ _)
 rw [Nat.sub_sub_self hm] at ht
 have hclauses : t.clauses = s.clauses := by rw [ht.same]
 have hlevel : t.level = s.level := by rw [ht.same]
 have hwatches : t.watches = s.watches := by rw [ht.same]
 have hlim : t.trailLim = s.trailLim := by rw [ht.same]
 have hlen : t.trail.length = m := by rw [ht.trail, length_take, min_eq_left hm]
 refine ⟨{ t with trailLim := t.trailLim.take d, qhead := t.trail.length }, ?_, ?_, ?_⟩
 · simp [cancelUntil, hd, hundo]
 · refine
    { core := h.core.cut hd ht, bound := le_rfl, lim_le := ?_, mem_watches := ?_
      watches_nodup := ?_, watched := ?_ }
   · intro u hu
     simp only [hlim] at hu
     simp only [hlen]
     exact (h.core.lim_split hd).1 u hu
   · intro l cref
     simp only [hwatches, Watches, hclauses]
     exact h.mem_watches l cref
   · simp only [hwatches]
     exact h.watches_nodup
   · intro cref a b rest hc
     simp only [hclauses] at hc
     simp only [hlevel, ht.trail, take_length]
     have hstay : ∀ {x y : Lit}, (x.negate ∈ s.trail.take n → y ∈ s.trail ∧
       s.level y.var ≤ s.level x.var) → x.negate ∈ s.trail.take m →
       y ∈ s.trail.take m ∧ s.level y.var ≤ s.level x.var := by
      intro x y hxy hx
      obtain ⟨hy, hle⟩ := hxy ((take_prefix_take_left hmn).subset hx)
      have hxlevel := (h.core.mem_take_lim hd (mem_of_mem_take hx)).1 hx
      rw [Lit.negate_var] at hxlevel
      exact ⟨(h.core.mem_take_lim hd hy).2 (hle.trans hxlevel), hle⟩
     have hw := h.watched cref a b rest hc
     exact ⟨hstay hw.1, hstay hw.2⟩
 · exact ⟨by rw [ht.same], hclauses, hlevel, ht.trail, by rw [hlim], rfl⟩

/-! ## Adding a clause -/

/-- The solver with a clause of at least two literals added. -/
def addWatched (s : Solver A) (a b : Lit) (rest : Clause) : Solver A :=
 let watches := update s.watches a (s.watches a ++ [s.clauses.length])
 { s with
   watches := update watches b (watches b ++ [s.clauses.length])
   clauses := s.clauses ++ [a :: b :: rest] }

theorem addWatchedClause_eq (s : Solver A) (a b : Lit) (rest : Clause) :
  s.addWatchedClause (a :: b :: rest) = some (s.addWatched a b rest) := rfl

theorem addWatched_getElem? (s : Solver A) (a b : Lit) (rest : Clause) (i : Nat) : (s.addWatched a b rest).clauses[i]? =
   if i = s.clauses.length then some (a :: b :: rest) else s.clauses[i]? := by
 simp only [addWatched]
 split
 · grind
 grind

/-- A clause that may be added. -/
structure Addable (F : List Clause) (s : Solver A) (c : Clause) : Prop where
 lt : ∀ l ∈ c, l.var < s.numVars
 nodup : c.Nodup
 entailed : Entails F c

/-- Adding a clause, for clauses `F'` that entail as much as `F`. -/
theorem Core.addWatchedTo {F' : List Clause} (h : Core F s) (hF : ∀ c, Entails F c → Entails F' c)
  {a b : Lit} {rest : Clause} (hc : Addable F' s (a :: b :: rest))
  (hcovered : ∀ c ∈ F', (s.addWatched a b rest).Covered c) :
  Core F' (s.addWatched a b rest) := by
 have hall : ∀ P : Clause → Prop, (∀ d ∈ s.clauses, P d) → P (a :: b :: rest) →
   ∀ d ∈ (s.addWatched a b rest).clauses, P d := by
  intro P hP hnew d hd
  rcases mem_append.1 hd with hd | hd
  · exact hP d hd
  grind
 refine
  { h with
    clause_lt := hall _ h.clause_lt hc.lt
    clause_two := hall (fun d => 2 ≤ d.length) h.clause_two (by simp)
    clause_nodup := hall (fun d => d.Nodup) h.clause_nodup hc.nodup
    clause_entailed := hall _ (fun d hd => hF d (h.clause_entailed d hd)) hc.entailed
    settled := fun l hl hzero => hF _ (h.settled l hl hzero)
    covered := hcovered
    reason_some := ?_ }
 · intro i l c hl hreason
   obtain ⟨rest', hc', hrest⟩ := h.reason_some i l c hl hreason
   have hlt := (List.getElem?_eq_some_iff.1 hc').1
   refine ⟨rest', ?_, hrest⟩
   rw [addWatched_getElem?, if_neg (by omega), hc']

theorem Covered.addWatched {c : Clause} (h : s.Covered c) (a b : Lit) (rest : Clause) :
  (s.addWatched a b rest).Covered c := by
 rcases h with htaut | hsettled | ⟨d, hd, hsub⟩
 · exact .inl htaut
 · exact .inr (.inl hsettled)
 · exact .inr (.inr ⟨d, mem_append_left _ hd, hsub⟩)

/-- The watch lists after a clause is added. -/
theorem addWatched_watches {a b : Lit} {rest : Clause} (hab : a ≠ b)
  (hmem : ∀ l cref, cref ∈ s.watches l ↔ s.Watches cref l) (hnd : ∀ l, (s.watches l).Nodup) :
  (∀ l cref, cref ∈ (s.addWatched a b rest).watches l ↔ (s.addWatched a b rest).Watches cref l) ∧
   ∀ l, ((s.addWatched a b rest).watches l).Nodup := by
 have hlists : ∀ l, (s.addWatched a b rest).watches l =
   if l = a ∨ l = b then s.watches l ++ [s.clauses.length] else s.watches l := by
  intro l
  by_cases hlb : l = b
  · subst hlb
    simp [addWatched, hab.symm]
  · by_cases hla : l = a
    · subst hla
      simp [addWatched, hlb]
    · simp [addWatched, hla, hlb]
 have hfresh : ∀ l, s.clauses.length ∉ s.watches l := by
  intro l hl
  obtain ⟨c, hc, -⟩ := (hmem l _).1 hl
  grind
 constructor
 · intro l cref
   rw [hlists]
   by_cases hcref : cref = s.clauses.length
   · have hget : (s.addWatched a b rest).clauses[cref]? = some (a :: b :: rest) := by
      rw [addWatched_getElem?, if_pos hcref]
     rw [watches_iff hget]
     subst hcref
     split
     · rename_i hl
       simp [hl]
     grind
   · have hold : (s.addWatched a b rest).Watches cref l ↔ s.Watches cref l := by
      simp [Watches, addWatched_getElem?, if_neg hcref]
     grind
 grind

/-! ## Learning -/

/-- A clause whose first literal is unassigned and whose others are false; the second is of the
current level. -/
structure Forcing (F : List Clause) (s : Solver A) (l : Lit) (lower : List Lit) : Prop where
 var_lt : l.var < s.numVars
 fresh : ∀ k ∈ s.trail, k.var ≠ l.var
 lower_false : ∀ q ∈ lower, q.negate ∈ s.trail
 nodup : (l :: lower).Nodup
 entailed : Entails F (l :: lower)
 unit : lower = [] → s.decisionLevel = 0
 second : ∀ q rest, lower = q :: rest → s.level q.var = s.decisionLevel

/-- After the jump back, an asserting clause forces its first literal. -/
theorem Asserting.forcing {bt : Nat} (h : Asserting F s l lower bt)
  (hcore : Core F s) (hbt : s.trailLim[bt]? = some m) (ht : Jumped s t bt m) :
  Forcing F t l lower := by
 have hlevel : t.decisionLevel = bt := by
  rw [decisionLevel, ht.trailLim, length_take]
  exact min_eq_left (List.getElem?_eq_some_iff.1 hbt).1.le
 refine ⟨?_, ?_, ?_, h.nodup, h.entailed, ?_, ?_⟩
 · rw [ht.numVars]
   exact hcore.trail_lt l.negate h.mem
 · intro k hk hvar
   rw [ht.trail] at hk
   have hlow := (hcore.mem_take_lim hbt (mem_of_mem_take hk)).1 hk
   rw [hvar, h.level] at hlow
   exact absurd h.bt_lt (not_lt.2 hlow)
 · intro q hq
   rw [ht.trail]
   exact (hcore.mem_take_lim hbt (h.lower_false q hq)).2 (h.lower_level q hq)
 · intro hnil
   rw [hlevel]
   exact h.unit hnil
 · intro q rest hlower
   rw [hlevel, ht.level]
   exact h.second q rest hlower

/-- No clause of the solver is the learnt one: with every literal propagated, a clause with a
false watched literal has a true one. -/
theorem Forcing.new (h : Forcing F s l lower) (hinv : Inv F s.trail.length s) :
  ∀ d ∈ s.clauses, d.toFinset ≠ (l :: lower).toFinset := by
 intro d hd heq
 obtain ⟨cref, hcref⟩ := getElem?_of_mem hd
 have htwo := hinv.core.clause_two d hd
 have hnd := hinv.core.clause_nodup d hd
 have hsame : ∀ k, k ∈ d ↔ k = l ∨ k ∈ lower := by
  intro k
  rw [← List.mem_toFinset, heq, List.mem_toFinset, mem_cons]
 have hltrail : l ∉ s.trail := fun hl => h.fresh l hl rfl
 have hnot : ∀ k, k ∈ d → k ∉ s.trail := by
  intro k hk hktrail
  rcases (hsame k).1 hk with rfl | hk
  · exact hltrail hktrail
  · exact hinv.core.not_both hktrail (h.lower_false k hk)
 match d, htwo with
 | a :: b :: rest, _ =>
  have hw := hinv.watched cref a b rest hcref
  rw [take_length] at hw
  have hab : a ≠ b := by
   rintro rfl
   simp at hnd
  rcases (hsame a).1 (by simp) with ha | ha
  · rcases (hsame b).1 (by simp) with hb | hb
    · exact hab (ha.trans hb.symm)
    · exact hnot a (by simp) (hw.2 (h.lower_false b hb)).1
  · exact hnot b (by simp) (hw.1 (h.lower_false a ha)).1

/-- The solver after it learns a clause. -/
def learned (s : Solver A) (l : Lit) : List Lit → Solver A
 | [] => s.push l none
 | q :: rest => (s.addWatched l q rest).push l (some s.clauses.length)

/-- Learning a forcing clause never fails. -/
theorem learn_spec (h : Forcing F s l lower) (hinv : Inv F s.qhead s) :
  s.learn (l :: lower) = some (s.learned l lower) ∧ Inv F s.qhead (s.learned l lower) := by
 have hcore := hinv.core
 cases lower with
 | nil =>
  have hpush : Pushable F s l none :=
   { var_lt := h.var_lt
     fresh := h.fresh
     forced := fun c hc => by cases hc
     decided := fun _ => .inr (h.unit rfl)
     entailed := fun _ => h.entailed }
  refine ⟨?_, hinv.push hpush⟩
  simp [learn, hcore.enqueue h.fresh, learned]
 | cons q rest =>
  have hadd : Addable F s (l :: q :: rest) := by
   refine ⟨fun k hk => ?_, h.nodup, h.entailed⟩
   rcases mem_cons.1 hk with rfl | hk
   · exact h.var_lt
   · exact hcore.trail_lt k.negate (h.lower_false k hk)
  have hcore' := hcore.addWatchedTo (fun _ hc => hc) hadd fun c hc =>
   (hcore.covered c hc).addWatched l q rest
  have hget := (addWatched_getElem? s l q rest s.clauses.length).trans (if_pos rfl)
  have hlq : l ≠ q := by
   rintro rfl
   have := h.nodup
   simp at this
  have hpush : Pushable F (s.addWatched l q rest) l (some s.clauses.length) :=
   { var_lt := h.var_lt
     fresh := h.fresh
     forced := fun c hc => ⟨q :: rest, some.inj hc ▸ hget, h.lower_false⟩
     decided := fun hnone => by cases hnone
     entailed := fun hzero => h.entailed.unit fun k hk => by
      obtain ⟨i, hi⟩ := getElem?_of_mem (h.lower_false k hk)
      refine hcore.settled _ (h.lower_false k hk) ?_
      rw [hcore.level_eq i _ hi]
      exact le_zero.1 ((s.levelAt_le i).trans hzero.le) }
  refine ⟨?_, ?_⟩
  · simp [learn, addWatchedClause_eq, hcore'.enqueue h.fresh, learned]
  · obtain ⟨hmem, hnd⟩ := @addWatched_watches A s l q rest hlq hinv.mem_watches
     hinv.watches_nodup
    refine
     { core := hcore'.push hpush
       bound := ?_
       lim_le := hinv.lim_le
       mem_watches := hmem
       watches_nodup := hnd
       watched := ?_ }
    · have := hinv.bound
      show s.qhead ≤ (s.trail ++ [l]).length
      grind
    · intro cref
      by_cases hcref : cref = s.clauses.length
      · -- the new clause: its first literal is true, at the level of its second
        subst hcref
        intro a b rest' hc
        have hc' := hget.symm.trans hc
        obtain ⟨rfl, rfl, rfl⟩ := hc'
        have hltrail : l ∈ (s.learned l (q :: rest)).trail :=
         mem_append_right _ (mem_singleton_self l)
        refine ⟨fun hl => absurd (mem_of_mem_take hl)
         ((hcore'.push hpush).not_both hltrail), fun _ => ⟨hltrail, ?_⟩⟩
        have hqvar : q.var ≠ l.var := h.fresh q.negate (h.lower_false q (.head _))
        show update s.level l.var s.decisionLevel l.var ≤
         update s.level l.var s.decisionLevel q.var
        rw [update_self, update_of_ne hqvar]
        exact (h.second q rest rfl).ge
      · have hold : (s.addWatched l q rest).Watched s.qhead cref := by
         intro a b rest' hc
         rw [addWatched_getElem?, if_neg hcref] at hc
         exact hinv.watched cref a b rest' hc
        exact hold.push hinv.bound h.fresh _

end Solver

end Tir.Sat
