import Tir.Sat.Search

/-!
# The solver is correct

A fresh solver is given variables and clauses in any order and then asked for a verdict. Every such
run ends, whatever the ranking of variables and the budget, and its verdict is right
(`solve_correct`): a model satisfies every clause that was added, `Unsat` is answered only when no
assignment does, and `Unknown` only when there is a budget.
-/

open List Nat

namespace Tir.Sat

namespace Solver

variable {A : Type} {r : Ranking A} {F : List Clause} {s : Solver A}

/-- A step of building a problem. -/
inductive Command where
 | newVar
 | addClause (lits : Clause)
 deriving DecidableEq, Repr

def exec (r : Ranking A) (s : Solver A) : Command → Option (Solver A)
 | .newVar => some (s.newVar r)
 | .addClause lits => s.addClause lits

/-- The solver after a list of commands. -/
def build (r : Ranking A) : List Command → Solver A → Option (Solver A)
 | [], s => some s
 | command :: rest, s => (s.exec r command).bind (build r rest)

def added : List Command → List Clause
 | [] => []
 | .newVar :: rest => added rest
 | .addClause lits :: rest => lits :: added rest

/-- Every literal is of a variable that was allocated before, with `n` allocated at first: a
literal is made from a variable, and a variable comes from `new_var`. -/
def Allocated : Nat → List Command → Prop
 | _, [] => True
 | n, .newVar :: rest => Allocated (n + 1) rest
 | n, .addClause lits :: rest => (∀ l ∈ lits, l.var < n) ∧ Allocated n rest

instance decidableAllocated : (n : Nat) → (commands : List Command) → Decidable (Allocated n commands)
 | _, [] => .isTrue trivial
 | n, .newVar :: rest => decidableAllocated (n + 1) rest
 | n, .addClause lits :: rest =>
  @instDecidableAnd (∀ l ∈ lits, l.var < n) (Allocated n rest) inferInstance
   (decidableAllocated n rest)

/-! ## The state before the search -/

/-- The state of a solver that is being given the clauses `F`: nothing is propagated yet, unless
the clauses are known to have no model. -/
def Ready (F : List Clause) (s : Solver A) : Prop :=
 if s.unsat then ∀ σ, ¬ Models σ F else Inv F 0 s ∧ s.qhead = 0 ∧ s.trailLim = []

theorem ready_new (r : Ranking A) : Ready [] (new r) := by
 refine ⟨?_, rfl, rfl⟩
 exact
  { core :=
    { clause_lt := nofun
      clause_two := nofun
      clause_nodup := nofun
      clause_entailed := nofun
      trail_lt := nofun
      trail_nodup := nodup_nil
      assigned := fun l => by simp [new]
      lim_sorted := Pairwise.nil
      lim_le := nofun
      level_eq := fun i l hl => by simp [new] at hl
      settled := nofun
      reason_some := fun i l c hl => by simp [new] at hl
      reason_none := fun i l hl => by simp [new] at hl
      slots := fun v i => by simp [new]
      queued := fun v hv => absurd hv (Nat.not_lt_zero v)
      queued_lt := nofun
      unseen := fun v => rfl
      covered := nofun }
    bound := zero_le _
    lim_le := nofun
    mem_watches := fun l cref => by simp [new, Watches]
    watches_nodup := fun l => nodup_nil
    watched := fun cref a b rest hc => by simp [new] at hc }

/-! ## Allocating a variable -/

theorem Inv.newVar {n : Nat} (h : Inv F n s) : Inv F n (s.newVar r) := by
 have hcore := h.core
 have hout : ∀ l ∈ s.trail, l.var ≠ s.numVars := fun l hl heq =>
  absurd (hcore.trail_lt l hl) (by omega)
 have hnowatch : ∀ l : Lit, l.var = s.numVars → s.watches l = [] := by
  intro l hl
  refine eq_nil_iff_forall_not_mem.2 fun cref hcref => ?_
  obtain ⟨c, hc, hmem⟩ := (h.mem_watches l cref).1 hcref
  have hlt := hcore.clause_lt c (mem_of_getElem? hc) l (mem_of_mem_take hmem)
  omega
 have hwatches : (s.newVar r).watches = s.watches := by
  have hpos : Function.update s.watches ⟨s.numVars, false⟩ [] = s.watches :=
   Function.update_eq_self_iff.2 (hnowatch ⟨s.numVars, false⟩ rfl).symm
  simp only [Solver.newVar, hpos]
  exact Function.update_eq_self_iff.2 (hnowatch ⟨s.numVars, true⟩ rfl).symm
 have hasgn : (s.newVar r).assign = s.assign :=
  Function.update_eq_self_iff.2 ((hcore.assign_none s.numVars).2 hout).symm
 have hslots : VarOrder.Slots
   { s.vsids with
     activity := Function.update s.vsids.activity s.numVars r.zero
     slot := Function.update s.vsids.slot s.numVars none } := by
  have hnone : s.vsids.slot s.numVars = none := by
   by_contra hsome
   have hmem := (hcore.slots.mem_iff s.numVars).2 (Option.isSome_iff_ne_none.2 hsome)
   exact absurd (hcore.queued_lt _ hmem) (lt_irrefl _)
  have hsame : Function.update s.vsids.slot s.numVars none = s.vsids.slot :=
   Function.update_eq_self_iff.2 hnone.symm
  intro v i
  simp only [hsame]
  exact hcore.slots v i
 obtain ⟨hslots', hmem⟩ := VarOrder.queue_spec (r := r) hslots s.numVars
 -- tables of the new variable are not read for a literal on the trail
 have hlevel : ∀ l ∈ s.trail, (s.newVar r).level l.var = s.level l.var := fun l hl =>
  Function.update_of_ne (hout l hl) _ _
 have hreason : ∀ l ∈ s.trail, (s.newVar r).reason l.var = s.reason l.var := fun l hl =>
  Function.update_of_ne (hout l hl) _ _
 refine
  { core := ?_, bound := h.bound, lim_le := h.lim_le
    mem_watches := by rw [hwatches]; exact h.mem_watches
    watches_nodup := by rw [hwatches]; exact h.watches_nodup
    watched := ?_ }
 · exact
    { clause_lt := fun c hc l hl => (hcore.clause_lt c hc l hl).trans (lt_succ_self _)
      clause_two := hcore.clause_two
      clause_nodup := hcore.clause_nodup
      clause_entailed := hcore.clause_entailed
      trail_lt := fun l hl => (hcore.trail_lt l hl).trans (lt_succ_self _)
      trail_nodup := hcore.trail_nodup
      assigned := by rw [hasgn]; exact hcore.assigned
      lim_sorted := hcore.lim_sorted
      lim_le := hcore.lim_le
      level_eq := fun i l hl => by
       rw [hlevel l (mem_of_getElem? hl)]
       exact hcore.level_eq i l hl
      settled := fun l hl hzero => hcore.settled l hl (by rw [← hlevel l hl]; exact hzero)
      reason_some := fun i l c hl hsome => hcore.reason_some i l c hl (by
       rw [← hreason l (mem_of_getElem? hl)]
       exact hsome)
      reason_none := fun i l hl hnone => by
       have hmem := mem_of_getElem? hl
       rw [hreason l hmem] at hnone
       rw [hlevel l hmem]
       exact hcore.reason_none i l hl hnone
      slots := hslots'
      queued := by
       rw [hasgn]
       intro v hv hnone
       rcases Nat.lt_succ_iff_lt_or_eq.1 hv with hv | rfl
       · exact (hmem v).2 (.inr (hcore.queued v hv hnone))
       · exact (hmem _).2 (.inl rfl)
      queued_lt := fun v hv => by
       rcases (hmem v).1 hv with rfl | hv
       · exact lt_succ_self _
       · exact (hcore.queued_lt v hv).trans (lt_succ_self _)
      unseen := fun v => by
       by_cases hv : v = s.numVars
       · simp [Solver.newVar, hv]
       · simp [Solver.newVar, hv, hcore.unseen]
      covered := fun c hc => by
       rcases hcore.covered c hc with htaut | ⟨l, hl, htrail, hzero⟩ | hclause
       · exact .inl htaut
       · exact .inr (.inl ⟨l, hl, htrail, by rw [hlevel l htrail]; exact hzero⟩)
       · exact .inr (.inr hclause) }
 · intro cref a b rest hc
   have hw := h.watched cref a b rest hc
   have hkeep : ∀ {x y : Lit}, x.negate ∈ s.trail.take n →
     (y ∈ s.trail ∧ s.level y.var ≤ s.level x.var) →
     y ∈ s.trail ∧ (s.newVar r).level y.var ≤ (s.newVar r).level x.var := by
    grind [Lit.negate_var]
   exact ⟨fun ha => hkeep ha (hw.1 ha), fun hb => hkeep hb (hw.2 hb)⟩

theorem Ready.newVar (h : Ready F s) : Ready F (s.newVar r) := by
 unfold Ready at h ⊢
 have hunsat : (s.newVar r).unsat = s.unsat := rfl
 rw [hunsat]
 split at h
 · grind
 · rename_i hno
   rw [if_neg hno]
   exact ⟨h.1.newVar, h.2.1, h.2.2⟩

/-! ## Adding a clause -/

/-- What the loop that drops repeated literals leaves. -/
theorem dedup_spec (lits : Clause) : ∀ cl : Clause, cl.Nodup →
  (dedup lits cl = none → ∃ l, (l ∈ cl ∨ l ∈ lits) ∧ (l.negate ∈ cl ∨ l.negate ∈ lits)) ∧
   ∀ out, dedup lits cl = some out → out.Nodup ∧ ∀ l, l ∈ out ↔ l ∈ cl ∨ l ∈ lits := by
 induction lits with
 | nil =>
  intro cl hcl
  refine ⟨fun h => (nomatch h), fun out h => ?_⟩
  cases h
  exact ⟨hcl, fun l => by simp⟩
 | cons l lits ih =>
  intro cl hcl
  simp only [dedup, List.contains_iff_mem]
  split
  · grind
  · split
    · rename_i hmem
      obtain ⟨hnone, hsome⟩ := ih cl hcl
      refine ⟨fun h => ?_, fun out h => ⟨(hsome out h).1, fun k => ?_⟩⟩
      · grind
      grind
    · rename_i hnot
      have hcl' : (cl ++ [l]).Nodup := by
       refine List.nodup_append.2 ⟨hcl, List.nodup_singleton l, ?_⟩
       grind
      have hjoin : ∀ k, (k ∈ cl ++ [l] ∨ k ∈ lits) ↔ (k ∈ cl ∨ k ∈ l :: lits) := by
       intro k
       rw [List.mem_append, List.mem_singleton, List.mem_cons, or_assoc]
      obtain ⟨hnone, hsome⟩ := ih (cl ++ [l]) hcl'
      refine ⟨fun h => ?_, fun out h => ⟨(hsome out h).1, fun k => ?_⟩⟩
      · simp_all
      · rw [(hsome out h).2, hjoin]

/-- A clause that is covered already changes nothing. -/
theorem Inv.covers {n : Nat} (h : Inv F n s) {c : Clause} (hc : s.Covered c) : Inv (F ++ [c]) n s where
 core :=
  { h.core with
    clause_entailed := fun d hd => (h.core.clause_entailed d hd).append _
    settled := fun l hl hzero => (h.core.settled l hl hzero).append _
    covered := fun d hd => by
     rcases mem_append.1 hd with hd | hd
     · exact h.core.covered d hd
     grind }
 bound := h.bound
 lim_le := h.lim_le
 mem_watches := h.mem_watches
 watches_nodup := h.watches_nodup
 watched := h.watched

/-- Nothing is promised of watched literals before the first propagation. -/
theorem watched_zero (s : Solver A) (cref : Nat) : s.Watched 0 cref := by
 intro a b rest _
 grind

section AddClause

variable {c : Clause}

theorem addUnit_spec (h : Inv F 0 s) (hlim : s.trailLim = []) {l : Lit} (hl : l.var < s.numVars)
  (hc : ∀ k, k ∈ c ↔ k = l) : ((s.enqueue l none).2 = false → ∀ σ, ¬ Models σ (F ++ [c])) ∧
    ((s.enqueue l none).2 = true → Inv (F ++ [c]) 0 (s.enqueue l none).1) := by
 have hcore := h.core
 have hlevel : s.decisionLevel = 0 := by rw [decisionLevel, hlim]; rfl
 have hzero : ∀ k ∈ s.trail, s.level k.var = 0 := by
  intro k hk
  obtain ⟨i, hi⟩ := getElem?_of_mem hk
  rw [hcore.level_eq i k hi]
  exact le_zero.1 ((s.levelAt_le i).trans hlevel.le)
 have hentailed : Entails (F ++ [c]) [l] :=
  (entails_of_mem (mem_append_right F (mem_singleton_self c))).of_subset fun k hk => by
   grind
 unfold enqueue
 cases hval : s.valueLit l with
 | some b =>
  cases b with
  | true =>
   have hmem := (hcore.value_true l).1 hval
   refine ⟨by rintro ⟨⟩, fun _ => h.covers (.inr (.inl ?_))⟩
   exact ⟨l, (hc l).2 rfl, hmem, hzero l hmem⟩
  | false =>
   have hmem := (hcore.value_false l).1 hval
   refine ⟨fun _ => ?_, fun htrue => by cases htrue⟩
   refine hentailed.refute fun k hk => ?_
   rw [mem_singleton.1 hk]
   exact (hcore.settled _ hmem (hzero _ hmem)).append _
 | none =>
  refine ⟨by rintro ⟨⟩, fun _ => ?_⟩
  have hfresh : ∀ k ∈ s.trail, k.var ≠ l.var := by
   simp only [valueLit, Option.map_eq_none_iff] at hval
   exact (hcore.assign_none l.var).1 hval
  have hpush : Pushable (F ++ [c]) s l none :=
   { var_lt := hl
     fresh := hfresh
     forced := fun c hc => by cases hc
     decided := fun _ => .inr hlevel
     entailed := fun _ => hentailed }
  have hnew : (s.push l none).Covered c := by
   refine .inr (.inl ⟨l, (hc l).2 rfl, mem_append_right _ (mem_singleton_self l), ?_⟩)
   simp [Solver.push, hlevel]
  refine
   { core := hcore.pushTo (fun d hd => hd.append _) hpush fun d hd => ?_
     bound := zero_le _, lim_le := h.lim_le, mem_watches := h.mem_watches
     watches_nodup := h.watches_nodup, watched := watched_zero _ }
  rcases mem_append.1 hd with hd | hd
  · exact (hcore.covered d hd).push hfresh none
  grind

theorem addLong_spec (h : Inv F 0 s) {a b : Lit} {rest : Clause} (hnd : (a :: b :: rest).Nodup)
  (hlt : ∀ l ∈ c, l.var < s.numVars) (hc : ∀ l, l ∈ a :: b :: rest ↔ l ∈ c) :
  Inv (F ++ [c]) 0 (s.addWatched a b rest) := by
 have hadd : Addable (F ++ [c]) s (a :: b :: rest) :=
  { lt := fun l hl => hlt l ((hc l).1 hl)
    nodup := hnd
    entailed := (entails_of_mem (mem_append_right F (mem_singleton_self c))).of_subset
     fun l hl => (hc l).2 hl }
 have hab : a ≠ b := fun heq => by simp [heq] at hnd
 obtain ⟨hmem, hlists⟩ := @addWatched_watches A s a b rest hab h.mem_watches h.watches_nodup
 refine
  { core := h.core.addWatchedTo (fun d hd => hd.append _) hadd fun d hd => ?_
    bound := zero_le _, lim_le := h.lim_le, mem_watches := hmem, watches_nodup := hlists
    watched := watched_zero _ }
 rcases mem_append.1 hd with hd | hd
 · exact (h.core.covered d hd).addWatched a b rest
 · rw [mem_singleton.1 hd]
   exact .inr (.inr ⟨_, mem_append_right _ (mem_singleton_self _), fun l hl => (hc l).1 hl⟩)

/-- Adding a clause never fails, and the solver is ready with one clause more. -/
theorem Ready.addClause (h : Ready F s) (hlt : ∀ l ∈ c, l.var < s.numVars) :
  ∃ t, s.addClause c = some t ∧ Ready (F ++ [c]) t ∧ t.numVars = s.numVars := by
 unfold Solver.addClause
 unfold Ready at h
 split at h
 · rename_i hunsat
   refine ⟨s, by simp [if_pos hunsat], ?_, rfl⟩
   unfold Ready
   rw [if_pos hunsat]
   exact fun σ hσ => h σ hσ.of_append_left
 · rename_i hunsat
   obtain ⟨hinv, hq, hlim⟩ := h
   obtain ⟨hnone, hsome⟩ := dedup_spec c [] nodup_nil
   simp only [if_neg hunsat]
   have hready : ∀ t : Solver A, t.unsat = s.unsat → Inv (F ++ [c]) 0 t → t.qhead = s.qhead →
     t.trailLim = s.trailLim → Ready (F ++ [c]) t := by
    intro t hu ht htq htl
    unfold Ready
    grind
   cases hdedup : dedup c [] with
   | none =>
    obtain ⟨l, hl, hneg⟩ := hnone hdedup
    simp only [not_mem_nil, false_or] at hl hneg
    exact ⟨s, rfl, hready s rfl (hinv.covers (.inl ⟨l, hl, hneg⟩)) rfl rfl, rfl⟩
   | some out =>
    obtain ⟨hnd, hmem⟩ := hsome out hdedup
    simp only [not_mem_nil, false_or] at hmem
    match out, hnd, hmem with
    | [], _, hmem =>
     refine ⟨{ s with unsat := true }, rfl, ?_, rfl⟩
     intro σ hσ
     obtain ⟨l, hl, -⟩ := hσ c (mem_append_right _ (mem_singleton_self c))
     exact absurd ((hmem l).2 hl) not_mem_nil
    | [l], _, hmem =>
     have hc : ∀ k, k ∈ c ↔ k = l := fun k => by rw [← hmem, mem_singleton]
     obtain ⟨hbad, hgood⟩ := addUnit_spec hinv hlim (hlt l ((hc l).2 rfl)) hc
     have hsame : (s.enqueue l none).1.unsat = s.unsat ∧
       (s.enqueue l none).1.qhead = s.qhead ∧
       (s.enqueue l none).1.trailLim = s.trailLim ∧
       (s.enqueue l none).1.numVars = s.numVars := by
      unfold enqueue
      split <;> exact ⟨rfl, rfl, rfl, rfl⟩
     cases hok : (s.enqueue l none).2 with
     | true =>
      refine ⟨_, rfl, ?_, ?_⟩
      · grind
      grind
     | false =>
      refine ⟨_, rfl, ?_, ?_⟩
      · simp only [hok, Bool.false_eq_true, if_false]
        exact hbad hok
      grind
    | a :: b :: rest, hnd, hmem =>
     exact ⟨s.addWatched a b rest, rfl,
      hready _ rfl (addLong_spec hinv hnd hlt hmem) rfl rfl, rfl⟩

end AddClause

/-! ## Correctness -/

/-- Building a problem never fails. -/
theorem build_spec (commands : List Command) : ∀ (F : List Clause) (s : Solver A), Ready F s →
  Allocated s.numVars commands →
  ∃ t, build r commands s = some t ∧ Ready (F ++ added commands) t := by
 induction commands with
 | nil =>
  intro F s h _
  exact ⟨s, rfl, by rw [added, append_nil]; exact h⟩
 | cons command rest ih =>
  intro F s h halloc
  cases command with
  | newVar => exact ih F (s.newVar r) h.newVar halloc
  | addClause lits =>
   obtain ⟨t, hadd, hready, hvars⟩ := h.addClause halloc.1
   obtain ⟨u, hbuild, hdone⟩ := ih (F ++ [lits]) t hready (by rw [hvars]; exact halloc.2)
   refine ⟨u, by simp [build, exec, hadd, hbuild], ?_⟩
   rwa [append_assoc] at hdone

/-- Solving never fails, and the verdict is right. -/
theorem Ready.solve (h : Ready F s) (budget : Option Nat) :
  ∃ t result, s.solveWithBudget r budget = some (t, result) ∧ Right F budget result := by
 unfold Ready at h
 unfold solveWithBudget
 split at h
 · rename_i hunsat
   exact ⟨s, .unsat, by simp [if_pos hunsat], h⟩
 · rename_i hunsat
   obtain ⟨hinv, hq, -⟩ := h
   obtain ⟨first, hfst⟩ := luby_isSome 0
   simp only [if_neg hunsat, hfst]
   exact searchLoop_spec budget _ _ (hq ▸ hinv) s.remaining_lt_turns

/-- For every ranking of variables, every sequence of allocations and clauses and every budget, the
solver ends with a right verdict. -/
theorem solve_correct (r : Ranking A) (commands : List Command) (h : Allocated 0 commands) (budget : Option Nat) :
  ∃ s t result, build r commands (new r) = some s ∧ s.solveWithBudget r budget = some (t, result) ∧
   (∀ model, result = .sat model → Models (assignmentOf model) (added commands)) ∧
   (result = .unsat → ∀ σ, ¬ Models σ (added commands)) ∧
   (budget = none → result ≠ .unknown) := by
 obtain ⟨s, hbuild, hready⟩ := build_spec (r := r) commands [] (new r) (ready_new r) h
 obtain ⟨t, result, hsolve, hright⟩ := hready.solve (r := r) budget
 rw [nil_append] at hright
 refine ⟨s, t, result, hbuild, hsolve, ?_, ?_, ?_⟩
 · rintro model rfl
   exact hright
 · rintro rfl
   exact hright
 · rintro rfl rfl
   exact hright rfl

/-- Activities that count bumps. -/
def counting : Ranking Nat where
 zero := 0
 one := 1
 plus a b := a + b
 exceeds a := decide (100 < a)
 shrink a := a / 100
 grow a := a + 1
 above x y := decide (y.1 < x.1 ∨ y.1 = x.1 ∧ y.2 < x.2)

/-- Two variables and the four clauses over both. -/
def square : List Command :=
 [.newVar, .newVar, .addClause [⟨0, false⟩, ⟨1, false⟩], .addClause [⟨0, true⟩, ⟨1, false⟩],
  .addClause [⟨0, false⟩, ⟨1, true⟩], .addClause [⟨1, true⟩, ⟨0, true⟩, ⟨1, true⟩]]

theorem solve_correct_square : Allocated 0 square ∧ ∃ s t result, build counting square (new counting) = some s ∧
   s.solveWithBudget counting none = some (t, result) ∧
   (∀ model, result = .sat model → Models (assignmentOf model) (added square)) ∧
   (result = .unsat → ∀ σ, ¬ Models σ (added square)) ∧ ((none : Option Nat) = none → result ≠ .unknown) :=
 ⟨by decide, solve_correct counting square (by decide) none⟩

example : ((build counting square (new counting)).bind fun s =>
  s.solveWithBudget counting none).map Prod.snd = some .unsat := by decide +kernel

example : ((build counting (square.take 5) (new counting)).bind fun s =>
  s.solveWithBudget counting none).map Prod.snd = some (.sat [true, true]) := by decide +kernel

end Solver

end Tir.Sat
