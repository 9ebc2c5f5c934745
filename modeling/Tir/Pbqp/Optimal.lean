import Tir.Pbqp.Merge
import Mathlib.Data.List.TakeWhile

/-!
# Optimality without decisions

A run that never decides a node goes through exact steps only, so the choices it ends with have the
least cost of all assignments, infinite entries counted as infinity (`solve_optimal`). The steps
from the problem to the solver's first state are exact too: linking an edge adds its matrix.
-/

open List Option Bool

namespace Tir.Pbqp

open Solver

namespace Problem

/-- Every node has one of its alternatives. -/
def InRange (p : Problem) (x : Nat → Nat) : Prop := ∀ v, v < p.costs.length → x v < p.arity v

/-- The sum of node costs and edge costs. -/
def total (p : Problem) (x : Nat → Nat) : Nat :=
 ∑ v ∈ Finset.range p.costs.length, p.nodeCost v (x v) +
  (p.edges.map fun e => e.2 (x e.1.1) (x e.1.2)).sum

/-- No node and no edge costs infinity. -/
def Finite (p : Problem) (x : Nat → Nat) : Prop :=
 (∀ v, v < p.costs.length → p.nodeCost v (x v) < infCost) ∧
  ∀ e ∈ p.edges, e.2 (x e.1.1) (x e.1.2) < infCost

instance (p : Problem) (x : Nat → Nat) : Decidable (p.Finite x) :=
 inferInstanceAs (Decidable (_ ∧ _))

/-- The cost of an assignment, infinite as soon as one entry is. -/
def value (p : Problem) (x : Nat → Nat) : ℕ∞ := if p.Finite x then (p.total x : ℕ∞) else ⊤

/-- Finite costs do not add up to infinity. -/
def Bounded (p : Problem) : Prop := ∀ x, p.InRange x → p.Finite x → p.total x < infCost

theorem finite_of_total_lt (p : Problem) {x : Nat → Nat} (h : p.total x < infCost) :
  p.Finite x := by
 constructor
 · intro v hv
   have hle := Finset.single_le_sum (f := fun v => p.nodeCost v (x v)) (fun _ _ => Nat.zero_le _)
    (Finset.mem_range.2 hv)
   simp only [total] at h
   omega
 · intro e he
   have hle := single_le_sum (fun _ _ => Nat.zero_le _) _
    (List.mem_map_of_mem (f := fun e : (Nat × Nat) × Matrix => e.2 (x e.1.1) (x e.1.2)) he)
   simp only [total] at h
   omega

theorem value_le (p : Problem) (hb : p.Bounded) {x z : Nat → Nat} (hz : p.InRange z)
  (h : cap (p.total x) ≤ cap (p.total z)) : p.value x ≤ p.value z := by
 by_cases hzf : p.Finite z
 · have hlt := hb z hz hzf
   rw [cap_of_lt hlt] at h
   have hxlt : p.total x < infCost := by
    rw [← cap_lt_iff]
    omega
   rw [cap_of_lt hxlt] at h
   rw [value, value, if_pos (p.finite_of_total_lt hxlt), if_pos hzf]
   exact_mod_cast h
 · rw [value, value, if_neg hzf]
   exact le_top

variable {choices : Nat → Nat} {e : (Nat × Nat) × Matrix} {rest : List ((Nat × Nat) × Matrix)}

/-- A finite choice of every node leaves nobody at fault. -/
theorem infeasible_of_finite (p : Problem) (ranked : List Nat)
  (h : p.Finite choices) : p.infeasible ranked choices = [] := by
 have hnone : (List.range p.costs.length).filter (p.atFault ranked choices) = [] := by
  refine filter_eq_nil_iff.2 fun v hv => ?_
  have hstuck : p.stuck choices v = false := by
   simpa [stuck] using h.1 v (mem_range.1 hv)
  simp only [atFault, hstuck, Bool.false_or, not_eq_true, List.any_eq_false]
  intro e he
  have hlt := h.2 e he
  simp [not_le.2 hlt]
 rw [infeasible, hnone]
 rfl

/-- An infinite cost has somebody at fault: the node it is of, or the later-ranked end of its
edge. -/
theorem finite_of_infeasible (p : Problem) {ranked : List Nat}
  (h : p.infeasible ranked choices = []) : p.Finite choices := by
 have hfault : ∀ v, v < p.costs.length → p.atFault ranked choices v = false := by
  intro v hv
  have hperm := perm_insertionSort (fun a b => rank ranked a ≤ rank ranked b)
   ((List.range p.costs.length).filter (p.atFault ranked choices))
  have hnil := Perm.eq_nil (hperm.symm.trans (Perm.of_eq h))
  exact eq_false_iff.2 (filter_eq_nil_iff.1 hnil v (mem_range.2 hv))
 have hstuck : ∀ v, v < p.costs.length → p.stuck choices v = false := by
  intro v hv
  have hv' := hfault v hv
  simp only [atFault, or_eq_false_iff] at hv'
  exact hv'.1
 constructor
 · intro v hv
   simpa [stuck] using hstuck v hv
 · intro e he
   -- both ends exist, so neither is stuck and the later-ranked one would answer for the edge
   obtain ⟨hlt, hlt'⟩ := p.ordered e he
   by_contra hinf
   have hend : (if rank ranked e.1.1 > rank ranked e.1.2 then e.1.1 else e.1.2) <
     p.costs.length := by
    split <;> omega
   have hv := hfault _ hend
   simp only [atFault, or_eq_false_iff, List.any_eq_false] at hv
   grind

/-! ## The solver's first state -/

theorem arity_pos (p : Problem) {v : Nat} (hv : v < p.costs.length) : 0 < p.arity v := by
 have hmem : p.costs.getD v [] ∈ p.costs := by
  grind
 exact length_pos_iff.2 (p.alternatives _ hmem)

theorem start_inv (p : Problem) : p.start.Inv where
 wf :=
  { alive_lt := fun v hv => Finset.mem_range.1 hv
    arity_pos := fun v hv => p.arity_pos hv
    edge_lt := fun e he => absurd he (by simp [start])
    ends_ne := fun e he => absurd he (by simp [start])
    ends_alive := fun e he => absurd he (by simp [start])
    mem_adjacency := fun e v => by simp [start]
    adjacency_nodup := fun v => nodup_nil
    between_iff := fun k e => by simp [start]
    pending_low := fun v hv _ _ => mem_range.2 (Finset.mem_range.1 hv) }
 dead := nofun
 range := fun v hv => p.arity_pos hv

/-- The edges of a list may be linked one after the other: they are between different nodes of the
graph, and no two between the same. -/
structure Linkable (s : Solver) (edges : List ((Nat × Nat) × Matrix)) : Prop where
 inv : s.Inv
 alive : ∀ e ∈ edges, e.1.1 ∈ s.alive ∧ e.1.2 ∈ s.alive ∧ e.1.1 < e.1.2
 distinct : (edges.map Prod.fst).Nodup
 fresh : ∀ e ∈ edges, s.between e.1 = none

theorem key_of_lt {a b : Nat} (h : a < b) : key a b = (a, b) := by
 simp only [key, Prod.mk.injEq]
 omega

theorem Linkable.link_eq {s : Solver} (h : Linkable s (e :: rest)) :
  s.link e.1.1 e.1.2 e.2 = s.charge e.1.1 e.1.2 e.2 := by
 have hnone := h.fresh e (.head _)
 obtain ⟨-, -, hlt⟩ := h.alive e (.head _)
 rw [charge, key_of_lt hlt, hnone]

theorem Linkable.step {s : Solver} (h : Linkable s (e :: rest)) :
  Linkable (s.charge e.1.1 e.1.2 e.2) rest ∧ Ext s (s.charge e.1.1 e.1.2 e.2) := by
 obtain ⟨hl, hr, hlt⟩ := h.alive e (.head _)
 have hext := charge_ext h.inv.wf e.2 hl hr hlt.ne
 have hwf := charge_wf h.inv.wf e.2 hl hr hlt.ne
 obtain ⟨hnotin, hnd⟩ := nodup_cons.1 h.distinct
 refine ⟨⟨h.inv.ext hext hwf, ?_, hnd, ?_⟩, hext⟩
 · intro f hf
   rw [hext.alive]
   exact h.alive f (mem_cons_of_mem e hf)
 · intro f hf
   by_contra hsome
   obtain ⟨id, hid⟩ := ne_none_iff_exists'.1 hsome
   obtain ⟨hlive, hkey⟩ := (hwf.between_iff _ id).1 hid
   rcases charge_edges h.inv.wf e.2 hl hr hlt.ne id with hsame | hnew
   · rw [hsame] at hlive hkey
     have hold := (h.inv.wf.between_iff _ id).2 ⟨hlive, hkey⟩
     rw [h.fresh f (mem_cons_of_mem e hf)] at hold
     exact absurd hold (some_ne_none id).symm
   grind [key_of_lt]

/-- What linking an edge keeps holds once all are linked. -/
theorem linkFold {P : Solver → List ((Nat × Nat) × Matrix) → Prop}
  (hP : ∀ s e rest, Linkable s (e :: rest) → P s (e :: rest) →
   P (s.charge e.1.1 e.1.2 e.2) rest) (edges : List ((Nat × Nat) × Matrix)) : ∀ s, Linkable s edges → P s edges →
   (edges.foldl (fun s e => s.link e.1.1 e.1.2 e.2) s).Inv ∧
    P (edges.foldl (fun s e => s.link e.1.1 e.1.2 e.2) s) [] := by
 induction edges with
 | nil => exact fun s h hs => ⟨h.inv, hs⟩
 | cons e rest ih =>
  intro s h hs
  rw [foldl_cons, h.link_eq]
  exact ih _ h.step.1 (hP s e rest h hs)

theorem start_linkable (p : Problem) : Linkable p.start (p.edges.insertionSort KeyLe) where
 inv := p.start_inv
 alive := by
  intro e he
  obtain ⟨hlt, hcnt⟩ := p.ordered e ((perm_insertionSort KeyLe p.edges).mem_iff.1 he)
  exact ⟨Finset.mem_range.2 (hlt.trans hcnt), Finset.mem_range.2 hcnt, hlt⟩
 distinct := ((perm_insertionSort KeyLe p.edges).map Prod.fst).nodup_iff.2 p.distinct
 fresh := fun e he => rfl

/-- The solver starts with the problem's graph: every assignment costs there what it costs in the
problem. -/
theorem solver_total (p : Problem) : p.solver.Inv ∧ Ext p.start p.solver ∧
  ∀ x, p.InRange x → cap (p.solver.total x) = cap (p.total x) := by
 have hsum : ∀ x : Nat → Nat, (p.edges.map fun e => e.2 (x e.1.1) (x e.1.2)).sum =
   ((p.edges.insertionSort KeyLe).map fun e => e.2 (x e.1.1) (x e.1.2)).sum := fun x =>
  ((perm_insertionSort KeyLe p.edges).map _).sum_eq.symm
 have hstart : ∀ x, cap (p.start.total x +
   ((p.edges.insertionSort KeyLe).map fun e => e.2 (x e.1.1) (x e.1.2)).sum) = cap (p.total x) := by
  intro x
  have hnodes : p.start.total x = ∑ v ∈ Finset.range p.costs.length, p.nodeCost v (x v) := by
   simp [Solver.total, Solver.nodeSum, Solver.edgeSum, start]
  rw [← hsum, hnodes]
  rfl
 obtain ⟨hinv, hext, htotal⟩ := linkFold
  (P := fun s edges => Ext p.start s ∧ ∀ x, p.InRange x →
   cap (s.total x + (edges.map fun e => e.2 (x e.1.1) (x e.1.2)).sum) = cap (p.total x))
  (fun s e rest h hkept => by
   obtain ⟨hext, htotal⟩ := hkept
   obtain ⟨hl, hr, hlt⟩ := h.alive e (.head _)
   refine ⟨hext.trans h.step.2, fun x hx => ?_⟩
   have hxs : s.InRange x := Solver.InRange.congr (s := p.start) hx hext.count hext.arity
   have hcharge := charge_total h.inv.wf hxs e.2 hl hr hlt.ne
   rw [← htotal x hx, map_cons, sum_cons, ← add_assoc, add_comm,
    add_comm _ (List.sum _)]
   exact cap_add_congr hcharge _)
  _ p.start p.start_linkable ⟨Ext.refl _, fun x _ => hstart x⟩
 refine ⟨hinv, hext, fun x hx => ?_⟩
 have hx' := htotal x hx
 rw [map_nil, sum_nil, add_zero] at hx'
 exact hx'

end Problem

namespace Solver

/-! ## The run -/

/-- A node of the order is at the front of what is left of it, or out of the graph. -/
theorem mem_dropWhile_or {s : Solver} {order : List Nat} {v : Nat} (hv : v ∈ order) :
  v ∉ s.alive ∨ v ∈ order.dropWhile fun node => node ∉ s.alive := by
 rw [← takeWhile_append_dropWhile (p := fun node => node ∉ s.alive) (l := order)] at hv
 rcases mem_append.1 hv with hv | hv
 · exact .inl (by simpa using mem_takeWhile_imp hv)
 · exact .inr hv

/-- A run ends with every node of the order out of the graph. What its last state answers, its
first one answers; and if no node was decided, nothing was lost. -/
theorem runLoop_sim (fuel : Nat) : ∀ (s : Solver) (order decided : List Nat) (s' : Solver)
  (decided' : List Nat), Inv s → runLoop fuel s order decided = some (s', decided') →
  Inv s' ∧ (∀ v ∈ order, v ∉ s'.alive) ∧
   ∃ k, Sim s k s' ∧ (decided' = [] → decided = [] ∧ Exact s k s') := by
 induction fuel with
 | zero => exact fun s order decided s' decided' _ h => absurd h (some_ne_none _).symm
 | succ fuel ih =>
  intro s order decided s' decided' hinv h
  obtain ⟨⟨hinv1, k1, hexact1⟩, -⟩ := reduceOptimally_exact hinv
  simp only [runLoop] at h
  cases hdrop : order.dropWhile fun node => node ∉ s.reduceOptimally.alive with
  | nil =>
   rw [hdrop] at h
   cases h
   refine ⟨hinv1, fun v hv => ?_, k1, hexact1.toSim, fun hd => ⟨hd, hexact1⟩⟩
   grind [mem_dropWhile_or]
  | cons node rest =>
   rw [hdrop] at h
   obtain ⟨hinv2, hexact2⟩ := mergeImplied_exact hinv1 node
   have hmerged := hexact1.trans hexact2
   -- the nodes skipped are out of the graph and stay out
   have hskipped : ∀ t : Solver, t.alive ⊆ s.reduceOptimally.alive →
     (∀ v ∈ node :: rest, v ∉ t.alive) → ∀ v ∈ order, v ∉ t.alive := by
    intro t hsub hrest v hv
    rcases mem_dropWhile_or (s := s.reduceOptimally) hv with hdead | hmem
    · exact fun hmem => hdead (hsub hmem)
    grind
   simp only at h
   split at h
   · rename_i hdecide
     obtain ⟨hinv3, -, k3, hsim3, -⟩ := decide_sim hinv2 hdecide.1
     obtain ⟨hinv', hout, k, hsim, hnone⟩ := ih _ _ _ _ _ hinv3 h
     refine ⟨hinv', hskipped s' ?_ hout, _, (hmerged.toSim.trans hsim3).trans hsim, ?_⟩
     · exact (hsim.alive.trans hsim3.alive).trans hexact2.alive
     grind
   · obtain ⟨hinv', hout, k, hsim, hnone⟩ := ih _ _ _ _ _ hinv2 h
     refine ⟨hinv', hskipped s' (hsim.alive.trans hexact2.alive) hout, _,
      hmerged.toSim.trans hsim, fun hd => ?_⟩
     exact ⟨(hnone hd).1, hmerged.trans (hnone hd).2⟩

end Solver

namespace Problem

theorem mem_ranked (p : Problem) (order : List Nat) {v : Nat} (hv : v < p.costs.length) :
  v ∈ p.ranked order := by
 by_cases hmem : v ∈ order
 · exact mem_append_left _ hmem
 · refine mem_append_right _ (mem_filter.2 ⟨mem_range.2 hv, ?_⟩)
   simpa using hmem

theorem solver_alive (p : Problem) : p.solver.alive = Finset.range p.costs.length :=
 p.solver_total.2.1.alive

theorem inRange_iff (p : Problem) (x : Nat → Nat) : p.InRange x ↔ p.solver.InRange x := by
 obtain ⟨-, hext, -⟩ := p.solver_total
 simp only [InRange, Solver.InRange, hext.count, hext.arity]
 exact Iff.rfl

variable {order : List Nat} {s : Solver}

section

variable {k : Nat} (p : Problem) (hinv : s.Inv) (hsim : Solver.Sim p.solver k s) (hout : ∀ v ∈ p.ranked order, v ∉ s.alive)

include p hinv hsim hout

/-- What a run over all the nodes ends with: an empty graph. -/
theorem run_empty (x : Nat → Nat) :
  s.total x = 0 := by
 obtain ⟨-, hext, -⟩ := p.solver_total
 have hempty : s.alive = ∅ := by
  refine Finset.eq_empty_of_forall_notMem fun v hv => hout v (p.mem_ranked order ?_) hv
  have hlt := hinv.wf.alive_lt v hv
  rwa [hsim.count, hext.count] at hlt
 have hlive : ∀ e, (s.edges e).live = false := by
  intro e
  by_contra he
  have hends := (hinv.wf.ends_alive e (by simpa using he)).1
  grind
 simp [Solver.total, Solver.nodeSum, Solver.edgeSum, hempty, Edge.term, hlive]

/-- The choices a run ends with cost, in the problem, what left the graph during the run. -/
theorem run_total :
  p.InRange (s.backPropagate s.choices) ∧ cap (p.total (s.backPropagate s.choices)) = cap k := by
 obtain ⟨-, hext, htotal⟩ := p.solver_total
 have hchoices : p.solver.InRange s.choices :=
  Solver.InRange.congr hinv.range hsim.count.symm hsim.arity.symm
 obtain ⟨y, hy, -, hbp, hcap⟩ := hsim.value s.choices hchoices fun v _ => rfl
 have hnil : p.solver.reduced = [] := hext.reduced
 have hid : p.solver.backPropagate y = y := by
  rw [backPropagate, hnil]
  rfl
 have hyp := (p.inRange_iff y).2 hy
 rw [p.run_empty hinv hsim hout, add_zero] at hcap
 grind

end

/-- What `solve` returns, given the run. -/
theorem solve_eq (p : Problem) (horder : ∀ node ∈ order, node < p.costs.length) {decided : List Nat} (hrun : p.solver.run (p.ranked order) = some (s, decided)) :
  p.solve order = some
   { choices := s.backPropagate s.choices
     infeasible := p.infeasible (p.ranked order) (s.backPropagate s.choices) } := by
 have hall : (order.all fun node => decide (node < p.costs.length)) = true := by
  simpa using horder
 simp only [solve, if_pos hall, hrun, map_some]

/-- A run that is over after `n` turns of the optimal reductions. -/
theorem run_of_turns (p : Problem) {n : Nat} (hpending : (Solver.reduceTurns n p.solver).pending = [])
  (hdead : ((p.ranked order).dropWhile fun node =>
   node ∉ (Solver.reduceTurns n p.solver).alive) = []) :
  p.solver.run (p.ranked order) = some (Solver.reduceTurns n p.solver, []) := by
 simp only [run, runLoop, reduceOptimally_eq_turns hpending, hdead]

/-- A run that decides no node ends with choices of least cost; if some assignment is finite,
nobody is at fault. -/
theorem solve_optimal (p : Problem) (hb : p.Bounded) (order : List Nat)
  (horder : ∀ node ∈ order, node < p.costs.length) (s : Solver) (hrun : p.solver.run (p.ranked order) = some (s, [])) :
  ∃ sol, p.solve order = some sol ∧ p.InRange sol.choices ∧ (∀ z, p.InRange z → p.value sol.choices ≤ p.value z) ∧
   ((∃ z, p.InRange z ∧ p.Finite z) → sol.infeasible = []) := by
 obtain ⟨hinv, -, htotal⟩ := p.solver_total
 obtain ⟨hinv', hout, k, hsim, hexact⟩ := runLoop_sim _ _ _ _ _ _ hinv hrun
 obtain ⟨hrng, hcap⟩ := p.run_total hinv' hsim hout
 have hmin : ∀ z, p.InRange z → cap (p.total (s.backPropagate s.choices)) ≤ cap (p.total z) := by
  intro z hz
  have hlow := (hexact rfl).2.low z ((p.inRange_iff z).1 hz)
  rw [p.run_empty hinv' hsim hout, add_zero, htotal z hz] at hlow
  rw [hcap]
  exact hlow
 refine ⟨_, p.solve_eq horder hrun, hrng, fun z hz => p.value_le hb hz (hmin z hz), ?_⟩
 rintro ⟨z, hz, hfin⟩
 refine p.infeasible_of_finite _ (p.finite_of_total_lt ?_)
 have hlt := hb z hz hfin
 have hle := hmin z hz
 rw [← cap_lt_iff] at hlt ⊢
 omega

/-- Three nodes in a row: the first two must differ, the last two had better agree. -/
def path : Problem where
 costs := [[0, 1], [2, 0], [0, 5]]
 edges :=
  [((0, 1), fun row col => if row = col then infCost else 0),
    ((1, 2), fun row col => if row = col then 0 else 3)]
 alternatives := by decide
 ordered := by
  intro e he
  rcases mem_cons.1 he with rfl | he
  · decide
  grind
 distinct := by decide

theorem path_total (x : Nat → Nat) : path.total x =
  path.nodeCost 0 (x 0) + path.nodeCost 1 (x 1) + path.nodeCost 2 (x 2) +
   ((if x 0 = x 1 then infCost else 0) + (if x 1 = x 2 then 0 else 3)) := by
 simp [total, path, Finset.sum_range_succ]

theorem path_bounded : path.Bounded := by
 intro x hx hfin
 have h0 : x 0 < 2 := hx 0 (by decide)
 have h1 : x 1 < 2 := hx 1 (by decide)
 have h2 : x 2 < 2 := hx 2 (by decide)
 have hne : ¬ x 0 = x 1 := by
  intro heq
  have hlt := hfin.2 _ (.head _)
  simp [heq] at hlt
 have hcost : ∀ v, v < 3 → ∀ a, a < 2 → path.nodeCost v a ≤ 5 := by decide
 have hc0 := hcost 0 (by decide) _ h0
 have hc1 := hcost 1 (by decide) _ h1
 have hc2 := hcost 2 (by decide) _ h2
 have hinf : 30 < infCost := by decide
 rw [path_total, if_neg hne]
 split <;> omega

theorem path_solve_optimal : ∃ sol, path.solve [1, 0] = some sol ∧ path.InRange sol.choices ∧
   (∀ z, path.InRange z → path.value sol.choices ≤ path.value z) ∧
   ((∃ z, path.InRange z ∧ path.Finite z) → sol.infeasible = []) := by
 have hrun : path.solver.run (path.ranked [1, 0]) =
   some (reduceTurns 20 path.solver, []) :=
  path.run_of_turns (by decide +kernel) (by decide +kernel)
 exact path.solve_optimal path_bounded [1, 0] (by decide) _ hrun

end Problem

end Tir.Pbqp
