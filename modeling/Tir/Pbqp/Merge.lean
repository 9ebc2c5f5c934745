import Tir.Pbqp.Reduce

/-!
# Merging and deciding

RM moves the edges of a neighbor to the node whose choice implies the neighbor's. An alternative
of the neighbor other than the implied one costs infinity, beside the edge between the two, so each
move keeps the total of every assignment (`moveFar_total`) and the merge is exact
(`mergeOne_exact`). RN keeps the totals of the assignments with its choice (`decide_sim`).
-/

open List Option Function

namespace Tir.Pbqp

namespace Solver

/-! ## Costs only grow -/

variable {edge node nb : Nat} {s : Solver} {implied : Nat → Nat} {P : Solver → Prop}

theorem sweep_costs_lt (s : Solver) {v a : Nat} (h : (s.sweep edge).costs v a < infCost) :
  s.costs v a < infCost := by
 by_cases hr : v = (s.edges edge).rhs
 · subst hr
   simp only [sweep, update_self] at h
   exact lt_of_rowCosts_lt _ _ _ _ _ h
 · by_cases hl : v = (s.edges edge).lhs
   · subst hl
     simp only [sweep, update_of_ne hr, update_self] at h
     exact lt_of_rowCosts_lt _ _ _ _ _ h
   · rwa [sweep_costs_of_not_touches s fun ht =>
      ht.elim (fun e => hl e.symm) fun e => hr e.symm] at h

theorem charge_costs_lt {hole : Option Nat} (h : WF s hole) {l r : Nat} (delta : Matrix)
  (hl : l ∈ s.alive) (hr : r ∈ s.alive) (hne : l ≠ r) {v a : Nat}
  (hlt : (s.charge l r delta).costs v a < infCost) : s.costs v a < infCost := by
 obtain ⟨t, edge, heq, hwf, -, hlive, -, hcase⟩ := charge_cases h l r delta hl hr hne
 rw [heq, normalize_costs hwf hlive] at hlt
 have ht := sweep_costs_lt t hlt
 rcases hcase with ⟨d, rfl, -, -⟩ | ⟨rfl, -⟩
 · exact ht
 · exact ht

/-! ## RM -/

/-- What the two ends of an edge and the edge cost is part of the total. -/
theorem pair_le_total (hinv : Inv s) (hnode : node ∈ s.alive) (hmem : edge ∈ s.adjacency node) (x : Nat → Nat) :
  s.costs node (x node) + (s.cost edge node (x node) (x (s.other edge node)) +
   s.costs (s.other edge node) (x (s.other edge node))) ≤ s.total x := by
 obtain ⟨hlive, htouch, -, hnb, hnbne⟩ := adjacent_facts hinv hmem
 have hnodes := pair_le_sum (g := fun v => s.costs v (x v)) hnode hnb hnbne.symm
 have hedges := Finset.single_le_sum (f := fun e => (s.edges e).term x) (fun _ _ => Nat.zero_le _)
  (Finset.mem_range.2 (hinv.wf.edge_lt edge hlive))
 have hterm : (s.edges edge).term x = s.cost edge node (x node) (x (s.other edge node)) := by
  rw [cost_at htouch]
  exact if_pos hlive
 simp only [total, nodeSum, edgeSum]
 omega

/-- The neighbor `nb` across `edge` is being merged into `node`: beside a finite alternative of the
node no alternative of the neighbor but the implied one is finite. -/
structure Merging (s : Solver) (node edge nb : Nat) (implied : Nat → Nat) : Prop where
 inv : Inv s
 node_alive : node ∈ s.alive
 mem : edge ∈ s.adjacency node
 other : s.other edge node = nb
 only : ∀ own, own < s.arity node → s.costs node own < infCost → ∀ alt, alt < s.arity nb →
  s.cost edge node own alt + s.costs nb alt < infCost → alt = implied own

theorem implied_only (h : s.implied node edge = some implied) {own : Nat} (hrng : own < s.arity node)
  (hown : s.costs node own < infCost) {alt : Nat} (halt : alt < s.arity (s.other edge node))
  (hfin : s.cost edge node own alt + s.costs (s.other edge node) alt < infCost) :
  alt = implied own := by
 simp only [Solver.implied] at h
 split at h
 · exact absurd h (some_ne_none implied).symm
 · rename_i hamb
   cases h
   have hmem : alt ∈ s.supports node edge own := by
    simp only [supports, mem_filter, mem_range, decide_eq_true_eq, add_eq_cap,
     cap_lt_iff]
    exact ⟨halt, hfin⟩
   have hlen : (s.supports node edge own).length ≤ 1 := by
    by_contra hlong
    apply hamb
    refine List.any_eq_true.2 ⟨own, mem_range.2 hrng, ?_⟩
    grind
   match hsup : s.supports node edge own with
   | [] =>
    grind
   | [a] =>
    grind
   | a :: b :: l =>
    grind

namespace Merging

variable {s : Solver} {node edge nb : Nat} {implied : Nat → Nat} (h : Merging s node edge nb implied)

include h

theorem edge_facts : (s.edges edge).live = true ∧ (s.edges edge).touches node ∧
  (s.edges edge).lhs ≠ (s.edges edge).rhs ∧ nb ∈ s.alive ∧ nb ≠ node ∧
  key node nb = key (s.edges edge).lhs (s.edges edge).rhs := by
 obtain ⟨hlive, htouch, hne, hnb, hnbne⟩ := adjacent_facts h.inv h.mem
 have hkey := key_other htouch
 rw [h.other] at hnb hnbne hkey
 exact ⟨hlive, htouch, hne, hnb, hnbne, hkey⟩

/-- An assignment that gives the neighbor another alternative costs infinity. -/
theorem implied_or_inf {x : Nat → Nat} (hx : s.InRange x) : x nb = implied (x node) ∧ s.costs node (x node) < infCost ∨
   infCost ≤ s.costs node (x node) + (s.cost edge node (x node) (x nb) + s.costs nb (x nb)) := by
 obtain ⟨-, -, -, hnb, -, -⟩ := h.edge_facts
 by_cases hown : s.costs node (x node) < infCost
 · by_cases hpair : s.cost edge node (x node) (x nb) + s.costs nb (x nb) < infCost
   · left
     refine ⟨?_, hown⟩
     exact h.only _ (hx _ (h.inv.wf.alive_lt _ h.node_alive)) hown _
      (hx _ (h.inv.wf.alive_lt _ hnb)) hpair
   · right
     omega
 · right
   omega

variable {far : Nat} (hfar : far ∈ s.adjacency nb) (hne : far ≠ edge)

include hfar hne

theorem far_facts : (s.edges far).live = true ∧ (s.edges far).touches nb ∧
  s.other far nb ∈ s.alive ∧ s.other far nb ≠ nb ∧ s.other far nb ≠ node := by
 obtain ⟨hlive, htouch, -, htgt, htargetne⟩ := adjacent_facts h.inv hfar
 obtain ⟨helive, -, -, -, -, hkey⟩ := h.edge_facts
 refine ⟨hlive, htouch, htgt, htargetne, fun htn => hne ?_⟩
 refine h.inv.wf.edge_unique hlive helive ?_
 rw [← key_other htouch, htn, key_comm, hkey]

theorem moveFar_wf : WF (s.moveFar node nb far implied) ∧ Ext s (s.moveFar node nb far implied) := by
 obtain ⟨hlive, -, htgt, -, htn⟩ := h.far_facts hfar hne
 have hext := unlink_ext h.inv.wf hlive
 have hnode : node ∈ (s.unlink far).alive := by
  rw [hext.alive]
  exact h.node_alive
 have htgt' : s.other far nb ∈ (s.unlink far).alive := by
  rw [hext.alive]
  exact htgt
 have hwf := unlink_wf h.inv.wf hlive
 exact ⟨charge_wf hwf _ hnode htgt' htn.symm,
  hext.trans (charge_ext hwf _ hnode htgt' htn.symm)⟩

theorem moveFar_total {x : Nat → Nat} (hx : s.InRange x) :
  cap ((s.moveFar node nb far implied).total x) = cap (s.total x) := by
 obtain ⟨hlive, htouch, htgt, -, htn⟩ := h.far_facts hfar hne
 have hext := unlink_ext h.inv.wf hlive
 have hwf := unlink_wf h.inv.wf hlive
 have hcharge := charge_total hwf (hx.congr hext.count hext.arity)
  (s.impliedDelta node nb far implied) (hext.alive ▸ h.node_alive) (hext.alive ▸ htgt) htn.symm
 have hunlink := unlink_total h.inv.wf hlive x
 rw [← cost_at htouch] at hunlink
 have hmove : s.moveFar node nb far implied =
   (s.unlink far).charge node (s.other far nb) (s.impliedDelta node nb far implied) := rfl
 rw [hmove, hcharge]
 rcases h.implied_or_inf hx with ⟨himp, hown⟩ | hinf
 · have hdelta : s.impliedDelta node nb far implied (x node) (x (s.other far nb)) =
     s.cost far nb (x nb) (x (s.other far nb)) := by
    simp [impliedDelta, if_pos hown, himp]
   rw [hdelta, hunlink]
 · -- both totals hold the infinite pair
   have hpair : s.costs node (x node) + (s.cost edge node (x node) (x nb) + s.costs nb (x nb)) ≤
     (s.unlink far).total x := by
    have hedge : (s.unlink far).edges edge = s.edges edge :=
     unlink_edge_of_ne h.inv.wf hlive hne.symm
    have hmem : edge ∈ (s.unlink far).adjacency node :=
     (unlink_mem_adjacency h.inv.wf hlive edge node).2 ⟨hne.symm, h.mem⟩
    have hle := pair_le_total (h.inv.ext hext hwf) (hext.alive ▸ h.node_alive) hmem x
    have hother : (s.unlink far).other edge node = nb := by
     rw [← h.other]
     simp [Solver.other, hedge]
    have hcost : (s.unlink far).cost edge node (x node) (x nb) =
      s.cost edge node (x node) (x nb) := by
     simp [cost, hedge]
    rw [hother, hcost, unlink_costs h.inv.wf hlive] at hle
    exact hle
   rw [cap_of_le, cap_of_le] <;> omega

/-- The edge between the two nodes and the neighbor's other edges stay as they are. -/
theorem moveFar_edge {e : Nat} (he : e ∈ s.adjacency nb) (hefar : e ≠ far) :
  (s.moveFar node nb far implied).edges e = s.edges e := by
 obtain ⟨hlive, -, htgt, htnb, htn⟩ := h.far_facts hfar hne
 obtain ⟨-, -, -, -, hnbne, -⟩ := h.edge_facts
 have hext := unlink_ext h.inv.wf hlive
 have hwf := unlink_wf h.inv.wf hlive
 have hsame : (s.unlink far).edges e = s.edges e := unlink_edge_of_ne h.inv.wf hlive hefar
 obtain ⟨helive, htouch⟩ := (h.inv.wf.mem_adjacency e nb).1 he
 have hlt : e < (s.unlink far).edgeCount := by
  rw [unlink_edgeCount h.inv.wf hlive]
  exact h.inv.wf.edge_lt e helive
 have hkey : key ((s.unlink far).edges e).lhs ((s.unlink far).edges e).rhs ≠
   key node (s.other far nb) := by
  rw [hsame]
  intro hkey
  rcases key_eq_iff.1 hkey with ⟨hl, hr⟩ | ⟨hl, hr⟩
  · rcases htouch with htouch | htouch
    · exact hnbne (htouch.symm.trans hl)
    · exact htnb (hr.symm.trans htouch)
  · rcases htouch with htouch | htouch
    · exact htnb (hl.symm.trans htouch)
    · exact hnbne (htouch.symm.trans hr)
 exact (charge_edge_of_key_ne hwf (s.impliedDelta node nb far implied)
  (hext.alive ▸ h.node_alive) (hext.alive ▸ htgt) htn.symm hlt hkey).trans hsame

theorem moveFar_adjacency (e : Nat) :
  e ∈ (s.moveFar node nb far implied).adjacency nb ↔ e ≠ far ∧ e ∈ s.adjacency nb := by
 obtain ⟨hwf', -⟩ := h.moveFar_wf hfar hne
 constructor
 · intro he
   obtain ⟨hlive, -, htgt, htnb, htn⟩ := h.far_facts hfar hne
   obtain ⟨-, -, -, -, hnbne, -⟩ := h.edge_facts
   have hext := unlink_ext h.inv.wf hlive
   obtain ⟨helive, htouch⟩ := (hwf'.mem_adjacency e nb).1 he
   rcases charge_edges (unlink_wf h.inv.wf hlive) (s.impliedDelta node nb far implied)
    (hext.alive ▸ h.node_alive) (hext.alive ▸ htgt) htn.symm e with hsame | hkey
   · have hsame' : (s.moveFar node nb far implied).edges e = (s.unlink far).edges e := hsame
     rw [hsame'] at helive htouch
     exact (unlink_mem_adjacency h.inv.wf hlive e nb).1
      (((unlink_wf h.inv.wf hlive).mem_adjacency e nb).2 ⟨helive, htouch⟩)
   · -- the charged edge does not touch the neighbor
     exfalso
     rcases key_eq_iff.1 hkey with ⟨hl, hr⟩ | ⟨hl, hr⟩
     · rcases htouch with htouch | htouch
       · exact hnbne (htouch.symm.trans hl)
       · exact htnb (hr.symm.trans htouch)
     · rcases htouch with htouch | htouch
       · exact htnb (hl.symm.trans htouch)
       · exact hnbne (htouch.symm.trans hr)
 · rintro ⟨hefar, he⟩
   rw [hwf'.mem_adjacency, h.moveFar_edge hfar hne he hefar, ← h.inv.wf.mem_adjacency]
   exact he

theorem moveFar_merging : Merging (s.moveFar node nb far implied) node edge nb implied := by
 obtain ⟨hwf', hext'⟩ := h.moveFar_wf hfar hne
 obtain ⟨hlive, -, htgt, htnb, htn⟩ := h.far_facts hfar hne
 obtain ⟨helive, htouch, -, -, hnbne, -⟩ := h.edge_facts
 have hedgenb : edge ∈ s.adjacency nb := by
  refine (h.inv.wf.mem_adjacency edge nb).2 ⟨helive, ?_⟩
  rw [← h.other]
  exact other_touches
 have hedge := h.moveFar_edge hfar hne hedgenb hne.symm
 have hext := unlink_ext h.inv.wf hlive
 have hwf := unlink_wf h.inv.wf hlive
 refine ⟨h.inv.ext hext' hwf', ?_, ?_, ?_, ?_⟩
 · rw [hext'.alive]
   exact h.node_alive
 · rw [hwf'.mem_adjacency, hedge]
   exact ⟨helive, htouch⟩
 · refine Eq.trans ?_ h.other
   simp [Solver.other, hedge]
 · intro own hrng hown alt halt hfin
   have hcosts : (s.moveFar node nb far implied).costs nb = s.costs nb := by
    refine (charge_costs_of_ne hwf (s.impliedDelta node nb far implied)
     (hext.alive ▸ h.node_alive) (hext.alive ▸ htgt) htn.symm hnbne htnb.symm).trans ?_
    rw [unlink_costs h.inv.wf hlive]
   have hown' : s.costs node own < infCost := by
    have hlt := charge_costs_lt hwf (s.impliedDelta node nb far implied)
     (hext.alive ▸ h.node_alive) (hext.alive ▸ htgt) htn.symm hown
    rwa [unlink_costs h.inv.wf hlive] at hlt
   rw [hext'.arity] at hrng halt
   refine h.only own hrng hown' alt halt ?_
   rw [hcosts] at hfin
   simpa only [cost, hedge] using hfin

end Merging

/-- What moving an edge keeps holds once every edge but the one between the two is moved. -/
theorem mergeFold (hP : ∀ t far, Merging t node edge nb implied → far ∈ t.adjacency nb → far ≠ edge → P t →
   P (t.moveFar node nb far implied)) (edges : List Nat) :
  ∀ s, Merging s node edge nb implied → edges.Nodup → (∀ e ∈ edges, e ∈ s.adjacency nb) →
   (∀ e ∈ s.adjacency nb, e ∈ edges ∨ e = edge) → P s →
   ∃ t, edges.foldl (fun s far => if far = edge then s else s.moveFar node nb far implied) s = t ∧
    Merging t node edge nb implied ∧ P t ∧ t.adjacency nb = [edge] := by
 induction edges with
 | nil =>
  intro s h _ _ hleft hs
  refine ⟨s, rfl, h, hs, ?_⟩
  obtain ⟨helive, -, -, -, -, -⟩ := h.edge_facts
  have hmem : edge ∈ s.adjacency nb := by
   refine (h.inv.wf.mem_adjacency edge nb).2 ⟨helive, ?_⟩
   rw [← h.other]
   exact other_touches
  have hall : ∀ e ∈ s.adjacency nb, e = edge := fun e he =>
   (hleft e he).resolve_left not_mem_nil
  -- a list without repetition whose elements are all `edge`
  exact perm_singleton.1
   ((perm_ext_iff_of_nodup (h.inv.wf.adjacency_nodup nb) (nodup_singleton edge)).2
     fun e => ⟨fun he => mem_singleton.2 (hall e he), fun he =>
      mem_singleton.1 he ▸ hmem⟩)
 | cons far rest ih =>
  intro s h hnd hsub hleft hs
  obtain ⟨hnotin, hnd'⟩ := nodup_cons.1 hnd
  rw [foldl_cons]
  by_cases hfar : far = edge
  · rw [if_pos hfar]
    refine ih s h hnd' (fun e he => hsub e (mem_cons_of_mem far he)) ?_ hs
    intro e he
    rcases hleft e he with hmem | hmem
    · rcases mem_cons.1 hmem with rfl | hmem
      · exact .inr hfar
      · exact .inl hmem
    · exact .inr hmem
  · rw [if_neg hfar]
    have hmem := hsub far (.head _)
    have hadj := h.moveFar_adjacency hmem hfar
    refine ih _ (h.moveFar_merging hmem hfar) hnd' ?_ ?_ (hP s far h hmem hfar hs)
    · grind
    grind

/-- The merge found by the scan: the neighbor's edges moved one by one, then R1. -/
theorem mergeOne_induct (h : Merging s node edge nb implied) (hs : P s)
  (hP : ∀ t far, Merging t node edge nb implied → far ∈ t.adjacency nb → far ≠ edge → P t →
   P (t.moveFar node nb far implied)) : ∃ t, Merging t node edge nb implied ∧ P t ∧ t.adjacency nb = [edge] ∧
   s.mergeOne node edge implied = t.reduceOne nb := by
 obtain ⟨t, hfold, hmerge, ht, hadj⟩ := mergeFold hP (s.adjacency nb) s h
  (h.inv.wf.adjacency_nodup nb) (fun e he => he) (fun e he => .inl he) hs
 refine ⟨t, hmerge, ht, hadj, ?_⟩
 obtain ⟨-, -, -, hnb, -, -⟩ := hmerge.edge_facts
 simp only [mergeOne, h.other, hfold]
 rw [if_pos ⟨hnb, by rw [hadj]; rfl⟩]

theorem mergeOne_exact (h : Merging s node edge nb implied) :
  Inv (s.mergeOne node edge implied) ∧ Exact s 0 (s.mergeOne node edge implied) := by
 obtain ⟨t, hmerge, hexact, hadj, heq⟩ := mergeOne_induct (P := fun t => Exact s 0 t) h
  (Exact.refl h.inv) fun t far ht hfar hne hexact => by
   obtain ⟨-, hext⟩ := ht.moveFar_wf hfar hne
   exact hexact.trans (Exact.of_ext ht.inv hext fun x hx => ht.moveFar_total hfar hne hx)
 obtain ⟨-, -, -, hnb, -, -⟩ := hmerge.edge_facts
 obtain ⟨hinv, hone⟩ := reduceOne_exact hmerge.inv hnb nofun hadj
 rw [heq]
 exact ⟨hinv, hexact.trans hone⟩

theorem findImplied_merging (hinv : Inv s) (hnode : node ∈ s.alive) (h : s.findImplied node = some (edge, implied)) :
  Merging s node edge (s.other edge node) implied := by
 obtain ⟨e, he, hfound⟩ := exists_of_findSome?_eq_some h
 split at hfound
 · obtain ⟨imp, himp, heq⟩ := map_eq_some_iff.1 hfound
   cases heq
   exact ⟨hinv, hnode, he, rfl, fun own hrng hown alt halt hfin =>
    implied_only himp hrng hown halt hfin⟩
 · exact absurd hfound (some_ne_none _).symm

theorem mergeOne_alive (h : Merging s node edge nb implied) :
  (s.mergeOne node edge implied).alive = s.alive.erase nb ∧ nb ∈ s.alive := by
 obtain ⟨t, -, halive, hadj, heq⟩ := mergeOne_induct (P := fun t => t.alive = s.alive) h rfl
  fun t far ht hfar hne halive => by
   obtain ⟨-, hext⟩ := ht.moveFar_wf hfar hne
   exact hext.alive.trans halive
 obtain ⟨-, -, -, hnb, -, -⟩ := h.edge_facts
 grind [reduceOne_alive]

/-- What every merge keeps holds after `mergeImplied`. -/
theorem mergeLoop_induct (hP : ∀ t edge implied, Merging t node edge (t.other edge node) implied → P t →
   P (t.mergeOne node edge implied)) (fuel : Nat) :
  ∀ s, Inv s → P s → Inv (mergeLoop fuel s node) ∧ P (mergeLoop fuel s node) := by
 induction fuel with
 | zero => exact fun s hinv hs => ⟨hinv, hs⟩
 | succ fuel ih =>
  intro s hinv hs
  simp only [mergeLoop]
  split
  · grind [findImplied_merging, mergeOne_exact]
  · exact ⟨hinv, hs⟩

theorem mergeImplied_exact (hinv : Inv s) (node : Nat) : Inv (s.mergeImplied node) ∧ Exact s 0 (s.mergeImplied node) :=
 mergeLoop_induct (P := fun t => Exact s 0 t)
  (fun _ _ _ hmerge hexact => hexact.trans (mergeOne_exact hmerge).2) _ s hinv (Exact.refl hinv)

/-- A merge that changes anything takes a node out of the graph. -/
theorem mergeImplied_alive (hinv : Inv s) (node : Nat) : s.mergeImplied node = s ∨
   (s.mergeImplied node).alive ⊆ s.alive ∧ (s.mergeImplied node).alive.card < s.alive.card := by
 refine (mergeLoop_induct (P := fun t => t = s ∨ t.alive ⊆ s.alive ∧ t.alive.card < s.alive.card)
  ?_ _ s hinv (.inl rfl)).2
 intro t edge implied hmerge ht
 obtain ⟨halive, hnb⟩ := mergeOne_alive hmerge
 have hcard := Finset.card_erase_lt_of_mem hnb
 right
 rw [halive]
 rcases ht with rfl | ⟨hsub, hlt⟩
 · exact ⟨Finset.erase_subset _ _, hcard⟩
 · exact ⟨(Finset.erase_subset _ _).trans hsub, hcard.trans hlt⟩

/-! ## RN -/

/-- The edges of `edges` are those `node` still has. -/
structure Settling (s : Solver) (node : Nat) (edges : List Nat) : Prop where
 inv : Inv s
 alive : node ∈ s.alive
 nodup : edges.Nodup
 mem_iff : ∀ e, e ∈ s.adjacency node ↔ e ∈ edges

section Settle

variable {s : Solver} {node edge : Nat} {rest : List Nat} (choice : Nat) (h : Settling s node (edge :: rest))

include h

theorem settle_facts : Inv (s.settle node choice edge) ∧ Ext s (s.settle node choice edge) ∧
  Settling (s.settle node choice edge) node rest := by
 have hmem : edge ∈ s.adjacency node := (h.mem_iff edge).2 (.head _)
 obtain ⟨hlive, htouch, -, hnb, -⟩ := adjacent_facts h.inv hmem
 have hwf := unlink_wf h.inv.wf hlive
 have hext := unlink_ext h.inv.wf hlive
 obtain ⟨hwf', hext', hedges⟩ := chargeNode_facts hwf (hext.alive ▸ hnb)
  fun alt => s.cost edge node choice alt
 have hinv := h.inv.ext (hext.trans hext') hwf'
 refine ⟨hinv, hext.trans hext', hinv, ?_, (nodup_cons.1 h.nodup).2, fun e => ?_⟩
 · have halive : (s.settle node choice edge).alive = s.alive := (hext.trans hext').alive
   rw [halive]
   exact h.alive
 · have hmem' : e ∈ (s.settle node choice edge).adjacency node ↔
     e ∈ (s.unlink edge).adjacency node := by
    obtain ⟨hl, hr, hlv, hsame⟩ := hedges e
    rw [hwf.mem_adjacency]
    refine (hwf'.mem_adjacency e node).trans ⟨?_, ?_⟩
    · rintro ⟨he, ht⟩
      refine ⟨hlv he, ?_⟩
      rwa [Edge.touches, hl, hr] at ht
    · rintro ⟨he, ht⟩
      -- an edge of the node that also touches the neighbor would be the one removed
      have hnot : ¬ ((s.unlink edge).edges e).touches (s.other edge node) := by
       obtain ⟨he0, hne⟩ := (unlink_live h.inv.wf hlive e).1 he
       rw [unlink_edge_of_ne h.inv.wf hlive hne] at ht ⊢
       intro ht'
       refine hne (h.inv.wf.edge_unique he0 hlive ?_)
       rw [← key_other htouch]
       have hnbne : s.other edge node ≠ node := other_ne (h.inv.wf.ends_ne edge hlive)
       rcases ht with ht | ht
       · rcases ht' with ht' | ht'
         · exact absurd (ht'.symm.trans ht) hnbne
         · rw [ht, ht']
       · rcases ht' with ht' | ht'
         · rw [ht, ht', key_comm]
         · exact absurd (ht'.symm.trans ht) hnbne
      grind
   rw [hmem', unlink_mem_adjacency h.inv.wf hlive, h.mem_iff, mem_cons]
   constructor
   · rintro ⟨hne, rfl | he⟩
     · exact absurd rfl hne
     · exact he
   · intro he
     refine ⟨?_, .inr he⟩
     rintro rfl
     exact (nodup_cons.1 h.nodup).1 he

/-- Settling an edge keeps the totals of the assignments with the choice. -/
theorem settle_total {x : Nat → Nat} (hx : s.InRange x) (hchoice : x node = choice) :
  cap ((s.settle node choice edge).total x) = cap (s.total x) := by
 have hmem : edge ∈ s.adjacency node := (h.mem_iff edge).2 (.head _)
 obtain ⟨hlive, htouch, -, hnb, -⟩ := adjacent_facts h.inv hmem
 have hext := unlink_ext h.inv.wf hlive
 have hcharge := chargeNode_total (unlink_wf h.inv.wf hlive) (hx.congr hext.count hext.arity)
  (hext.alive ▸ hnb) fun alt => s.cost edge node choice alt
 have hunlink := unlink_total h.inv.wf hlive x
 rw [← cost_at htouch, hchoice] at hunlink
 refine hcharge.trans ?_
 rw [hunlink]

end Settle

/-- What settling an edge keeps holds once all are settled. -/
theorem settleFold {choice : Nat}
  (hP : ∀ t edge rest, Settling t node (edge :: rest) → P t → P (t.settle node choice edge))
  (edges : List Nat) : ∀ s, Settling s node edges → P s →
   Settling (edges.foldl (fun s edge => s.settle node choice edge) s) node [] ∧
    P (edges.foldl (fun s edge => s.settle node choice edge) s) := by
 induction edges with
 | nil => exact fun s h hs => ⟨h, hs⟩
 | cons edge rest ih =>
  grind [settle_facts]

theorem reframe_settle (s : Solver) (A : Finset Nat) (C : Nat → Nat) (node choice edge : Nat) :
  (s.reframe A C).settle node choice edge = (s.settle node choice edge).reframe A C := by
 simp only [settle]
 rw [reframe_unlink]
 exact reframe_chargeNode _ A C _ _

/-- A decision settles the node's edges and takes the node out with its choice. -/
theorem decide_eq (s : Solver) (node : Nat) : s.decide node = ((s.adjacency node).foldl
    (fun t edge => t.settle node (s.localChoice node) edge) s).reframe (s.alive.erase node)
   (update s.choices node (s.localChoice node)) := by
 have hcomm : ∀ (edges : List Nat) (t : Solver),
   edges.foldl (fun t edge => t.settle node (s.localChoice node) edge)
    (t.reframe (s.alive.erase node) (update s.choices node (s.localChoice node))) =
   (edges.foldl (fun t edge => t.settle node (s.localChoice node) edge) t).reframe
    (s.alive.erase node) (update s.choices node (s.localChoice node)) := by
  intro edges
  induction edges with
  | nil => exact fun t => rfl
  | cons edge rest ih =>
   grind [reframe_settle]
 exact hcomm (s.adjacency node) s

variable (hinv : Inv s) (hnode : node ∈ s.alive)

include hinv hnode

theorem settling_start : Settling s node (s.adjacency node) :=
 ⟨hinv, hnode, hinv.wf.adjacency_nodup node, fun _ => Iff.rfl⟩

theorem localChoice_lt : s.localChoice node < s.arity node :=
 (argminBelow_spec (hinv.wf.arity_pos _ (hinv.wf.alive_lt _ hnode)) _).1

/-- The state a decision leaves, with the state before the node is taken out. -/
theorem decide_cases (hs : P s) (hP : ∀ t edge rest, Settling t node (edge :: rest) → P t →
   P (t.settle node (s.localChoice node) edge)) : ∃ t, Inv t ∧ Ext s t ∧ t.adjacency node = [] ∧ P t ∧
   s.decide node = t.reframe (s.alive.erase node)
    (update s.choices node (s.localChoice node)) := by
 obtain ⟨hsettled, hext, ht⟩ := settleFold (P := fun t => Ext s t ∧ P t)
  (fun t edge rest hset ⟨hext, ht⟩ =>
   ⟨hext.trans (settle_facts _ hset).2.1, hP t edge rest hset ht⟩)
  (s.adjacency node) s (settling_start hinv hnode) ⟨Ext.refl s, hs⟩
 refine ⟨_, hsettled.inv, hext, ?_, ht, decide_eq s node⟩
 exact eq_nil_iff_forall_not_mem.2 fun e he =>
  not_mem_nil ((hsettled.mem_iff e).1 he)

/-- RN answers what the state before it answers, for the assignments with its choice. -/
theorem decide_sim : Inv (s.decide node) ∧ (s.decide node).alive = s.alive.erase node ∧
   ∃ k, Sim s k (s.decide node) ∧ ∀ x, s.InRange x → x node = s.localChoice node →
    cap (k + (s.decide node).total x) = cap (s.total x) := by
 set c := s.localChoice node with hc
 have hlt : c < s.arity node := localChoice_lt hinv hnode
 obtain ⟨t, hinvt, hext, hempty, htotal, heq⟩ := decide_cases hinv hnode
  (P := fun t => t.count = s.count ∧ t.arity = s.arity ∧ ∀ x, s.InRange x → x node = c →
   cap (t.total x) = cap (s.total x)) ⟨rfl, rfl, fun _ _ _ => rfl⟩
  fun t edge rest hset ⟨hcnt, harity, ht⟩ => by
   obtain ⟨-, hext, -⟩ := settle_facts c hset
   refine ⟨hext.count.trans hcnt, hext.arity.trans harity, fun x hx hxc => ?_⟩
   rw [settle_total c hset (hx.congr hcnt harity) hxc]
   exact ht x hx hxc
 rw [heq]
 set s' := t.reframe (s.alive.erase node) (update s.choices node c) with hs'
 have hchoices : ∀ v, v ≠ node → s'.choices v = s.choices v := fun v hv =>
  update_of_ne hv _ _
 have hwf : WF s' := by
  have hkill : WF (t.kill node) := kill_wf hinvt.wf hempty nofun
  exact hkill.congr rfl rfl rfl rfl rfl (congrArg (Finset.erase · node) hext.alive.symm)
   (Subset.refl _) fun _ => ⟨rfl, rfl, rfl⟩
 have hdead : ReducedDead s' := by
  intro r hr
  obtain ⟨hnot, hedges⟩ := hinvt.dead r hr
  refine ⟨fun hmem => hnot ?_, hedges⟩
  rw [hext.alive]
  exact Finset.mem_of_mem_erase hmem
 have hval : ∀ x, s.InRange x → x node = c →
   cap (t.costs node c + s'.total x) = cap (s.total x) := by
  intro x hx hxc
  have hkill := kill_total (hext.alive ▸ hnode : node ∈ t.alive) x
  have hsame : s'.total x = (t.kill node).total x := by
   simp only [total, nodeSum, edgeSum]
   congr 1
   exact Finset.sum_congr (congrArg (Finset.erase · node) hext.alive.symm) fun _ _ => rfl
  rw [← htotal.2.2 x hx hxc, hkill, hsame, hxc, add_comm]
 refine ⟨⟨hwf, hdead, ?_⟩, rfl, t.costs node c, ⟨hext.count, hext.arity,
  Finset.erase_subset _ _, ?_⟩, hval⟩
 · intro v hv
   have hv' : v < s.count := hext.count ▸ hv
   change update s.choices node c v < t.arity v
   rw [hext.arity]
   by_cases hvn : v = node
   · grind
   · rw [update_of_ne hvn]
     exact hinv.range v hv'
 · intro x hx hagree
   have hxc : x node = c := by
    rw [hagree node (Finset.notMem_erase node s.alive)]
    exact update_self _ _ _
   refine ⟨x, hx, ?_, ?_, hval x hx hxc⟩
   · intro v hv
     have hvn : v ≠ node := by
      rintro rfl
      exact hv hnode
     rw [hagree v (fun hmem => hv (Finset.mem_of_mem_erase hmem)), hchoices v hvn]
   · have hreduced : s'.reduced = s.reduced := hext.reduced
     rw [backPropagate, hreduced]
     exact backPropagate_congr hinv.dead hext.arity hext.dead_costs hext.dead_edge x

end Solver

end Tir.Pbqp
