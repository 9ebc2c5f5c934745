import Tir.Pbqp.Consistent
import Tir.Pbqp.Optimal

/-!
# Feasibility along an elimination order

A state is extendable (`Extendable`) when every assignment that is consistent below a position
extends, beyond that position, to one of finite total. The reductions keep this in any order
(`reduceStep_extendable`, `mergeImplied_extendable`): what is consistent after a step lifts to the state
before it, and the step loses no finite assignment. A decision keeps it when it is made at the first
node left (`decide_extendable`), for then the choice alone is consistent below the next position.

For the interference graph of a program in SSA form, listed so that fewer than `k` interference
neighbors of a node come before it, the first state is extendable by coloring greedily, and hence
`solve` finds a finite choice for every node (`solve_feasible`).
-/

open List Option Function

namespace Tir.Pbqp

open Reduced Solver

namespace Solver

variable {pos : Nat → Nat}

/-- Every assignment consistent below a position extends to a finite one. -/
def Extendable (pos : Nat → Nat) (k : Nat) (s : Solver) : Prop :=
 ∀ t x, s.InRange x → OkBelow s pos t x →
  ∃ y, s.InRange y ∧ (∀ v ∈ s.alive, pos v < t → y v = x v) ∧ k + s.total y < infCost

/-- What is consistent in `s'` lifts to `s`. -/
def Lifts (pos : Nat → Nat) (s s' : Solver) : Prop :=
 ∀ t x, s.InRange x → OkBelow s' pos t x →
  ∃ y, s.InRange y ∧ OkBelow s pos t y ∧ ∀ v ∈ s'.alive, pos v < t → y v = x v

namespace Extendable

variable {s s' : Solver} {k k' : Nat}

theorem finite (h : Extendable pos k s) (hinv : Inv s) :
  ∃ y, s.InRange y ∧ k + s.total y < infCost := by
 obtain ⟨y, hy, -, hlt⟩ := h 0 s.choices hinv.range
  ⟨nofun, nofun⟩
 exact ⟨y, hy, hlt⟩

/-- An exact step through which consistency lifts keeps extendability. -/
theorem step (h : Extendable pos k s) (hlifts : Lifts pos s s') (hexact : Exact s k' s') :
  Extendable pos (k + k') s' := by
 intro t x hx hok
 have hx' : s.InRange x := hx.congr hexact.count.symm hexact.arity.symm
 obtain ⟨y, hy, hoky, hagree⟩ := hlifts t x hx' hok
 obtain ⟨z, hz, hagree', hlt⟩ := h t y hy hoky
 refine ⟨z, hz.congr hexact.count hexact.arity, fun v hv hpos => ?_, ?_⟩
 · rw [hagree' v (hexact.alive hv) hpos, hagree v hv hpos]
 · have hle := cap_add_mono (hexact.low z hz) k
   rw [← cap_lt_iff, add_assoc]
   rw [← cap_lt_iff] at hlt
   omega

end Extendable

/-! ## The reductions -/

section Reductions

variable {s : Solver} {hole : Option Nat} (hinv : Inv s hole) {node : Nat}
 (hnode : node ∈ s.alive) (hhole : ∀ v, hole = some v → v = node)
 {y : Nat → Nat} (hy : s.InRange y) (hfin : s.total y < infCost)

theorem InRange.update {x : Nat → Nat} (hx : s.InRange x) {own : Nat}
  (hown : own < s.arity node) : s.InRange (update x node own) := by
 intro v hv
 by_cases hvn : v = node
 · grind
 · rw [update_of_ne hvn]
   exact hx v hv

include hinv

/-- A node taken out may be given any alternative that is finite beside its neighbors below the
position. -/
theorem Taken.lifts_at {u : Solver} {r : Reduced} (h : Taken s r u) {t own : Nat} {x : Nat → Nat}
  (hx : s.InRange x) (hok : OkBelow u pos t x) (hown : own < s.arity r.parts.1)
  (hfinite : pos r.parts.1 < t → s.costs r.parts.1 own < infCost)
  (hedges : ∀ e ∈ r.parts.2, pos r.parts.1 < t → pos (s.other e r.parts.1) < t →
   s.cost e r.parts.1 own (x (s.other e r.parts.1)) < infCost) :
  ∃ y, s.InRange y ∧ OkBelow s pos t y ∧ ∀ v ∈ u.alive, pos v < t → y v = x v := by
 have hagree : ∀ v ∈ u.alive, update x r.parts.1 own v = x v := by
  intro v hv
  rw [h.alive] at hv
  simp_all
 refine ⟨update x r.parts.1 own, hx.update hown, ?_, fun v hv _ => hagree v hv⟩
 refine h.ok (okBelow_congr h.wf (fun v hv _ => (hagree v hv).symm) hok) ?_ ?_
 · grind
 · intro e he
   have hne := @other_ne s e r.parts.1 (hinv.wf.ends_ne e (h.left e he).1)
   grind

include hnode hhole hy hfin

theorem reduceZero_lifts (hadj : s.adjacency node = []) :
  Lifts pos s ((s.kill node).record (.r0 node)) := by
 intro t x hx hok
 have htaken := taken_zero hinv hnode hhole hadj
 refine htaken.lifts_at hinv hx hok (hy node (hinv.wf.alive_lt _ hnode)) ?_ ?_
 · exact fun _ => (costs_le_total hnode y).trans_lt hfin
 · nofun

theorem reduceOne_lifts {edge : Nat} (hadj : s.adjacency node = [edge]) :
  Lifts pos s (s.reduceOne node) := by
 intro t x hx hok
 have htaken := taken_one hinv hnode hhole hadj
 have hmem : edge ∈ s.adjacency node := by simp [hadj]
 obtain ⟨-, -, hne, hnb, hnbne⟩ := adjacent_facts hinv hmem
 have heq : s.reduceOne node = (((s.kill node).unlink edge).record (.r1 node edge)).chargeNode
   (s.other edge node) (s.throughOne node edge (s.other edge node)) := by
  simp [reduceOne, hadj]
 rw [heq] at hok ⊢
 generalize ((s.kill node).unlink edge).record (.r1 node edge) = u at htaken hok ⊢
 have hnbu : s.other edge node ∈ u.alive := by
  rw [htaken.alive]
  exact Finset.mem_erase.2 ⟨hnbne, hnb⟩
 have hext := chargeNode_ext htaken.wf hnbu (s.throughOne node edge (s.other edge node))
 obtain ⟨hoku, hdelta⟩ := chargeNode_ok htaken.wf (hx.congr htaken.count htaken.arity) hnbu _ hok
 rw [hext.alive]
 have hpos := hinv.wf.arity_pos node (hinv.wf.alive_lt _ hnode)
 by_cases hnbt : pos (s.other edge node) < t
 · -- the charge on the neighbor is finite, so some alternative of the node answers it
   obtain ⟨own, hown, hatt⟩ := minSum_attained hpos (s.costs node)
    fun own => s.cost edge (s.other edge node) (x (s.other edge node)) own
   have hlt : s.costs node own + s.cost edge (s.other edge node) (x (s.other edge node)) own <
     infCost := by
    rw [← cap_lt_iff, ← hatt]
    exact hdelta hnbt
   rw [cost_swap hne] at hlt
   have hlt' : s.costs node own < infCost := (Nat.le_add_right _ _).trans_lt hlt
   refine htaken.lifts_at hinv hx hoku hown (fun _ => hlt') fun e he _ _ => ?_
   obtain rfl : e = edge := by simpa [parts] using he
   exact (Nat.le_add_left _ _).trans_lt hlt
 · refine htaken.lifts_at hinv hx hoku (hy node (hinv.wf.alive_lt _ hnode)) ?_ ?_
   · exact fun _ => (costs_le_total hnode y).trans_lt hfin
   · intro e he _ hlt
     obtain rfl : e = edge := by simpa [parts] using he
     exact absurd hlt hnbt

theorem reduceTwo_lifts {first second : Nat} (hadj : s.adjacency node = [first, second]) :
  Lifts pos s (s.reduceTwo node) := by
 intro t x hx hok
 have htaken := taken_two hinv hnode hhole hadj
 have hlow := (reduceTwo_exact hinv hnode hhole hadj).2.low y hy
 have hmem1 : first ∈ s.adjacency node := by simp [hadj]
 have hmem2 : second ∈ s.adjacency node := by simp [hadj]
 obtain ⟨-, -, hne1, hleft, hleftne⟩ := adjacent_facts hinv hmem1
 obtain ⟨-, -, hne2, hright, hrightne⟩ := adjacent_facts hinv hmem2
 obtain ⟨-, hlr⟩ := two_neighbors hinv hadj
 set left := s.other first node with hl
 set right := s.other second node with hr
 have heq : s.reduceTwo node =
   ((((s.kill node).unlink first).unlink second).record (.r2 node first second)).charge left right
     (s.throughTwo node first second left right) := by
  simp [reduceTwo, hadj, hl, hr]
 rw [heq] at hok hlow ⊢
 generalize (((s.kill node).unlink first).unlink second).record (.r2 node first second) = u
  at htaken hok hlow ⊢
 have hleftu : left ∈ u.alive := by
  rw [htaken.alive]
  exact Finset.mem_erase.2 ⟨hleftne, hleft⟩
 have hrightu : right ∈ u.alive := by
  rw [htaken.alive]
  exact Finset.mem_erase.2 ⟨hrightne, hright⟩
 have hyu := hy.congr htaken.count htaken.arity
 have hfin' : (u.charge left right (s.throughTwo node first second left right)).total y <
   infCost := by
  rw [← cap_lt_iff] at hfin ⊢
  grind
 have hext := charge_ext htaken.wf (s.throughTwo node first second left right) hleftu hrightu hlr
 obtain ⟨hsupl, hsupr⟩ := charge_support htaken.wf (s.throughTwo node first second left right)
  hleftu hrightu hlr hyu hfin'
 obtain ⟨hoku, hdelta⟩ := charge_ok htaken.wf (hx.congr htaken.count htaken.arity) _ hleftu hrightu
  hlr hok
 rw [hext.alive]
 have hpos := hinv.wf.arity_pos node (hinv.wf.alive_lt _ hnode)
 -- an alternative of the node behind a finite entry of what was charged
 have hown : ∀ a b, s.throughTwo node first second left right a b < infCost →
   ∃ own, own < s.arity node ∧ s.costs node own < infCost ∧ s.cost first node own a < infCost ∧
    s.cost second node own b < infCost := by
  intro a b hlt
  obtain ⟨own, hown, hatt⟩ := minSum_attained hpos
   (fun own => add (s.cost first left a own) (s.costs node own))
   fun own => s.cost second right b own
  have hsum : add (s.cost first left a own) (s.costs node own) + s.cost second right b own <
    infCost := by
   rw [← cap_lt_iff, ← hatt]
   exact hlt
  rw [add_eq_cap, ← cap_lt_iff, cap_cap_add, cap_lt_iff, hl, hr, cost_swap hne1,
   cost_swap hne2] at hsum
  exact ⟨own, hown, by omega, by omega, by omega⟩
 have hfinish : ∀ a b, s.throughTwo node first second left right a b < infCost →
   (pos left < t → x left = a) → (pos right < t → x right = b) →
   ∃ z, s.InRange z ∧ OkBelow s pos t z ∧ ∀ v ∈ u.alive, pos v < t → z v = x v := by
  intro a b hlt ha hb
  obtain ⟨own, hown, hc, hc1, hc2⟩ := hown a b hlt
  refine htaken.lifts_at hinv hx hoku hown (fun _ => hc) fun e he _ hpose => ?_
  have hcases : e = first ∨ e = second := by simpa [parts] using he
  rcases hcases with rfl | rfl
  · change s.cost e node own (x left) < infCost
    rwa [ha hpose]
  · change s.cost e node own (x right) < infCost
    rwa [hb hpose]
 by_cases hpl : pos left < t
 · by_cases hpr : pos right < t
   · exact hfinish _ _ (hdelta hpl hpr) (fun _ => rfl) fun _ => rfl
   · obtain ⟨b, -, hlt⟩ := hsupl _ (hok.node left (hext.alive ▸ hleftu) hpl)
     exact hfinish _ b hlt (fun _ => rfl) fun h => absurd h hpr
 · by_cases hpr : pos right < t
   · obtain ⟨a, -, hlt⟩ := hsupr _ (hok.node right (hext.alive ▸ hrightu) hpr)
     exact hfinish a _ hlt (fun h => absurd h hpl) fun _ => rfl
   · refine htaken.lifts_at hinv hx hoku (hy node (hinv.wf.alive_lt _ hnode)) ?_ ?_
     · exact fun _ => (costs_le_total hnode y).trans_lt hfin
     · intro e he _ hlt
       have hcases : e = first ∨ e = second := by simpa [parts] using he
       rcases hcases with rfl | rfl
       · exact absurd hlt hpl
       · exact absurd hlt hpr

end Reductions

variable {k node t edge : Nat} {s : Solver} {implied : Nat → Nat} {ranked : List Nat}

/-- One turn of `reduce_optimally` keeps extendability. -/
theorem reduceStep_extendable {s' : Solver} (hinv : Inv s) (hs : Extendable pos k s)
  (h : s.reduceStep = some s') : Inv s' ∧ ∃ k', Exact s k' s' ∧ Extendable pos (k + k') s' := by
 obtain ⟨node, rest, hp, hcase⟩ := reduceStep_cases h
 have hpop := pop_inv hinv hp
 have hframe : Exact s 0 { s with pending := rest } :=
  Exact.of_ext hinv ⟨rfl, rfl, rfl, rfl, rfl, le_rfl, fun _ _ _ => rfl, fun _ _ => rfl⟩
   fun _ _ => rfl
 have hpopped : Extendable pos k { s with pending := rest } := fun t x hx hok =>
  hs t x hx ⟨hok.node, hok.edge⟩
 have hhole : ∀ v, some node = some v → v = node := fun v hv => (some.inj hv).symm
 obtain ⟨y, hy, hlt⟩ := hs.finite hinv
 have hfin : s.total y < infCost := (Nat.le_add_left _ _).trans_lt hlt
 rcases hcase with ⟨hskip, rfl⟩ | ⟨hmem, hadj, rfl⟩ | ⟨hmem, ⟨edge, hadj⟩, rfl⟩ |
  ⟨hmem, ⟨first, second, hadj⟩, rfl⟩
 · grind [drop_inv]
 · obtain ⟨hinv', hexact⟩ := reduceZero_exact hpop hmem hhole hadj
   have hlifts : Lifts pos _ _ := reduceZero_lifts hpop hmem hhole hy hfin hadj
   refine ⟨hinv', _, hframe.trans hexact, ?_⟩
   rw [zero_add]
   exact hpopped.step hlifts hexact
 · obtain ⟨hinv', hexact⟩ := reduceOne_exact hpop hmem hhole hadj
   exact ⟨hinv', _, hframe.trans hexact,
    hpopped.step (reduceOne_lifts hpop hmem hhole hy hfin hadj) hexact⟩
 · obtain ⟨hinv', hexact⟩ := reduceTwo_exact hpop hmem hhole hadj
   exact ⟨hinv', _, hframe.trans hexact,
    hpopped.step (reduceTwo_lifts hpop hmem hhole hy hfin hadj) hexact⟩

theorem reduceOptimally_extendable (hinv : Inv s) (hs : Extendable pos k s) : Inv s.reduceOptimally ∧
   ∃ k', Exact s k' s.reduceOptimally ∧ Extendable pos (k + k') s.reduceOptimally := by
 refine (reduceOptimally_induct (P := fun t => Inv t ∧ ∃ k', Exact s k' t ∧
  Extendable pos (k + k') t) ?_ ⟨hinv, 0, Exact.refl hinv, hs⟩).1
 rintro t t' hstep ⟨hinvt, k1, hexact1, ht⟩
 obtain ⟨hinv', k2, hexact2, ht'⟩ := reduceStep_extendable hinvt ht hstep
 refine ⟨hinv', k1 + k2, hexact1.trans hexact2, ?_⟩
 grind

/-! ## The merge -/

/-- The node comes before every other node left. -/
def First (pos : Nat → Nat) (s : Solver) (node : Nat) : Prop :=
 ∀ v ∈ s.alive, pos node ≤ pos v

/-- Below the first node's position every assignment is consistent. -/
theorem First.okBelow (h : First pos s node) (hinv : Inv s)
  (ht : t ≤ pos node) (x : Nat → Nat) : OkBelow s pos t x := by
 constructor
 · intro v hv hpos
   have hle := h v hv
   omega
 · intro e he hpos
   have hle := h _ (hinv.wf.ends_alive e he).1
   omega

/-- Moving an edge lifts the assignments that give the neighbor the implied alternative. -/
theorem moveFar_ok {nb far : Nat} (h : Merging s node edge nb implied) (hfar : far ∈ s.adjacency nb) (hne : far ≠ edge)
  {x : Nat → Nat} (hx : s.InRange x) (hpos : pos node < t) (himp : x nb = implied (x node))
  (hok : OkBelow (s.moveFar node nb far implied) pos t x) : OkBelow s pos t x := by
 obtain ⟨hlive, htouch, htgt, -, htn⟩ := h.far_facts hfar hne
 have hext := unlink_ext h.inv.wf hlive
 have hwf := unlink_wf h.inv.wf hlive
 obtain ⟨hoku, hdelta⟩ := charge_ok hwf (hx.congr hext.count hext.arity)
  (s.impliedDelta node nb far implied) (hext.alive ▸ h.node_alive) (hext.alive ▸ htgt) htn.symm
  hok
 refine unlink_ok h.inv.wf hlive hoku fun hpl hpr => ?_
 have hown : s.costs node (x node) < infCost := by
  have hlt := hoku.node node (hext.alive ▸ h.node_alive) hpos
  rwa [unlink_costs h.inv.wf hlive] at hlt
 have htargetpos : pos (s.other far nb) < t := by
  have hother : (s.edges far).touches (s.other far nb) := other_touches
  rcases hother with ht | ht
  · rwa [← ht]
  · rwa [← ht]
 have hlt := hdelta hpos htargetpos
 rw [impliedDelta, if_pos hown, ← himp, cost_at htouch] at hlt
 exact hlt

/-- RM lifts consistent assignments when the node comes first. -/
theorem mergeOne_lifts {nb : Nat} (h : Merging s node edge nb implied) (hfst : First pos s node) :
  Lifts pos s (s.mergeOne node edge implied) := by
 obtain ⟨u, hmerge, ⟨hcnt, harity, hback⟩, hadj, heq⟩ := mergeOne_induct (P := fun u =>
  u.count = s.count ∧ u.arity = s.arity ∧ ∀ t x, s.InRange x → pos node < t →
   x nb = implied (x node) → OkBelow u pos t x → OkBelow s pos t x) h
  ⟨rfl, rfl, fun _ _ _ _ _ hok => hok⟩ fun u far hu hfar hne hkept => by
   obtain ⟨hcnt, harity, hback⟩ := hkept
   obtain ⟨-, hext⟩ := hu.moveFar_wf hfar hne
   refine ⟨hext.count.trans hcnt, hext.arity.trans harity, fun t x hx hpos himp hok => ?_⟩
   exact hback t x hx hpos himp (moveFar_ok hu hfar hne (hx.congr hcnt harity) hpos himp hok)
 intro t x hx hok
 obtain ⟨-, -, hedgene, hnb, hnbne, -⟩ := hmerge.edge_facts
 by_cases hpos : pos node < t
 · rw [heq] at hok ⊢
   have hmem : edge ∈ u.adjacency nb := by simp [hadj]
   obtain ⟨-, htouch', -, hnode, -⟩ := adjacent_facts hmerge.inv hmem
   have hother : u.other edge nb = node := by
    have htouch : (u.edges edge).touches node := hmerge.edge_facts.2.1
    rcases htouch with ht | ht
    · rw [other, if_neg (by rw [ht]; exact hnbne.symm), ht]
    · have hl : (u.edges edge).lhs = nb := by
       rcases htouch' with ht' | ht'
       · exact ht'
       · exact absurd (ht'.symm.trans ht) hnbne
      rw [other, if_pos hl, ht]
   have htaken := taken_one hmerge.inv hnb (by simp) hadj
   have hreduce : u.reduceOne nb = (((u.kill nb).unlink edge).record (.r1 nb edge)).chargeNode
     node (u.throughOne nb edge node) := by
    simp [reduceOne, hadj, hother]
   rw [hreduce] at hok ⊢
   generalize ((u.kill nb).unlink edge).record (.r1 nb edge) = w at htaken hok ⊢
   have hnodew : node ∈ w.alive := by
    rw [htaken.alive]
    exact Finset.mem_erase.2 ⟨hnbne.symm, hmerge.node_alive⟩
   have hext := chargeNode_ext htaken.wf hnodew (u.throughOne nb edge node)
   have hxu := hx.congr hcnt harity
   obtain ⟨hokw, hdelta⟩ := chargeNode_ok htaken.wf (hxu.congr htaken.count htaken.arity) hnodew _
    hok
   rw [hext.alive]
   -- what was charged on the node is finite, and only the implied alternative can make it so
   have hposarity := hmerge.inv.wf.arity_pos nb (hmerge.inv.wf.alive_lt _ hnb)
   obtain ⟨alt, halt, hatt⟩ := minSum_attained hposarity (u.costs nb)
    fun alt => u.cost edge node (x node) alt
   have hlt : u.costs nb alt + u.cost edge node (x node) alt < infCost := by
    rw [← cap_lt_iff, ← hatt]
    exact hdelta hpos
   have hown : u.costs node (x node) < infCost := by
    have hnodelt := hokw.node node hnodew hpos
    rwa [htaken.costs] at hnodelt
   have himp : alt = implied (x node) := by
    refine hmerge.only _ ?_ hown alt halt (by omega)
    exact hxu _ (hmerge.inv.wf.alive_lt _ hmerge.node_alive)
   have hswap : ∀ own, u.cost edge nb own (x node) = u.cost edge node (x node) own := by
    grind [cost_swap]
   have hagree : ∀ v ∈ w.alive, update x nb alt v = x v := by
    intro v hv
    rw [htaken.alive] at hv
    exact update_of_ne (Finset.ne_of_mem_erase hv) _ _
   have hrng : s.InRange (update x nb alt) := hx.update (by rwa [← harity])
   refine ⟨update x nb alt, hrng, ?_, fun v hv _ => hagree v hv⟩
   refine hback t _ hrng hpos ?_ ?_
   · grind
   · refine htaken.ok (okBelow_congr htaken.wf (fun v hv _ => (hagree v hv).symm) hokw) ?_ ?_
     · intro _
       change u.costs nb (update x nb alt nb) < infCost
       grind
     · intro e he _ _
       obtain rfl : e = edge := by simpa [parts] using he
       change u.cost e nb (update x nb alt nb)
        (update x nb alt (u.other e nb)) < infCost
       grind
 · exact ⟨x, hx, hfst.okBelow h.inv (not_lt.1 hpos) x, fun _ _ _ => rfl⟩

theorem mergeImplied_extendable (hinv : Inv s) (hs : Extendable pos k s) (hfst : First pos s node) :
  Inv (s.mergeImplied node) ∧ Exact s 0 (s.mergeImplied node) ∧
   Extendable pos k (s.mergeImplied node) := by
 refine mergeLoop_induct (P := fun u => Exact s 0 u ∧ Extendable pos k u) ?_ _ s hinv
  ⟨Exact.refl hinv, hs⟩
 rintro u edge implied hmerge ⟨hexact, hu⟩
 have hfirstu : First pos u node := fun v hv => hfst v (hexact.alive hv)
 obtain ⟨-, hone⟩ := mergeOne_exact hmerge
 exact ⟨hexact.trans hone, hu.step (mergeOne_lifts hmerge hfirstu) hone⟩

/-! ## The decision -/

theorem settle_ok {choice : Nat} {rest : List Nat} {x : Nat → Nat}
  (h : Settling s node (edge :: rest)) (hx : s.InRange x) (hchoice : x node = choice)
  (hok : OkBelow (s.settle node choice edge) pos t x) : OkBelow s pos t x := by
 have hmem : edge ∈ s.adjacency node := (h.mem_iff edge).2 (.head _)
 obtain ⟨hlive, htouch, -, hnb, -⟩ := adjacent_facts h.inv hmem
 have hext := unlink_ext h.inv.wf hlive
 obtain ⟨hoku, hdelta⟩ := chargeNode_ok (unlink_wf h.inv.wf hlive)
  (hx.congr hext.count hext.arity) (hext.alive ▸ hnb) (s.cost edge node choice) hok
 refine unlink_ok h.inv.wf hlive hoku fun hpl hpr => ?_
 have hnbpos : pos (s.other edge node) < t := by
  have hother : (s.edges edge).touches (s.other edge node) := other_touches
  rcases hother with ht | ht
  · rwa [← ht]
  · rwa [← ht]
 have hlt := hdelta hnbpos
 rw [← hchoice, cost_at htouch] at hlt
 exact hlt

/-- A node, its edges and its neighbors together cost at most the total. -/
theorem star_le_total (hinv : Inv s) (hnode : node ∈ s.alive)
  (x : Nat → Nat) : s.costs node (x node) + ((s.adjacency node).map fun e =>
   s.cost e node (x node) (x (s.other e node)) +
    s.costs (s.other e node) (x (s.other e node))).sum ≤ s.total x := by
 have hnd := hinv.wf.adjacency_nodup node
 rw [← sum_toFinset _ hnd, Finset.sum_add_distrib]
 have hedges : ∑ e ∈ (s.adjacency node).toFinset, s.cost e node (x node) (x (s.other e node)) ≤
   s.edgeSum x := by
  have hterm : ∀ e ∈ (s.adjacency node).toFinset,
    s.cost e node (x node) (x (s.other e node)) = (s.edges e).term x := by
   intro e he
   obtain ⟨hlive, htouch⟩ := (hinv.wf.mem_adjacency e node).1 (List.mem_toFinset.1 he)
   rw [cost_at htouch]
   exact (if_pos hlive).symm
  rw [Finset.sum_congr rfl hterm]
  refine Finset.sum_le_sum_of_subset fun e he => Finset.mem_range.2 (hinv.wf.edge_lt e ?_)
  exact ((hinv.wf.mem_adjacency e node).1 (List.mem_toFinset.1 he)).1
 have hneighbors : ∑ e ∈ (s.adjacency node).toFinset,
   s.costs (s.other e node) (x (s.other e node)) ≤
   ∑ v ∈ s.alive.erase node, s.costs v (x v) := by
  -- two edges of the node do not lead to the same neighbor
  have hinj : Set.InjOn (fun e => s.other e node) ((s.adjacency node).toFinset : Set Nat) := by
   intro e he f hf heq
   obtain ⟨hle, hte⟩ := (hinv.wf.mem_adjacency e node).1 (by simpa using he)
   obtain ⟨hlf, htf⟩ := (hinv.wf.mem_adjacency f node).1 (by simpa using hf)
   refine hinv.wf.edge_unique hle hlf ?_
   grind [key_other]
  rw [← Finset.sum_image (f := fun v => s.costs v (x v)) hinj]
  refine Finset.sum_le_sum_of_subset fun v hv => ?_
  obtain ⟨e, he, rfl⟩ := Finset.mem_image.1 hv
  obtain ⟨-, -, -, hnb, hnbne⟩ := adjacent_facts hinv (List.mem_toFinset.1 he)
  exact Finset.mem_erase.2 ⟨hnbne, hnb⟩
 have hsplit := Finset.add_sum_erase s.alive (fun v => s.costs v (x v)) hnode
 simp only [total, nodeSum]
 omega

/-- When some assignment is finite, the locally cheapest alternative is. -/
theorem localChoice_finite (hinv : Inv s) (hnode : node ∈ s.alive)
  {y : Nat → Nat} (hy : s.InRange y) (hfin : s.total y < infCost) :
  s.costs node (s.localChoice node) < infCost := by
 have hlt := hinv.wf.alive_lt _ hnode
 obtain ⟨-, hmin⟩ := argminBelow_spec (hinv.wf.arity_pos _ hlt) fun own =>
  (s.adjacency node).foldl (fun total edge => add total
   (minSum (s.arity (s.other edge node)) (s.cost edge node own)
    (s.costs (s.other edge node)))) (s.costs node own)
 have hle := cap_mono (hmin (y node) (hy node hlt))
 simp only [foldl_add_cap] at hle
 -- at the finite assignment every edge adds at most what it costs there
 have hstar : s.costs node (y node) + ((s.adjacency node).map fun edge =>
   minSum (s.arity (s.other edge node)) (s.cost edge node (y node))
    (s.costs (s.other edge node))).sum < infCost := by
  refine lt_of_le_of_lt ?_ ((star_le_total hinv hnode y).trans_lt hfin)
  refine Nat.add_le_add_left (sum_le_sum fun e he => ?_) _
  obtain ⟨-, -, -, hnb, -⟩ := adjacent_facts hinv he
  exact (minSum_le (hy _ (hinv.wf.alive_lt _ hnb)) _ _).trans (cap_le_self _)
 rw [cap_of_lt hstar] at hle
 have hcap := hle.trans_lt hstar
 rw [cap_lt_iff] at hcap
 exact (Nat.le_add_right _ _).trans_lt hcap

/-- A decision at the first node keeps extendability. -/
theorem decide_extendable (hinv : Inv s) (hs : Extendable pos k s) (hnode : node ∈ s.alive) (hfst : First pos s node)
  (hinj : ∀ v ∈ s.alive, pos v = pos node → v = node) : Inv (s.decide node) ∧
   ∃ k', Sim s k' (s.decide node) ∧ Extendable pos (k + k') (s.decide node) := by
 set c := s.localChoice node with hc
 have hlt : c < s.arity node := localChoice_lt hinv hnode
 obtain ⟨y0, hy0, hfin0⟩ := hs.finite hinv
 have hcfin : s.costs node c < infCost :=
  localChoice_finite hinv hnode hy0 ((Nat.le_add_left _ _).trans_lt hfin0)
 obtain ⟨hinv', halive, k', hsim, hval⟩ := decide_sim hinv hnode
 obtain ⟨u, hinvu, hext, -, ⟨hcnt, harity, htotal, hback⟩, heq⟩ := decide_cases hinv hnode
  (P := fun u => u.count = s.count ∧ u.arity = s.arity ∧
   (∀ x, s.InRange x → x node = c → cap (u.total x) = cap (s.total x)) ∧
   ∀ t x, s.InRange x → x node = c → OkBelow u pos t x → OkBelow s pos t x)
  ⟨rfl, rfl, fun _ _ _ => rfl, fun _ _ _ _ hok => hok⟩
  fun u edge rest hset ⟨hcnt, harity, htotal, hback⟩ => by
   obtain ⟨-, hext, -⟩ := settle_facts c hset
   refine ⟨hext.count.trans hcnt, hext.arity.trans harity, fun x hx hxc => ?_,
    fun t x hx hxc hok => hback t x hx hxc (settle_ok hset (hx.congr hcnt harity) hxc hok)⟩
   rw [settle_total c hset (hx.congr hcnt harity) hxc]
   exact htotal x hx hxc
 -- the choice alone is consistent below the position after the node's
 have hchoice : ∀ x, x node = c → OkBelow s pos (pos node + 1) x := by
  intro x hxc
  have honly : ∀ v ∈ s.alive, pos v < pos node + 1 → v = node := fun v hv hpos =>
   hinj v hv (by have := hfst v hv; omega)
  constructor
  · grind
  · intro e he hpl hpr
    obtain ⟨hla, hra⟩ := hinv.wf.ends_alive e he
    exact absurd ((honly _ hla hpl).trans (honly _ hra hpr).symm) (hinv.wf.ends_ne e he)
 have hucost : u.costs node c < infCost := by
  have hx0 : s.InRange (update y0 node c) := hy0.update hlt
  obtain ⟨y, hy, hagree, hfin⟩ := hs _ _ hx0 (hchoice _ (update_self _ _ _))
  have hyc : y node = c := by
   grind
  have hu : u.total y < infCost := by
   rw [← cap_lt_iff, htotal y hy hyc, cap_lt_iff]
   exact (Nat.le_add_left _ _).trans_lt hfin
  rw [← hyc]
  exact (costs_le_total (hext.alive ▸ hnode) y).trans_lt hu
 refine ⟨hinv', k', hsim, fun t x hx hok => ?_⟩
 have hx' : s.InRange (update x node c) :=
  (hx.congr hsim.count.symm hsim.arity.symm).update hlt
 have hxc : update x node c node = c := update_self _ _ _
 -- the assignment with the choice is consistent below both positions
 have hlifted : OkBelow s pos (max t (pos node + 1)) (update x node c) := by
  by_cases ht : pos node < t
  · rw [max_eq_left ht]
    refine hback t _ hx' hxc ?_
    rw [heq] at hok
    constructor
    · intro v hv hpos
      by_cases hvn : v = node
      · grind
      · rw [update_of_ne hvn]
        exact hok.node v (Finset.mem_erase.2 ⟨hvn, hext.alive ▸ hv⟩) hpos
    · intro e he hpl hpr
      have hends : (u.edges e).lhs ∈ s.alive.erase node ∧ (u.edges e).rhs ∈ s.alive.erase node :=
       (heq ▸ hinv').wf.ends_alive e he
      rw [update_of_ne (Finset.ne_of_mem_erase hends.1),
       update_of_ne (Finset.ne_of_mem_erase hends.2)]
      exact hok.edge e he hpl hpr
  grind
 obtain ⟨y, hy, hagree, hfin⟩ := hs _ _ hx' hlifted
 have hyc : y node = c := by
  rw [hagree node hnode (by omega), hxc]
 refine ⟨y, hy.congr hsim.count hsim.arity, fun v hv hpos => ?_, ?_⟩
 · grind
 · rw [← cap_lt_iff] at hfin ⊢
   rw [add_assoc, cap_add_congr (hval y hy hyc)]
   exact hfin

/-! ## The run -/

/-- Each turn takes a node out of the graph, so the turns suffice. -/
theorem runLoop_isSome (fuel : Nat) : ∀ (s : Solver) (order decided : List Nat), Inv s →
  s.alive.card < fuel → (runLoop fuel s order decided).isSome := by
 induction fuel with
 | zero => grind
 | succ fuel ih =>
  intro s order decided hinv hfuel
  obtain ⟨⟨hinv1, k1, hexact1⟩, -⟩ := reduceOptimally_exact hinv
  have hcard := Finset.card_le_card hexact1.alive
  simp only [runLoop]
  cases hdrop : order.dropWhile fun node => node ∉ s.reduceOptimally.alive with
  | nil => rfl
  | cons node rest =>
   have hnode : node ∈ s.reduceOptimally.alive := by
    have hhead := head?_dropWhile_not (fun node => node ∉ s.reduceOptimally.alive) order
    grind
   obtain ⟨hinv2, -⟩ := mergeImplied_exact hinv1 node
   simp only
   split
   · rename_i hdecide
     obtain ⟨hinv3, halive, -⟩ := decide_sim hinv2 hdecide.1
     grind [mergeImplied_alive]
   grind [mergeImplied_alive, reduceOptimally_degree]

/-- The first node of the order that is in the graph comes first. -/
theorem first_of_dropWhile {pre order rest : List Nat} (hranked : ranked = pre ++ order) (hpre : ∀ v ∈ pre, v ∉ s.alive)
  (hall : ∀ v ∈ s.alive, v ∈ ranked) (hdrop : (order.dropWhile fun node => node ∉ s.alive) = node :: rest) :
  node ∈ s.alive ∧ First ranked.idxOf s node ∧ (∀ v ∈ s.alive, ranked.idxOf v = ranked.idxOf node → v = node) ∧
   ∃ pre', ranked = pre' ++ node :: rest ∧ ∀ v ∈ pre', v ∉ s.alive := by
 have hnode : node ∈ s.alive := by
  have hhead := head?_dropWhile_not (fun node => node ∉ s.alive) order
  grind
 have hsplit : ranked = (pre ++ order.takeWhile fun node => node ∉ s.alive) ++ node :: rest := by
  rw [hranked, append_assoc, ← hdrop, takeWhile_append_dropWhile]
 have hdead : ∀ v ∈ pre ++ order.takeWhile fun node => node ∉ s.alive, v ∉ s.alive := by
  intro v hv
  rcases mem_append.1 hv with hv | hv
  · exact hpre v hv
  · simpa using mem_takeWhile_imp hv
 have hpos : ∀ v ∈ s.alive, ranked.idxOf node ≤ ranked.idxOf v := by
  grind
 refine ⟨hnode, hpos, fun v hv heq => ?_, _, hsplit, hdead⟩
 exact (idxOf_inj (hall v hv)).1 heq

/-- A run from an extendable state ends with a finite cost. -/
theorem runLoop_extendable (fuel : Nat) :
  ∀ (s : Solver) (pre order decided : List Nat) (s' : Solver) (decided' : List Nat) (k : Nat),
   Inv s → ranked = pre ++ order → (∀ v ∈ pre, v ∉ s.alive) → (∀ v ∈ s.alive, v ∈ ranked) →
   Extendable ranked.idxOf k s → runLoop fuel s order decided = some (s', decided') →
   Inv s' ∧ ∃ k', Sim s k' s' ∧ Extendable ranked.idxOf (k + k') s' := by
 induction fuel with
 | zero =>
  intro s pre order decided s' decided' k _ _ _ _ _ h
  exact absurd h (some_ne_none _).symm
 | succ fuel ih =>
  intro s pre order decided s' decided' k hinv hranked hpre hall hs h
  obtain ⟨hinv1, k1, hexact1, hs1⟩ := reduceOptimally_extendable hinv hs
  have hpre1 : ∀ v ∈ pre, v ∉ s.reduceOptimally.alive := fun v hv hmem =>
   hpre v hv (hexact1.alive hmem)
  have hall1 : ∀ v ∈ s.reduceOptimally.alive, v ∈ ranked := fun v hv =>
   hall v (hexact1.alive hv)
  simp only [runLoop] at h
  cases hdrop : order.dropWhile fun node => node ∉ s.reduceOptimally.alive with
  | nil =>
   rw [hdrop] at h
   cases h
   exact ⟨hinv1, k1, hexact1.toSim, hs1⟩
  | cons node rest =>
   rw [hdrop] at h
   obtain ⟨-, hfst, hinj, pre', hranked', hpre'⟩ :=
    first_of_dropWhile hranked hpre1 hall1 hdrop
   obtain ⟨hinv2, hexact2, hs2⟩ := mergeImplied_extendable hinv1 hs1 hfst
   have hpre2 : ∀ v ∈ pre', v ∉ (s.reduceOptimally.mergeImplied node).alive := fun v hv hmem =>
    hpre' v hv (hexact2.alive hmem)
   have hall2 : ∀ v ∈ (s.reduceOptimally.mergeImplied node).alive, v ∈ ranked := fun v hv =>
    hall1 v (hexact2.alive hv)
   have hmerged := hexact1.toSim.trans hexact2.toSim
   simp only at h
   split at h
   · rename_i hdecide
     obtain ⟨hinv3, k3, hsim3, hs3⟩ := decide_extendable hinv2 hs2 hdecide.1
      (fun v hv => hfst v (hexact2.alive hv)) fun v hv => hinj v (hexact2.alive hv)
     obtain ⟨hinv', k', hsim, hs'⟩ := ih _ _ _ _ _ _ _ hinv3 hranked'
      (fun v hv hmem => hpre2 v hv (hsim3.alive hmem))
      (fun v hv => hall2 v (hsim3.alive hv)) hs3 h
     refine ⟨hinv', _, (hmerged.trans hsim3).trans hsim, ?_⟩
     grind
   · obtain ⟨hinv', k', hsim, hs'⟩ := ih _ _ _ _ _ _ _ hinv2 hranked' hpre2 hall2 hs2 h
     refine ⟨hinv', _, hmerged.trans hsim, ?_⟩
     grind

end Solver

namespace Problem

/-- `solve` ends on every problem and every order of its nodes. -/
theorem run_isSome (p : Problem) (order : List Nat) :
  ∃ s decided, p.solver.run (p.ranked order) = some (s, decided) := by
 have hsome := runLoop_isSome (p.solver.alive.card + 1) p.solver (p.ranked order) []
  p.solver_total.1 (Nat.lt_succ_self _)
 obtain ⟨⟨s, decided⟩, h⟩ := isSome_iff_exists.1 hsome
 exact ⟨s, decided, h⟩

/-- The choices of a solution exist, and cost less than infinity unless somebody is at fault. -/
theorem solve_sound (p : Problem) {order : List Nat} {sol : Solution} (h : p.solve order = some sol) :
  p.InRange sol.choices ∧ (sol.infeasible = [] → p.Finite sol.choices) := by
 obtain ⟨s, decided, hrun⟩ := p.run_isSome order
 obtain ⟨hinv, hout, k, hsim, -⟩ := runLoop_sim _ _ _ _ _ _ p.solver_total.1 hrun
 simp only [solve, hrun] at h
 split at h
 · cases h
   exact ⟨(p.run_total hinv hsim hout).1, p.finite_of_infeasible⟩
 · cases h

/-- **`solve` ends on every problem and every order of its nodes**, whatever it has to decide: every node gets one of its
alternatives, and nobody is at fault exactly when no node and no edge costs infinity. -/
theorem solve_ends (p : Problem) (order : List (Fin p.costs.length)) : ∃ sol, p.solve (order.map Fin.val) = some sol ∧
  p.InRange sol.choices ∧ (sol.infeasible = [] ↔ p.Finite sol.choices) := by
 obtain ⟨s, decided, hrun⟩ := p.run_isSome (order.map Fin.val)
 obtain ⟨hinv, hout, k, hsim, -⟩ := runLoop_sim _ _ _ _ _ _ p.solver_total.1 hrun
 exact ⟨_, p.solve_eq (by simp) hrun, (p.run_total hinv hsim hout).1, p.finite_of_infeasible, p.infeasible_of_finite _⟩

/-! ## Coloring along the order -/

def position (p : Problem) (order : List Nat) (v : Nat) : Nat := (p.ranked order).idxOf v

/-- The interference neighbors that come before a node. -/
def earlier (p : Problem) (order : List Nat) (interferes : Nat × Nat → Bool) (v : Nat) : Finset Nat :=
 (Finset.range p.costs.length).filter fun u =>
  key u v ∈ p.edges.map Prod.fst ∧ interferes (key u v) = true ∧
   p.position order u < p.position order v

/-- A register-assignment problem of `k` registers over a graph in SSA form: every node has the
same `k` alternatives at finite cost, every edge is an optional interference (infinite exactly on
the diagonal) plus a finite affinity, and fewer than `k` interference neighbors of a node come
before it. That those form a clique is not needed. -/
structure Ssa (p : Problem) (order : List Nat) (k : Nat) (interferes : Nat × Nat → Bool)
  (affinity : Nat × Nat → Matrix) : Prop where
 arity : ∀ v, v < p.costs.length → p.arity v = k
 costs : ∀ v, v < p.costs.length → ∀ a, a < k → p.nodeCost v a < infCost
 matrix : ∀ e ∈ p.edges, ∀ a b, a < k → b < k →
  e.2 a b = add (if interferes e.1 = true ∧ a = b then infCost else 0) (affinity e.1 a b)
 affinity_lt : ∀ e ∈ p.edges, ∀ a b, a < k → b < k → affinity e.1 a b < infCost
 earlier_lt : ∀ v, v < p.costs.length → (p.earlier order interferes v).card < k

/-- What is consistent in the solver's first state is consistent in the problem. -/
theorem solver_ok (p : Problem) {pos : Nat → Nat} {t : Nat} {x : Nat → Nat} (hx : p.InRange x)
  (hok : Solver.OkBelow p.solver pos t x) :
  ∀ e ∈ p.edges, pos e.1.1 < t → pos e.1.2 < t → e.2 (x e.1.1) (x e.1.2) < infCost := by
 have hperm := perm_insertionSort KeyLe p.edges
 obtain ⟨-, -, hfold⟩ := linkFold
  (P := fun s edges => Ext p.start s ∧ (Solver.OkBelow s pos t x → ∀ e ∈ p.edges, e ∈ edges ∨
   (pos e.1.1 < t → pos e.1.2 < t → e.2 (x e.1.1) (x e.1.2) < infCost)))
  (fun s e rest h ⟨hext, hback⟩ => by
   obtain ⟨hl, hr, hlt⟩ := h.alive e (.head _)
   refine ⟨hext.trans h.step.2, fun hoks f hf => ?_⟩
   have hxs : s.InRange x := Solver.InRange.congr (s := p.start) hx hext.count hext.arity
   obtain ⟨hok', hent⟩ := charge_ok h.inv.wf hxs e.2 hl hr hlt.ne hoks
   rcases hback hok' f hf with hmem | hdone
   · rcases mem_cons.1 hmem with rfl | hmem
     · exact .inr hent
     · exact .inl hmem
   · exact .inr hdone)
  _ p.start p.start_linkable ⟨Ext.refl _, fun _ e he => .inl (hperm.mem_iff.2 he)⟩
 intro e he
 exact (hfold hok e he).resolve_left not_mem_nil

namespace Ssa

variable {p : Problem} {order : List Nat} {k : Nat} {interferes : Nat × Nat → Bool}
 {affinity : Nat × Nat → Matrix} (h : p.Ssa order k interferes affinity)

/-- No two interfering nodes below `t` have the same color. -/
def Proper (p : Problem) (order : List Nat) (interferes : Nat × Nat → Bool) (t : Nat) (x : Nat → Nat) : Prop :=
 ∀ e ∈ p.edges, interferes e.1 = true → p.position order e.1.1 < t → p.position order e.1.2 < t →
  x e.1.1 ≠ x e.1.2

include h

/-- The node at the next position has a color none of its earlier neighbors has. -/
theorem free_color {v : Nat} (hv : v < p.costs.length) (x : Nat → Nat) :
  ∃ c, c < k ∧ ∀ u ∈ p.earlier order interferes v, x u ≠ c := by
 have hcard : ((p.earlier order interferes v).image x).card < (Finset.range k).card := by
  rw [Finset.card_range]
  exact Finset.card_image_le.trans_lt (h.earlier_lt v hv)
 obtain ⟨c, hc, hfree⟩ := Finset.exists_mem_notMem_of_card_lt_card hcard
 refine ⟨c, Finset.mem_range.1 hc, fun u hu heq => hfree ?_⟩
 exact heq ▸ Finset.mem_image_of_mem x hu

theorem extend_one {t : Nat} {x : Nat → Nat} (hx : p.InRange x) (hproper : Proper p order interferes t x) :
  ∃ y, p.InRange y ∧ (∀ v, v < p.costs.length → p.position order v < t → y v = x v) ∧
   Proper p order interferes (t + 1) y := by
 by_cases hex : ∃ v, v < p.costs.length ∧ p.position order v = t
 · obtain ⟨v, hv, hpos⟩ := hex
   obtain ⟨c, hc, hfree⟩ := h.free_color hv x
   have hunique : ∀ u, u < p.costs.length → p.position order u = t → u = v := fun u hu hut =>
    (idxOf_inj (p.mem_ranked order hu)).1 (hut.trans hpos.symm)
   refine ⟨update x v c, ?_, ?_, ?_⟩
   · intro u hu
     by_cases huv : u = v
     · rw [huv, update_self, h.arity v hv]
       exact hc
     · rw [update_of_ne huv]
       exact hx u hu
   · grind
   · intro e he hint hl hr
     obtain ⟨hlt, hcnt⟩ := p.ordered e he
     have hkey : key e.1.1 e.1.2 = e.1 := key_of_lt hlt
     -- an end that is not the new node lies below the old position
     have hbelow : ∀ u, u < p.costs.length → u ≠ v → p.position order u < t + 1 →
       p.position order u < t := fun u hu huv hlt' => by
      grind
     by_cases hlv : e.1.1 = v
     · have hrv : e.1.2 ≠ v := by omega
       rw [hlv, update_self, update_of_ne hrv]
       refine (hfree _ (Finset.mem_filter.2 ⟨Finset.mem_range.2 hcnt, ?_⟩)).symm
       grind [key_comm]
     · have hlt' := hbelow _ (hlt.trans hcnt) hlv hl
       by_cases hrv : e.1.2 = v
       · rw [hrv, update_self, update_of_ne hlv]
         refine hfree _ (Finset.mem_filter.2 ⟨Finset.mem_range.2 (hlt.trans hcnt), ?_⟩)
         grind
       · rw [update_of_ne hlv, update_of_ne hrv]
         exact hproper e he hint hlt' (hbelow _ hcnt hrv hr)
 · refine ⟨x, hx, fun _ _ _ => rfl, fun e he hint hl hr => ?_⟩
   obtain ⟨hlt, hcnt⟩ := p.ordered e he
   have hne : ∀ u, u < p.costs.length → p.position order u ≠ t := fun u hu heq => hex ⟨u, hu, heq⟩
   have hl' := hne _ (hlt.trans hcnt)
   have hr' := hne _ hcnt
   exact hproper e he hint (by omega) (by omega)

/-- A proper coloring extends by any number of positions. -/
theorem extend (m : Nat) {t : Nat} {x : Nat → Nat} (hx : p.InRange x) (hproper : Proper p order interferes t x) :
  ∃ y, p.InRange y ∧ (∀ v, v < p.costs.length → p.position order v < t → y v = x v) ∧
   Proper p order interferes (t + m) y := by
 induction m with
 | zero => exact ⟨x, hx, fun _ _ _ => rfl, hproper⟩
 | succ m ih =>
  obtain ⟨y, hy, hagree, hproper'⟩ := ih
  obtain ⟨z, hz, hagree', hproper''⟩ := h.extend_one hy hproper'
  grind

/-- A proper coloring of all the nodes is finite. -/
theorem finite_of_proper {y : Nat → Nat} (hy : p.InRange y)
  (hproper : Proper p order interferes (p.ranked order).length y) : p.Finite y := by
 have hrng : ∀ v, v < p.costs.length → y v < k := fun v hv => h.arity v hv ▸ hy v hv
 have hposn : ∀ v, v < p.costs.length → p.position order v < (p.ranked order).length :=
  fun v hv => idxOf_lt_length_iff.2 (p.mem_ranked order hv)
 refine ⟨fun v hv => h.costs v hv _ (hrng v hv), fun e he => ?_⟩
 obtain ⟨hlt, hcnt⟩ := p.ordered e he
 have hl := hrng _ (hlt.trans hcnt)
 have hr := hrng _ hcnt
 have hne : ¬ (interferes e.1 = true ∧ y e.1.1 = y e.1.2) := fun hboth =>
  hproper e he hboth.1 (hposn _ (hlt.trans hcnt)) (hposn _ hcnt) hboth.2
 rw [h.matrix e he _ _ hl hr, if_neg hne, add_eq_cap, zero_add, cap_lt_iff]
 exact h.affinity_lt e he _ _ hl hr

theorem solver_extendable (hb : p.Bounded) :
  Solver.Extendable (p.position order) 0 p.solver := by
 obtain ⟨-, -, htotal⟩ := p.solver_total
 intro t x hx hok
 have hxp := (p.inRange_iff x).2 hx
 have hproper : Proper p order interferes t x := by
  intro e he hint hl hr heq
  obtain ⟨hlt, hcnt⟩ := p.ordered e he
  have hfin := p.solver_ok hxp hok e he hl hr
  have hxl := h.arity _ (hlt.trans hcnt) ▸ hxp _ (hlt.trans hcnt)
  have hxr := h.arity _ hcnt ▸ hxp _ hcnt
  rw [h.matrix e he _ _ hxl hxr, if_pos ⟨hint, heq⟩, add_eq_cap, cap_lt_iff] at hfin
  omega
 obtain ⟨y, hy, hagree, hproper'⟩ := h.extend (p.ranked order).length hxp hproper
 refine ⟨y, (p.inRange_iff y).1 hy, fun v hv hlt => hagree v ?_ hlt, ?_⟩
 · exact Finset.mem_range.1 (p.solver_alive ▸ hv)
 · have hfin := h.finite_of_proper hy fun e he hint hl hr =>
    hproper' e he hint (by omega) (by omega)
   rw [zero_add, ← cap_lt_iff, htotal y hy, cap_lt_iff]
   exact hb y hy hfin

end Ssa

/-- On the interference graph of a program in SSA form, listed so that fewer than `k` interference
neighbors of a node come before it, `solve` ends with nobody at fault. -/
theorem solve_feasible (p : Problem) (order : List Nat) (k : Nat) (interferes : Nat × Nat → Bool)
  (affinity : Nat × Nat → Matrix) (h : p.Ssa order k interferes affinity) (hb : p.Bounded)
  (horder : ∀ node ∈ order, node < p.costs.length) :
  ∃ sol, p.solve order = some sol ∧ sol.infeasible = [] := by
 obtain ⟨hinv, -, -⟩ := p.solver_total
 obtain ⟨s, decided, hrun⟩ := p.run_isSome order
 obtain ⟨-, hout, -⟩ := runLoop_sim _ _ _ _ _ _ hinv hrun
 obtain ⟨hinv', k', hsim, hs⟩ := runLoop_extendable _ p.solver [] (p.ranked order) [] s
  decided 0 hinv rfl (fun v hv => absurd hv not_mem_nil)
  (fun v hv => p.mem_ranked order (Finset.mem_range.1 (p.solver_alive ▸ hv)))
  (h.solver_extendable hb) hrun
 obtain ⟨-, hcap⟩ := p.run_total hinv' hsim hout
 obtain ⟨y, -, hlt⟩ := hs.finite hinv'
 refine ⟨_, p.solve_eq horder hrun, p.infeasible_of_finite _ (p.finite_of_total_lt ?_)⟩
 rw [← cap_lt_iff, hcap, cap_lt_iff]
 omega

/-- Four nodes that interfere pairwise, with four registers. -/
def clique : Problem where
 costs := List.replicate 4 [0, 1, 2, 3]
 edges := [(0, 1), (0, 2), (0, 3), (1, 2), (1, 3), (2, 3)].map fun k =>
  (k, fun row col => if row = col then infCost else 0)
 alternatives := by decide
 ordered := by
  intro e he
  obtain ⟨k, hk, rfl⟩ := List.mem_map.1 he
  have hall : ∀ k ∈ [(0, 1), (0, 2), (0, 3), (1, 2), (1, 3), (2, 3)], k.1 < k.2 ∧ k.2 < 4 := by
   decide
  exact hall k hk
 distinct := by decide

theorem clique_matrix : ∀ e ∈ clique.edges, e.2 = fun row col => if row = col then infCost else 0 := by
 intro e he
 obtain ⟨k, -, rfl⟩ := List.mem_map.1 he
 rfl

theorem clique_bounded : clique.Bounded := by
 intro x hx hfin
 have hedges : (clique.edges.map fun e => e.2 (x e.1.1) (x e.1.2)).sum = 0 := by
  refine sum_eq_zero fun c hc => ?_
  obtain ⟨e, he, rfl⟩ := List.mem_map.1 hc
  have hlt := hfin.2 e he
  grind [clique_matrix]
 have hnodes : ∑ v ∈ Finset.range clique.costs.length, clique.nodeCost v (x v) ≤ 4 * 3 := by
  refine (Finset.sum_le_card_nsmul _ _ 3 fun v hv => ?_).trans (by decide)
  have hlt := hx v (Finset.mem_range.1 hv)
  have hcost : ∀ v, v < 4 → ∀ a, a < clique.arity v → clique.nodeCost v a ≤ 3 := by decide
  exact hcost v (Finset.mem_range.1 hv) _ hlt
 have hinf : 12 < infCost := by decide
 rw [total, hedges]
 omega

theorem clique_ssa : clique.Ssa [2, 0, 3, 1] 4 (fun _ => true) fun _ _ _ => 0 where
 arity := by decide
 costs := by decide
 matrix := by
  intro e he a b _ _
  rw [clique_matrix e he]
  by_cases hab : a = b
  · simp [hab, add_eq_cap, cap_of_le]
  · simp [hab, add_eq_cap, cap_of_lt infCost_pos]
 affinity_lt := fun _ _ _ _ _ _ => infCost_pos
 earlier_lt := by decide +kernel

theorem clique_solve_feasible : ∃ sol, clique.solve [2, 0, 3, 1] = some sol ∧ sol.infeasible = [] :=
 clique.solve_feasible [2, 0, 3, 1] 4 (fun _ => true) (fun _ _ _ => 0) clique_ssa clique_bounded
  (by decide)

end Problem

end Tir.Pbqp
