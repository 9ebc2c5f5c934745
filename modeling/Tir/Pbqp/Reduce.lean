import Tir.Pbqp.Run
import Tir.Pbqp.Total

/-!
# What the reductions keep

`Sim s k s'` says that what the later state `s'` answers, the earlier state `s` answers too: an
assignment of the nodes left in `s'` extends to one of `s` of the same cost (`k` is what left the
graph for good), and back-propagation from the two gives the same choices. `Exact` adds that no
assignment of `s` is cheaper, which holds of the optimal reductions R0, R1, R2 and of the merge RM
but not of a decision.
-/

open List Function

namespace Tir.Pbqp

open Reduced

namespace Solver

/-- What every state of a run satisfies. -/
structure Inv (s : Solver) (hole : Option Nat := none) : Prop where
 wf : WF s hole
 dead : ReducedDead s
 range : s.InRange s.choices

variable {hole : Option Nat} {s s' : Solver}

theorem Inv.ext (h : Inv s hole) (hext : Ext s s')
  (hwf : WF s' hole) : Inv s' hole := by
 refine ⟨hwf, h.dead.ext hext, ?_⟩
 intro v hv
 rw [hext.count] at hv
 rw [hext.arity, hext.choices]
 exact h.range v hv

/-- The assignment has the choices made so far at the nodes that left the graph. -/
def Agrees (s : Solver) (x : Nat → Nat) : Prop := ∀ v, v ∉ s.alive → x v = s.choices v

/-- What `s'` answers, `s` answers. -/
structure Sim (s : Solver) (k : Nat) (s' : Solver) : Prop where
 count : s'.count = s.count
 arity : s'.arity = s.arity
 alive : s'.alive ⊆ s.alive
 value : ∀ x, s.InRange x → s'.Agrees x → ∃ y, s.InRange y ∧ s.Agrees y ∧
  s'.backPropagate x = s.backPropagate y ∧ cap (k + s'.total x) = cap (s.total y)

/-- The step loses no optimum. -/
structure Exact (s : Solver) (k : Nat) (s' : Solver) : Prop extends Sim s k s' where
 low : ∀ x, s.InRange x → cap (k + s'.total x) ≤ cap (s.total x)

theorem InRange.congr {x : Nat → Nat} (hx : s.InRange x)
  (hcnt : s'.count = s.count) (harity : s'.arity = s.arity) : s'.InRange x := by
 intro v hv
 rw [hcnt] at hv
 rw [harity]
 exact hx v hv

namespace Sim

variable {s s' s'' : Solver} {k k' : Nat} {hole : Option Nat}

theorem trans (h : Sim s k s') (h' : Sim s' k' s'') : Sim s (k + k') s'' where
 count := h'.count.trans h.count
 arity := h'.arity.trans h.arity
 alive := h'.alive.trans h.alive
 value := by
  intro x hx hagree
  obtain ⟨y, hy, hyagree, hbp, hcap⟩ := h'.value x (hx.congr h.count h.arity) hagree
  obtain ⟨z, hz, hzagree, hbp', hcap'⟩ :=
   h.value y (hy.congr h.count.symm h.arity.symm) hyagree
  refine ⟨z, hz, hzagree, hbp.trans hbp', ?_⟩
  rw [add_assoc, cap_add_congr hcap, hcap']

theorem of_ext (hinv : Inv s hole) (hext : Ext s s')
  (htotal : ∀ x, s.InRange x → s'.Agrees x → cap (s'.total x) = cap (s.total x)) : Sim s 0 s' where
 count := hext.count
 arity := hext.arity
 alive := by rw [hext.alive]
 value := by
  intro x hx hagree
  refine ⟨x, hx, ?_, backPropagate_ext hinv.dead hext x, ?_⟩
  · intro v hv
    rw [← hext.choices]
    exact hagree v (by rwa [hext.alive])
  grind

end Sim

namespace Exact

variable {s s' s'' : Solver} {k k' : Nat} {hole : Option Nat}

theorem trans (h : Exact s k s') (h' : Exact s' k' s'') : Exact s (k + k') s'' where
 toSim := h.toSim.trans h'.toSim
 low := by
  intro x hx
  rw [add_assoc]
  exact (cap_add_mono (h'.low x (hx.congr h.count h.arity)) k).trans (h.low x hx)

theorem of_ext (hinv : Inv s hole) (hext : Ext s s')
  (htotal : ∀ x, s.InRange x → cap (s'.total x) = cap (s.total x)) : Exact s 0 s' where
 toSim := Sim.of_ext hinv hext fun x hx _ => htotal x hx
 low := by
  grind

theorem refl (hinv : Inv s hole) : Exact s 0 s := of_ext hinv (Ext.refl s) fun _ _ => rfl

end Exact

/-! ## Eliminating a node -/

/-- What a node costs with the edges it leaves by, its neighbors' alternatives given. -/
def localCost (s : Solver) (r : Reduced) (x : Nat → Nat) (own : Nat) : Nat :=
 s.costs r.parts.1 own +
  (r.parts.2.map fun e => s.cost e r.parts.1 own (x (s.other e r.parts.1))).sum

/-- The node's best answer. -/
def best (s : Solver) (r : Reduced) (x : Nat → Nat) : Nat :=
 s.bestResponse r.parts.1 (r.parts.2.map fun e => (e, x (s.other e r.parts.1)))

theorem answer_eq (s : Solver) (r : Reduced) (x : Nat → Nat) : s.answer x r = update x r.parts.1 (s.best r x) := rfl

theorem foldl_add_cap {α : Type} (l : List α) (f : α → Nat) (c : Nat) :
  cap (l.foldl (fun total p => add total (f p)) c) = cap (c + (l.map f).sum) := by
 induction l generalizing c with
 | nil => rfl
 | cons a rest ih =>
  rw [foldl_cons, ih, map_cons, sum_cons, add_eq_cap, cap_cap_add, add_assoc]

theorem best_spec {r : Reduced} (hpos : 0 < s.arity r.parts.1) (x : Nat → Nat) :
  s.best r x < s.arity r.parts.1 ∧ ∀ own, own < s.arity r.parts.1 →
   cap (s.localCost r x (s.best r x)) ≤ cap (s.localCost r x own) := by
 obtain ⟨hlt, hmin⟩ := argminBelow_spec hpos fun own =>
  (r.parts.2.map fun e => (e, x (s.other e r.parts.1))).foldl
   (fun total p => add total (s.cost p.1 r.parts.1 own p.2)) (s.costs r.parts.1 own)
 refine ⟨hlt, fun own hown => ?_⟩
 have hle := cap_mono (hmin own hown)
 simp only [foldl_add_cap, map_map] at hle
 exact hle

/-- `t` is `s` with the node of `r` taken out, the edges it leaves by dropped and the reduction
recorded. -/
structure Taken (s : Solver) (r : Reduced) (t : Solver) : Prop where
 wf : WF t
 count : t.count = s.count
 arity : t.arity = s.arity
 choices : t.choices = s.choices
 costs : t.costs = s.costs
 edgeCount : t.edgeCount = s.edgeCount
 alive : t.alive = s.alive.erase r.parts.1
 reduced : t.reduced = r :: s.reduced
 edges : ∀ e, (t.edges e).lhs = (s.edges e).lhs ∧ (t.edges e).rhs = (s.edges e).rhs ∧
  (t.edges e).matrix = (s.edges e).matrix
 live : ∀ e, (t.edges e).live = true ↔ (s.edges e).live = true ∧ e ∉ r.parts.2
 left : ∀ e, e ∈ r.parts.2 → (s.edges e).live = true ∧ (s.edges e).touches r.parts.1
 total : ∀ x, s.total x = t.total x + s.localCost r x (x r.parts.1)

namespace Taken

variable {s t s' : Solver} {hole : Option Nat} {r : Reduced} (h : Taken s r t)

include h

theorem edge_of_dead {e : Nat} (he : (s.edges e).live = false) : t.edges e = s.edges e := by
 obtain ⟨hlhs, hrhs, hmatrix⟩ := h.edges e
 have hlive : (t.edges e).live = (s.edges e).live := by
  rw [he, ← Bool.not_eq_true, h.live e, he]
  simp
 cases ht : t.edges e with
 | mk lhs rhs matrix live =>
  cases hs : s.edges e with
  | mk lhs' rhs' matrix' live' =>
   grind

/-- Other nodes' costs with the edges do not depend on the node's alternative. -/
theorem localCost_update (hinv : Inv s hole) (x : Nat → Nat) (own : Nat) :
  s.localCost r (update x r.parts.1 own) own = s.localCost r x own := by
 simp only [localCost]
 congr 2
 refine map_congr_left fun e he => ?_
 rw [update_of_ne (other_ne (hinv.wf.ends_ne e (h.left e he).1))]

theorem total_update (hinv : Inv s hole) (x : Nat → Nat) (own : Nat) :
  s.total (update x r.parts.1 own) = t.total x + s.localCost r x own := by
 rw [h.total, update_self, h.localCost_update hinv]
 congr 1
 refine total_congr h.wf fun v hv => update_of_ne ?_ _ _
 rw [h.alive] at hv
 exact Finset.ne_of_mem_erase hv

variable (hinv : Inv s hole) (hext : Ext t s')

include hinv hext

theorem inv (hwf : WF s') : Inv s' := by
 refine ⟨hwf, ?_, ?_⟩
 · refine ReducedDead.ext ?_ hext
   intro q hq
   rw [h.reduced] at hq
   rcases mem_cons.1 hq with rfl | hq
   · refine ⟨by simp [h.alive], fun e he => ⟨?_, ?_⟩⟩
     · rw [h.edgeCount]
       exact hinv.wf.edge_lt e (h.left e he).1
     · rw [← Bool.not_eq_true, h.live e]
       exact fun hlive => hlive.2 he
   · obtain ⟨hdead, hedges⟩ := hinv.dead q hq
     refine ⟨?_, fun e he => ?_⟩
     · rw [h.alive]
       exact fun hmem => hdead (Finset.mem_of_mem_erase hmem)
     · obtain ⟨hlt, hlive⟩ := hedges e he
       rw [h.edgeCount, h.edge_of_dead hlive]
       exact ⟨hlt, hlive⟩
 · have hrng : s'.InRange s.choices :=
    hinv.range.congr (hext.count.trans h.count) (hext.arity.trans h.arity)
   rw [hext.choices, h.choices]
   exact hrng

theorem backPropagate_eq (x : Nat → Nat) :
  s'.backPropagate x = s.backPropagate (update x r.parts.1 (s.best r x)) := by
 have harity : s'.arity = s.arity := hext.arity.trans h.arity
 have hanswer : s'.answer x r = s.answer x r := by
  refine answer_congr harity ?_ (fun e he => ?_) x
  · rw [hext.dead_costs _ (by simp [h.alive]), h.costs]
  · have hlt : e < t.edgeCount := by
     rw [h.edgeCount]
     exact hinv.wf.edge_lt e (h.left e he).1
    have hdead : (t.edges e).live = false := by
     rw [← Bool.not_eq_true, h.live e]
     exact fun hlive => hlive.2 he
    rw [hext.dead_edge e hlt hdead]
    exact h.edges e
 have hcosts : ∀ v, v ∉ s.alive → s'.costs v = s.costs v := by
  intro v hv
  rw [hext.dead_costs v, h.costs]
  rw [h.alive]
  exact fun hmem => hv (Finset.mem_of_mem_erase hmem)
 have hedges : ∀ e, e < s.edgeCount → (s.edges e).live = false → s'.edges e = s.edges e := by
  intro e hlt hdead
  have hsame := h.edge_of_dead hdead
  rw [hext.dead_edge e (by rwa [h.edgeCount]) (by rwa [hsame]), hsame]
 rw [backPropagate, hext.reduced, h.reduced, foldl_cons, hanswer, answer_eq]
 exact backPropagate_congr hinv.dead harity hcosts hedges _

/-- Eliminating a node is exact when what is charged for it is what it costs at best. -/
theorem exact (hnode : r.parts.1 ∈ s.alive) {k : Nat} (hcharge : ∀ x, s.InRange x →
  cap (k + s'.total x) = cap (t.total x + s.localCost r x (s.best r x))) : Exact s k s' := by
 have hcnt : r.parts.1 < s.count := hinv.wf.alive_lt _ hnode
 have hbest := best_spec (r := r) (hinv.wf.arity_pos _ hcnt)
 have halive : s'.alive ⊆ s.alive := by
  rw [hext.alive, h.alive]
  exact Finset.erase_subset _ _
 refine ⟨⟨hext.count.trans h.count, hext.arity.trans h.arity, halive, ?_⟩, ?_⟩
 · intro x hx hagree
   refine ⟨update x r.parts.1 (s.best r x), ?_, ?_,
    h.backPropagate_eq hinv hext x, ?_⟩
   · intro v hv
     by_cases hvr : v = r.parts.1
     · grind
     · rw [update_of_ne hvr]
       exact hx v hv
   · intro v hv
     have hvr : v ≠ r.parts.1 := by
      rintro rfl
      exact hv hnode
     rw [update_of_ne hvr, ← h.choices, ← hext.choices]
     refine hagree v ?_
     grind
   · rw [hcharge x hx, h.total_update hinv]
 · intro x hx
   rw [hcharge x hx, h.total x]
   exact cap_add_mono ((hbest x).2 _ (hx _ hcnt)) _

end Taken

/-! ## R0, R1 and R2 -/

theorem kill_unlink (h : WF s hole) (node : Nat) {edge : Nat} (hlive : (s.edges edge).live = true) :
  (s.kill node).unlink edge = (s.unlink edge).kill node := by
 have hext := unlink_ext h hlive
 have hkill : (s.unlink edge).kill node =
   (s.unlink edge).reframe ((s.unlink edge).alive.erase node) (s.unlink edge).choices := rfl
 rw [hkill, hext.alive, hext.choices]
 exact reframe_unlink s (s.alive.erase node) s.choices edge

section Reductions

variable {s : Solver} {hole : Option Nat} (hinv : Inv s hole) {node : Nat}

include hinv

variable {edge first second : Nat}

/-- What one live edge of the node looks like from it. -/
theorem adjacent_facts (hmem : edge ∈ s.adjacency node) : (s.edges edge).live = true ∧ (s.edges edge).touches node ∧
   (s.edges edge).lhs ≠ (s.edges edge).rhs ∧ s.other edge node ∈ s.alive ∧
   s.other edge node ≠ node := by
 obtain ⟨hlive, htouch⟩ := (hinv.wf.mem_adjacency edge node).1 hmem
 have hne := hinv.wf.ends_ne edge hlive
 refine ⟨hlive, htouch, hne, ?_, other_ne hne⟩
 have hother : (s.edges edge).touches (s.other edge node) := other_touches
 rcases hother with hl | hr
 · rw [← hl]
   exact (hinv.wf.ends_alive edge hlive).1
 · rw [← hr]
   exact (hinv.wf.ends_alive edge hlive).2

/-- The two edges of a node of degree two lead to two nodes. -/
theorem two_neighbors (hadj : s.adjacency node = [first, second]) :
  first ≠ second ∧ s.other first node ≠ s.other second node := by
 have hnd := hinv.wf.adjacency_nodup node
 rw [hadj] at hnd
 have hne : first ≠ second := by
  rintro rfl
  simp at hnd
 have hmem1 : first ∈ s.adjacency node := by simp [hadj]
 have hmem2 : second ∈ s.adjacency node := by simp [hadj]
 obtain ⟨hlive1, htouch1, -, -, -⟩ := adjacent_facts hinv hmem1
 obtain ⟨hlive2, htouch2, -, -, -⟩ := adjacent_facts hinv hmem2
 refine ⟨hne, fun hsame => hne (hinv.wf.edge_unique hlive1 hlive2 ?_)⟩
 rw [← key_other htouch1, ← key_other htouch2, hsame]

variable (hnode : node ∈ s.alive) (hhole : ∀ v, hole = some v → v = node)

include hnode hhole

theorem taken_zero (hadj : s.adjacency node = []) : Taken s (.r0 node) ((s.kill node).record (.r0 node)) where
 wf := (kill_wf hinv.wf hadj hhole).congr rfl rfl rfl rfl rfl rfl (Subset.refl _) fun _ =>
  ⟨rfl, rfl, rfl⟩
 count := rfl
 arity := rfl
 choices := rfl
 costs := rfl
 edgeCount := rfl
 alive := rfl
 reduced := rfl
 edges := fun _ => ⟨rfl, rfl, rfl⟩
 live := fun e => by simp [Reduced.parts, kill, record]
 left := nofun
 total := kill_total hnode

theorem taken_one (hadj : s.adjacency node = [edge]) :
  Taken s (.r1 node edge) (((s.kill node).unlink edge).record (.r1 node edge)) := by
 have hmem : edge ∈ s.adjacency node := by simp [hadj]
 obtain ⟨hlive, htouch, -, -, -⟩ := adjacent_facts hinv hmem
 have hwf := unlink_wf hinv.wf hlive
 have hext := unlink_ext hinv.wf hlive
 have hempty : (s.unlink edge).adjacency node = [] := by
  refine eq_nil_iff_forall_not_mem.2 fun e he => ?_
  rw [unlink_mem_adjacency hinv.wf hlive, hadj] at he
  exact he.1 (mem_singleton.1 he.2)
 rw [kill_unlink hinv.wf node hlive]
 refine
  { wf := (kill_wf hwf hempty hhole).congr rfl rfl rfl rfl rfl rfl (Subset.refl _) fun _ =>
    ⟨rfl, rfl, rfl⟩
    count := hext.count
    arity := hext.arity
    choices := hext.choices
    costs := unlink_costs hinv.wf hlive
    edgeCount := unlink_edgeCount hinv.wf hlive
    alive := congrArg (Finset.erase · node) hext.alive
    reduced := congrArg (r1 node edge :: ·) hext.reduced
    edges := unlink_entries hinv.wf hlive
    live := fun e => (unlink_live hinv.wf hlive e).trans (by simp [parts])
    left := fun e he => ?_
    total := fun x => ?_ }
 · obtain rfl : e = edge := by simpa [parts] using he
   exact ⟨hlive, htouch⟩
 · have halive : node ∈ (s.unlink edge).alive := by rwa [hext.alive]
   have hkill := kill_total halive x
   have hunlink := unlink_total hinv.wf hlive x
   rw [← cost_at htouch, hkill, unlink_costs hinv.wf hlive] at hunlink
   change s.total x = ((s.unlink edge).kill node).total x +
    (s.costs node (x node) + (s.cost edge node (x node) (x (s.other edge node)) + 0))
   omega

theorem taken_two (hadj : s.adjacency node = [first, second]) : Taken s (.r2 node first second)
   ((((s.kill node).unlink first).unlink second).record (.r2 node first second)) := by
 have hmem1 : first ∈ s.adjacency node := by simp [hadj]
 have hmem2 : second ∈ s.adjacency node := by simp [hadj]
 obtain ⟨hlive1, htouch1, -, -, -⟩ := adjacent_facts hinv hmem1
 obtain ⟨hlive2, htouch2, -, -, -⟩ := adjacent_facts hinv hmem2
 obtain ⟨hne, -⟩ := two_neighbors hinv hadj
 -- the second edge is untouched when the first is removed
 have hwf1 := unlink_wf hinv.wf hlive1
 have hsame : (s.unlink first).edges second = s.edges second :=
  unlink_edge_of_ne hinv.wf hlive1 hne.symm
 have hlive₂' : ((s.unlink first).edges second).live = true := by rwa [hsame]
 have hwf := unlink_wf hwf1 hlive₂'
 have hext := (unlink_ext hinv.wf hlive1).trans (unlink_ext hwf1 hlive₂')
 have hcosts := (unlink_costs hwf1 hlive₂').trans (unlink_costs hinv.wf hlive1)
 have hcnt := (unlink_edgeCount hwf1 hlive₂').trans (unlink_edgeCount hinv.wf hlive1)
 have hmem : ∀ e v, e ∈ ((s.unlink first).unlink second).adjacency v ↔
   e ≠ second ∧ e ≠ first ∧ e ∈ s.adjacency v := by
  intro e v
  rw [unlink_mem_adjacency hwf1 hlive₂', unlink_mem_adjacency hinv.wf hlive1]
 have hedges : ∀ e, (((s.unlink first).unlink second).edges e).lhs = (s.edges e).lhs ∧
   (((s.unlink first).unlink second).edges e).rhs = (s.edges e).rhs ∧
   (((s.unlink first).unlink second).edges e).matrix = (s.edges e).matrix := by
  intro e
  obtain ⟨hl1, hr1, hm1⟩ := unlink_entries hinv.wf hlive1 e
  grind [unlink_entries]
 have hlive : ∀ e, (((s.unlink first).unlink second).edges e).live = true ↔
   (s.edges e).live = true ∧ e ≠ first ∧ e ≠ second := by
  intro e
  rw [unlink_live hwf1 hlive₂', unlink_live hinv.wf hlive1, and_assoc]
 have htotal : ∀ x, s.total x = ((s.unlink first).unlink second).total x +
   s.cost second node (x node) (x (s.other second node)) +
   s.cost first node (x node) (x (s.other first node)) := by
  intro x
  have htotal1 := unlink_total hinv.wf hlive1 x
  have htotal2 := unlink_total hwf1 hlive₂' x
  rw [← cost_at htouch1] at htotal1
  rw [hsame, ← cost_at htouch2] at htotal2
  rw [htotal2, htotal1]
 rw [kill_unlink hinv.wf node hlive1, kill_unlink hwf1 node hlive₂']
 generalize (s.unlink first).unlink second = t at *
 have hempty : t.adjacency node = [] := by
  refine eq_nil_iff_forall_not_mem.2 fun e he => ?_
  rw [hmem, hadj] at he
  obtain ⟨he2, he1, he⟩ := he
  rcases mem_cons.1 he with rfl | he
  · exact he1 rfl
  · exact he2 (mem_singleton.1 he)
 refine
  { wf := (kill_wf hwf hempty hhole).congr rfl rfl rfl rfl rfl rfl (Subset.refl _) fun _ =>
    ⟨rfl, rfl, rfl⟩
    count := hext.count
    arity := hext.arity
    choices := hext.choices
    costs := hcosts
    edgeCount := hcnt
    alive := congrArg (Finset.erase · node) hext.alive
    reduced := congrArg (r2 node first second :: ·) hext.reduced
    edges := hedges
    live := fun e => (hlive e).trans (by simp [parts])
    left := fun e he => ?_
    total := fun x => ?_ }
 · have hcases : e = first ∨ e = second := by simpa [parts] using he
   rcases hcases with rfl | rfl
   · exact ⟨hlive1, htouch1⟩
   · exact ⟨hlive2, htouch2⟩
 · have halive : node ∈ t.alive := by rwa [hext.alive]
   have hkill := kill_total halive x
   rw [hcosts] at hkill
   change s.total x = (t.kill node).total x +
    (s.costs node (x node) + (s.cost first node (x node) (x (s.other first node)) +
     (s.cost second node (x node) (x (s.other second node)) + 0)))
   rw [htotal, hkill]
   omega

/-- R0 is exact; the node's least cost leaves the graph with it. -/
theorem reduceZero_exact (hadj : s.adjacency node = []) : Inv ((s.kill node).record (.r0 node)) ∧
   Exact s (s.costs node (s.bestResponse node [])) ((s.kill node).record (.r0 node)) := by
 have htaken := taken_zero hinv hnode hhole hadj
 have hext := Ext.refl ((s.kill node).record (.r0 node))
 refine ⟨htaken.inv hinv hext htaken.wf, htaken.exact hinv hext hnode fun x _ => ?_⟩
 have hcost : s.localCost (.r0 node) x (s.best (.r0 node) x) =
   s.costs node (s.bestResponse node []) := rfl
 rw [hcost, add_comm]

theorem reduceOne_exact (hadj : s.adjacency node = [edge]) :
  Inv (s.reduceOne node) ∧ Exact s 0 (s.reduceOne node) := by
 have htaken := taken_one hinv hnode hhole hadj
 have hmem : edge ∈ s.adjacency node := by simp [hadj]
 obtain ⟨-, -, hne, hnb, hnbne⟩ := adjacent_facts hinv hmem
 have heq : s.reduceOne node = (((s.kill node).unlink edge).record (.r1 node edge)).chargeNode
   (s.other edge node) (s.throughOne node edge (s.other edge node)) := by
  simp [reduceOne, hadj]
 rw [heq]
 generalize ((s.kill node).unlink edge).record (.r1 node edge) = t at htaken ⊢
 have hnbt : s.other edge node ∈ t.alive := by
  rw [htaken.alive]
  exact Finset.mem_erase.2 ⟨hnbne, hnb⟩
 have hwf := chargeNode_wf htaken.wf hnbt (s.throughOne node edge (s.other edge node))
 have hext := chargeNode_ext htaken.wf hnbt (s.throughOne node edge (s.other edge node))
 refine ⟨htaken.inv hinv hext hwf, htaken.exact hinv hext hnode fun x hx => ?_⟩
 have hcnt : node < s.count := hinv.wf.alive_lt node hnode
 obtain ⟨hbest, hmin⟩ := best_spec (r := .r1 node edge) (hinv.wf.arity_pos node hcnt) x
 have hlocal : ∀ own, s.localCost (.r1 node edge) x own = s.costs node own +
   s.cost edge (s.other edge node) (x (s.other edge node)) own := by
  intro own
  rw [cost_swap hne]
  rfl
 have hthrough : s.throughOne node edge (s.other edge node) (x (s.other edge node)) =
   cap (s.localCost (.r1 node edge) x (s.best (.r1 node edge) x)) := by
  simp only [hlocal] at hmin ⊢
  exact minSum_eq hbest hmin
 rw [zero_add, chargeNode_total htaken.wf (hx.congr htaken.count htaken.arity) hnbt, hthrough,
  cap_add_cap]

theorem reduceTwo_exact (hadj : s.adjacency node = [first, second]) :
  Inv (s.reduceTwo node) ∧ Exact s 0 (s.reduceTwo node) := by
 have htaken := taken_two hinv hnode hhole hadj
 have hmem1 : first ∈ s.adjacency node := by simp [hadj]
 have hmem2 : second ∈ s.adjacency node := by simp [hadj]
 obtain ⟨-, -, hne1, hleft, hleftne⟩ := adjacent_facts hinv hmem1
 obtain ⟨-, -, hne2, hright, hrightne⟩ := adjacent_facts hinv hmem2
 obtain ⟨-, hlr⟩ := two_neighbors hinv hadj
 set left := s.other first node with hl
 set right := s.other second node with hr
 have heq : s.reduceTwo node =
   ((((s.kill node).unlink first).unlink second).record (.r2 node first second)).charge left right
     (s.throughTwo node first second left right) := by
  simp [reduceTwo, hadj, hl, hr]
 rw [heq]
 generalize (((s.kill node).unlink first).unlink second).record (.r2 node first second) = t
  at htaken ⊢
 have hleftt : left ∈ t.alive := by
  rw [htaken.alive]
  exact Finset.mem_erase.2 ⟨hleftne, hleft⟩
 have hrightt : right ∈ t.alive := by
  rw [htaken.alive]
  exact Finset.mem_erase.2 ⟨hrightne, hright⟩
 have hwf := charge_wf htaken.wf (s.throughTwo node first second left right) hleftt hrightt hlr
 have hext := charge_ext htaken.wf (s.throughTwo node first second left right) hleftt hrightt hlr
 refine ⟨htaken.inv hinv hext hwf, htaken.exact hinv hext hnode fun x hx => ?_⟩
 have hcnt : node < s.count := hinv.wf.alive_lt node hnode
 obtain ⟨hbest, hmin⟩ := best_spec (r := .r2 node first second) (hinv.wf.arity_pos node hcnt) x
 have hlocal : ∀ own, cap (s.localCost (.r2 node first second) x own) =
   cap (add (s.cost first left (x left) own) (s.costs node own) +
    s.cost second right (x right) own) := by
  intro own
  have hsum : s.localCost (.r2 node first second) x own = s.costs node own +
    (s.cost first node own (x left) + (s.cost second node own (x right) + 0)) := rfl
  rw [hsum, add_eq_cap, cap_cap_add, hl, hr, cost_swap hne1, cost_swap hne2]
  congr 1
  omega
 have hthrough : s.throughTwo node first second left right (x left) (x right) =
   cap (s.localCost (.r2 node first second) x (s.best (.r2 node first second) x)) := by
  simp only [hlocal] at hmin ⊢
  exact minSum_eq hbest hmin
 rw [zero_add, charge_total htaken.wf (hx.congr htaken.count htaken.arity) _ hleftt hrightt hlr,
  hthrough, cap_add_cap]

end Reductions

/-! ## The loop of optimal reductions -/

theorem pop_inv (hinv : Inv s) {node : Nat} {rest : List Nat}
  (hp : s.pending = node :: rest) : Inv { s with pending := rest } (some node) := by
 refine ⟨⟨hinv.wf.alive_lt, hinv.wf.arity_pos, hinv.wf.edge_lt, hinv.wf.ends_ne,
  hinv.wf.ends_alive, hinv.wf.mem_adjacency, hinv.wf.adjacency_nodup, hinv.wf.between_iff, ?_⟩,
  hinv.dead, hinv.range⟩
 intro v hv hne hlen
 have hmem := hinv.wf.pending_low v hv (Option.some_ne_none v) hlen
 rw [hp] at hmem
 rcases mem_cons.1 hmem with rfl | hmem
 · exact absurd rfl hne
 · exact hmem

/-- The node taken off the stack needs no entry when it is gone or has too many edges. -/
theorem drop_inv {node : Nat} (hinv : Inv s (some node))
  (hskip : node ∉ s.alive ∨ 2 < (s.adjacency node).length) : Inv s := by
 refine ⟨⟨hinv.wf.alive_lt, hinv.wf.arity_pos, hinv.wf.edge_lt, hinv.wf.ends_ne,
  hinv.wf.ends_alive, hinv.wf.mem_adjacency, hinv.wf.adjacency_nodup, hinv.wf.between_iff, ?_⟩,
  hinv.dead, hinv.range⟩
 intro v hv _ hlen
 refine hinv.wf.pending_low v hv ?_ hlen
 grind

theorem reduceStep_exact (hinv : Inv s) (h : s.reduceStep = some s') :
  Inv s' ∧ ∃ k, Exact s k s' := by
 obtain ⟨node, rest, hp, hcase⟩ := reduceStep_cases h
 have hpop := pop_inv hinv hp
 have hframe : Exact s 0 { s with pending := rest } :=
  Exact.of_ext hinv ⟨rfl, rfl, rfl, rfl, rfl, le_rfl, fun _ _ _ => rfl, fun _ _ => rfl⟩
   fun _ _ => rfl
 have hhole : ∀ v, some node = some v → v = node := fun v hv => (Option.some.inj hv).symm
 rcases hcase with ⟨hskip, rfl⟩ | ⟨hmem, hadj, rfl⟩ | ⟨hmem, ⟨edge, hadj⟩, rfl⟩ |
  ⟨hmem, ⟨first, second, hadj⟩, rfl⟩
 · exact ⟨drop_inv hpop hskip, 0, hframe⟩
 · obtain ⟨hinv', hexact⟩ := reduceZero_exact hpop hmem hhole hadj
   exact ⟨hinv', _, hframe.trans hexact⟩
 · obtain ⟨hinv', hexact⟩ := reduceOne_exact hpop hmem hhole hadj
   exact ⟨hinv', _, hframe.trans hexact⟩
 · obtain ⟨hinv', hexact⟩ := reduceTwo_exact hpop hmem hhole hadj
   exact ⟨hinv', _, hframe.trans hexact⟩

/-- The loop of optimal reductions is exact and ends with no node left to look at. -/
theorem reduceOptimally_exact (hinv : Inv s) :
  (Inv s.reduceOptimally ∧ ∃ k, Exact s k s.reduceOptimally) ∧ s.reduceOptimally.pending = [] := by
 refine reduceOptimally_induct (P := fun t => Inv t ∧ ∃ k, Exact s k t) ?_
  ⟨hinv, 0, Exact.refl hinv⟩
 rintro t t' hstep ⟨hinvt, k, hexact⟩
 obtain ⟨hinv', k', hexact'⟩ := reduceStep_exact hinvt hstep
 exact ⟨hinv', k + k', hexact.trans hexact'⟩

/-- After the loop every node left has more than two edges. -/
theorem reduceOptimally_degree (hinv : Inv s) {v : Nat}
  (hv : v ∈ s.reduceOptimally.alive) : 2 < (s.reduceOptimally.adjacency v).length := by
 obtain ⟨⟨hinv', -⟩, hpending⟩ := reduceOptimally_exact hinv
 by_contra hlen
 have hmem := hinv'.wf.pending_low v hv (Option.some_ne_none v) (not_lt.1 hlen)
 grind

end Solver

end Tir.Pbqp
