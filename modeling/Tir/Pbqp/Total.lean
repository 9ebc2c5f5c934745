import Tir.Pbqp.Graph

/-!
# The cost of an assignment

`total s x` is what the assignment `x` costs in the graph left in the state `s`: the costs of the
nodes still there and of the live edges. Normalizing an edge moves costs to its ends and changes no
total (`normalize_total`); charging an edge or a node adds what is charged (`charge_total`,
`chargeNode_total`). Equalities hold after the cut at `infCost`.
-/

open Function Finset List

namespace Tir.Pbqp

/-- What an edge costs. -/
def Edge.term (e : Edge) (x : Nat → Nat) : Nat :=
 if e.live then e.matrix (x e.lhs) (x e.rhs) else 0

namespace Solver

/-! ## One row sweep -/

section Row

variable (k : Nat) (A B : Nat → Nat) (M : Matrix) (a : Nat)

/-- A row whose minimum does not saturate its node's cost. -/
theorem rowCosts_of_lt (ha : A a < infCost) :
  rowCosts k A B M a = cap (A a + rowMin k B M a) := by
 simp only [rowCosts, if_pos ha]
 split
 · grind [cap_of_lt]
 · exact add_eq_cap _ _

theorem rowCosts_of_le (ha : infCost ≤ A a) : rowCosts k A B M a = A a := by
 simp [rowCosts, if_neg (not_lt.2 ha)]

theorem lt_of_rowCosts_lt (h : rowCosts k A B M a < infCost) : A a < infCost := by
 grind [rowCosts_of_le]

theorem rowMatrix_of_lt (h : rowCosts k A B M a < infCost) (b : Nat) : rowMatrix k A B M a b =
   if rowMin k B M a = 0 then M a b else reducedCost (M a b) (rowMin k B M a) := by
 simp [rowMatrix, if_neg (not_le.2 h), if_pos (lt_of_rowCosts_lt k A B M a h)]

/-- The sweep moves costs from the row to its node. -/
theorem row_cap {b : Nat} (hb : b < k) :
  cap (rowCosts k A B M a + B b + rowMatrix k A B M a b) = cap (A a + B b + M a b) := by
 by_cases ha : A a < infCost
 · have hcost := rowCosts_of_lt k A B M a ha
   by_cases hB : B b < infCost
   · have hmin : rowMin k B M a ≤ M a b := minWhere_le hb (by simpa using hB) _
     by_cases hlt : rowCosts k A B M a < infCost
     · have hmat := rowMatrix_of_lt k A B M a hlt b
       rw [hcost, cap_lt_iff] at hlt
       rw [hmat, hcost, cap_of_lt hlt]
       by_cases hzero : rowMin k B M a = 0
       · rw [if_pos hzero, hzero, add_zero]
       · rw [if_neg hzero, reducedCost]
         split
         · rw [cap_of_le, cap_of_le] <;> omega
         · congr 1
           omega
     · rw [hcost, cap_lt_iff, not_lt] at hlt
       rw [hcost, cap_of_le hlt, cap_of_le, cap_of_le] <;> omega
   · rw [cap_of_le, cap_of_le] <;> omega
 · rw [rowCosts_of_le k A B M a (not_lt.1 ha), cap_of_le, cap_of_le] <;> omega

/-- An infinite entry stays infinite while its row is finite. -/
theorem lt_of_rowMatrix_lt {b : Nat} (h : rowCosts k A B M a < infCost)
  (hm : rowMatrix k A B M a b < infCost) : M a b < infCost := by
 rw [rowMatrix_of_lt k A B M a h b] at hm
 simp only [reducedCost] at hm
 split at hm
 · exact hm
 · split at hm <;> omega

/-- A row that stays finite has a finite entry at a finite column. -/
theorem row_support (h : rowCosts k A B M a < infCost) (hfin : ∃ b, b < k ∧ B b < infCost) :
  ∃ b, b < k ∧ B b < infCost ∧ M a b < infCost := by
 obtain ⟨b0, hb0, hB0⟩ := hfin
 obtain ⟨b, hb, hB, hmin⟩ :=
  @minWhere_attained k b0 (fun col => B col < infCost) hb0 (by simpa using hB0) (M a)
 refine ⟨b, hb, by simpa using hB, ?_⟩
 rw [rowCosts_of_lt k A B M a (lt_of_rowCosts_lt k A B M a h), cap_lt_iff] at h
 have hrow : rowMin k B M a = M a b := hmin
 omega

end Row

/-! ## Totals -/

/-- Every node has one of its alternatives. -/
def InRange (s : Solver) (x : Nat → Nat) : Prop := ∀ v, v < s.count → x v < s.arity v

/-- What the nodes of the graph cost. -/
def nodeSum (s : Solver) (x : Nat → Nat) : Nat := ∑ v ∈ s.alive, s.costs v (x v)

/-- What the edges of the graph cost. -/
def edgeSum (s : Solver) (x : Nat → Nat) : Nat :=
 ∑ e ∈ Finset.range s.edgeCount, (s.edges e).term x

/-- What an assignment costs in the graph. -/
def total (s : Solver) (x : Nat → Nat) : Nat := s.nodeSum x + s.edgeSum x

variable {S : Finset Nat} {g : Nat → Nat} {i : Nat} {s : Solver}

/-- Sums that differ in one term. -/
theorem sum_exchange {f : Nat → Nat} (hi : i ∈ S)
  (h : ∀ j ∈ S, j ≠ i → f j = g j) : ∑ j ∈ S, f j + g i = ∑ j ∈ S, g j + f i := by
 have hrest : ∑ j ∈ S.erase i, f j = ∑ j ∈ S.erase i, g j :=
  sum_congr rfl fun j hj => h j (Finset.mem_of_mem_erase hj) (ne_of_mem_erase hj)
 rw [← add_sum_erase S f hi, ← add_sum_erase S g hi, hrest]
 omega

/-- Sums that differ in two terms. -/
theorem sum_exchange₂ {f : Nat → Nat} {j : Nat} (hi : i ∈ S) (hj : j ∈ S)
  (hij : i ≠ j) (h : ∀ l ∈ S, l ≠ i → l ≠ j → f l = g l) :
  ∑ l ∈ S, f l + (g i + g j) = ∑ l ∈ S, g l + (f i + f j) := by
 have hfst := sum_exchange (f := f) (g := update f i (g i)) hi
  fun l _ hl => (update_of_ne hl _ _).symm
 have hsnd := sum_exchange (f := update f i (g i)) (g := g) hj fun l hl hlj => by
  by_cases hli : l = i
  · rw [hli, update_self]
  grind
 grind

theorem pair_le_sum {j : Nat} (hi : i ∈ S) (hj : j ∈ S)
  (hij : i ≠ j) : g i + g j ≤ ∑ l ∈ S, g l := by
 have hsum := sum_exchange₂ (f := fun l => if l = i ∨ l = j then 0 else g l) hi hj hij
  (fun l _ hli hlj => if_neg (by simp [hli, hlj]))
 grind

theorem blank_entry {edge : Nat} (hblank : s.blank edge = true) {a b : Nat}
  (ha : a < s.arity (s.edges edge).lhs) (hb : b < s.arity (s.edges edge).rhs) :
  (s.edges edge).matrix a b = 0 := by
 have hrow := all_eq_true.1 hblank a (List.mem_range.2 ha)
 grind

section Facts

variable {s : Solver} {hole : Option Nat} (h : WF s hole) {edge : Nat} (hlive : (s.edges edge).live = true)

include h hlive

theorem unlink_total (x : Nat → Nat) :
  (s.unlink edge).total x + (s.edges edge).matrix (x (s.edges edge).lhs) (x (s.edges edge).rhs) =
   s.total x := by
 have hedges := unlink_edges h hlive
 have hnodes : (s.unlink edge).nodeSum x = s.nodeSum x := by
  simp [nodeSum, unlink_costs h hlive, (unlink_ext h hlive).alive]
 have hsum := sum_exchange (f := fun e => ((s.unlink edge).edges e).term x)
  (g := fun e => (s.edges e).term x) (Finset.mem_range.2 (h.edge_lt edge hlive)) fun e _ he => by
   simp [unlink_edge_of_ne h hlive he]
 have hold : (s.edges edge).term x =
   (s.edges edge).matrix (x (s.edges edge).lhs) (x (s.edges edge).rhs) := if_pos hlive
 have hnew : ((s.unlink edge).edges edge).term x = 0 := by
  rw [hedges, update_self]
  rfl
 simp only [hold, hnew, add_zero] at hsum
 rw [total, total, hnodes, edgeSum, unlink_edgeCount h hlive, add_assoc, hsum]
 rfl

/-- The sweeps exchange costs between an edge and its ends. -/
theorem sweep_total {x : Nat → Nat} (hx : s.InRange x) :
  cap ((s.sweep edge).total x) = cap (s.total x) := by
 set u := (s.edges edge).lhs with hu
 set v := (s.edges edge).rhs with hv
 have hne : u ≠ v := h.ends_ne edge hlive
 obtain ⟨hua, hva⟩ : u ∈ s.alive ∧ v ∈ s.alive := h.ends_alive edge hlive
 have hxu : x u < s.arity u := hx u (h.alive_lt u hua)
 have hxv : x v < s.arity v := hx v (h.alive_lt v hva)
 set m := (s.edges edge).matrix with hm
 set A' := rowCosts (s.arity v) (s.costs u) (s.costs v) m with hA'
 set M' := rowMatrix (s.arity v) (s.costs u) (s.costs v) m with hM'
 set B' := rowCosts (s.arity u) (s.costs v) A' M'.transposed with hB'
 set M'' := rowMatrix (s.arity u) (s.costs v) A' M'.transposed with hM''
 -- the two sweeps, one after the other
 have hrow := row_cap (s.arity v) (s.costs u) (s.costs v) m (x u) hxv
 have hcol := row_cap (s.arity u) (s.costs v) A' M'.transposed (x v) hxu
 rw [← hA', ← hM'] at hrow
 rw [← hB', ← hM''] at hcol
 have hent : M'.transposed (x v) (x u) = M' (x u) (x v) := rfl
 have hpair : cap (A' (x u) + B' (x v) + M'' (x v) (x u)) =
   cap (s.costs u (x u) + s.costs v (x v) + m (x u) (x v)) := by
  grind
 have hcostu : (s.sweep edge).costs u (x u) = A' (x u) := by
  simp only [sweep, ← hu, ← hv, update_of_ne hne, update_self]
  rfl
 have hcostv : (s.sweep edge).costs v (x v) = B' (x v) := by
  simp only [sweep, ← hu, ← hv, update_self]
  rfl
 have hterm : ((s.sweep edge).edges edge).term x = M'' (x v) (x u) := by
  simp only [sweep, Edge.term, update_self, hlive, if_true]
  rfl
 have hterm0 : (s.edges edge).term x = m (x u) (x v) := if_pos hlive
 have hnodes := sum_exchange₂ (f := fun w => (s.sweep edge).costs w (x w))
  (g := fun w => s.costs w (x w)) hua hva hne fun w _ hwu hwv => by
   simp [sweep_costs_of_not_touches s (fun ht => ht.elim (fun e => hwu e.symm) fun e => hwv e.symm)]
 have hedges := sum_exchange (f := fun e => ((s.sweep edge).edges e).term x)
  (g := fun e => (s.edges e).term x) (Finset.mem_range.2 (h.edge_lt edge hlive)) fun e _ he => by
   simp [sweep_edge_of_ne s he]
 have hsplit : (s.sweep edge).total x + (s.costs u (x u) + s.costs v (x v) + m (x u) (x v)) =
   s.total x + (A' (x u) + B' (x v) + M'' (x v) (x u)) := by
  change (s.sweep edge).nodeSum x + _ = s.nodeSum x + _ at hnodes
  change (s.sweep edge).edgeSum x + _ = s.edgeSum x + _ at hedges
  simp only [total]
  omega
 have hle : s.costs u (x u) + s.costs v (x v) + m (x u) (x v) ≤ s.total x := by
  have hn := pair_le_sum (g := fun w => s.costs w (x w)) hua hva hne
  have he := Finset.single_le_sum (f := fun e => (s.edges e).term x) (fun _ _ => Nat.zero_le _)
   (Finset.mem_range.2 (h.edge_lt edge hlive))
  simp only [total, nodeSum, edgeSum]
  omega
 exact cap_exchange hsplit hle hpair

theorem normalize_total {x : Nat → Nat} (hx : s.InRange x) :
  cap ((s.normalize edge).total x) = cap (s.total x) := by
 refine normalize_cases (P := fun t => cap (t.total x) = cap (s.total x))
  (sweep_total h hlive hx) fun hblank => ?_
 have hwf := sweep_wf h edge
 have hlive' := sweep_live hlive
 obtain ⟨hua, hva⟩ := hwf.ends_alive edge hlive'
 have hzero := blank_entry hblank (hx _ (hwf.alive_lt _ hua)) (hx _ (hwf.alive_lt _ hva))
 have hsum := unlink_total hwf hlive' x
 rw [hzero, add_zero] at hsum
 rw [hsum]
 exact sweep_total h hlive hx

end Facts

section Charges

variable {s : Solver} {hole : Option Nat} (h : WF s hole) {x : Nat → Nat} (hx : s.InRange x)

include h

/-- What one term of an edge becomes under `addMatrix`. -/
theorem addMatrix_total {edge : Nat} (hlive : (s.edges edge).live = true) (delta : Matrix) (x : Nat → Nat) :
  cap ((s.addMatrix edge delta).total x) =
   cap (s.total x + delta (x (s.edges edge).lhs) (x (s.edges edge).rhs)) := by
 set m := (s.edges edge).matrix (x (s.edges edge).lhs) (x (s.edges edge).rhs) with hm
 set d := delta (x (s.edges edge).lhs) (x (s.edges edge).rhs) with hd
 have hterm0 : (s.edges edge).term x = m := if_pos hlive
 have hterm : ((s.addMatrix edge delta).edges edge).term x = cap (m + d) := by
  simp [addMatrix, Edge.term, update_self, hlive, Matrix.plus, add_eq_cap, hm, hd]
 have hedges := sum_exchange (f := fun e => ((s.addMatrix edge delta).edges e).term x)
  (g := fun e => (s.edges e).term x) (Finset.mem_range.2 (h.edge_lt edge hlive)) fun e _ he => by
   simp [addMatrix, update_of_ne he]
 change (s.addMatrix edge delta).edgeSum x + _ = s.edgeSum x + _ at hedges
 have hle : m ≤ s.edgeSum x := by
  rw [← hterm0]
  exact Finset.single_le_sum (f := fun e => (s.edges e).term x) (fun _ _ => Nat.zero_le _)
   (Finset.mem_range.2 (h.edge_lt edge hlive))
 have hnodes : (s.addMatrix edge delta).nodeSum x = s.nodeSum x := rfl
 refine cap_exchange (p := m + d) (q := cap (m + d)) ?_ ?_ ?_
 · simp only [total, hnodes]
   omega
 · simp only [total]
   omega
 · exact cap_of_cap _

omit h in
theorem pushEdge_total (l r : Nat) (m : Matrix) (x : Nat → Nat) :
  (s.pushEdge l r m).total x = s.total x + m (x l) (x r) := by
 have hold : ∑ e ∈ Finset.range s.edgeCount, ((s.pushEdge l r m).edges e).term x = s.edgeSum x :=
  sum_congr rfl fun e he => by
   simp [pushEdge, (Finset.mem_range.1 he).ne]
 have hnew : ((s.pushEdge l r m).edges s.edgeCount).term x = m (x l) (x r) := by
  simp [pushEdge, Edge.term]
 have hedges : (s.pushEdge l r m).edgeSum x = s.edgeSum x + m (x l) (x r) := by
  change ∑ e ∈ Finset.range (s.edgeCount + 1), ((s.pushEdge l r m).edges e).term x = _
  rw [Finset.sum_range_succ, hold, hnew]
 have hnodes : (s.pushEdge l r m).nodeSum x = s.nodeSum x := rfl
 simp only [total, hedges, hnodes]
 omega

include hx

theorem charge_total {l r : Nat} (delta : Matrix) (hl : l ∈ s.alive) (hr : r ∈ s.alive) (hne : l ≠ r) :
  cap ((s.charge l r delta).total x) = cap (s.total x + delta (x l) (x r)) := by
 obtain ⟨t, edge, heq, hwf, hext, hlive, -, hcase⟩ := charge_cases h l r delta hl hr hne
 have hxt : t.InRange x := fun v hv => by
  rw [hext.arity]
  exact hx v (by rwa [hext.count] at hv)
 rw [heq, normalize_total hwf hlive hxt]
 rcases hcase with ⟨d, rfl, hlive0, hd⟩ | ⟨rfl, rfl⟩
 · rw [addMatrix_total h hlive0]
   rcases hd with ⟨hel, her, rfl⟩ | ⟨hel, her, rfl⟩
   · rw [hel, her]
   · rw [hel, her]
     rfl
 · rw [pushEdge_total]

theorem chargeNode_total {node : Nat} (hnode : node ∈ s.alive) (delta : Nat → Nat) :
  cap ((s.chargeNode node delta).total x) = cap (s.total x + delta (x node)) := by
 have hwf : WF (s.addCosts node delta) hole :=
  h.congr rfl rfl rfl rfl rfl rfl (List.Subset.refl _) fun e => ⟨rfl, rfl, rfl⟩
 refine (chargeNode_induct (P := fun t => WF t hole ∧ t.InRange x ∧
  cap (t.total x) = cap (s.total x + delta (x node))) ⟨hwf, hx, ?_⟩ ?_ ?_).2.2
 · set c := s.costs node (x node) with hc
   have hnew : (s.addCosts node delta).costs node (x node) = cap (c + delta (x node)) := by
    simp [addCosts, add_eq_cap, hc]
   have hnodes := sum_exchange (f := fun v => (s.addCosts node delta).costs v (x v))
    (g := fun v => s.costs v (x v)) hnode fun v _ hv => by
     simp [addCosts, update_of_ne hv]
   change (s.addCosts node delta).nodeSum x + _ = s.nodeSum x + _ at hnodes
   have hle : c ≤ s.nodeSum x := Finset.single_le_sum (f := fun v => s.costs v (x v))
    (fun _ _ => Nat.zero_le _) hnode
   have hedges : (s.addCosts node delta).edgeSum x = s.edgeSum x := rfl
   refine cap_exchange (p := c + delta (x node)) (q := cap (c + delta (x node))) ?_ ?_ ?_
   · simp only [total, hedges]
     omega
   · simp only [total]
     omega
   · exact cap_of_cap _
 · rintro t e - hlive ⟨hwf, hxt, htotal⟩
   have hext := normalize_ext hwf hlive
   refine ⟨normalize_wf hwf hlive, fun v hv => ?_, ?_⟩
   · rw [hext.arity]
     exact hxt v (by rwa [hext.count] at hv)
   grind [normalize_total]
 · rintro t p hp ⟨hwf, hxt, htotal⟩
   exact ⟨hwf.congr rfl rfl rfl rfl rfl rfl hp fun e => ⟨rfl, rfl, rfl⟩, hxt, htotal⟩

end Charges

/-- A node without live edges adds its own cost only. -/
theorem kill_total {node : Nat} (hnode : node ∈ s.alive) (x : Nat → Nat) :
  s.total x = (s.kill node).total x + s.costs node (x node) := by
 have hnodes : s.nodeSum x = s.costs node (x node) + (s.kill node).nodeSum x :=
  (add_sum_erase s.alive (fun v => s.costs v (x v)) hnode).symm
 have hedges : (s.kill node).edgeSum x = s.edgeSum x := rfl
 simp only [total, hnodes, hedges]
 omega

/-- The total reads the alternatives of the nodes in the graph. -/
theorem total_congr {hole : Option Nat} (h : WF s hole) {x y : Nat → Nat} (hxy : ∀ v ∈ s.alive, x v = y v) :
  s.total x = s.total y := by
 have hnodes : s.nodeSum x = s.nodeSum y := sum_congr rfl fun v hv => by rw [hxy v hv]
 have hedges : s.edgeSum x = s.edgeSum y := sum_congr rfl fun e _ => by
  simp only [Edge.term]
  split
  · rename_i hlive
    obtain ⟨hl, hr⟩ := h.ends_alive e hlive
    rw [hxy _ hl, hxy _ hr]
  · rfl
 simp [total, hnodes, hedges]

/-! ## Edges seen from a node -/

section Seen

variable {s : Solver} {edge node : Nat}

theorem other_touches : (s.edges edge).touches (s.other edge node) := by
 simp only [other]
 split
 · exact .inr rfl
 · exact .inl rfl

theorem other_ne (hne : (s.edges edge).lhs ≠ (s.edges edge).rhs) : s.other edge node ≠ node := by
 simp only [other]
 split
 · grind
 · rename_i hl
   exact hl

/-- The same edge seen from its two ends. -/
theorem cost_swap (hne : (s.edges edge).lhs ≠ (s.edges edge).rhs) (own alt : Nat) :
  s.cost edge (s.other edge node) alt own = s.cost edge node own alt := by
 by_cases hl : (s.edges edge).lhs = node
 · have hother : s.other edge node = (s.edges edge).rhs := if_pos hl
   rw [hother, cost, cost, if_pos hl, if_neg hne]
 · have hother : s.other edge node = (s.edges edge).lhs := if_neg hl
   rw [hother, cost, cost, if_neg hl, if_pos rfl]

variable (htouch : (s.edges edge).touches node)

include htouch

/-- The cost of an edge under an assignment, seen from one of its ends. -/
theorem cost_at (x : Nat → Nat) : s.cost edge node (x node) (x (s.other edge node)) =
  (s.edges edge).matrix (x (s.edges edge).lhs) (x (s.edges edge).rhs) := by
 simp only [cost, other]
 split
 · rename_i hl
   rw [hl]
 · rename_i hl
   rcases htouch with hlhs | hrhs
   · exact absurd hlhs hl
   · rw [hrhs]

theorem key_other : key node (s.other edge node) = key (s.edges edge).lhs (s.edges edge).rhs := by
 simp only [other]
 split
 · rename_i hl
   rw [hl]
 · rename_i hl
   rcases htouch with hlhs | hrhs
   · exact absurd hlhs hl
   · rw [← hrhs, key_comm]

end Seen

end Solver

end Tir.Pbqp
