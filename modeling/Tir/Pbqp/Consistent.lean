import Tir.Pbqp.Merge

/-!
# Assignments that are consistent up to a position

`pos` gives every node a position. An assignment is consistent below `t` (`OkBelow`) when no node
at a position below `t` and no live edge between two such nodes costs infinity. Here is what the
consistency of an assignment after each operation says about the state before it: charges are only
added, so it was consistent before, and what was charged is finite.
-/

open Function Finset

namespace Tir.Pbqp

namespace Solver

/-- No node and no edge below `t` costs infinity. -/
structure OkBelow (s : Solver) (pos : Nat → Nat) (t : Nat) (x : Nat → Nat) : Prop where
 node : ∀ v ∈ s.alive, pos v < t → s.costs v (x v) < infCost
 edge : ∀ e, (s.edges e).live = true → pos (s.edges e).lhs < t → pos (s.edges e).rhs < t →
  (s.edges e).matrix (x (s.edges e).lhs) (x (s.edges e).rhs) < infCost

variable {pos : Nat → Nat} {t : Nat} {x : Nat → Nat}

theorem costs_le_total {s : Solver} {v : Nat} (hv : v ∈ s.alive) (x : Nat → Nat) :
  s.costs v (x v) ≤ s.total x := by
 have hle := single_le_sum (f := fun v => s.costs v (x v)) (fun _ _ => Nat.zero_le _) hv
 simp only [total, nodeSum]
 omega

theorem okBelow_congr {s : Solver} {hole : Option Nat} (h : WF s hole) {y : Nat → Nat}
  (hxy : ∀ v ∈ s.alive, pos v < t → x v = y v) (hok : OkBelow s pos t x) : OkBelow s pos t y := by
 constructor
 · intro v hv hpos
   rw [← hxy v hv hpos]
   exact hok.node v hv hpos
 · intro e hlive hl hr
   obtain ⟨hla, hra⟩ := h.ends_alive e hlive
   rw [← hxy _ hla hl, ← hxy _ hra hr]
   exact hok.edge e hlive hl hr

section Unlink

variable {s : Solver} {hole : Option Nat} (h : WF s hole) {edge : Nat} (hlive : (s.edges edge).live = true)

include h hlive

theorem unlink_ok (hok : OkBelow (s.unlink edge) pos t x)
  (hedge : pos (s.edges edge).lhs < t → pos (s.edges edge).rhs < t →
   (s.edges edge).matrix (x (s.edges edge).lhs) (x (s.edges edge).rhs) < infCost) :
  OkBelow s pos t x := by
 constructor
 · intro v hv hpos
   have hlt := hok.node v (by rwa [(unlink_ext h hlive).alive]) hpos
   rwa [unlink_costs h hlive] at hlt
 · intro e he
   by_cases hne : e = edge
   · subst hne
     exact hedge
   · have hsame := unlink_edge_of_ne h hlive hne
     have hlt := hok.edge e (by rwa [hsame])
     rwa [hsame] at hlt

/-- What the sweeps leave finite was finite. -/
theorem sweep_entries_lt {a b : Nat} (ha : (s.sweep edge).costs (s.edges edge).lhs a < infCost)
  (hb : (s.sweep edge).costs (s.edges edge).rhs b < infCost) (hm : ((s.sweep edge).edges edge).matrix a b < infCost) :
  (s.edges edge).matrix a b < infCost := by
 have hne := h.ends_ne edge hlive
 simp only [sweep, update_of_ne hne, update_self] at ha hb hm
 -- first the column sweep, then the row sweep
 have hrow := lt_of_rowMatrix_lt _ _ _ _ _ hb hm
 exact lt_of_rowMatrix_lt _ _ _ _ _ ha hrow

theorem sweep_ok (hok : OkBelow (s.sweep edge) pos t x) : OkBelow s pos t x := by
 constructor
 · intro v hv hpos
   exact sweep_costs_lt s (hok.node v hv hpos)
 · intro e he hl hr
   by_cases hne : e = edge
   · subst hne
     obtain ⟨hlhs, hrhs, hlv⟩ := sweep_ends s e e
     obtain ⟨hla, hra⟩ := h.ends_alive e he
     refine sweep_entries_lt h hlive (hok.node _ hla hl) (hok.node _ hra hr) ?_
     have hlt := hok.edge e (by rwa [hlv]) (by rwa [hlhs]) (by rwa [hrhs])
     rwa [hlhs, hrhs] at hlt
   · have hsame := sweep_edge_of_ne s hne
     have hlt := hok.edge e (by rwa [hsame]) (by rwa [hsame]) (by rwa [hsame])
     rwa [hsame] at hlt

theorem normalize_ok (hx : s.InRange x) (hok : OkBelow (s.normalize edge) pos t x) :
  OkBelow s pos t x := by
 have hwf := sweep_wf h edge
 have hlive' := sweep_live hlive
 refine sweep_ok h hlive ?_
 revert hok
 refine normalize_cases (P := fun u => OkBelow u pos t x → OkBelow (s.sweep edge) pos t x) id ?_
 intro hblank hok
 refine unlink_ok hwf hlive' hok fun _ _ => ?_
 obtain ⟨hla, hra⟩ := hwf.ends_alive edge hlive'
 rw [blank_entry hblank (hx _ (hwf.alive_lt _ hla)) (hx _ (hwf.alive_lt _ hra))]
 exact infCost_pos

/-- An alternative that normalizing leaves finite has a finite partner across the edge, unless the
whole graph is infinite. -/
theorem normalize_support {y : Nat → Nat} (hy : s.InRange y)
  (hfin : (s.normalize edge).total y < infCost) {node a : Nat}
  (htouch : (s.edges edge).touches node) (ha : (s.normalize edge).costs node a < infCost) :
  ∃ b, b < s.arity (s.other edge node) ∧ s.cost edge node a b < infCost := by
 have hne := h.ends_ne edge hlive
 obtain ⟨hla, hra⟩ := h.ends_alive edge hlive
 have hcosts := normalize_costs h hlive
 have halive := (normalize_ext h hlive).alive
 have hyl : (s.sweep edge).costs (s.edges edge).lhs (y (s.edges edge).lhs) < infCost := by
  rw [← hcosts]
  exact (costs_le_total (halive ▸ hla) y).trans_lt hfin
 have hyr : (s.sweep edge).costs (s.edges edge).rhs (y (s.edges edge).rhs) < infCost := by
  rw [← hcosts]
  exact (costs_le_total (halive ▸ hra) y).trans_lt hfin
 rw [hcosts] at ha
 by_cases hl : (s.edges edge).lhs = node
 · subst hl
   have hother : s.other edge (s.edges edge).lhs = (s.edges edge).rhs := if_pos rfl
   have hra' : (s.costs (s.edges edge).rhs) (y (s.edges edge).rhs) < infCost := sweep_costs_lt s hyr
   simp only [sweep, update_of_ne hne, update_self] at ha
   obtain ⟨b, hb, -, hm⟩ := row_support _ _ _ _ _ ha
    ⟨y (s.edges edge).rhs, hy _ (h.alive_lt _ hra), hra'⟩
   refine ⟨b, by rwa [hother], ?_⟩
   rw [cost, if_pos rfl]
   exact hm
 · have hr : (s.edges edge).rhs = node := htouch.resolve_left hl
   subst hr
   have hother : s.other edge (s.edges edge).rhs = (s.edges edge).lhs := if_neg hl
   simp only [sweep, update_of_ne hne, update_self] at ha hyl
   obtain ⟨b, hb, hbl, hm⟩ := row_support _ _ _ _ _ ha
    ⟨y (s.edges edge).lhs, hy _ (h.alive_lt _ hla), hyl⟩
   refine ⟨b, by rwa [hother], ?_⟩
   rw [cost, if_neg hl]
   exact lt_of_rowMatrix_lt _ _ _ _ _ hbl hm

end Unlink

/-! ## Charges -/

section Charge

variable {s : Solver} {hole : Option Nat} (h : WF s hole)

include h

/-- The edge that `charge` normalizes carries at least what is charged. -/
theorem charge_ok (hx : s.InRange x) {l r : Nat} (delta : Matrix) (hl : l ∈ s.alive)
  (hr : r ∈ s.alive) (hne : l ≠ r) (hok : OkBelow (s.charge l r delta) pos t x) :
  OkBelow s pos t x ∧ (pos l < t → pos r < t → delta (x l) (x r) < infCost) := by
 obtain ⟨u, edge, heq, hwf, hext, hlive, -, hcase⟩ := charge_cases h l r delta hl hr hne
 rw [heq] at hok
 have hoku := normalize_ok hwf hlive (hx.congr hext.count hext.arity) hok
 rcases hcase with ⟨d, rfl, hlive0, hd⟩ | ⟨rfl, rfl⟩
 · have hplus : ∀ a b, ((s.addMatrix edge d).edges edge).matrix a b =
     cap ((s.edges edge).matrix a b + d a b) := fun a b => by
    simp [addMatrix, Matrix.plus, add_eq_cap]
   obtain ⟨hlhs, hrhs, -⟩ := addMatrix_ends (s := s) edge d edge
   have hent : pos (s.edges edge).lhs < t → pos (s.edges edge).rhs < t →
     (s.edges edge).matrix (x (s.edges edge).lhs) (x (s.edges edge).rhs) +
      d (x (s.edges edge).lhs) (x (s.edges edge).rhs) < infCost := by
    intro hpl hpr
    have hlt := hoku.edge edge hlive (by rwa [hlhs]) (by rwa [hrhs])
    rwa [hplus, hlhs, hrhs, cap_lt_iff] at hlt
   refine ⟨⟨hoku.node, fun e he hpl hpr => ?_⟩, fun hpl hpr => ?_⟩
   · by_cases hee : e = edge
     · grind
     · have hsame : (s.addMatrix edge d).edges e = s.edges e := by simp [addMatrix, hee]
       have hlt := hoku.edge e (by rwa [hsame]) (by rwa [hsame]) (by rwa [hsame])
       rwa [hsame] at hlt
   · rcases hd with ⟨hel, her, rfl⟩ | ⟨hel, her, rfl⟩
     · grind
     · rw [hel, her] at hent
       have hlt := hent hpr hpl
       have hsame : delta.transposed (x r) (x l) = delta (x l) (x r) := rfl
       omega
 · have hnew : (s.pushEdge l r delta).edges s.edgeCount = ⟨l, r, delta, true⟩ := by
    simp [pushEdge]
   refine ⟨⟨hoku.node, fun e he hpl hpr => ?_⟩, fun hpl hpr => ?_⟩
   · have hsame : (s.pushEdge l r delta).edges e = s.edges e := by
      simp [pushEdge, (h.edge_lt e he).ne]
     have hlt := hoku.edge e (by rwa [hsame]) (by rwa [hsame]) (by rwa [hsame])
     rwa [hsame] at hlt
   · have hlt := hoku.edge s.edgeCount hlive (by rwa [hnew]) (by rwa [hnew])
     rwa [hnew] at hlt

/-- An alternative left finite at an end of the charged edge has a partner to which a finite cost
was charged. -/
theorem charge_support {l r : Nat} (delta : Matrix) (hl : l ∈ s.alive) (hr : r ∈ s.alive)
  (hne : l ≠ r) {y : Nat → Nat} (hy : s.InRange y) (hfin : (s.charge l r delta).total y < infCost) :
  (∀ a, (s.charge l r delta).costs l a < infCost → ∃ b, b < s.arity r ∧ delta a b < infCost) ∧
   ∀ b, (s.charge l r delta).costs r b < infCost → ∃ a, a < s.arity l ∧ delta a b < infCost := by
 obtain ⟨u, edge, heq, hwf, hext, hlive, hkey, hcase⟩ := charge_cases h l r delta hl hr hne
 rw [heq] at hfin ⊢
 have hsupport := fun {node a : Nat} (ht : (u.edges edge).touches node)
   (ha : (u.normalize edge).costs node a < infCost) =>
  normalize_support hwf hlive (hy.congr hext.count hext.arity) hfin ht ha
 rw [hext.arity] at hsupport
 have htouch : (u.edges edge).touches l ∧ (u.edges edge).touches r := by
  rcases key_eq_iff.1 hkey with ⟨hel, her⟩ | ⟨hel, her⟩
  · exact ⟨.inl hel, .inr her⟩
  · exact ⟨.inr her, .inl hel⟩
 have hothers : u.other edge l = r ∧ u.other edge r = l := by
  rcases key_eq_iff.1 hkey with ⟨hel, her⟩ | ⟨hel, her⟩
  · refine ⟨?_, ?_⟩
    · rw [other, if_pos hel, her]
    · rw [other, hel, if_neg hne]
  · refine ⟨?_, ?_⟩
    · rw [other, hel, if_neg hne.symm]
    · rw [other, if_pos hel, her]
 -- the charged entry is at most the edge's
 have hent : ∀ a b, u.cost edge l a b < infCost → delta a b < infCost := by
  intro a b hlt
  rcases hcase with ⟨d, rfl, -, hd⟩ | ⟨rfl, rfl⟩
  · obtain ⟨hlhs, -, -⟩ := addMatrix_ends (s := s) edge d edge
    have hplus : ∀ a b, ((s.addMatrix edge d).edges edge).matrix a b =
      cap ((s.edges edge).matrix a b + d a b) := fun a b => by
     simp [addMatrix, Matrix.plus, add_eq_cap]
    rcases hd with ⟨hel, -, rfl⟩ | ⟨hel, -, rfl⟩
    · rw [cost, hlhs, if_pos hel, hplus, cap_lt_iff] at hlt
      omega
    · rw [cost, hlhs, hel, if_neg hne.symm, hplus, cap_lt_iff] at hlt
      have hsame : delta.transposed b a = delta a b := rfl
      omega
  · simpa [cost, pushEdge] using hlt
 refine ⟨fun a ha => ?_, fun b hb => ?_⟩
 · grind
 · obtain ⟨a, ha, hlt⟩ := hsupport htouch.2 hb
   rw [hothers.2] at ha
   refine ⟨a, ha, hent a b ?_⟩
   have hswap := @cost_swap u edge l (hwf.ends_ne edge hlive) a b
   grind

theorem chargeNode_ok (hx : s.InRange x) {node : Nat} (hnode : node ∈ s.alive) (delta : Nat → Nat)
  (hok : OkBelow (s.chargeNode node delta) pos t x) :
  OkBelow s pos t x ∧ (pos node < t → delta (x node) < infCost) := by
 have hwf : WF (s.addCosts node delta) hole :=
  h.congr rfl rfl rfl rfl rfl rfl (List.Subset.refl _) fun e => ⟨rfl, rfl, rfl⟩
 -- normalizing the node's edges goes back to the state with the costs added
 have hadd : OkBelow (s.addCosts node delta) pos t x := by
  refine (chargeNode_induct (P := fun u => WF u hole ∧ u.InRange x ∧
   (OkBelow u pos t x → OkBelow (s.addCosts node delta) pos t x)) ⟨hwf, hx, id⟩ ?_ ?_).2.2 hok
  · rintro u e - hlive ⟨hwfu, hxu, hback⟩
    have hext := normalize_ext hwfu hlive
    exact ⟨normalize_wf hwfu hlive, hxu.congr hext.count hext.arity, fun hoku =>
     hback (normalize_ok hwfu hlive hxu hoku)⟩
  · rintro u p hp ⟨hwfu, hxu, hback⟩
    exact ⟨hwfu.congr rfl rfl rfl rfl rfl rfl hp fun e => ⟨rfl, rfl, rfl⟩, hxu, fun hoku =>
     hback ⟨hoku.node, hoku.edge⟩⟩
 have hcost : ∀ a, (s.addCosts node delta).costs node a = cap (s.costs node a + delta a) := by
  intro a
  simp [addCosts, add_eq_cap]
 refine ⟨⟨fun v hv hpos => ?_, hadd.edge⟩, fun hpos => ?_⟩
 · have hlt := hadd.node v hv hpos
   by_cases hvn : v = node
   · subst hvn
     rw [hcost, cap_lt_iff] at hlt
     omega
   · have hsame : (s.addCosts node delta).costs v = s.costs v := by simp [addCosts, hvn]
     rwa [hsame] at hlt
 · have hlt := hadd.node node hnode hpos
   rw [hcost, cap_lt_iff] at hlt
   omega

end Charge

/-- Putting a node back with a finite alternative. -/
theorem Taken.ok {s u : Solver} {r : Reduced} (h : Taken s r u) (hok : OkBelow u pos t x)
  (hnode : pos r.parts.1 < t → s.costs r.parts.1 (x r.parts.1) < infCost)
  (hedges : ∀ e ∈ r.parts.2, pos r.parts.1 < t → pos (s.other e r.parts.1) < t →
   s.cost e r.parts.1 (x r.parts.1) (x (s.other e r.parts.1)) < infCost) :
  OkBelow s pos t x := by
 constructor
 · intro v hv hpos
   by_cases hvr : v = r.parts.1
   · subst hvr
     exact hnode hpos
   · have hlt := hok.node v (by rw [h.alive]; exact mem_erase.2 ⟨hvr, hv⟩) hpos
     rwa [h.costs] at hlt
 · intro e he hl hr
   by_cases hmem : e ∈ r.parts.2
   · obtain ⟨-, htouch⟩ := h.left e hmem
     rw [← cost_at htouch]
     have hother : (s.edges e).touches (s.other e r.parts.1) := other_touches
     refine hedges e hmem ?_ ?_
     · rcases htouch with ht | ht
       · rwa [ht] at hl
       · rwa [ht] at hr
     · rcases hother with ht | ht
       · rwa [← ht]
       · rwa [← ht]
   · obtain ⟨hlhs, hrhs, hmatrix⟩ := h.edges e
     have hlt := hok.edge e ((h.live e).2 ⟨he, hmem⟩) (by rwa [hlhs]) (by rwa [hrhs])
     rwa [hlhs, hrhs, hmatrix] at hlt

end Solver

end Tir.Pbqp
