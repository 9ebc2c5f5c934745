import Tir.Pbqp.Solver

/-!
# The solver's graph

The adjacency lists, the table `between` and the stack `pending` are redundant descriptions of the
live edges. `WF` says that they agree with them, and every operation on edges keeps it. `Ext` says
what such an operation leaves alone: the nodes in the graph, the reductions and choices recorded so
far, every edge that is no longer live and the costs of every node that is no longer in the graph.
Back-propagation reads only those, so it is not disturbed by later work (`backPropagate_ext`).
-/

open List Function Nat Finset Option

namespace Tir.Pbqp

/-! ## `swap_remove` -/

variable {e : Nat} {l : List Nat}

theorem swapRemove_perm (he : e ∈ l) : (swapRemove l e).Perm (l.erase e) := by
 rcases eq_nil_or_concat l with rfl | ⟨init, last, rfl⟩
 · nomatch he
 · simp only [concat_eq_append] at he ⊢
   simp only [swapRemove, getLast?_append, getLast?_singleton, some_or]
   by_cases hin : e ∈ init
   · grind
   grind

theorem mem_swapRemove {f : Nat} (hl : l.Nodup) (he : e ∈ l) :
  f ∈ swapRemove l e ↔ f ≠ e ∧ f ∈ l := by
 rw [(swapRemove_perm he).mem_iff, hl.mem_erase_iff]

theorem swapRemove_nodup (hl : l.Nodup) (he : e ∈ l) : (swapRemove l e).Nodup :=
 (swapRemove_perm he).nodup_iff.2 (hl.erase e)

theorem key_comm (a b : Nat) : key a b = key b a := by
 simp [key, min_comm, max_comm]

/-- The key determines the two nodes up to exchange. -/
theorem key_eq_iff {a b c d : Nat} : key a b = key c d ↔ (a = c ∧ b = d) ∨ (a = d ∧ b = c) := by
 simp only [key, Prod.mk.injEq]
 omega

/-! ## Well-formed states -/

def Edge.touches (e : Edge) (node : Nat) : Prop := e.lhs = node ∨ e.rhs = node

instance (e : Edge) (node : Nat) : Decidable (e.touches node) :=
 inferInstanceAs (Decidable (e.lhs = node ∨ e.rhs = node))

/-- The descriptions of the graph agree with its live edges. `hole` is a node just taken off the
stack, if any. -/
structure WF (s : Solver) (hole : Option Nat := none) : Prop where
 alive_lt : ∀ v ∈ s.alive, v < s.count
 arity_pos : ∀ v, v < s.count → 0 < s.arity v
 edge_lt : ∀ e, (s.edges e).live = true → e < s.edgeCount
 ends_ne : ∀ e, (s.edges e).live = true → (s.edges e).lhs ≠ (s.edges e).rhs
 ends_alive : ∀ e, (s.edges e).live = true → (s.edges e).lhs ∈ s.alive ∧ (s.edges e).rhs ∈ s.alive
 mem_adjacency : ∀ e v, e ∈ s.adjacency v ↔ (s.edges e).live = true ∧ (s.edges e).touches v
 adjacency_nodup : ∀ v, (s.adjacency v).Nodup
 between_iff : ∀ k e, s.between k = some e ↔
  (s.edges e).live = true ∧ key (s.edges e).lhs (s.edges e).rhs = k
 pending_low : ∀ v ∈ s.alive, some v ≠ hole → (s.adjacency v).length ≤ 2 → v ∈ s.pending

/-- What work on edges leaves alone. -/
structure Ext (s s' : Solver) : Prop where
 count : s'.count = s.count
 arity : s'.arity = s.arity
 alive : s'.alive = s.alive
 reduced : s'.reduced = s.reduced
 choices : s'.choices = s.choices
 edgeCount : s.edgeCount ≤ s'.edgeCount
 dead_edge : ∀ e, e < s.edgeCount → (s.edges e).live = false → s'.edges e = s.edges e
 dead_costs : ∀ v, v ∉ s.alive → s'.costs v = s.costs v

namespace Ext

theorem refl (s : Solver) : Ext s s :=
 ⟨rfl, rfl, rfl, rfl, rfl, le_rfl, fun _ _ _ => rfl, fun _ _ => rfl⟩

theorem trans {s t u : Solver} (h : Ext s t) (h' : Ext t u) : Ext s u where
 count := h'.count.trans h.count
 arity := h'.arity.trans h.arity
 alive := h'.alive.trans h.alive
 reduced := h'.reduced.trans h.reduced
 choices := h'.choices.trans h.choices
 edgeCount := h.edgeCount.trans h'.edgeCount
 dead_edge := by
  intro e he hdead
  have hsame := h.dead_edge e he hdead
  rw [h'.dead_edge e (he.trans_le h.edgeCount) (by rw [hsame]; exact hdead), hsame]
 dead_costs := by
  intro v hv
  rw [h'.dead_costs v (by rw [h.alive]; exact hv), h.dead_costs v hv]

end Ext

namespace WF

variable {s s' : Solver} {hole : Option Nat}

/-- Well-formedness reads only the ends and the liveness of the edges. -/
theorem congr (h : WF s hole) (hcnt : s'.count = s.count) (harity : s'.arity = s.arity)
  (hedgeCount : s'.edgeCount = s.edgeCount) (hadj : s'.adjacency = s.adjacency)
  (hbetween : s'.between = s.between) (halive : s'.alive = s.alive) (hpending : s.pending ⊆ s'.pending)
  (hedges : ∀ e, (s'.edges e).lhs = (s.edges e).lhs ∧ (s'.edges e).rhs = (s.edges e).rhs ∧
   (s'.edges e).live = (s.edges e).live) : WF s' hole := by
 refine ⟨?_, ?_, ?_, ?_, ?_, ?_, ?_, ?_, ?_⟩
 · rw [halive, hcnt]
   exact h.alive_lt
 · rw [harity, hcnt]
   exact h.arity_pos
 · intro e he
   rw [(hedges e).2.2] at he
   rw [hedgeCount]
   exact h.edge_lt e he
 · intro e he
   rw [(hedges e).2.2] at he
   rw [(hedges e).1, (hedges e).2.1]
   exact h.ends_ne e he
 · intro e he
   rw [(hedges e).2.2] at he
   rw [(hedges e).1, (hedges e).2.1, halive]
   exact h.ends_alive e he
 · intro e v
   rw [hadj, h.mem_adjacency, Edge.touches, Edge.touches, (hedges e).1, (hedges e).2.1,
    (hedges e).2.2]
 · rw [hadj]
   exact h.adjacency_nodup
 · intro k e
   rw [hbetween, h.between_iff, (hedges e).1, (hedges e).2.1, (hedges e).2.2]
 · intro v hv hhole hlen
   rw [halive] at hv
   rw [hadj] at hlen
   exact hpending (h.pending_low v hv hhole hlen)

/-- Two live edges between the same nodes are one. -/
theorem edge_unique (h : WF s hole) {e f : Nat} (he : (s.edges e).live = true) (hf : (s.edges f).live = true)
  (hkey : key (s.edges e).lhs (s.edges e).rhs = key (s.edges f).lhs (s.edges f).rhs) : e = f := by
 have hbe := (h.between_iff _ e).2 ⟨he, hkey⟩
 have hbf := (h.between_iff _ f).2 ⟨hf, rfl⟩
 grind

end WF

/-! ## Removing an edge -/

namespace Solver

theorem pushIfLow_spec (s : Solver) (node : Nat) : ∃ p, s.pushIfLow node = { s with pending := p } ∧ s.pending ⊆ p ∧
   ((s.adjacency node).length ≤ 2 → node ∈ p) := by
 by_cases hlen : (s.adjacency node).length ≤ 2
 · refine ⟨node :: s.pending, if_pos hlen, subset_cons_self _ _, fun _ => ?_⟩
   exact .head _
 · exact ⟨s.pending, if_neg hlen, Subset.refl _, fun h => absurd h hlen⟩

/-- What `unlink` does to the state; only the new stack is left open. -/
theorem unlink_spec (s : Solver) (edge : Nat) (hne : (s.edges edge).lhs ≠ (s.edges edge).rhs) : ∃ p, s.unlink edge =
    { s with
      edges := update s.edges edge { s.edges edge with live := false }
      adjacency := fun v =>
       if (s.edges edge).touches v then swapRemove (s.adjacency v) edge else s.adjacency v
      between :=
       update s.between (key (s.edges edge).lhs (s.edges edge).rhs) none
      pending := p } ∧
   s.pending ⊆ p ∧
   ∀ v, (s.edges edge).touches v → (swapRemove (s.adjacency v) edge).length ≤ 2 → v ∈ p := by
 set lhs := (s.edges edge).lhs with hlhs
 set rhs := (s.edges edge).rhs with hrhs
 let adj1 := update s.adjacency lhs (swapRemove (s.adjacency lhs) edge)
 let adj2 := update adj1 rhs (swapRemove (adj1 rhs) edge)
 let s0 : Solver :=
  { s with edges := update s.edges edge { s.edges edge with live := false } }
 obtain ⟨p1, h1, hsub1, hlow1⟩ := pushIfLow_spec { s0 with adjacency := adj1 } lhs
 obtain ⟨p2, h2, hsub2, hlow2⟩ :=
  pushIfLow_spec { s0 with adjacency := adj2, pending := p1 } rhs
 have hadj2 : adj2 = fun v =>
   if (s.edges edge).touches v then swapRemove (s.adjacency v) edge else s.adjacency v := by
  funext v
  by_cases hv : v = rhs
  · have htouch : (s.edges edge).touches v := .inr (hrhs.symm.trans hv.symm)
    grind
  · by_cases hv' : v = lhs
    · have htouch : (s.edges edge).touches v := .inl (hlhs.symm.trans hv'.symm)
      grind
    · have hnot : ¬ (s.edges edge).touches v := by
       rintro (h | h)
       · exact hv' (hlhs.trans h).symm
       · exact hv (hrhs.trans h).symm
      grind
 refine ⟨p2, ?_, fun v hv => hsub2 (hsub1 hv), ?_⟩
 · have hdetach : (s0.detach edge lhs).detach edge rhs =
     { s0 with adjacency := adj2, pending := p2 } := by
    have hfst : s0.detach edge lhs = { s0 with adjacency := adj1, pending := p1 } := h1
    rw [hfst]
    exact h2
   rw [← hadj2]
   show { (s0.detach edge lhs).detach edge rhs with
    between := update ((s0.detach edge lhs).detach edge rhs).between (key lhs rhs) none } = _
   rw [hdetach]
 · rintro v (hv | hv) hlen
   · grind
   grind

section Unlink

variable {s : Solver} {hole : Option Nat} {edge : Nat} (h : WF s hole) (hlive : (s.edges edge).live = true)

include h hlive

theorem unlink_edges : (s.unlink edge).edges =
  update s.edges edge { s.edges edge with live := false } := by
 obtain ⟨p, hs, -, -⟩ := unlink_spec s edge (h.ends_ne edge hlive)
 rw [hs]

theorem unlink_ext : Ext s (s.unlink edge) := by
 obtain ⟨p, hs, -, -⟩ := unlink_spec s edge (h.ends_ne edge hlive)
 rw [hs]
 refine ⟨rfl, rfl, rfl, rfl, rfl, le_rfl, ?_, fun _ _ => rfl⟩
 grind

theorem unlink_costs : (s.unlink edge).costs = s.costs := by
 obtain ⟨p, hs, -, -⟩ := unlink_spec s edge (h.ends_ne edge hlive)
 rw [hs]

theorem unlink_edgeCount : (s.unlink edge).edgeCount = s.edgeCount := by
 obtain ⟨p, hs, -, -⟩ := unlink_spec s edge (h.ends_ne edge hlive)
 rw [hs]

theorem unlink_live (e : Nat) :
  ((s.unlink edge).edges e).live = true ↔ (s.edges e).live = true ∧ e ≠ edge := by
 rw [unlink_edges h hlive]
 by_cases he : e = edge
 · subst he
   simp
 · simp [he]

theorem unlink_edge_of_ne {e : Nat} (he : e ≠ edge) : (s.unlink edge).edges e = s.edges e := by
 rw [unlink_edges h hlive, update_of_ne he]

theorem unlink_entries (e : Nat) : ((s.unlink edge).edges e).lhs = (s.edges e).lhs ∧
  ((s.unlink edge).edges e).rhs = (s.edges e).rhs ∧
  ((s.unlink edge).edges e).matrix = (s.edges e).matrix := by
 rw [unlink_edges h hlive]
 by_cases he : e = edge
 · subst he
   simp
 · simp [he]

theorem unlink_mem_adjacency (e v : Nat) :
  e ∈ (s.unlink edge).adjacency v ↔ e ≠ edge ∧ e ∈ s.adjacency v := by
 obtain ⟨p, hs, -, -⟩ := unlink_spec s edge (h.ends_ne edge hlive)
 rw [hs]
 by_cases htouch : (s.edges edge).touches v
 · have hmem : edge ∈ s.adjacency v := (h.mem_adjacency edge v).2 ⟨hlive, htouch⟩
   simp only [if_pos htouch]
   exact mem_swapRemove (h.adjacency_nodup v) hmem
 · simp only [if_neg htouch]
   constructor
   · intro he
     refine ⟨?_, he⟩
     rintro rfl
     exact htouch ((h.mem_adjacency e v).1 he).2
   · exact fun he => he.2

theorem unlink_wf : WF (s.unlink edge) hole := by
 have hadj := unlink_mem_adjacency h hlive
 have hedgeLive := unlink_live h hlive
 have hother : ∀ e, ((s.unlink edge).edges e).live = true →
   (s.unlink edge).edges e = s.edges e := fun e he =>
  unlink_edge_of_ne h hlive ((hedgeLive e).1 he).2
 have hext := unlink_ext h hlive
 refine ⟨?_, ?_, ?_, ?_, ?_, ?_, ?_, ?_, ?_⟩
 · rw [hext.alive, hext.count]
   exact h.alive_lt
 · rw [hext.arity, hext.count]
   exact h.arity_pos
 · intro e he
   rw [unlink_edgeCount h hlive]
   exact h.edge_lt e ((hedgeLive e).1 he).1
 · intro e he
   rw [hother e he]
   exact h.ends_ne e ((hedgeLive e).1 he).1
 · intro e he
   rw [hother e he, hext.alive]
   exact h.ends_alive e ((hedgeLive e).1 he).1
 · intro e v
   rw [hadj, h.mem_adjacency, hedgeLive]
   constructor
   · grind
   grind
 · intro v
   obtain ⟨p, hs, -, -⟩ := unlink_spec s edge (h.ends_ne edge hlive)
   rw [hs]
   by_cases htouch : (s.edges edge).touches v
   · simp only [if_pos htouch]
     exact swapRemove_nodup (h.adjacency_nodup v) ((h.mem_adjacency edge v).2 ⟨hlive, htouch⟩)
   · simp only [if_neg htouch]
     exact h.adjacency_nodup v
 · intro k e
   obtain ⟨p, hs, -, -⟩ := unlink_spec s edge (h.ends_ne edge hlive)
   have hbetween : (s.unlink edge).between =
     update s.between (key (s.edges edge).lhs (s.edges edge).rhs) none := by rw [hs]
   rw [hbetween, hedgeLive]
   by_cases hk : k = key (s.edges edge).lhs (s.edges edge).rhs
   · subst hk
     rw [update_self]
     -- the pair of nodes has no live edge left
     refine ⟨fun habs => (some_ne_none e habs.symm).elim, ?_⟩
     rintro ⟨⟨he, hne⟩, hkey⟩
     rw [unlink_edge_of_ne h hlive hne] at hkey
     exact absurd (h.edge_unique he hlive hkey) hne
   · rw [update_of_ne hk, h.between_iff]
     constructor
     · grind
     grind
 · intro v hv hhole hlen
   obtain ⟨p, hs, hsub, hlow⟩ := unlink_spec s edge (h.ends_ne edge hlive)
   rw [hs] at hv hlen ⊢
   by_cases htouch : (s.edges edge).touches v
   · grind
   · simp only [if_neg htouch] at hlen
     exact hsub (h.pending_low v hv hhole hlen)

end Unlink

/-! ## Normalizing an edge -/

variable {edge : Nat} {hole : Option Nat} {s s' : Solver} {P : Solver → Prop}

theorem sweep_edge_of_ne (s : Solver) {e : Nat} (he : e ≠ edge) :
  (s.sweep edge).edges e = s.edges e := update_of_ne he _ _

theorem sweep_ends (s : Solver) (edge e : Nat) :
  ((s.sweep edge).edges e).lhs = (s.edges e).lhs ∧ ((s.sweep edge).edges e).rhs = (s.edges e).rhs ∧
    ((s.sweep edge).edges e).live = (s.edges e).live := by
 by_cases he : e = edge
 · subst he
   simp [sweep]
 grind [sweep_edge_of_ne]

theorem sweep_costs_of_not_touches (s : Solver) {v : Nat} (hv : ¬ (s.edges edge).touches v) :
  (s.sweep edge).costs v = s.costs v := by
 have hl : v ≠ (s.edges edge).lhs := fun h => hv (.inl h.symm)
 have hr : v ≠ (s.edges edge).rhs := fun h => hv (.inr h.symm)
 simp [sweep, update_of_ne hl, update_of_ne hr]

theorem sweep_wf (h : WF s hole) (edge : Nat) : WF (s.sweep edge) hole :=
 h.congr rfl rfl rfl rfl rfl rfl (Subset.refl _) (sweep_ends s edge)

theorem sweep_ext (h : WF s hole) (hlive : (s.edges edge).live = true) :
  Ext s (s.sweep edge) := by
 refine ⟨rfl, rfl, rfl, rfl, rfl, le_rfl, ?_, ?_⟩
 · grind [sweep_edge_of_ne]
 · intro v hv
   refine sweep_costs_of_not_touches s ?_
   rintro (rfl | rfl)
   · exact hv (h.ends_alive edge hlive).1
   · exact hv (h.ends_alive edge hlive).2

/-- A property of the swept state that `unlink` keeps holds after `normalize`. -/
theorem normalize_cases (hsweep : P (s.sweep edge))
  (hunlink : (s.sweep edge).blank edge = true → P ((s.sweep edge).unlink edge)) :
  P (s.normalize edge) := by
 simp only [normalize]
 split
 · grind
 · exact hsweep

theorem sweep_live (hlive : (s.edges edge).live = true) :
  ((s.sweep edge).edges edge).live = true := by
 rw [(sweep_ends s edge edge).2.2]
 exact hlive

section Normalize

variable {s : Solver} {hole : Option Nat} {edge : Nat} (h : WF s hole) (hlive : (s.edges edge).live = true)

include h hlive

theorem normalize_wf : WF (s.normalize edge) hole :=
 normalize_cases (P := fun t => WF t hole) (sweep_wf h edge) fun _ =>
  unlink_wf (sweep_wf h edge) (sweep_live hlive)

theorem normalize_ext : Ext s (s.normalize edge) :=
 normalize_cases (sweep_ext h hlive) fun _ =>
  (sweep_ext h hlive).trans (unlink_ext (sweep_wf h edge) (sweep_live hlive))

theorem normalize_costs : (s.normalize edge).costs = (s.sweep edge).costs :=
 normalize_cases (P := fun t => t.costs = (s.sweep edge).costs) rfl fun _ =>
  unlink_costs (sweep_wf h edge) (sweep_live hlive)

theorem normalize_edge_of_ne {e : Nat} (he : e ≠ edge) : (s.normalize edge).edges e = s.edges e :=
 normalize_cases (P := fun t => t.edges e = s.edges e) (sweep_edge_of_ne s he) fun _ =>
  (unlink_edge_of_ne (sweep_wf h edge) (sweep_live hlive) he).trans (sweep_edge_of_ne s he)

theorem normalize_ends (e : Nat) : ((s.normalize edge).edges e).lhs = (s.edges e).lhs ∧
    ((s.normalize edge).edges e).rhs = (s.edges e).rhs := by
 refine normalize_cases (P := fun t => (t.edges e).lhs = (s.edges e).lhs ∧
  (t.edges e).rhs = (s.edges e).rhs) ⟨(sweep_ends s edge e).1, (sweep_ends s edge e).2.1⟩
  fun _ => ?_
 rw [unlink_edges (sweep_wf h edge) (sweep_live hlive)]
 by_cases he : e = edge
 · grind [sweep_ends]
 grind [sweep_ends]

theorem normalize_live {e : Nat} (he : ((s.normalize edge).edges e).live = true) :
  (s.edges e).live = true := by
 by_cases hne : e = edge
 · rw [hne]
   exact hlive
 · rwa [normalize_edge_of_ne h hlive hne] at he

end Normalize

/-! ## Charging an edge -/

section Charge

variable {s : Solver} {hole : Option Nat} (h : WF s hole)

include h

theorem pushEdge_wf {l r : Nat} (m : Matrix) (hl : l ∈ s.alive) (hr : r ∈ s.alive) (hne : l ≠ r)
  (hnone : s.between (key l r) = none) : WF (s.pushEdge l r m) hole := by
 have hfresh : ∀ e, (s.edges e).live = true → e ≠ s.edgeCount := fun e he =>
  (h.edge_lt e he).ne
 have hnew : (s.pushEdge l r m).edges s.edgeCount = ⟨l, r, m, true⟩ := by simp [pushEdge]
 have hold : ∀ e, e ≠ s.edgeCount → (s.pushEdge l r m).edges e = s.edges e := fun e he => by
  simp [pushEdge, he]
 have hadj : ∀ v, (s.pushEdge l r m).adjacency v =
   if l = v ∨ r = v then s.adjacency v ++ [s.edgeCount] else s.adjacency v := by
  intro v
  by_cases hvr : v = r
  · subst hvr
    simp [pushEdge, update_of_ne hne.symm]
  · by_cases hvl : v = l
    · subst hvl
      simp [pushEdge, update_of_ne hvr]
    · simp [pushEdge, hvl, hvr, Ne.symm hvl, Ne.symm hvr]
 have hnot : ∀ v, s.edgeCount ∉ s.adjacency v := fun v hmem =>
  hfresh _ ((h.mem_adjacency _ v).1 hmem).1 rfl
 refine ⟨h.alive_lt, h.arity_pos, ?_, ?_, ?_, ?_, ?_, ?_, ?_⟩
 · intro e he
   by_cases hid : e = s.edgeCount
   · subst hid
     exact lt_succ_self _
   · rw [hold e hid] at he
     exact (h.edge_lt e he).trans (lt_succ_self _)
 · intro e he
   by_cases hid : e = s.edgeCount
   · grind
   · rw [hold e hid] at he ⊢
     exact h.ends_ne e he
 · intro e he
   by_cases hid : e = s.edgeCount
   · subst hid
     rw [hnew]
     exact ⟨hl, hr⟩
   · rw [hold e hid] at he ⊢
     exact h.ends_alive e he
 · intro e v
   by_cases hid : e = s.edgeCount
   · subst hid
     rw [hadj, hnew]
     simp only [Edge.touches, true_and]
     split
     · rename_i hv
       simp [hv]
     grind
   · rw [hold e hid, ← h.mem_adjacency, hadj]
     split
     · simp [hid]
     · exact Iff.rfl
 · intro v
   rw [hadj]
   split
   · rw [nodup_append]
     refine ⟨h.adjacency_nodup v, nodup_singleton _, ?_⟩
     grind
   · exact h.adjacency_nodup v
 · intro k e
   have hbetween : (s.pushEdge l r m).between =
     update s.between (key l r) (some s.edgeCount) := rfl
   rw [hbetween]
   by_cases hk : k = key l r
   · subst hk
     rw [update_self]
     constructor
     · grind
     · rintro ⟨he, hkey⟩
       by_cases hid : e = s.edgeCount
       · rw [hid]
       · -- an older edge between the two nodes would be in the table
         rw [hold e hid] at he hkey
         rw [(h.between_iff _ e).2 ⟨he, hkey⟩] at hnone
         exact absurd hnone (some_ne_none e)
   · rw [update_of_ne hk, h.between_iff]
     by_cases hid : e = s.edgeCount
     · subst hid
       rw [hnew]
       constructor
       · grind
       grind
     · rw [hold e hid]
 · intro v hv hhole hlen
   refine h.pending_low v hv hhole ?_
   rw [hadj] at hlen
   split at hlen
   · grind
   · exact hlen

omit h in
theorem pushEdge_ext (l r : Nat) (m : Matrix) : Ext s (s.pushEdge l r m) := by
 refine ⟨rfl, rfl, rfl, rfl, rfl, le_succ _, ?_, fun _ _ => rfl⟩
 intro e he _
 simp [pushEdge, he.ne]

omit h in
theorem addMatrix_ends (edge : Nat) (delta : Matrix) (e : Nat) :
  ((s.addMatrix edge delta).edges e).lhs = (s.edges e).lhs ∧ ((s.addMatrix edge delta).edges e).rhs = (s.edges e).rhs ∧
    ((s.addMatrix edge delta).edges e).live = (s.edges e).live := by
 by_cases he : e = edge
 · subst he
   simp [addMatrix]
 · simp [addMatrix, he]

theorem addMatrix_wf (edge : Nat) (delta : Matrix) : WF (s.addMatrix edge delta) hole :=
 h.congr rfl rfl rfl rfl rfl rfl (Subset.refl _) (addMatrix_ends edge delta)

omit h in
theorem addMatrix_ext {edge : Nat} (hlive : (s.edges edge).live = true) (delta : Matrix) :
  Ext s (s.addMatrix edge delta) := by
 refine ⟨rfl, rfl, rfl, rfl, rfl, le_rfl, ?_, fun _ _ => rfl⟩
 intro e _ hdead
 have hne : e ≠ edge := by
  grind
 simp [addMatrix, hne]

/-- The state `charge` normalizes, and the edge it normalizes there: the edge between the two
nodes with the delta added, or a new one. -/
theorem charge_cases (l r : Nat) (delta : Matrix) (hl : l ∈ s.alive) (hr : r ∈ s.alive) (hne : l ≠ r) :
  ∃ t edge, s.charge l r delta = t.normalize edge ∧ WF t hole ∧ Ext s t ∧
   (t.edges edge).live = true ∧ key (t.edges edge).lhs (t.edges edge).rhs = key l r ∧
   ((∃ d, t = s.addMatrix edge d ∧ (s.edges edge).live = true ∧
     ((s.edges edge).lhs = l ∧ (s.edges edge).rhs = r ∧ d = delta ∨
       (s.edges edge).lhs = r ∧ (s.edges edge).rhs = l ∧ d = delta.transposed)) ∨
     t = s.pushEdge l r delta ∧ edge = s.edgeCount) := by
 cases hbetween : s.between (key l r) with
 | none =>
  refine ⟨s.pushEdge l r delta, s.edgeCount, ?_, pushEdge_wf h delta hl hr hne hbetween,
   pushEdge_ext l r delta, ?_, ?_, .inr ⟨rfl, rfl⟩⟩
  · simp [charge, hbetween, link]
  · simp [pushEdge]
  · simp [pushEdge]
 | some edge =>
  obtain ⟨hlive, hkey⟩ := (h.between_iff _ edge).1 hbetween
  let d := if (s.edges edge).lhs = l then delta else delta.transposed
  obtain ⟨hlhs, hrhs, hlv⟩ := addMatrix_ends (s := s) edge d edge
  refine ⟨s.addMatrix edge d, edge, ?_, addMatrix_wf h edge d, addMatrix_ext hlive d, ?_, ?_,
   .inl ⟨d, rfl, hlive, ?_⟩⟩
  · simp [charge, hbetween, d]
  · rw [hlv]
    exact hlive
  · rw [hlhs, hrhs]
    exact hkey
  grind [key_eq_iff]

variable {l r : Nat} (delta : Matrix) (hl : l ∈ s.alive) (hr : r ∈ s.alive) (hne : l ≠ r)

include hl hr hne

theorem charge_wf : WF (s.charge l r delta) hole := by
 obtain ⟨t, edge, heq, hwf, -, hlive, -, -⟩ := charge_cases h l r delta hl hr hne
 rw [heq]
 exact normalize_wf hwf hlive

theorem charge_ext : Ext s (s.charge l r delta) := by
 obtain ⟨t, edge, heq, hwf, hext, hlive, -, -⟩ := charge_cases h l r delta hl hr hne
 rw [heq]
 exact hext.trans (normalize_ext hwf hlive)

/-- `charge` touches no edge but the one between the two nodes. -/
theorem charge_edges (e : Nat) : (s.charge l r delta).edges e = s.edges e ∨
  key ((s.charge l r delta).edges e).lhs ((s.charge l r delta).edges e).rhs = key l r := by
 obtain ⟨t, edge, heq, hwf, -, hlive, hkey, hcase⟩ := charge_cases h l r delta hl hr hne
 rw [heq]
 by_cases he : e = edge
 · grind [normalize_ends]
 · left
   rw [normalize_edge_of_ne hwf hlive he]
   rcases hcase with ⟨d, rfl, -, -⟩ | ⟨rfl, rfl⟩
   · simp [addMatrix, he]
   · simp [pushEdge, he]

theorem charge_edge_of_key_ne {e : Nat} (he : e < s.edgeCount) (hkey : key (s.edges e).lhs (s.edges e).rhs ≠ key l r) :
  (s.charge l r delta).edges e = s.edges e := by
 obtain ⟨t, edge, heq, hwf, -, hlive, -, hcase⟩ := charge_cases h l r delta hl hr hne
 rw [heq]
 rcases hcase with ⟨d, rfl, -, hd⟩ | ⟨rfl, rfl⟩
 · have hedge : e ≠ edge := by
    rintro rfl
    rcases hd with ⟨hel, her, -⟩ | ⟨hel, her, -⟩
    · exact hkey (by rw [hel, her])
    · exact hkey (by rw [hel, her, key_comm])
   rw [normalize_edge_of_ne hwf hlive hedge]
   simp [addMatrix, hedge]
 · rw [normalize_edge_of_ne hwf hlive he.ne]
   simp [pushEdge, he.ne]

theorem charge_costs_of_ne {v : Nat} (hvl : v ≠ l) (hvr : v ≠ r) :
  (s.charge l r delta).costs v = s.costs v := by
 obtain ⟨t, edge, heq, hwf, -, hlive, hkey, hcase⟩ := charge_cases h l r delta hl hr hne
 rw [heq, normalize_costs hwf hlive, sweep_costs_of_not_touches]
 · rcases hcase with ⟨d, rfl, -, -⟩ | ⟨rfl, rfl⟩
   · rfl
   · rfl
 · intro htouch
   rcases key_eq_iff.1 hkey with ⟨hel, her⟩ | ⟨hel, her⟩
   · rcases htouch with htouch | htouch
     · exact hvl (htouch.symm.trans hel)
     · exact hvr (htouch.symm.trans her)
   · rcases htouch with htouch | htouch
     · exact hvr (htouch.symm.trans hel)
     · exact hvl (htouch.symm.trans her)

end Charge

/-! ## Charging a node -/

/-- An invariant that normalizing a live edge of the list keeps, and that implies
well-formedness, survives `normalizeLive`. -/
theorem normalizeLive_induct {edges : List Nat}
  (hstep : ∀ t e, e ∈ edges → (t.edges e).live = true → P t → P (t.normalize e))
  (hs : P s) : P (s.normalizeLive edges) := by
 induction edges generalizing s with
 | nil => exact hs
 | cons e rest ih =>
  have hrest : ∀ t f, f ∈ rest → (t.edges f).live = true → P t → P (t.normalize f) :=
   fun t f hf => hstep t f (mem_cons_of_mem e hf)
  simp only [normalizeLive, foldl_cons]
  split
  · rename_i hlive
    exact ih hrest (hstep s e mem_cons_self hlive hs)
  · exact ih hrest hs

/-- What holds with the costs added and is kept by normalizing the node's live edges holds after
`chargeNode`. -/
theorem chargeNode_induct {node : Nat} {delta : Nat → Nat} (hadd : P (s.addCosts node delta))
  (hstep : ∀ t e, e ∈ s.adjacency node → (t.edges e).live = true → P t → P (t.normalize e))
  (hpend : ∀ t p, t.pending ⊆ p → P t → P { t with pending := p }) :
  P (s.chargeNode node delta) := by
 refine hpend _ _ (subset_cons_self _ _) ?_
 split
 · exact normalizeLive_induct hstep hadd
 · exact hadd

section ChargeNode

variable {s : Solver} {hole : Option Nat} (h : WF s hole) {node : Nat} (hnode : node ∈ s.alive) (delta : Nat → Nat)

include h hnode

/-- What `chargeNode` leaves alone: besides the frame, every edge that does not touch the node. -/
theorem chargeNode_facts : WF (s.chargeNode node delta) hole ∧ Ext s (s.chargeNode node delta) ∧
   ∀ e, ((s.chargeNode node delta).edges e).lhs = (s.edges e).lhs ∧
    ((s.chargeNode node delta).edges e).rhs = (s.edges e).rhs ∧
    (((s.chargeNode node delta).edges e).live = true → (s.edges e).live = true) ∧
    (¬ (s.edges e).touches node → (s.chargeNode node delta).edges e = s.edges e) := by
 refine chargeNode_induct (P := fun t => WF t hole ∧ Ext s t ∧
  ∀ e, (t.edges e).lhs = (s.edges e).lhs ∧ (t.edges e).rhs = (s.edges e).rhs ∧
   ((t.edges e).live = true → (s.edges e).live = true) ∧
   (¬ (s.edges e).touches node → t.edges e = s.edges e)) ?_ ?_ ?_
 · refine ⟨h.congr rfl rfl rfl rfl rfl rfl (Subset.refl _) fun e => ⟨rfl, rfl, rfl⟩,
    ⟨rfl, rfl, rfl, rfl, rfl, le_rfl, fun _ _ _ => rfl, ?_⟩, fun e => ⟨rfl, rfl, id, fun _ => rfl⟩⟩
   intro v hv
   have hne : v ≠ node := by
    rintro rfl
    exact hv hnode
   simp [addCosts, hne]
 · rintro t e he hlive ⟨hwf, hext, hedges⟩
   refine ⟨normalize_wf hwf hlive, hext.trans (normalize_ext hwf hlive), fun f => ?_⟩
   obtain ⟨hlhs, hrhs, hlv, hsame⟩ := hedges f
   obtain ⟨hlhs', hrhs'⟩ := normalize_ends hwf hlive f
   refine ⟨hlhs'.trans hlhs, hrhs'.trans hrhs, fun hf => hlv (normalize_live hwf hlive hf), ?_⟩
   intro hnot
   have hne : f ≠ e := by
    rintro rfl
    exact hnot ((h.mem_adjacency f node).1 he).2
   grind [normalize_edge_of_ne]
 · rintro t p hp ⟨hwf, hext, hedges⟩
   refine ⟨hwf.congr rfl rfl rfl rfl rfl rfl hp fun e => ⟨rfl, rfl, rfl⟩, ?_, hedges⟩
   exact ⟨hext.count, hext.arity, hext.alive, hext.reduced, hext.choices, hext.edgeCount,
    hext.dead_edge, hext.dead_costs⟩

theorem chargeNode_wf : WF (s.chargeNode node delta) hole := (chargeNode_facts h hnode delta).1

theorem chargeNode_ext : Ext s (s.chargeNode node delta) := (chargeNode_facts h hnode delta).2.1

end ChargeNode

/-! ## Work on edges does not look at the nodes in the graph -/

/-- The state with other nodes in the graph and other choices. -/
def reframe (s : Solver) (alive : Finset Nat) (choices : Nat → Nat) : Solver :=
 { s with alive, choices }

section Reframe

variable (s : Solver) (A : Finset Nat) (C : Nat → Nat)

theorem reframe_pushIfLow (v : Nat) :
  (s.reframe A C).pushIfLow v = (s.pushIfLow v).reframe A C := by
 have hadj : (s.reframe A C).adjacency v = s.adjacency v := rfl
 by_cases hlen : (s.adjacency v).length ≤ 2
 · rw [pushIfLow, pushIfLow, hadj, if_pos hlen, if_pos hlen]
   rfl
 · rw [pushIfLow, pushIfLow, hadj, if_neg hlen, if_neg hlen]

theorem reframe_detach (edge v : Nat) : (s.reframe A C).detach edge v = (s.detach edge v).reframe A C :=
 reframe_pushIfLow
  { s with adjacency := update s.adjacency v (swapRemove (s.adjacency v) edge) } A C v

theorem reframe_unlink (edge : Nat) :
  (s.reframe A C).unlink edge = (s.unlink edge).reframe A C := by
 let t : Solver :=
  { s with edges := update s.edges edge { s.edges edge with live := false } }
 let cut : Solver → Solver := fun d =>
  { d with
    between := update d.between (key (s.edges edge).lhs (s.edges edge).rhs) none }
 change cut (((t.reframe A C).detach edge (s.edges edge).lhs).detach edge (s.edges edge).rhs) = _
 rw [reframe_detach, reframe_detach]
 rfl

theorem reframe_normalize (edge : Nat) :
  (s.reframe A C).normalize edge = (s.normalize edge).reframe A C := by
 have hsweep : (s.reframe A C).sweep edge = (s.sweep edge).reframe A C := rfl
 have hblank : ((s.sweep edge).reframe A C).blank edge = (s.sweep edge).blank edge := rfl
 rw [normalize, normalize, hsweep, hblank, reframe_unlink]
 split <;> rfl

theorem reframe_normalizeLive (edges : List Nat) :
  (s.reframe A C).normalizeLive edges = (s.normalizeLive edges).reframe A C := by
 induction edges generalizing s with
 | nil => rfl
 | cons e rest ih =>
  have hlive : ((s.reframe A C).edges e).live = (s.edges e).live := rfl
  have hstep : (if (s.edges e).live then (s.reframe A C).normalize e else s.reframe A C) =
    (if (s.edges e).live then s.normalize e else s).reframe A C := by
   rw [reframe_normalize]
   split <;> rfl
  have hrest := ih (if (s.edges e).live then s.normalize e else s)
  simp only [normalizeLive] at hrest ⊢
  rw [foldl_cons, foldl_cons, hlive, hstep, hrest]

theorem reframe_chargeNode (node : Nat) (delta : Nat → Nat) :
  (s.reframe A C).chargeNode node delta = (s.chargeNode node delta).reframe A C := by
 have hadd : (s.reframe A C).addCosts node delta = (s.addCosts node delta).reframe A C := rfl
 have hfin : ((s.addCosts node delta).reframe A C).finite node =
   (s.addCosts node delta).finite node := rfl
 have hadj : ((s.addCosts node delta).reframe A C).adjacency node =
   (s.addCosts node delta).adjacency node := rfl
 have hcase : (if (s.addCosts node delta).finite node ≤ 1 then
    ((s.addCosts node delta).reframe A C).normalizeLive ((s.addCosts node delta).adjacency node)
   else (s.addCosts node delta).reframe A C) =
   (if (s.addCosts node delta).finite node ≤ 1 then
    (s.addCosts node delta).normalizeLive ((s.addCosts node delta).adjacency node)
   else s.addCosts node delta).reframe A C := by
  rw [reframe_normalizeLive]
  split <;> rfl
 simp only [chargeNode]
 rw [hadd, hfin, hadj, hcase]
 rfl

end Reframe

/-! ## Taking a node out -/

/-- A node without live edges may leave the graph. -/
theorem kill_wf (h : WF s hole) {node : Nat} (hdeg : s.adjacency node = [])
  (hhole : ∀ v, hole = some v → v = node) : WF (s.kill node) := by
 refine ⟨?_, h.arity_pos, h.edge_lt, h.ends_ne, ?_, h.mem_adjacency, h.adjacency_nodup,
  h.between_iff, ?_⟩
 · intro v hv
   exact h.alive_lt v (Finset.mem_of_mem_erase hv)
 · intro e he
   have hnot : ¬ (s.edges e).touches node := by
    intro htouch
    have hmem := (h.mem_adjacency e node).2 ⟨he, htouch⟩
    grind
   obtain ⟨hl, hr⟩ := h.ends_alive e he
   refine ⟨mem_erase.2 ⟨?_, hl⟩, mem_erase.2 ⟨?_, hr⟩⟩
   · exact fun heq => hnot (.inl heq)
   · exact fun heq => hnot (.inr heq)
 · intro v hv _
   refine h.pending_low v (Finset.mem_of_mem_erase hv) ?_
   exact fun heq => ne_of_mem_erase hv (hhole v heq.symm)

/-! ## Back-propagation reads dead edges and nodes only -/

/-- The reductions recorded so far speak of nodes that left the graph, by edges that are no longer
live. -/
def ReducedDead (s : Solver) : Prop :=
 ∀ r ∈ s.reduced, r.parts.1 ∉ s.alive ∧
  ∀ e ∈ r.parts.2, e < s.edgeCount ∧ (s.edges e).live = false

theorem ReducedDead.ext (h : ReducedDead s) (hext : Ext s s') :
  ReducedDead s' := by
 intro r hr
 rw [hext.reduced] at hr
 obtain ⟨hnode, hedges⟩ := h r hr
 refine ⟨by rwa [hext.alive], fun e he => ?_⟩
 obtain ⟨hlt, hdead⟩ := hedges e he
 exact ⟨hlt.trans_le hext.edgeCount, by rw [hext.dead_edge e hlt hdead]; exact hdead⟩

/-- The answer of a reduced node depends on its costs and on the edges it left by. -/
theorem answer_congr {r : Reduced} (harity : s'.arity = s.arity) (hcosts : s'.costs r.parts.1 = s.costs r.parts.1)
  (hedges : ∀ e ∈ r.parts.2, (s'.edges e).lhs = (s.edges e).lhs ∧
   (s'.edges e).rhs = (s.edges e).rhs ∧ (s'.edges e).matrix = (s.edges e).matrix)
  (x : Nat → Nat) : s'.answer x r = s.answer x r := by
 have hother : ∀ e ∈ r.parts.2, s'.other e r.parts.1 = s.other e r.parts.1 := by
  intro e he
  obtain ⟨hlhs, hrhs, -⟩ := hedges e he
  simp [other, hlhs, hrhs]
 have hfixed : (r.parts.2.map fun edge => (edge, x (s'.other edge r.parts.1))) =
   r.parts.2.map fun edge => (edge, x (s.other edge r.parts.1)) :=
  map_congr_left fun e he => by rw [hother e he]
 have hbest : ∀ own, (r.parts.2.map fun edge => (edge, x (s.other edge r.parts.1))).foldl
    (fun total p => add total (s'.cost p.1 r.parts.1 own p.2)) (s'.costs r.parts.1 own) =
   (r.parts.2.map fun edge => (edge, x (s.other edge r.parts.1))).foldl
    (fun total p => add total (s.cost p.1 r.parts.1 own p.2)) (s.costs r.parts.1 own) := by
  intro own
  rw [hcosts]
  refine foldl_ext _ _ _ fun total p hp => ?_
  obtain ⟨e, he, rfl⟩ := mem_map.1 hp
  obtain ⟨hlhs, -, hmatrix⟩ := hedges e he
  simp [cost, hlhs, hmatrix]
 simp [answer, bestResponse, hfixed, harity, hbest]

theorem backPropagate_congr (h : ReducedDead s) (harity : s'.arity = s.arity)
  (hcosts : ∀ v, v ∉ s.alive → s'.costs v = s.costs v)
  (hedges : ∀ e, e < s.edgeCount → (s.edges e).live = false → s'.edges e = s.edges e)
  (x : Nat → Nat) : s.reduced.foldl s'.answer x = s.backPropagate x := by
 refine foldl_ext _ _ _ fun y r hr => ?_
 obtain ⟨hnode, hdead⟩ := h r hr
 grind [answer_congr]

theorem backPropagate_ext (h : ReducedDead s) (hext : Ext s s') (x : Nat → Nat) :
  s'.backPropagate x = s.backPropagate x := by
 rw [backPropagate, hext.reduced]
 exact backPropagate_congr h hext.arity hext.dead_costs hext.dead_edge x

end Solver

end Tir.Pbqp
