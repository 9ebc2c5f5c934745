import Tir.Restructure.Placement

/-!
# The ports of an operation

The states an operation is recorded with are really its operands and results: an effect's observed
state is appended or takes the place of the states observed before (`setObserved_ok`), which are of
its resource, so no effect takes the place of another's (`threadOp_ported`).
-/

open List

namespace Tir.Restructure

variable {plan : Plan} {nodes : List Node} {s s' : Chains}

/-- The observed state is an operand, and so is every operand it does not take the place of. -/
theorem setObserved_ok {operands previous operands' : List Nat} {observed : Nat}
  (h : setObserved operands previous observed = .ok operands') :
  observed ∈ operands' ∧ ∀ v ∈ operands, v ∉ previous → v ∈ operands' := by
 rw [setObserved] at h
 split at h
 · grind
 · next hne =>
    -- a place that holds none of the previous states is not written
    have hfold : ∀ (previous threaded : List Nat), threaded.length = operands.length →
      previous.foldlM (fun threaded value =>
       if value ∈ operands then .ok (threaded.set (operands.idxOf value) observed)
       else unsupported "an effect whose dependency is not an operand") threaded = .ok operands' →
      (previous ≠ [] ∨ observed ∈ threaded → observed ∈ operands') ∧
      ∀ (k : Nat) (v : Nat), operands[k]? = some v → v ∉ previous → threaded[k]? = some v →
       operands'[k]? = some v := by
     intro previous
     induction previous with
     | nil =>
      intro threaded _ h
      cases h
      exact ⟨fun h => h.elim (fun h => absurd rfl h) id, fun k v _ _ hk => hk⟩
     | cons value previous ih =>
      intro threaded hlen h
      rw [foldlM_cons] at h
      obtain ⟨threaded1, h1, h⟩ := bind_ok.1 h
      split at h1
      · next hmem =>
         cases h1
         have hidx : operands.idxOf value < threaded.length := by
          grind
         obtain ⟨hobserved, hothers⟩ := ih _ (by rw [length_set, hlen]) h
         refine ⟨fun _ => hobserved (.inr (mem_set hidx observed)), ?_⟩
         intro k v hk hv hth
         rw [mem_cons, not_or] at hv
         refine hothers k v hk hv.2 ?_
         rw [getElem?_set_ne, hth]
         rintro rfl
         rw [getElem?_eq_getElem (by rw [← hlen]; exact hidx), getElem_idxOf] at hk
         exact hv.1 (Option.some.inj hk).symm
      · nomatch h1
    obtain ⟨hobserved, hothers⟩ := hfold previous operands rfl h
    refine ⟨hobserved (.inl hne), fun v hv hnot => ?_⟩
    obtain ⟨k, hk⟩ := mem_iff_getElem?.1 hv
    exact mem_of_getElem? (hothers k v hk hnot hk)

/-- The results grow by the published state. -/
theorem publish_results {results produced results' : List Nat} {ty : StateResource} {published : Nat}
  (hprod : ∀ v ∈ produced, v ∈ results) (h : publish s results produced ty = (published, results', s')) :
  results ⊆ results' ∧ published ∈ results' := by
 cases produced with
 | nil =>
  obtain ⟨rfl, rfl, -⟩ : _ ∧ _ ∧ _ := by simpa [publish, Chains.fresh] using h
  exact ⟨subset_append_left _ _, by simp⟩
 | cons v rest =>
  obtain ⟨rfl, rfl, -⟩ : _ ∧ _ ∧ _ := by simpa [publish] using h
  exact ⟨Subset.refl _, hprod v (.head _)⟩

/-- The states of an operation so far are operands and results of their resources. -/
def PortedStates (t : Threading) : Prop :=
 ∀ state ∈ t.states, (state.2.1 < t.chains.next ∧ t.chains.types state.2.1 = some state.1) ∧
  state.2.1 ∈ t.operands ∧ state.2.2 ∈ t.results

theorem observe_known {id observed : Nat} {touched : List Nat} {resource : StateResource}
  {access : ResourceAccess} (htouched : Chains.Touched plan resource touched) (ht : Typed plan s)
  (hf : Forked nodes s) (h : observe s id touched access = .ok (observed, s')) :
  observed < s'.next ∧ s'.types observed = some resource := by
 cases access with
 | read =>
  obtain ⟨⟨held, s1⟩, hstate, h⟩ := bind_ok.1 h
  cases h
  obtain ⟨hext, hheld, -⟩ := Chains.state_ok ht hf hstate
  have hknown := hext.typed.known _ held hheld _ (.head _)
  rw [htouched.own.2] at hknown
  exact hknown
 | change =>
  obtain ⟨-, htaken, -⟩ := Chains.settle_ok htouched ht hf h
  exact htaken.known

section

variable {id : Nat} {t t' : Threading} (ht : Typed plan t.chains) (hf : Forked (nodes ++ [t.node id]) t.chains)

include ht hf

/-- **One effect** keeps the states of the operation its operands and results. -/
theorem threadEffect_ported {effect : ResourceEffect}
  (hobserved : ∀ v ∈ effect.observed, v < t.chains.next ∧ t.chains.types v = some effect.resource)
  (hprod : ∀ v ∈ effect.produced, v < t.chains.next ∧ t.chains.types v = some effect.resource ∧ v ∈ t.results)
  (hresource : ∀ state ∈ t.states, state.1 ≠ effect.resource) (hported : PortedStates t)
  (h : threadEffect plan id t effect = .ok t') : PortedStates t' ∧ t.results ⊆ t'.results := by
 cases htouched : plan.touched id effect.resource with
 | none =>
  grind [threadEffect_skip]
 | some touched =>
  have htouched' := plan.touched_ok htouched
  obtain ⟨hext, -⟩ := threadEffect_ok htouched ht hf
   (fun v hv => ⟨(hprod v hv).1, (hprod v hv).2.1⟩) h
  obtain ⟨observed, s1, published, s2, hobserve, hset, hpublish, hleave, hstates⟩ :=
   threadEffect_cases htouched h
  rw [htouched'.own.2] at hpublish
  obtain ⟨hext1, -⟩ := observe_moves htouched' ht hf hobserve
  obtain ⟨hlt, hty⟩ := observe_known htouched' ht hf hobserve
  obtain ⟨hgrown, -⟩ := publish_ok (fun v hv => by
   obtain ⟨hlt, hty, -⟩ := hprod v hv
   exact ⟨Nat.lt_of_lt_of_le hlt hext1.next, (hext1.types v hlt).trans hty⟩) hpublish
  have hext2 := hgrown.extends hext1.typed hext1.forked
  obtain ⟨s3, hmoves, -, hnext, htypes, -⟩ :=
   leaveState_moves htouched' hext2.typed hext2.forked hleave
  have hlt2 : observed < s2.next := Nat.lt_of_lt_of_le hlt hgrown.next
  obtain ⟨hmem, hothers⟩ := setObserved_ok hset
  obtain ⟨hress, hpub⟩ := publish_results (fun v hv => (hprod v hv).2.2) hpublish
  refine ⟨fun state hstate => ?_, hress⟩
  rw [hstates] at hstate
  rcases mem_append.1 hstate with hold | hnew
  · -- an effect of another resource takes the place of other operands
    obtain ⟨⟨holt, hoty⟩, hoperand, hres⟩ := hported state hold
    refine ⟨⟨Nat.lt_of_lt_of_le holt hext.next, (hext.types _ holt).trans hoty⟩,
     hothers _ hoperand fun hprev => ?_, hress hres⟩
    grind
  · obtain rfl := mem_singleton.1 hnew
    refine ⟨⟨?_, ?_⟩, hmem, hpub⟩
    · rw [hnext]
      exact Nat.lt_of_lt_of_le hlt2 hmoves.next
    · exact (htypes observed hlt2).trans ((hgrown.types observed hlt).trans hty)

/-- **The effects of an operation**, one after the other. -/
theorem threadEffects_ported {effects : List ResourceEffect}  (hobserved : ∀ effect ∈ effects, ∀ v ∈ effect.observed,
   v < t.chains.next ∧ t.chains.types v = some effect.resource) (hprod : ∀ effect ∈ effects, ∀ v ∈ effect.produced,
   v < t.chains.next ∧ t.chains.types v = some effect.resource ∧ v ∈ t.results)
  (hresources : effects.Pairwise fun first second => first.resource ≠ second.resource)
  (hresource : ∀ effect ∈ effects, ∀ state ∈ t.states, state.1 ≠ effect.resource)
  (hported : PortedStates t) (h : effects.foldlM (threadEffect plan id) t = .ok t') :
  PortedStates t' := by
 induction effects generalizing t with
 | nil =>
  cases h
  exact hported
 | cons effect effects ih =>
  obtain ⟨hfst, hresources⟩ := pairwise_cons.1 hresources
  rw [foldlM_cons] at h
  obtain ⟨t1, h1, h⟩ := bind_ok.1 h
  have hproduced0 := hprod effect (.head _)
  have hext := threadEffect_extends ht hf
   (fun v hv => ⟨(hproduced0 v hv).1, (hproduced0 v hv).2.1⟩) h1
  obtain ⟨hported1, hress⟩ := threadEffect_ported ht hf (hobserved effect (.head _))
   hproduced0 (hresource effect (.head _)) hported h1
  refine ih hext.typed hext.forked (fun e he v hv => ?_) (fun e he v hv => ?_) hresources
   (fun e he state hstate => ?_) hported1 h
  · obtain ⟨hlt, hty⟩ := hobserved e (.tail _ he) v hv
    exact ⟨Nat.lt_of_lt_of_le hlt hext.next, (hext.types v hlt).trans hty⟩
  · obtain ⟨hlt, hty, hmem⟩ := hprod e (.tail _ he) v hv
    exact ⟨Nat.lt_of_lt_of_le hlt hext.next, (hext.types v hlt).trans hty, hress hmem⟩
  grind [threadEffect_states]

end

/-- **An operation**: what it observes are operands, what it publishes are results. -/
theorem threadOp_ported {op : Op} {node : Node} (hdecl : Declared s.next s.types op)
  (ht : Typed plan s) (hf : Forked nodes s) (h : threadOp plan op s = .ok (node, s')) :
  node.Ported := by
 cases hdecl with
 | @plain id name operands results effects nested resources observed produced =>
  rw [threadOp] at h
  obtain ⟨_, -, h⟩ := bind_ok.1 h
  obtain ⟨t, hthread, h⟩ := bind_ok.1 h
  obtain ⟨rfl, rfl⟩ := Prod.mk.inj (Except.ok.inj h)
  have hstart : Extends plan nodes (nodes ++ [Threading.node id ⟨operands, results, [], s⟩]) s s :=
   Extends.widen ht hf fun v w hvw => hvw.subset (by simp)
  have hported := threadEffects_ported (t := ⟨operands, results, [], s⟩) ht hstart.forked observed
   produced resources (fun _ _ state hstate => absurd hstate not_mem_nil)
   (fun state hstate => absurd hstate not_mem_nil) hthread
  refine ⟨fun v hv => ?_, fun v hv => ?_⟩
  · obtain ⟨state, hstate, rfl⟩ := mem_map.1 hv
    exact (hported state hstate).2.1
  · obtain ⟨state, hstate, rfl⟩ := mem_map.1 hv
    exact (hported state hstate).2.2
 | @loop id inits results body latch yields graph hbody =>
  by_cases hempty : plan.loopTouched id = []
  · obtain ⟨rfl, -⟩ := threadLoop_skip hempty h
    exact ⟨fun v hv => absurd hv not_mem_nil, fun v hv => absurd hv not_mem_nil⟩
  · obtain ⟨observed, s1, ports, entered, inner, inside, leaving, inside', published, s3, -, -, -,
     -, -, -, rfl⟩ := threadLoop_cases hempty h
    refine ⟨fun v hv => ?_, fun v hv => ?_⟩
    · obtain ⟨state, hstate, rfl⟩ := mem_map.1 hv
      exact mem_append_right _ (of_mem_zip (of_mem_zip hstate).2).1
    · obtain ⟨state, hstate, rfl⟩ := mem_map.1 hv
      exact mem_append_right _ (of_mem_zip (of_mem_zip hstate).2).2

/-- **A run of operations**. -/
theorem threadOps_ported {ops : List Op} {added : List Node}
  (hops : ∀ op ∈ ops, Declared s.next s.types op) (ht : Typed plan s) (hf : Forked nodes s)
  (h : threadOps plan ops s = .ok (added, s')) : ∀ node ∈ added, node.Ported := by
 induction ops generalizing nodes s added with
 | nil =>
  cases h
  nofun
 | cons op ops ih =>
  obtain ⟨⟨node, s1⟩, h1, h⟩ := bind_ok.1 h
  obtain ⟨⟨rest, s2⟩, h2, h⟩ := bind_ok.1 h
  cases h
  have hdecl := hops op (.head _)
  obtain ⟨hext1, -⟩ := threadOp_ok op nodes s s1 node hdecl ht hf h1
  have hrest := ih (fun op' hop => (hops op' (.tail _ hop)).mono hext1.next
   hext1.types) hext1.typed hext1.forked h2
  intro n hn
  rcases mem_cons.1 hn with rfl | hn
  · exact threadOp_ported hdecl ht hf h1
  · exact hrest n hn

end Tir.Restructure
