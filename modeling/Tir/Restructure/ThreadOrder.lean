import Tir.Restructure.ChainOrder

/-!
# What threading orders

One operation of a block observes a state after everything its chains were left with, and what it
publishes is what they are left with (`Ordered`). `threadEffect_ok` is the step for one effect,
`threadOp_ok` the step for an operation and `threadOps_ok` the run over a block, by one induction
over the operations and the bodies of their loops.
-/

open List Option Function Nat Relation

namespace Tir.Restructure

open Chains Subset Threading Extends

/-- An operation is ordered on a chain: what it observes follows every change before it, and every
read when it is itself a change, and what it publishes stands on the chain. -/
def Ordered (nodes nodes' : List Node) (s s' : Chains) (node : Node) (access : ResourceAccess) (chain : Nat) : Prop :=
 ∃ observed ∈ node.observes, ∃ published ∈ node.publishes,
  (∀ change state, Reaches nodes s change state chain → change = true ∨ access = .change →
   Depends (nodes' ++ s'.nodes) state observed) ∧
  Reaches nodes' s' (access = .change) published chain

variable {plan : Plan} {nodes nodes' nodes₁ nodes₂ : List Node} {s s' s₁ s₂ : Chains} {chain : Nat}

theorem Ordered.mono {node node' : Node} {access : ResourceAccess}
  (h : Ordered nodes₁ nodes₂ s₁ s₂ node access chain) (hfst : Extends plan nodes nodes₁ s s₁)
  (hlast : Extends plan nodes₂ nodes' s₂ s') (hobserves : node.observes ⊆ node'.observes)
  (hpublishes : node.publishes ⊆ node'.publishes) :
  Ordered nodes nodes' s s' node' access chain := by
 obtain ⟨observed, hobserved, published, hpublished, hfollows, hreaches⟩ := h
 refine ⟨observed, hobserves hobserved, published, hpublishes hpublished, ?_, ?_⟩
 · intro change state hr hc
   exact hlast.depends (hfollows change state (hfst.reaches _ _ _ hr) hc)
 · exact hlast.reaches _ _ _ hreaches

theorem Extends.widen (ht : Typed plan s) (hf : Forked nodes s)
  (h : ∀ v w, Follows (nodes ++ s.nodes) v w → Follows (nodes' ++ s.nodes) v w) :
  Extends plan nodes nodes' s s := by
 refine ⟨Nat.le_refl _, fun _ _ => rfl, rfl, h, ht, ?_, ?_⟩
 · exact fun chain held hheld read hread => (hf chain held hheld read hread).mono h
 · rintro change published chain ⟨held, hheld, hreach⟩
   refine ⟨held, hheld, ?_⟩
   exact hreach.imp (fun hd => hd.mono h) fun ⟨hc, read, hread, hd⟩ => ⟨hc, read, hread, hd.mono h⟩

/-! ## One effect -/

/-- The node of an operation whose effects are threaded so far. -/
def Threading.node (id : Nat) (t : Threading) : Node :=
 .plain id t.operands t.results t.states

theorem Plan.touched_ok {op : Nat} {resource : StateResource} {touched : List Nat}
  (h : plan.touched op resource = some touched) : Chains.Touched plan resource touched := by
 refine ⟨plan.touched_ne_nil _ _ _ h, plan.touched_nodup _ _ _ h, plan.touched_resource _ _ _ h, ?_⟩
 intro hres
 cases resource with
 | memory => exact absurd rfl hres
 | fpEnv => exact plan.touched_single _ _ h

theorem Chains.Touched.own {resource : StateResource} {touched : List Nat} (h : Chains.Touched plan resource touched) :
  touched.headD 0 ∈ touched ∧ plan.resource (touched.headD 0) = resource := by
 obtain ⟨own, rest, rfl⟩ := exists_cons_of_ne_nil h.ne_nil
 exact ⟨.head _, h.of_resource own (.head _)⟩

/-- The published state has the resource of the effect. -/
theorem publish_ok {results produced results' : List Nat} {ty : StateResource} {published : Nat}
  (hprod : ∀ v ∈ produced, v < s.next ∧ s.types v = some ty)
  (h : publish s results produced ty = (published, results', s')) :
  Chains.Grown s s' ∧ published < s'.next ∧ s'.types published = some ty := by
 cases produced with
 | nil =>
  obtain ⟨rfl, -, rfl⟩ : _ ∧ _ ∧ _ := by simpa [publish, fresh] using h
  refine ⟨⟨le_succ _, fun v hv => ?_, rfl, rfl, rfl, refl _⟩,
   lt_succ_self _, ?_⟩
  · exact update_of_ne (Nat.ne_of_lt hv) ..
  · exact update_self ..
 | cons v rest =>
  obtain ⟨rfl, -, rfl⟩ : _ ∧ _ ∧ _ := by simpa [publish] using h
  grind [Chains.Grown.refl]

/-- A read leaves its state forked off its chain, or, for a resource that is not forked, on it. -/
theorem leaveRead_ok {id observed published : Nat} {touched : List Nat} {resource : StateResource}
  (htouched : Chains.Touched plan resource touched) (ht : Typed plan s) (hf : Forked nodes s)
  (hfree : s.Free (touched.headD 0)) {held : ChainState}
  (hheld : s.states (touched.headD 0) = some held) (hobserved : held.written = observed)
  (hknown : published < s.next ∧ s.types published = some resource)
  (hdep : Depends (nodes ++ s.nodes) observed published)
  (h : leaveState s id touched published .read resource = .ok s') :
  Extends plan nodes nodes s s' ∧ Reaches nodes s' false published (touched.headD 0) := by
 have hres := htouched.own.2
 subst hobserved
 -- both resources look at the chain, which is free, and then write it
 have hwrite : ∀ held' : ChainState → ChainState, (do
   let found ← s.state (touched.headD 0)
   return found.2.put (touched.headD 0) (held' found.1)) = .ok s' →
   ∃ s₁, Extends plan nodes nodes s s₁ ∧ s₁.states (touched.headD 0) = some held ∧
    s₁.Free (touched.headD 0) ∧ s' = s₁.put (touched.headD 0) (held' held) := by
  intro held' h
  obtain ⟨⟨held1, s₁⟩, h1, h⟩ := bind_ok.1 h
  obtain ⟨hext, hheld1, hfree1, -, -⟩ := state_ok ht hf h1
  obtain ⟨hsame, -⟩ := state_keeps ht hf h1 hfree
  cases hheld1.symm.trans (hsame.trans hheld)
  exact ⟨s₁, hext, hheld1, hfree1, (Except.ok.inj h).symm⟩
 cases resource with
 | memory =>
  obtain ⟨s₁, hext, hheld1, hfree1, rfl⟩ :=
   hwrite (fun held => { held with reads := held.reads ++ [published] }) h
  have hknown1 : ∀ v ∈ held.written :: (held.reads ++ [published]),
    v < s₁.next ∧ s₁.types v = some (plan.resource (touched.headD 0)) := by
   intro v hv
   rw [← cons_append, mem_append] at hv
   rcases hv with hv | hv
   · exact hext.typed.known _ held hheld1 v hv
   · rw [mem_singleton.1 hv, hres]
     exact ⟨Nat.lt_of_lt_of_le hknown.1 hext.next, (hext.types _ hknown.1).trans hknown.2⟩
  refine ⟨hext.trans (extends_put ⟨held.written, held.reads ++ [published]⟩
   hext.typed hext.forked hheld1 hfree1 (Nat.le_refl _) (fun _ _ => rfl) rfl rfl rfl
   (fun _ _ hvw => hvw) hknown1 (fun hne => absurd hres hne) ReflTransGen.refl
   (fun read hread => .inl (mem_append_left _ hread)) ?_), ?_⟩
  · intro read hread
    rcases mem_append.1 hread with hread | hread
    · exact hext.forked _ held hheld1 read hread
    · rw [mem_singleton.1 hread]
      exact hext.depends hdep
  · refine ⟨_, update_self .., .inr ⟨rfl, published, ?_, ReflTransGen.refl⟩⟩
    exact mem_append_right _ (mem_singleton.2 rfl)
 | fpEnv =>
  obtain ⟨s₁, hext, hheld1, hfree1, rfl⟩ :=
   hwrite (fun held => { held with written := published }) h
  have hnil : held.reads = [] := by
   refine hext.typed.single _ held hheld1 ?_
   grind
  refine ⟨hext.trans (extends_put ⟨published, held.reads⟩
   hext.typed hext.forked hheld1 hfree1 (Nat.le_refl _) (fun _ _ => rfl) rfl rfl rfl
   (fun _ _ hvw => hvw) ?_ (fun _ => hnil) (hext.depends hdep) ?_ ?_), ?_⟩
  · intro v hv
    rw [hnil] at hv
    rw [mem_singleton.1 hv, hres]
    exact ⟨Nat.lt_of_lt_of_le hknown.1 hext.next, (hext.types _ hknown.1).trans hknown.2⟩
  · simp [hnil]
  · simp [hnil]
  · refine ⟨_, update_self .., .inl ?_⟩
    have hfree2 : (s₁.put (touched.headD 0) ⟨published, held.reads⟩).Free (touched.headD 0) :=
     hfree1
    rw [hfree2.front]
    exact ReflTransGen.refl

/-- What threading an effect does, in order: it observes, publishes and leaves a state. -/
theorem threadEffect_cases {id : Nat} {t t' : Threading} {effect : ResourceEffect}
  {touched : List Nat} (htouched : plan.touched id effect.resource = some touched)
  (h : threadEffect plan id t effect = .ok t') :
  ∃ observed s₁ published s₂, observe t.chains id touched effect.access = .ok (observed, s₁) ∧
   setObserved t.operands effect.observed observed = .ok t'.operands ∧
   publish s₁ t.results effect.produced (plan.resource (touched.headD 0)) = (published, t'.results, s₂) ∧
   leaveState s₂ id touched published effect.access effect.resource = .ok t'.chains ∧
   t'.states = t.states ++ [(effect.resource, observed, published)] := by
 simp only [threadEffect, htouched] at h
 obtain ⟨⟨observed, s₁⟩, h1, h⟩ := bind_ok.1 h
 obtain ⟨operands, h2, h⟩ := bind_ok.1 h
 obtain ⟨s3, h3, h⟩ := bind_ok.1 h
 cases h
 exact ⟨observed, s₁, _, _, h1, h2, rfl, h3, rfl⟩

theorem threadEffect_skip {id : Nat} {t t' : Threading} {effect : ResourceEffect}
  (htouched : plan.touched id effect.resource = none)
  (h : threadEffect plan id t effect = .ok t') : t' = t := by
 simp only [threadEffect, htouched] at h
 exact (Except.ok.inj h).symm

/-- The node grows by the effect's states. -/
theorem node_subset (id : Nat) {t t' : Threading} {states : List (StateResource × Nat × Nat)}
  (h : t'.states = t.states ++ states) : (t.node id).observes ⊆ (t'.node id).observes ∧
   (t.node id).publishes ⊆ (t'.node id).publishes := by
 simp only [node, Node.observes, Node.publishes, h, map_append]
 exact ⟨subset_append_left _ _, subset_append_left _ _⟩

theorem follows_node {node node' : Node} (hobserves : node.observes ⊆ node'.observes)
  (hpublishes : node.publishes ⊆ node'.publishes) {rest : List Node} {v w : Nat}
  (h : Follows (nodes ++ [node] ++ rest) v w) : Follows (nodes ++ [node'] ++ rest) v w := by
 obtain ⟨n, hn, hv, hw⟩ := h
 simp only [mem_append, mem_singleton] at hn
 rcases hn with (hn | rfl) | hn
 · exact ⟨n, by simp [hn], hv, hw⟩
 · exact ⟨node', by simp, hobserves hv, hpublishes hw⟩
 · exact ⟨n, by simp [hn], hv, hw⟩

/-- **One effect**: it is ordered on the chains it names. -/
theorem threadEffect_ok {id : Nat} {t t' : Threading} {effect : ResourceEffect}
  {touched : List Nat} (htouched : plan.touched id effect.resource = some touched)
  (ht : Typed plan t.chains) (hf : Forked (nodes ++ [t.node id]) t.chains)
  (hprod : ∀ v ∈ effect.produced, v < t.chains.next ∧ t.chains.types v = some effect.resource)
  (h : threadEffect plan id t effect = .ok t') :
  Extends plan (nodes ++ [t.node id]) (nodes ++ [t'.node id]) t.chains t'.chains ∧
   ∀ chain ∈ effect.access.names touched,
    Ordered (nodes ++ [t.node id]) (nodes ++ [t'.node id]) t.chains t'.chains (t'.node id)
     effect.access chain := by
 have htouched' := plan.touched_ok htouched
 obtain ⟨observed, s₁, published, s₂, hobserve, -, hpublish, hleave, hstates⟩ :=
  threadEffect_cases htouched h
 obtain ⟨hobserves, hpublishes⟩ := node_subset id hstates
 rw [htouched'.own.2] at hpublish
 have hobserved : observed ∈ (t'.node id).observes := by
  simp [node, Node.observes, hstates]
 have hpublished : published ∈ (t'.node id).publishes := by
  simp [node, Node.publishes, hstates]
 -- the node with the effect's states, over the chains as the effect leaves them
 have hwiden : ∀ s₁ : Chains, Extends plan (nodes ++ [t.node id]) (nodes ++ [t.node id]) t.chains s₁ →
   Extends plan (nodes ++ [t.node id]) (nodes ++ [t'.node id]) s₁ s₁ := fun s₁ hext =>
  widen hext.typed hext.forked fun v w => follows_node hobserves hpublishes
 have hedge : ∀ s₂ : Chains, Depends (nodes ++ [t'.node id] ++ s₂.nodes) observed published :=
  fun s₂ => Depends.node (t'.node id) (by simp) hobserved hpublished
 cases hacc : effect.access with
 | read =>
  rw [hacc] at hobserve hleave
  obtain ⟨⟨held, s₁'⟩, hstate, hobserve⟩ := bind_ok.1 hobserve
  cases hobserve
  obtain ⟨hext, hheld, hfree, -, -⟩ := state_ok ht hf hstate
  obtain ⟨hgrown, hlt, hty⟩ := publish_ok (fun v hv => by
   obtain ⟨hlt, hty⟩ := hprod v hv
   exact ⟨Nat.lt_of_lt_of_le hlt hext.next, (hext.types v hlt).trans hty⟩) hpublish
  have hext2 := hext.trans (hgrown.extends hext.typed hext.forked)
  have hext₂' := hext2.trans (hwiden s₂ hext2)
  obtain ⟨hext3, hreaches⟩ := leaveRead_ok htouched' hext₂'.typed hext₂'.forked
   (hgrown.free hfree) (by rw [hgrown.states]; exact hheld) rfl ⟨hlt, hty⟩ (hedge s₂) hleave
  refine ⟨hext₂'.trans hext3, fun chain hchain => ?_⟩
  rw [ResourceAccess.names, mem_singleton] at hchain
  subst hchain
  refine ⟨_, hobserved, published, hpublished, fun change state hr hc => ?_, hreaches⟩
  obtain ⟨held1, hheld1, hreach⟩ := hext.reaches _ _ _ hr
  cases hheld.symm.trans hheld1
  rw [hfree.front] at hreach
  rcases hreach with hd | ⟨rfl, -⟩
  · exact hext3.depends ((hwiden s₂ hext2).depends
     ((hgrown.extends hext.typed hext.forked).depends hd))
  · exact hc.elim nofun nofun
 | change =>
  rw [hacc] at hobserve hleave
  obtain ⟨hext, htaken, -⟩ := settle_ok htouched' ht hf hobserve
  obtain ⟨hgrown, hlt, hty⟩ := publish_ok (fun v hv => by
   obtain ⟨hlt, hty⟩ := hprod v hv
   exact ⟨Nat.lt_of_lt_of_le hlt hext.next, (hext.types v hlt).trans hty⟩) hpublish
  have hgrow := hgrown.extends hext.typed hext.forked
  have hwide := hwiden s₂ (hext.trans hgrow)
  have hext2 := (hext.trans hgrow).trans hwide
  obtain ⟨hext3, hreaches, -⟩ := split_ok htouched' hext2.typed hext2.forked ⟨hlt, hty⟩
   (fun chain hc => by
    obtain ⟨held, hheld, hnil, hd⟩ := htaken.front chain hc
    refine ⟨held, by rw [hgrown.states]; exact hheld, hnil, ?_⟩
    have hfront : s₂.front chain held = s₁.front chain held := by
     simp [front, hgrown.shared]
    rw [hfront]
    exact (hwide.depends (hgrow.depends hd)).trans (hedge s₂))
   (fun one hone => hgrown.free (htaken.single one hone))
   (fun shared hs => htaken.named shared (hgrown.shared.symm.trans hs)) hleave
  refine ⟨hext2.trans hext3, fun chain hchain => ?_⟩
  refine ⟨observed, hobserved, published, hpublished, fun change state hr _ => ?_,
   hreaches chain hchain⟩
  exact hext3.depends (hwide.depends (hgrow.depends (htaken.follows chain hchain change state hr)))

/-! ## One operation -/

section

variable {id : Nat} {t t' : Threading} (ht : Typed plan t.chains) (hf : Forked (nodes ++ [t.node id]) t.chains)

include ht hf

/-- One effect, known to the plan or not. -/
theorem threadEffect_extends {effect : ResourceEffect}
  (hprod : ∀ v ∈ effect.produced, v < t.chains.next ∧ t.chains.types v = some effect.resource)
  (h : threadEffect plan id t effect = .ok t') :
  Extends plan (nodes ++ [t.node id]) (nodes ++ [t'.node id]) t.chains t'.chains := by
 cases htouched : plan.touched id effect.resource with
 | none =>
  grind [threadEffect_skip, Extends.refl]
 | some touched => exact (threadEffect_ok htouched ht hf hprod h).1

/-- **The effects of an operation**, one after the other. -/
theorem threadEffects_ok {effects : List ResourceEffect}  (hprod : ∀ effect ∈ effects, ∀ v ∈ effect.produced,
   v < t.chains.next ∧ t.chains.types v = some effect.resource) (h : effects.foldlM (threadEffect plan id) t = .ok t') :
  Extends plan (nodes ++ [t.node id]) (nodes ++ [t'.node id]) t.chains t'.chains ∧
   (∃ states, t'.states = t.states ++ states) ∧
   ∀ effect ∈ effects, ∀ touched, plan.touched id effect.resource = some touched →
    ∀ chain ∈ effect.access.names touched,
     Ordered (nodes ++ [t.node id]) (nodes ++ [t'.node id]) t.chains t'.chains (t'.node id)
      effect.access chain := by
 induction effects generalizing t with
 | nil =>
  cases h
  exact ⟨refl ht hf, ⟨[], by simp⟩, nofun⟩
 | cons effect effects ih =>
  rw [foldlM_cons] at h
  obtain ⟨t1, h1, h⟩ := bind_ok.1 h
  -- an effect the plan does not know leaves everything as it is
  have hstep : Extends plan (nodes ++ [t.node id]) (nodes ++ [t1.node id]) t.chains t1.chains ∧
    (∃ states, t1.states = t.states ++ states) ∧
    ∀ touched, plan.touched id effect.resource = some touched →
     ∀ chain ∈ effect.access.names touched,
      Ordered (nodes ++ [t.node id]) (nodes ++ [t1.node id]) t.chains t1.chains (t1.node id)
       effect.access chain := by
   cases htouched : plan.touched id effect.resource with
   | none =>
    obtain rfl := threadEffect_skip htouched h1
    exact ⟨refl ht hf, ⟨[], by simp⟩, nofun⟩
   | some touched =>
    obtain ⟨hext, hord⟩ :=
     threadEffect_ok htouched ht hf (hprod effect (.head _)) h1
    grind [threadEffect_cases]
  obtain ⟨hext1, ⟨states1, hstates1⟩, hordered1⟩ := hstep
  have hproduced1 : ∀ effect ∈ effects, ∀ v ∈ effect.produced,
    v < t1.chains.next ∧ t1.chains.types v = some effect.resource := by
   intro e he v hv
   obtain ⟨hlt, hty⟩ := hprod e (.tail _ he) v hv
   exact ⟨Nat.lt_of_lt_of_le hlt hext1.next, (hext1.types v hlt).trans hty⟩
  obtain ⟨hext, ⟨states, hstates⟩, hord⟩ := ih hext1.typed hext1.forked hproduced1 h
  obtain ⟨hobserves, hpublishes⟩ := node_subset id hstates
  refine ⟨hext1.trans hext, ⟨states1 ++ states, by rw [hstates, hstates1, append_assoc]⟩, ?_⟩
  intro e he touched htouched chain hchain
  rcases mem_cons.1 he with rfl | he
  · exact (hordered1 touched htouched chain hchain).mono (refl ht hf) hext hobserves
     hpublishes
  · exact (hord e he touched htouched chain hchain).mono hext1
     (refl hext.typed hext.forked) (refl _) (refl _)

end

/-- Fresh states, one for each chain. -/
theorem portsOf_ok (plan : Plan) (chains : List Nat) (s : Chains) : Chains.Grown s (portsOf plan chains s).2 ∧
   Forall₂ (fun chain v => s.next ≤ v ∧ v < (portsOf plan chains s).2.next ∧
    (portsOf plan chains s).2.types v = some (plan.resource chain)) chains
    (portsOf plan chains s).1 := by
 refine ⟨⟨Nat.le_add_right _ _, fun v hv => ?_, rfl, rfl, rfl, refl _⟩, ?_⟩
 · simp only [portsOf, ite_eq_right_iff]
   omega
 · refine forall₂_iff_get.2 ⟨by simp [portsOf], fun i hi _ => ?_⟩
   simp [portsOf, hi]

/-- A chain from which nothing is forked off can take a state after what it was written with. -/
structure Writable (plan : Plan) (nodes : List Node) (s : Chains) (chain v : Nat) : Prop where
 known : v < s.next ∧ s.types v = some (plan.resource chain)
 free : s.Free chain
 after : ∃ held, s.states chain = some held ∧ held.reads = [] ∧
  Depends (nodes ++ s.nodes) held.written v

/-- Writing the first of several chains: the others are as they were. -/
theorem writeAll_cons {chains states : List Nat} {v : Nat} (hnd : (chain :: chains).Nodup)
  (ht : Typed plan s) (hf : Forked nodes s) (hall : Forall₂ (Writable plan nodes s) (chain :: chains) (v :: states))
  (h : writeAll s (chain :: chains) (v :: states) = .ok s') : ∃ held s₁, s.state chain = .ok (held, s₁) ∧
   writeAll (s₁.put chain { held with written := v }) chains states = .ok s' ∧
   Extends plan nodes nodes s (s₁.put chain { held with written := v }) ∧
   Reaches nodes (s₁.put chain { held with written := v }) true v chain ∧
   (∀ other ≠ chain, s.Free other →
    (s₁.put chain { held with written := v }).states other = s.states other ∧
    (s₁.put chain { held with written := v }).Free other) ∧
   Forall₂ (Writable plan nodes (s₁.put chain { held with written := v })) chains states := by
 obtain ⟨hnot, -⟩ := nodup_cons.1 hnd
 obtain ⟨hfst, htail⟩ := forall₂_cons.1 hall
 obtain ⟨held0, hheld0, hnil, hdep⟩ := hfst.after
 rw [writeAll, zip_cons_cons, foldlM_cons] at h
 obtain ⟨s₂, h1, h⟩ := bind_ok.1 h
 obtain ⟨hext, hreaches, -, hkeeps⟩ :=
  write_ok ht hf hfst.free hheld0 hnil hfst.known hdep h1
 obtain ⟨⟨held, s₁⟩, hstate, h1⟩ := bind_ok.1 h1
 cases h1
 have hzip := forall₂_iff_zip.1 htail
 refine ⟨held, s₁, hstate, h, hext, hreaches, hkeeps,
  forall₂_iff_zip.2 ⟨hzip.1, fun {other w} hmem => ?_⟩⟩
 obtain ⟨⟨hlt, hty⟩, hfree, held', hheld', hnil', hdep'⟩ := hzip.2 hmem
 have hne : other ≠ chain := by
  rintro rfl
  exact hnot (of_mem_zip hmem).1
 obtain ⟨hsame, hfree1⟩ := hkeeps other hne hfree
 exact ⟨⟨Nat.lt_of_lt_of_le hlt hext.next, (hext.types w hlt).trans hty⟩, hfree1, held',
  hsame.trans hheld', hnil', hext.depends hdep'⟩

/-- **Writing several chains**, from which nothing is forked off. -/
theorem writeAll_ok {chains states : List Nat} (hnd : chains.Nodup) (ht : Typed plan s)
  (hf : Forked nodes s) (hall : Forall₂ (Writable plan nodes s) chains states) (h : writeAll s chains states = .ok s') :
  Extends plan nodes nodes s s' ∧ Forall₂ (fun chain v => Reaches nodes s' true v chain) chains states ∧
   ∀ other ∉ chains, s.Free other → s'.states other = s.states other ∧ s'.Free other := by
 induction chains generalizing s states with
 | nil =>
  cases hall
  cases h
  exact ⟨refl ht hf, Forall₂.nil, fun _ _ hfree => ⟨rfl, hfree⟩⟩
 | cons chain chains ih =>
  obtain ⟨v, states, -, -, rfl⟩ := forall₂_cons_left_iff.1 hall
  obtain ⟨held, s₁, -, h, hext1, hreaches1, hkeeps1, hall1⟩ := writeAll_cons hnd ht hf hall h
  obtain ⟨hext, hreaches, hkeeps⟩ :=
   ih (nodup_cons.1 hnd).2 hext1.typed hext1.forked hall1 h
  refine ⟨hext1.trans hext, Forall₂.cons (hext.reaches _ _ _ hreaches1) hreaches, ?_⟩
  grind

theorem Declared.mono {next next' : Nat} {types types' : Nat → Option StateResource} {op : Op}
  (h : Declared next types op) (hnext : next ≤ next') (htypes : ∀ v < next, types' v = types v) :
  Declared next' types' op := by
 induction h with
 | plain resources observed produced =>
  refine Declared.plain resources (fun effect he v hv => ?_) fun effect he v hv => ?_
  · grind
  grind
 | loop _ ih => exact Declared.loop ih

/-- The chains a block is entered on: each once, its state of the chain's resource. -/
structure Entries (plan : Plan) (next : Nat) (types : Nat → Option StateResource)
  (entries : List (Nat × Nat)) : Prop where
 nodup : (entries.map Prod.fst).Nodup
 known : ∀ entry ∈ entries, entry.2 < next ∧ types entry.2 = some (plan.resource entry.1)

theorem Chains.enter_ok {next : Nat} {types : Nat → Option StateResource}
  {entries : List (Nat × Nat)} (h : Entries plan next types entries) (nodes : List Node) :
  Typed plan (Chains.enter next types entries) ∧ Forked nodes (Chains.enter next types entries) := by
 have hstate : ∀ chain held, (enter next types entries).states chain = some held →
   (chain, held.written) ∈ entries ∧ held.reads = [] := by
  intro chain held hheld
  obtain ⟨written, hlookup, rfl⟩ := map_eq_some_iff.1 hheld
  obtain ⟨l1, l2, rfl, -⟩ := lookup_eq_some_iff.1 hlookup
  exact ⟨by simp, rfl⟩
 refine ⟨⟨?_, ?_, nofun, ?_⟩, ?_⟩
 · intro chain held hheld v hv
   obtain ⟨hmem, hnil⟩ := hstate chain held hheld
   rw [hnil] at hv
   rw [mem_singleton.1 hv]
   exact h.known _ hmem
 · exact fun chain held hheld _ => (hstate chain held hheld).2
 · intro chain
   simp only [enter, isSome_map, List.mem_map]
   constructor
   · rintro ⟨entry, hent, rfl⟩
     rw [isSome_iff_ne_none, Ne, lookup_eq_none_iff]
     grind
   simp_all
 · intro chain held hheld read hread
   grind

/-- The ports of a loop are the chains its body is entered on. -/
theorem entries_ports {touched ports : List Nat} {next : Nat} {types : Nat → Option StateResource}
  (hnd : touched.Nodup)
  (h : Forall₂ (fun chain v => v < next ∧ types v = some (plan.resource chain)) touched ports) :
  Entries plan next types (touched.zip ports) := by
 refine ⟨?_, fun entry he => (forall₂_iff_zip.1 h).2 he⟩
 rw [map_fst_zip (Nat.le_of_eq h.length_eq)]
 exact hnd

/-- What threading a counted loop does, in order. -/
theorem threadLoop_cases {id latch : Nat} {inits results yields : List Nat} {body : List Op}
  {graph : Bool} {node : Node} (htouched : plan.loopTouched id ≠ [])
  (h : threadOp plan (.loop id inits results body latch yields graph) s = .ok (node, s')) :
  ∃ observed s₁ ports entered inner inside leaving inside' published s3,
   s.closeForks (plan.loopTouched id) id = .ok (observed, s₁) ∧
   portsOf plan (plan.loopTouched id) s₁ = (ports, entered) ∧
   threadOps plan body (Chains.enter entered.next entered.types
    ((plan.loopTouched id).zip ports)) = .ok (inner, inside) ∧ inside.leave latch = .ok (leaving, inside') ∧
   portsOf plan (plan.loopTouched id) { s₁ with next := inside'.next, types := inside'.types } =
    (published, s3) ∧
   writeAll s3 (plan.loopTouched id) published = .ok s' ∧
   node = .loop id (inits ++ observed) (results ++ published)
    ((plan.loopTouched id).zip (observed.zip published)) ports
    (inner ++ inside'.inserted.map Prod.fst) (yields ++ leaving) := by
 rw [threadOp] at h
 have hne : (plan.loopTouched id).isEmpty = false := by
  simpa using htouched
 simp only [hne] at h
 obtain ⟨⟨observed, s₁⟩, h1, h⟩ := bind_ok.1 h
 obtain ⟨_, -, h⟩ := bind_ok.1 h
 obtain ⟨⟨inner, inside⟩, h2, h⟩ := bind_ok.1 h
 obtain ⟨⟨leaving, inside'⟩, h3, h⟩ := bind_ok.1 h
 obtain ⟨s4, h4, h⟩ := bind_ok.1 h
 cases h
 exact ⟨observed, s₁, _, _, inner, inside, leaving, inside', _, _, h1, rfl, h2, h3, rfl, h4, rfl⟩

/-- The run of a block grows the chains it is entered on. -/
def BlockGrows (plan : Plan) (ops : List Op) : Prop :=
 ∀ nodes (s s' : Chains), threadOps plan ops s = .ok (nodes, s') →
  (∀ op ∈ ops, Declared s.next s.types op) → Typed plan s → Forked [] s →
  Extends plan [] nodes s s'

/-- Threading a loop's body only numbers values: the chains outside stay as they are. -/
theorem loopBody_grown {body : List Op} {chains ports leaving : List Nat} {latch : Nat}
  {entered inside inside' : Chains} {inner : List Node} (hbody : BlockGrows plan body)
  (hnd : chains.Nodup) (hdecl : ∀ op ∈ body, Declared s.next s.types op)
  (hports : portsOf plan chains s = (ports, entered))
  (hthread : threadOps plan body (Chains.enter entered.next entered.types (chains.zip ports)) = .ok (inner, inside))
  (hleave : inside.leave latch = .ok (leaving, inside')) :
  Chains.Grown s { s with next := inside'.next, types := inside'.types } := by
 obtain ⟨hgrown, hall⟩ := portsOf_ok plan chains s
 rw [hports] at hgrown hall
 have hentries := entries_ports hnd (hall.imp fun _ _ hv => hv.2)
 obtain ⟨ht, hf⟩ := enter_ok hentries []
 have hext := hbody inner _ inside hthread
  (fun op hop => (hdecl op hop).mono hgrown.next hgrown.types) ht hf
 have hkeys : inside.keys.Nodup := by
  rw [hext.keys]
  exact hentries.nodup
 obtain ⟨hclose, -⟩ := closeForks_ok hkeys hext.typed hext.forked hleave
 have hinside := hext.trans hclose
 refine ⟨Nat.le_trans hgrown.next hinside.next, fun v hv => ?_, rfl, rfl, rfl,
  refl _⟩
 exact (hinside.types v (Nat.lt_of_lt_of_le hv hgrown.next)).trans (hgrown.types v hv)

/-- The states of a loop's node, chain by chain. -/
theorem loop_states {id : Nat} {inits results ports yields chains observed published : List Nat}
  {body : List Node} {i : Nat} (hi : i < chains.length) (ho : i < observed.length) (hp : i < published.length) :
  observed[i] ∈ (Node.loop id inits results (chains.zip (observed.zip published)) ports body yields).observes ∧
  published[i] ∈ (Node.loop id inits results (chains.zip (observed.zip published)) ports body
   yields).publishes := by
 have hmem : (chains[i], observed[i], published[i]) ∈ chains.zip (observed.zip published) := by
  refine mem_iff_getElem.2 ⟨i, by simp only [length_zip]; omega, ?_⟩
  simp
 exact ⟨List.mem_map.2 ⟨_, hmem, rfl⟩, List.mem_map.2 ⟨_, hmem, rfl⟩⟩

/-- A counted loop, in the order of its parts: the forks of its chains are closed, its body is
threaded, and each chain is written with a fresh state after the loop's node. -/
theorem threadLoop_parts {id latch : Nat} {inits results yields : List Nat} {body : List Op}
  {graph : Bool} {node : Node} (hempty : plan.loopTouched id ≠ []) (hbody : BlockGrows plan body)
  (hdecl : ∀ op ∈ body, Declared s.next s.types op) (ht : Typed plan s) (hf : Forked nodes s)
  (h : threadOp plan (.loop id inits results body latch yields graph) s = .ok (node, s')) :
  ∃ observed s₁ s₂ published s3, s.closeForks (plan.loopTouched id) id = .ok (observed, s₁) ∧
   Chains.Grown s₁ s₂ ∧ s₂.nodes = s₁.nodes ∧ portsOf plan (plan.loopTouched id) s₂ = (published, s3) ∧
   Extends plan nodes (nodes ++ [node]) s₁ s3 ∧ (∃ inits results ports body yields, node = .loop id inits results
    ((plan.loopTouched id).zip (observed.zip published)) ports body yields) ∧
   Forall₂ (Writable plan (nodes ++ [node]) s3) (plan.loopTouched id) published ∧
   writeAll s3 (plan.loopTouched id) published = .ok s' := by
 obtain ⟨observed, s₁, ports, entered, inner, inside, leaving, inside', published, s3, hclose,
  hports, hthread, hleave, hout, hwrite, hnode⟩ := threadLoop_cases hempty h
 have hnd := plan.loopTouched_nodup id
 obtain ⟨hext1, -, hsettled, -⟩ := closeForks_ok hnd ht hf hclose
 have hgrown := loopBody_grown hbody hnd
  (fun op hop => (hdecl op hop).mono hext1.next hext1.types) hports hthread hleave
 obtain ⟨hgrownOut, hknown⟩ := portsOf_ok plan (plan.loopTouched id)
  { s₁ with next := inside'.next, types := inside'.types }
 rw [hout] at hgrownOut hknown
 have hext2 := hgrown.extends hext1.typed hext1.forked
 have hext3 := hext2.trans (hgrownOut.extends hext2.typed hext2.forked)
 have hwide : Extends plan nodes (nodes ++ [node]) s3 s3 :=
  widen hext3.typed hext3.forked fun v w hvw => hvw.subset (by simp)
 refine ⟨observed, s₁, _, published, s3, hclose, hgrown, rfl, hout, hext3.trans hwide,
  ⟨_, _, _, _, _, hnode⟩, forall₂_iff_get.2 ⟨hknown.length_eq, fun i hi hp => ?_⟩, hwrite⟩
 have ho : i < observed.length := hsettled.length_eq ▸ hi
 have hset := (forall₂_iff_get.1 hsettled).2 i hi ho
 refine ⟨((forall₂_iff_get.1 hknown).2 i hi hp).2,
  hgrownOut.free (hgrown.free hset.free), ⟨observed[i], []⟩, ?_, rfl, ?_⟩
 · rw [hgrownOut.states, hgrown.states]
   exact hset.state
 · -- the loop's own node takes the chain from the state its fork was closed with
   obtain ⟨hobs, hpub⟩ := loop_states hi ho hp
   refine Depends.node node ?_ (hnode ▸ hobs) (hnode ▸ hpub)
   exact mem_append_left _ (mem_append_right _ (.head _))

/-- A loop that touches no chain is left as it is. -/
theorem threadLoop_skip {id latch : Nat} {inits results yields : List Nat} {body : List Op}
  {graph : Bool} {node : Node} (hempty : plan.loopTouched id = [])
  (h : threadOp plan (.loop id inits results body latch yields graph) s = .ok (node, s')) :
  node = .loop id inits results [] [] [] yields ∧ s' = s := by
 rw [threadOp] at h
 simp only [hempty, isEmpty_nil, if_true] at h
 cases h
 exact ⟨rfl, rfl⟩

/-- **A counted loop**: it is ordered on every chain its body touches. -/
theorem threadLoop_ok {id latch : Nat} {inits results yields : List Nat} {body : List Op}
  {graph : Bool} {node : Node} (hbody : BlockGrows plan body)
  (hdecl : ∀ op ∈ body, Declared s.next s.types op) (ht : Typed plan s) (hf : Forked nodes s)
  (h : threadOp plan (.loop id inits results body latch yields graph) s = .ok (node, s')) :
  Extends plan nodes (nodes ++ [node]) s s' ∧
   ∀ chain ∈ plan.loopTouched id, Ordered nodes (nodes ++ [node]) s s' node .change chain := by
 by_cases hempty : plan.loopTouched id = []
 · obtain ⟨rfl, rfl⟩ := threadLoop_skip hempty h
   refine ⟨widen ht hf fun v w hvw => hvw.subset (by simp), fun chain hc => ?_⟩
   grind
 · obtain ⟨observed, s₁, s₂, published, s3, hclose, -, -, -, hext3, ⟨inits', results', ports, body',
    yields', rfl⟩, hall, hwrite⟩ := threadLoop_parts hempty hbody hdecl ht hf h
   have hnd := plan.loopTouched_nodup id
   obtain ⟨hext1, -, hsettled, -⟩ := closeForks_ok hnd ht hf hclose
   obtain ⟨hext4, hreaches, -⟩ := writeAll_ok hnd hext3.typed hext3.forked hall hwrite
   refine ⟨(hext1.trans hext3).trans hext4, fun chain hc => ?_⟩
   obtain ⟨i, hi, rfl⟩ := mem_iff_getElem.1 hc
   have ho : i < observed.length := hsettled.length_eq ▸ hi
   have hp : i < published.length := hall.length_eq ▸ hi
   obtain ⟨hobs, hpub⟩ := loop_states hi ho hp
   refine ⟨observed[i], hobs, published[i], hpub, fun change state hr _ => ?_, ?_⟩
   · have hset := (forall₂_iff_get.1 hsettled).2 i hi ho
     exact hext4.depends (hext3.depends (hset.follows change state hr))
   · exact (forall₂_iff_get.1 hreaches).2 i hi hp

/-- **A plain operation**. -/
theorem threadPlain_ok {id : Nat} {name : String} {operands results : List Nat}
  {effects : List ResourceEffect} {nested : Bool} {node : Node}
  (hdecl : Declared s.next s.types (.plain id name operands results effects nested))
  (ht : Typed plan s) (hf : Forked nodes s)
  (h : threadOp plan (.plain id name operands results effects nested) s = .ok (node, s')) :
  Extends plan nodes (nodes ++ [node]) s s' ∧ ∀ named ∈ (Op.plain id name operands results effects nested).names plan,
    ∀ chain ∈ named.2, Ordered nodes (nodes ++ [node]) s s' node named.1 chain := by
 rw [threadOp] at h
 obtain ⟨_, -, h⟩ := bind_ok.1 h
 obtain ⟨t, hthread, h⟩ := bind_ok.1 h
 cases h
 cases hdecl with
 | plain _ _ produced =>
  -- the node without its states orders nothing yet
  have hstart : Extends plan nodes (nodes ++ [node id ⟨operands, results, [], s⟩]) s s :=
   widen ht hf fun v w hvw => hvw.subset (by simp)
  obtain ⟨hext, -, hord⟩ := threadEffects_ok (t := ⟨operands, results, [], s⟩) hstart.typed
   hstart.forked
   (fun effect he v hv => ⟨(produced effect he v hv).1, (produced effect he v hv).2.1⟩) hthread
  refine ⟨hstart.trans hext, fun named hnamed chain hchain => ?_⟩
  obtain ⟨effect, he, hmap⟩ := mem_filterMap.1 hnamed
  obtain ⟨touched, htouched, rfl⟩ := map_eq_some_iff.1 hmap
  exact (hord effect he touched htouched chain hchain).mono hstart
   (refl hext.typed hext.forked) (refl _) (refl _)

mutual

/-- **One operation** is ordered on every chain it names. -/
theorem threadOp_ok : ∀ (op : Op) (nodes : List Node) (s s' : Chains) (node : Node),
  Declared s.next s.types op → Typed plan s → Forked nodes s → threadOp plan op s = .ok (node, s') →
  Extends plan nodes (nodes ++ [node]) s s' ∧ ∀ named ∈ op.names plan, ∀ chain ∈ named.2,
   Ordered nodes (nodes ++ [node]) s s' node named.1 chain
 | .plain _ _ _ _ _ _, _, _, _, _, hdecl, ht, hf, h => threadPlain_ok hdecl ht hf h
 | .loop id inits results body latch yields graph, nodes, s, s', node, hdecl, ht, hf, h => by
   have hbody : BlockGrows plan body := fun inner inside inside' hthread hops ht hf =>
    threadOps_grows body [] inside inside' inner hops ht hf hthread
   have hops : ∀ op ∈ body, Declared s.next s.types op := by
    cases hdecl with
    | loop hops => exact hops
   obtain ⟨hext, hord⟩ := threadLoop_ok hbody hops ht hf h
   refine ⟨hext, fun named hnamed chain hchain => ?_⟩
   rw [Op.names, mem_singleton] at hnamed
   grind

theorem threadOps_grows : ∀ (ops : List Op) (nodes : List Node) (s s' : Chains)
  (added : List Node), (∀ op ∈ ops, Declared s.next s.types op) → Typed plan s → Forked nodes s →
  threadOps plan ops s = .ok (added, s') → Extends plan nodes (nodes ++ added) s s'
 | [], nodes, s, s', added, _, ht, hf, h => by
   cases h
   grind [Extends.refl]
 | op :: ops, nodes, s, s', added, hops, ht, hf, h => by
   obtain ⟨⟨node, s₁⟩, h1, h⟩ := bind_ok.1 h
   obtain ⟨⟨rest, s₂⟩, h2, h⟩ := bind_ok.1 h
   obtain ⟨rfl, rfl⟩ := Prod.mk.inj (Except.ok.inj h)
   obtain ⟨hext1, -⟩ :=
    threadOp_ok op nodes s s₁ node (hops op (.head _)) ht hf h1
   have hext := threadOps_grows ops (nodes ++ [node]) s₁ s₂ rest
    (fun op' hop => (hops op' (.tail _ hop)).mono hext1.next hext1.types)
    hext1.typed hext1.forked h2
   rw [append_assoc] at hext
   exact hext1.trans hext

end

theorem blockGrows (plan : Plan) (ops : List Op) : BlockGrows plan ops :=
 fun nodes s s' h hops ht hf => threadOps_grows ops [] s s' nodes hops ht hf h

/-! ## A block -/

/-- Two operations of a run are connected: what the first publishes leads to what the second
observes. -/
def Connected (nodes : List Node) (node node' : Node) : Prop :=
 ∃ published ∈ node.publishes, ∃ observed ∈ node'.observes, Depends nodes published observed

/-- **A run of operations**: each is ordered on the chains it names, and two that meet on a chain
are connected when one of them changes it. -/
theorem threadOps_ok {ops : List Op} {added : List Node}
  (hops : ∀ op ∈ ops, Declared s.next s.types op) (ht : Typed plan s) (hf : Forked nodes s)
  (h : threadOps plan ops s = .ok (added, s')) : added.length = ops.length ∧
   (∀ (i : Nat) (op : Op) node, ops[i]? = some op → added[i]? = some node → ∀ named ∈ op.names plan, ∀ chain ∈ named.2,
     Ordered nodes (nodes ++ added) s s' node named.1 chain) ∧
   ∀ (i j : Nat) (op op' : Op) node node', i < j → ops[i]? = some op → ops[j]? = some op' →
    added[i]? = some node → added[j]? = some node' →
    ∀ named ∈ op.names plan, ∀ named' ∈ op'.names plan, ∀ chain ∈ named.2, chain ∈ named'.2 →
     named.1 = .change ∨ named'.1 = .change →
     Connected (nodes ++ added ++ s'.nodes) node node' := by
 induction ops generalizing nodes s added with
 | nil =>
  cases h
  exact ⟨rfl, (fun i op node hop => by simp at hop), fun i j op op' node node' _ hop => by simp at hop⟩
 | cons op ops ih =>
  obtain ⟨⟨node, s₁⟩, h1, h⟩ := bind_ok.1 h
  obtain ⟨⟨rest, s₂⟩, h2, h⟩ := bind_ok.1 h
  obtain ⟨rfl, rfl⟩ := Prod.mk.inj (Except.ok.inj h)
  obtain ⟨hext1, hordered1⟩ :=
   threadOp_ok op nodes s s₁ node (hops op (.head _)) ht hf h1
  have hops1 : ∀ op' ∈ ops, Declared s₁.next s₁.types op' := fun op' hop =>
   (hops op' (.tail _ hop)).mono hext1.next hext1.types
  have hext := threadOps_grows ops (nodes ++ [node]) s₁ s₂ rest hops1 hext1.typed hext1.forked h2
  obtain ⟨hlen, hord, hconnected⟩ := ih hops1 hext1.typed hext1.forked h2
  have happ : nodes ++ [node] ++ rest = nodes ++ node :: rest := by simp
  rw [happ] at hext hord hconnected
  refine ⟨by simp [hlen], fun i o n ho hn named hnamed chain hchain => ?_, ?_⟩
  · cases i with
    | zero =>
     cases ho
     cases hn
     exact (hordered1 named hnamed chain hchain).mono (refl ht hf) hext
      (refl _) (refl _)
    | succ i =>
     exact (hord i o n ho hn named hnamed chain hchain).mono hext1
      (refl hext.typed hext.forked) (refl _) (refl _)
  · intro i j o o' n n' hij ho ho' hn hn' named hnamed named' hnamed' chain hchain hchain' hacc
    cases j with
    | zero => exact absurd hij (Nat.not_lt_zero i)
    | succ j =>
     cases i with
     | succ i =>
      grind
     | zero =>
      cases ho
      cases hn
      -- what the first operation publishes is what the later one finds on the chain
      obtain ⟨-, -, published, hpublished, -, hreaches⟩ :=
       hordered1 named hnamed chain hchain
      obtain ⟨observed, hobserved, -, -, hfollows, -⟩ :=
       hord j o' n' ho' hn' named' hnamed' chain hchain'
      refine ⟨published, hpublished, observed, hobserved, hfollows _ _ hreaches ?_⟩
      simpa using hacc

end Tir.Restructure
