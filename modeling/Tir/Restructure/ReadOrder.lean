import Tir.Restructure.Placement

/-!
# Reads between the same changes

A chain that no shared state stands for was last `Written` with one state. An operation that does
not change the chain leaves it so, and a read observes it: two reads with no change of their chain
between them observe the same state (`threadOps_same`).
-/

open List Option Nat

namespace Tir.Restructure

open Chains ResourceAccess

variable {plan : Plan} {nodes : List Node} {s s' : Chains} {chain : Nat}

/-- What the chain was last written with, when no shared state stands for it. -/
def Written (s : Chains) (chain written : Nat) : Prop :=
 s.Free chain ∧ ∃ held, s.states chain = some held ∧ held.written = written

variable {written id : Nat} {effect : ResourceEffect} {t t' : Threading} {touched : List Nat}
 {effects : List ResourceEffect} {node : Node} {op : Op} {added : List Node}

theorem Written.of_states (h : Written s chain written)
  (hs : s'.states chain = s.states chain ∧ s'.Free chain) : Written s' chain written := by
 obtain ⟨-, held, hheld, hw⟩ := h
 exact ⟨hs.2, held, hs.1.trans hheld, hw⟩

theorem Written.unique {w w' : Nat} (h : Written s chain w) (h' : Written s chain w') : w = w' := by
 obtain ⟨-, held, hheld, rfl⟩ := h
 obtain ⟨-, held', hheld', rfl⟩ := h'
 rw [some.inj (hheld.symm.trans hheld')]

theorem Written.grown (h : Written s chain written) (hgrown : Chains.Grown s s') : Written s' chain written :=
 h.of_states ⟨by rw [hgrown.states], hgrown.free h.1⟩

/-- Looking at one chain and writing it leaves what another was written with, and what it was
written with when only its reads change. -/
theorem written_write {other : Nat} (held' : ChainState → ChainState) (ht : Typed plan s)
  (hf : Forked nodes s) (hwritten : Written s chain written)
  (hsame : other = chain → ∀ held, (held' held).written = held.written)
  (h : (do
   let (held, s) ← s.state other
   return s.put other (held' held)) = .ok s') : Written s' chain written := by
 obtain ⟨⟨held, s1⟩, hstate, h⟩ := bind_ok.1 h
 cases h
 obtain ⟨-, hheld, -⟩ := state_ok ht hf hstate
 obtain ⟨hfree1, held1, hheld1, rfl⟩ :=
  hwritten.of_states (state_keeps ht hf hstate hwritten.1)
 by_cases ho : other = chain
 · subst ho
   cases hheld.symm.trans hheld1
   exact ⟨hfree1, held' held, put_self .., hsame rfl held⟩
 · exact ⟨hfree1, held1, (put_of_ne _ _ (Ne.symm ho)).trans hheld1, rfl⟩

/-- Leaving a change on other chains leaves what this one was written with. -/
theorem split_written {chains : List Nat} {after published : Nat} (hchain : chain ∉ chains)
  (ht : Typed plan s) (hf : Forked nodes s) (hwritten : Written s chain written)
  (h : s.split chains after published = .ok s') : Written s' chain written := by
 rw [split.eq_def] at h
 split at h
 · next one =>
    refine written_write (fun held => { held with written := published }) ht hf hwritten
     (fun heq => ?_) h
    exact absurd (mem_singleton.2 heq.symm) hchain
 · cases h
   obtain ⟨-, held, hheld, hw⟩ := hwritten
   refine ⟨fun shared hs => ?_, held, hheld, hw⟩
   grind

section

variable (htouched : plan.touched id effect.resource = some touched)

include htouched

/-- **One effect** that spares a chain leaves what it was written with, and a read of it observes
that. -/
theorem threadEffect_written (hmemo : plan.resource chain = .memory) (ht : Typed plan t.chains)
  (hf : Forked (nodes ++ [t.node id]) t.chains)
  (hprod : ∀ v ∈ effect.produced, v < t.chains.next ∧ t.chains.types v = some effect.resource)
  (hspares : chain ∈ effect.access.names touched → effect.access = .read)
  (hwritten : Written t.chains chain written) (h : threadEffect plan id t effect = .ok t') :
  Written t'.chains chain written ∧ ∃ observed published,
   t'.states = t.states ++ [(effect.resource, observed, published)] ∧
   (chain ∈ effect.access.names touched → observed = written) := by
 have htouched' := plan.touched_ok htouched
 obtain ⟨observed, s1, published, s2, hobserve, -, hpublish, hleave, hstates⟩ :=
  threadEffect_cases htouched h
 rw [htouched'.own.2] at hpublish
 obtain ⟨hext1, -⟩ := observe_moves htouched' ht hf hobserve
 obtain ⟨hgrown, -⟩ := publish_ok (fun v hv => by
  obtain ⟨hlt, hty⟩ := hprod v hv
  exact ⟨Nat.lt_of_lt_of_le hlt hext1.next, (hext1.types v hlt).trans hty⟩) hpublish
 have hext2 := hgrown.extends hext1.typed hext1.forked
 cases hacc : effect.access with
 | read =>
  rw [hacc] at hobserve hleave
  obtain ⟨⟨held, s₁'⟩, hstate, hobserve⟩ := bind_ok.1 hobserve
  cases hobserve
  obtain ⟨-, hheld, -⟩ := state_ok ht hf hstate
  have hwritten1 := hwritten.of_states (state_keeps ht hf hstate hwritten.1)
  have hwritten2 := hwritten1.grown hgrown
  refine ⟨?_, held.written, published, hstates, fun hmem => ?_⟩
  · cases hr : effect.resource with
    | memory =>
     rw [hr] at hleave
     exact written_write (fun held => { held with reads := held.reads ++ [published] })
      hext2.typed hext2.forked hwritten2 (fun _ _ => rfl) hleave
    | fpEnv =>
     rw [hr] at hleave
     refine written_write (fun held => { held with written := published }) hext2.typed
      hext2.forked hwritten2 (fun heq => ?_) hleave
     have hown := htouched'.own.2
     grind
  · rw [names, mem_singleton] at hmem
    subst hmem
    obtain ⟨-, held1, hheld1, hw⟩ := hwritten1
    rw [← hw, some.inj (hheld.symm.trans hheld1)]
 | change =>
  have hnot : chain ∉ touched := fun hmem => by
   rw [hacc] at hspares
   cases hspares hmem
  rw [hacc] at hobserve hleave
  obtain ⟨-, -, hkeeps⟩ := settle_ok htouched' ht hf hobserve
  have hwritten2 := (hwritten.of_states (hkeeps chain hnot hwritten.1)).grown hgrown
  refine ⟨split_written hnot hext2.typed hext2.forked hwritten2 hleave, observed, published,
   hstates, fun hmem => ?_⟩
  exact absurd hmem hnot

/-- **A read** observes what its chain was written with. -/
theorem threadEffect_read (hmemo : plan.resource (touched.headD 0) = .memory) (ht : Typed plan t.chains)
  (hf : Forked (nodes ++ [t.node id]) t.chains)
  (hprod : ∀ v ∈ effect.produced, v < t.chains.next ∧ t.chains.types v = some effect.resource)
  (hacc : effect.access = .read) (h : threadEffect plan id t effect = .ok t') :
  ∃ observed published, t'.states = t.states ++ [(effect.resource, observed, published)] ∧
   Written t'.chains (touched.headD 0) observed := by
 have htouched' := plan.touched_ok htouched
 obtain ⟨observed, s1, published, s2, hobserve, -, hpublish, hleave, hstates⟩ :=
  threadEffect_cases htouched h
 have hr := htouched'.own.2
 rw [hr] at hpublish
 rw [hmemo] at hr
 obtain ⟨hext1, -⟩ := observe_moves htouched' ht hf hobserve
 obtain ⟨hgrown, -⟩ := publish_ok (fun v hv => by
  obtain ⟨hlt, hty⟩ := hprod v hv
  exact ⟨Nat.lt_of_lt_of_le hlt hext1.next, (hext1.types v hlt).trans hty⟩) hpublish
 have hext2 := hgrown.extends hext1.typed hext1.forked
 rw [hacc] at hobserve hleave
 rw [← hr] at hleave
 obtain ⟨⟨held, s₁'⟩, hstate, hobserve⟩ := bind_ok.1 hobserve
 obtain ⟨rfl, rfl⟩ := Prod.mk.inj (Except.ok.inj hobserve)
 obtain ⟨-, hheld, hfree, -⟩ := state_ok ht hf hstate
 have hwritten1 : Written s₁' (touched.headD 0) held.written := ⟨hfree, held, hheld, rfl⟩
 exact ⟨held.written, published, hstates,
  written_write (fun held => { held with reads := held.reads ++ [published] })
   hext2.typed hext2.forked (hwritten1.grown hgrown) (fun _ _ => rfl) hleave⟩

end

section

variable (hmemo : plan.resource chain = .memory) (ht : Typed plan t.chains) (hf : Forked (nodes ++ [t.node id]) t.chains)
  (hprod : ∀ effect ∈ effects, ∀ v ∈ effect.produced, v < t.chains.next ∧ t.chains.types v = some effect.resource)

include hmemo ht hf hprod

/-- **The effects of an operation** that spares a chain. -/
theorem threadEffects_written
  (hspares : ∀ effect ∈ effects, ∀ touched, plan.touched id effect.resource = some touched →
   chain ∈ effect.access.names touched → effect.access = .read) (hwritten : Written t.chains chain written)
  (h : effects.foldlM (threadEffect plan id) t = .ok t') :
  Written t'.chains chain written ∧ ∀ state ∈ t'.states, state ∈ t.states ∨
   ∃ effect ∈ effects, ∃ touched, plan.touched id effect.resource = some touched ∧
    (chain ∈ effect.access.names touched → state.2.1 = written) := by
 induction effects generalizing t with
 | nil =>
  cases h
  exact ⟨hwritten, fun state hstate => .inl hstate⟩
 | cons effect effects ih =>
  rw [foldlM_cons] at h
  obtain ⟨t1, h1, h⟩ := bind_ok.1 h
  have hproduced0 := hprod effect (.head _)
  have hext1 := threadEffect_extends ht hf hproduced0 h1
  have hstep : Written t1.chains chain written ∧ ∀ state ∈ t1.states, state ∈ t.states ∨
    ∃ touched, plan.touched id effect.resource = some touched ∧
     (chain ∈ effect.access.names touched → state.2.1 = written) := by
   cases htouched : plan.touched id effect.resource with
   | none =>
    grind [threadEffect_skip]
   | some touched =>
    obtain ⟨hwritten1, observed, published, hstates, hobserved⟩ := threadEffect_written htouched
     hmemo ht hf hproduced0 (hspares effect mem_cons_self touched htouched) hwritten h1
    grind
  obtain ⟨hwritten', hall⟩ := ih hext1.typed hext1.forked (fun e he v hv => by
    obtain ⟨hlt, hty⟩ := hprod e (.tail _ he) v hv
    exact ⟨Nat.lt_of_lt_of_le hlt hext1.next, (hext1.types v hlt).trans hty⟩)
   (fun e he => hspares e (.tail _ he)) hstep.1 h
  refine ⟨hwritten', fun state hstate => ?_⟩
  rcases hall state hstate with hmid | ⟨e, he, touched, htouched, hobs⟩
  · grind
  · exact .inr ⟨e, .tail _ he, touched, htouched, hobs⟩

/-- **The effects of an operation** that reads one chain: each observes what the chain is written
with. -/
theorem threadEffects_read  (hreads : ∀ effect ∈ effects, ∀ touched, plan.touched id effect.resource = some touched →
   effect.access = .read ∧ touched.headD 0 = chain) (h : effects.foldlM (threadEffect plan id) t = .ok t') :
  ∀ state ∈ t'.states, state ∈ t.states ∨ Written t'.chains chain state.2.1 := by
 induction effects generalizing t with
 | nil =>
  cases h
  exact fun state hstate => .inl hstate
 | cons effect effects ih =>
  rw [foldlM_cons] at h
  obtain ⟨t1, h1, hrest⟩ := bind_ok.1 h
  have hproduced0 := hprod effect (.head _)
  have hext1 := threadEffect_extends ht hf hproduced0 h1
  have hproduced1 : ∀ effect ∈ effects, ∀ v ∈ effect.produced,
    v < t1.chains.next ∧ t1.chains.types v = some effect.resource := by
   intro e he v hv
   obtain ⟨hlt, hty⟩ := hprod e (.tail _ he) v hv
   exact ⟨Nat.lt_of_lt_of_le hlt hext1.next, (hext1.types v hlt).trans hty⟩
  have hreads1 : ∀ effect ∈ effects, ∀ touched, plan.touched id effect.resource = some touched →
    effect.access = .read ∧ touched.headD 0 = chain := fun e he =>
   hreads e (.tail _ he)
  cases htouched : plan.touched id effect.resource with
  | none =>
   grind [threadEffect_skip]
  | some touched =>
   obtain ⟨hacc, rfl⟩ := hreads effect mem_cons_self touched htouched
   obtain ⟨observed, published, hstates, hwritten⟩ :=
    threadEffect_read htouched hmemo ht hf hproduced0 hacc h1
   -- the reads after it find the chain as it left it
   obtain ⟨hwritten', hall⟩ := threadEffects_written hmemo hext1.typed hext1.forked hproduced1
    (fun e he touched htouched _ => (hreads1 e he touched htouched).1) hwritten hrest
   intro state hstate
   rcases hall state hstate with hmid | ⟨e, he, touched', htouched', hobs⟩
   · grind
   · obtain ⟨hacc', hown⟩ := hreads1 e he touched' htouched'
     refine .inr ?_
     rw [hobs (by rw [hacc', names, hown]; exact mem_singleton.2 rfl)]
     exact hwritten'

end

theorem mem_names {name : String} {operands results : List Nat} {nested : Bool}
  (he : effect ∈ effects) (htouched : plan.touched id effect.resource = some touched) :
  (effect.access, effect.access.names touched) ∈
   (Op.plain id name operands results effects nested).names plan := by
 refine mem_filterMap.2 ⟨effect, he, ?_⟩
 rw [htouched]
 rfl

variable (hmemo : plan.resource chain = .memory)

include hmemo

/-- **An operation** that spares a chain leaves what it was written with. -/
theorem threadOp_written (hdecl : Declared s.next s.types op)
  (ht : Typed plan s) (hf : Forked nodes s) (hspares : op.Spares plan chain)
  (hwritten : Written s chain written) (h : threadOp plan op s = .ok (node, s')) :
  Written s' chain written := by
 cases hdecl with
 | @plain id name operands results effects nested resources observed produced =>
  rw [threadOp] at h
  obtain ⟨_, -, h⟩ := bind_ok.1 h
  obtain ⟨t, hthread, h⟩ := bind_ok.1 h
  cases h
  have hstart : Extends plan nodes (nodes ++ [Threading.node id ⟨operands, results, [], s⟩]) s s :=
   Extends.widen ht hf fun v w hvw => hvw.subset (by simp)
  exact (threadEffects_written (t := ⟨operands, results, [], s⟩) hmemo ht hstart.forked
   (fun effect he v hv => ⟨(produced effect he v hv).1, (produced effect he v hv).2.1⟩)
   (fun effect he touched htouched => hspares _ (mem_names he htouched)) hwritten hthread).1
 | @loop id inits results body latch yields graph hbody =>
  by_cases hempty : plan.loopTouched id = []
  · obtain ⟨-, rfl⟩ := threadLoop_skip hempty h
    exact hwritten
  · have hnot : chain ∉ plan.loopTouched id := fun hmem => by
     cases hspares _ (mem_singleton.2 rfl) hmem
    obtain ⟨observed, s1, s2, published, s3, hclose, hgrown, -, hports, hext3, -, hall, hwrite⟩ :=
     threadLoop_parts hempty (blockGrows plan body) hbody ht hf h
    have hnd := plan.loopTouched_nodup id
    obtain ⟨hext1, hdrains, -, hkeeps⟩ := closeForks_ok hnd ht hf hclose
    obtain ⟨hgrownOut, -⟩ := portsOf_ok plan (plan.loopTouched id) s2
    rw [hports] at hgrownOut
    have hwritten1 := hwritten.of_states
     ⟨hkeeps chain hnot hwritten.1, hwritten.1.of_shared hdrains.shared⟩
    have hwritten3 := (hwritten1.grown hgrown).grown hgrownOut
    obtain ⟨-, -, hothers⟩ := writeAll_ok hnd hext3.typed hext3.forked hall hwrite
    exact hwritten3.of_states (hothers chain hnot hwritten3.1)

/-- **An operation** that reads one chain observes what the chain is written with, before it and
after. -/
theorem threadOp_reads (hdecl : Declared s.next s.types op) (ht : Typed plan s) (hf : Forked nodes s)
  (hreads : op.Reads plan chain) (h : threadOp plan op s = .ok (node, s')) :
  ∀ observed ∈ node.observes, Written s' chain observed ∧
   ∀ written, Written s chain written → observed = written := by
 have hspares : op.Spares plan chain := fun named hnamed _ => by rw [hreads named hnamed]
 cases hdecl with
 | @plain id name operands results effects nested resources observed produced =>
  have hdecl' : Declared s.next s.types (.plain id name operands results effects nested) :=
   Declared.plain resources observed produced
  have hkeeps : ∀ written, Written s chain written → Written s' chain written :=
   fun written hw => threadOp_written hmemo hdecl' ht hf hspares hw h
  rw [threadOp] at h
  obtain ⟨_, -, h⟩ := bind_ok.1 h
  obtain ⟨t, hthread, h⟩ := bind_ok.1 h
  cases h
  have hstart : Extends plan nodes (nodes ++ [Threading.node id ⟨operands, results, [], s⟩]) s s :=
   Extends.widen ht hf fun v w hvw => hvw.subset (by simp)
  have hall := threadEffects_read (t := ⟨operands, results, [], s⟩) hmemo ht hstart.forked
   (fun effect he v hv => ⟨(produced effect he v hv).1, (produced effect he v hv).2.1⟩)
   (fun effect he touched htouched => by
    have hnamed := hreads _ (mem_names he htouched)
    have hacc : effect.access = .read := congrArg Prod.fst hnamed
    have hnames : effect.access.names touched = [chain] := congrArg Prod.snd hnamed
    rw [hacc, names] at hnames
    exact ⟨hacc, (List.cons.inj hnames).1⟩) hthread
  intro o ho
  obtain ⟨state, hstate, rfl⟩ := List.mem_map.1 ho
  have hwritten := (hall state hstate).resolve_left not_mem_nil
  exact ⟨hwritten, fun written hw => hwritten.unique (hkeeps written hw)⟩
 | @loop id inits results body latch yields graph hbody =>
  cases hreads _ (mem_singleton.2 rfl)

/-- A read that finds what its chain was written with before a run that spares the chain. -/
theorem threadOps_find {ops : List Op} (hops : ∀ op ∈ ops, Declared s.next s.types op)
  (ht : Typed plan s) (hf : Forked nodes s) (hwritten : Written s chain written)
  (h : threadOps plan ops s = .ok (added, s')) {j : Nat}
  (hop : ops[j]? = some op) (hnode : added[j]? = some node) (hreads : op.Reads plan chain)
  (hspares : ∀ (k : Nat) (op : Op), k < j → ops[k]? = some op → op.Spares plan chain) :
  ∀ observed ∈ node.observes, observed = written := by
 induction ops generalizing nodes s added j with
 | nil => simp at hop
 | cons first ops ih =>
  obtain ⟨⟨node1, s1⟩, h1, h⟩ := bind_ok.1 h
  obtain ⟨⟨rest, s2⟩, h2, h⟩ := bind_ok.1 h
  cases h
  have hdecl := hops first (.head _)
  cases j with
  | zero =>
   cases hop
   cases hnode
   exact fun o ho => (threadOp_reads hmemo hdecl ht hf hreads h1 o ho).2 written hwritten
  | succ j =>
   obtain ⟨hext1, -⟩ := threadOp_ok first nodes s s1 node1 hdecl ht hf h1
   refine ih (fun op' hop' => (hops op' (.tail _ hop')).mono hext1.next
    hext1.types) hext1.typed hext1.forked ?_ h2 hop hnode fun k o hk ho =>
     hspares (k + 1) o (succ_lt_succ hk) ho
   exact threadOp_written hmemo hdecl ht hf
    (hspares 0 first (succ_pos j) rfl) hwritten h1

/-- **Two reads of a chain with no change of it between them** observe the same state. -/
theorem threadOps_same {ops : List Op} (hops : ∀ op ∈ ops, Declared s.next s.types op)
  (ht : Typed plan s) (hf : Forked nodes s) (h : threadOps plan ops s = .ok (added, s'))
  {i j : Nat} {op' : Op} {node' : Node} (hij : i < j) (hop : ops[i]? = some op)
  (hop' : ops[j]? = some op') (hnode : added[i]? = some node) (hnode' : added[j]? = some node')
  (hreads : op.Reads plan chain) (hreads' : op'.Reads plan chain)
  (hspares : ∀ (k : Nat) (op : Op), i < k → k < j → ops[k]? = some op → op.Spares plan chain) :
  ∀ observed ∈ node.observes, ∀ observed' ∈ node'.observes, observed' = observed := by
 induction ops generalizing nodes s added i j with
 | nil => simp at hop
 | cons first ops ih =>
  obtain ⟨⟨node1, s1⟩, h1, h⟩ := bind_ok.1 h
  obtain ⟨⟨rest, s2⟩, h2, h⟩ := bind_ok.1 h
  cases h
  have hdecl := hops first (.head _)
  obtain ⟨hext1, -⟩ := threadOp_ok first nodes s s1 node1 hdecl ht hf h1
  have hops1 : ∀ op' ∈ ops, Declared s1.next s1.types op' := fun op' hop' =>
   (hops op' (.tail _ hop')).mono hext1.next hext1.types
  cases j with
  | zero => exact absurd hij (Nat.not_lt_zero i)
  | succ j =>
   cases i with
   | succ i =>
    exact ih hops1 hext1.typed hext1.forked h2 (lt_of_succ_lt_succ hij) hop hop' hnode
     hnode' fun k o hik hkj ho => hspares (k + 1) o (succ_lt_succ hik)
      (succ_lt_succ hkj) ho
   | zero =>
    cases hop
    cases hnode
    intro o ho
    have hwritten := (threadOp_reads hmemo hdecl ht hf hreads h1 o ho).1
    exact threadOps_find hmemo hops1 hext1.typed hext1.forked hwritten h2 hop' hnode'
     hreads' fun k o' hk ho' => hspares (k + 1) o' (succ_pos k) (succ_lt_succ hk) ho'

end Tir.Restructure
