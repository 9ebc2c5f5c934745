import Tir.Basic.Acyclic
import Tir.Restructure.Placement

/-!
# The states make no cycle

A block is `Sound` when its states make no cycle and hold none of the states its later operations
produce. `Sound.moves` says that what the chains place keeps it so, `threadPlain_sound` and
`threadLoop_sound` that an operation does, and `threadOps_sound` is the run over a block.
-/

open List

namespace Tir.Restructure

open Chains

variable {plan : Plan} {nodes : List Node} {s s' : Chains} {of : StateResource → Prop} {new : Nat → Prop}

/-! ## No cycle -/

/-- The states make no cycle, and the states that are published later are not there yet. -/
structure Sound (plan : Plan) (nodes : List Node) (s : Chains) (later : List Nat) : Prop where
 observed : ∀ node ∈ nodes ++ s.nodes, ∀ v ∈ node.observes, v < s.next ∧ v ∉ later
 held : Holds plan (fun _ => True) (· ∉ later) s
 acyclic : Acyclic (Follows (nodes ++ s.nodes))
 later : ∀ v ∈ later, v < s.next
 ported : ∀ node ∈ s.nodes, node.Ported

variable {later results : List Nat} {v id : Nat} {added : List Node} {effects : List ResourceEffect}

/-- New values are none of the later ones. -/
theorem not_later {bound : Nat} (h : ∀ v ∈ later, v < bound) (hv : bound ≤ v) : v ∉ later :=
 fun hmem => lt_irrefl v ((h v hmem).trans_le hv)

theorem Sound.drop {later' : List Nat} (h : Sound plan nodes s later) (hsub : later' ⊆ later) :
  Sound plan nodes s later' :=
 ⟨fun node hn v hv => ⟨(h.observed node hn v hv).1, fun hl => (h.observed node hn v hv).2 (hsub hl)⟩,
  ⟨fun chain held hheld hr v hv hl => h.held.states chain held hheld hr v hv (hsub hl),
   fun hr shared hs hl => h.held.shared hr shared hs (hsub hl)⟩,
  h.acyclic, fun v hv => h.later v (hsub hv), h.ported⟩

/-- An edge between two points is an old one or leads to a new value. -/
theorem follows_cases {bound : Nat} (hadded : s'.nodes = s.nodes ++ added)
  (hall : ∀ node ∈ added, ∀ w ∈ node.publishes, bound ≤ w ∧ ∀ v ∈ node.observes, v < w) {w : Nat}
  (h : Follows (nodes ++ s'.nodes) v w) : Follows (nodes ++ s.nodes) v w ∨ bound ≤ w ∧ v < w := by
 obtain ⟨node, hn, hv, hw⟩ := h
 rw [hadded, ← append_assoc, mem_append] at hn
 rcases hn with hn | hn
 · exact .inl ⟨node, hn, hv, hw⟩
 · exact .inr ⟨(hall node hn w hw).1, (hall node hn w hw).2 v hv⟩

/-- **What the chains place** keeps the block sound. -/
theorem Sound.moves (h : Sound plan nodes s later)
  (hmoves : Moves plan of (s.next ≤ ·) s s') : Sound plan nodes s' later := by
 have hfresh : ∀ v, s.next ≤ v → v ∉ later := fun v => not_later h.later
 obtain ⟨added, hadded, hall⟩ := hmoves.adds
 refine ⟨fun node hn v hv => ?_, hmoves.holds _ _ hfresh h.held, ?_,
  fun v hv => (h.later v hv).trans_le hmoves.next, fun node hn => ?_⟩
 · rw [hadded, ← append_assoc, mem_append] at hn
   rcases hn with hn | hn
   · obtain ⟨hlt, hnot⟩ := h.observed node hn v hv
     exact ⟨hlt.trans_le hmoves.next, hnot⟩
   · exact ⟨(hall node hn).known v hv,
      (hall node hn).held _ hfresh (h.held.anti fun _ _ => trivial) v hv⟩
 · refine h.acyclic.of_numbered s.next (fun v w hvw => ?_) fun v w hvw =>
    follows_cases hadded (fun node hn => (hall node hn).later) hvw
   obtain ⟨node, hn, hv, -⟩ := hvw
   exact (h.observed node hn v hv).1
 · rw [hadded] at hn
   exact (mem_append.1 hn).elim (h.ported node) fun hn => (hall node hn).ported

/-- The chains and the states of an operation, between two of its effects. -/
structure Between (plan : Plan) (id : Nat) (nodes : List Node) (t : Threading) (later : List Nat) : Prop where
 sound : Sound plan nodes t.chains later
 observed : ∀ v ∈ (t.node id).observes, v < t.chains.next ∧ v ∉ later
 published : ∀ state ∈ t.states, state.2.2 < t.chains.next ∧
  t.chains.types state.2.2 = some state.1 ∧
  ∀ node ∈ nodes ++ [t.node id] ++ t.chains.nodes, state.2.2 ∉ node.observes

/-- A state of one resource is not held on the chains of another. -/
theorem holds_ne {r r' : StateResource} (ht : Typed plan s) (hty : s.types v = some r)
  (hne : r ≠ r') : Holds plan (only r') (· ≠ v) s := by
 refine ⟨fun chain held hheld hr w hw heq => ?_, fun hr shared hs heq => ?_⟩
 · subst heq
   have hty' := (ht.known chain held hheld w hw).2
   grind
 · have hty' := (ht.shared shared hs).2.1
   grind

section

variable {t t' : Threading} (ht : Typed plan t.chains) (hf : Forked (nodes ++ [t.node id]) t.chains)

include ht hf

/-- **One effect** keeps the block sound. -/
theorem threadEffect_between {effect : ResourceEffect}
  (hprod : ∀ v ∈ effect.produced, v < t.chains.next ∧ t.chains.types v = some effect.resource)
  (hresource : ∀ state ∈ t.states, state.1 ≠ effect.resource) (hnd : (effect.produced ++ later).Nodup)
  (hbetween : Between plan id nodes t (effect.produced ++ later))
  (h : threadEffect plan id t effect = .ok t') : Between plan id nodes t' later := by
 have hsub : later ⊆ effect.produced ++ later := subset_append_right _ _
 cases htouched : plan.touched id effect.resource with
 | none =>
  obtain rfl := threadEffect_skip htouched h
  exact ⟨hbetween.sound.drop hsub, fun v hv =>
   ⟨(hbetween.observed v hv).1, fun hl => (hbetween.observed v hv).2 (hsub hl)⟩,
   hbetween.published⟩
 | some touched =>
  obtain ⟨hext, -⟩ := threadEffect_ok htouched ht hf hprod h
  have hsound := hbetween.sound
  have hunheld : ∀ v ∈ effect.produced, Holds plan (only effect.resource) (· ≠ v) t.chains := by
   intro v hv
   have hnot : ∀ w, w ∉ effect.produced ++ later → w ≠ v := fun w hw heq =>
    hw (heq ▸ mem_append_left _ hv)
   exact ⟨fun chain held hheld _ w hw => hnot w (hsound.held.states chain held hheld trivial w hw),
    fun _ shared hs => hnot _ (hsound.held.shared trivial shared hs)⟩
  obtain ⟨observed, published, hplaced⟩ :=
   threadEffect_placed htouched ht hf hprod hunheld h
  obtain ⟨added, hadded, hall⟩ := hplaced.adds
  have hfresh : ∀ v, t.chains.next ≤ v → v ∉ effect.produced ++ later := fun v =>
   not_later hsound.later
  have hheld : Holds plan (only effect.resource) (· ∉ effect.produced ++ later) t.chains :=
   hsound.held.anti fun _ _ => trivial
  have hlater : published ∉ later := by
   rcases hplaced.produced with hp | hge
   · exact disjoint_of_nodup_append hnd hp
   · exact fun hl => hfresh published hge (hsub hl)
  -- nothing there before observes the published state
  have hpub : ∀ v, v < t.chains.next → v ∉ effect.produced ++ later → v ≠ published := by
   rintro v hlt hnot rfl
   rcases hplaced.produced with hp | hge
   · exact hnot (mem_append_left _ hp)
   · exact lt_irrefl _ (hlt.trans_le hge)
  have hobserves : ∀ v ∈ (t'.node id).observes, v ∈ (t.node id).observes ∨ v = observed := by
   intro v hv
   simpa [Threading.node, Node.observes, hplaced.states] using hv
  refine ⟨⟨fun node hn v hv => ?_, ?_, ?_, ?_, fun node hn => ?_⟩, fun v hv => ?_,
   fun state hstate => ?_⟩
  · rw [hadded, ← append_assoc, mem_append] at hn
    rcases hn with hn | hn
    · obtain ⟨hlt, hnot⟩ := hsound.observed node hn v hv
      exact ⟨hlt.trans_le hplaced.next, fun hl => hnot (hsub hl)⟩
    · exact ⟨(hall node hn).1.known v hv,
       fun hl => (hall node hn).1.held _ hfresh hheld v hv (hsub hl)⟩
  · exact hplaced.holds _ _ (fun v hv hl => hfresh v hv (hsub hl)) hlater
     ((hsound.drop hsub).held)
  · refine hsound.acyclic.of_numbered t.chains.next (fun v w hvw => ?_) fun v w hvw =>
     follows_cases hadded (fun node hn => (hall node hn).1.later) hvw
    obtain ⟨node, hn, hv, -⟩ := hvw
    exact (hsound.observed node hn v hv).1
  · exact fun v hv => (hsound.later v (hsub hv)).trans_le hplaced.next
  · rw [hadded] at hn
    exact (mem_append.1 hn).elim (hsound.ported node) fun hn => (hall node hn).1.ported
  · rcases hobserves v hv with hv | rfl
    · obtain ⟨hlt, hnot⟩ := hbetween.observed v hv
      exact ⟨hlt.trans_le hplaced.next, fun hl => hnot (hsub hl)⟩
    · exact ⟨hplaced.taken.1, fun hl => hplaced.held _ hfresh hheld (hsub hl)⟩
  · rw [hplaced.states] at hstate
    rcases mem_append.1 hstate with hold | hnew
    · -- an earlier effect's state is of another resource
      obtain ⟨hlt, hty, hnone⟩ := hbetween.published state hold
      have hne := holds_ne ht hty (hresource state hold)
      have hfresh' : ∀ v, t.chains.next ≤ v → v ≠ state.2.2 := fun v hv => by omega
      refine ⟨hlt.trans_le hplaced.next, (hext.types _ hlt).trans hty, fun node hn hv => ?_⟩
      rw [hadded, ← append_assoc, mem_append] at hn
      rcases hn with hn | hn
      · rw [append_assoc, mem_append, singleton_append, mem_cons] at hn
        rcases hn with hn | rfl | hn
        · exact hnone node (by simp [hn]) hv
        · rcases hobserves _ hv with hv | heq
          · exact hnone (t.node id) (by simp) hv
          · exact hplaced.held _ hfresh' hne heq.symm
        · exact hnone node (by simp [hn]) hv
      · exact (hall node hn).1.held _ hfresh' hne _ hv rfl
    · obtain rfl := mem_singleton.1 hnew
      refine ⟨hplaced.known.1, hplaced.known.2, fun node hn hv => ?_⟩
      rw [hadded, ← append_assoc, mem_append] at hn
      rcases hn with hn | hn
      · rw [append_assoc, mem_append, singleton_append, mem_cons] at hn
        rcases hn with hn | rfl | hn
        · obtain ⟨hlt, hnot⟩ := hsound.observed node (by simp [hn]) _ hv
          exact hpub _ hlt hnot rfl
        · rcases hobserves _ hv with hv | heq
          · obtain ⟨hlt, hnot⟩ := hbetween.observed _ hv
            exact hpub _ hlt hnot rfl
          · exact hplaced.taken.2 heq.symm
        · obtain ⟨hlt, hnot⟩ := hsound.observed node (by simp [hn]) _ hv
          exact hpub _ hlt hnot rfl
      · exact (hall node hn).2 hv

/-- **The effects of an operation** keep the block sound. -/
theorem threadEffects_between (hprod : ∀ effect ∈ effects, ∀ v ∈ effect.produced,
   v < t.chains.next ∧ t.chains.types v = some effect.resource)
  (hresources : effects.Pairwise fun first second => first.resource ≠ second.resource)
  (hresource : ∀ effect ∈ effects, ∀ state ∈ t.states, state.1 ≠ effect.resource)
  (hnd : (effects.flatMap ResourceEffect.produced ++ later).Nodup)
  (hbetween : Between plan id nodes t (effects.flatMap ResourceEffect.produced ++ later))
  (h : effects.foldlM (threadEffect plan id) t = .ok t') : Between plan id nodes t' later := by
 induction effects generalizing t with
 | nil =>
  cases h
  exact hbetween
 | cons effect effects ih =>
  obtain ⟨hfst, hresources⟩ := pairwise_cons.1 hresources
  rw [flatMap_cons, append_assoc] at hnd hbetween
  rw [foldlM_cons] at h
  obtain ⟨t1, h1, h⟩ := bind_ok.1 h
  have hproduced0 := hprod effect (.head _)
  have hbetween1 := threadEffect_between ht hf hproduced0
   (hresource effect (.head _)) hnd hbetween h1
  have hext1 := threadEffect_extends ht hf hproduced0 h1
  refine ih hext1.typed hext1.forked (fun e he v hv => ?_) hresources (fun e he state hstate => ?_)
   (nodup_append.1 hnd).2.1 hbetween1 h
  · obtain ⟨hlt, hty⟩ := hprod e (.tail _ he) v hv
    exact ⟨hlt.trans_le hext1.next, (hext1.types v hlt).trans hty⟩
  grind [threadEffect_states]

end

/-- **A plain operation** keeps the block sound. -/
theorem threadPlain_sound {name : String} {operands : List Nat} {nested : Bool} {node : Node}
  (hdecl : Declared s.next s.types (.plain id name operands results effects nested))
  (ht : Typed plan s) (hf : Forked nodes s) (hnd : (effects.flatMap ResourceEffect.produced ++ later).Nodup)
  (hsound : Sound plan nodes s (effects.flatMap ResourceEffect.produced ++ later))
  (h : threadOp plan (.plain id name operands results effects nested) s = .ok (node, s')) :
  Sound plan (nodes ++ [node]) s' later := by
 rw [threadOp] at h
 obtain ⟨_, -, h⟩ := bind_ok.1 h
 obtain ⟨t, hthread, h⟩ := bind_ok.1 h
 cases h
 cases hdecl with
 | plain resources _ produced =>
  have hstart : Extends plan nodes (nodes ++ [Threading.node id ⟨operands, results, [], s⟩]) s s :=
   Extends.widen ht hf fun v w hvw => hvw.subset (by simp)
  have hbetween : Between plan id nodes t later := by
   refine threadEffects_between hstart.typed hstart.forked (fun effect he v hv =>
    ⟨(produced effect he v hv).1, (produced effect he v hv).2.1⟩) resources ?_ hnd ?_ hthread
   · rintro _ - _ ⟨⟩
   · exact ⟨hsound, by rintro _ ⟨⟩, by rintro _ ⟨⟩⟩
  refine ⟨fun node hn v hv => ?_, hbetween.sound.held, ?_, hbetween.sound.later,
   hbetween.sound.ported⟩
  · rw [append_assoc, mem_append, singleton_append, mem_cons] at hn
    rcases hn with hn | rfl | hn
    · exact hbetween.sound.observed node (by simp [hn]) v hv
    · exact hbetween.observed v hv
    · exact hbetween.sound.observed node (by simp [hn]) v hv
  · -- the operation's node leads to states that nothing observes
    refine hbetween.sound.acyclic.of_sinks ?_
    rintro v w ⟨node, hn, hv, hw⟩
    rw [append_assoc, mem_append, singleton_append, mem_cons] at hn
    rcases hn with hn | rfl | hn
    · exact .inl ⟨node, by simp [hn], hv, hw⟩
    · obtain ⟨state, hstate, rfl⟩ := mem_map.1 hw
      refine .inr ?_
      rintro x ⟨node', hn', hv', -⟩
      exact (hbetween.published state hstate).2.2 node' hn' hv'
    · exact .inl ⟨node, by simp [hn], hv, hw⟩

/-- Writing several chains with new states. -/
theorem writeAll_moves {chains states : List Nat} (hnd : chains.Nodup) (ht : Typed plan s)
  (hf : Forked nodes s) (hall : Forall₂ (Writable plan nodes s) chains states)
  (hfresh : ∀ v, s.next ≤ v → new v) (hnew : ∀ v ∈ states, new v)
  (h : writeAll s chains states = .ok s') : Moves plan (fun _ => True) new s s' := by
 induction chains generalizing s states with
 | nil =>
  cases hall
  obtain rfl := Except.ok.inj h
  exact Moves.refl s
 | cons chain chains ih =>
  obtain ⟨v, states, -, -, rfl⟩ := forall₂_cons_left_iff.1 hall
  obtain ⟨held, s1, hstate, h, hext, -, -, hall1⟩ := writeAll_cons hnd ht hf hall h
  obtain ⟨-, hheld, -⟩ := state_ok ht hf hstate
  have hmoves : Moves plan (fun _ => True) new s s1 :=
   (state_moves ht hstate).mono (fun _ _ => trivial) hfresh
  have hput : Moves plan (fun _ => True) new s1 (s1.put chain { held with written := v }) := by
   refine moves_of_states [] le_rfl rfl (fun other held' hheld' => ?_)
    (append_nil _).symm (by simp)
   by_cases ho : other = chain
   · subst ho
     cases (put_self ..).symm.trans hheld'
     refine .inr ⟨trivial, fun P hP of' hr hs w hw => ?_⟩
     rcases mem_cons.1 hw with rfl | hw
     · exact hP _ (hnew _ (.head _))
     · exact hs.states other held hheld hr w (.tail _ hw)
   grind [put_of_ne]
  refine (hmoves.trans hput).trans (ih (nodup_cons.1 hnd).2 hext.typed hext.forked hall1
   (fun w hw => hfresh w (hext.next.trans hw))
   (fun w hw => hnew w (.tail _ hw)) h)

/-- **A counted loop** keeps the block sound: all it places and publishes is new. -/
theorem threadLoop_sound {latch : Nat} {inits yields : List Nat} {body : List Op} {graph : Bool} {node : Node}
  (hdecl : ∀ op ∈ body, Declared s.next s.types op) (ht : Typed plan s) (hf : Forked nodes s)
  (hsound : Sound plan nodes s later)
  (h : threadOp plan (.loop id inits results body latch yields graph) s = .ok (node, s')) :
  Sound plan (nodes ++ [node]) s' later := by
 by_cases hempty : plan.loopTouched id = []
 · obtain ⟨rfl, rfl⟩ := threadLoop_skip hempty h
   refine ⟨fun node hn v hv => ?_, hsound.held, hsound.acyclic.of_sinks ?_, hsound.later,
    hsound.ported⟩
   · rw [append_assoc, mem_append, singleton_append, mem_cons] at hn
     rcases hn with hn | rfl | hn
     · exact hsound.observed node (by simp [hn]) v hv
     · nomatch hv
     · exact hsound.observed node (by simp [hn]) v hv
   · rintro v w ⟨node, hn, hv, hw⟩
     rw [append_assoc, mem_append, singleton_append, mem_cons] at hn
     rcases hn with hn | rfl | hn
     · exact .inl ⟨node, by simp [hn], hv, hw⟩
     · nomatch hv
     · exact .inl ⟨node, by simp [hn], hv, hw⟩
 · obtain ⟨observed, s1, s2, published, s3, hclose, hgrown, hnodes2, hports, hext3,
    ⟨inits', results', ports, body', yields', rfl⟩, hall, hwrite⟩ :=
    threadLoop_parts hempty (blockGrows plan body) hdecl ht hf h
   have hnd := plan.loopTouched_nodup id
   obtain ⟨hext1, -, hsettled, -⟩ := closeForks_ok hnd ht hf hclose
   obtain ⟨hgrownOut, hout⟩ := portsOf_ok plan (plan.loopTouched id) s2
   rw [hports] at hgrownOut hout
   have hnodes3 : s3.nodes = s1.nodes := by
    rw [← hnodes2, ← (Prod.mk.inj hports).2]
    rfl
   -- every published state is newer than what was there when the forks were closed
   have hpub : ∀ v ∈ published, s1.next ≤ v := by
    intro v hv
    obtain ⟨i, hi, rfl⟩ := mem_iff_getElem.1 hv
    have hi' : i < (plan.loopTouched id).length := hout.length_eq ▸ hi
    exact hgrown.next.trans ((forall₂_iff_get.1 hout).2 i hi' hi).1
   have hclosed := closeForks_moves (fun _ => True) (fun _ _ => trivial) ht hf hclose
   have hnumbered : Moves plan (fun _ => True) (s.next ≤ ·) s1 s3 :=
    moves_of_states [] (hgrown.next.trans hgrownOut.next)
     (hgrownOut.shared.trans hgrown.shared)
     (fun chain held hheld => .inl (by rw [hgrownOut.states, hgrown.states] at hheld; exact hheld))
     (by rw [hnodes3, append_nil]) (by simp)
   have hwritten : Moves plan (fun _ => True) (s.next ≤ ·) s3 s' := writeAll_moves hnd hext3.typed
    hext3.forked hall (fun v hv => le_trans (hext1.trans hext3).next hv)
    (fun v hv => hext1.next.trans (hpub v hv)) hwrite
   have hmoves := (hclosed.trans hnumbered).trans hwritten
   have hsound1 := hsound.moves hclosed
   have hsound' := hsound.moves hmoves
   have hobserved : ∀ v ∈ observed, v < s1.next ∧ v ∉ later := by
    intro v hv
    obtain ⟨i, hi, rfl⟩ := mem_iff_getElem.1 hv
    have hi' : i < (plan.loopTouched id).length := hsettled.length_eq ▸ hi
    have hset := (forall₂_iff_get.1 hsettled).2 i hi' hi
    exact ⟨(hext1.typed.known _ _ hset.state _ (.head _)).1,
     hsound1.held.states _ _ hset.state trivial _ (.head _)⟩
   have hobserves : ∀ v ∈ (Node.loop id inits' results' ((plan.loopTouched id).zip
     (observed.zip published)) ports body' yields').observes, v ∈ observed := by
    intro v hv
    obtain ⟨state, hstate, rfl⟩ := mem_map.1 hv
    exact (of_mem_zip (of_mem_zip hstate).2).1
   have hpublishes : ∀ v ∈ (Node.loop id inits' results' ((plan.loopTouched id).zip
     (observed.zip published)) ports body' yields').publishes, v ∈ published := by
    intro v hv
    obtain ⟨state, hstate, rfl⟩ := mem_map.1 hv
    exact (of_mem_zip (of_mem_zip hstate).2).2
   have hnext : s1.next ≤ s'.next := hnumbered.next.trans hwritten.next
   obtain ⟨added, hadded, hplaced⟩ := hmoves.adds
   refine ⟨fun node hn v hv => ?_, hsound'.held, ?_, hsound'.later, hsound'.ported⟩
   · rw [append_assoc, mem_append, singleton_append, mem_cons] at hn
     rcases hn with hn | rfl | hn
     · exact hsound'.observed node (by simp [hn]) v hv
     · grind
     · exact hsound'.observed node (by simp [hn]) v hv
   · refine hsound.acyclic.of_numbered s.next ?_ ?_
     · rintro v w ⟨node, hn, hv, -⟩
       exact (hsound.observed node hn v hv).1
     · rintro v w ⟨node, hn, hv, hw⟩
       rw [append_assoc, mem_append, singleton_append, mem_cons] at hn
       rcases hn with hn | rfl | hn
       · exact .inl ⟨node, by simp [hn], hv, hw⟩
       · have hge := hpub w (hpublishes w hw)
         exact .inr ⟨hext1.next.trans hge,
          lt_of_lt_of_le (hobserved v (hobserves v hv)).1 hge⟩
       · have hfollows : Follows (nodes ++ s'.nodes) v w := ⟨node, by simp [hn], hv, hw⟩
         exact follows_cases hadded (fun node hn => (hplaced node hn).later) hfollows

/-- **A run of operations** keeps the block sound. -/
theorem threadOps_sound {ops : List Op}
  (hops : ∀ op ∈ ops, Declared s.next s.types op) (ht : Typed plan s) (hf : Forked nodes s)
  (hnd : (ops.flatMap Op.produced ++ later).Nodup) (hsound : Sound plan nodes s (ops.flatMap Op.produced ++ later))
  (h : threadOps plan ops s = .ok (added, s')) : Sound plan (nodes ++ added) s' later := by
 induction ops generalizing nodes s added with
 | nil =>
  cases h
  grind
 | cons op ops ih =>
  obtain ⟨⟨node, s1⟩, h1, h⟩ := bind_ok.1 h
  obtain ⟨⟨rest, s2⟩, h2, h⟩ := bind_ok.1 h
  cases h
  rw [flatMap_cons, append_assoc] at hnd hsound
  obtain ⟨hext1, -⟩ := threadOp_ok op nodes s s1 node (hops op (.head _)) ht hf h1
  have hsound1 : Sound plan (nodes ++ [node]) s1 (ops.flatMap Op.produced ++ later) := by
   cases op with
   | plain id name operands results effects nested =>
    exact threadPlain_sound (hops _ (.head _)) ht hf hnd hsound h1
   | loop id inits results body latch yields graph =>
    have hbody : ∀ op ∈ body, Declared s.next s.types op := by
     cases hops _ mem_cons_self with
     | loop hbody => exact hbody
    exact threadLoop_sound hbody ht hf hsound h1
  have hsound := ih (fun op' hop => (hops op' (.tail _ hop)).mono hext1.next
   hext1.types) hext1.typed hext1.forked (nodup_append.1 hnd).2.1 hsound1 h2
  grind

end Tir.Restructure
