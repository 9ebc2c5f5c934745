import Tir.Restructure.ThreadOrder

/-!
# Where threading takes its values from

The chains hold states that were there or are new, and what threading places observes held states
and publishes new ones (`Moves`). An effect publishes a state that nothing observes yet
(`threadEffect_placed`).
-/

open List Nat

namespace Tir.Restructure

variable {plan : Plan} {nodes : List Node} {s s' s₁ s₂ : Chains} {chain : Nat}

/-! ## Where values come from -/

/-- A property of every state held on the chains of some resources. -/
structure Holds (plan : Plan) (of : StateResource → Prop) (P : Nat → Prop) (s : Chains) : Prop where
 states : ∀ chain held, s.states chain = some held → of (plan.resource chain) →
  ∀ v ∈ held.written :: held.reads, P v
 shared : of .memory → ∀ shared, s.shared = some shared → P shared.published

/-- A node placed between two points: it publishes new values, later ones than it observes, and
observes what was held or is new. -/
structure Placed (plan : Plan) (of : StateResource → Prop) (new : Nat → Prop) (s s' : Chains) (node : Node) : Prop where
 later : ∀ w ∈ node.publishes, s.next ≤ w ∧ ∀ v ∈ node.observes, v < w
 known : ∀ v ∈ node.observes, v < s'.next
 held : ∀ P : Nat → Prop, (∀ v, new v → P v) → Holds plan of P s → ∀ v ∈ node.observes, P v
 ported : node.Ported

/-- From one point to a later one the chains take only values they held and new ones. -/
structure Moves (plan : Plan) (of : StateResource → Prop) (new : Nat → Prop) (s s' : Chains) : Prop where
 next : s.next ≤ s'.next
 holds : ∀ (of' : StateResource → Prop) (P : Nat → Prop), (∀ v, new v → P v) →
  Holds plan of' P s → Holds plan of' P s'
 adds : ∃ added, s'.nodes = s.nodes ++ added ∧ ∀ node ∈ added, Placed plan of new s s' node

variable {of of' : StateResource → Prop} {new new' : Nat → Prop}

theorem Moves.refl (s : Chains) : Moves plan of new s s :=
 ⟨Nat.le_refl _, fun _ _ _ h => h, [], by simp, by simp⟩

theorem Moves.trans (h : Moves plan of new s s₁) (h' : Moves plan of new s₁ s₂) :
  Moves plan of new s s₂ := by
 obtain ⟨added, hadded, hall⟩ := h.adds
 obtain ⟨added', hadded', hall'⟩ := h'.adds
 refine ⟨Nat.le_trans h.next h'.next, fun of' P hP hs => h'.holds of' P hP (h.holds of' P hP hs),
  added ++ added', by rw [hadded', hadded, append_assoc], fun node hn => ?_⟩
 rcases mem_append.1 hn with hn | hn
 · obtain ⟨hlater, hknown, hheld, hported⟩ := hall node hn
   exact ⟨hlater, fun v hv => Nat.lt_of_lt_of_le (hknown v hv) h'.next, hheld, hported⟩
 · obtain ⟨hlater, hknown, hheld, hported⟩ := hall' node hn
   exact ⟨fun w hw => ⟨Nat.le_trans h.next (hlater w hw).1, (hlater w hw).2⟩, hknown,
    fun P hP hs => hheld P hP (h.holds of P hP hs), hported⟩

theorem Holds.anti {P : Nat → Prop} (h : Holds plan of P s) (hof : ∀ r, of' r → of r) : Holds plan of' P s :=
 ⟨fun chain held hheld hr => h.states chain held hheld (hof _ hr),
  fun hr => h.shared (hof _ hr)⟩

theorem Moves.mono (h : Moves plan of new s s') (hof : ∀ r, of r → of' r)
  (hnew : ∀ v, new v → new' v) : Moves plan of' new' s s' := by
 obtain ⟨added, hadded, hall⟩ := h.adds
 refine ⟨h.next, fun of' P hP => h.holds of' P fun v hv => hP v (hnew v hv), added, hadded,
  fun node hn => ?_⟩
 obtain ⟨hlater, hknown, hheld, hported⟩ := hall node hn
 exact ⟨hlater, hknown, fun P hP hs => hheld P (fun v hv => hP v (hnew v hv)) (hs.anti hof), hported⟩

/-- The chains of a resource. -/
abbrev only (r : StateResource) : StateResource → Prop := (· = r)

/-- One chain is written, with held or new values. -/
theorem moves_of_states (added : List Node) (hnext : s.next ≤ s'.next) (hshared : s'.shared = s.shared)
  (hstates : ∀ chain held', s'.states chain = some held' → s.states chain = some held' ∨
   of (plan.resource chain) ∧ ∀ P : Nat → Prop, (∀ v, new v → P v) →
    ∀ of' : StateResource → Prop, of' (plan.resource chain) → Holds plan of' P s →
    ∀ v ∈ held'.written :: held'.reads, P v)
  (hadded : s'.nodes = s.nodes ++ added) (hall : ∀ node ∈ added, Placed plan of new s s' node) :
  Moves plan of new s s' := by
 refine ⟨hnext, fun of' P hP hs => ⟨fun chain held' hheld' hr v hv => ?_, ?_⟩, added, hadded, hall⟩
 · rcases hstates chain held' hheld' with hold | ⟨-, hvals⟩
   · exact hs.states chain held' hold hr v hv
   · exact hvals P hP of' hr hs v hv
 · rw [hshared]
   exact hs.shared

namespace Chains

theorem nameShared_moves (ht : Typed plan s) (h : s.nameShared = .ok s') :
  Moves plan (only .memory) (s.next ≤ ·) s s' := by
 cases hs : s.shared with
 | none =>
  rw [nameShared, hs] at h
  grind [Moves.refl]
 | some shared =>
  obtain ⟨hlt, -, ⟨hnd, -⟩, hall⟩ := ht.shared shared hs
  rw [nameShared_eq hs hnd h]
  refine ⟨Nat.le_add_right _ _, fun of' P hP hs' => ⟨fun chain held' hheld' hr v hv => ?_, ?_⟩,
   [.split shared.published (List.range' s.next shared.chains.length)], by simp [Chains.nodes],
   fun node hn => ?_⟩
  · simp only at hheld'
    cases hl : (shared.chains.zip (List.range' s.next shared.chains.length)).lookup chain with
    | none =>
     rw [hl] at hheld'
     exact hs'.states chain held' hheld' hr v hv
    | some w =>
     rw [hl] at hheld'
     obtain ⟨held, hheld, rfl⟩ := Option.map_eq_some_iff.1 hheld'
     rcases mem_cons.1 hv with rfl | hv
     · exact hP _ (mem_range'_1.1 (lookup_zip_range hl).2).1
     · exact hs'.states chain held hheld hr v (.tail _ hv)
  · rintro - _ ⟨⟩
  · obtain rfl := mem_singleton.1 hn
    refine ⟨fun w hw => ⟨(mem_range'_1.1 hw).1, fun v hv => ?_⟩, fun v hv => ?_,
     fun P hP hs' v hv => ?_, Subset.refl _, Subset.refl _⟩
    · rw [mem_singleton.1 hv]
      exact Nat.lt_of_lt_of_le hlt (mem_range'_1.1 hw).1
    · rw [mem_singleton.1 hv]
      exact Nat.lt_of_lt_of_le hlt (Nat.le_add_right _ _)
    · rw [mem_singleton.1 hv]
      exact hs'.shared rfl shared hs

theorem state_moves {held : ChainState} (ht : Typed plan s) (h : s.state chain = .ok (held, s')) :
  Moves plan (only (plan.resource chain)) (s.next ≤ ·) s s' := by
 rw [state] at h
 obtain ⟨held0, hget0, h⟩ := bind_ok.1 h
 obtain ⟨s₁, h1, h⟩ := bind_ok.1 h
 obtain ⟨held1, -, h⟩ := bind_ok.1 h
 obtain ⟨-, rfl⟩ := Prod.mk.inj (Except.ok.inj h)
 rw [get_ok] at hget0
 rw [nameFor] at h1
 split at h1
 · next hname =>
    refine (nameShared_moves ht h1).mono (fun r hr => ?_) (fun _ hv => hv)
    -- the shared state is memory's, so the chain that names it is one of memory
    have hty := (ht.known chain held0 hget0 _ (.head _)).2
    cases hs : s.shared with
    | none => simp [namesShared, hs] at hname
    | some shared =>
     have hmemo : plan.resource chain = .memory := by
      simpa [namesShared, hs, hty, (ht.shared shared hs).2.1] using hname
     exact Eq.trans hr hmemo.symm
 grind [Moves.refl]

/-- A join of held states. -/
theorem merge_placed {states : List Nat} (hknown : ∀ v ∈ states, v < s.next)
  (hheld : ∀ P : Nat → Prop, (∀ v, new v → P v) → Holds plan of P s → ∀ v ∈ states, P v)
  (hnext : s.next + 1 ≤ s'.next) : Placed plan of new s s' (.join states s.next) := by
 refine ⟨fun w hw => ?_, fun v hv => Nat.lt_trans (hknown v hv) hnext, hheld,
  Subset.refl _, Subset.refl _⟩
 rw [mem_singleton.1 hw]
 exact ⟨Nat.le_refl _, hknown⟩

variable {before : Nat} {chains : List Nat}

theorem closeFork_moves {settled : Nat} (ht : Typed plan s) (hf : Forked nodes s)
  (h : s.closeFork chain before = .ok (settled, s')) :
  Moves plan (only (plan.resource chain)) (s.next ≤ ·) s s' := by
 obtain ⟨held, s₁, s₂, h1, hjoin, rfl⟩ := closeFork_cases ht hf h
 obtain ⟨hext, hheld, -, -, -⟩ := state_ok ht hf h1
 refine (state_moves ht h1).trans ?_
 have hknown := hext.typed.known chain held hheld
 have hvals : ∀ (of' : StateResource → Prop) (P : Nat → Prop), of' (plan.resource chain) →
   Holds plan of' P s₁ → ∀ v ∈ held.written :: held.reads, P v :=
  fun of' P hr hs => hs.states chain held hheld hr
 -- the chain is left with a state it held, or with the join of its reads
 have hput : ∀ (s₂ : Chains) (settled : Nat) (added : List Node), s₁.next ≤ s₂.next →
   s₂.shared = s₁.shared → s₂.states = Function.update s₁.states chain (some ⟨held.written, []⟩) →
   s₂.nodes = s₁.nodes ++ added →
   (∀ node ∈ added, Placed plan (only (plan.resource chain)) (s.next ≤ ·) s₁
    (s₂.put chain ⟨settled, []⟩) node) →
   (settled ∈ held.written :: held.reads ∨ s.next ≤ settled) →
   Moves plan (only (plan.resource chain)) (s.next ≤ ·) s₁ (s₂.put chain ⟨settled, []⟩) := by
  intro s₂ settled added hnext hshared hstates hnodes hall hsettled
  refine moves_of_states added hnext hshared (fun other held' hheld' => ?_) hnodes hall
  by_cases ho : other = chain
  · grind [put_self]
  · refine .inl ?_
    rw [put_of_ne _ _ ho, hstates, Function.update_of_ne ho] at hheld'
    exact hheld'
 rw [joinReads] at hjoin
 rcases hreads : held.reads with _ | ⟨first, _ | ⟨second, rest⟩⟩
 · rw [hreads] at hjoin
   cases hjoin
   exact hput _ _ [] (Nat.le_refl _) rfl rfl (append_nil _).symm (by simp)
    (.inl (.head _))
 · rw [hreads] at hjoin
   cases hjoin
   exact hput _ _ [] (Nat.le_refl _) rfl rfl (append_nil _).symm (by simp)
    (.inl (by simp [hreads]))
 · rw [hreads] at hjoin
   cases hjoin
   refine hput _ _ [.join (first :: second :: rest) s₁.next] (le_succ _) rfl rfl
    (by simp [put, Chains.nodes]) (fun node hn => ?_) (.inr hext.next)
   rw [mem_singleton.1 hn, ← hreads]
   refine merge_placed (fun v hv => (hknown v (.tail _ hv)).1)
    (fun P _ hs v hv => hvals (only _) P rfl hs v (.tail _ hv)) (Nat.le_refl _)

variable (of) in
theorem closeForks_moves {settled : List Nat}
  (hof : ∀ chain ∈ chains, of (plan.resource chain)) (ht : Typed plan s) (hf : Forked nodes s)
  (h : s.closeForks chains before = .ok (settled, s')) : Moves plan of (s.next ≤ ·) s s' := by
 rw [closeForks] at h
 suffices hgen : ∀ closed : List Nat, chains.foldlM (fun closed chain => do
   let closing ← closed.2.closeFork chain before
   return (closed.1 ++ [closing.1], closing.2)) (closed, s) = .ok (settled, s') →
   Moves plan of (s.next ≤ ·) s s' from hgen [] h
 clear h
 induction chains generalizing s with
 | nil =>
  intro closed h
  obtain ⟨-, rfl⟩ := Prod.mk.inj (Except.ok.inj h)
  exact Moves.refl s
 | cons chain chains ih =>
  intro closed h
  rw [foldlM_cons] at h
  obtain ⟨⟨closed1, s₁⟩, h1, h⟩ := bind_ok.1 h
  obtain ⟨⟨settled1, s₂⟩, hclose, h1⟩ := bind_ok.1 h1
  cases h1
  obtain ⟨hext1, -⟩ := closeFork_ok ht hf hclose
  have hmoves1 := closeFork_moves ht hf hclose
  have hmoves := ih (fun c hc => hof c (.tail _ hc)) hext1.typed hext1.forked _ h
  refine (hmoves1.mono (fun r hr => ?_) (fun _ hv => hv)).trans
   (hmoves.mono (fun _ hr => hr) fun v hv => Nat.le_trans hext1.next hv)
  grind

/-- **Settling** takes a held or a new state. -/
theorem settle_moves {resource : StateResource} {observed : Nat}
  (htouched : Touched plan resource chains) (ht : Typed plan s) (hf : Forked nodes s)
  (h : s.settle chains before = .ok (observed, s')) :
  Moves plan (only resource) (s.next ≤ ·) s s' ∧ ∀ P : Nat → Prop, (∀ v, s.next ≤ v → P v) →
   Holds plan (only resource) P s → P observed := by
 rcases settle_cases h with ⟨shared, hs, hsame, heq⟩ | ⟨settled, s₁, hclose, hjoin⟩
 · cases heq
   refine ⟨Moves.refl s, fun P _ hP => hP.shared ?_ shared hs⟩
   obtain ⟨chain, rest, rfl⟩ := exists_cons_of_ne_nil htouched.ne_nil
   obtain ⟨-, -, -, hall⟩ := ht.shared shared hs
   obtain ⟨hsub, -⟩ := subset_of_sameChains htouched.nodup hsame
   have hmemo := (hall chain (hsub (.head _))).1
   rw [htouched.of_resource chain mem_cons_self] at hmemo
   exact hmemo.symm
 · obtain ⟨hext, -, hall, -⟩ := closeForks_ok htouched.nodup ht hf hclose
   have hmoves := closeForks_moves (only resource) htouched.of_resource ht hf hclose
   -- every settled state is held, by the chain it was settled on
   have hsettled : ∀ v ∈ settled, v < s₁.next ∧ ∀ P, Holds plan (only resource) P s₁ → P v := by
    intro v hv
    obtain ⟨i, hi, rfl⟩ := mem_iff_getElem.1 hv
    have hi' : i < chains.length := hall.length_eq ▸ hi
    have hset := (forall₂_iff_get.1 hall).2 i hi' hi
    refine ⟨(hext.typed.known _ _ hset.state _ (.head _)).1, fun P hP => ?_⟩
    exact hP.states _ _ hset.state (htouched.of_resource _ (getElem_mem hi')) _
     mem_cons_self
   rw [joinSettled.eq_def] at hjoin
   split at hjoin
   · cases hjoin
     exact ⟨hmoves, fun P hP hs =>
      (hsettled _ (.head _)).2 P (hmoves.holds _ P hP hs)⟩
   · cases hjoin
     refine ⟨hmoves.trans ?_, fun P hP _ => hP _ hext.next⟩
     refine moves_of_states [.join settled s₁.next] (le_succ _) rfl
      (fun _ _ hst => .inl hst) (by simp [Chains.nodes]) fun node hn => ?_
     grind [merge_placed]

end Chains

/-! ## One effect -/

theorem Holds.put {P : Nat → Prop} {held : ChainState} (h : Holds plan of P s)
  (hvals : of (plan.resource chain) → ∀ v ∈ held.written :: held.reads, P v) :
  Holds plan of P (s.put chain held) := by
 refine ⟨fun other held' hheld' hr v hv => ?_, h.shared⟩
 by_cases ho : other = chain
 · grind [Chains.put_self]
 · rw [Chains.put_of_ne _ _ ho] at hheld'
   exact h.states other held' hheld' hr v hv

variable {effect : ResourceEffect} {id : Nat} {access : ResourceAccess} {resource : StateResource} {touched : List Nat}

/-- The states so far are those before and that of the effect. -/
theorem threadEffect_states {t t' : Threading} (h : threadEffect plan id t effect = .ok t') :
  ∀ state ∈ t'.states, state ∈ t.states ∨ state.1 = effect.resource := by
 cases htouched : plan.touched id effect.resource with
 | none =>
  grind [threadEffect_skip]
 | some touched =>
  grind [threadEffect_cases]

section

variable (htouched : Chains.Touched plan resource touched) (ht : Typed plan s) (hf : Forked nodes s)

include htouched ht hf

/-- What an effect observes is held, or new. -/
theorem observe_moves {observed : Nat} (h : observe s id touched access = .ok (observed, s')) :
  Extends plan nodes nodes s s' ∧ Moves plan (only resource) (s.next ≤ ·) s s' ∧
   observed < s'.next ∧ ∀ P : Nat → Prop, (∀ v, s.next ≤ v → P v) →
    Holds plan (only resource) P s → P observed := by
 cases access with
 | read =>
  obtain ⟨⟨held, s₁⟩, hstate, h⟩ := bind_ok.1 h
  cases h
  obtain ⟨hext, hheld, -⟩ := Chains.state_ok ht hf hstate
  have hmoves := Chains.state_moves ht hstate
  rw [htouched.own.2] at hmoves
  refine ⟨hext, hmoves, (hext.typed.known _ held hheld _ (.head _)).1, ?_⟩
  exact fun P hP hs => (hmoves.holds _ P hP hs).states _ held hheld htouched.own.2 _
   mem_cons_self
 | change =>
  obtain ⟨hext, htaken, -⟩ := Chains.settle_ok htouched ht hf h
  obtain ⟨hmoves, hobserved⟩ := Chains.settle_moves htouched ht hf h
  exact ⟨hext, hmoves, htaken.known.1, hobserved⟩

/-- Leaving a state looks at the chains and then puts the state on them. -/
theorem leaveState_moves {published : Nat} (h : leaveState s id touched published access resource = .ok s') :
  ∃ s₁, Moves plan (only resource) (s.next ≤ ·) s s₁ ∧ s'.nodes = s₁.nodes ∧ s'.next = s₁.next ∧
   (∀ v < s.next, s'.types v = s.types v) ∧ ∀ (of' : StateResource → Prop) (P : Nat → Prop), P published → Holds plan of' P s₁ →
    Holds plan of' P s' := by
 have hput : ∀ (chain : Nat) (held' : ChainState → ChainState), plan.resource chain = resource →
   (∀ held : ChainState, ∀ v ∈ (held' held).written :: (held' held).reads,
    v = published ∨ v ∈ held.written :: held.reads) → (do
    let found ← s.state chain
    return found.2.put chain (held' found.1)) = .ok s' →
   ∃ s₁, Moves plan (only resource) (s.next ≤ ·) s s₁ ∧ s'.nodes = s₁.nodes ∧ s'.next = s₁.next ∧
    (∀ v < s.next, s'.types v = s.types v) ∧ ∀ (of' : StateResource → Prop) (P : Nat → Prop), P published → Holds plan of' P s₁ →
     Holds plan of' P s' := by
  intro chain held' hres hvals h
  obtain ⟨⟨held, s₁⟩, hstate, h⟩ := bind_ok.1 h
  cases h
  obtain ⟨hext, hheld, -⟩ := Chains.state_ok ht hf hstate
  have hmoves := Chains.state_moves ht hstate
  rw [hres] at hmoves
  refine ⟨s₁, hmoves, rfl, rfl, hext.types, fun of' P hP hs => hs.put fun hr v hv => ?_⟩
  rcases hvals held v hv with rfl | hv
  · exact hP
  · exact hs.states chain held hheld hr v hv
 cases access with
 | read =>
  cases resource with
  | memory =>
   refine hput _ (fun held => { held with reads := held.reads ++ [published] })
    htouched.own.2 (fun held v hv => ?_) h
   grind
  | fpEnv =>
   refine hput _ (fun held => { held with written := published }) htouched.own.2
    (fun held v hv => ?_) h
   grind
 | change =>
  rw [leaveState, Chains.split.eq_def] at h
  · split at h
    · next one =>
       refine hput one (fun held => { held with written := published })
        (htouched.of_resource one (.head _)) (fun held v hv => ?_) h
       grind
    · cases h
      refine ⟨s, Moves.refl s, rfl, rfl, fun _ _ => rfl, fun of' P hP hs =>
       ⟨hs.states, fun _ shared hsh => ?_⟩⟩
      grind

end

/-- The published state is produced already, or new; nothing is placed for it. -/
theorem publish_cases {results produced results' : List Nat} {ty : StateResource} {published : Nat}
  (h : publish s results produced ty = (published, results', s')) :
  (published ∈ produced ∨ published = s.next) ∧ s'.nodes = s.nodes := by
 cases produced with
 | nil =>
  obtain ⟨rfl, -, rfl⟩ : _ ∧ _ ∧ _ := by simpa [publish, Chains.fresh] using h
  exact ⟨.inr rfl, rfl⟩
 | cons v rest =>
  obtain ⟨rfl, -, rfl⟩ : _ ∧ _ ∧ _ := by simpa [publish] using h
  exact ⟨.inl (.head _), rfl⟩

/-- **What an effect does to the order**: the state it publishes is observed by nothing yet. -/
structure EffectPlaced (plan : Plan) (t t' : Threading) (effect : ResourceEffect)
  (observed published : Nat) : Prop where
 states : t'.states = t.states ++ [(effect.resource, observed, published)]
 next : t.chains.next ≤ t'.chains.next
 produced : published ∈ effect.produced ∨ t.chains.next ≤ published
 known : published < t'.chains.next ∧ t'.chains.types published = some effect.resource
 taken : observed < t'.chains.next ∧ observed ≠ published
 held : ∀ P : Nat → Prop, (∀ v, t.chains.next ≤ v → P v) →
  Holds plan (only effect.resource) P t.chains → P observed
 holds : ∀ (of' : StateResource → Prop) (P : Nat → Prop), (∀ v, t.chains.next ≤ v → P v) →
  P published → Holds plan of' P t.chains → Holds plan of' P t'.chains
 adds : ∃ added, t'.chains.nodes = t.chains.nodes ++ added ∧ ∀ node ∈ added,
  Placed plan (only effect.resource) (t.chains.next ≤ ·) t.chains t'.chains node ∧
   published ∉ node.observes

theorem threadEffect_placed {t t' : Threading} (htouched : plan.touched id effect.resource = some touched)
  (ht : Typed plan t.chains) (hf : Forked (nodes ++ [t.node id]) t.chains)
  (hprod : ∀ v ∈ effect.produced, v < t.chains.next ∧ t.chains.types v = some effect.resource)
  (hunheld : ∀ v ∈ effect.produced, Holds plan (only effect.resource) (· ≠ v) t.chains)
  (h : threadEffect plan id t effect = .ok t') :
  ∃ observed published, EffectPlaced plan t t' effect observed published := by
 obtain ⟨hexts, -⟩ := threadEffect_ok htouched ht hf hprod h
 have htouched' := plan.touched_ok htouched
 obtain ⟨observed, s₁, published, s₂, hobserve, -, hpublish, hleave, hstates⟩ :=
  threadEffect_cases htouched h
 rw [htouched'.own.2] at hpublish
 obtain ⟨hext1, hmoves1, hlt1, hheld1⟩ := observe_moves htouched' ht hf hobserve
 obtain ⟨hgrown, hlt, hty⟩ := publish_ok (fun v hv => by
  obtain ⟨hlt, hty⟩ := hprod v hv
  exact ⟨Nat.lt_of_lt_of_le hlt hext1.next, (hext1.types v hlt).trans hty⟩) hpublish
 have hext2 := hgrown.extends hext1.typed hext1.forked
 obtain ⟨s3, hmoves3, hnodes3, hnext3, htypes3, hholds3⟩ :=
  leaveState_moves htouched' hext2.typed hext2.forked hleave
 have hsame : ∀ (of' : StateResource → Prop) (P : Nat → Prop), Holds plan of' P s₁ →
   Holds plan of' P s₂ := fun of' P hs => by
  refine ⟨?_, ?_⟩
  · rw [hgrown.states]
    exact hs.states
  · rw [hgrown.shared]
    exact hs.shared
 obtain ⟨hpublished, hnodes2⟩ := publish_cases hpublish
 have hbase2 : t.chains.next ≤ s₂.next := Nat.le_trans hext1.next hgrown.next
 -- what is published is held nowhere before it is left
 have hunheld1 : Holds plan (only effect.resource) (· ≠ published) s₁ := by
  rcases hpublished with hp | rfl
  · refine hmoves1.holds _ _ (fun v hv => ?_) (hunheld published hp)
    grind
  · refine ⟨fun chain held hheld _ v hv => ?_, fun _ shared hs => ?_⟩
    · exact Nat.ne_of_lt (hext1.typed.known chain held hheld v hv).1
    · exact Nat.ne_of_lt (hext1.typed.shared shared hs).1
 obtain ⟨added1, hadded1, hall1⟩ := hmoves1.adds
 obtain ⟨added3, hadded3, hall3⟩ := hmoves3.adds
 refine ⟨observed, published, hstates, hexts.next, ?_, ?_, ⟨?_, ?_⟩, hheld1, ?_, added1 ++ added3,
  ?_, fun node hn => ?_⟩
 · refine hpublished.imp_right fun heq => ?_
   rw [heq]
   exact hext1.next
 · rw [hnext3, htypes3 published hlt]
   exact ⟨Nat.lt_of_lt_of_le hlt hmoves3.next, hty⟩
 · rw [hnext3]
   exact Nat.lt_of_lt_of_le hlt1 (Nat.le_trans hgrown.next hmoves3.next)
 · rcases hpublished with hp | rfl
   · grind
   · exact Nat.ne_of_lt hlt1
 · intro of' P hP hpub hs
   refine hholds3 of' P hpub (hmoves3.holds of' P (fun v hv => hP v (Nat.le_trans hbase2 hv)) ?_)
   exact hsame of' P (hmoves1.holds of' P hP hs)
 · rw [hnodes3, hadded3, hnodes2, hadded1, append_assoc]
 · rcases mem_append.1 hn with hn | hn
   · obtain ⟨hlater, hknown, hheld, hported⟩ := hall1 node hn
     refine ⟨⟨hlater, fun v hv => ?_, hheld, hported⟩, fun hv => ?_⟩
     · rw [hnext3]
       exact Nat.lt_of_lt_of_le (hknown v hv) (Nat.le_trans hgrown.next hmoves3.next)
     grind
   · obtain ⟨hlater, hknown, hheld, hported⟩ := hall3 node hn
     refine ⟨⟨fun w hw => ⟨Nat.le_trans hbase2 (hlater w hw).1, (hlater w hw).2⟩, ?_, ?_, hported⟩,
      ?_⟩
     · rw [hnext3]
       exact hknown
     · intro P hP hs
       refine hheld P (fun v hv => hP v (Nat.le_trans hbase2 hv)) ?_
       exact hsame _ P (hmoves1.holds _ P hP hs)
     grind

end Tir.Restructure
