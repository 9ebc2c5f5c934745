import Tir.Lang.Once

/-!
# Suspending an evaluation does not change it

A rejected operation leaves the continuation as it was, so the next call of `resume` submits the
same operation again. `executeResuming_correct` follows: whatever finite pattern of
rejections a backend shows, an evaluation that is resumed until it ends returns what one
uninterrupted run returns, with the same operations accepted in the same order, each effect
once per evaluation of its context.
-/

open List Nat Bool Option

namespace Tir.Lang

open Tir.Adt Tracked

variable {V F σ : Type} {fl : Floats F} {g : Graph V F} {symbols : List (Value F)} {backend : Backend σ}

/-- A result that is a value or a panic. -/
def Resumed.finished : Resumed F → Bool
 | .returned _ => true
 | .rejected _ => false
 | .panicked => true
 | .unfinished => false

/-- The same result, the same accepted operations and the same memory. -/
def Outcome.Agrees (x y : Outcome F σ) : Prop :=
 x.result = y.result ∧ x.accepted = y.accepted ∧ x.memory = y.memory

/-! ## Enough turns -/

variable {accepted : List MemoryOp} {cont : Continuation F} {go : Unit → Outcome F σ} {memory : σ} {pending : List Bool}
 {reached : Tracked F σ → Prop} {t : Tracked F σ}

theorem settle_finished (h : cont.stack = [] ∨ (go ()).result.finished = true) :
  (settle cont go accepted memory pending).result.finished = true := by
 unfold settle
 split
 · split <;> rfl
 grind

/-- A run that ends within some turns ends the same way with more. -/
theorem resumeLoop_mono {fuel more : Nat} (hle : fuel ≤ more)
  (h : (resumeLoop fl g symbols backend fuel cont accepted memory pending).result ≠ .unfinished) :
  resumeLoop fl g symbols backend more cont accepted memory pending =
   resumeLoop fl g symbols backend fuel cont accepted memory pending := by
 induction fuel generalizing more cont accepted memory pending with
 | zero => exact absurd rfl h
 | succ fuel ih =>
  obtain ⟨more, rfl⟩ : ∃ m, more = m + 1 := ⟨more - 1, by omega⟩
  unfold resumeLoop at h ⊢
  have hsettle : ∀ (after : Continuation F) (accepted' : List MemoryOp) (memory' : σ)
    (pending' : List Bool),
    (settle after (fun _ => resumeLoop fl g symbols backend fuel after accepted' memory'
     pending') accepted' memory' pending').result ≠ .unfinished →
    settle after (fun _ => resumeLoop fl g symbols backend more after accepted' memory'
     pending') accepted' memory' pending' =
    settle after (fun _ => resumeLoop fl g symbols backend fuel after accepted' memory'
     pending') accepted' memory' pending' := by
   intro after accepted' memory' pending' hs
   unfold settle at hs ⊢
   split
   · rfl
   grind
  split
  · rfl
  · grind
  · rename_i op reply hstep
    rw [hstep] at h
    split
    · rfl
    grind

/-- One more turn in front of a run, when nothing is rejected. -/
theorem resumeLoop_succ (fuel : Nat) (x : Continuation F × σ) : (∀ y, turn fl g symbols backend x = some y →
   y.1.stack = [] ∨ ∀ accepted, (resumeLoop fl g symbols backend fuel y.1 accepted y.2 []).result.finished = true) →
  ∀ accepted,
   (resumeLoop fl g symbols backend (fuel + 1) x.1 accepted x.2 []).result.finished = true := by
 intro hy accepted
 unfold resumeLoop
 unfold turn at hy
 split
 · rfl
 · rename_i after hstep
   rw [hstep] at hy
   exact settle_finished ((hy _ rfl).imp id fun h => h accepted)
 · rename_i op reply hstep
   rw [hstep] at hy
   simp only [headD_nil, false_eq_true, if_false]
   split
   · rfl
   · rename_i answer memory' haccept
     simp only [haccept] at hy
     split
     · rfl
     · rename_i after hreply
       simp only [hreply, map_some] at hy
       exact settle_finished ((hy _ rfl).imp id fun h => h _)

/-- A run that gets to an empty stack or to a panic ends within some number of turns. -/
theorem resumeLoop_finishes {x : Continuation F × σ} {o : Option (Continuation F × σ)}
  (hlead : Leads fl g symbols backend x o) (ho : ∀ y, o = some y → y.1.stack = []) (hx : x.1.stack ≠ []) :
  ∃ fuel, ∀ accepted, (resumeLoop fl g symbols backend fuel x.1 accepted x.2 []).result.finished
   = true := by
 -- The last state of the run, empty or stuck.
 obtain ⟨y, hturns, hy⟩ : ∃ y, Turns fl g symbols backend x y ∧
   (y.1.stack = [] ∨ turn fl g symbols backend y = none) := by
  cases o with
  | none =>
   obtain ⟨y, hturns, -, hstuck⟩ := hlead
   exact ⟨y, hturns, .inr hstuck⟩
  | some y => exact ⟨y, hlead, .inl (ho y rfl)⟩
 clear hlead ho
 induction hturns using Relation.ReflTransGen.head_induction_on with
 | refl =>
  have hstuck : turn fl g symbols backend y = none := hy.resolve_left hx
  refine ⟨1, resumeLoop_succ 0 y fun z hz => ?_⟩
  rw [hstuck] at hz
  cases hz
 | @head x z hturn _ ih =>
  by_cases hz : z.1.stack = []
  · refine ⟨1, resumeLoop_succ 0 x fun z' hz' => ?_⟩
    grind
  · obtain ⟨fuel, hfuel⟩ := ih hz
    refine ⟨fuel + 1, resumeLoop_succ fuel x fun z' hz' => ?_⟩
    grind

/-! ## Rejections -/

/-- A call with rejections ends as the uninterrupted run does, or it is suspended in a state from
which the uninterrupted run goes on to the same end. -/
theorem resumeLoop_rejections (fuel : Nat) (pending : List Bool)
  (hfin : (resumeLoop fl g symbols backend fuel cont accepted memory []).result.finished = true) :
  (resumeLoop fl g symbols backend fuel cont accepted memory pending).Agrees
    (resumeLoop fl g symbols backend fuel cont accepted memory []) ∨ ∃ cont' accepted' memory' pending',
    resumeLoop fl g symbols backend fuel cont accepted memory pending =
     ⟨.rejected cont', accepted', memory', pending'⟩ ∧ pending'.length < pending.length ∧ cont'.stack ≠ [] ∧
    resumeLoop fl g symbols backend fuel cont' accepted' memory' [] =
     resumeLoop fl g symbols backend fuel cont accepted memory [] := by
 induction fuel generalizing cont accepted memory pending with
 | zero => cases hfin
 | succ fuel ih =>
  -- The rest of the run after a turn, with one unit of fuel less.
  have hgo : ∀ (after : Continuation F) (accepted' : List MemoryOp) (memory' : σ)
    (rest : List Bool), rest.length ≤ pending.length →
    (settle after (fun _ => resumeLoop fl g symbols backend fuel after accepted' memory' [])
     accepted' memory' []).result.finished = true →
    (settle after (fun _ => resumeLoop fl g symbols backend fuel after accepted' memory' rest)
     accepted' memory' rest).Agrees
     (settle after (fun _ => resumeLoop fl g symbols backend fuel after accepted' memory' [])
      accepted' memory' []) ∨
    ∃ cont' acc' mem' pending',
     settle after (fun _ => resumeLoop fl g symbols backend fuel after accepted' memory' rest)
      accepted' memory' rest = ⟨.rejected cont', acc', mem', pending'⟩ ∧
     pending'.length < pending.length ∧ cont'.stack ≠ [] ∧
     resumeLoop fl g symbols backend (fuel + 1) cont' acc' mem' [] =
      settle after (fun _ => resumeLoop fl g symbols backend fuel after accepted' memory' [])
       accepted' memory' [] := by
   intro after accepted' memory' rest hrest hs
   unfold settle at hs ⊢
   split
   · left
     split <;> exact ⟨rfl, rfl, rfl⟩
   · rename_i hne
     rw [if_neg hne] at hs
     rcases ih rest hs with hagree | ⟨cont', acc', mem', pending', he, hlt, hne', hrun⟩
     · exact .inl hagree
     · refine .inr ⟨cont', acc', mem', pending', he, by omega, hne', ?_⟩
       rw [← hrun]
       apply resumeLoop_mono (le_succ fuel)
       intro hun
       rw [hrun] at hun
       rw [hun] at hs
       cases hs
  unfold resumeLoop at hfin
  unfold resumeLoop
  cases hstep : cont.step fl g symbols with
  | panic => exact .inl ⟨rfl, rfl, rfl⟩
  | next after =>
   rw [hstep] at hfin
   exact hgo after accepted memory pending le_rfl hfin
  | submit op reply =>
   rw [hstep] at hfin
   simp only [headD_nil, false_eq_true, if_false] at hfin ⊢
   by_cases hreject : pending.headD false = true
   · -- Rejected: nothing has changed, and one rejection is used up.
     right
     rw [if_pos hreject]
     refine ⟨cont, accepted, memory, pending.tail, rfl, ?_, ?_, ?_⟩
     · cases pending with
       | nil => cases hreject
       | cons b later => exact lt_succ_self _
     · intro hnil
       unfold Continuation.step at hstep
       grind
     · simp [hstep]
   · rw [if_neg hreject]
     cases haccept : backend.accept op memory with
     | none => exact .inl ⟨rfl, rfl, rfl⟩
     | some r =>
      obtain ⟨answer, memory'⟩ := r
      rw [haccept] at hfin
      simp only at hfin ⊢
      cases hreply : reply answer with
      | none => exact .inl ⟨rfl, rfl, rfl⟩
      | some after =>
       rw [hreply] at hfin
       exact hgo after _ memory' pending.tail (by simp) hfin

/-- Resuming after every rejection ends as the uninterrupted run does. -/
theorem drive_agrees (fuel : Nat) {calls : Nat} (hcalls : pending.length < calls) (hne : cont.stack ≠ [])
  (hfin : (resumeLoop fl g symbols backend fuel cont accepted memory []).result.finished = true) :
  (drive fl g symbols backend fuel calls cont accepted memory pending).Agrees
   (resumeLoop fl g symbols backend fuel cont accepted memory []) := by
 induction calls generalizing cont accepted memory pending with
 | zero => omega
 | succ calls ih =>
  have hresume : resume fl g symbols backend fuel cont accepted memory pending =
    resumeLoop fl g symbols backend fuel cont accepted memory pending := by
   unfold resume settle
   rw [if_neg (by simpa using hne)]
  unfold drive
  simp only [hresume]
  rcases resumeLoop_rejections fuel pending hfin with hagree | hrejected
  · have hfin' := hfin
    rw [← hagree.1] at hfin'
    split
    · rename_i hr
      rw [hr] at hfin'
      cases hfin'
    · exact hagree
  grind

/-! ## The states a resumed evaluation goes through -/

@[simp] theorem Tracked.move_cont (t : Tracked F σ) (after : Continuation F) :
  (t.move after).cont = after := by
  unfold move
  split <;> rfl

@[simp] theorem Tracked.move_memory (t : Tracked F σ) (after : Continuation F) :
  (t.move after).memory = t.memory := by
  unfold move
  split <;> rfl

@[simp] theorem Tracked.move_log (t : Tracked F σ) (after : Continuation F) :
  (t.move after).log = t.log := by
  unfold move
  split <;> rfl

theorem Tracked.entry_op (t : Tracked F σ) (op : MemoryOp) : (t.entry op).op = op := by
 unfold entry
 split <;> rfl

/-- An outcome is that of an observed run: a returned value is the root's in a state with an
empty stack, a rejection suspends the state reached, and the log holds what was accepted. -/
structure Witnessed (reached : Tracked F σ → Prop) (outcome : Outcome F σ) : Prop where
 returned : ∀ v, outcome.result = .returned v → ∃ t, reached t ∧ t.cont.stack = [] ∧
  t.cont.rootValue = some v ∧ t.log.map Accepted.op = outcome.accepted ∧
  t.memory = outcome.memory
 rejected : ∀ cont, outcome.result = .rejected cont → ∃ t, reached t ∧ t.cont = cont ∧
  t.log.map Accepted.op = outcome.accepted ∧ t.memory = outcome.memory

theorem Witnessed.ofFailed {outcome : Outcome F σ} (h : outcome.result = .panicked ∨ outcome.result = .unfinished) :
  Witnessed reached outcome where
 returned := fun v hv => by rcases h with h | h <;> rw [h] at hv <;> cases hv
 rejected := fun cont hc => by rcases h with h | h <;> rw [h] at hc <;> cases hc

theorem settle_witnessed (ht : reached t) (hcont : t.cont = cont)
  (hlog : t.log.map Accepted.op = accepted) (hmemo : t.memory = memory) (hgo : Witnessed reached (go ())) :
  Witnessed reached (settle cont go accepted memory pending) := by
 unfold settle
 split
 · rename_i hempty
   split
   · rename_i v hv
     refine { returned := fun w hw => ?_, rejected := nofun }
     grind
   · exact Witnessed.ofFailed (.inl rfl)
 · exact hgo

theorem resumeLoop_witnessed {start : σ} (fuel : Nat) (pending : List Bool)
  (ht : Reached fl g symbols backend start t) : Witnessed (Reached fl g symbols backend start)
   (resumeLoop fl g symbols backend fuel t.cont (t.log.map Accepted.op) t.memory pending) := by
 induction fuel generalizing t pending with
 | zero => exact Witnessed.ofFailed (.inr rfl)
 | succ fuel ih =>
  unfold resumeLoop
  split
  · exact Witnessed.ofFailed (.inl rfl)
  · rename_i after hstep
    have hnext := Reached.next ht hstep
    grind [Tracked.move_cont, Tracked.move_log, Tracked.move_memory, settle_witnessed]
  · rename_i op reply hstep
    split
    · refine { returned := nofun, rejected := fun cont hc => ?_ }
      grind
    · split
      · exact Witnessed.ofFailed (.inl rfl)
      · rename_i answer memory' haccept
        split
        · exact Witnessed.ofFailed (.inl rfl)
        · rename_i after hreply
          have hnext := Reached.accepted ht hstep haccept hreply
          have hrun := ih pending.tail hnext
          simp only [Tracked.move_cont, map_append, map_cons, map_nil,
           Tracked.entry_op] at hrun
          exact settle_witnessed hnext (by simp) (by simp [Tracked.entry_op]) rfl hrun

theorem drive_witnessed {start : σ} (fuel calls : Nat) (pending : List Bool)
  (ht : Reached fl g symbols backend start t) : Witnessed (Reached fl g symbols backend start)
   (drive fl g symbols backend fuel calls t.cont (t.log.map Accepted.op) t.memory pending) := by
 induction calls generalizing t pending with
 | zero => exact Witnessed.ofFailed (.inr rfl)
 | succ calls ih =>
  have hcall : Witnessed (Reached fl g symbols backend start)
    (resume fl g symbols backend fuel t.cont (t.log.map Accepted.op) t.memory pending) :=
   settle_witnessed ht rfl rfl rfl (resumeLoop_witnessed fuel pending ht)
  unfold drive
  simp only
  split
  · rename_i after hr
    obtain ⟨t', ht', hcont, hlog, hmemo⟩ := hcall.rejected after hr
    grind
  · exact hcall

/-! ## The theorem -/

/-- For every graph, symbol binding and backend, and with enough turns for the uninterrupted run:
that run ends, and with any finite pattern of rejections the resumed evaluation ends with the same
value or panic, the same operations accepted in the same order and the same memory. The
evaluation goes through states of `Reached`, and in each of these every effect has been
accepted exactly once per context it was evaluated in. -/
theorem executeResuming_correct (fl : Floats F) (g : Graph V F) (symbols : List (Value F))
  (backend : Backend σ) (memory : σ) : (∃ turns, ∀ fuel, turns ≤ fuel →
   (executeWithMemory fl g symbols backend fuel memory).result.finished = true ∧
   (executeWithMemory fl g symbols backend fuel memory).Agrees (executeWithMemory fl g symbols backend turns memory) ∧
   ∀ rejections : List Bool, (executeResuming fl g symbols backend fuel memory rejections).Agrees
     (executeWithMemory fl g symbols backend fuel memory) ∧ Witnessed (Reached fl g symbols backend memory)
     (executeResuming fl g symbols backend fuel memory rejections)) ∧
  ∀ t, Reached fl g symbols backend memory t → ExactlyOnce fl g t := by
 refine ⟨?_, fun t ht => ht.exactlyOnce⟩
 unfold executeWithMemory executeResuming
 cases hnew : Continuation.new g with
 | none => exact ⟨0, fun fuel _ => ⟨rfl, ⟨rfl, rfl, rfl⟩, fun rejections =>
  ⟨⟨rfl, rfl, rfl⟩, Witnessed.ofFailed (.inl rfl)⟩⟩⟩
 | some cont =>
  have hne : cont.stack ≠ [] := by
   unfold Continuation.new at hnew
   rw [map_eq_some_iff] at hnew
   obtain ⟨root, -, rfl⟩ := hnew
   simp
  obtain ⟨o, hlead, ho⟩ :
    ∃ o, Leads fl g symbols backend (cont, memory) o ∧
     ∀ y, o = some y → y.1.stack = [] ∧ (y.1.rootValue).isSome := leads_new hnew memory
  obtain ⟨turns, hturns⟩ := resumeLoop_finishes hlead (fun y hy => (ho y hy).1) hne
  have hresume : ∀ fuel, resume fl g symbols backend fuel cont [] memory [] =
    resumeLoop fl g symbols backend fuel cont [] memory [] := by
   intro fuel
   unfold resume settle
   rw [if_neg (by simpa using hne)]
  refine ⟨turns, fun fuel hle => ?_⟩
  have hmono : resumeLoop fl g symbols backend fuel cont [] memory [] =
    resumeLoop fl g symbols backend turns cont [] memory [] := by
   apply resumeLoop_mono hle
   intro hun
   have := hturns []
   rw [hun] at this
   cases this
  have hfin : (resumeLoop fl g symbols backend fuel cont [] memory []).result.finished = true := by
   rw [hmono]
   exact hturns []
  simp only [hresume]
  refine ⟨hfin, hmono ▸ ⟨rfl, rfl, rfl⟩, fun rejections => ⟨?_, ?_⟩⟩
  · exact drive_agrees fuel (lt_succ_self _) hne hfin
  · exact drive_witnessed fuel _ rejections (Reached.start hnew)

end Tir.Lang
