import Tir.Sat.Backtrack

/-!
# The search

One turn of the search either ends it with a right verdict, or keeps the invariant and comes closer
to the end (`turn_spec`). What falls is `remaining`: a conflict adds a clause the solver did not
have or settles one more variable, and a decision makes the trail longer.
-/

open List Option Nat

namespace Tir.Sat

open VarOrder Solver

namespace Solver

variable {A : Type} {r : Ranking A} {F : List Clause} {s t : Solver A}

/-! ## Branching -/

/-- The queue may be exchanged for one that holds every unassigned variable. -/
theorem Core.withOrder (h : Core F s) {o : VarOrder A} (hslots : o.Slots)
  (hqueued : ∀ v, v < s.numVars → s.assign v = none → v ∈ o.order)
  (hlt : ∀ v ∈ o.order, v < s.numVars) : Core F { s with vsids := o } :=
 { h with slots := hslots, queued := hqueued, queued_lt := hlt }

/-- What picking a branch variable comes to. -/
def AfterPick (s t : Solver A) : Option Lit → Prop
 | none => ∀ v, v < s.numVars → s.assign v ≠ none
 | some l => l.var < s.numVars ∧ s.assign l.var = none ∧ t.vsids.Slots ∧
   (∀ v ∈ t.vsids.order, v < s.numVars) ∧
   ∀ v, v < s.numVars → s.assign v = none → v ≠ l.var → v ∈ t.vsids.order

theorem pickLoop_spec (fuel : Nat) : ∀ s : Solver A, Core F s → s.vsids.order.length ≤ fuel →
  (s.pickLoop r fuel).1 = { s with vsids := (s.pickLoop r fuel).1.vsids } ∧
   AfterPick s (s.pickLoop r fuel).1 (s.pickLoop r fuel).2 := by
 induction fuel with
 | zero =>
  intro s h hfuel
  refine ⟨rfl, fun v hv hasgn => ?_⟩
  have hmem := h.queued v hv hasgn
  grind
 | succ fuel ih =>
  intro s h hfuel
  simp only [pickLoop]
  cases horder : s.vsids.order with
  | nil =>
   refine ⟨rfl, fun v hv hasgn => ?_⟩
   have hmem := h.queued v hv hasgn
   grind
  | cons top rest =>
   obtain ⟨hslots, hlen, hmem⟩ := unqueueTop_spec (r := r) h.slots horder
   have hin : ∀ v, v ∈ s.vsids.order ↔ v = top ∨ v ∈ rest := by
    grind
   have hlt : ∀ v ∈ (unqueueTop r s.vsids top).order, v < s.numVars := fun v hv =>
    h.queued_lt v ((hin v).2 (.inr ((hmem v).1 hv)))
   have hqueued : ∀ v, v < s.numVars → s.assign v = none → v ≠ top →
     v ∈ (unqueueTop r s.vsids top).order := fun v hv hasgn hne =>
    (hmem v).2 (((hin v).1 (h.queued v hv hasgn)).resolve_left hne)
   dsimp only
   split
   · rename_i hasgn
     exact ⟨rfl, h.queued_lt top ((hin top).2 (.inl rfl)), hasgn, hslots, hlt, hqueued⟩
   · rename_i hasgn
     -- the variable is assigned already: the next one
     have hcore := h.withOrder hslots
      (fun v hv hv' => hqueued v hv hv' fun heq => hasgn (heq ▸ hv')) hlt
     have hrec := ih _ hcore (by
      grind)
     exact ⟨hrec.1, hrec.2⟩

/-! ## Decisions -/

variable {n : Nat} {l : Lit}

/-- Opening a level when all literals are propagated. -/
theorem Inv.openLevel (h : Inv F n s) (hn : n = s.trail.length) : Inv F n s.openLevel where
 core := h.core.openLevel
 bound := h.bound
 lim_le := by
  intro t ht
  rcases mem_append.1 ht with ht | ht
  · exact h.lim_le t ht
  · rw [mem_singleton.1 ht, hn]
 mem_watches := h.mem_watches
 watches_nodup := h.watches_nodup
 watched := h.watched

/-- Deciding on an unassigned literal. -/
theorem decide_spec (h : Inv F s.qhead s) (hq : s.qhead = s.trail.length)
  (ht : t = { s with vsids := t.vsids }) (hpick : AfterPick s t (some l)) :
  (t.openLevel.enqueue l none).1 = t.openLevel.push l none ∧
   Inv F s.qhead (t.openLevel.push l none) := by
 obtain ⟨hlt, hasgn, hslots, hlt', hqueued⟩ := hpick
 have hfresh : ∀ k ∈ s.trail, k.var ≠ l.var := (h.core.assign_none l.var).1 hasgn
 have hpush : Pushable F s.openLevel l none :=
  { var_lt := hlt
    fresh := hfresh
    forced := fun c hc => by cases hc
    decided := fun _ => .inl (mem_append_right _ (mem_singleton_self _))
    entailed := fun hzero => by
     rw [decisionLevel, openLevel, length_append, length_singleton] at hzero
     omega }
 have hopen := h.openLevel hq
 have hinv := hopen.push hpush
 rw [ht]
 constructor
 · have hnone : ({ s with vsids := t.vsids } : Solver A).openLevel.valueLit l = none :=
    (hopen.core.value_none l).2 ⟨fun hl => hfresh l hl rfl, fun hl => hfresh l.negate hl rfl⟩
   rw [enqueue, hnone]
 · -- only the queue differs from the solver before the pick
   have hcore : Core F ({ s.openLevel.push l none with vsids := t.vsids } : Solver A) :=
    hinv.core.withOrder hslots
     (fun v hv hv' => by
      have hne : v ≠ l.var := by
       rintro rfl
       simp [push] at hv'
      refine hqueued v hv ?_ hne
      simpa [push, hne, openLevel] using hv')
     hlt'
   exact ⟨hcore, hinv.bound, hinv.lim_le, hinv.mem_watches, hinv.watches_nodup, hinv.watched⟩

/-! ## Models -/

def assignmentOf (model : List Bool) (v : Nat) : Bool := model.getD v false

theorem Core.eval_model (h : Core F s) (hl : l ∈ s.trail) :
  l.eval (assignmentOf s.model) = true := by
 have hasgn := (h.assigned l).2 hl
 have hlt := h.trail_lt l hl
 have hval : assignmentOf s.model l.var = !l.negated := by
  simp [assignmentOf, model, hlt, hasgn]
 rw [Lit.eval, hval]
 cases l.negated <;> rfl

/-- When every variable is assigned and every literal propagated, the model satisfies the added
clauses. -/
theorem Inv.model (h : Inv F s.trail.length s) (hall : ∀ v, v < s.numVars → s.assign v ≠ none) :
  Models (assignmentOf s.model) F := by
 have htotal : ∀ l : Lit, l.var < s.numVars → l ∈ s.trail ∨ l.negate ∈ s.trail := by
  intro l hl
  by_contra hnot
  have hnone := (h.core.value_none l).2 (not_or.1 hnot)
  simp only [valueLit, map_eq_none_iff] at hnone
  exact hall l.var hl hnone
 intro c hc
 rcases h.core.covered c hc with ⟨l, hl, hneg⟩ | ⟨l, hl, htrail, -⟩ | ⟨d, hd, hsub⟩
 · cases heval : l.eval (assignmentOf s.model) with
   | true => exact ⟨l, hl, heval⟩
   | false => exact ⟨l.negate, hneg, by rw [Lit.eval_negate, heval]; rfl⟩
 · exact ⟨l, hl, h.core.eval_model htrail⟩
 · obtain ⟨cref, hcref⟩ := getElem?_of_mem hd
   have htwo := h.core.clause_two d hd
   rcases d with _ | ⟨a, _ | ⟨b, rest⟩⟩
   · simp at htwo
   · simp at htwo
   · have hw := h.watched cref a b rest hcref
     rw [take_length] at hw
     rcases htotal a (h.core.clause_lt _ hd a (.head _)) with ha | ha
     · exact ⟨a, hsub a (.head _), h.core.eval_model ha⟩
     · exact ⟨b, hsub b (by simp), h.core.eval_model (hw.1 ha).1⟩

/-! ## What is left to do -/

/-- The number of literals of level 0. -/
def base (s : Solver A) : Nat := s.trailLim.head?.getD s.trail.length

/-- The clauses and settled literals found so far. -/
def found (s : Solver A) : Nat := (clauseSets s.clauses).card + s.base

/-- A bound on the turns left: what may still be found, and the variables still to be assigned. -/
def remaining (s : Solver A) : Nat :=
 (2 ^ (2 * s.numVars) + s.numVars - s.found) * (s.numVars + 1) + (s.numVars - s.trail.length)

theorem Core.base_le (h : Core F s) : s.base ≤ s.trail.length := by
 unfold base
 cases hlim : s.trailLim with
 | nil => exact le_rfl
 | cons t lims => exact h.lim_le t (by simp [hlim])

theorem Core.found_le (h : Core F s) : s.found ≤ 2 ^ (2 * s.numVars) + s.numVars :=
 Nat.add_le_add (card_clauseSets_le h.clause_lt) (h.base_le.trans h.trail_length_le)

/-- Finding something outweighs any change of the trail. -/
theorem remaining_lt_of_found (ht : Core F t) (hvars : t.numVars = s.numVars)
  (hfound : s.found < t.found) : t.remaining < s.remaining := by
 have hbound := ht.found_le
 rw [hvars] at hbound
 unfold remaining
 rw [hvars]
 generalize 2 ^ (2 * s.numVars) + s.numVars = top at hbound ⊢
 have hstep : top - t.found + 1 ≤ top - s.found := by omega
 calc (top - t.found) * (s.numVars + 1) + (s.numVars - t.trail.length)
   < (top - t.found) * (s.numVars + 1) + (s.numVars + 1) := by omega
  _ = (top - t.found + 1) * (s.numVars + 1) := by rw [add_mul, one_mul]
  _ ≤ (top - s.found) * (s.numVars + 1) := Nat.mul_le_mul_right _ hstep
  _ ≤ (top - s.found) * (s.numVars + 1) + (s.numVars - s.trail.length) := Nat.le_add_right _ _

/-- Otherwise a longer trail is progress. -/
theorem remaining_lt_of_trail (ht : Core F t) (hvars : t.numVars = s.numVars)
  (hfound : s.found ≤ t.found) (htrail : s.trail.length < t.trail.length) :
  t.remaining < s.remaining := by
 have hle := ht.trail_length_le
 rw [hvars] at hle
 unfold remaining
 rw [hvars]
 generalize 2 ^ (2 * s.numVars) + s.numVars = top
 have hmul := Nat.mul_le_mul_right (s.numVars + 1)
  (show top - t.found ≤ top - s.found by omega)
 omega

theorem Extends.found_le (h : Extends s t) : s.found ≤ t.found := by
 unfold found base
 rw [h.sets, h.trailLim]
 cases s.trailLim with
 | nil => exact Nat.add_le_add_left h.trail.length_le _
 | cons u lims => exact le_rfl

theorem Jumped.found_eq {d m : Nat} (h : Jumped s t d m) (hd : s.trailLim[d]? = some m)
  (hm : m ≤ s.trail.length) : t.found = s.found := by
 unfold found base
 rw [h.clauses, h.trailLim, h.trail]
 cases d with
 | zero =>
  have hhead : s.trailLim.head? = some m := by rw [head?_eq_getElem?, hd]
  simp [hhead, min_eq_left hm]
 | succ d =>
  cases hlim : s.trailLim with
  | nil =>
   rw [hlim] at hd
   cases hd
  | cons u lims => rfl

theorem Forcing.found_lt {lower : List Lit} (h : Forcing F s l lower)
  (hinv : Inv F s.trail.length s) : s.found < (s.learned l lower).found := by
 cases lower with
 | nil =>
  have hnil : s.trailLim = [] := length_eq_zero_iff.1 (h.unit rfl)
  simp [found, base, learned, push, hnil]
 | cons q rest =>
  have hcard := card_clauseSets_append (h.new hinv)
  have hbase : s.base ≤ (s.learned l (q :: rest)).base := by
   unfold base
   cases hlim : s.trailLim with
   | nil => simp [learned, push, addWatched, hlim]
   | cons u lims => simp [learned, push, addWatched, hlim]
  show (clauseSets s.clauses).card + s.base <
   (clauseSets (s.clauses ++ [l :: q :: rest])).card + (s.learned l (q :: rest)).base
  omega

theorem push_openLevel_found (s : Solver A) (l : Lit) :
  s.found ≤ (s.openLevel.push l none).found := by
 unfold found base
 cases hlim : s.trailLim with
 | nil => simp [push, openLevel, hlim]
 | cons u lims => simp [push, openLevel, hlim]

/-! ## Restarts -/

theorem lubySize_spec (fuel : Nat) : ∀ x size seq, size + 1 = 2 ^ (seq + 1) → x < size + fuel →
  (lubySize fuel x size seq).1 + 1 = 2 ^ ((lubySize fuel x size seq).2 + 1) ∧
   x < (lubySize fuel x size seq).1 := by
 induction fuel with
 | zero => exact fun x size seq hsize hx => ⟨hsize, hx⟩
 | succ fuel ih =>
  intro x size seq hsize hx
  simp only [lubySize]
  split
  · apply ih
    · grind
    · omega
  · exact ⟨hsize, by omega⟩

theorem lubyDescend_isSome (seq : Nat) : ∀ size x, size + 1 = 2 ^ (seq + 1) → x < size →
  (lubyDescend seq size x).isSome := by
 induction seq with
 | zero =>
  intro size x hsize hx
  have hone : size = 1 := by omega
  subst hone
  simp [lubyDescend, show x = 0 by omega]
 | succ seq ih =>
  intro size x hsize hx
  simp only [lubyDescend]
  split
  · rfl
  · have hpow : 2 ^ (seq + 1 + 1) = 2 ^ (seq + 1) + 2 ^ (seq + 1) := by
     rw [pow_succ, Nat.mul_two]
    have hhalf : (size - 1) / 2 + 1 = 2 ^ (seq + 1) := by omega
    exact ih _ _ hhalf (mod_lt _ (by omega))

/-- `luby` never fails. -/
theorem luby_isSome (x : Nat) : ∃ step, luby x = some step := by
 obtain ⟨hsize, hx⟩ := lubySize_spec (x + 1) x 1 0 rfl (by omega)
 exact isSome_iff_exists.1 (lubyDescend_isSome _ _ _ hsize hx)

/-- Restarting, or not, keeps the invariant and what was found. -/
theorem restart_spec (h : Inv F s.qhead s) (conflicts restartNo limit : Nat) :
  ∃ x, restart r s conflicts restartNo limit = some x ∧ Inv F x.solver.qhead x.solver ∧
   x.solver.numVars = s.numVars ∧ x.solver.found = s.found := by
 unfold restart
 split
 · obtain ⟨step, hstep⟩ := luby_isSome (restartNo + 1)
   cases hlim : s.trailLim[0]? with
   | none => exact ⟨_, by simp only [hstep, cancelUntil, hlim]; rfl, h, rfl, rfl⟩
   | some m =>
    obtain ⟨t, hcancel, hinv, hjump⟩ := cancelUntil_spec (r := r) h hlim
    refine ⟨_, by simp only [hstep, hcancel]; rfl, hinv, hjump.numVars, ?_⟩
    exact hjump.found_eq hlim (h.core.lim_le m (mem_of_getElem? hlim))
 · exact ⟨_, rfl, h, rfl, rfl⟩

/-! ## Turns -/

/-- A right verdict on the added clauses. -/
def Right (F : List Clause) (budget : Option Nat) : SatResult → Prop
 | .sat model => Models (assignmentOf model) F
 | .unsat => ∀ σ, ¬ Models σ F
 | .unknown => budget ≠ none

/-- What a turn from the solver `s` comes to: a right verdict, or less left to do. -/
def AfterTurn (F : List Clause) (budget : Option Nat) (s : Solver A) : Turn A → Prop
 | .done _ result => Right F budget result
 | .again x => Inv F x.solver.qhead x.solver ∧ x.solver.numVars = s.numVars ∧
   x.solver.remaining < s.remaining

/-- A conflict at level 0 refutes the added clauses. -/
theorem Conflicting.refute {cref : Nat} (h : Conflicting s cref) (hinv : Inv F n s)
  (hzero : s.decisionLevel = 0) (σ : Nat → Bool) : ¬ Models σ F := by
 obtain ⟨c, hc, hfalse, -⟩ := h
 refine (hinv.core.clause_entailed c (mem_of_getElem? hc)).refute (fun q hq => ?_) σ
 obtain ⟨i, hi⟩ := getElem?_of_mem (hfalse q hq)
 refine hinv.core.settled _ (hfalse q hq) ?_
 rw [hinv.core.level_eq i _ hi]
 exact le_zero.1 ((s.levelAt_le i).trans hzero.le)

theorem Inv.analyzed (h : Inv F n s) (ht : Analyzed s t) : Inv F n t := by
 have hcore := h.core.analyzed ht
 obtain ⟨hsame, -, -⟩ := ht
 rw [hsame] at hcore ⊢
 exact ⟨hcore, h.bound, h.lim_le, h.mem_watches, h.watches_nodup, h.watched⟩

/-- The turn after a conflict never fails. -/
theorem onConflict_spec {cref : Nat} (h : Inv F n s) (hconflict : Conflicting s cref)
  (budget : Option Nat) (x : Search A) :
  ∃ y, s.onConflict r budget x cref = some y ∧ AfterTurn F budget s y := by
 unfold onConflict
 by_cases hzero : s.decisionLevel = 0
 · exact ⟨.done { s with unsat := true } .unsat, by simp [if_pos hzero],
    hconflict.refute h hzero⟩
 · obtain ⟨t, l, lower, bt, hanalyze, ht, hassert⟩ :=
    analyze_spec (r := r) h.core (Nat.pos_of_ne_zero hzero) hconflict
   have hinv := h.analyzed ht
   have hlim : t.trailLim = s.trailLim := by rw [ht.same]
   obtain ⟨m, hm⟩ : ∃ m, s.trailLim[bt]? = some m :=
    ⟨_, getElem?_eq_getElem hassert.bt_lt⟩
   obtain ⟨u, hcancel, hinvu, hjump⟩ := cancelUntil_spec (r := r) hinv (by rw [hlim]; exact hm)
   have hjump' : Jumped s u bt m := by
    refine ⟨hjump.numVars.trans ?_, hjump.clauses.trans ?_, hjump.level.trans ?_,
     hjump.trail.trans ?_, hjump.trailLim.trans ?_, hjump.qhead⟩
    all_goals rw [ht.same]
   have hforce := hassert.forcing h.core hm hjump'
   obtain ⟨hlearn, hinv'⟩ := learn_spec hforce hinvu
   have hfound : s.found < (u.learned l lower).found := by
    have hlt := hforce.found_lt (hjump.qhead ▸ hinvu)
    rwa [hjump'.found_eq hm (h.core.lim_le m (mem_of_getElem? hm))] at hlt
   have hvars : (u.learned l lower).numVars = s.numVars := by
    rw [← hjump'.numVars]
    cases lower <;> rfl
   simp only [if_neg hzero, hanalyze, hcancel, bind_some, hlearn]
   -- decaying the activities leaves the solver as it is
   generalize hv : ({ u.learned l lower with
    vsids := decay r (u.learned l lower).vsids } : Solver A) = v
   have hdecay : Inv F v.qhead v := by
    subst hv
    have hq : (u.learned l lower).qhead = u.qhead := by cases lower <;> rfl
    show Inv F (u.learned l lower).qhead _
    rw [hq]
    exact ⟨hinv'.core.withOrder hinv'.core.slots hinv'.core.queued hinv'.core.queued_lt,
     hinv'.bound, hinv'.lim_le, hinv'.mem_watches, hinv'.watches_nodup, hinv'.watched⟩
   have hvarsv : v.numVars = s.numVars := by rw [← hv]; exact hvars
   have hfoundv : s.found < v.found := by rw [← hv]; exact hfound
   split
   · rename_i hbudget
     refine ⟨_, rfl, ?_⟩
     rintro rfl
     simp at hbudget
   · obtain ⟨y, hrestart, hinvy, hvarsy, hfoundy⟩ := restart_spec (r := r) hdecay
      (x.conflicts + 1) x.restartNo x.limit
     refine ⟨.again y, by simp [hrestart], hinvy, hvarsy.trans hvarsv, ?_⟩
     exact remaining_lt_of_found hinvy.core (hvarsy.trans hvarsv) (by rw [hfoundy]; exact hfoundv)

/-- The turn without a conflict: a model, or a decision. -/
theorem onQuiet_spec (h : Inv F s.qhead s) (hq : s.qhead = s.trail.length) (budget : Option Nat)
  (x : Search A) : AfterTurn F budget s (s.onQuiet r x) := by
 obtain ⟨hsame, hafter⟩ := pickLoop_spec (r := r) s.vsids.order.length s h.core le_rfl
 unfold onQuiet pickBranch
 generalize hpick : s.pickLoop r s.vsids.order.length = picked at hsame hafter
 obtain ⟨t, choice⟩ := picked
 simp only at hsame hafter
 cases choice with
 | none =>
  have hmodel : t.model = s.model := by rw [hsame]; rfl
  show Models (assignmentOf t.model) F
  rw [hmodel]
  exact (hq ▸ h).model hafter
 | some l =>
  obtain ⟨hpush, hinv⟩ := decide_spec h hq hsame hafter
  show Inv F (t.openLevel.enqueue l none).1.qhead (t.openLevel.enqueue l none).1 ∧
   (t.openLevel.enqueue l none).1.numVars = s.numVars ∧
   (t.openLevel.enqueue l none).1.remaining < s.remaining
  rw [hpush]
  have htq : t.qhead = s.qhead := by rw [hsame]
  have hvars : t.numVars = s.numVars := by rw [hsame]
  have hfound : s.found ≤ (t.openLevel.push l none).found := by
   have hts : t.found = s.found := by rw [hsame]; rfl
   rw [← hts]
   exact push_openLevel_found t l
  refine ⟨?_, hvars, remaining_lt_of_trail hinv.core hvars hfound ?_⟩
  · show Inv F t.qhead (t.openLevel.push l none)
    rw [htq]
    exact hinv
  · show s.trail.length < (t.trail ++ [l]).length
    grind

/-- A turn never fails. -/
theorem turn_spec (budget : Option Nat) (x : Search A) (h : Inv F x.solver.qhead x.solver) :
  ∃ y, turn r budget x = some y ∧ AfterTurn F budget x.solver y := by
 obtain ⟨s, conflict, hpropagate, hext, hafter⟩ := propagate_spec h
 have hclose : ∀ y : Turn A, AfterTurn F budget s y → AfterTurn F budget x.solver y := by
  intro y hy
  cases y with
  | done t result => exact hy
  | again z =>
   obtain ⟨hinv, hvars, hless⟩ := hy
   refine ⟨hinv, hvars.trans hext.numVars, hless.trans_le ?_⟩
   unfold remaining
   rw [hext.numVars]
   have hmul := Nat.mul_le_mul_right (x.solver.numVars + 1)
    (Nat.sub_le_sub_left hext.found_le (2 ^ (2 * x.solver.numVars) + x.solver.numVars))
   have htrail := hext.trail.length_le
   omega
 unfold turn
 cases conflict with
 | none =>
  refine ⟨s.onQuiet r x, by simp [hpropagate], hclose _ ?_⟩
  exact onQuiet_spec hafter.1 hafter.2 budget x
 | some cref =>
  obtain ⟨⟨n, hinv⟩, hconflict⟩ := hafter
  obtain ⟨y, hy, hturn⟩ := onConflict_spec (r := r) hinv hconflict budget x
  exact ⟨y, by simp [hpropagate, hy], hclose y hturn⟩

/-- The search ends with a right verdict as soon as it has more turns than are left to do. -/
theorem searchLoop_spec (budget : Option Nat) (fuel : Nat) : ∀ x : Search A,
  Inv F x.solver.qhead x.solver → x.solver.remaining < fuel →
  ∃ s result, searchLoop r budget fuel x = some (s, result) ∧ Right F budget result := by
 induction fuel with
 | zero => nofun
 | succ fuel ih =>
  intro x h hfuel
  obtain ⟨y, hturn, hafter⟩ := turn_spec (r := r) budget x h
  cases y with
  | done s result => exact ⟨s, result, by simp [searchLoop, hturn], hafter⟩
  | again z =>
   obtain ⟨hinv, -, hless⟩ := hafter
   obtain ⟨s, result, hloop, hright⟩ := ih z hinv (by omega)
   exact ⟨s, result, by simp [searchLoop, hturn, hloop], hright⟩

/-- The turns of `solveWithBudget` are enough. -/
theorem remaining_lt_turns (s : Solver A) : s.remaining < turns s.numVars := by
 unfold remaining turns
 have hmul := Nat.mul_le_mul_right (s.numVars + 1)
  (sub_le (2 ^ (2 * s.numVars) + s.numVars) s.found)
 grind

end Solver

end Tir.Sat
