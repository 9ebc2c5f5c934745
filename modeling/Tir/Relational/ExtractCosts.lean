import Tir.Basic.Returns
import Tir.Relational.Extract

/-!
# The costs of an extraction

The loop ends at costs that no member improves, and what every improvement preserves holds of them
(`Extract.Table.costs_returns`). The members chosen are those that spell their ids at these costs
(`Extract.Table.chosen_some`).
-/

open List Option Function Nat

namespace Tir.Relational.Extract.Table

open Returns

variable {t : Extract.Table}

/-- No member `e` improves its id's cost. -/
def Settled (cost : Nat → Option Cost) (e : Entry) : Prop :=
 ∀ total, costOf e cost = some total → ∃ best, cost e.slot = some best ∧ best ≤ total

variable {position slot : Nat} {best : Option Cost} {cost : Nat → Option Cost} {e : Entry} {s : Sweep} {total : Cost}

theorem mem_parents :
  position ∈ t.parents slot ↔ ∃ e, t.entries[position]? = some e ∧ slot ∈ e.children := by
 simp only [parents, mem_flatMap, List.mem_map, mem_filter, decide_eq_true_eq,
  Prod.exists, mem_zipIdx_iff_getElem?]
 constructor
 · grind
 grind

/-- A cost that is no child of the members does not enter their sum. -/
theorem foldlM_addChild_update (children : List Nat) (total : Cost) (h : slot ∉ children) :
  children.foldlM (addChild (update cost slot best)) total
   = children.foldlM (addChild cost) total := by
 induction children generalizing total with
 | nil => rfl
 | cons child children ih =>
  rw [mem_cons, not_or] at h
  rw [foldlM_cons, foldlM_cons]
  have hchild : addChild (update cost slot best) total child = addChild cost total child := by
   rw [addChild, addChild, update_of_ne (Ne.symm h.1)]
  grind

theorem costOf_update
  (h : slot ∉ e.children) : costOf e (update cost slot best) = costOf e cost := by
 rw [costOf, costOf, foldlM_addChild_update e.children e.base h]

/-! ### Marks -/

/-- Marking more members keeps the costs and every mark. -/
structure Marked (s s' : Sweep) : Prop where
 cost : s'.cost = s.cost
 dirty : ∀ i, s.dirty i = true → s'.dirty i = true
 next : ∀ i, s.next i = true → s'.next i = true
 queued : s.queued ≤ s'.queued

namespace Marked

theorem refl (s : Sweep) : Marked s s :=
 ⟨rfl, fun _ h => h, fun _ h => h, le_rfl⟩

theorem trans {s1 s2 s3 : Sweep} (h : Marked s1 s2) (h' : Marked s2 s3) : Marked s1 s3 :=
 ⟨h'.cost.trans h.cost, fun i hi => h'.dirty i (h.dirty i hi), fun i hi => h'.next i (h.next i hi),
  h.queued.trans h'.queued⟩

end Marked

/-- Where nothing is queued, nothing waits for the next sweep. -/
def Counted (s : Sweep) : Prop :=
 s.queued = 0 → ∀ i, s.next i = false

theorem mark_marked (position : Nat) (s : Sweep) (parent : Nat) : Marked s (mark position s parent) := by
 rw [mark]
 split
 · refine ⟨rfl, fun i hi => ?_, fun _ h => h, le_rfl⟩
   rcases eq_or_ne i parent with rfl | hne
   · exact update_self i true s.dirty
   · exact (update_of_ne hne _ _).trans hi
 · split
   · exact Marked.refl s
   · refine ⟨rfl, fun _ h => h, fun i hi => ?_, le_succ _⟩
     rcases eq_or_ne i parent with rfl | hne
     · exact update_self i true s.next
     · exact (update_of_ne hne _ _).trans hi

/-- The member marked is looked at again: ahead in this sweep, or in the next one. -/
theorem mark_self (position : Nat) (s : Sweep) (parent : Nat) : (mark position s parent).next parent = true ∨
   position < parent ∧ (mark position s parent).dirty parent = true := by
 rw [mark]
 split
 · grind
 · split
   · grind
   · exact .inl (update_self parent true s.next)

theorem mark_counted (h : Counted s) (parent : Nat) :
  Counted (mark position s parent) := by
 rw [mark]
 split
 · exact h
 · split
   · exact h
   · intro hqueued
     exact absurd hqueued (succ_ne_zero s.queued)

theorem marks_marked (position : Nat) (parents : List Nat) (s : Sweep) :
  Marked s (parents.foldl (mark position) s) := by
 induction parents generalizing s with
 | nil => exact Marked.refl s
 | cons parent parents ih => exact (mark_marked position s parent).trans (ih _)

theorem marks_counted (parents : List Nat) (h : Counted s) :
  Counted (parents.foldl (mark position) s) := by
 induction parents generalizing s with
 | nil => exact h
 | cons parent parents ih => exact ih (mark_counted h parent)

theorem marks_mem (position : Nat) {parent : Nat} {parents : List Nat} (h : parent ∈ parents) (s : Sweep) :
  (parents.foldl (mark position) s).next parent = true ∨
   position < parent ∧ (parents.foldl (mark position) s).dirty parent = true := by
 induction parents generalizing s with
 | nil => nomatch h
 | cons first parents ih =>
  rw [foldl_cons]
  rcases mem_cons.1 h with rfl | hmem
  · -- the marks after the first keep it
    have hrest := marks_marked position parents (mark position s parent)
    rcases mark_self position s parent with hnext | hdirty
    · exact .inl (hrest.next parent hnext)
    · exact .inr ⟨hdirty.1, hrest.dirty parent hdirty.2⟩
  · exact ih hmem _

/-! ### One sweep -/

/-- With the first `position` members swept, each member is settled or will be looked at. -/
def Pending (t : Extract.Table) (s : Sweep) (position : Nat) : Prop :=
 ∀ i e, t.entries[i]? = some e →
  s.next i = true ∨ (position ≤ i ∧ s.dirty i = true) ∨ Settled s.cost e

theorem improves_iff :
  improves total best = true ↔ ∀ b, best = some b → total < b := by
 cases best with
 | none => simp [improves]
 | some best => simp [improves]

/-- What an improvement does: the cost of one member's slot drops to the member's, and every member
that has the slot for a child is marked. -/
theorem improve_cases (t : Extract.Table) (s : Sweep) (position : Nat) (e : Entry) :
  (t.improve s position e = s ∧ Settled s.cost e) ∨
   ∃ total, costOf e s.cost = some total ∧ improves total (s.cost e.slot) = true ∧
    t.improve s position e = (t.parents e.slot).foldl (mark position)
     { s with cost := update s.cost e.slot (some total) } := by
 rw [improve]
 cases hcost : costOf e s.cost with
 | none =>
  refine .inl ⟨rfl, fun total htotal => ?_⟩
  grind
 | some total =>
  simp only
  split
  · grind
  · rename_i hkeeps
    refine .inl ⟨rfl, fun total' htotal => ?_⟩
    obtain rfl : total = total' := some.inj (hcost.symm.trans htotal)
    cases hbest : s.cost e.slot with
    | none => exact absurd (by rw [hbest]; rfl) hkeeps
    | some best =>
     refine ⟨best, rfl, ?_⟩
     rw [hbest, improves, decide_eq_true_eq] at hkeeps
     exact not_lt.1 hkeeps

theorem Settled.update (h : Settled cost e) (hchild : slot ∉ e.children)
  (himproves : improves total (cost slot) = true) :
  Settled (update cost slot (some total)) e := by
 intro total' htotal
 rw [costOf_update hchild] at htotal
 obtain ⟨best, hbest, hle⟩ := h total' htotal
 rcases eq_or_ne e.slot slot with heq | hne
 · grind [improves_iff]
 · exact ⟨best, by rw [update_of_ne hne]; exact hbest, hle⟩

theorem visit_pending (he : t.entries[position]? = some e) (h : Pending t s position) :
  Pending t (t.visit s (e, position)) (position + 1) := by
 rw [visit]
 split
 · -- the member is looked at: it is settled now, or its improvement marks what depends on it
   have hclear : ∀ i f, t.entries[i]? = some f → i ≠ position →
     s.next i = true ∨ (position + 1 ≤ i ∧
      (update s.dirty position false) i = true) ∨ Settled s.cost f := by
    intro i f hf hne
    rcases h i f hf with hnext | ⟨hle, hdirty⟩ | hsettled
    · exact .inl hnext
    · grind
    · exact .inr (.inr hsettled)
   rcases improve_cases t { s with dirty := update s.dirty position false } position e with
    ⟨heq, hsettled⟩ | ⟨total, htotal, himproves, heq⟩
   · rw [heq]
     intro i f hf
     rcases eq_or_ne i position with rfl | hne
     · grind
     · exact hclear i f hf hne
   · simp only at htotal himproves
     rw [heq]
     have hmarked := marks_marked position (t.parents e.slot)
      { s with dirty := update s.dirty position false,
               cost := update s.cost e.slot (some total) }
     intro i f hf
     by_cases hchild : e.slot ∈ f.children
     · -- a parent of the improved slot
       rcases marks_mem position (mem_parents.2 ⟨f, hf, hchild⟩)
        { s with dirty := update s.dirty position false,
                 cost := update s.cost e.slot (some total) } with hnext | hdirty
       · exact .inl hnext
       · exact .inr (.inl ⟨hdirty.1, hdirty.2⟩)
     · rcases eq_or_ne i position with rfl | hne
       · obtain rfl : e = f := some.inj (he.symm.trans hf)
         refine .inr (.inr fun total' htotal' => ⟨total, ?_, ?_⟩)
         · rw [hmarked.cost]
           exact update_self _ _ _
         · rw [hmarked.cost, costOf_update hchild, htotal] at htotal'
           exact le_of_eq (some.inj htotal')
       · rcases hclear i f hf hne with hnext | ⟨hle, hdirty⟩ | hsettled
         · exact .inl (hmarked.next i hnext)
         · exact .inr (.inl ⟨hle, hmarked.dirty i hdirty⟩)
         · rw [hmarked.cost]
           exact .inr (.inr (hsettled.update hchild himproves))
 · rename_i hclean
   intro i f hf
   rcases h i f hf with hnext | ⟨hle, hdirty⟩ | hsettled
   · exact .inl hnext
   · rcases eq_or_ne i position with rfl | hne
     · exact absurd hdirty hclean
     · exact .inr (.inl ⟨by omega, hdirty⟩)
   · exact .inr (.inr hsettled)

/-- A visit leaves the costs alone, or one member improves its slot's. -/
theorem visit_cases (t : Extract.Table) (s : Sweep) (e : Entry) (position : Nat) :
  ((t.visit s (e, position)).cost = s.cost ∧ (t.visit s (e, position)).queued = s.queued) ∨
    ∃ total, costOf e s.cost = some total ∧ improves total (s.cost e.slot) = true ∧
     (t.visit s (e, position)).cost = update s.cost e.slot (some total) := by
 rw [visit]
 split
 · rcases improve_cases t { s with dirty := update s.dirty position false } position e with
    ⟨heq, -⟩ | ⟨total, htotal, himproves, heq⟩
   · grind
   · rw [heq]
     exact .inr ⟨total, htotal, himproves, (marks_marked position _ _).cost⟩
 · exact .inl ⟨rfl, rfl⟩

theorem visit_counted (h : Counted s) (entry : Entry × Nat) :
  Counted (t.visit s entry) := by
 rw [visit]
 split
 · rcases improve_cases t { s with dirty := update s.dirty entry.2 false } entry.2 entry.1
    with ⟨heq, -⟩ | ⟨total, -, -, heq⟩
   · rw [heq]
     exact h
   · rw [heq]
     exact marks_counted _ h
 · exact h

/-! ### The measure -/

def rank (best : Option Cost) : Nat :=
 match best with
 | none => 2 ^ 64
 | some best => best.val

/-- What is left to improve over the first `slots` slots. -/
def potential (slots : Nat) (cost : Nat → Option Cost) : Nat :=
 ∑ slot ∈ Finset.range slots, rank (cost slot)

theorem rank_lt (h : improves total best = true) :
  rank (some total) < rank best := by
 cases best with
 | none => exact total.isLt
 | some best => exact improves_iff.1 h best rfl

theorem potential_lt {slots : Nat} (hslot : slot < slots) (h : improves total (cost slot) = true) :
  potential slots (update cost slot (some total)) < potential slots cost := by
 have hat : rank (update cost slot (some total) slot) < rank (cost slot) := by
  rw [update_self]
  exact rank_lt h
 apply Finset.sum_lt_sum
 · intro i _
   rcases eq_or_ne i slot with rfl | hne
   · exact le_of_lt hat
   · rw [update_of_ne hne]
 · exact ⟨slot, Finset.mem_range.2 hslot, hat⟩

/-! ### The run -/

section Run

variable {slots : Nat} {I : (Nat → Option Cost) → Prop}

/-- What holds of the costs before the first sweep and through every improvement. -/
structure Invariant (t : Extract.Table) (I : (Nat → Option Cost) → Prop) : Prop where
 start : I fun _ => none
 improve : ∀ cost e total, e ∈ t.entries → I cost → costOf e cost = some total →
  improves total (cost e.slot) = true → I (update cost e.slot (some total))

/-- The state of a sweep that began at potential `before`. -/
structure Swept (t : Extract.Table) (slots before : Nat) (I : (Nat → Option Cost) → Prop) (s : Sweep)
  (position : Nat) : Prop where
 pending : Pending t s position
 counted : Counted s
 invariant : I s.cost
 le : potential slots s.cost ≤ before
 lt : 0 < s.queued → potential slots s.cost < before

theorem Swept.visit {before position : Nat} {s : Sweep} {e : Entry}
  (hslots : ∀ e ∈ t.entries, e.slot < slots) (hI : Invariant t I)
  (he : t.entries[position]? = some e) (h : Swept t slots before I s position) :
  Swept t slots before I (t.visit s (e, position)) (position + 1) := by
 have hmem : e ∈ t.entries := mem_of_getElem? he
 have hpending := visit_pending he h.pending
 have hcounted := visit_counted h.counted (e, position) (t := t)
 rcases visit_cases t s e position with ⟨hcost, hqueued⟩ | ⟨total, htotal, himproves, hcost⟩
 · refine ⟨hpending, hcounted, ?_, ?_, ?_⟩
   · rw [hcost]
     exact h.invariant
   · rw [hcost]
     exact h.le
   · rw [hcost, hqueued]
     exact h.lt
 · have hlt := potential_lt (hslots e hmem) himproves
   refine ⟨hpending, hcounted, ?_, ?_, ?_⟩
   · rw [hcost]
     exact hI.improve s.cost e total hmem h.invariant htotal himproves
   · rw [hcost]
     exact (le_of_lt hlt).trans h.le
   · rw [hcost]
     exact fun _ => hlt.trans_le h.le

variable (hslots : ∀ e ∈ t.entries, e.slot < slots) (hI : Invariant t I)

include hslots hI

theorem Swept.foldl {before : Nat} (rest pre : List Entry) (s : Sweep) (hsplit : t.entries = pre ++ rest)
  (h : Swept t slots before I s pre.length) :
  Swept t slots before I ((rest.zipIdx pre.length).foldl t.visit s) t.entries.length := by
 induction rest generalizing pre s with
 | nil =>
  grind
 | cons e rest ih =>
  rw [zipIdx_cons, foldl_cons]
  have he : t.entries[pre.length]? = some e := by
   grind
  have hnext := ih (pre ++ [e]) (t.visit s (e, pre.length)) (by simp [hsplit])
   (by
    rw [length_append]
    exact h.visit hslots hI he)
  simp_all

/-- A round from a state in which every member is settled or dirty. -/
theorem round_spec {s : Sweep} (hpending : Pending t s 0) (hnext : ∀ i, s.next i = false) (hcost : I s.cost) :
  (Pending t (t.round s) 0 ∧ (∀ i, (t.round s).next i = false) ∧ I (t.round s).cost) ∧
   ((t.round s).queued = 0 → ∀ e ∈ t.entries, Settled (t.round s).cost e) ∧
   (0 < (t.round s).queued → potential slots (t.round s).cost < potential slots s.cost) := by
 have hswept : Swept t slots (potential slots s.cost) I
   (t.entries.zipIdx.foldl t.visit { s with queued := 0 }) t.entries.length := by
  apply Swept.foldl hslots hI t.entries [] { s with queued := 0 } rfl
  exact ⟨hpending, fun _ => hnext, hcost, le_rfl, fun h => absurd h (lt_irrefl 0)⟩
 -- a member that is not settled was left for the next sweep
 have hleft : ∀ i e, t.entries[i]? = some e → (t.round s).dirty i = true ∨
   Settled (t.round s).cost e := by
  intro i e he
  rcases hswept.pending i e he with h | ⟨hle, -⟩ | h
  · exact .inl h
  · grind
  · exact .inr h
 refine ⟨⟨fun i e he => ?_, fun _ => rfl, hswept.invariant⟩, fun hqueued e he => ?_, hswept.lt⟩
 · rcases hleft i e he with h | h
   · exact .inr (.inl ⟨zero_le i, h⟩)
   · exact .inr (.inr h)
 · obtain ⟨i, hi⟩ := mem_iff_getElem?.1 he
   rcases hleft i e hi with h | h
   · have hclean : (t.round s).dirty i = false := hswept.counted hqueued i
     grind
   · exact h

theorem run_returns (measure : Nat) (s : Sweep) (hmeasure : potential slots s.cost < measure)
  (hpending : Pending t s 0) (hnext : ∀ i, s.next i = false) (hcost : I s.cost)
  (hdone : s.queued = 0 → ∀ e ∈ t.entries, Settled s.cost e) :
  ∃ cost, Returns (fun fuel => t.run fuel s) cost ∧ I cost ∧ ∀ e ∈ t.entries, Settled cost e := by
 induction measure generalizing s with
 | zero => nomatch hmeasure
 | succ measure ih =>
  by_cases hqueued : 0 < s.queued
  · obtain ⟨⟨hpending', hnext', hcost'⟩, hdone', hlt⟩ := round_spec hslots hI hpending hnext hcost
    have hturn : ∀ fuel, t.run (fuel + 1) s = t.run fuel (t.round s) := by
     intro fuel
     rw [run, if_pos hqueued]
    by_cases hmore : 0 < (t.round s).queued
    · grind [turn]
    · have hstop : ∀ fuel, t.run (fuel + 1) (t.round s) = some (t.round s).cost := by
       intro fuel
       rw [run, if_neg hmore]
      exact ⟨(t.round s).cost, turn hturn (turn hstop (pure _)), hcost',
       hdone' (Nat.eq_zero_of_not_pos hmore)⟩
  · have hstop : ∀ fuel, t.run (fuel + 1) s = some s.cost := by
     intro fuel
     rw [run, if_neg hqueued]
    grind [Returns.turn, Returns.pure]

/-- The loop ends at costs that no member improves. -/
theorem costs_returns :
  ∃ cost, Returns t.costs cost ∧ I cost ∧ ∀ e ∈ t.entries, Settled cost e := by
 apply run_returns hslots hI _ t.start (lt_succ_self _)
 · exact fun i e _ => .inr (.inl ⟨zero_le i, rfl⟩)
 · exact fun _ => rfl
 · exact hI.start
 · intro hempty e he
   rw [eq_nil_of_length_eq_zero hempty] at he
   nomatch he

end Run

/-! ## The choice -/

/-- Whether `entry` spells `slot` at its settled cost. -/
def wins (cost : Nat → Option Cost) (slot : Nat) (entry : Entry × Nat) : Bool :=
 entry.1.slot = slot && (cost slot).any (spells cost entry.1)

theorem foldl_choose (cost : Nat → Option Cost) (slot : Nat) (entries : List (Entry × Nat))
  (chosen : Nat → Option (Nat × Cost)) : entries.foldl (choose cost) chosen slot = (chosen slot).or
   ((cost slot).bind fun settled => (entries.find? (wins cost slot)).map fun entry =>
     (entry.2, settled)) := by
 induction entries generalizing chosen with
 | nil => simp
 | cons entry entries ih =>
  rw [foldl_cons, ih, find?_cons]
  rcases eq_or_ne entry.1.slot slot with heq | hne
  · -- the member may win `slot`, where nothing has won it before
    cases hcost : cost slot with
    | none => simp [choose, heq, hcost]
    | some settled =>
     cases hchosen : chosen slot with
     | some choice => simp [choose, heq, hcost, hchosen]
     | none =>
      cases hspells : spells cost entry.1 settled with
      | true => simp [choose, wins, heq, hcost, hchosen, hspells]
      | false => simp [choose, wins, heq, hcost, hchosen, hspells]
  · have hskip : choose cost chosen entry slot = chosen slot := by
     rw [choose]
     cases cost entry.1.slot with
     | none => rfl
     | some settled =>
      simp only
      split
      · exact update_of_ne (Ne.symm hne) _ _
      · rfl
    rw [hskip, wins, decide_eq_false hne, Bool.false_and]

theorem chosen_eq (t : Extract.Table) (cost : Nat → Option Cost) (slot : Nat) :
  t.chosen cost slot = (cost slot).bind fun settled =>
   (t.entries.zipIdx.find? (wins cost slot)).map fun entry => (entry.2, settled) := by
 rw [chosen, foldl_choose]
 exact none_or

/-- The member chosen spells its slot at the settled cost. -/
theorem chosen_some {settled : Cost} (h : t.chosen cost slot = some (position, settled)) :
  cost slot = some settled ∧ ∃ e, t.entries[position]? = some e ∧ e.slot = slot ∧
   costOf e cost = some settled ∧ slot ∉ e.children := by
 rw [chosen_eq] at h
 obtain ⟨best, hbest, h⟩ := bind_eq_some_iff.1 h
 obtain ⟨entry, hfind, hent⟩ := map_eq_some_iff.1 h
 cases hent
 refine ⟨hbest, entry.1, mem_zipIdx_iff_getElem?.1 (mem_of_find?_eq_some hfind), ?_⟩
 have hwins := find?_some hfind
 rw [wins, hbest, any_some, Bool.and_eq_true, decide_eq_true_eq, spells, Bool.and_eq_true,
  decide_eq_true_eq, decide_eq_true_eq] at hwins
 grind

end Tir.Relational.Extract.Table
