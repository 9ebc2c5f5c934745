import Tir.RegAlloc.BeladyFill

/-!
# The slots of memory parameters on an edge

The edits the spiller places at a branch, in the order they become code, are a parallel copy from
the arguments to the slots of the memory parameters. The reloads the branch reads from a slot
the edge fills come before every store (`Spiller.placeReloads_ok`), so that each argument is
read where it was before the edge. `Spiller.edge_fills_slots` puts this together with
`Spiller.fill_run`: the slot of every memory parameter that something reads ends with the value
its argument had before the edge.
-/

open List Option Function Nat

namespace Tir.RegAlloc.Belady

open Registers Machine

variable {f : Function} {Val : Type} {constant : Nat → Val}

/-! ## Registers -/

theorem Registers.name_insert (registers : Registers) (shape : Shape) (value other : Nat)
  (name : Name) : (registers.insert shape value name).name other =
   (registers.name other).or (if other = value then some name else none) := by
 rw [Registers.name, Registers.insert, find?_append, Registers.name]
 grind

/-- The names the registers hold values under were there before the next SSA value. -/
def Registers.Old (registers : Registers) (next : Nat) : Prop :=
 ∀ value name, registers.name value = some name → name.Old next

namespace Spiller

variable {s s' : Spiller} {block index : Nat} {op : Op} {registers registers' : Registers}

/-! ## The reloads of a branch -/

/-- What placing reloads leaves: registers that hold more values, and before the stores of the
edge every value the edge stores or overwrites in the register it is held in. -/
structure Reloaded (f : Function) (op : Op) (registers registers' : Registers) (s s' : Spiller)
  (new : List (Nat × Phase × Edit)) : Prop where
 held : ∀ value name, registers.name value = some name → registers'.name value = some name
 old : registers'.Old s'.next
 reloads : ∀ e ∈ new, e.2.1 = .edgeLoad ∨ e.2.1 = .reload
 edits : ∀ e ∈ new, ∃ slot fresh replay, e.2.2 = .reload slot fresh replay
 before : ∀ (Val : Type) (constant : Nat → Val) (m : Machine Val),
  let m' := runEdits constant (code (new.filter fun e => e.2.1 = .edgeLoad)) m
  m'.mem = m.mem ∧ (∀ n : Name, n.Old s.next → m'.regs n = m.regs n) ∧
   ∀ value, f.stored op value → ∀ name, registers'.name value = some name →
    m'.regs name = m.valueOf f constant registers value

theorem Reloaded.refl (h : registers.Old s.next) : Reloaded f op registers registers s s [] := by
 refine ⟨fun _ _ hn => hn, h, by simp, by simp, fun Val constant m => ⟨rfl, fun _ _ => rfl, ?_⟩⟩
 intro value _ name hname
 simp only [valueOf, hname]
 rfl

theorem reloaded_insert {value : Nat} (shape : Shape) {phase : Phase} {name : Name}
  (h : registers.Old s.next) (hnone : registers.name value = none)
  (hphase : phase = if f.stored op value then .edgeLoad else .reload)
  (hr : s.reload f block index value phase = .ok (name, s')) :
  Reloaded f op registers (registers.insert shape value name) s s'
   [(index, phase, .reload (.of value) s.next (f.remat value))] := by
 obtain ⟨-, rfl, hnext, -⟩ := reload_ok hr
 have hfresh : ∀ n : Name, n.Old s.next → n ≠ .value s.next := by
  rintro n hn rfl
  exact absurd hn (lt_irrefl _)
 refine ⟨fun other n hn => ?_, fun other n hn => ?_, ?_, ?_, fun Val constant m => ?_⟩
 · rw [name_insert, hn, some_or]
 · rw [name_insert] at hn
   rw [hnext]
   cases ho : registers.name other with
   | some n' =>
    rw [ho, some_or, some.injEq] at hn
    exact hn ▸ (h other n' ho).mono (le_succ _)
   | none =>
    rw [ho, none_or] at hn
    split_ifs at hn
    rw [← some.inj hn]
    exact lt_succ_self _
 · grind
 · grind
 · by_cases hstored : f.stored op value
   · rw [if_pos hstored] at hphase
     subst hphase
     have hrun : runEdits constant (code ([(index, Phase.edgeLoad,
       Edit.reload (.of value) s.next (f.remat value))].filter fun e => e.2.1 = .edgeLoad)) m =
       Edit.run constant m (.reload (.of value) s.next (f.remat value)) := by
      simp [code, runEdits]
     rw [hrun, run_reload]
     refine ⟨rfl, fun n hn => update_of_ne (hfresh n hn) .., fun other _ n hn => ?_⟩
     rw [name_insert] at hn
     cases ho : registers.name other with
     | some n' =>
      rw [ho, some_or, some.injEq] at hn
      subst hn
      simp only [valueOf, ho]
      exact update_of_ne (hfresh n' (h other n' ho)) ..
     | none =>
      rw [ho, none_or] at hn
      split_ifs at hn with heq
      cases hn
      subst heq
      simp only [update_self, Machine.valueOf, ho, Transfer.read] <;> rfl
   · rw [if_neg hstored] at hphase
     subst hphase
     have hrun : runEdits constant (code ([(index, Phase.reload,
       Edit.reload (.of value) s.next (f.remat value))].filter fun e => e.2.1 = .edgeLoad)) m =
       m := by
      simp [code, runEdits]
     rw [hrun]
     refine ⟨rfl, fun _ _ => rfl, fun other hother n hn => ?_⟩
     have hne : other ≠ value := fun heq => hstored (heq ▸ hother)
     rw [name_insert, if_neg hne, or_none] at hn
     simp [valueOf, hn]

variable {new fills old : List (Nat × Phase × Edit)} {values : List Nat} {arg : Nat × Nat × Nat}

theorem Reloaded.trans {registers'' : Registers} {s'' : Spiller}
  {new' : List (Nat × Phase × Edit)} (hnext : s.next ≤ s'.next) (hold : registers.Old s.next)
  (h : Reloaded f op registers registers' s s' new) (h' : Reloaded f op registers' registers'' s' s'' new') :
  Reloaded f op registers registers'' s s'' (new ++ new') := by
 refine ⟨fun value name hn => h'.held _ _ (h.held _ _ hn), h'.old, fun e he => ?_, fun e he => ?_,
  fun Val constant m => ?_⟩
 · exact (mem_append.1 he).elim (h.reloads e) (h'.reloads e)
 · exact (mem_append.1 he).elim (h.edits e) (h'.edits e)
 · obtain ⟨hmem, hregs, hval⟩ := h.before Val constant m
   obtain ⟨hmem', hregs', hval'⟩ := h'.before Val constant
    (runEdits constant (code (new.filter fun e => e.2.1 = .edgeLoad)) m)
   rw [filter_append, code_append, runEdits_append]
   refine ⟨hmem'.trans hmem, fun n hn => (hregs' n (hn.mono hnext)).trans (hregs n hn), ?_⟩
   intro value hstored name hname
   rw [hval' value hstored name hname]
   -- the value is where it was, or it was reloaded from there
   cases hreg : registers.name value with
   | some n =>
    simp only [valueOf, h.held value n hreg, hreg]
    exact hregs n (hold value n hreg)
   | none =>
    cases hreg' : registers'.name value with
    | some n =>
     have hn := hval value hstored n hreg'
     simp only [valueOf, hreg'] at hn ⊢
     exact hn
    | none => simp only [valueOf, hreg, hreg', hmem]

/-- The reloads of a branch are placed before it, and fail only for a pinned value. -/
theorem placeReloads_ok (hold : registers.Old s.next)
  (h : placeReloads f block index op values (registers, s) = .ok (registers', s')) :
  ∃ new, Placed block s s' new ∧ (∀ e ∈ new, e.1 = index) ∧
   Reloaded f op registers registers' s s' new := by
 induction values generalizing registers s with
 | nil =>
  obtain ⟨rfl, rfl⟩ : registers = registers' ∧ s = s' := by
   simpa [placeReloads, pure, Except.pure] using h
  exact ⟨[], ⟨le_rfl, (append_nil _).symm, fun _ _ => rfl⟩, by simp,
   Reloaded.refl hold⟩
 | cons value values ih =>
  rw [placeReloads, foldlM_cons, placeReload] at h
  cases hshape : f.shapes value with
  | none =>
   rw [hshape] at h
   exact ih hold h
  | some shape =>
   rw [hshape] at h
   cases hname : registers.name value with
   | some name =>
    simp only [hname] at h
    exact ih hold h
   | none =>
    simp only [hname] at h
    generalize hphase : (if f.stored op value then Phase.edgeLoad else .reload) = phase at h
    cases hr : s.reload f block index value phase with
    | error fault =>
     rw [hr] at h
     nomatch h
    | ok result =>
     rw [hr] at h
     obtain ⟨-, -, -, hplaced⟩ := reload_ok hr
     have hone := reloaded_insert shape hold hname hphase.symm hr
     obtain ⟨new, hplaced', hidx, hrest⟩ := ih hone.old h
     refine ⟨_, hplaced.trans hplaced', fun e he => ?_,
      Reloaded.trans hplaced.next hold hone hrest⟩
     rcases mem_append.1 he with he | he
     · rw [mem_singleton.1 he]
     · exact hidx e he

theorem placeReloads_error {fault : Fault} (h : placeReloads f block index op values (registers, s) = .error fault) :
  ∃ value ∈ values, registers.name value = none ∧ PinnedFault f fault value := by
 induction values generalizing registers s with
 | nil => nomatch h
 | cons value values ih =>
  rw [placeReloads, foldlM_cons, placeReload] at h
  cases hshape : f.shapes value with
  | none =>
   rw [hshape] at h
   obtain ⟨v, hv, hpin⟩ := ih h
   exact ⟨v, .tail _ hv, hpin⟩
  | some shape =>
   rw [hshape] at h
   cases hname : registers.name value with
   | some name =>
    simp only [hname] at h
    obtain ⟨v, hv, hpin⟩ := ih h
    exact ⟨v, .tail _ hv, hpin⟩
   | none =>
    simp only [hname] at h
    generalize (if f.stored op value then Phase.edgeLoad else .reload) = phase at h
    cases hr : s.reload f block index value phase with
    | error fault' =>
     rw [hr] at h
     obtain rfl : fault' = fault := Except.error.inj h
     grind [reload_error]
    | ok result =>
     rw [hr] at h
     obtain ⟨v, hv, hnone, hpin⟩ := ih h
     grind [name_insert]

/-! ## The code of the edge -/

/-- What the end of the spiller adds to a block: before the operation at an index, stores of
values out of memory after their definition, and reloads that the next block takes. -/
def AddedLater (f : Function) (index : Nat) (more : List (Nat × Phase × Edit)) : Prop :=
 ∀ e ∈ more, e.1 = index →
  (e.2.1 = .defStore ∧ ∃ value name, value ∉ f.memory ∧ e.2.2 = .store (.of value) name) ∨
  (e.2.1 = .reload ∧ ∃ slot fresh replay, e.2.2 = .reload slot fresh replay)

/-- The stores of definitions before the operation at an index. -/
def defStores (index : Nat) (more : List (Nat × Phase × Edit)) : List Edit :=
 code (more.filter fun e => e.1 = index ∧ e.2.1 = .defStore)

variable (constant) in
theorem run_reloads_mem {l : List Edit} (h : ∀ e ∈ l, ∃ slot fresh replay, e = .reload slot fresh replay)
  (m : Machine Val) : (runEdits constant l m).mem = m.mem := by
 induction l generalizing m with
 | nil => rfl
 | cons e l ih =>
  obtain ⟨slot, fresh, replay, rfl⟩ := h e (.head _)
  have hrest := ih (fun e he => h e (.tail _ he))
   (Edit.run constant m (.reload slot fresh replay))
  cases replay with
  | none => exact hrest
  | some definition => exact hrest

theorem order_eq_iff {phase phase' : Phase} : phase.order = phase'.order ↔ phase = phase' := by
 cases phase <;> cases phase' <;> simp [Phase.order]

/-- The edits of one phase at an index, of those before the branch, its reloads, what fills the
slots and what is added later. -/
theorem filter_phase (more : List (Nat × Phase × Edit)) (phase : Phase)
  (hold : ∀ e ∈ old, e.1 < index) (hnew : ∀ e ∈ new, e.1 = index) (hfills : ∀ e ∈ fills, e.1 = index) :
  ((old ++ new ++ fills ++ more).filter fun e => e.1 = index ∧ e.2.1.order = phase.order) =
    (new.filter fun e => e.2.1 = phase) ++ (fills.filter fun e => e.2.1 = phase) ++
     more.filter fun e => e.1 = index ∧ e.2.1 = phase := by
 rw [filter_append, filter_append, filter_append]
 have hnone : (old.filter fun e => e.1 = index ∧ e.2.1.order = phase.order) = [] := by
  refine filter_eq_nil_iff.2 fun e he => ?_
  grind
 rw [hnone, nil_append]
 congr 1
 · congr 1
   · refine filter_congr fun e he => ?_
     grind [order_eq_iff]
   · refine filter_congr fun e he => ?_
     grind [order_eq_iff]
 grind [order_eq_iff]

/-- The code before the branch: the stores of definitions, the reloads that come before the
stores of the edge, those stores, and then reloads only. -/
theorem codeBefore_edge {more : List (Nat × Phase × Edit)} (hold : ∀ e ∈ old, e.1 < index)
  (hnew : ∀ e ∈ new, e.1 = index ∧ (e.2.1 = .edgeLoad ∨ e.2.1 = .reload) ∧
   ∃ slot fresh replay, e.2.2 = .reload slot fresh replay)
  (hfills : ∀ e ∈ fills, e.1 = index ∧ (e.2.1 = .copy ∨ e.2.1 = .edgeStore)) (hmore : AddedLater f index more) :
  ∃ rest, (∀ e ∈ rest, ∃ slot fresh replay, e = Edit.reload slot fresh replay) ∧
   codeBefore index (old ++ new ++ fills ++ more) =
    defStores index more ++ code (new.filter fun e => e.2.1 = .edgeLoad) ++
     code ((fills.filter fun e => e.2.1 = .edgeStore) ++
      fills.filter fun e => e.2.1 = .copy) ++ rest := by
 have hphase := fun phase => filter_phase more phase hold (fun e he => (hnew e he).1)
  fun e he => (hfills e he).1
 have hnoNew : ∀ phase, phase ≠ .edgeLoad → phase ≠ .reload →
   new.filter (fun e => e.2.1 = phase) = [] := by
  intro phase h1 h2
  refine filter_eq_nil_iff.2 fun e he heq => ?_
  have heq : e.2.1 = phase := by simpa using heq
  rcases (hnew e he).2.1 with h | h
  · exact h1 (heq.symm.trans h)
  · exact h2 (heq.symm.trans h)
 have hnoFills : ∀ phase, phase ≠ .copy → phase ≠ .edgeStore →
   fills.filter (fun e => e.2.1 = phase) = [] := by
  intro phase h1 h2
  refine filter_eq_nil_iff.2 fun e he heq => ?_
  have heq : e.2.1 = phase := by simpa using heq
  rcases (hfills e he).2 with h | h
  · exact h1 (heq.symm.trans h)
  · exact h2 (heq.symm.trans h)
 have hnoMore : ∀ phase, phase ≠ .defStore → phase ≠ .reload →
   more.filter (fun e => e.1 = index ∧ e.2.1 = phase) = [] := by
  intro phase h1 h2
  refine filter_eq_nil_iff.2 fun e he heq => ?_
  have heq : e.1 = index ∧ e.2.1 = phase := by simpa using heq
  rcases hmore e he heq.1 with ⟨h, -⟩ | ⟨h, -⟩
  · exact h1 (heq.2.symm.trans h)
  · exact h2 (heq.2.symm.trans h)
 refine ⟨code ((new.filter fun e => e.2.1 = .reload) ++
  more.filter fun e => e.1 = index ∧ e.2.1 = .reload), ?_, ?_⟩
 · intro e he
   obtain ⟨e', he', rfl⟩ := List.mem_map.1 he
   rcases mem_append.1 he' with he' | he'
   · exact (hnew e' (mem_filter.1 he').1).2.2
   · obtain ⟨hmem, heq⟩ := mem_filter.1 he'
     have heq : e'.1 = index ∧ e'.2.1 = .reload := by simpa using heq
     rcases hmore e' hmem heq.1 with ⟨h, -⟩ | ⟨-, h⟩
     · exact nomatch heq.2.symm.trans h
     · exact h
 · have hsort := filter_mergeSort_lex (fun e : Nat × Phase × Edit => e.1) (fun e => e.2.1.order)
    index (n := 5) (l := old ++ new ++ fills ++ more)
    (fun e _ => by cases e.2.1 <;> simp [Phase.order])
   have hrng : List.range 5 = [Phase.defStore.order, Phase.edgeLoad.order, Phase.edgeStore.order,
    Phase.copy.order, Phase.reload.order] := rfl
   rw [codeBefore, emitted, hsort, hrng]
   simp only [flatMap_cons, flatMap_nil, append_nil, hphase]
   rw [hnoNew .defStore (by decide) (by decide), hnoNew .edgeStore (by decide) (by decide),
    hnoNew .copy (by decide) (by decide), hnoFills .defStore (by decide) (by decide),
    hnoFills .edgeLoad (by decide) (by decide), hnoFills .reload (by decide) (by decide),
    hnoMore .edgeLoad (by decide) (by decide), hnoMore .edgeStore (by decide) (by decide),
    hnoMore .copy (by decide) (by decide)]
   simp [defStores, code]

/-! ## The edge -/

/-- The transfers of an edge are to distinct memory parameters, from registers or from the
arguments' own slots. -/
theorem transfers_fillable {next : Nat} (hold : registers.Old next)
  (htyped : ∀ arg ∈ op.args, f.Fills arg → (f.shapes arg.2.1).isSome) :
  Fillable f next (f.transfers op registers) := by
 have hmem : ∀ t ∈ f.transfers op registers, ∃ arg ∈ op.args, f.Fills arg ∧ t.1 = arg.1 ∧
   ((∃ n, registers.name arg.2.1 = some n ∧ t.2 = .name n) ∨ t.2 = .slot (.of arg.2.1)) := by
  intro t ht
  obtain ⟨arg, harg, rfl⟩ := List.mem_map.1 ht
  grind
 refine ⟨?_, fun t ht => ?_, fun t ht slot hslot => ?_, fun t ht n hn => ?_,
  fun t ht value hv => ?_⟩
 · rw [Function.transfers, List.map_map]
   exact op.params_nodup.sublist (filter_sublist.map _)
 · obtain ⟨arg, -, hfills, heq, -⟩ := hmem t ht
   exact heq ▸ hfills.1
 · obtain ⟨arg, harg, hfills, -, ⟨n, -, hn⟩ | hsrc⟩ := hmem t ht
   · exact nomatch hn.symm.trans hslot
   grind
 · obtain ⟨arg, -, -, -, ⟨k, hreg, hk⟩ | hsrc⟩ := hmem t ht
   · obtain rfl := Transfer.name.inj (hk.symm.trans hn)
     exact hold _ _ hreg
   · exact nomatch hsrc.symm.trans hn
 grind

theorem fills_mem (harg : arg ∈ op.args) (hfills : f.Fills arg) :
  arg.1 ∈ f.filled op ∧ f.stored op arg.2.1 := by
 have hfilled : arg.1 ∈ f.filled op :=
  List.mem_map.2 ⟨arg, mem_filter.2 ⟨harg, by simpa using hfills⟩, rfl⟩
 exact ⟨hfilled, Or.inr ⟨arg, harg, rfl, hfilled⟩⟩

variable (constant) in
/-- After the reloads, a transfer reads what its argument was before them. -/
theorem read_transfer (m : Machine Val) (hr : Reloaded f op registers registers' s s' new)
  (harg : arg ∈ op.args) (hfills : f.Fills arg) : ∃ t ∈ f.transfers op registers', t.1 = arg.1 ∧
   t.2.read f constant (runEdits constant (code (new.filter fun e => e.2.1 = .edgeLoad)) m) =
    m.valueOf f constant registers arg.2.1 := by
 obtain ⟨hmem, hregs, hval⟩ := hr.before Val constant m
 refine ⟨_, List.mem_map.2 ⟨arg, mem_filter.2 ⟨harg, by simpa using hfills⟩, rfl⟩, rfl, ?_⟩
 cases hname : registers'.name arg.2.1 with
 | some n => exact hval arg.2.1 (fills_mem harg hfills).2 n hname
 | none =>
  have hnone : registers.name arg.2.1 = none := by
   cases h : registers.name arg.2.1 with
   | none => rfl
   | some n => exact nomatch hname.symm.trans (hr.held _ n h)
  simp only [Transfer.read, Machine.valueOf, hnone, hmem] <;> rfl

theorem map_fst_transfers (f : Function) (op : Op) (registers : Registers) :
  (f.transfers op registers).map Prod.fst = f.filled op := by
 rw [Function.transfers, List.map_map]
 rfl

variable (constant) in
/-- The reloads before the stores of the edge, then the parallel copy. -/
theorem run_edge {before : Machine Val} (hr : Reloaded f op registers registers' s s' new)
  (hcopied : Copied f (f.transfers op registers') fills)
  (hslot : ∀ v ∈ f.memory, ∀ n, registers.name v = some n → before.regs n = before.mem (.of v)) :
  let after := runEdits constant (code fills)
   (runEdits constant (code (new.filter fun e => e.2.1 = .edgeLoad)) before)
  (∀ arg ∈ op.args, arg.1 ∈ f.memory → arg.1 ∉ f.dead →
   after.mem (.of arg.1) = before.valueOf f constant registers arg.2.1) ∧
  ∀ value, value ∉ f.filled op → after.mem (.of value) = before.mem (.of value) := by
 obtain ⟨hmem, -, -⟩ := hr.before Val constant before
 obtain ⟨hfill, hkeep⟩ := hcopied Val constant
  (runEdits constant (code (new.filter fun e => e.2.1 = .edgeLoad)) before)
 rw [map_fst_transfers] at hkeep
 have hkeep' : ∀ value, value ∉ f.filled op →
   (runEdits constant (code fills) (runEdits constant
    (code (new.filter fun e => e.2.1 = .edgeLoad)) before)).mem (.of value) =
    before.mem (.of value) := fun value hv => (hkeep value hv).trans (congrFun hmem _)
 refine ⟨fun arg harg hmemo hdead => ?_, hkeep'⟩
 by_cases hself : arg.2.1 = arg.1
 · -- a parameter passed to itself: its slot is not filled
   have hfilled : arg.1 ∉ f.filled op := by
    intro hin
    obtain ⟨other, hother, heq⟩ := List.mem_map.1 hin
    obtain ⟨hother, hfills⟩ := mem_filter.1 hother
    obtain rfl := inj_on_of_nodup_map op.params_nodup hother harg heq
    exact (of_decide_eq_true hfills).2.1 hself
   rw [hkeep' _ hfilled, hself, valueOf]
   cases hname : registers.name arg.1 with
   | some n => exact (hslot _ hmemo n hname).symm
   | none => rw [f.memory_remat _ hmemo]
 · obtain ⟨t, ht, heq, hread⟩ :=
    read_transfer constant before hr harg ⟨hmemo, hself, hdead⟩
   rw [← heq, hfill t ht, hread]

/-- **The slots of an edge.** The edits placed at a branch, with what the spiller adds later and in
the order they become code, leave in the slot of every memory parameter that something reads
the value its argument had before the edge, and in the slot of every value that is no such
parameter what it held. Placing them ends, and fails only when a pinned value that no
register holds would be reloaded. -/
theorem edge_fills_slots (f : Function) (op : Op) (later : List Nat) (registers : Registers)
  (s : Spiller) (block index : Nat) (hold : registers.Old s.next)
  (htyped : ∀ arg ∈ op.args, f.Fills arg → (f.shapes arg.2.1).isSome) (hedits : ∀ e ∈ s.edits block, e.1 < index) :
  ∃ result, Returns (fun fuel => placeEdge f block index op later registers s fuel) result ∧
   (∀ fault, result = .error fault → ∃ value, registers.name value = none ∧ PinnedFault f fault value) ∧
   ∀ registers' s', result = .ok (registers', s') → ∀ more, AddedLater f index more →
    ∀ (Val : Type) (constant : Nat → Val) (start before after : Machine Val),
     before = runEdits constant (defStores index more) start →
     after = runEdits constant (codeBefore index (s'.edits block ++ more)) start →
     (∀ v ∈ f.memory, ∀ n, registers.name v = some n → before.regs n = before.mem (.of v)) →
     (∀ arg ∈ op.args, arg.1 ∈ f.memory → arg.1 ∉ f.dead →
      after.mem (.of arg.1) = before.valueOf f constant registers arg.2.1) ∧
     ∀ value, value ∉ f.filled op → after.mem (.of value) = before.mem (.of value) := by
 cases hplace : placeReloads f block index op (f.needs op ++ later) (registers, s) with
 | error fault =>
  refine ⟨.error fault, Returns.congr (fun fuel => ?_) (Returns.pure _), ?_, ?_⟩
  · simp [placeEdge, hplace]
  · intro fault' hf
    cases hf
    obtain ⟨value, -, hnone, hpin⟩ := placeReloads_error hplace
    exact ⟨value, hnone, hpin⟩
  · nofun
 | ok result =>
  obtain ⟨registers1, s1⟩ := result
  obtain ⟨new, hplaced, hidx, hreloaded⟩ := placeReloads_ok hold hplace
  have hfillable : Fillable f (removeArgs f op (nameOperands f op registers1 s1)).next
    (f.transfers op registers1) := transfers_fillable hreloaded.old htyped
  obtain ⟨result, hret, herr⟩ := fill_returns block index hfillable
  refine ⟨result.map fun s => (registers1, s), ?_, ?_, ?_⟩
  · have hbind := hret.bind (g := fun _ filled => some (filled.map fun s => (registers1, s)))
     (Returns.pure _)
    refine hbind.congr fun fuel => ?_
    simp only [placeEdge, hplace]
    exact map_eq_bind
  · intro fault hf
    cases result with
    | ok s' => nomatch hf
    | error fault' =>
     obtain ⟨value, ⟨t, ht, hsrc⟩, hpin⟩ := herr fault' rfl
     cases hf
     refine ⟨value, ?_, hpin⟩
     obtain ⟨arg, -, rfl⟩ := List.mem_map.1 ht
     cases hname : registers1.name arg.2.1 with
     | some n =>
      simp only [hname] at hsrc
      nomatch hsrc
     | none =>
      simp only [hname] at hsrc
      obtain rfl := Slot.of.inj (Transfer.slot.inj hsrc)
      cases h : registers.name arg.2.1 with
      | none => rfl
      | some n => exact nomatch hname.symm.trans (hreloaded.held _ n h)
  · intro registers' s' hok more hmore Val constant start before after hbef hafter hslot
    cases result with
    | error fault => nomatch hok
    | ok s2 =>
     obtain ⟨rfl, rfl⟩ : registers1 = registers' ∧ s2 = s' := by
      simpa [Except.map] using hok
     obtain ⟨fuel, hfuel⟩ := hret
     obtain ⟨fills, hplaced', hphase, hcopied⟩ :=
      fill_run hfillable (hfuel fuel le_rfl)
     have hedits' : s2.edits block = s.edits block ++ new ++ fills := by
      rw [hplaced'.edits, ← hplaced.edits]
      rfl
     obtain ⟨rest, hrest, hcode⟩ := codeBefore_edge hedits
      (fun e he => ⟨hidx e he, hreloaded.reloads e he, hreloaded.edits e he⟩) hphase hmore
     have hrun := run_edge constant hreloaded hcopied hslot
     rw [hedits', hcode, runEdits_append, runEdits_append, runEdits_append, ← hbef] at hafter
     have hmem := run_reloads_mem constant hrest
      (runEdits constant (code ((fills.filter fun e => e.2.1 = .edgeStore) ++
       fills.filter fun e => e.2.1 = .copy))
       (runEdits constant (code (new.filter fun e => e.2.1 = .edgeLoad)) before))
     rw [hafter, hmem]
     exact hrun

/-- Two memory parameters that swap, and one that takes what a register holds. -/
def swapFunction : Function where
 valueOf := id
 shapes _ := some ⟨0, 1, 0⟩
 pinned := []
 remat _ := none
 memory := [1, 2, 3]
 dead := []
 memory_shape := by simp
 memory_pinned := by simp
 memory_remat := by simp

def swapBranch : Op where
 id := 0
 operands := [2, 1, 4]
 uses := [2, 1, 4]
 args := [(1, 2, 0), (2, 1, 1), (3, 4, 2)]
 params_nodup := by decide

/-- Value 4 is in a register under its own name; the other values are in their slots. -/
def swapRegisters : Registers where
 held := [(4, .value 4)]
 load _ := 1

def swapSpiller : Spiller where
 next := 5
 edits _ := []
 operands := []
 removed := []
 stored := []
 replayed := []

/-- The swap goes through a second slot, and every slot takes its argument. -/
theorem swap_edge_filled : ∃ registers s,
  Returns (fun fuel => placeEdge swapFunction 0 0 swapBranch [] swapRegisters swapSpiller fuel) (.ok (registers, s)) ∧
  ∀ (Val : Type) (constant : Nat → Val) (m : Machine Val),
   let after := runEdits constant (codeBefore 0 (s.edits 0 ++ [])) m
   after.mem (.of 1) = m.mem (.of 2) ∧ after.mem (.of 2) = m.mem (.of 1) ∧
    after.mem (.of 3) = m.regs (.value 4) := by
 have hold : swapRegisters.Old swapSpiller.next := by
  intro value name hname
  obtain ⟨held, hfind, rfl⟩ := map_eq_some_iff.1 hname
  have hheld := mem_singleton.1 (mem_of_find?_eq_some hfind)
  rw [hheld]
  exact (by decide : 4 < 5)
 obtain ⟨result, hret, herr, hok⟩ := edge_fills_slots swapFunction swapBranch [] swapRegisters
  swapSpiller 0 0 hold (fun _ _ _ => rfl) (fun e he => absurd he not_mem_nil)
 cases result with
 | error fault =>
  obtain ⟨value, -, hpin, -⟩ := herr fault rfl
  exact absurd hpin not_mem_nil
 | ok result =>
  refine ⟨result.1, result.2, hret, fun Val constant m => ?_⟩
  have hslot : ∀ v ∈ swapFunction.memory, ∀ n, swapRegisters.name v = some n →
    m.regs n = m.mem (.of v) := by
   intro v hv n hn
   have hv : v = 1 ∨ v = 2 ∨ v = 3 := by simpa [swapFunction] using hv
   rcases hv with rfl | rfl | rfl <;> exact nomatch hn
  obtain ⟨hfilled, -⟩ := hok result.1 result.2 rfl [] (fun e he => absurd he not_mem_nil)
   Val constant m m _ rfl rfl hslot
  exact ⟨hfilled (1, 2, 0) (by decide) (by decide) (by decide),
   hfilled (2, 1, 1) (by decide) (by decide) (by decide),
   hfilled (3, 4, 2) (by decide) (by decide) (by decide)⟩

/-- A memory parameter that nothing reads. -/
def deadFunction : Function where
 valueOf := id
 shapes _ := some ⟨0, 1, 0⟩
 pinned := []
 remat _ := none
 memory := [1]
 dead := [1]
 memory_shape := by simp
 memory_pinned := by simp
 memory_remat := by simp

def deadBranch : Op where
 id := 0
 operands := [4]
 uses := [4]
 args := [(1, 4, 0)]
 params_nodup := by decide

/-- The slot of a memory parameter that nothing reads is not filled. -/
theorem dead_slot_not_filled : ∃ registers s,
  Returns (fun fuel => placeEdge deadFunction 0 0 deadBranch [] swapRegisters swapSpiller fuel) (.ok (registers, s)) ∧
  ∃ m : Machine Bool, (1, 4, 0) ∈ deadBranch.args ∧ 1 ∈ deadFunction.memory ∧
   (runEdits (fun _ => true) (codeBefore 0 (s.edits 0)) m).mem (.of 1) ≠
    m.valueOf deadFunction (fun _ => true) swapRegisters 4 := by
 refine ⟨swapRegisters, _, Returns.turn (fun fuel => rfl) (Returns.pure _), ?_⟩
 refine ⟨⟨fun _ => true, fun _ => false⟩, by decide, by decide, ?_⟩
 have hcode : codeBefore 0 [] = [] := by simp [codeBefore, emitted]
 show (runEdits _ (codeBefore 0 []) _).mem _ ≠ _
 rw [hcode]
 decide

end Spiller

end Tir.RegAlloc.Belady
