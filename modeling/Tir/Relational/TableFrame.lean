import Tir.Relational.TableRepair

/-!
# What a table's reader relies on across calls

An inserted row shows what it was given (`Rows.view_store`), and neither an insertion nor a repair
spoils the scratch weights a closure is shown (`Table.insert_fresh`, `Table.repair_fresh`): weights,
once stored, stay stored.
-/

open List Option

namespace Tir.Relational

namespace Rows

variable {arity : Nat} {rows : Rows}

/-! ## The view of a stored row -/

/-- The weights a key is stored with: zeros where it has none. -/
def paddedWeights (arity : Nat) (weights : List Weight) : List Weight :=
 (List.range arity).map fun column => weights.getD column 0

theorem paddedWeights_of_length {weights : List Weight} (h : weights.length = arity) :
  paddedWeights arity weights = weights := by
 apply ext_getElem
 · simp [paddedWeights, h]
 · intro column hcol _
   simp only [paddedWeights, length_map, length_range] at hcol
   simp [paddedWeights, h, hcol]

@[simp] theorem paddedWeights_nil : paddedWeights arity [] = replicate arity 0 := by
  rw [eq_replicate_iff]
  simp [paddedWeights]

section

variable (h : rows.WF arity) (key : List Nat) (weights : List Weight) (value : Nat × Weight) (tag stamp : Nat)

include h key weights value tag stamp

theorem cell_store_value
  : (rows.store arity key weights value tag stamp).cell arity rows.len = value.1 := by
 have hlt : rows.len < (rows.push arity key value.1 tag stamp).len := by
  simp_all
 rw [store]
 split
 · rw [cell_setWeight, cell_setWeights (h.push key value.1 tag stamp) hlt, cell_push_value h]
 · rw [cell_push_value h]

theorem weight_store_value :
  (rows.store arity key weights value tag stamp).weight arity rows.len = value.2 := by
 obtain ⟨hwf, hlen, -, -⟩ := stored h key weights value.1 tag stamp
 rw [store]
 split
 · rw [weight_setWeight hwf (by rw [hlen]; exact Nat.lt_succ_self _), if_pos ⟨rfl, rfl⟩]
 grind [weight_push_new]

theorem tag_store
  : (rows.store arity key weights value tag stamp).tag.getD rows.len 0 = tag := by
 have hlt : rows.len < (rows.push arity key value.1 tag stamp).len := by
  simp_all
 have hlength : rows.tag.length = rows.len := h.tag
 have hpush : (rows.push arity key value.1 tag stamp).tag.getD rows.len 0 = tag := by
  show (rows.tag ++ [tag]).getD rows.len 0 = tag
  grind
 rw [store]
 split
 · rw [tag_setWeight, tag_setWeights (h.push key value.1 tag stamp) hlt]
   exact hpush
 · exact hpush

end

theorem view_store (h : rows.WF arity) {key : List Nat} {weights : List Weight} (hkey : IsKey arity key weights)
  (value : Nat × Weight) (tag stamp : Nat) : (rows.store arity key weights value tag stamp).view arity rows.len =
   { cells := key, weights := paddedWeights arity weights, value := value, tag := tag } := by
 obtain ⟨-, -, hholds, -⟩ := store_spec h key weights value tag stamp
 rw [view, cell_store_value h, weight_store_value h, tag_store h, keyCells_of_holds hkey hholds]
 congr 1
 exact map_congr_left fun column hcol => (hholds column (mem_range.1 hcol)).2

/-! ## Stored weights stay stored -/

theorem weighted_setWeights (row : Nat) (weights : List Weight) (h : rows.weighted = true) :
  (rows.setWeights row weights).weighted = true := by
 rw [setWeights]
 generalize weights.zipIdx = entries
 induction entries generalizing rows with
 | nil => exact h
 | cons entry entries ih => exact ih (weighted_setWeight _ _ _ h)

theorem weighted_store (arity : Nat) (key : List Nat) (weights : List Weight) (value : Nat × Weight)
  (tag stamp : Nat) (h : rows.weighted = true) : (rows.store arity key weights value tag stamp).weighted = true := by
 rw [store]
 split
 · exact weighted_setWeight _ _ _ (weighted_setWeights _ _ h)
 · exact h

end Rows

namespace Table

/-! ## The scratch weights -/

/-- What keeps the scratch fresh: stored weights stay stored, and scratch is loaded from them only. -/
structure Loads (t t' : Table) : Prop where
 weighted : t.rows.weighted = true → t'.rows.weighted = true
 loaded : t'.rows.weighted = true ∨ t'.loaded = t.loaded

theorem Loads.refl (t : Table) : Loads t t :=
 ⟨id, .inr rfl⟩

theorem Loads.trans {t t' t'' : Table} (h : Loads t t') (h' : Loads t' t'') : Loads t t'' where
 weighted hwt := h'.weighted (h.weighted hwt)
 loaded := h'.loaded.elim .inl fun heq =>
  h.loaded.elim (fun hwt => .inl (h'.weighted hwt)) fun heq' => .inr (heq.trans heq')

theorem Loads.fresh {t t' : Table} (h : Loads t t') (hfresh : t.Fresh) : t'.Fresh := by
 rcases h.loaded with hwt | hloaded
 · exact .inl hwt
 · rcases hfresh with hwt | hzero
   · exact .inl (h.weighted hwt)
   · refine .inr ?_
     rw [hloaded]
     exact hzero

theorem Loads.congr {t t' t'' : Table} (h : Loads t t') (hrows : t''.rows = t'.rows)
  (hloaded : t''.loaded = t'.loaded) : Loads t t'' where
 weighted hwt := by
  rw [hrows]
  exact h.weighted hwt
 loaded := by
  rw [hrows, hloaded]
  exact h.loaded

theorem loads_loadKey (t : Table) (row : Nat) : Loads t (t.loadKey row) := by
 refine ⟨id, ?_⟩
 cases hwt : t.rows.weighted with
 | true => exact .inl hwt
 | false => exact .inr (if_neg (by rw [hwt]; exact nofun))

section Steps

variable {map : Rename} {stamp : Nat} {t t' : Table}

theorem loads_moveValue (row : Nat) : Loads t (moveValue map stamp t row) := by
 refine ⟨fun hwt => ?_, .inr rfl⟩
 rw [moveValue]
 cases map.shift (t.rows.cell t.arity row) with
 | none => exact hwt
 | some shifted => exact Rows.weighted_setWeight _ _ _ hwt

theorem loads_rekey (map : Rename) (stamp row : Nat) : Loads t (rekey map stamp t row) := by
 refine ⟨fun hwt => ?_, .inr rfl⟩
 have hcols : ∀ columns : List Nat, ∀ rows : Rows, rows.weighted = true →
   (columns.foldl (t.rekeyColumn map row) rows).weighted = true := by
  intro columns
  induction columns with
  | nil => exact fun _ h => h
  | cons column columns ih =>
   intro rows h
   refine ih _ ?_
   rw [rekeyColumn]
   split
   · exact h
   · split
     · exact h
     · split <;> exact Rows.weighted_setWeight _ _ _ h
 show (t.orderPair row _).weighted = true
 rw [orderPair]
 split
 · exact hcols _ _ hwt
 · simp only
   split
   · exact Rows.weighted_setWeight _ _ _ (Rows.weighted_setWeight _ _ _ (hcols _ _ hwt))
   · exact hcols _ _ hwt

theorem loads_dropEntry {row : Nat} (h : dropEntry t row = some t') : Loads t t' := by
 rw [dropEntry] at h
 split at h
 · obtain ⟨slot, -, rfl⟩ := map_eq_some_iff.1 h
   exact (loads_loadKey t row).congr rfl rfl
 grind [Loads.refl]

theorem loads_offer {σ : Type} (dissolve : Option (Dissolve σ)) (r : Repairing σ) (row : Nat) :
  Loads r.table (offer dissolve r row).table := by
 cases dissolve with
 | none => exact Loads.refl _
 | some dissolve =>
  have hload := loads_loadKey r.table row
  show Loads r.table (if _ then _ else _)
  split
  · exact hload.congr rfl rfl
  · exact hload

theorem loads_rekeyRow {σ : Type} {dissolve : Option (Dissolve σ)} {r r' : Repairing σ} {row : Nat}
  (h : rekeyRow map stamp dissolve r row = some r') : Loads r.table r'.table := by
 obtain ⟨t, hdrop, rfl⟩ := map_eq_some_iff.1 h
 have hboth := (loads_dropEntry hdrop).trans (loads_rekey map stamp row)
 refine hboth.trans ?_
 exact loads_offer dissolve ⟨rekey map stamp t row, _, r.state⟩ row

theorem loads_touch (row : Nat) (logged : List Nat) : Loads t (touch t row logged).1 := by
 rw [touch]
 split
 · exact Loads.refl t
 · exact ⟨id, .inr rfl⟩

theorem loads_placeMoved {p p' : Placing} {row : Nat} (h : placeMoved p row = some p') :
  Loads p.table p'.table := by
 rw [placeMoved] at h
 split at h
 · grind [Loads.refl]
 · obtain ⟨found, -, hfound⟩ := bind_eq_some_iff.1 h
   cases found with
   | some kept =>
    cases hfound
    exact (loads_loadKey p.table row).congr rfl rfl
   | none =>
    obtain ⟨index, -, rfl⟩ := map_eq_some_iff.1 hfound
    have hload := loads_loadKey p.table row
    have hidx : Loads (p.table.loadKey row) { p.table.loadKey row with index := index } := ⟨id, .inr rfl⟩
    exact (hload.trans hidx).trans (loads_touch row p.logged)

theorem loads_removeRow {row : Nat} (h : removeRow t row = some t') : Loads t t' := by
 obtain ⟨t1, hhand, rfl⟩ := map_eq_some_iff.1 h
 have hrest : Loads t t1 := by
  split at hhand
  · obtain ⟨slot, -, rfl⟩ := map_eq_some_iff.1 hhand
    have hload := loads_loadKey { t with marked := min t.marked row } (t.len - 1)
    exact ⟨hload.weighted, hload.loaded⟩
  · cases hhand
    exact ⟨id, .inr rfl⟩
 exact hrest.trans ⟨id, .inr rfl⟩

theorem loads_reserve {extra : Nat} (h : t.reserve extra = some t') : Loads t t' := by
 rw [reserve] at h
 split at h
 · grind [Loads.refl]
 · obtain ⟨index, -, rfl⟩ := map_eq_some_iff.1 h
   exact ⟨id, .inr rfl⟩

/-- A pass of steps each of which keeps the scratch fresh keeps it. -/
theorem loads_foldlM {α β : Type} (tableOf : β → Table) {step : β → α → Option β}
  (hstep : ∀ s x s', step s x = some s' → Loads (tableOf s) (tableOf s')) {xs : List α} {s s' : β}
  (h : xs.foldlM step s = some s') : Loads (tableOf s) (tableOf s') := by
 induction xs generalizing s with
 | nil =>
  grind [Loads.refl]
 | cons x xs ih =>
  rw [foldlM_cons] at h
  obtain ⟨s1, hfst, hrest⟩ := bind_eq_some_iff.1 h
  exact (hstep _ _ _ hfst).trans (ih hrest)

theorem loads_restore {report report' : Repair} {logged : List Nat}
  (h : restore t report logged = some (t', report')) : Loads t t' := by
 rw [restore] at h
 split at h
 · obtain ⟨t1, hreserve, hplaced⟩ := bind_eq_some_iff.1 h
   obtain ⟨p, hfold, heq⟩ := map_eq_some_iff.1 hplaced
   obtain ⟨rfl, -⟩ := Prod.mk.inj heq
   exact (loads_reserve hreserve).trans (loads_foldlM Placing.table (fun _ _ _ => loads_placeMoved) hfold)
 · obtain ⟨rfl, -⟩ := Prod.mk.inj (some.inj h)
   generalize t.moved = moved
   have htouches : ∀ rows : List Nat, ∀ acc : Table × List Nat,
     Loads acc.1 (rows.foldl (fun (acc : Table × List Nat) row => touch acc.1 row acc.2) acc).1 := by
    intro rows
    induction rows with
    | nil => exact fun acc => Loads.refl _
    | cons row rows ih => exact fun acc => (loads_touch row acc.2).trans (ih _)
   exact htouches moved (t, logged)

theorem loads_bury (h : bury t = some t') : Loads t t' := by
 obtain ⟨t1, hfold, rfl⟩ := map_eq_some_iff.1 h
 have hall := loads_foldlM id (fun _ _ _ => loads_removeRow) hfold
 exact ⟨hall.weighted, hall.loaded⟩

end Steps

/-- A repair keeps the scratch fresh. -/
theorem repair_fresh {t t' : Table} {map : Rename} {stamp : Nat} {σ : Type} {dissolve : Option (Dissolve σ)}
  {recent any : Bool} {report report' : Repair} {state state' : σ}
  (h : t.repair map stamp dissolve recent report state = some (t', report', state', any)) (hfresh : t.Fresh) :
  t'.Fresh := by
 obtain ⟨r, hkeys, hrest⟩ := bind_eq_some_iff.1 h
 obtain ⟨⟨t3, report3⟩, hrestore, hlast⟩ := bind_eq_some_iff.1 hrest
 obtain ⟨t4, hbury, heq⟩ := map_eq_some_iff.1 hlast
 obtain ⟨rfl, -⟩ := Prod.mk.inj heq
 have hvals : ∀ rows : List Nat, ∀ t : Table, Loads t (rows.foldl (moveValue map stamp) t) := by
  intro rows
  induction rows with
  | nil => exact Loads.refl
  | cons row rows ih => exact fun t => (loads_moveValue row).trans (ih _)
 have hmoved := hvals (t.selectMoved map [t.arity] (if recent then min t.marked t.len else 0))
  { t with moved := t.selectMoved map [t.arity] (if recent then min t.marked t.len else 0) }
 have hrekeyed := loads_foldlM Repairing.table (fun _ _ _ => loads_rekeyRow) hkeys
 have hrestored := loads_restore hrestore
 have hburied := loads_bury hbury
 have hall : Loads t t4 := by
  refine Loads.trans ⟨hmoved.weighted, hmoved.loaded⟩ (Loads.trans ?_ (hrestored.trans hburied))
  exact ⟨hrekeyed.weighted, hrekeyed.loaded⟩
 have hfresh' := hall.fresh hfresh
 have hclosed : ∀ (any : Bool) (start : Nat), (if any then closeLog stamp start t4 else t4).Fresh := by
  intro any start
  cases any with
  | false => exact hfresh'
  | true =>
   show (closeLog stamp start t4).Fresh
   rw [closeLog]
   split
   · exact hfresh'
   · exact hfresh'
 exact hclosed _ _

theorem new_fresh (layout : Layout) : (new layout).Fresh :=
 .inr fun _ hin => eq_of_mem_replicate hin

theorem insert_fresh {t t' : Table} {key : List Nat} {weights : List Weight} {value : Nat × Weight} {tag stamp row : Nat}
  (h : t.insert key weights value tag stamp = some (t', row)) (hfresh : t.Fresh) : t'.Fresh := by
 obtain ⟨t1, hreserve, hlast⟩ := bind_eq_some_iff.1 h
 obtain ⟨t2, hplace, heq⟩ := map_eq_some_iff.1 hlast
 obtain ⟨rfl, -⟩ := Prod.mk.inj heq
 have hreserved : Loads t t1 := by
  split at hreserve
  · exact loads_reserve hreserve
  grind [Loads.refl]
 have hstored : Loads t1 { t1 with rows := t1.rows.store t1.arity key weights value tag stamp } :=
  ⟨Rows.weighted_store _ _ _ _ _ _, .inr rfl⟩
 have hfresh' := (hreserved.trans hstored).fresh hfresh
 split at hplace
 · obtain ⟨index, -, rfl⟩ := map_eq_some_iff.1 hplace
   exact hfresh'
 · cases hplace
   exact hfresh'

end Table

end Tir.Relational
