import Tir.Basic.Passes
import Tir.Relational.TableIndex
import Tir.Relational.TableView

/-!
# Looking up and storing rows

`Keeps` says which rows of a table are in its index, and that no two of them share a key. A lookup
over it ends and finds the one row that holds a key (`Table.get_spec`); a rebuild of the index
(`Table.reserve_spec`), an insertion (`Table.insert_spec`) and a batch (`Table.probeOrInsert_spec`)
keep it, and leave the rows there were as they are.
-/

open List Nat

namespace Tir.Relational

open Rows RowView.SameCells

/-- The rows `inside` are in the index, with room for the walks to end, and each has a key of its own. -/
structure Keeps (arity : Nat) (keyed : Bool) (rows : Rows) (index : Index) (inside : Nat → Prop) : Prop where
 wf : rows.WF arity
 lt : ∀ row, inside row → row < rows.len
 indexed : keyed = true → Indexed (rows.rowHash arity) inside index
 room : keyed = true → index.used * 2 ≤ index.slots.length ∧ 0 < index.slots.length
 distinct : keyed = true → ∀ row other, inside row → inside other →
  (rows.view arity row).SameKey (rows.view arity other) → row = other

/-! ## Keys -/

namespace Rows

variable {arity : Nat} {rows : Rows}

variable {weights : List Weight}

theorem sameKey_of_holds {key : List Nat} {row other : Nat}
  (h : rows.Holds arity key weights row) (h' : rows.Holds arity key weights other) :
  (rows.view arity row).SameKey (rows.view arity other) := by
 constructor
 · exact map_congr_left fun column hcol =>
    (h column (mem_range.1 hcol)).1.trans (h' column (mem_range.1 hcol)).1.symm
 · exact map_congr_left fun column hcol =>
    (h column (mem_range.1 hcol)).2.trans (h' column (mem_range.1 hcol)).2.symm

theorem Holds.congr {rows' : Rows} {key : List Nat} {row row' : Nat} (h : rows.Holds arity key weights row)
  (hsame : (rows.view arity row).SameKey (rows'.view arity row')) : rows'.Holds arity key weights row' := by
 rw [holds_iff_view] at h ⊢
 rw [← hsame.1, ← hsame.2]
 exact h

end Rows

namespace Keeps

variable {arity : Nat} {keyed : Bool} {rows rows' : Rows} {index : Index} {inside inside' : Nat → Prop}

variable (h : Keeps arity keyed rows index inside)

include h

theorem used_lt (hkeyed : keyed = true) :
  index.used < index.slots.length := by
 obtain ⟨hused, hpos⟩ := h.room hkeyed
 omega

/-- Rows outside the index may change, and rows inside it as long as they keep their keys. -/
theorem congr (hrows : rows'.WF arity) (hlen : rows'.len = rows.len) (hinside : ∀ row, inside' row ↔ inside row)
  (hsame : ∀ row, inside row → (rows'.view arity row).SameKey (rows.view arity row)) :
  Keeps arity keyed rows' index inside' where
 wf := hrows
 lt := by
  intro row hin
  rw [hlen]
  exact h.lt row ((hinside row).1 hin)
 indexed := fun hkeyed => (h.indexed hkeyed).congr hinside fun row hin => rowHash_congr (hsame row hin)
 room := h.room
 distinct := by
  intro hkeyed row other hin hin' hkeys
  have hrow := (hinside row).1 hin
  have hother := (hinside other).1 hin'
  exact h.distinct hkeyed row other hrow hother (((hsame row hrow).symm.trans hkeys).trans (hsame other hother))

/-- A walk that compares keys ends at the row holding the key, or at an empty slot when none does. -/
theorem walk (hkeyed : keyed = true) {key : List Nat}
  {weights : List Weight} (hkey : Rows.IsKey arity key weights) (matched : Nat → Bool)
  (hmatched : ∀ row, matched row = true ↔ rows.Holds arity key weights row) :
  ∃ at' : Nat, index.walk (keyHash key weights) matched = some at' ∧
   (∀ row, index.rowAt at' = some row ↔ inside row ∧ rows.Holds arity key weights row) ∧
   (index.rowAt at' = none → index.slots[at']? = some Slot.empty ∧
    Reaches index.slots Slot.isEmpty (index.start (keyHash key weights)) at') := by
 obtain ⟨at', hwalk, ⟨row, hat, hin, -, hmatch⟩ | ⟨hat, hslot, hreach, hnone⟩⟩ :=
  (h.indexed hkeyed).walk (h.used_lt hkeyed) (keyHash key weights) matched
 · refine ⟨at', hwalk, fun other => ?_, fun hno => ?_⟩
   · have hholds := (hmatched row).1 hmatch
     rw [hat, Option.some.injEq]
     constructor
     · grind
     · rintro ⟨hin', hholds'⟩
       exact h.distinct hkeyed row other hin hin' (sameKey_of_holds hholds hholds')
   grind
 grind [rowHash_of_holds]

/-- A row outside the index whose key no row inside has goes in. -/
theorem insert {row : Nat} {index' : Index} (hrow : row < rows.len)
  (hidx : keyed = true → Indexed (rows.rowHash arity) (fun other => inside other ∨ other = row) index')
  (hroom : keyed = true → index'.used * 2 ≤ index'.slots.length ∧ 0 < index'.slots.length)
  (hnew : keyed = true → ∀ other, inside other → ¬ (rows.view arity other).SameKey (rows.view arity row)) :
  Keeps arity keyed rows index' (fun other => inside other ∨ other = row) where
 wf := h.wf
 lt := by
  rintro other (hin | rfl)
  · exact h.lt other hin
  · exact hrow
 indexed := hidx
 room := hroom
 distinct := by
  rintro hkeyed one two (hone | rfl) (htwo | rfl) hsame
  · exact h.distinct hkeyed one two hone htwo hsame
  · exact absurd hsame (hnew hkeyed one hone)
  · exact absurd hsame.symm (hnew hkeyed two htwo)
  · rfl

end Keeps

/-! ## Rebuilding the index -/

/-- Placing rows outside the index one after the other puts them all in. -/
theorem Indexed.placeAll {hash : Nat → BitVec 32} {inside : Nat → Prop} {index : Index}
  (h : Indexed hash inside index) (rows : List Nat) (hnd : rows.Nodup)
  (hnew : ∀ row ∈ rows, ¬ inside row) (hroom : index.used + rows.length ≤ index.slots.length) :
  ∃ index', rows.foldlM (fun index row => index.place row (hash row)) index = some index' ∧
   Indexed hash (fun row => inside row ∨ row ∈ rows) index' ∧
   index'.slots.length = index.slots.length ∧ index'.used ≤ index.used + rows.length := by
 refine foldlM_pass (fun (index : Index) row => index.place row (hash row))
  (fun pre index' => Indexed hash (fun row => inside row ∨ row ∈ pre) index' ∧
   index'.slots.length = index.slots.length ∧ index'.used ≤ index.used + pre.length) ?_ ?_
 · rintro pre row rest index' rfl ⟨hindexed, hslots, hused⟩
   have hmem : row ∈ pre ++ row :: rest := List.mem_append_right _ (.head _)
   have hpre : row ∉ pre := fun hin =>
    (List.nodup_append.1 hnd).2.2 row hin row List.mem_cons_self rfl
   rw [List.length_append, List.length_cons] at hroom
   obtain ⟨index'', hplace, hindexed', hslots', hused'⟩ := hindexed.place (by omega) row (by
    rintro (hin | hin)
    · exact hnew row hmem hin
    · exact hpre hin)
   refine ⟨index'', hplace, hindexed'.congr (fun other => ?_) fun _ _ => rfl, hslots'.trans hslots, ?_⟩
   · rw [List.mem_append, List.mem_singleton, or_assoc]
   grind
 · exact ⟨h.congr (fun row => by simp) fun _ _ => rfl, rfl, le_rfl⟩

namespace Table

theorem skip_eq_filter {rows moved : List Nat} (hmoved : moved.Sublist rows) (hnd : rows.Nodup) :
  skip rows moved = rows.filter (· ∉ moved) := by
 induction rows generalizing moved with
 | nil => rfl
 | cons row rows ih =>
  obtain ⟨hrow, hrest⟩ := nodup_cons.1 hnd
  cases moved with
  | nil =>
   rw [skip, ih (nil_sublist rows) hrest, filter_cons_of_pos (by simp)]
  | cons first moved =>
   rw [skip]
   split
   · rename_i heq
     subst heq
     have hsub : moved.Sublist rows := cons_sublist_cons.1 hmoved
     rw [ih hsub hrest, filter_cons_of_neg (by simp)]
     apply filter_congr
     grind
   · rename_i hne
     grind

variable {t : Table}

/-- Making room keeps the rows of the index, and there is room for the extra rows. -/
theorem reserve_spec (hmoved : t.moved.Sublist (List.range t.len))
  (h : Keeps t.arity t.keyed t.rows t.index fun row => row < t.len ∧ row ∉ t.moved) (extra : Nat) :
  ∃ index', t.reserve extra = some { t with index := index' } ∧
   (Keeps t.arity t.keyed t.rows index' fun row => row < t.len ∧ row ∉ t.moved) ∧
   (index'.used + extra) * 2 ≤ index'.slots.length := by
 rw [reserve]
 split
 · grind
 · -- a fresh index, and every row of the table but the moved ones placed again
   have hsize : (t.len + extra) * 4 ≤ max (nextPowerOfTwo ((t.len + extra) * 4)) 8 :=
    (le_pow_clog (by decide) _).trans (le_max_left _ _)
   have hpos : 8 ≤ max (nextPowerOfTwo ((t.len + extra) * 4)) 8 := le_max_right _ _
   generalize max (nextPowerOfTwo ((t.len + extra) * 4)) 8 = size at hsize hpos ⊢
   obtain ⟨index', hplace, hindexed, hslots, hused⟩ :=
    (Indexed.empty (t.rowHash) size).placeAll ((List.range t.len).filter (· ∉ t.moved))
     (nodup_range.filter _) (fun _ _ => id) (by
      grind)
   rw [length_replicate] at hslots
   have hroom : index'.used + extra ≤ t.len + extra := by
    grind
   refine ⟨index', ?_, ⟨h.wf, h.lt, fun _ => ?_, fun _ => ?_, h.distinct⟩, ?_⟩
   · grind [skip_eq_filter]
   · refine hindexed.congr (fun row => ?_) fun _ _ => rfl
     simp
   · omega
   · omega

/-! ## Lookup -/

/-- A lookup in a keyed table ends, and finds the row of the index that holds the key, if there is one. -/
theorem get_spec {inside : Nat → Prop} (h : Keeps t.arity t.keyed t.rows t.index inside)
  (hkeyed : t.keyed = true) {key : List Nat} {weights : List Weight} (hkey : Rows.IsKey t.arity key weights) :
  ∃ found, t.get key weights = some found ∧
   ∀ row, found = some row ↔ inside row ∧ t.rows.Holds t.arity key weights row := by
 obtain ⟨at', hwalk, hat, -⟩ := h.walk hkeyed hkey _ fun row => rowMatches_iff h.wf
 refine ⟨t.index.rowAt at', ?_, hat⟩
 rw [get, if_pos hkeyed, hwalk]
 rfl

end Table

/-! ## Appending a row -/

namespace Rows

variable {arity : Nat} {rows : Rows}

/-- A row pushed with its weights holds its key, and the rows before it stay as they are. -/
theorem stored (h : rows.WF arity) (key : List Nat) (weights : List Weight) (value tag stamp : Nat) :
  let after := (rows.push arity key value tag stamp).setWeights rows.len weights
  after.WF arity ∧ after.len = rows.len + 1 ∧ after.Holds arity key weights rows.len ∧
   ∀ row, row < rows.len → after.view arity row = rows.view arity row := by
 have hpush := h.push key value tag stamp
 have hlt : rows.len < (rows.push arity key value tag stamp).len := by
  simp_all
 refine ⟨hpush.setWeights hlt weights, (len_setWeights hpush hlt weights).trans (len_push _ _ _ _),
  fun column hcol => ⟨?_, ?_⟩, fun row hrow => ?_⟩
 · rw [cell_setWeights hpush hlt, cell_push_key h key value tag stamp hcol]
 · rw [weight_setWeights hpush hlt, weight_push_new h]
   split
   · rfl
   grind
 · rw [← view_push_old h key value tag stamp hrow]
   refine view_congr (fun column _ => cell_setWeights hpush hlt weights column row) (fun column _ => ?_) ?_
   · rw [weight_setWeights hpush hlt, if_neg fun hand => Nat.ne_of_lt hrow hand.1]
   · rw [tag_setWeights hpush hlt]

end Rows

namespace Keeps

variable {arity : Nat} {keyed : Bool} {rows rows' : Rows} {index index' : Index}

variable (h : Keeps arity keyed rows index fun row => row < rows.len)

include h

/-- The index of the rows there were serves the rows after one is appended. -/
theorem rehash (hkeyed : keyed = true) (hold : ∀ row, row < rows.len → rows'.view arity row = rows.view arity row) :
  Indexed (rows'.rowHash arity) (fun row => row < rows.len) index := by
 refine (h.indexed hkeyed).congr (fun _ => Iff.rfl) fun row hrow => rowHash_congr ?_
 rw [hold row hrow]
 exact ⟨rfl, rfl⟩

/-- A row with a new key goes to the end of a table whose rows are all in the index. -/
theorem append (hrows : rows'.WF arity) (hlen : rows'.len = rows.len + 1)
  (hold : ∀ row, row < rows.len → rows'.view arity row = rows.view arity row) {key : List Nat}
  {weights : List Weight} (hholds : rows'.Holds arity key weights rows.len)
  (habsent : keyed = true → ∀ row, row < rows.len → ¬ rows.Holds arity key weights row) (hidx : keyed = true →
   Indexed (rows'.rowHash arity) (fun row => row < rows.len ∨ row = rows.len) index')
  (hroom : keyed = true → index'.used * 2 ≤ index'.slots.length ∧ 0 < index'.slots.length) :
  Keeps arity keyed rows' index' fun row => row < rows'.len := by
 have hsame : ∀ row, row < rows.len → (rows'.view arity row).SameKey (rows.view arity row) := by
  intro row hrow
  rw [hold row hrow]
  exact ⟨rfl, rfl⟩
 have hiff : ∀ row, row < rows'.len ↔ row < rows.len ∨ row = rows.len := by
  intro row
  omega
 refine ⟨hrows, fun _ => id, fun hkeyed => (hidx hkeyed).congr hiff fun _ _ => rfl, hroom,
  fun hkeyed row other hrow hother hkeys => ?_⟩
 -- the new row shares its key with none of the old ones
 have hnew : ∀ row, row < rows.len → ¬ (rows'.view arity rows.len).SameKey (rows'.view arity row) := by
  intro row hrow hkeys
  exact habsent hkeyed row hrow (hholds.congr (hkeys.trans (hsame row hrow)))
 rcases (hiff row).1 hrow with hrow | rfl
 · rcases (hiff other).1 hother with hother | rfl
   · exact h.distinct hkeyed row other hrow hother
      (((hsame row hrow).symm.trans hkeys).trans (hsame other hother))
   · exact absurd hkeys.symm (hnew row hrow)
 grind

end Keeps

namespace Rows

variable {arity : Nat} {rows : Rows}

theorem store_spec (h : rows.WF arity) (key : List Nat) (weights : List Weight) (value : Nat × Weight)
  (tag stamp : Nat) :
  let after := rows.store arity key weights value tag stamp
  after.WF arity ∧ after.len = rows.len + 1 ∧ after.Holds arity key weights rows.len ∧
   ∀ row, row < rows.len → after.view arity row = rows.view arity row := by
 obtain ⟨hwf, hlen, hholds, hold⟩ := stored h key weights value.1 tag stamp
 intro after
 by_cases hsome : weights ≠ [] ∨ value.2 ≠ 0
 · have hafter : after = ((rows.push arity key value.1 tag stamp).setWeights rows.len weights).setWeight
     arity rows.len value.2 := if_pos hsome
   rw [hafter]
   refine ⟨hwf.setWeight _ _ _, (len_setWeight _ _ _).trans hlen, fun column hcol => ?_,
    fun row hrow => ?_⟩
   · rw [cell_setWeight, weight_setWeight_other _ _ _ _ _ (Or.inl (Nat.ne_of_lt hcol))]
     exact hholds column hcol
   grind [view_setWeight_other]
 · have hafter : after = rows.push arity key value.1 tag stamp := if_neg hsome
   rw [hafter]
   obtain rfl : weights = [] := by
    grind
   exact ⟨hwf, hlen, hholds, hold⟩

end Rows

namespace Table

variable {t : Table}

/-- A table at rest makes room for the rows it is about to store. -/
theorem room_spec (hmoved : t.moved = []) (extra : Nat)
  (h : Keeps t.arity t.keyed t.rows t.index fun row => row < t.len) :
  ∃ index', (if t.keyed then t.reserve extra else some t) = some { t with index := index' } ∧
   (Keeps t.arity t.keyed t.rows index' fun row => row < t.len) ∧
   (t.keyed = true → (index'.used + extra) * 2 ≤ index'.slots.length) := by
 have hiff : ∀ row, (row < t.len ∧ row ∉ t.moved) ↔ row < t.len := by
  intro row
  rw [hmoved]
  simp
 have hsub : t.moved.Sublist (List.range t.len) := by
  grind
 split
 · rename_i hkeyed
   obtain ⟨index', hreserve, hkeeps, hroom⟩ := reserve_spec hsub
    (h.congr h.wf rfl hiff fun _ _ => ⟨rfl, rfl⟩) extra
   grind
 grind

/-- What storing rows leaves of a table: the log of its repairs, and the rows there were. -/
structure Grows (t t' : Table) : Prop where
 layout : t'.toLayout = t.toLayout
 version : t.version ≤ t'.version
 touched : t'.touched = t.touched
 repairs : t'.repairs = t.repairs
 floor : t'.floor = t.floor
 loaded : t'.loaded = t.loaded
 moved : t'.moved = t.moved
 dead : t'.dead = t.dead
 len : t.len ≤ t'.len
 cells : ∀ row, row < t.len → (t'.rows.view t.arity row).SameCells (t.rows.view t.arity row)

def Whole (t : Table) : Prop :=
 Keeps t.arity t.keyed t.rows t.index fun row => row < t.len

variable {key : List Nat} {weights : List Weight}

/-- Inserting an absent key ends, and adds one row that holds it. -/
theorem insert_spec (hmoved : t.moved = []) (h : t.Whole) (hkey : Rows.IsKey t.arity key weights)
  (habsent : t.keyed = true → ∀ row, row < t.len → ¬ t.rows.Holds t.arity key weights row)
  (value : Nat × Weight) (tag stamp : Nat) :
  ∃ t', t.insert key weights value tag stamp = some (t', t.len) ∧ t'.Whole ∧ Grows t t' ∧
   t'.len = t.len + 1 ∧ t'.rows.Holds t.arity key weights t.len ∧
   t'.rows = t.rows.store t.arity key weights value tag stamp ∧ t'.marked = t.marked := by
 obtain ⟨reserved, hreserve, hkeeps, hroom⟩ := room_spec hmoved 1 h
 obtain ⟨hwf, hlen, hholds, hold⟩ := store_spec h.wf key weights value tag stamp
 have hlen' : t.len ≤ (t.rows.store t.arity key weights value tag stamp).len := by
  rw [hlen]
  exact le_succ _
 have hcells : ∀ row, row < t.len → ((t.rows.store t.arity key weights value tag stamp).view t.arity row).SameCells
   (t.rows.view t.arity row) := by
  intro row hrow
  rw [hold row hrow]
  exact refl _
 by_cases hkeyed : t.keyed = true
 · have hroom' := hroom hkeyed
   have hhash := rowHash_of_holds hkey hholds
   obtain ⟨index', hplace, hindexed, hslots, hused⟩ := (hkeeps.rehash hkeyed hold).place (by omega) t.len
    (lt_irrefl _)
   have hplace' : reserved.place t.len (keyHash key weights) = some index' := by
    rw [← hhash]
    exact hplace
   have hroom'' : index'.used * 2 ≤ index'.slots.length ∧ 0 < index'.slots.length := by omega
   refine ⟨{ t with rows := t.rows.store t.arity key weights value tag stamp, index := index',
                    stamped := max t.stamped stamp, version := t.version + 1 }, ?_,
    hkeeps.append hwf hlen hold hholds habsent (fun _ => hindexed) fun _ => hroom'',
    ⟨rfl, le_succ _, rfl, rfl, rfl, rfl, rfl, rfl, hlen', hcells⟩, hlen, hholds, rfl, rfl⟩
   rw [insert, hreserve, Option.bind_some]
   show Option.map _ (if t.keyed = true then Option.map _ (reserved.place t.len (keyHash key weights)) else _) = _
   rw [if_pos hkeyed, hplace']
   rfl
 · refine ⟨{ t with rows := t.rows.store t.arity key weights value tag stamp, index := reserved,
                    stamped := max t.stamped stamp, version := t.version + 1 }, ?_,
    hkeeps.append hwf hlen hold hholds habsent (fun hyes => absurd hyes hkeyed)
     (fun hyes => absurd hyes hkeyed),
    ⟨rfl, le_succ _, rfl, rfl, rfl, rfl, rfl, rfl, hlen', hcells⟩, hlen, hholds, rfl, rfl⟩
   rw [insert, hreserve, Option.bind_some]
   grind

/-! ## Storing a batch -/

theorem Grows.refl (t : Table) : Grows t t :=
 ⟨rfl, le_rfl, rfl, rfl, rfl, rfl, rfl, rfl, le_rfl, fun _ _ => RowView.SameCells.refl _⟩

theorem Grows.trans {t' t'' : Table} (h : Grows t t') (h' : Grows t' t'') : Grows t t'' where
 layout := h'.layout.trans h.layout
 version := h.version.trans h'.version
 touched := h'.touched.trans h.touched
 repairs := h'.repairs.trans h.repairs
 floor := h'.floor.trans h.floor
 loaded := h'.loaded.trans h.loaded
 moved := h'.moved.trans h.moved
 dead := h'.dead.trans h.dead
 len := h.len.trans h'.len
 cells := by
  intro row hrow
  have hcells := h'.cells row (hrow.trans_le h.len)
  rw [show t'.arity = t.arity from congrArg Layout.arity h.layout] at hcells
  exact hcells.trans (h.cells row hrow)

/-- A key no row holds is stored in the slot its walk ended at. -/
theorem storeKey_spec {b : Batch} (values : Values) (tag stamp : Nat) (at' : Nat) {free : Option Nat} {extra : Nat} (h : b.table.Whole)
  (hkey : Rows.IsKey b.table.arity key weights) (habsent : b.table.keyed = true → ∀ row, row < b.table.len →
   ¬ b.table.rows.Holds b.table.arity key weights row) (hfree : b.table.keyed = true → ∃ free', free = some free' ∧
   b.table.index.slots[free']? = some Slot.empty ∧
   Reaches b.table.index.slots Slot.isEmpty (b.table.index.start (keyHash key weights)) free')
  (hroom : b.table.keyed = true → (b.table.index.used + (extra + 1)) * 2 ≤ b.table.index.slots.length) :
  let after := (storeKey values tag stamp b ((key, weights), at') free).table
  after.Whole ∧ (after.keyed = true → (after.index.used + extra) * 2 ≤ after.index.slots.length) ∧
   Grows b.table after := by
 obtain ⟨hwf, hlen, hholds, hold⟩ := stored h.wf key weights (values.at at' b.stored) (tag + b.stored) stamp
 have hhash := rowHash_of_holds hkey hholds
 intro after
 have hgrows : Grows b.table after := by
  refine ⟨rfl, le_rfl, rfl, rfl, rfl, rfl, rfl, rfl, ?_, fun row hrow => ?_⟩
  · have hafter : after.len = b.table.rows.len + 1 := hlen
    rw [hafter]
    exact le_succ _
  · have hview : after.rows.view b.table.arity row = _ := hold row hrow
    rw [hview]
    exact refl _
 by_cases hkeyed : b.table.keyed = true
 · obtain ⟨free', rfl, hslot, hreach⟩ := hfree hkeyed
   have hfill : after.index = b.table.index.fill free' (keyHash key weights) b.table.len := by
    show Index.mk _ _ = Index.mk _ _
    rw [hslot]
    rfl
   have hindexed := (h.rehash hkeyed hold).fill b.table.rows.len (lt_irrefl _) hslot rfl
    (by rw [hhash]; exact hreach)
   rw [hhash] at hindexed
   have hroom' := hroom hkeyed
   have hused : after.index.used = b.table.index.used + 1 := rfl
   have hslots : after.index.slots.length = b.table.index.slots.length := length_set
   refine ⟨h.append hwf hlen hold hholds habsent (fun _ => ?_) fun _ => ⟨by omega, by omega⟩,
    fun _ => by omega, hgrows⟩
   rw [hfill]
   exact hindexed
 · exact ⟨h.append hwf hlen hold hholds habsent (fun hyes => absurd hyes hkeyed)
    (fun hyes => absurd hyes hkeyed), fun hyes => absurd hyes hkeyed, hgrows⟩

/-- A key of a batch is found, or stored. -/
theorem storeStep_spec {b : Batch} (values : Values) (tag stamp : Nat) (at' extra : Nat) (h : b.table.Whole)
  (hkey : Rows.IsKey b.table.arity key weights)
  (hroom : b.table.keyed = true → (b.table.index.used + (extra + 1)) * 2 ≤ b.table.index.slots.length) :
  ∃ b', storeStep values tag stamp b ((key, weights), at') = some b' ∧ b'.table.Whole ∧
   (b'.table.keyed = true → (b'.table.index.used + extra) * 2 ≤ b'.table.index.slots.length) ∧
   Grows b.table b'.table := by
 rw [storeStep]
 by_cases hkeyed : b.table.keyed = true
 · simp only
   rw [if_pos hkeyed]
   obtain ⟨slot, hwalk, hat, hempty⟩ := h.walk hkeyed hkey
    (b.table.rows.holdsKey b.table.arity key weights) fun row => holdsKey_iff
   rw [hwalk, Option.map_some]
   cases hfound : b.table.index.rowAt slot with
   | some row =>
    grind [Grows.refl]
   | none =>
    refine ⟨_, rfl, storeKey_spec values tag stamp at' h hkey (fun _ row hrow hholds => ?_)
     (fun _ => ⟨slot, rfl, hempty hfound⟩) hroom⟩
    grind
 grind [storeKey_spec]

/-- A batch ends, and its table keeps the rows there were. -/
theorem probeOrInsert_spec (hmoved : t.moved = []) (h : t.Whole) {keys : List (List Nat × List Weight)}
  (hkeys : ∀ entry ∈ keys, Rows.IsKey t.arity entry.1 entry.2) (values : Values) (tag stamp : Nat) :
  ∃ t' found, t.probeOrInsert keys values tag stamp = some (t', found) ∧ t'.Whole ∧ Grows t t' := by
 obtain ⟨reserved, hreserve, hkeeps, hroom⟩ := room_spec hmoved keys.length h
 obtain ⟨b, hb, hwhole, -, hgrows⟩ := foldlM_pass (storeStep values tag stamp)
  (fun pre b => b.table.Whole ∧ (b.table.keyed = true →
   (b.table.index.used + (keys.length - pre.length)) * 2 ≤ b.table.index.slots.length) ∧ Grows t b.table)
  (l := keys.zipIdx) (s := ⟨{ t with index := reserved }, 0, []⟩) (by
   rintro pre ⟨⟨key, weights⟩, at'⟩ rest b hsplit ⟨hwhole, hroom', hgrows⟩
   have hmem : ((key, weights), at') ∈ keys.zipIdx := by
    grind
   have hlength : keys.length = pre.length + (rest.length + 1) := by
    rw [← length_zipIdx (l := keys), hsplit, length_append, length_cons]
   have hkey := hkeys (key, weights) (fst_mem_of_mem_zipIdx hmem)
   have harity : b.table.arity = t.arity := congrArg Layout.arity hgrows.layout
   obtain ⟨b', hb', hwhole', hroom'', hgrows'⟩ := storeStep_spec values tag stamp at'
    rest.length hwhole (by rw [harity]; exact hkey) (fun hkeyed => by
     grind)
   refine ⟨b', hb', hwhole', fun hkeyed => ?_, hgrows.trans hgrows'⟩
   grind)
  ⟨hkeeps, hroom, rfl, le_rfl, rfl, rfl, rfl, rfl, rfl, rfl, le_rfl,
   fun _ _ => refl _⟩
 rw [probeOrInsert, hreserve, Option.bind_some, hb, Option.map_some]
 split
 · exact ⟨_, _, rfl, hwhole, hgrows.trans
    ⟨rfl, le_succ _, rfl, rfl, rfl, rfl, rfl, rfl, le_rfl, fun _ _ => refl _⟩⟩
 · exact ⟨_, _, rfl, hwhole, hgrows⟩

end Table

end Tir.Relational
