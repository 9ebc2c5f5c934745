import Tir.Relational.TableRekey

/-!
# Putting the moved rows back

The second half of `Table.repair`: the moved rows that were not dissolved go back into the index, or
are reported under the row that already holds their key (`Table.restore_spec`), and the rows that are
dead are removed, the last row filling each hole (`Table.bury_spec`).
-/

open List Option

namespace Tir.Relational.Table

open Table Rows

variable {t : Table}

/-- A collision reports the row that goes, under the row with its key that stays. -/
def Reports (view : Nat → RowView) (stays : Nat → Prop) (row : Nat) (collision : Collision) : Prop :=
 ∃ kept, stays kept ∧ (view kept).SameKey (view row) ∧
  collision = ⟨(view kept).value, (view row).value, (view row).tag⟩

variable {row : Nat}

theorem Reports.mono {view : Nat → RowView} {stays stays' : Nat → Prop} {collision : Collision}
  (h : Reports view stays row collision) (hstays : ∀ kept, stays kept → stays' kept) :
  Reports view stays' row collision := by
 obtain ⟨kept, hkept, hsame, hcollision⟩ := h
 exact ⟨kept, hstays kept hkept, hsame, hcollision⟩

/-! ## The change log of one repair -/

/-- A row is logged, by its value move or now. -/
theorem touch_spec (t : Table) (row : Nat) (logged : List Nat) :
  ∃ noted, (touch t row logged).1 = { t with touched := t.touched ++ noted } ∧
   (∀ other ∈ noted, other = row) ∧ (∀ other ∈ (touch t row logged).2, other ∈ logged) ∧
   (row ∈ noted ∨ row ∈ logged) := by
 have hsub : ∀ other ∈ logged.dropWhile (· < row), other ∈ logged := fun other hin =>
  (dropWhile_sublist _).subset hin
 rw [touch]
 split
 · rename_i hhead
   refine ⟨[], by simp, nofun, hsub, .inr (hsub row ?_)⟩
   exact mem_of_head? hhead
 · exact ⟨[row], rfl, fun other hin => mem_singleton.1 hin, hsub, .inl (.head _)⟩

/-! ## Placing the rows -/

/-- `row` is in the index once the moved rows `done` are back but for those in `gone`. -/
def Back (m : Table) (done gone : List Nat) (row : Nat) : Prop :=
 row < m.len ∧ (row ∈ m.moved → row ∈ done) ∧ row ∉ m.dead ++ gone

/-- The table a repair works on while it places rows. -/
abbrev working (m : Table) (index : Index) (key : List Nat) (loaded : List Weight) (noted gone : List Nat) : Table :=
 { m with
   index := index
   key := key
   loaded := loaded
   touched := m.touched ++ noted
   dead := m.dead ++ gone }

/-- The rows `done` of the moved ones are back in the index, or gone with a collision `found`. -/
structure Placed (m : Table) (report : Repair) (values done : List Nat) (p : Placing)
  (gone : List Nat) (found : List Collision) (noted : List Nat) : Prop where
 table : ∃ index key loaded, p.table = m.working index key loaded noted gone
 loaded : p.table.loaded.length = m.arity
 report : p.report = { report with collisions := report.collisions ++ found }
 keeps : Keeps m.arity m.keyed m.rows p.table.index (Back m done gone)
 room : (p.table.index.used + (m.moved.length - done.length)) * 2 ≤ p.table.index.slots.length
 dissolved : ∃ passed, m.dead = passed ++ p.dissolved ∧ passed ⊆ done ∧
  ∀ rest, m.moved = done ++ rest → p.dissolved.Sublist rest
 sub : gone.Sublist done ∧ ∀ row ∈ gone, row ∉ m.dead
 reported : Forall₂ (Reports (m.rows.view m.arity) (Back m done gone)) gone found
 within : ∀ row ∈ noted, row ∈ done
 logged : ∀ row ∈ p.logged, row ∈ values
 covered : ∀ row ∈ done, row ∉ m.dead ++ gone → row ∈ noted ∨ row ∈ values

section Placing

variable {m : Table} {report : Repair} {values done : List Nat} {p : Placing} {gone : List Nat}
 {found : List Collision} {noted : List Nat} {row : Nat} {rest : List Nat}

/-- What is known of the next row to place. -/
structure Next (m : Table) (done : List Nat) (row : Nat) (rest : List Nat) : Prop where
 split : m.moved = done ++ row :: rest
 lt : row < m.len
 notDone : row ∉ done
 notRest : row ∉ rest

theorem Next.mem (h : Next m done row rest) : row ∈ m.moved := by
 rw [h.split]
 exact mem_append_right _ (.head _)

theorem mem_done {other : Nat} (hne : other ≠ row) : other ∈ done ++ [row] ↔ other ∈ done := by
 simp [hne]

theorem Next.rest_eq (h : Next m done row rest) {rest' : List Nat}
  (hsplit : m.moved = (done ++ [row]) ++ rest') : rest' = rest := by
 rw [append_assoc, h.split] at hsplit
 exact (List.cons.inj (append_cancel_left hsplit)).2.symm

theorem Next.length (h : Next m done row rest) :
  m.moved.length - done.length = m.moved.length - (done ++ [row]).length + 1 := by
 rw [h.split, length_append, length_append, length_cons, length_singleton]
 omega

section

variable (h : Placed m report values done p gone found noted) (hnext : Next m done row rest)

include h hnext

/-- A dissolved row stays out. -/
theorem Placed.skip (hhead : p.dissolved.head? = some row) :
  Placed m report values (done ++ [row]) { p with dissolved := p.dissolved.tail } gone found noted := by
 obtain ⟨passed, hdead, hpassed, hahead⟩ := h.dissolved
 obtain ⟨dissolved, hcons⟩ : ∃ dissolved, p.dissolved = row :: dissolved :=
  ⟨p.dissolved.tail, (eq_cons_of_mem_head? hhead)⟩
 rw [hcons] at hdead hahead
 have hdeadRow : row ∈ m.dead ++ gone := by
  grind
 have hback : ∀ other, Back m (done ++ [row]) gone other ↔ Back m done gone other := by
  intro other
  rcases eq_or_ne other row with rfl | hne
  · exact ⟨fun hback => absurd hdeadRow hback.2.2, fun hback => absurd hdeadRow hback.2.2⟩
  · rw [Back, Back, mem_done hne]
 have hroom := h.room
 refine ⟨h.table, h.loaded, h.report, h.keeps.congr h.keeps.wf rfl hback fun _ _ => ⟨rfl, rfl⟩, ?_,
  ⟨passed ++ [row], ?_, ?_, ?_⟩, ⟨h.sub.1.trans (sublist_append_left _ _), h.sub.2⟩,
  h.reported.imp fun _ _ hreports => hreports.mono fun other => (hback other).2,
  fun other hin => mem_append_left _ (h.within other hin), h.logged, fun other hin hstays => ?_⟩
 · grind
 · grind
 · grind
 · grind
 · rcases mem_append.1 hin with hin | hin
   · exact h.covered other hin hstays
   grind

/-- The dissolved rows still to pass, when the next row is not the first of them. -/
theorem Placed.live (hhead : p.dissolved.head? ≠ some row) :
  row ∉ m.dead ∧ ∃ passed, m.dead = passed ++ p.dissolved ∧ passed ⊆ done ++ [row] ∧
   ∀ rest', m.moved = (done ++ [row]) ++ rest' → p.dissolved.Sublist rest' := by
 obtain ⟨passed, hdead, hpassed, hahead⟩ := h.dissolved
 have hsub : p.dissolved.Sublist rest := by
  have hboth := hahead _ hnext.split
  grind
 refine ⟨?_, passed, hdead, Subset.trans hpassed (subset_append_left _ _), fun rest' hsplit' => ?_⟩
 · rw [hdead, mem_append]
   rintro (hin | hin)
   · exact hnext.notDone (hpassed hin)
   · exact hnext.notRest (hsub.subset hin)
 · rw [hnext.rest_eq hsplit']
   exact hsub

end

variable {loaded : List Weight}

variable (h : Placed m report values done p gone found noted)

include h

/-- A row whose key is back already is gone, with a collision. -/
theorem Placed.collide (hnext : Next m done row rest)
  (hhead : p.dissolved.head? ≠ some row) {kept : Nat} (hkept : Back m done gone kept)
  (hsame : (m.rows.view m.arity kept).SameKey (m.rows.view m.arity row)) (key : List Nat) (hloaded : loaded.length = m.arity) :
  let collision : Collision :=
   ⟨(m.rows.view m.arity kept).value, (m.rows.view m.arity row).value, (m.rows.view m.arity row).tag⟩
  Placed m report values (done ++ [row])
   ⟨m.working p.table.index key loaded noted (gone ++ [row]),
    { report with collisions := report.collisions ++ (found ++ [collision]) }, p.dissolved, p.logged⟩
   (gone ++ [row]) (found ++ [collision]) noted := by
 obtain ⟨hlive, hahead⟩ := h.live hnext hhead
 have hback : ∀ other, Back m (done ++ [row]) (gone ++ [row]) other ↔ Back m done gone other := by
  intro other
  rcases eq_or_ne other row with rfl | hne
  · constructor
    · exact fun hback => absurd (by simp) hback.2.2
    · exact fun hback => absurd (hback.2.1 hnext.mem) hnext.notDone
  · rw [Back, Back, mem_done hne]
    simp [hne]
 have hroom := h.room
 refine ⟨⟨_, _, _, rfl⟩, hloaded, rfl, h.keeps.congr h.keeps.wf rfl hback fun _ _ => ⟨rfl, rfl⟩, ?_, hahead,
  ⟨h.sub.1.append (Sublist.refl _), fun other hin => ?_⟩, ?_,
  fun other hin => mem_append_left _ (h.within other hin), h.logged, fun other hin hstays => ?_⟩
 · grind
 · rcases mem_append.1 hin with hin | hin
   · exact h.sub.2 other hin
   grind
 · refine rel_append (h.reported.imp fun _ _ hreports => hreports.mono fun other => (hback other).2)
    (Forall₂.cons ⟨kept, (hback kept).2 hkept, hsame, rfl⟩ Forall₂.nil)
 · rcases mem_append.1 hin with hin | hin
   · refine h.covered other hin fun hgone => hstays ?_
     grind
   grind

/-- A row whose key is not back yet goes into the index, and is logged. -/
theorem Placed.place (hkeyed : m.keyed = true) (hnext : Next m done row rest) (hhead : p.dissolved.head? ≠ some row)
  (hnew : ∀ other, Back m done gone other →
   ¬ (m.rows.view m.arity other).SameKey (m.rows.view m.arity row)) (key : List Nat) (hloaded : loaded.length = m.arity) {more logged : List Nat}
  (hmore : ∀ other ∈ more, other = row) (hlogged : ∀ other ∈ logged, other ∈ p.logged)
  (hcovered : row ∈ more ∨ row ∈ p.logged) :
  ∃ index', p.table.index.place row (m.rows.rowHash m.arity row) = some index' ∧ Placed m report values (done ++ [row])
    ⟨m.working index' key loaded (noted ++ more) gone, p.report, p.dissolved, logged⟩
    gone found (noted ++ more) := by
 obtain ⟨hlive, hahead⟩ := h.live hnext hhead
 have hout : ¬ Back m done gone row := fun hback => hnext.notDone (hback.2.1 hnext.mem)
 have hlength := hnext.length
 have hroom := h.room
 obtain ⟨index', hplace, hindexed, hslots, hused⟩ :=
  (h.keeps.indexed hkeyed).place (h.keeps.used_lt hkeyed) _ hout
 have hback : ∀ other, Back m (done ++ [row]) gone other ↔ Back m done gone other ∨ other = row := by
  intro other
  rcases eq_or_ne other row with rfl | hne
  · refine ⟨fun _ => .inr rfl, fun _ => ⟨hnext.lt, fun _ => by simp, ?_⟩⟩
    rw [mem_append]
    rintro (hin | hin)
    · exact hlive hin
    · exact hnext.notDone (h.sub.1.subset hin)
  · rw [Back, Back, mem_done hne]
    simp [hne]
 have hkeeps := h.keeps.insert hnext.lt (fun _ => hindexed) (fun _ => ⟨by omega, by omega⟩) fun _ => hnew
 refine ⟨index', hplace, ⟨_, _, _, rfl⟩, hloaded, h.report,
  hkeeps.congr hkeeps.wf rfl hback fun _ _ => ⟨rfl, rfl⟩, ?_, hahead,
  ⟨h.sub.1.trans (sublist_append_left _ _), h.sub.2⟩,
  h.reported.imp fun _ _ hreports => hreports.mono fun other hin => (hback other).2 (.inl hin),
  fun other hin => ?_, fun other hin => h.logged other (hlogged other hin), fun other hin hstays => ?_⟩
 · grind
 · rcases mem_append.1 hin with hin | hin
   · exact mem_append_left _ (h.within other hin)
   · rw [hmore other hin]
     simp
 · rcases mem_append.1 hin with hin | hin
   · exact (h.covered other hin hstays).imp_left fun hnoted => mem_append_left _ hnoted
   · rw [mem_singleton.1 hin]
     exact hcovered.imp (fun hin => mem_append_right _ hin) fun hin => h.logged row hin

/-- One more moved row goes back, or is gone. -/
theorem Placed.step (hkeyed : m.keyed = true)
  (hnext : Next m done row rest) : ∃ p' gone' found' noted', placeMoved p row = some p' ∧
   Placed m report values (done ++ [row]) p' gone' found' noted' := by
 rw [placeMoved]
 by_cases hhead : p.dissolved.head? = some row
 · rw [if_pos hhead]
   exact ⟨_, gone, found, noted, rfl, h.skip hnext hhead⟩
 rw [if_neg hhead]
 obtain ⟨index, key, loaded, htable⟩ := h.table
 have hkeeps := h.keeps
 have hlength := h.loaded
 have hreport := h.report
 rw [htable] at hkeeps hlength
 obtain ⟨hkey, hhash, hholds⟩ := loadKey_spec (t := m.working index key loaded noted gone) hkeeps.wf row
 obtain ⟨answer, hget, hanswer⟩ := get_spec
  (t := (m.working index key loaded noted gone).loadKey row) hkeeps hkeyed hkey
 have hlength' := length_loaded_loadKey (t := m.working index key loaded noted gone) hlength row
 simp only
 rw [htable, hget, bind_some]
 cases answer with
 | some kept =>
  obtain ⟨hkept, hholdsKept⟩ := (hanswer kept).1 rfl
  have hplaced := h.collide hnext hhead hkept ((hholds kept).1 hholdsKept)
   (loadKey (m.working index key loaded noted gone) row).key hlength'
  rw [htable] at hplaced
  refine ⟨_, _, _, _, ?_, hplaced⟩
  rw [hreport]
  simp only [working, loadKey, append_assoc]
  rfl
 | none =>
  have hnew : ∀ other, Back m done gone other →
    ¬ (m.rows.view m.arity other).SameKey (m.rows.view m.arity row) := by
   intro other hback hsame
   cases (hanswer other).2 ⟨hback, (hholds other).2 hsame⟩
  -- what is noted of the row does not depend on where it is placed
  have htouch : ∀ index', ∃ more, (∀ other ∈ more, other = row) ∧
    (touch ((m.working index' key loaded noted gone).loadKey row) row p.logged).1 =
     m.working index' ((m.working index key loaded noted gone).loadKey row).key
      ((m.working index key loaded noted gone).loadKey row).loaded (noted ++ more) gone ∧
    (∀ other ∈ (touch ((m.working index' key loaded noted gone).loadKey row) row p.logged).2,
     other ∈ p.logged) ∧ (row ∈ more ∨ row ∈ p.logged) := by
   intro index'
   obtain ⟨more, htable', hmore, hlogged, hcovered⟩ :=
    touch_spec ((m.working index' key loaded noted gone).loadKey row) row p.logged
   refine ⟨more, hmore, ?_, hlogged, hcovered⟩
   rw [htable']
   simp [working, loadKey]
  obtain ⟨index', hplace, -⟩ := (h.keeps.indexed hkeyed).place (h.keeps.used_lt hkeyed)
   row fun hback => hnext.notDone (hback.2.1 hnext.mem)
  obtain ⟨more, hmore, htable', hlogged, hcovered⟩ := htouch index'
  obtain ⟨index'', hplace', hplaced⟩ := h.place hkeyed hnext hhead hnew
   ((m.working index key loaded noted gone).loadKey row).key hlength' hmore hlogged hcovered
  obtain rfl : index' = index'' := some.inj (hplace.symm.trans hplace')
  refine ⟨_, _, _, _, ?_, hplaced⟩
  rw [htable] at hplace
  have hplace'' : ((m.working index key loaded noted gone).loadKey row).index.place row
    (keyHash ((m.working index key loaded noted gone).loadKey row).key
     ((m.working index key loaded noted gone).loadKey row).loadedWeights) = some index' := by
   rw [hhash]
   exact hplace
  rw [hplace'', map_some]
  exact congrArg some (congrArg (fun table => Placing.mk table p.report p.dissolved _) htable')

end Placing

/-- What `restore` makes of the table: the rows not dead are in the index, and the rows in `gone`, each
reported once, are dead with the dissolved ones. -/
structure Restored (m : Table) (report : Repair) (values : List Nat) (m' : Table) (report' : Repair)
  (gone : List Nat) (found : List Collision) (noted : List Nat) : Prop where
 table : ∃ index key loaded, m' = m.working index key loaded noted gone
 loaded : m'.loaded.length = m.arity
 report : report' = { report with collisions := report.collisions ++ found }
 keeps : Keeps m.arity m.keyed m.rows m'.index fun row => row < m.len ∧ row ∉ m.dead ++ gone
 sub : gone.Sublist m.moved ∧ ∀ row ∈ gone, row ∉ m.dead
 reported : Forall₂
  (Reports (m.rows.view m.arity) fun row => row < m.len ∧ row ∉ m.dead ++ gone) gone found
 within : ∀ row ∈ noted, row ∈ m.moved
 covered : ∀ row ∈ m.moved, (m.keyed = true → row ∉ m.dead ++ gone) → row ∈ noted ∨ row ∈ values
 bag : m.keyed = false → gone = []

theorem restore_spec {m : Table} (hmoved : m.moved.Sublist (List.range m.len)) (hdead : m.dead.Sublist m.moved)
  (hloaded : m.loaded.length = m.arity)
  (h : Keeps m.arity m.keyed m.rows m.index fun row => row < m.len ∧ row ∉ m.moved)
  (report : Repair) (values : List Nat) : ∃ m' report' gone found noted, restore m report values = some (m', report') ∧
   Restored m report values m' report' gone found noted := by
 rw [restore]
 by_cases hkeyed : m.keyed = true
 · rw [if_pos hkeyed]
   obtain ⟨index, hreserve, hkeeps, hroom⟩ := reserve_spec hmoved h m.moved.length
   have hnd : m.moved.Nodup := hmoved.nodup nodup_range
   have hback : ∀ row, Back m [] [] row ↔ row < m.len ∧ row ∉ m.moved := by
    intro row
    constructor
    · exact fun hback => ⟨hback.1, fun hin => absurd (hback.2.1 hin) not_mem_nil⟩
    · rintro ⟨hlt, hout⟩
      refine ⟨hlt, fun hin => absurd hin hout, fun hin => hout ?_⟩
      grind
   have hahead : ∀ rest, m.moved = [] ++ rest → m.dead.Sublist rest := by
    grind
   obtain ⟨p, hp, gone, found, noted, hplaced⟩ := foldlM_pass placeMoved
    (fun done p => ∃ gone found noted, Placed m report values done p gone found noted)
    (l := m.moved) (s := ⟨{ m with index := index }, report, m.dead, values⟩) (by
     rintro done row rest p hsplit ⟨gone, found, noted, hplaced⟩
     have hnd' : (done ++ row :: rest).Nodup := hsplit ▸ hnd
     have hmem : row ∈ m.moved := by
      grind
     have hnext : Next m done row rest :=
      ⟨hsplit, mem_range.1 (hmoved.subset hmem),
       fun hin => (nodup_append.1 hnd').2.2 row hin row mem_cons_self rfl,
       (nodup_cons.1 (nodup_append.1 hnd').2.1).1⟩
     obtain ⟨p', gone', found', noted', hstep, hplaced'⟩ := hplaced.step hkeyed hnext
     exact ⟨p', hstep, gone', found', noted', hplaced'⟩)
    ⟨[], [], [], ⟨index, m.key, m.loaded, by simp [working]⟩, hloaded, by simp,
      hkeeps.congr h.wf rfl hback fun _ _ => ⟨rfl, rfl⟩, hroom, ⟨[], rfl, nil_subset _, hahead⟩,
      ⟨Sublist.slnil, nofun⟩, Forall₂.nil, nofun, fun _ => id, nofun⟩
   have hiff : ∀ row, (row < m.len ∧ row ∉ m.dead ++ gone) ↔ Back m m.moved gone row := fun row =>
    ⟨fun hin => ⟨hin.1, id, hin.2⟩, fun hin => ⟨hin.1, hin.2.2⟩⟩
   rw [hreserve, bind_some]
   rw [hp]
   exact ⟨p.table, p.report, gone, found, noted, rfl, hplaced.table, hplaced.loaded, hplaced.report,
    hplaced.keeps.congr h.wf rfl hiff fun _ _ => ⟨rfl, rfl⟩, hplaced.sub,
    hplaced.reported.imp fun _ _ hreports => hreports.mono fun row => (hiff row).2, hplaced.within,
    fun row hin hstays => hplaced.covered row hin (hstays hkeyed),
    fun hbag => absurd (hkeyed.symm.trans hbag) nofun⟩
 · rw [if_neg hkeyed]
   obtain ⟨noted, htable, hwithin, -, hcovered⟩ := foldl_pass
    (fun (acc : Table × List Nat) row => touch acc.1 row acc.2)
    (fun done acc => ∃ noted, acc.1 = { m with touched := m.touched ++ noted } ∧
     (∀ row ∈ noted, row ∈ done) ∧ (∀ row ∈ acc.2, row ∈ values) ∧
     ∀ row ∈ done, row ∈ noted ∨ row ∈ values) (l := m.moved) (s := (m, values)) (by
     rintro done row rest ⟨t, logged⟩ - ⟨noted, rfl, hwithin, hlogged, hcovered⟩
     obtain ⟨more, htable, hmore, hlogged', hrow⟩ :=
      touch_spec { m with touched := m.touched ++ noted } row logged
     refine ⟨noted ++ more, ?_, fun other hin => ?_, fun other hin => hlogged other (hlogged' other hin),
      fun other hin => ?_⟩
     · grind
     · rcases mem_append.1 hin with hin | hin
       · exact mem_append_left _ (hwithin other hin)
       grind
     grind)
    ⟨[], by simp, nofun, fun _ => id, nofun⟩
   rw [htable]
   refine ⟨_, _, [], [], noted, rfl, ⟨m.index, m.key, m.loaded, by simp [working]⟩, hloaded, by simp,
    ⟨h.wf, fun row hin => hin.1, fun hyes => absurd hyes hkeyed, fun hyes => absurd hyes hkeyed,
     fun hyes => absurd hyes hkeyed⟩, ⟨nil_sublist _, nofun⟩, Forall₂.nil, hwithin,
    fun row hin _ => hcovered row hin, fun _ => rfl⟩

/-! ## Removing the dead rows -/

/-- The row that stands at `other` once `row` is removed from a table of `len` rows. -/
def filled (len row other : Nat) : Nat :=
 if other = row then len - 1 else other

theorem view_filled {rows : Rows} {arity : Nat} (h : rows.WF arity) {other : Nat} (hother : other < rows.len - 1) :
  (rows.remove row).view arity other = rows.view arity (filled rows.len row other) :=
 view_remove h (by omega)

theorem filled_inj {len one two : Nat} (hone : one < len - 1) (htwo : two < len - 1)
  (h : filled len row one = filled len row two) : one = two := by
 rw [filled, filled] at h
 split at h <;> split at h <;> omega

section Bury

variable {row : Nat} {gone : List Nat}

/-- The rows that stay when `row` is removed, the highest of the dead ones. -/
theorem filled_stays {len other : Nat} (hgone : ∀ other ∈ gone, other < row) (hother : other < len - 1)
  (hout : other ∉ gone) : filled len row other < len ∧ filled len row other ∉ row :: gone := by
 rw [filled]
 split
 · rename_i heq
   refine ⟨by omega, fun hin => ?_⟩
   rcases mem_cons.1 hin with heq' | hin
   · omega
   grind
 grind

variable (h : Keeps t.arity t.keyed t.rows t.index fun other => other < t.len ∧ other ∉ row :: gone)

include h

/-- The index serves the rows that stay, the slot of the last row handed to the one it fills. -/
theorem keeps_remove {index' : Index} (hgone : ∀ other ∈ gone, other < row) (hindexed : t.keyed = true →
   Indexed ((t.rows.remove row).rowHash t.arity) (fun other => other < t.len - 1 ∧ other ∉ gone) index')
  (hroom : t.keyed = true → index'.used * 2 ≤ index'.slots.length ∧ 0 < index'.slots.length) :
  Keeps t.arity t.keyed (t.rows.remove row) index' fun other => other < t.len - 1 ∧ other ∉ gone where
 wf := h.wf.remove row
 lt := by
  intro other hin
  rw [len_remove]
  exact hin.1
 indexed := hindexed
 room := hroom
 distinct := by
  intro hkeyed one two hone htwo hsame
  rw [view_filled h.wf hone.1, view_filled h.wf htwo.1] at hsame
  exact filled_inj hone.1 htwo.1 (h.distinct hkeyed _ _ (filled_stays hgone hone.1 hone.2)
   (filled_stays hgone htwo.1 htwo.2) hsame)

theorem removeRow_spec
  (hloaded : t.loaded.length = t.arity) (hrow : row < t.len) (hgone : ∀ other ∈ gone, other < row) :
  ∃ index' key' loaded' noted, removeRow t row =
    some { t with rows := t.rows.remove row, index := index', marked := min t.marked row,
                  key := key', loaded := loaded', touched := t.touched ++ noted } ∧
   (Keeps t.arity t.keyed (t.rows.remove row) index' fun other => other < t.len - 1 ∧ other ∉ gone) ∧
   loaded'.length = t.arity ∧ (∀ other ∈ noted, other = row) ∧
   (t.keyed = true → row ≠ t.len - 1 → row ∈ noted) := by
 rw [removeRow]
 by_cases hcase : row ≠ t.len - 1 ∧ t.keyed = true
 · obtain ⟨hne, hkeyed⟩ := hcase
   -- the last row is handed the slot of its own, under its new number
   have hlast : t.len - 1 < t.len ∧ t.len - 1 ∉ row :: gone := by
    refine ⟨by omega, fun hin => ?_⟩
    rcases mem_cons.1 hin with heq | hin
    · exact hne heq.symm
    grind
   obtain ⟨slot, hslot, hent⟩ := (h.indexed hkeyed).slotOf hlast
   obtain ⟨-, hhash, -⟩ := loadKey_spec h.wf (t.len - 1)
   have hfound : slotOf (loadKey { t with marked := min t.marked row } (t.len - 1)) (t.len - 1) =
     some slot := by
    rw [slotOf]
    show t.index.slotOf (keyHash (t.loadKey (t.len - 1)).key (t.loadKey (t.len - 1)).loadedWeights) _ = _
    rw [hhash]
    exact hslot
   have hlen : ∀ other, other < t.len ∧ other ∉ row :: gone → other ≠ t.len - 1 →
     (t.rows.remove row).rowHash t.arity other = t.rows.rowHash t.arity other := by
    intro other hin hother
    apply rowHash_congr
    have hne' : other ≠ row := fun heq => hin.2 (heq ▸ (.head _))
    rw [view_filled h.wf (show other < t.rows.len - 1 from by
     have hlt : other < t.rows.len := hin.1
     have hother' : other ≠ t.rows.len - 1 := hother
     omega), filled, if_neg hne']
    exact ⟨rfl, rfl⟩
   have hrowHash : (t.rows.remove row).rowHash t.arity row = t.rows.rowHash t.arity (t.len - 1) := by
    apply rowHash_congr
    have hlt : row < t.rows.len - 1 := by
     have hrow' : row < t.rows.len := hrow
     have hne' : row ≠ t.rows.len - 1 := hne
     omega
    rw [view_filled h.wf hlt, filled, if_pos rfl]
    exact ⟨rfl, rfl⟩
   have hindexed := (h.indexed hkeyed).hand row hent (fun hin => hin.2 (.head _))
    hrowHash hlen
   obtain ⟨hused, hpos⟩ := h.room hkeyed
   refine ⟨t.index.setSlot slot (.entry (t.rows.rowHash t.arity (t.len - 1)) row),
    (t.loadKey (t.len - 1)).key, (t.loadKey (t.len - 1)).loaded, [row], ?_,
    keeps_remove h hgone (fun _ => hindexed.congr (fun other => ?_) fun _ _ => rfl) fun _ => ?_,
    length_loaded_loadKey hloaded _, fun other hin => mem_singleton.1 hin, fun _ _ => .head _⟩
   · rw [if_pos ⟨hne, hkeyed⟩]
     show Option.map _ (Option.map _ (slotOf (loadKey { t with marked := min t.marked row }
      (t.len - 1)) (t.len - 1))) = _
     rw [hfound]
     simp only [map_some]
     have hent' : (loadKey { t with marked := min t.marked row } (t.len - 1)).index.slots[slot]? =
       some (.entry (t.rows.rowHash t.arity (t.len - 1)) (t.len - 1)) := hent
     rw [hent']
     rfl
   · constructor
     · rintro ⟨hlt, hout⟩
       rcases eq_or_ne other row with rfl | hother
       · exact .inr rfl
       grind
     grind
   · rw [Index.setSlot, length_set]
     exact ⟨hused, hpos⟩
 · rw [if_neg hcase]
   refine ⟨t.index, t.key, t.loaded, [], by simp, keeps_remove h hgone (fun hkeyed => ?_) h.room, hloaded,
    by rintro _ ⟨⟩, fun hkeyed hne => absurd ⟨hne, hkeyed⟩ hcase⟩
   have hlast : row = t.len - 1 := by
    grind
   refine (h.indexed hkeyed).congr (fun other => ?_) fun other hin => ?_
   · constructor
     · grind
     grind
   · apply rowHash_congr
     have hne : other ≠ row := fun heq => hin.2 (heq ▸ (.head _))
     have hlt : other < t.rows.len - 1 := by
      have hlt' : other < t.rows.len := hin.1
      have hlast' : row = t.rows.len - 1 := hlast
      omega
     rw [view_filled h.wf hlt, filled, if_neg hne]
     exact ⟨rfl, rfl⟩

end Bury

/-- The dead rows are gone from `t'`, where every other row stands at one place: `row` shows what
`origin row` did. A row that shows another's was dead, and is noted. -/
structure Buried (t : Table) (dead : List Nat) (t' : Table) (origin : Nat → Nat) (noted : List Nat) : Prop where
 table : ∃ rows index marked key loaded, t' =
  { t with rows := rows, index := index, marked := marked, key := key, loaded := loaded,
           touched := t.touched ++ noted }
 loaded : t'.loaded.length = t.arity
 keeps : Keeps t.arity t.keyed t'.rows t'.index fun row => row < t'.len
 stays : ∀ row, row < t'.len → origin row < t.len ∧ origin row ∉ dead ∧
  t'.rows.view t.arity row = t.rows.view t.arity (origin row)
 inj : ∀ row other, row < t'.len → other < t'.len → origin row = origin other → row = other
 surj : ∀ row, row < t.len → row ∉ dead → ∃ other, other < t'.len ∧ origin other = row
 within : ∀ row ∈ noted, row ∈ dead
 noted : ∀ row, row < t'.len → origin row = row ∨ (row ∈ dead ∧ (t.keyed = true → row ∈ noted))
 marked : t'.marked ≤ t.marked ∧ (t.marked ≤ t.len → t'.marked ≤ t'.len) ∧ ∀ row ∈ dead, t'.marked ≤ row

theorem removeAll_spec {dead : List Nat} (hdesc : dead.Pairwise (· > ·))
  (h : Keeps t.arity t.keyed t.rows t.index fun row => row < t.len ∧ row ∉ dead)
  (hloaded : t.loaded.length = t.arity) (hdead : ∀ row ∈ dead, row < t.len) :
  ∃ t' origin noted, dead.foldlM removeRow t = some t' ∧ Buried t dead t' origin noted := by
 induction dead generalizing t with
 | nil =>
  refine ⟨t, id, [], rfl, ⟨t.rows, t.index, t.marked, t.key, t.loaded, by simp⟩, hloaded, ?_, fun row hrow => ⟨hrow, nofun, rfl⟩,
   fun _ _ _ _ => id, fun row hrow _ => ⟨row, hrow, rfl⟩, nofun, fun _ _ => .inl rfl, le_rfl, id, nofun⟩
  exact h.congr h.wf rfl (fun row => by simp [len]) fun _ _ => ⟨rfl, rfl⟩
 | cons row gone ih =>
  obtain ⟨hgone, hdesc'⟩ := pairwise_cons.1 hdesc
  have hrow := hdead row (.head _)
  obtain ⟨index', key', loaded', one, hremove, hkeeps, hloaded', hone, hone'⟩ :=
   removeRow_spec h hloaded hrow hgone
  have hlen : (t.rows.remove row).len = t.len - 1 := len_remove row
  obtain ⟨t', origin, noted, hfold, hburied⟩ := ih hdesc'
   (t := { t with rows := t.rows.remove row, index := index', marked := min t.marked row, key := key',
                  loaded := loaded', touched := t.touched ++ one })
   (hkeeps.congr hkeeps.wf rfl (fun other => by rw [← hlen]; rfl) fun _ _ => ⟨rfl, rfl⟩) hloaded'
   fun other hin => by
    have hlt := hgone other hin
    show other < (t.rows.remove row).len
    rw [hlen]
    omega
  obtain ⟨⟨rows'', index'', marked'', key'', loaded'', htable⟩, hloaded'', hwhole, hstays, hinj, hsurj,
   hwithin, hnoted, hmarked⟩ := hburied
  refine ⟨t', fun other => filled t.len row (origin other), one ++ noted, ?_,
   ⟨rows'', index'', marked'', key'', loaded'', ?_⟩, hloaded'', hwhole, fun other hother => ?_,
   fun two three htwo hthree heq => ?_, fun other hother hout => ?_, fun other hin => ?_,
   fun other hother => ?_, hmarked.1.trans (min_le_left _ _), fun _ => hmarked.2.1 ?_,
   fun other hin => ?_⟩
  · grind
  · grind
  · obtain ⟨hlt, hout, hview⟩ := hstays other hother
    replace hlt : origin other < t.len - 1 := by
     rw [← hlen]
     exact hlt
    obtain ⟨hlt', hout'⟩ := filled_stays hgone hlt hout
    exact ⟨hlt', hout', hview.trans (view_filled h.wf hlt)⟩
  · obtain ⟨htwo', -, -⟩ := hstays two htwo
    obtain ⟨hthree', -, -⟩ := hstays three hthree
    replace htwo' : origin two < t.len - 1 := by
     rw [← hlen]
     exact htwo'
    replace hthree' : origin three < t.len - 1 := by
     rw [← hlen]
     exact hthree'
    exact hinj two three htwo hthree (filled_inj htwo' hthree' heq)
  · -- the last row now stands where the removed one did
    have hne : other ≠ row := fun heq => hout (heq ▸ (.head _))
    have hout' : other ∉ gone := fun hin => hout (.tail _ hin)
    by_cases hlast : other = t.len - 1
    · have hrow' : row < t.len - 1 := by omega
      obtain ⟨third, hthird, horigin⟩ := hsurj row (by
       show row < (t.rows.remove row).len
       rw [hlen]
       exact hrow') fun hin => lt_irrefl _ (hgone row hin)
      refine ⟨third, hthird, ?_⟩
      rw [horigin, filled, if_pos rfl, hlast]
    · obtain ⟨third, hthird, horigin⟩ := hsurj other (by
       show other < (t.rows.remove row).len
       rw [hlen]
       omega) hout'
      refine ⟨third, hthird, ?_⟩
      rw [horigin, filled, if_neg hne]
  · rcases mem_append.1 hin with hin | hin
    · grind
    · exact .tail _ (hwithin other hin)
  · obtain ⟨hlt, -, -⟩ := hstays other hother
    replace hlt : origin other < t.len - 1 := by
     rw [← hlen]
     exact hlt
    rcases hnoted other hother with heq | ⟨hin, hkeyed⟩
    · rw [heq] at hlt
      rw [heq, filled]
      split
      · grind
      · exact .inl rfl
    · exact .inr ⟨.tail _ hin, fun hyes => mem_append_right _ (hkeyed hyes)⟩
  · show min t.marked row ≤ (t.rows.remove row).len
    rw [hlen]
    omega
  · rcases mem_cons.1 hin with rfl | hin
    · exact hmarked.1.trans (min_le_right _ _)
    · exact hmarked.2.2 other hin

/-- The dead rows leave the table. -/
theorem bury_spec (hnd : t.dead.Nodup) (hdead : ∀ row ∈ t.dead, row < t.len) (hloaded : t.loaded.length = t.arity)
  (h : Keeps t.arity t.keyed t.rows t.index fun row => row < t.len ∧ row ∉ t.dead) :
  ∃ t' origin noted, bury t = some t' ∧ Buried { t with moved := [], dead := [] } t.dead t' origin noted := by
 have hperm : (t.dead.insertionSort (· ≤ ·)).Perm t.dead := perm_insertionSort _ _
 have hmem : ∀ row, row ∈ (t.dead.insertionSort (· ≤ ·)).reverse ↔ row ∈ t.dead := by
  grind
 have hdesc : (t.dead.insertionSort (· ≤ ·)).reverse.Pairwise (· > ·) := by
  rw [pairwise_reverse]
  refine (pairwise_insertionSort (· ≤ ·) t.dead).imp₂ (fun one two hle hne => ?_)
   (hperm.nodup_iff.2 hnd)
  exact lt_of_le_of_ne hle hne
 obtain ⟨t', origin, noted, hfold, ⟨rows, index, marked, key, loaded, rfl⟩, hloaded', hkeeps, hstays, hinj, hsurj,
  hwithin, hnoted, hmarked⟩ := removeAll_spec hdesc
   (t := { t with moved := [], dead := t.dead.insertionSort (· ≤ ·) })
   (h.congr h.wf rfl (fun row => and_congr_right fun _ => not_congr (hmem row)) fun _ _ => ⟨rfl, rfl⟩)
   hloaded fun row hin => hdead row ((hmem row).1 hin)
 refine ⟨_, origin, noted, ?_, ⟨rows, index, marked, key, loaded, rfl⟩, hloaded', hkeeps,
  fun row hrow => ?_, hinj, fun row hrow hout => hsurj row hrow fun hin => hout ((hmem row).1 hin),
  fun row hin => (hmem row).1 (hwithin row hin), fun row hrow => ?_, hmarked.1,
  hmarked.2.1, fun row hin => hmarked.2.2 row ((hmem row).2 hin)⟩
 · rw [bury]
   rw [hfold]
   rfl
 · obtain ⟨hlt, hout, hview⟩ := hstays row hrow
   exact ⟨hlt, fun hin => hout ((hmem _).2 hin), hview⟩
 · exact (hnoted row hrow).imp id fun hboth => ⟨(hmem row).1 hboth.1, hboth.2⟩

end Tir.Relational.Table
