import Tir.Relational.Table

/-!
# The key index of a table

`Indexed hash inside index` says that the slots hold the rows `inside` names, each once, where a walk
for its hash reaches it. Each write to the slots keeps it, and a walk over them ends: at a row that
matches, or at an empty slot where no row does (`Indexed.walk`).
-/

open List Option

namespace Tir.Relational

open Index Slot

@[simp] theorem isEmpty_entry (held : BitVec 32) (row : Nat) : (Slot.entry held row).isEmpty = false :=
  rfl

/-- The index holds exactly the rows `inside`, hashed by `hash`. -/
structure Indexed (hash : Nat → BitVec 32) (inside : Nat → Prop) (index : Index) : Prop where
 used : index.used = index.slots.countP fun slot => !slot.isEmpty
 entry : ∀ (at' : Nat) held row, index.slots[at']? = some (.entry held row) →
  inside row ∧ held = hash row ∧ Reaches index.slots Slot.isEmpty (index.start held) at'
 unique : ∀ (at' at'' : Nat) held held' row, index.slots[at']? = some (.entry held row) →
  index.slots[at'']? = some (.entry held' row) → at' = at''
 present : ∀ row, inside row → ∃ at' : Nat, index.slots[at']? = some (.entry (hash row) row)

namespace Indexed

variable {hash hash' : Nat → BitVec 32} {inside inside' : Nat → Prop} {index : Index}

theorem empty (hash : Nat → BitVec 32) (size : Nat) : Indexed hash (fun _ => False) ⟨replicate size .empty, 0⟩ where
 used := by
  rw [eq_comm, countP_eq_zero]
  intro slot hslot
  rw [eq_of_mem_replicate hslot]
  nofun
 entry := by
  grind
 unique := by
  grind
 present := fun _ h => h.elim

theorem congr (h : Indexed hash inside index) (hinside : ∀ row, inside' row ↔ inside row)
  (hhash : ∀ row, inside row → hash' row = hash row) : Indexed hash' inside' index where
 used := h.used
 entry := by
  intro at' held row hslot
  obtain ⟨hin, hheld, hreach⟩ := h.entry at' held row hslot
  exact ⟨(hinside row).2 hin, hheld.trans (hhash row hin).symm, hreach⟩
 unique := h.unique
 present := by
  intro row hin
  have hold := (hinside row).1 hin
  rw [hhash row hold]
  exact h.present row hold

/-! ## Room -/

theorem exists_empty (h : Indexed hash inside index) (hroom : index.used < index.slots.length) :
  ∃ at' : Nat, index.slots[at']? = some Slot.empty := by
 by_contra hnone
 have hall : index.slots.countP (fun slot => !slot.isEmpty) = index.slots.length := by
  rw [countP_eq_length]
  intro slot hslot
  cases slot with
  | empty =>
   obtain ⟨at', hat⟩ := mem_iff_getElem?.1 hslot
   exact absurd ⟨at', hat⟩ hnone
  | tombstone => rfl
  | entry held row => rfl
 rw [h.used, hall] at hroom
 exact absurd hroom (lt_irrefl _)

theorem start_setSlot (at' : Nat) (slot : Slot) (held : BitVec 32) :
  (index.setSlot at' slot).start held = index.start held := by
 rw [start, start, setSlot, length_set]

theorem start_fill (at' : Nat) (held held' : BitVec 32) (row : Nat) :
  (index.fill at' held row).start held' = index.start held' := by
 rw [start, start, fill, length_set]

/-! ## Writing a row -/

/-- Writing a row where a walk for its hash ends keeps the index. -/
theorem fill (h : Indexed hash inside index) (row : Nat) {at' : Nat} {slot : Slot} (hnew : ¬ inside row)
  (hslot : index.slots[at']? = some slot) (hfree : slot.isFree = true)
  (hreach : Reaches index.slots Slot.isEmpty (index.start (hash row)) at') :
  Indexed hash (fun other => inside other ∨ other = row) (index.fill at' (hash row) row) := by
 have hlt : at' < index.slots.length := (List.getElem?_eq_some_iff.1 hslot).1
 -- the slot written held no row
 have hother : ∀ (at'' : Nat) held other, index.slots[at'']? = some (.entry held other) → at'' ≠ at' := by
  rintro at'' held other hent rfl
  rw [hslot] at hent
  rw [some.inj hent] at hfree
  nomatch hfree
 have hcases : ∀ (at'' : Nat) held other, (index.fill at' (hash row) row).slots[at'']? = some (.entry held other) →
   (at'' = at' ∧ held = hash row ∧ other = row) ∨
    (at'' ≠ at' ∧ index.slots[at'']? = some (.entry held other)) := by
  intro at'' held other hent
  rcases eq_or_ne at'' at' with rfl | hne
  · rw [Index.fill, getElem?_set_self hlt] at hent
    grind
  · rw [Index.fill, getElem?_set_ne (Ne.symm hne)] at hent
    exact .inr ⟨hne, hent⟩
 refine ⟨?_, fun at'' held other hent => ?_, fun at1 at2 held1 held2 other h1 h2 => ?_,
  fun other hin => ?_⟩
 · have hget : index.slots[at'] = slot := (List.getElem?_eq_some_iff.1 hslot).2
   rw [Index.fill, countP_set hlt, h.used, hslot, hget]
   grind [isEmpty_entry]
 · rw [start_fill]
   rcases hcases at'' held other hent with ⟨rfl, rfl, rfl⟩ | ⟨-, hold⟩
   · exact ⟨.inr rfl, rfl, hreach.set _ rfl⟩
   · obtain ⟨hin, hheld, hreach'⟩ := h.entry at'' held other hold
     exact ⟨.inl hin, hheld, hreach'.set _ rfl⟩
 · rcases hcases at1 held1 other h1 with ⟨rfl, -, rfl⟩ | ⟨-, hold1⟩
   · rcases hcases at2 held2 other h2 with ⟨rfl, -, -⟩ | ⟨-, hold2⟩
     · rfl
     · exact absurd (h.entry at2 held2 other hold2).1 hnew
   · rcases hcases at2 held2 other h2 with ⟨rfl, -, rfl⟩ | ⟨-, hold2⟩
     · exact absurd (h.entry at1 held1 other hold1).1 hnew
     · exact h.unique at1 at2 held1 held2 other hold1 hold2
 · rcases hin with hin | rfl
   · obtain ⟨at'', hent⟩ := h.present other hin
     refine ⟨at'', ?_⟩
     rw [Index.fill, getElem?_set_ne (Ne.symm (hother at'' _ _ hent))]
     exact hent
   · exact ⟨at', by rw [Index.fill, getElem?_set_self hlt]⟩

theorem place (h : Indexed hash inside index) (hroom : index.used < index.slots.length) (row : Nat)
  (hnew : ¬ inside row) : ∃ index', index.place row (hash row) = some index' ∧
   Indexed hash (fun other => inside other ∨ other = row) index' ∧
   index'.slots.length = index.slots.length ∧ index'.used ≤ index.used + 1 := by
 obtain ⟨empty', hempty⟩ := h.exists_empty hroom
 obtain ⟨at', hprobe⟩ := probe_isSome isFree (index.start (hash row)) hempty rfl
 obtain ⟨hstop, hreach⟩ := probe_eq_some_iff.1 hprobe
 obtain ⟨slot, hslot, hfree⟩ := (Option.any_eq_true _ _).1 hstop
 refine ⟨index.fill at' (hash row) row, by rw [Index.place, hprobe]; rfl, ?_, ?_, ?_⟩
 · refine h.fill row hnew hslot hfree (hreach.mono fun slot hempty => ?_)
   cases slot with
   | empty => rfl
   | tombstone => nomatch hempty
   | entry held other => nomatch hempty
 · exact length_set
 · show index.used + (if (index.slots[at']?).any Slot.isEmpty then 1 else 0) ≤ index.used + 1
   split <;> omega

/-! ## Finding the slot of a row -/

theorem rowAt_eq_some {at' row : Nat} :
  index.rowAt at' = some row ↔ ∃ held, index.slots[at']? = some (.entry held row) := by
 rw [rowAt]
 split
 · rename_i held other hslot
   rw [some.injEq]
   constructor
   · grind
   grind
 grind

section

variable (h : Indexed hash inside index)

include h

/-- The search for a row of the index ends at its slot. -/
theorem slotOf {row : Nat} (hrow : inside row) : ∃ at' : Nat, index.slotOf (hash row) row = some at' ∧
   index.slots[at']? = some (.entry (hash row) row) := by
 obtain ⟨at', hslot⟩ := h.present row hrow
 obtain ⟨found, hfound⟩ := probe_isSome (holds row) (index.start (hash row)) hslot
  (decide_eq_true rfl)
 refine ⟨found, hfound, ?_⟩
 obtain ⟨hstop, -⟩ := probe_eq_some_iff.1 hfound
 obtain ⟨slot, hslot', hholds⟩ := (Option.any_eq_true _ _).1 hstop
 cases slot with
 | empty => nomatch hholds
 | tombstone => nomatch hholds
 | entry held other =>
  obtain rfl : other = row := of_decide_eq_true hholds
  rw [← (h.entry found held other hslot').2.1]
  exact hslot'

/-- A tombstone in the slot of a row takes the row out. -/
theorem drop {row at' : Nat} {held : BitVec 32} (hslot : index.slots[at']? = some (.entry held row)) :
  Indexed hash (fun other => inside other ∧ other ≠ row) (index.setSlot at' .tombstone) := by
 have hlt : at' < index.slots.length := (List.getElem?_eq_some_iff.1 hslot).1
 have hget : index.slots[at'] = .entry held row := (List.getElem?_eq_some_iff.1 hslot).2
 have hcases : ∀ (at'' : Nat) held' other,
   (index.setSlot at' .tombstone).slots[at'']? = some (.entry held' other) →
    at'' ≠ at' ∧ index.slots[at'']? = some (.entry held' other) := by
  intro at'' held' other hent
  rcases eq_or_ne at'' at' with rfl | hne
  · rw [setSlot, getElem?_set_self hlt] at hent
    nomatch some.inj hent
  · rw [setSlot, getElem?_set_ne (Ne.symm hne)] at hent
    exact ⟨hne, hent⟩
 refine ⟨?_, fun at'' held' other hent => ?_, fun at1 at2 held1 held2 other h1 h2 => ?_,
  fun other hin => ?_⟩
 · have hpos : 1 ≤ index.slots.countP fun slot => !slot.isEmpty :=
    countP_pos_iff.2 ⟨.entry held row, mem_of_getElem? hslot, rfl⟩
   rw [setSlot, countP_set hlt, h.used, hget]
   show _ = _ - 1 + 1
   omega
 · obtain ⟨hne, hold⟩ := hcases at'' held' other hent
   obtain ⟨hin, hheld, hreach⟩ := h.entry at'' held' other hold
   refine ⟨⟨hin, ?_⟩, hheld, ?_⟩
   · rintro rfl
     exact hne (h.unique at'' at' held' held other hold hslot)
   · rw [start_setSlot]
     exact hreach.set _ rfl
 · exact h.unique at1 at2 held1 held2 other (hcases _ _ _ h1).2 (hcases _ _ _ h2).2
 · obtain ⟨at'', hent⟩ := h.present other hin.1
   refine ⟨at'', ?_⟩
   have hne : at' ≠ at'' := by
    grind
   rw [setSlot, getElem?_set_ne hne]
   exact hent

/-- The slot of a row is given to another, which stands under the same hash from then on. -/
theorem hand {row at' : Nat} (other : Nat)
  (hslot : index.slots[at']? = some (.entry (hash row) row)) (hnew : ¬ inside other)
  (hhash : hash' other = hash row) (hsame : ∀ third, inside third → third ≠ row → hash' third = hash third) :
  Indexed hash' (fun third => (inside third ∧ third ≠ row) ∨ third = other)
   (index.setSlot at' (.entry (hash row) other)) := by
 have hlt : at' < index.slots.length := (List.getElem?_eq_some_iff.1 hslot).1
 have hget : index.slots[at'] = .entry (hash row) row := (List.getElem?_eq_some_iff.1 hslot).2
 have hcases : ∀ (at'' : Nat) held third,
   (index.setSlot at' (.entry (hash row) other)).slots[at'']? = some (.entry held third) →
    (at'' = at' ∧ held = hash row ∧ third = other) ∨
     (at'' ≠ at' ∧ index.slots[at'']? = some (.entry held third)) := by
  intro at'' held third hent
  rcases eq_or_ne at'' at' with rfl | hne
  · rw [setSlot, getElem?_set_self hlt] at hent
    grind
  · rw [setSlot, getElem?_set_ne (Ne.symm hne)] at hent
    exact .inr ⟨hne, hent⟩
 refine ⟨?_, fun at'' held third hent => ?_, fun at1 at2 held1 held2 third h1 h2 => ?_,
  fun third hin => ?_⟩
 · have hpos : 1 ≤ index.slots.countP fun slot => !slot.isEmpty :=
    countP_pos_iff.2 ⟨_, mem_of_getElem? hslot, rfl⟩
   rw [setSlot, countP_set hlt, h.used, hget]
   show _ = _ - 1 + 1
   omega
 · rw [start_setSlot]
   rcases hcases at'' held third hent with ⟨rfl, rfl, rfl⟩ | ⟨hne, hold⟩
   · exact ⟨.inr rfl, hhash.symm, (h.entry at'' _ row hslot).2.2.set _ rfl⟩
   · obtain ⟨hin, hheld, hreach⟩ := h.entry at'' held third hold
     have hthird : third ≠ row := by
      rintro rfl
      exact hne (h.unique at'' at' held _ third hold hslot)
     exact ⟨.inl ⟨hin, hthird⟩, by rw [hheld, hsame third hin hthird], hreach.set _ rfl⟩
 · rcases hcases at1 held1 third h1 with ⟨rfl, -, rfl⟩ | ⟨-, hold1⟩
   · rcases hcases at2 held2 third h2 with ⟨rfl, -, -⟩ | ⟨-, hold2⟩
     · rfl
     · exact absurd (h.entry at2 held2 third hold2).1 hnew
   · rcases hcases at2 held2 third h2 with ⟨rfl, -, rfl⟩ | ⟨-, hold2⟩
     · exact absurd (h.entry at1 held1 third hold1).1 hnew
     · exact h.unique at1 at2 held1 held2 third hold1 hold2
 · rcases hin with ⟨hin, hthird⟩ | rfl
   · obtain ⟨at'', hent⟩ := h.present third hin
     refine ⟨at'', ?_⟩
     have hne : at' ≠ at'' := by
      grind
     rw [setSlot, getElem?_set_ne hne, hent, hsame third hin hthird]
   · exact ⟨at', by rw [setSlot, getElem?_set_self hlt, hhash]⟩

end

/-! ## Lookup -/

/-- A walk ends at a row of the hash that matches, or at an empty slot where no row does. -/
theorem walk (h : Indexed hash inside index) (hroom : index.used < index.slots.length)
  (held : BitVec 32) (matched : Nat → Bool) : ∃ at', index.walk held matched = some at' ∧
   ((∃ row, index.rowAt at' = some row ∧ inside row ∧ hash row = held ∧ matched row = true) ∨
     (index.rowAt at' = none ∧ index.slots[at']? = some Slot.empty ∧
      Reaches index.slots Slot.isEmpty (index.start held) at' ∧
      ∀ row, inside row → hash row = held → matched row = false)) := by
 obtain ⟨empty', hempty⟩ := h.exists_empty hroom
 obtain ⟨at', hwalk⟩ := probe_isSome (ends held matched) (index.start held) hempty rfl
 obtain ⟨hstop, hreach⟩ := probe_eq_some_iff.1 hwalk
 obtain ⟨slot, hslot, hends⟩ := (Option.any_eq_true _ _).1 hstop
 refine ⟨at', hwalk, ?_⟩
 cases slot with
 | tombstone => nomatch hends
 | entry held' row =>
  have hboth : held' = held ∧ matched row = true := by simpa [ends] using hends
  obtain ⟨hin, hheld, -⟩ := h.entry at' held' row hslot
  exact .inl ⟨row, rowAt_eq_some.2 ⟨held', hslot⟩, hin, hheld.symm.trans hboth.1, hboth.2⟩
 | empty =>
  have hnone : index.rowAt at' = none := by
   rw [rowAt, hslot]
  have hopen : Reaches index.slots isEmpty (index.start held) at' := by
   refine hreach.mono fun slot hempty => ?_
   cases slot with
   | empty => rfl
   | tombstone => nomatch hempty
   | entry held row => nomatch hempty
  refine .inr ⟨hnone, hslot, hopen, fun row hin hrow => ?_⟩
  by_contra hmatch
  -- the walk would have stopped at the row, or at a slot before it that is not empty
  obtain ⟨at'', hent⟩ := h.present row hin
  have hreach' := (h.entry at'' (hash row) row hent).2.2
  rw [hrow] at hreach' hent
  have hends' : ends held matched (.entry held row) = true := by
   simpa [ends] using hmatch
  obtain ⟨found, hfound, hplace⟩ := hreach'.probe hent hends'
  obtain rfl : found = at' := some.inj (hfound.symm.trans hwalk)
  rcases hplace with rfl | hclosed
  · nomatch some.inj (hslot.symm.trans hent)
  · rw [hslot] at hclosed
    nomatch hclosed

end Indexed

end Tir.Relational
