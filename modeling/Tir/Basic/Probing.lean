import Mathlib.Data.List.Basic
import Mathlib.Data.Nat.Basic

/-!
# Probing a ring of slots

Open addressing walks a ring of slots from where a key hashes until a slot stops it. `probe` is that
walk. A key placed where its walk meets no open slot before is found again by every walk that stops
at it (`Reaches.probe`), whatever is written to the slots on the way (`Reaches.set`).
-/

open List Option Nat

namespace Tir

variable {σ : Type}

/-- The positions a walk meets from `start`, each once. -/
def ring (size start : Nat) : List Nat :=
 (List.range size).map fun step => (start + step) % size

/-- The first position from `start` whose slot stops the walk; `none` where it goes round for ever. -/
def probe (slots : List σ) (stop : σ → Bool) (start : Nat) : Option Nat :=
 (ring slots.length start).find? fun position => (slots[position]?).any stop

/-- The walk from `start` reaches `position` before any open slot. -/
def Reaches (slots : List σ) (opens : σ → Bool) (start position : Nat) : Prop :=
 ∃ step, step < slots.length ∧ position = (start + step) % slots.length ∧
  ∀ earlier, earlier < step → (slots[(start + earlier) % slots.length]?).any opens = false

theorem exists_step {size position : Nat} (start : Nat) (h : position < size) :
  ∃ step, step < size ∧ position = (start + step) % size := by
 have hsize : 0 < size := lt_of_le_of_lt (zero_le position) h
 have hstart : start % size < size := mod_lt start hsize
 refine ⟨(position + (size - start % size)) % size, mod_lt _ hsize, ?_⟩
 rw [add_mod_mod, ← mod_add_mod]
 have hsum : start % size + (position + (size - start % size)) = position + size := by omega
 rw [hsum, add_mod_right, mod_eq_of_lt h]

theorem probe_eq_some_iff {slots : List σ} {stop : σ → Bool} {start position : Nat} :
  probe slots stop start = some position ↔
   (slots[position]?).any stop = true ∧ Reaches slots stop start position := by
 rw [probe, find?_eq_some_iff_getElem]
 simp only [ring, length_map, length_range, getElem_map, getElem_range]
 constructor
 · rintro ⟨hstop, step, hstep, rfl, hbef⟩
   refine ⟨hstop, step, hstep, rfl, fun earlier hearlier => ?_⟩
   simpa using hbef earlier hearlier
 · rintro ⟨hstop, step, hstep, rfl, hbef⟩
   exact ⟨hstop, step, hstep, rfl, fun earlier hearlier => by simpa using hbef earlier hearlier⟩

theorem probe_isSome {slots : List σ} (stop : σ → Bool) (start : Nat) {position : Nat} {slot : σ}
  (hslot : slots[position]? = some slot) (hstop : stop slot = true) :
  ∃ found, probe slots stop start = some found := by
 rw [← isSome_iff_exists, probe, find?_isSome]
 obtain ⟨step, hstep, hposn⟩ := exists_step start (List.getElem?_eq_some_iff.1 hslot).1
 refine ⟨position, ?_, by rw [hslot]; exact hstop⟩
 exact List.mem_map.2 ⟨step, mem_range.2 hstep, hposn.symm⟩

namespace Reaches

variable {slots : List σ} {opens stop : σ → Bool} {start position : Nat}

theorem mono (h : Reaches slots stop start position)
  (hsub : ∀ slot, opens slot = true → stop slot = true) : Reaches slots opens start position := by
 obtain ⟨step, hstep, hposn, hbef⟩ := h
 refine ⟨step, hstep, hposn, fun earlier hearlier => ?_⟩
 have hpass := hbef earlier hearlier
 cases hslot : slots[(start + earlier) % slots.length]? with
 | none => rfl
 | some slot =>
  rw [hslot, any_some] at hpass
  rw [any_some, Bool.eq_false_iff]
  intro hopen
  rw [hsub slot hopen] at hpass
  nomatch hpass

/-- A write that opens no slot keeps what is reached. -/
theorem set (h : Reaches slots opens start position) (at' : Nat) {slot : σ}
  (hslot : opens slot = false) : Reaches (slots.set at' slot) opens start position := by
 obtain ⟨step, hstep, hposn, hbef⟩ := h
 rw [Reaches, length_set]
 refine ⟨step, hstep, hposn, fun earlier hearlier => ?_⟩
 rcases eq_or_ne at' ((start + earlier) % slots.length) with heq | hne
 · rw [← heq, getElem?_set_self']
   cases slots[at']? with
   | none => rfl
   | some old => exact hslot
 · rw [getElem?_set_ne hne]
   exact hbef earlier hearlier

/-- A walk that stops at a slot it reaches ends there, or earlier at a slot that is not open. -/
theorem probe (h : Reaches slots opens start position) {slot : σ}
  (hslot : slots[position]? = some slot) (hstop : stop slot = true) : ∃ found, Tir.probe slots stop start = some found ∧
   (found = position ∨ (slots[found]?).any opens = false) := by
 obtain ⟨found, hfound⟩ := probe_isSome stop start hslot hstop
 refine ⟨found, hfound, ?_⟩
 obtain ⟨-, step', hstep', rfl, hbef'⟩ := probe_eq_some_iff.1 hfound
 obtain ⟨step, hstep, rfl, hbef⟩ := h
 rcases lt_trichotomy step' step with hlt | rfl | hgt
 · exact .inr (hbef step' hlt)
 · exact .inl rfl
 · -- the walk would have stopped at `position`
   have hpass := hbef' step hgt
   rw [hslot, any_some, hstop] at hpass
   nomatch hpass

end Reaches

end Tir
