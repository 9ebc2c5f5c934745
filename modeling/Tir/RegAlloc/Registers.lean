import Mathlib.Tactic

/-!
# Register classes, physical registers and their spans

Model of the register metadata of `core/src/backend/regalloc.rs`: a register class draws from
a register file, lists the file indices it can encode, and covers `groupWidth` consecutive
indices with each register. A physical register is a class and an index; its span is the run
of file units `(file, index)`, ..., `(file, index + width - 1)`. Two physical registers overlap
when their spans share a unit (`overlaps_iff_exists_unit`).

File indices are `u16` in the source. The model keeps them in `Nat`: a file has at most a few
dozen registers, so the sums `start + width` compared by `overlaps` do not wrap.
-/

namespace Tir.RegAlloc

/-- Where a class's architectural view sits in its storage element, and whether a write merges
into the element. -/
structure RegisterView where
 bitOffset : Nat
 merge : Bool
 deriving DecidableEq, Repr

/-- Architectural metadata of one register class. -/
structure RegClassInfo where
 name : String
 file : String
 registers : List Nat
 groupWidth : Nat
 view : RegisterView
 deriving DecidableEq, Repr

/-- A handle to a register class: the address of its static record, and the record there.
Handles are compared by address in the source; one address holds one record. -/
structure RegClassId where
 address : Nat
 info : RegClassInfo
 deriving DecidableEq, Repr

namespace RegClassId

/-- The physical register file the class draws from. -/
def file (c : RegClassId) : String := c.info.file

/-- The class can encode file index `index`. -/
def contains (c : RegClassId) (index : Nat) : Bool := c.info.registers.contains index

/-- Both classes name the same physical registers at equal indices. -/
def sharesViewWith (c other : RegClassId) : Bool :=
 c.file == other.file && c.info.view.bitOffset == other.info.view.bitOffset &&
  c.info.groupWidth == other.info.groupWidth

/-- Every register of the class is encodable by `other` through the same view. -/
def isSubclassOf (c other : RegClassId) : Bool :=
 c.sharesViewWith other && c.info.registers.all fun index => other.contains index

/-- The number of file indices a register of the class covers. -/
def width (c : RegClassId) : Nat := max c.info.groupWidth 1

/-- The file, start index and width a register of the class at `index` covers. -/
def span (c : RegClassId) (index : Nat) : String × Nat × Nat := (c.file, index, c.width)

/-- Same file and intersecting index spans. -/
def overlaps (c : RegClassId) (index : Nat) (other : RegClassId) (otherIndex : Nat) : Bool :=
 c.file == other.file && decide (index < otherIndex + other.width) &&
  decide (otherIndex < index + c.width)

theorem width_pos (c : RegClassId) : 0 < c.width := by
 unfold width
 omega

end RegClassId

/-- A physical register: a class and a file index. -/
abbrev PhysReg := RegClassId × Nat

/-- One storage unit of a register file. -/
abbrev RegUnit := String × Nat

namespace PhysReg

/-- The span of a physical register. -/
def span (r : PhysReg) : String × Nat × Nat := r.1.span r.2

/-- The number of units a physical register covers. -/
def width (r : PhysReg) : Nat := r.1.width

/-- `RegisterInfo::phys_overlap`: the two registers share a unit. -/
def overlaps (a b : PhysReg) : Bool := a.1.overlaps a.2 b.1 b.2

/-- The `k`-th unit of a register. -/
def unit (r : PhysReg) (k : Nat) : RegUnit := (r.1.file, r.2 + k)

/-- The unit belongs to the span of the register. -/
def Covers (r : PhysReg) (u : RegUnit) : Prop := u.1 = r.1.file ∧ r.2 ≤ u.2 ∧ u.2 < r.2 + r.width

instance (r : PhysReg) (u : RegUnit) : Decidable (r.Covers u) :=
 inferInstanceAs (Decidable (_ ∧ _ ∧ _))

theorem width_pos (r : PhysReg) : 0 < r.width := r.1.width_pos

theorem overlaps_iff (a b : PhysReg) : a.overlaps b = true ↔
   a.1.file = b.1.file ∧ a.2 < b.2 + b.width ∧ b.2 < a.2 + a.width := by
 simp [overlaps, RegClassId.overlaps, width, and_assoc]

theorem overlaps_self (r : PhysReg) : r.overlaps r = true := by
 have h := r.width_pos
 rw [overlaps_iff]
 exact ⟨rfl, by omega, by omega⟩

theorem overlaps_comm (a b : PhysReg) : a.overlaps b = b.overlaps a := by
 rw [Bool.eq_iff_iff, overlaps_iff, overlaps_iff]
 constructor
 · rintro ⟨hf, h1, h2⟩
   exact ⟨hf.symm, h2, h1⟩
 · rintro ⟨hf, h1, h2⟩
   exact ⟨hf.symm, h2, h1⟩

theorem covers_iff_exists_unit (r : PhysReg) (u : RegUnit) :
  r.Covers u ↔ ∃ k, k < r.width ∧ u = r.unit k := by
 obtain ⟨f, i⟩ := u
 constructor
 · rintro ⟨hf, h1, h2⟩
   refine ⟨i - r.2, by omega, ?_⟩
   simp only [unit, Prod.mk.injEq]
   exact ⟨hf, by omega⟩
 · rintro ⟨k, hk, hu⟩
   simp only [unit, Prod.mk.injEq] at hu
   refine ⟨hu.1, ?_, ?_⟩
   · simp only [hu.2]
     omega
   · simp only [hu.2]
     omega

/-- Two registers overlap exactly when some unit belongs to both. -/
theorem overlaps_iff_exists_unit (a b : PhysReg) :
  a.overlaps b = true ↔ ∃ u, a.Covers u ∧ b.Covers u := by
 have ha := a.width_pos
 have hb := b.width_pos
 rw [overlaps_iff]
 constructor
 · rintro ⟨hf, h1, h2⟩
   refine ⟨(a.1.file, max a.2 b.2), ⟨rfl, by simp only; omega, by simp only; omega⟩,
    ⟨hf, by simp only; omega, by simp only; omega⟩⟩
 · rintro ⟨⟨f, i⟩, ⟨hfa, ha1, ha2⟩, ⟨hfb, hb1, hb2⟩⟩
   exact ⟨hfa.symm.trans hfb, by omega, by omega⟩

theorem not_covers_of_not_overlaps {a b : PhysReg} (h : a.overlaps b = false) {u : RegUnit}
  (ha : a.Covers u) : ¬ b.Covers u := by
 intro hb
 have hab := (overlaps_iff_exists_unit a b).2 ⟨u, ha, hb⟩
 rw [h] at hab
 exact Bool.noConfusion hab

theorem covers_congr_span {a b : PhysReg} (h : a.span = b.span) (u : RegUnit) :
  a.Covers u ↔ b.Covers u := by
 simp only [span, RegClassId.span, Prod.mk.injEq] at h
 obtain ⟨hf, hi, hw⟩ := h
 simp [Covers, width, hf, hi, hw]

theorem overlaps_congr_span {a b : PhysReg} (h : a.span = b.span) (c : PhysReg) :
  a.overlaps c = b.overlaps c := by
 rw [Bool.eq_iff_iff, overlaps_iff_exists_unit, overlaps_iff_exists_unit]
 constructor
 · rintro ⟨u, hu, hc⟩
   exact ⟨u, (covers_congr_span h u).1 hu, hc⟩
 · rintro ⟨u, hu, hc⟩
   exact ⟨u, (covers_congr_span h u).2 hu, hc⟩

end PhysReg

end Tir.RegAlloc
