import Tir.RegAlloc.LiveRounds
import Tir.RegAlloc.LiveSeed

/-!
# Where a value is held

What the tables are to say of a function: where each value is live, and the points of a block at which it is
held.
-/

namespace Tir.RegAlloc.Live

namespace Seed

variable (seed : Seed)

/-! ## The function -/

/-- The operation at an index of a block. -/
def HasOp (b i : Nat) (op : MachineOp) : Prop :=
 ∃ block, seed.blocks[b]? = some block ∧ block.ops[i]? = some op

def Use (b i v : Nat) : Prop :=
 ∃ op, seed.HasOp b i op ∧ v ∈ op.uses

def Def (b i v : Nat) : Prop :=
 ∃ op, seed.HasOp b i op ∧ v ∈ op.defs

def Clobber (b i : Nat) (register : PhysReg) : Prop :=
 ∃ op, seed.HasOp b i op ∧ register ∈ op.physDefs ∧ seed.allocatable register = true

def Edge (b b' : Nat) : Prop :=
 ∃ i op, seed.HasOp b i op ∧ b' ∈ op.successors ∧ b' < seed.blocks.length

/-- A parameter of a block that no operation of the entry block defines. -/
def Argument (b v : Nat) : Prop :=
 ∃ block, seed.blocks[b]? = some block ∧ v ∈ seed.paramsOf block

/-- A value that is read and defined nowhere. -/
def Unwritten (v : Nat) : Prop :=
 (∃ b i, seed.Use b i v) ∧ (∀ b i, ¬seed.Def b i v) ∧ ∀ b, ¬seed.Argument b v

/-- A value written on entry to a block. -/
def Param (b v : Nat) : Prop :=
 seed.Argument b v ∨ b = 0 ∧ seed.Unwritten v

def DefinedIn (b v : Nat) : Prop :=
 seed.Param b v ∨ ∃ i, seed.Def b i v

/-- What strict SSA form says of definitions: a value has one defining block, and what its block reads of it
it reads after the definition. -/
structure Strict : Prop where
 single : ∀ b b' v, seed.DefinedIn b v → seed.DefinedIn b' v → b = b'
 after : ∀ b i j v, seed.Def b i v → seed.Use b j v → i < j

/-! ## Liveness -/

/-- A value is live into a block that reads it before any definition, or that passes it on to a successor it is
live into. -/
inductive LiveIn : Nat → Nat → Prop where
 | read {b i v : Nat} : seed.Use b i v → ¬seed.Param b v → (∀ j < i, ¬seed.Def b j v) → LiveIn b v
 | through {b b' v : Nat} : seed.Edge b b' → LiveIn b' v → ¬seed.DefinedIn b v → LiveIn b v

def LiveOut (b v : Nat) : Prop :=
 ∃ b', seed.Edge b b' ∧ seed.LiveIn b' v

/-- A point of a block, from its entry to the last of its last operation. -/
def IsPoint (b x : Nat) : Prop :=
 ∃ block, seed.blocks[b]? = some block ∧ x < point block.ops.length

/-- A value is in its place at a point: live into the block, or written before the point. -/
def Written (b v x : Nat) : Prop :=
 seed.LiveIn b v ∨ seed.Param b v ∧ 1 ≤ x ∨ ∃ i, seed.Def b i v ∧ point i + 1 ≤ x

/-- A value is wanted at a point: live out of the block, read after the point, or only just written. -/
def Wanted (b v x : Nat) : Prop :=
 seed.LiveOut b v ∨ (∃ i, seed.Use b i v ∧ x < point i) ∨ seed.Param b v ∧ x < 2 ∨ ∃ i, seed.Def b i v ∧ x < point i + 2

/-- A block holds a value at a point. -/
structure HeldAt (b v x : Nat) : Prop where
 point : seed.IsPoint b x
 written : seed.Written b v x
 wanted : seed.Wanted b v x

/-! ## Bounds -/

/-- Where a range of a value in a block starts. -/
inductive StartsAt (b v : Nat) : Int → Prop where
 | live : seed.LiveIn b v → StartsAt b v 0
 | param : seed.Param b v → StartsAt b v 1
 | write {i : Nat} : seed.Def b i v → StartsAt b v ((point i : Int) + 1)

/-- Where a range of a value in a block ends. -/
inductive EndsAt (b v : Nat) : Int → Prop where
 | live : seed.LiveOut b v → EndsAt b v EXIT
 | param : seed.Param b v → EndsAt b v 2
 | write {i : Nat} : seed.Def b i v → EndsAt b v ((point i : Int) + 2)
 | read {i : Nat} : seed.Use b i v → EndsAt b v (point i)

variable {seed}

theorem written_iff {b v x : Nat} : seed.Written b v x ↔ ∃ start, seed.StartsAt b v start ∧ start ≤ (x : Int) := by
 constructor
 · rintro (h | ⟨h, hx⟩ | ⟨i, h, hx⟩)
   · exact ⟨0, .live h, by omega⟩
   · exact ⟨1, .param h, by omega⟩
   · exact ⟨_, .write h, by omega⟩
 · rintro ⟨start, h | h | h, hx⟩
   · exact .inl h
   · exact .inr (.inl ⟨h, by omega⟩)
   · exact .inr (.inr ⟨_, h, by omega⟩)

theorem point_lt_exit {b x : Nat} (h : seed.IsPoint b x) : (x : Int) < EXIT := by
 obtain ⟨block, -, hx⟩ := h
 have hfits := block.fits
 rw [EXIT]
 omega

theorem wanted_iff {b v x : Nat} (hpoint : seed.IsPoint b x) : seed.Wanted b v x ↔ ∃ finish, seed.EndsAt b v finish ∧ (x : Int) < finish := by
 constructor
 · rintro (h | ⟨i, h, hx⟩ | ⟨h, hx⟩ | ⟨i, h, hx⟩)
   · exact ⟨EXIT, .live h, point_lt_exit hpoint⟩
   · exact ⟨_, .read h, by omega⟩
   · exact ⟨2, .param h, by omega⟩
   · exact ⟨_, .write h, by omega⟩
 · rintro ⟨finish, h | h | h | h, hx⟩
   · exact .inl h
   · exact .inr (.inr (.inl ⟨h, by omega⟩))
   · exact .inr (.inr (.inr ⟨_, h, by omega⟩))
   · exact .inr (.inl ⟨_, h, by omega⟩)

/-! ## Blocks and values -/

section

variable {b i : Nat} {op : MachineOp} (h : seed.HasOp b i op)

include h

theorem HasOp.lt : b < seed.blocks.length := by
 obtain ⟨block, hblk, -⟩ := h
 exact (getElem_of_getElem? hblk).1

theorem HasOp.isPoint {x : Nat} (hx : x ≤ point i + 3) : seed.IsPoint b x := by
 obtain ⟨block, hblk, hop⟩ := h
 have hlt := (getElem_of_getElem? hop).1
 refine ⟨block, hblk, ?_⟩
 simp only [point] at hx ⊢
 omega

end

section

variable {b v : Nat} (h : seed.LiveIn b v)

include h

theorem LiveIn.lt : b < seed.blocks.length := by
 cases h with
 | read huse => exact huse.elim fun _ h => h.1.lt
 | through hedge => exact hedge.elim fun _ h => h.elim fun _ h => h.1.lt

theorem LiveIn.exists_use : ∃ b' i, seed.Use b' i v := by
 induction h with
 | read huse => exact ⟨_, _, huse⟩
 | through _ _ _ ih => exact ih

theorem LiveIn.liveOut_or_use : seed.LiveOut b v ∨ ∃ i, seed.Use b i v := by
 cases h with
 | read huse => exact .inr ⟨_, huse⟩
 | through hedge hlive => exact .inl ⟨_, hedge, hlive⟩

end

theorem LiveOut.lt {b v : Nat} (h : seed.LiveOut b v) : b < seed.blocks.length := by
 obtain ⟨b', ⟨i, op, hop, -⟩, -⟩ := h
 exact hop.lt

theorem isPoint_of_lt {b : Nat} (h : b < seed.blocks.length) {x : Nat} (hx : x < 4) : seed.IsPoint b x := by
 refine ⟨seed.blocks[b], List.getElem?_eq_getElem h, ?_⟩
 simp only [point]
 omega

theorem Use.exists_definedIn {b i v : Nat} (h : seed.Use b i v) : ∃ b', seed.DefinedIn b' v := by
 by_cases hdef : ∃ b' j, seed.Def b' j v
 · obtain ⟨b', j, hdef⟩ := hdef
   exact ⟨b', .inr ⟨j, hdef⟩⟩
 · by_cases harg : ∃ b', seed.Argument b' v
   · obtain ⟨b', harg⟩ := harg
     exact ⟨b', .inl (.inl harg)⟩
   · push Not at hdef harg
     exact ⟨0, .inl (.inr ⟨rfl, ⟨b, i, h⟩, hdef, harg⟩)⟩

/-- In strict SSA form the values live into a block that reads them are those another block defines. -/
theorem Strict.liveIn_of_use (h : seed.Strict) {b d i v : Nat} (huse : seed.Use b i v) (hdef : seed.DefinedIn d v) (hne : b ≠ d) :
  seed.LiveIn b v := by
 have hother : ¬seed.DefinedIn b v := fun hb => hne (h.single b d v hb hdef)
 exact .read huse (fun hparam => hother (.inl hparam)) fun j _ hj => hother (.inr ⟨j, hj⟩)

theorem Strict.exists_other (h : seed.Strict) {b i v : Nat} (huse : seed.Use b i v) (hparam : ¬seed.Param b v)
  (hbef : ∀ j < i, ¬seed.Def b j v) : ∃ d, seed.DefinedIn d v ∧ b ≠ d := by
 obtain ⟨d, hdef⟩ := huse.exists_definedIn
 refine ⟨d, hdef, ?_⟩
 rintro rfl
 rcases hdef with hd | ⟨j, hj⟩
 · exact hparam hd
 · exact hbef j (h.after b j i v hj huse) hj

end Seed

end Tir.RegAlloc.Live
