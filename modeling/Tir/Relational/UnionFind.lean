import Tir.Basic.Offsets

/-!
# The union-find

A `UnionFind` partitions ids and places each at an offset from its parent. The survivor of a `union`
is the smaller id, unless one side is pinned. `flatten` points every id straight at its
representative. `UnionFind.Formed` is what every operation keeps, and under it a `find` is the
representative and the offsets summed on the way (`UnionFind.find_eq`).
-/

open Nat Bool

namespace Tir.Relational

structure Ref where
 id : Nat
 offset : Word
deriving DecidableEq, Inhabited

/-- What a `union` did. A contradiction is two references naming one id at two offsets, or two
pinned ids. -/
inductive Merge where
 | same
 | merged (survivor absorbed : Nat)
 | contradiction
deriving DecidableEq

/-- One partition: `id = parent + delta`, modulo the mask of the representative. -/
structure UnionFind where
 parent : List Nat
 delta : List Word
 mask : List Word
 pinned : List Bool
 /-- Per id, whether a union tried to put it at a non-zero offset from itself. -/
 conflict : List Bool
 /-- Whether some delta has been non-zero. -/
 shifted : Bool
 /-- The lowest id a union absorbed since the last `flatten`. -/
 flatBelow : Option Nat

namespace UnionFind

def empty : UnionFind :=
 ⟨[], [], [], [], [], false, none⟩

variable (uf : UnionFind)

def len : Nat :=
 uf.parent.length

def parentOf (id : Nat) : Nat :=
 uf.parent.getD id id

def deltaOf (id : Nat) : Word :=
 uf.delta.getD id 0

def maskAt (id : Nat) : Word :=
 uf.mask.getD id 0

def isPinned (id : Nat) : Bool :=
 uf.pinned.getD id false

/-- Mint an id in a set of its own. -/
def push (mask : Word) (pinned : Bool) : UnionFind :=
 { uf with
   parent := uf.parent ++ [uf.len]
   delta := uf.delta ++ [0]
   mask := uf.mask ++ [mask]
   pinned := uf.pinned ++ [pinned]
   conflict := uf.conflict ++ [false] }

/-- The loop that walks up to a representative. -/
def rootFrom : Nat → Nat → Nat
 | 0, id => id
 | fuel + 1, id => if uf.parentOf id = id then id else rootFrom fuel (uf.parentOf id)

def root (id : Nat) : Nat :=
 uf.rootFrom uf.len id

/-- The loop that walks up and sums the offsets. -/
def findFrom : Nat → Ref → Ref
 | 0, ref => ref
 | fuel + 1, ref =>
  if uf.parentOf ref.id = ref.id then ref
  else findFrom fuel ⟨uf.parentOf ref.id, ref.offset + uf.deltaOf ref.id⟩

/-- `ref` as its representative plus an offset. -/
def find (ref : Ref) : Ref :=
 if !uf.shifted && ref.offset == 0 then ⟨uf.root ref.id, 0⟩
 else
  let found := uf.findFrom uf.len ref
  ⟨found.id, found.offset &&& uf.maskAt found.id⟩

/-- The mask offsets on the set of `id` are reduced by. -/
def maskOf (id : Nat) : Word :=
 uf.maskAt (uf.root id)

/-- Whether the representative of `id` is a carrier's zero. -/
def isZero (id : Nat) : Bool :=
 uf.isPinned (uf.root id)

/-- Hang `absorbed` under `survivor`, two representatives at offsets that name one value. -/
def link (survivor absorbed : Ref) : UnionFind :=
 let mask := uf.maskAt survivor.id ||| uf.maskAt absorbed.id
 -- absorbed.id + absorbed.offset = survivor.id + survivor.offset
 let delta := (survivor.offset - absorbed.offset) &&& mask
 { uf with
   parent := uf.parent.set absorbed.id survivor.id
   delta := uf.delta.set absorbed.id delta
   mask := uf.mask.set survivor.id mask
   conflict := uf.conflict.set survivor.id
    (uf.conflict.getD survivor.id false || uf.conflict.getD absorbed.id false)
   shifted := uf.shifted || delta != 0
   flatBelow := some (match uf.flatBelow with
    | none => absorbed.id
    | some lowest => min lowest absorbed.id) }

def markConflict (id : Nat) : UnionFind :=
 { uf with conflict := uf.conflict.set id true }

/-- Record that `a` and `b` are one value. -/
def union (a b : Ref) : UnionFind × Merge :=
 let a := uf.find a
 let b := uf.find b
 if a.id = b.id then
  if a.offset = b.offset then (uf, .same) else (uf.markConflict a.id, .contradiction)
 else if uf.isPinned a.id && uf.isPinned b.id then
  ((uf.markConflict a.id).markConflict b.id, .contradiction)
 else if uf.isPinned a.id || !uf.isPinned b.id && a.id < b.id then
  (uf.link a b, .merged a.id b.id)
 else
  (uf.link b a, .merged b.id a.id)

/-- Point `id` at its parent's parent. -/
def flattenStep (uf : UnionFind) (id : Nat) : UnionFind :=
 let parent := uf.parentOf id
 let root := uf.parentOf parent
 { uf with
   parent := uf.parent.set id root
   delta := if uf.shifted then
     uf.delta.set id ((uf.deltaOf id + uf.deltaOf parent) &&& uf.maskAt root)
    else uf.delta }

/-- The ids from the lowest one absorbed on whose parents are no longer representatives. -/
def steps : List Nat :=
 let start := match uf.flatBelow with
  | none => uf.len
  | some lowest => min lowest uf.len
 (List.range' start (uf.len - start)).filter fun id => uf.parentOf (uf.parentOf id) ≠ uf.parentOf id

/-- Point every id straight at its representative. -/
def flatten : UnionFind :=
 uf.steps.foldl flattenStep { uf with flatBelow := none }

/-- Id -> offset from its parent, or nothing while every one is zero. -/
def deltas : Option (List Word) :=
 if uf.shifted then some uf.delta else none

/-! ## Well-formed partitions -/

/-- What every operation keeps. A parent is never above its child except where it is pinned. -/
structure Formed : Prop where
 delta : uf.delta.length = uf.len
 mask : uf.mask.length = uf.len
 pinned : uf.pinned.length = uf.len
 conflict : uf.conflict.length = uf.len
 parent_lt : ∀ id, id < uf.len → uf.parentOf id < uf.len
 ordered : ∀ id, id < uf.len → uf.parentOf id ≤ id ∨ uf.isPinned (uf.parentOf id) = true
 parent_pinned : ∀ id, uf.isPinned id = true → uf.parentOf id = id
 delta_root : ∀ id, uf.parentOf id = id → uf.deltaOf id = 0
 straight : uf.shifted = false → ∀ id, uf.deltaOf id = 0
 flat : ∀ id, id < uf.len → (∀ lowest ∈ uf.flatBelow, id < lowest) →
  uf.parentOf (uf.parentOf id) = uf.parentOf id
 low : ∀ id, IsLowMask (uf.maskAt id)

/-- The offset of an id from its representative, not reduced. -/
def total (id : Nat) : Word :=
 (uf.findFrom uf.len ⟨id, 0⟩).offset

/-- How far from a representative an id can be. -/
def rank (id : Nat) : Nat :=
 if uf.isPinned id then 0 else id + 1

theorem parentOf_of_le {id : Nat} (h : uf.len ≤ id) : uf.parentOf id = id := by
 rw [parentOf, List.getD_eq_default _ _ h]

theorem deltaOf_of_le (h : uf.Formed) {id : Nat} (hle : uf.len ≤ id) : uf.deltaOf id = 0 := by
 rw [deltaOf, List.getD_eq_default]
 rw [h.delta]
 exact hle

section Walking

variable {uf}
variable (h : uf.Formed)
include h

section

variable {id : Nat} (hne : uf.parentOf id ≠ id)

include hne

theorem parentOf_lt_of_ne : uf.parentOf id < uf.len ∧ id < uf.len := by
 rcases lt_or_ge id uf.len with hlt | hle
 · exact ⟨h.parent_lt id hlt, hlt⟩
 · exact absurd (uf.parentOf_of_le hle) hne

theorem rank_parentOf : uf.rank (uf.parentOf id) < uf.rank id := by
 obtain ⟨-, hlt⟩ := parentOf_lt_of_ne h hne
 have hfree : uf.isPinned id = false := eq_false_iff.2 fun hpinned => hne (h.parent_pinned id hpinned)
 rw [rank, rank, hfree]
 rcases h.ordered id hlt with hle | hpinned
 · split
   · exact succ_pos _
   · show _ < id + 1
     omega
 grind

theorem rank_le_of_ne : uf.rank id ≤ uf.len := by
 obtain ⟨-, hlt⟩ := parentOf_lt_of_ne h hne
 rw [rank]
 split
 · exact zero_le _
 · exact hlt

end

theorem rank_eq_zero {id : Nat} (hrank : uf.rank id = 0) : uf.parentOf id = id := by
 rw [rank] at hrank
 split at hrank
 · rename_i hpinned
   exact h.parent_pinned id hpinned
 · nomatch hrank

/-- What holds of the representatives and of an id whose parent it holds of, holds of every id. -/
@[elab_as_elim]
theorem walk_induction {motive : Nat → Prop} (root : ∀ id, uf.parentOf id = id → motive id)
  (step : ∀ id, uf.parentOf id ≠ id → motive (uf.parentOf id) → motive id) (id : Nat) : motive id := by
 induction hrank : uf.rank id using Nat.strong_induction_on generalizing id with
 | _ rank ih =>
  by_cases hself : uf.parentOf id = id
  · exact root id hself
  · exact step id hself (ih _ (hrank ▸ rank_parentOf h hself) _ rfl)

/-- The walks with fuel for the rank are one walk. -/
theorem findFrom_congr (fuel fuel' : Nat) (ref : Ref) (hfuel : uf.rank ref.id ≤ fuel)
  (hfuel' : uf.rank ref.id ≤ fuel') : uf.findFrom fuel ref = uf.findFrom fuel' ref := by
 have hstuck : ∀ fuel (ref : Ref), uf.parentOf ref.id = ref.id → uf.findFrom fuel ref = ref := by
  intro fuel ref hself
  cases fuel with
  | zero => rfl
  | succ fuel => rw [findFrom, if_pos hself]
 induction fuel generalizing fuel' ref with
 | zero =>
  grind [rank_eq_zero]
 | succ fuel ih =>
  by_cases hself : uf.parentOf ref.id = ref.id
  · rw [hstuck _ _ hself, hstuck _ _ hself]
  · have hless := rank_parentOf h hself
    cases fuel' with
    | zero => exact absurd (rank_eq_zero h (le_zero.1 hfuel')) hself
    | succ fuel' =>
     rw [findFrom, findFrom, if_neg hself, if_neg hself]
     apply ih
     · grind
     grind

omit h in
theorem findFrom_id (fuel : Nat) (ref : Ref) : (uf.findFrom fuel ref).id = uf.rootFrom fuel ref.id := by
 induction fuel generalizing ref with
 | zero => rfl
 | succ fuel ih =>
  rw [findFrom, rootFrom]
  split
  · rfl
  · exact ih _

omit h in
theorem findFrom_offset (fuel : Nat) (ref : Ref) (offset : Word) :
  (uf.findFrom fuel ⟨ref.id, ref.offset + offset⟩).offset = (uf.findFrom fuel ref).offset + offset := by
 induction fuel generalizing ref with
 | zero => rfl
 | succ fuel ih =>
  rw [findFrom, findFrom]
  split
  · rfl
  · rw [← ih ⟨uf.parentOf ref.id, ref.offset + uf.deltaOf ref.id⟩]
    congr 3
    ring

omit h in
theorem root_of_self {id : Nat} (hself : uf.parentOf id = id) : uf.root id = id := by
 rw [root]
 cases uf.len with
 | zero => rfl
 | succ fuel => rw [rootFrom, if_pos hself]

omit h in
theorem total_of_self {id : Nat} (hself : uf.parentOf id = id) : uf.total id = 0 := by
 rw [total]
 cases uf.len with
 | zero => rfl
 | succ fuel => rw [findFrom, if_pos hself]

theorem findFrom_parentOf {id : Nat} (hne : uf.parentOf id ≠ id) (offset : Word) :
  uf.findFrom uf.len ⟨id, offset⟩ = uf.findFrom uf.len ⟨uf.parentOf id, offset + uf.deltaOf id⟩ := by
 have hrank := rank_le_of_ne h hne
 rw [findFrom_congr h uf.len (uf.len + 1) ⟨id, offset⟩ hrank (le_succ_of_le hrank), findFrom, if_neg hne]

theorem root_parentOf (id : Nat) : uf.root (uf.parentOf id) = uf.root id := by
 by_cases hself : uf.parentOf id = id
 · rw [hself]
 · have hwalk := congrArg Ref.id (findFrom_parentOf h hself 0)
   rw [findFrom_id, findFrom_id] at hwalk
   exact hwalk.symm

theorem total_parentOf (id : Nat) : uf.total id = uf.total (uf.parentOf id) + uf.deltaOf id := by
 by_cases hself : uf.parentOf id = id
 · rw [hself, h.delta_root id hself, add_zero]
 · rw [total, findFrom_parentOf h hself, total, ← findFrom_offset]

theorem parentOf_root (id : Nat) : uf.parentOf (uf.root id) = uf.root id := by
 induction id using walk_induction h with
 | root id hself => rw [root_of_self hself, hself]
 | step id _ ih =>
  rw [← root_parentOf h id]
  exact ih

theorem root_lt {id : Nat} (hlt : id < uf.len) : uf.root id < uf.len := by
 induction id using walk_induction h with
 | root id hself =>
  rw [root_of_self hself]
  exact hlt
 | step id _ ih =>
  rw [← root_parentOf h id]
  exact ih (h.parent_lt id hlt)

@[simp] theorem root_root (id : Nat) : uf.root (uf.root id) = uf.root id :=
  root_of_self (parentOf_root h id)

@[simp] theorem total_root (id : Nat) : uf.total (uf.root id) = 0 :=
  total_of_self (parentOf_root h id)

theorem total_of_straight (hstraight : uf.shifted = false) (id : Nat) : uf.total id = 0 := by
 induction id using walk_induction h with
 | root id hself => exact total_of_self hself
 | step id _ ih => rw [total_parentOf h, ih, h.straight hstraight, add_zero]

/-- A representative above an id is pinned. -/
theorem root_le (id : Nat) : uf.root id ≤ id ∨ uf.isPinned (uf.root id) = true := by
 induction id using walk_induction h with
 | root id hself => exact .inl (le_of_eq (root_of_self hself))
 | step id hne ih =>
  rw [← root_parentOf h id]
  obtain ⟨-, hlt⟩ := parentOf_lt_of_ne h hne
  rcases h.ordered id hlt with hle | hpinned
  · exact ih.imp (fun hroot => hroot.trans hle) fun hpinned => hpinned
  · refine .inr ?_
    rw [root_of_self (h.parent_pinned _ hpinned)]
    exact hpinned

/-- A find is the representative, at the offsets summed on the way. -/
theorem find_eq (ref : Ref) :
  uf.find ref = ⟨uf.root ref.id, (ref.offset + uf.total ref.id) &&& uf.maskOf ref.id⟩ := by
 have hwalk : uf.findFrom uf.len ref = ⟨uf.root ref.id, ref.offset + uf.total ref.id⟩ := by
  have hid : (uf.findFrom uf.len ref).id = uf.root ref.id := findFrom_id _ _
  have hoff := @findFrom_offset uf uf.len ⟨ref.id, 0⟩ ref.offset
  rw [zero_add] at hoff
  cases hfound : uf.findFrom uf.len ref with
  | mk id offset =>
   rw [hfound] at hid hoff
   simp only at hid hoff
   rw [hid, hoff, add_comm]
   rfl
 rw [find]
 split
 · rename_i hfast
   rw [and_eq_true, not_eq_true', beq_iff_eq] at hfast
   rw [total_of_straight h hfast.1, hfast.2, add_zero]
   simp_all
 · rw [hwalk]
   rfl

end Walking

end UnionFind

end Tir.Relational
