import Tir.Relational.UnionFindSteps

/-!
# What a union-find says of values

`env` gives each id a value that takes offsets, and `Holds env` says that the union-find places each id
truly: an id's value is its representative's, shifted. It is kept by minting, by flattening and by a
union of two references of one value, and a find keeps the value of its reference (`Holds.value_find`).
-/

namespace Tir.Relational

open Offsets

universe u

def Ref.value {V : Type u} [Offsets V] (env : Nat → V) (ref : Ref) : V :=
 Offsets.shift (env ref.id) ref.offset

namespace UnionFind

variable {uf uf' uf'' : UnionFind} {V : Type u} [Offsets V] {env : Nat → V}

/-! ## Finds -/

section Finds

variable (h : uf.Formed)
include h

theorem find_id (ref : Ref) : (uf.find ref).id = uf.root ref.id := by
 rw [find_eq h]

theorem find_offset (ref : Ref) :
  (uf.find ref).offset = (ref.offset + uf.total ref.id) &&& uf.maskOf ref.id := by
 rw [find_eq h]

theorem maskOf_root (id : Nat) : uf.maskOf (uf.root id) = uf.maskOf id := by
 rw [maskOf, maskOf, root_root h]

@[simp] theorem find_find (ref : Ref) : uf.find (uf.find ref) = uf.find ref := by
  rw [find_eq h (uf.find ref), find_id h, root_root h, total_root h, maskOf_root h, add_zero, find_offset h,
   and_mask_and_mask, ← find_offset h, ← find_id h]

theorem find_lt {ref : Ref} (hlt : ref.id < uf.len) : (uf.find ref).id < uf.len := by
 rw [find_id h]
 exact root_lt h hlt

end Finds

/-! ## Values -/

/-- Every id stands where the union-find puts it, and every representative has its value's mask. -/
structure Holds (uf : UnionFind) (env : Nat → V) : Prop where
 value : ∀ id, id < uf.len → env id = Offsets.shift (env (uf.root id)) (uf.total id)
 mask : ∀ id, id < uf.len → uf.parentOf id = id → uf.maskAt id = Offsets.mask (env id)

namespace Holds

variable (hholds : uf.Holds env) (h : uf.Formed)
include hholds h

theorem maskOf_eq {id : Nat} (hlt : id < uf.len) : uf.maskOf id = Offsets.mask (env id) := by
 rw [maskOf, hholds.mask _ (root_lt h hlt) (parentOf_root h id), hholds.value id hlt, mask_shift]

theorem value_find {ref : Ref} (hlt : ref.id < uf.len) : (uf.find ref).value env = ref.value env := by
 rw [Ref.value, Ref.value, find_id h, find_offset h, hholds.maskOf_eq h hlt, hholds.value ref.id hlt,
  mask_shift, shift_mask, shift_shift, add_comm]

/-- References found equal are one value. -/
theorem value_eq {a b : Ref} (ha : a.id < uf.len) (hb : b.id < uf.len) (heq : uf.find a = uf.find b) :
  a.value env = b.value env := by
 rw [← hholds.value_find h ha, heq, hholds.value_find h hb]

theorem push {mask : Word} (pinned : Bool) (hmask : IsLowMask mask) (hnew : mask = Offsets.mask (env uf.len)) :
  (uf.push mask pinned).Holds env where
 value := by
  intro id hlt
  rw [len_push] at hlt
  obtain ⟨hroot, htotal⟩ := push_placed mask pinned h hmask id
  rw [hroot, htotal]
  rcases lt_or_ge id uf.len with hold | hge
  · exact hholds.value id hold
  · rw [root_of_self (parentOf_of_le uf hge), total_of_self (parentOf_of_le uf hge), shift_zero]
 mask := by
  intro id hlt hself
  rw [len_push] at hlt
  rw [parentOf_push] at hself
  rw [maskAt_push mask pinned h]
  split
  · rename_i heq
    rw [heq]
    exact hnew
  · exact hholds.mask id (by omega) hself

theorem flatten : uf.flatten.Holds env where
 value := by
  intro id hlt
  rw [len_flatten h] at hlt
  rw [(flat_flatten h).root_eq h.flatten, (flat_flatten h).total_eq h.flatten, parentOf_flatten h,
   hholds.value id hlt]
  apply Offsets.shift_congr
  have hmask : Offsets.mask (env (uf.root id)) = uf.maskOf id :=
   (hholds.mask _ (root_lt h hlt) (parentOf_root h id)).symm
  rw [hmask, deltaOf_flatten h]
 mask := by
  intro id hlt hself
  rw [len_flatten h] at hlt
  rw [parentOf_flatten h] at hself
  rw [maskAt_flatten h]
  exact hholds.mask id hlt (hself ▸ parentOf_root h id)

theorem link {survivor absorbed : Ref} (hlink : uf.Linkable survivor.id absorbed.id)
  (heq : survivor.value env = absorbed.value env) : (uf.link survivor absorbed).Holds env := by
 have hmask : uf.maskAt survivor.id = uf.maskAt absorbed.id := by
  rw [hholds.mask _ hlink.survivor_lt hlink.survivor_root, hholds.mask _ hlink.absorbed_lt hlink.absorbed_root,
   ← Offsets.mask_shift (env survivor.id) survivor.offset, ← Offsets.mask_shift (env absorbed.id) absorbed.offset]
  exact congrArg Offsets.mask heq
 have hdelta : env absorbed.id = Offsets.shift (env survivor.id) (uf.linkDelta survivor absorbed) := by
  rw [linkDelta, ← hmask, BitVec.or_self, hholds.mask _ hlink.survivor_lt hlink.survivor_root, Offsets.shift_mask,
   sub_eq_add_neg, ← shift_shift]
  have hval : shift (env survivor.id) survivor.offset = shift (env absorbed.id) absorbed.offset :=
   heq
  rw [hval, shift_shift, add_neg_cancel, shift_zero]
 refine ⟨fun id hlt => ?_, fun id hlt hself => ?_⟩
 · rw [len_link] at hlt
   obtain ⟨hroot, htotal⟩ := link_placed h hlink id
   rw [hroot, htotal, hholds.value id hlt]
   split
   · rename_i habsorbed
     rw [habsorbed, hdelta, shift_shift, add_comm]
   · rfl
 · rw [len_link] at hlt
   rw [parentOf_link hlink] at hself
   rw [maskAt_link h hlink]
   split at hself
   · rename_i habsorbed
     exact absurd (hself.trans habsorbed) hlink.ne
   · split
     · rename_i heq'
       rw [← hmask, BitVec.or_self, heq', hholds.mask _ hlink.survivor_lt hlink.survivor_root]
     · exact hholds.mask id hlt hself

omit h in
theorem markConflict (ids : List Nat) : (ids.foldl UnionFind.markConflict uf).Holds env := by
 induction ids generalizing uf with
 | nil => exact hholds
 | cons id ids ih =>
  apply @ih (uf.markConflict id)
  refine ⟨fun other hlt => ?_, hholds.mask⟩
  rw [root_markConflict, total_markConflict]
  exact hholds.value other hlt

end Holds

end UnionFind

end Tir.Relational
