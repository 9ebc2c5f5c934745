import Tir.Basic.Passes
import Tir.Relational.UnionFind

/-!
# What the operations on a union-find do

Minting an id, merging two representatives and flattening each keep a union-find well formed, and
what each does to the representatives and offsets is said here once: `push_placed`, `link_placed`
and `flattening`. A flattened union-find reads every find off its parents (`Flat`).
-/

open List Nat Finset

namespace Tir

theorem lowMask_or (width width' : Nat) : lowMask width ||| lowMask width' = lowMask (max width width') := by
 have hand : ∀ small large, small ≤ large → lowMask small ||| lowMask large = lowMask large := by
  intro small large hle
  have hinside : lowMask small &&& lowMask large = lowMask small := by
   apply BitVec.eq_of_toNat_eq
   rw [toNat_and_lowMask, toNat_lowMask]
   apply mod_eq_of_lt
   have hpow : 2 ^ min small 64 ≤ 2 ^ min large 64 := Nat.pow_le_pow_right (by decide) (by omega)
   grind
  grind
 rcases le_total width width' with hle | hle
 · rw [max_eq_right hle, hand _ _ hle]
 · rw [max_eq_left hle, BitVec.or_comm, hand _ _ hle]

theorem IsLowMask.or {mask mask' : Word} (h : IsLowMask mask) (h' : IsLowMask mask') : IsLowMask (mask ||| mask') := by
 obtain ⟨width, rfl⟩ := h
 obtain ⟨width', rfl⟩ := h'
 exact ⟨_, lowMask_or width width'⟩

namespace Relational.UnionFind

variable {uf : UnionFind}

/-! ## Minting -/

section Push

variable (mask : Word) (pinned : Bool)

theorem parentOf_push (id : Nat) : (uf.push mask pinned).parentOf id = uf.parentOf id := by
 simp only [parentOf, push, len, getD_eq_getElem?_getD]
 rcases lt_trichotomy id uf.parent.length with hlt | rfl | hgt
 · rw [getElem?_append_left hlt]
 · simp
 · rw [getElem?_eq_none (by simp; omega), getElem?_eq_none (by omega)]

theorem len_push : (uf.push mask pinned).len = uf.len + 1 := by
 simp [push, len]

theorem deltaOf_push (id : Nat) : (uf.push mask pinned).deltaOf id = uf.deltaOf id := by
 simp only [deltaOf, push, getD_eq_getElem?_getD]
 rcases lt_trichotomy id uf.delta.length with hlt | rfl | hgt
 · rw [getElem?_append_left hlt]
 · simp
 · rw [getElem?_eq_none (by simp; omega), getElem?_eq_none (by omega)]

variable (h : uf.Formed)
include h

theorem maskAt_push (id : Nat) :
  (uf.push mask pinned).maskAt id = if id = uf.len then mask else uf.maskAt id := by
 simp only [maskAt, push, getD_eq_getElem?_getD, ← h.mask]
 rcases lt_trichotomy id uf.mask.length with hlt | rfl | hgt
 · rw [getElem?_append_left hlt, if_neg (by omega)]
 · simp
 · rw [if_neg (by omega), getElem?_eq_none (by simp; omega), getElem?_eq_none (by omega)]

theorem isPinned_push (id : Nat) :
  (uf.push mask pinned).isPinned id = if id = uf.len then pinned else uf.isPinned id := by
 simp only [isPinned, push, getD_eq_getElem?_getD, ← h.pinned]
 rcases lt_trichotomy id uf.pinned.length with hlt | rfl | hgt
 · rw [getElem?_append_left hlt, if_neg (by omega)]
 · simp
 · rw [if_neg (by omega), getElem?_eq_none (by simp; omega), getElem?_eq_none (by omega)]

theorem Formed.push (hmask : IsLowMask mask) : (uf.push mask pinned).Formed where
 delta := by rw [len_push, ← h.delta]; simp [UnionFind.push]
 mask := by rw [len_push, ← h.mask]; simp [UnionFind.push]
 pinned := by rw [len_push, ← h.pinned]; simp [UnionFind.push]
 conflict := by rw [len_push, ← h.conflict]; simp [UnionFind.push]
 parent_lt := by
  intro id hlt
  rw [len_push] at hlt ⊢
  rw [parentOf_push]
  rcases lt_or_ge id uf.len with hold | hnew
  · exact lt_succ_of_lt (h.parent_lt id hold)
  · rw [parentOf_of_le uf hnew]
    exact hlt
 ordered := by
  intro id hlt
  rw [len_push] at hlt
  rw [parentOf_push, isPinned_push mask pinned h]
  rcases Nat.lt_or_ge id uf.len with hold | hnew
  · rw [if_neg (Nat.ne_of_lt (h.parent_lt id hold))]
    exact h.ordered id hold
  grind [parentOf_of_le]
 parent_pinned := by
  intro id hpinned
  rw [parentOf_push]
  rw [isPinned_push mask pinned h] at hpinned
  split at hpinned
  · grind [parentOf_of_le]
  · exact h.parent_pinned id hpinned
 delta_root := by
  intro id hself
  rw [parentOf_push] at hself
  rw [deltaOf_push mask pinned]
  exact h.delta_root id hself
 straight := by
  intro hstraight id
  rw [deltaOf_push mask pinned]
  exact h.straight hstraight id
 flat := by
  intro id hlt hbelow
  rw [len_push] at hlt
  rw [parentOf_push, parentOf_push]
  rcases lt_or_ge id uf.len with hold | hnew
  · exact h.flat id hold hbelow
  · rw [parentOf_of_le uf hnew, parentOf_of_le uf hnew]
 low := by
  intro id
  rw [maskAt_push mask pinned h]
  split
  · exact hmask
  · exact h.low id

/-- A minted id is its own representative, and no other id moves. -/
theorem push_placed (hmask : IsLowMask mask) (id : Nat) :
  (uf.push mask pinned).root id = uf.root id ∧ (uf.push mask pinned).total id = uf.total id := by
 have hformed := h.push mask pinned hmask
 induction id using walk_induction h with
 | root id hself =>
  grind [parentOf_push, root_of_self, total_of_self]
 | step id hne ih =>
  grind [root_parentOf, total_parentOf, parentOf_push, deltaOf_push]

end Push

/-! ## Merging -/

section Link

/-- Two representatives one of which may hang under the other. -/
structure Linkable (uf : UnionFind) (survivor absorbed : Nat) : Prop where
 survivor_lt : survivor < uf.len
 absorbed_lt : absorbed < uf.len
 survivor_root : uf.parentOf survivor = survivor
 absorbed_root : uf.parentOf absorbed = absorbed
 free : uf.isPinned absorbed = false
 above : survivor < absorbed ∨ uf.isPinned survivor = true ∧ survivor ≠ absorbed

theorem Linkable.ne {survivor absorbed : Nat} (h : uf.Linkable survivor absorbed) : survivor ≠ absorbed := by
 rcases h.above with hlt | ⟨-, hne⟩
 · exact Nat.ne_of_lt hlt
 · exact hne

/-- The offset the absorbed id is put at. -/
def linkDelta (uf : UnionFind) (survivor absorbed : Ref) : Word :=
 (survivor.offset - absorbed.offset) &&& (uf.maskAt survivor.id ||| uf.maskAt absorbed.id)

@[simp] theorem len_link (survivor absorbed : Ref) : (uf.link survivor absorbed).len = uf.len := by
  simp [link, len]

@[simp] theorem isPinned_link (survivor absorbed : Ref) (id : Nat) :
  (uf.link survivor absorbed).isPinned id = uf.isPinned id :=
  rfl

variable {survivor absorbed : Ref} (h : uf.Formed) (hlink : uf.Linkable survivor.id absorbed.id)
include hlink

theorem parentOf_link (id : Nat) :
  (uf.link survivor absorbed).parentOf id = if id = absorbed.id then survivor.id else uf.parentOf id := by
 have hlt : absorbed.id < uf.parent.length := hlink.absorbed_lt
 simp only [parentOf, link, getD_eq_getElem?_getD, getElem?_set]
 by_cases heq : absorbed.id = id
 · grind
 · rw [if_neg heq, if_neg (Ne.symm heq)]

include h

theorem deltaOf_link (id : Nat) : (uf.link survivor absorbed).deltaOf id =
  if id = absorbed.id then uf.linkDelta survivor absorbed else uf.deltaOf id := by
 have hlt : absorbed.id < uf.delta.length := by rw [h.delta]; exact hlink.absorbed_lt
 simp only [deltaOf, link, linkDelta, getD_eq_getElem?_getD, getElem?_set]
 by_cases heq : absorbed.id = id
 · grind
 · rw [if_neg heq, if_neg (Ne.symm heq)]

theorem maskAt_link (id : Nat) : (uf.link survivor absorbed).maskAt id =
  if id = survivor.id then uf.maskAt survivor.id ||| uf.maskAt absorbed.id else uf.maskAt id := by
 have hlt : survivor.id < uf.mask.length := by rw [h.mask]; exact hlink.survivor_lt
 simp only [maskAt, link, getD_eq_getElem?_getD, getElem?_set]
 by_cases heq : survivor.id = id
 · grind
 · rw [if_neg heq, if_neg (Ne.symm heq)]

theorem Formed.link : (uf.link survivor absorbed).Formed where
 delta := by rw [len_link, ← h.delta]; simp [UnionFind.link]
 mask := by rw [len_link, ← h.mask]; simp [UnionFind.link]
 pinned := by rw [len_link]; exact h.pinned
 conflict := by rw [len_link, ← h.conflict]; simp [UnionFind.link]
 parent_lt := by
  intro id hlt
  rw [len_link] at hlt ⊢
  rw [parentOf_link hlink]
  split
  · exact hlink.survivor_lt
  · exact h.parent_lt id hlt
 ordered := by
  intro id hlt
  rw [len_link] at hlt
  rw [parentOf_link hlink, isPinned_link]
  split
  · rename_i heq
    exact hlink.above.imp (fun habove => by omega) fun habove => habove.1
  · exact h.ordered id hlt
 parent_pinned := by
  intro id hpinned
  rw [isPinned_link] at hpinned
  have hne : id ≠ absorbed.id := by
   rintro rfl
   rw [hlink.free] at hpinned
   nomatch hpinned
  rw [parentOf_link hlink, if_neg hne, h.parent_pinned id hpinned]
 delta_root := by
  intro id hself
  rw [parentOf_link hlink] at hself
  rw [deltaOf_link h hlink]
  split at hself
  · rename_i heq
    exact absurd (hself.trans heq) hlink.ne
  · rename_i hne
    rw [if_neg hne]
    exact h.delta_root id hself
 straight := by
  intro hstraight id
  have hboth : (uf.shifted || uf.linkDelta survivor absorbed != 0) = false := hstraight
  rw [Bool.or_eq_false_iff, bne_eq_false_iff_eq] at hboth
  rw [deltaOf_link h hlink, hboth.2]
  split
  · rfl
  · exact h.straight hboth.1 id
 flat := by
  intro id hlt hbelow
  rw [len_link] at hlt
  have hless : id < absorbed.id ∧ ∀ lowest ∈ uf.flatBelow, id < lowest := by
   have hmin := hbelow _ rfl
   grind
  -- an id below the absorbed one does not point at it
  have hpar : uf.parentOf id ≠ absorbed.id := by
   intro heq
   rcases h.ordered id hlt with hle | hpinned
   · omega
   · rw [heq, hlink.free] at hpinned
     nomatch hpinned
  rw [parentOf_link hlink id, if_neg (Nat.ne_of_lt hless.1), parentOf_link hlink, if_neg hpar]
  exact h.flat id hlt hless.2
 low := by
  intro id
  rw [maskAt_link h hlink]
  split
  · exact (h.low _).or (h.low _)
  · exact h.low id

/-- The set of the absorbed id joins the survivor's, each id at the offset it gains. -/
theorem link_placed (id : Nat) :
  (uf.link survivor absorbed).root id = (if uf.root id = absorbed.id then survivor.id else uf.root id) ∧
   (uf.link survivor absorbed).total id =
    if uf.root id = absorbed.id then uf.total id + uf.linkDelta survivor absorbed else uf.total id := by
 have hformed := h.link hlink
 have hsurvivor : (uf.link survivor absorbed).parentOf survivor.id = survivor.id := by
  rw [parentOf_link hlink, if_neg hlink.ne, hlink.survivor_root]
 induction id using walk_induction h with
 | root id hself =>
  rw [root_of_self hself, total_of_self hself]
  by_cases heq : id = absorbed.id
  · rw [if_pos heq, if_pos heq, zero_add, ← root_parentOf hformed, total_parentOf hformed,
     parentOf_link hlink, deltaOf_link h hlink, if_pos heq, if_pos heq, root_of_self hsurvivor,
     total_of_self hsurvivor, zero_add]
    exact ⟨rfl, rfl⟩
  grind [parentOf_link, root_of_self, total_of_self]
 | step id hne ih =>
  have hother : id ≠ absorbed.id := by
   rintro rfl
   exact hne hlink.absorbed_root
  rw [← root_parentOf hformed, total_parentOf hformed, ← root_parentOf h, total_parentOf h,
   parentOf_link hlink, deltaOf_link h hlink, if_neg hother, if_neg hother]
  grind

end Link

section Conflicts

variable (id : Nat)

theorem findFrom_markConflict (fuel : Nat) (ref : Ref) :
  (uf.markConflict id).findFrom fuel ref = uf.findFrom fuel ref := by
 induction fuel generalizing ref with
 | zero => rfl
 | succ fuel ih =>
  rw [findFrom, findFrom, ih]
  rfl

theorem rootFrom_markConflict (fuel other : Nat) :
  (uf.markConflict id).rootFrom fuel other = uf.rootFrom fuel other := by
 rw [← findFrom_id fuel ⟨other, 0⟩, ← findFrom_id fuel ⟨other, 0⟩, findFrom_markConflict]

@[simp] theorem root_markConflict (other : Nat) : (uf.markConflict id).root other = uf.root other :=
  rootFrom_markConflict id uf.len other

@[simp] theorem total_markConflict (other : Nat) : (uf.markConflict id).total other = uf.total other :=
  congrArg Ref.offset (findFrom_markConflict id uf.len ⟨other, 0⟩)

@[simp] theorem find_markConflict (ref : Ref) : (uf.markConflict id).find ref = uf.find ref := by
  have hroot := @root_markConflict uf id ref.id
  have hwalk := @findFrom_markConflict uf id uf.len ref
  rw [find, find, hroot]
  show (if _ then _ else (fun found : Ref => (⟨found.id, found.offset &&& uf.maskAt found.id⟩ : Ref))
   ((uf.markConflict id).findFrom uf.len ref)) = _
  rw [hwalk]
  rfl

end Conflicts

theorem Formed.markConflict (h : uf.Formed) (id : Nat) : (uf.markConflict id).Formed :=
 { h with conflict := by rw [UnionFind.markConflict, length_set]; exact h.conflict }

/-- What a merge of `a` and `b` comes to. -/
inductive Unites (uf : UnionFind) (a b : Ref) : UnionFind × Merge → Prop where
 | same (heq : uf.find a = uf.find b) : Unites uf a b (uf, .same)
 | clash (ids : List Nat) (hne : uf.find a ≠ uf.find b)
   (hclash : (uf.find a).id = (uf.find b).id ∨
    uf.isPinned (uf.find a).id = true ∧ uf.isPinned (uf.find b).id = true) :
   Unites uf a b (ids.foldl markConflict uf, .contradiction)
 | merged (survivor absorbed : Ref) (hlink : uf.Linkable survivor.id absorbed.id)
   (hwhich : survivor = uf.find a ∧ absorbed = uf.find b ∨ survivor = uf.find b ∧ absorbed = uf.find a) :
   Unites uf a b (uf.link survivor absorbed, .merged survivor.id absorbed.id)

theorem union_unites (h : uf.Formed) {a b : Ref} (ha : a.id < uf.len) (hb : b.id < uf.len) :
  Unites uf a b (uf.union a b) := by
 have hida : (uf.find a).id = uf.root a.id := by rw [find_eq h]
 have hidb : (uf.find b).id = uf.root b.id := by rw [find_eq h]
 have halt : (uf.find a).id < uf.len := hida ▸ root_lt h ha
 have hblt : (uf.find b).id < uf.len := hidb ▸ root_lt h hb
 have haroot : uf.parentOf (uf.find a).id = (uf.find a).id := by rw [hida]; exact parentOf_root h _
 have hbroot : uf.parentOf (uf.find b).id = (uf.find b).id := by rw [hidb]; exact parentOf_root h _
 rw [union]
 split
 · rename_i hid
   split
   · rename_i hoff
     exact Unites.same (by cases hfa : uf.find a; cases hfb : uf.find b; simp_all)
   · rename_i hoff
     exact Unites.clash [(uf.find a).id] (fun heq => hoff (congrArg Ref.offset heq)) (.inl hid)
 · rename_i hid
   split
   · rename_i hpinned
     rw [Bool.and_eq_true] at hpinned
     exact Unites.clash [(uf.find a).id, (uf.find b).id] (fun heq => hid (congrArg Ref.id heq)) (.inr hpinned)
   · rename_i hpinned
     rw [Bool.and_eq_true, not_and] at hpinned
     split
     · rename_i hfst
       refine Unites.merged _ _ ⟨halt, hblt, haroot, hbroot, ?_, ?_⟩ (.inl ⟨rfl, rfl⟩)
       · rw [Bool.or_eq_true, Bool.and_eq_true, Bool.not_eq_true'] at hfst
         rcases hfst with hyes | ⟨hno, -⟩
         · exact Bool.eq_false_iff.2 (hpinned hyes)
         · exact hno
       grind
     · rename_i hsnd
       rw [Bool.or_eq_true, Bool.and_eq_true, Bool.not_eq_true', decide_eq_true_iff, not_or, not_and] at hsnd
       refine Unites.merged _ _ ⟨hblt, halt, hbroot, haroot, Bool.eq_false_iff.2 hsnd.1, ?_⟩ (.inr ⟨rfl, rfl⟩)
       by_cases hyes : uf.isPinned (uf.find b).id = true
       · exact .inr ⟨hyes, Ne.symm hid⟩
       grind

/-! ## Flattening -/

/-- Every id points straight at its representative. -/
def Flat (uf : UnionFind) : Prop :=
 ∀ id, uf.parentOf (uf.parentOf id) = uf.parentOf id

theorem Flat.root_eq (hflat : uf.Flat) (h : uf.Formed) (id : Nat) : uf.root id = uf.parentOf id := by
 rw [← root_parentOf h, root_of_self (hflat id)]

theorem Flat.total_eq (hflat : uf.Flat) (h : uf.Formed) (id : Nat) : uf.total id = uf.deltaOf id := by
 rw [total_parentOf h, total_of_self (hflat id), zero_add]

/-- A union-find on the way to being flat, once the ids `done` point at their representatives. -/
structure Flattening (uf : UnionFind) (done : List Nat) (uf' : UnionFind) : Prop where
 len : uf'.parent.length = uf.parent.length
 delta : uf'.delta.length = uf.delta.length
 mask : uf'.mask = uf.mask
 pinned : uf'.pinned = uf.pinned
 conflict : uf'.conflict = uf.conflict
 shifted : uf'.shifted = uf.shifted
 flatBelow : uf'.flatBelow = none
 parentOf : ∀ id, uf'.parentOf id = if id ∈ done then uf.root id else uf.parentOf id
 deltaOf : ∀ id, uf'.deltaOf id =
  if id ∈ done ∧ uf.shifted = true then uf.total id &&& uf.maskOf id else uf.deltaOf id

theorem mem_steps {id : Nat} : id ∈ uf.steps ↔ id < uf.len ∧
  (match uf.flatBelow with
   | none => uf.len
   | some lowest => min lowest uf.len) ≤ id ∧ uf.parentOf (uf.parentOf id) ≠ uf.parentOf id := by
 rw [steps]
 constructor
 · grind
 grind

/-- The steps are the ids whose parents are not representatives. -/
theorem mem_steps_iff (h : uf.Formed) {id : Nat} : id ∈ uf.steps ↔ uf.parentOf (uf.parentOf id) ≠ uf.parentOf id := by
 rw [mem_steps]
 refine ⟨fun hboth => hboth.2.2, fun hne => ?_⟩
 have hlt : id < uf.len := by
  grind [parentOf_of_le]
 refine ⟨hlt, ?_, hne⟩
 by_contra hbelow
 refine hne (h.flat id hlt fun lowest hin => ?_)
 grind

theorem steps_sorted : uf.steps.Pairwise (· < ·) :=
 Pairwise.filter _ pairwise_lt_range'

theorem flattening (h : uf.Formed) : Flattening uf uf.steps uf.flatten := by
 have hsorted := uf.steps_sorted
 refine foldl_pass flattenStep (Flattening uf) ?_
  ⟨rfl, rfl, rfl, rfl, rfl, rfl, rfl, fun id => by rw [if_neg not_mem_nil]; rfl, fun id => by
   rw [if_neg (fun hin => absurd hin.1 not_mem_nil)]; rfl⟩
 intro done id rest uf' hsplit hpass
 have hmem : id ∈ uf.steps := hsplit ▸ mem_append_right _ (.head _)
 have hne := (mem_steps_iff h).1 hmem
 rw [hsplit, pairwise_append] at hsorted
 have hout : id ∉ done := fun hin => lt_irrefl _ (hsorted.2.2 id hin id (.head _))
 have hlt : id < uf.len := (mem_steps.1 hmem).1
 -- the parent points at the representative: it did, or it was passed
 have hpar : uf'.parentOf (uf.parentOf id) = uf.root id ∧
   (uf.shifted = true → uf'.deltaOf (uf.parentOf id) &&& uf.maskOf id =
    uf.total (uf.parentOf id) &&& uf.maskOf id) := by
  have hmask : uf.maskOf (uf.parentOf id) = uf.maskOf id := by rw [maskOf, maskOf, root_parentOf h]
  rw [hpass.parentOf, hpass.deltaOf]
  by_cases hstep : uf.parentOf id ∈ uf.steps
  · have hless : uf.parentOf id < id := by
     rcases h.ordered id hlt with hle | hpinned
     · grind
     · exact absurd (h.parent_pinned _ hpinned) hne
    have hin : uf.parentOf id ∈ done := by
     rw [hsplit] at hstep
     rcases mem_append.1 hstep with hin | hin
     · exact hin
     · rcases mem_cons.1 hin with heq | hin
       · omega
       · have hless' := (pairwise_cons.1 hsorted.2.1).1 _ hin
         omega
    grind [root_parentOf]
  · have hout' : uf.parentOf id ∉ done := fun hin => hstep (hsplit ▸ mem_append_left _ hin)
    have hflat : uf.parentOf (uf.parentOf (uf.parentOf id)) = uf.parentOf (uf.parentOf id) := by
     grind [mem_steps_iff]
    rw [if_neg hout', if_neg fun hboth => hout' hboth.1]
    refine ⟨?_, fun _ => ?_⟩
    · rw [← root_parentOf h, ← root_parentOf h, root_of_self hflat]
    · rw [total_parentOf h, total_of_self hflat, zero_add]
 have hself : uf'.parentOf id = uf.parentOf id := by rw [hpass.parentOf, if_neg hout]
 have hselfDelta : uf'.deltaOf id = uf.deltaOf id := by
  rw [hpass.deltaOf, if_neg fun hboth => hout hboth.1]
 have hltParent : id < uf'.parent.length := by rw [hpass.len]; exact hlt
 have hltDelta : id < uf'.delta.length := by rw [hpass.delta, h.delta]; exact hlt
 refine ⟨?_, ?_, hpass.mask, hpass.pinned, hpass.conflict, hpass.shifted, hpass.flatBelow, fun other => ?_,
  fun other => ?_⟩
 · rw [flattenStep]
   simp only [length_set]
   exact hpass.len
 · rw [flattenStep]
   split
   · rw [length_set]
     exact hpass.delta
   · exact hpass.delta
 · have hset : (flattenStep uf' id).parentOf other =
     if other = id then uf'.parentOf (uf'.parentOf id) else uf'.parentOf other := by
    show (uf'.parent.set id (uf'.parentOf (uf'.parentOf id))).getD other other = _
    rw [getD_eq_getElem?_getD, getElem?_set]
    by_cases heq : id = other
    · grind
    · rw [if_neg heq, if_neg (Ne.symm heq), parentOf, getD_eq_getElem?_getD]
   rw [hset, hself, hpar.1, hpass.parentOf]
   by_cases heq : other = id
   · grind
   grind
 · by_cases hshifted : uf.shifted = true
   · have hset : (flattenStep uf' id).deltaOf other = if other = id then
       (uf'.deltaOf id + uf'.deltaOf (uf'.parentOf id)) &&& uf'.maskAt (uf'.parentOf (uf'.parentOf id))
       else uf'.deltaOf other := by
      show (if uf'.shifted = true then uf'.delta.set id _ else uf'.delta).getD other 0 = _
      rw [if_pos (hpass.shifted.trans hshifted), getD_eq_getElem?_getD, getElem?_set]
      by_cases heq : id = other
      · grind
      · rw [if_neg heq, if_neg (Ne.symm heq), deltaOf, getD_eq_getElem?_getD]
     have hmaskAt : uf'.maskAt (uf.root id) = uf.maskOf id := by
      rw [maskAt, hpass.mask]
      rfl
     rw [hset, hself, hselfDelta, hpar.1, hmaskAt]
     by_cases heq : other = id
     · subst heq
       have hlow : IsLowMask (uf.maskOf other) := h.low _
       rw [if_pos rfl, if_pos ⟨mem_append_right _ mem_cons_self, hshifted⟩, total_parentOf h other,
        ← add_and_and hlow, hpar.2 hshifted, add_and_and hlow, add_comm]
     · rw [if_neg heq, hpass.deltaOf]
       grind
   · have hsame : (flattenStep uf' id).deltaOf other = uf'.deltaOf other := by
      show (if uf'.shifted = true then _ else uf'.delta).getD other 0 = _
      rw [if_neg fun hyes => hshifted (hpass.shifted.symm.trans hyes)]
      rfl
     rw [hsame, hpass.deltaOf, if_neg fun hboth => hshifted hboth.2, if_neg fun hboth => hshifted hboth.2]

section Flatten

variable (h : uf.Formed)
include h

theorem parentOf_flatten (id : Nat) : uf.flatten.parentOf id = uf.root id := by
 rw [(flattening h).parentOf]
 split
 · rfl
 grind [mem_steps_iff, root_parentOf, root_of_self]

theorem flat_flatten : uf.flatten.Flat := by
 intro id
 rw [parentOf_flatten h, parentOf_flatten h, root_root h]

theorem len_flatten : uf.flatten.len = uf.len :=
 (flattening h).len

theorem maskAt_flatten (id : Nat) : uf.flatten.maskAt id = uf.maskAt id := by
 rw [maskAt, (flattening h).mask]
 rfl

theorem isPinned_flatten (id : Nat) : uf.flatten.isPinned id = uf.isPinned id := by
 rw [isPinned, (flattening h).pinned]
 rfl

theorem deltaOf_flatten (id : Nat) : uf.flatten.deltaOf id &&& uf.maskOf id = uf.total id &&& uf.maskOf id := by
 rw [(flattening h).deltaOf]
 split
 · rw [and_mask_and_mask]
 grind [mem_steps_iff, total_parentOf, total_of_self, total_of_straight]

theorem Formed.flatten : uf.flatten.Formed where
 delta := by rw [len_flatten h, (flattening h).delta]; exact h.delta
 mask := by rw [len_flatten h, (flattening h).mask]; exact h.mask
 pinned := by rw [len_flatten h, (flattening h).pinned]; exact h.pinned
 conflict := by rw [len_flatten h, (flattening h).conflict]; exact h.conflict
 parent_lt := by
  intro id hlt
  rw [len_flatten h] at hlt ⊢
  rw [parentOf_flatten h]
  exact root_lt h hlt
 ordered := by
  intro id _
  rw [parentOf_flatten h, isPinned_flatten h]
  exact root_le h id
 parent_pinned := by
  intro id hpinned
  rw [isPinned_flatten h] at hpinned
  rw [parentOf_flatten h, root_of_self (h.parent_pinned id hpinned)]
 delta_root := by
  intro id hself
  rw [parentOf_flatten h] at hself
  have hroot : uf.parentOf id = id := by
   rw [← hself]
   exact parentOf_root h id
  rw [(flattening h).deltaOf]
  split
  · grind [total_of_self]
  · exact h.delta_root id hroot
 straight := by
  intro hstraight id
  rw [(flattening h).shifted] at hstraight
  rw [(flattening h).deltaOf, if_neg (fun hboth => by rw [hstraight] at hboth; exact absurd hboth.2 nofun)]
  exact h.straight hstraight id
 flat := by
  intro id _ _
  exact flat_flatten h id
 low := by
  intro id
  rw [maskAt_flatten h]
  exact h.low id

theorem find_flatten (ref : Ref) : uf.flatten.find ref = uf.find ref := by
 have hformed := h.flatten
 have hroot : uf.flatten.root ref.id = uf.root ref.id := by
  rw [(flat_flatten h).root_eq hformed, parentOf_flatten h]
 have hmask : uf.flatten.maskOf ref.id = uf.maskOf ref.id := by
  rw [maskOf, hroot, maskAt_flatten h]
  rfl
 have hlow : IsLowMask (uf.maskOf ref.id) := h.low _
 rw [find_eq hformed, find_eq h, hroot, hmask, (flat_flatten h).total_eq hformed, ← add_and_and hlow,
  deltaOf_flatten h, add_and_and hlow]

end Flatten

/-! ## Counting the sets -/

/-- How many ids stand for themselves. -/
def roots (uf : UnionFind) : Finset Nat :=
 (Finset.range uf.len).filter fun id => uf.parentOf id = id

theorem card_roots_le (uf : UnionFind) : uf.roots.card ≤ uf.len := by
 have hle := card_filter_le (Finset.range uf.len) fun id => uf.parentOf id = id
 rwa [card_range] at hle

theorem card_roots_link {survivor absorbed : Ref} (hlink : uf.Linkable survivor.id absorbed.id) :
  (uf.link survivor absorbed).roots.card < uf.roots.card := by
 apply card_lt_card
 rw [ssubset_iff_of_subset]
 · refine ⟨absorbed.id, Finset.mem_filter.2 ⟨Finset.mem_range.2 hlink.absorbed_lt, hlink.absorbed_root⟩, fun hin => ?_⟩
   have hself := (Finset.mem_filter.1 hin).2
   rw [parentOf_link hlink, if_pos rfl] at hself
   exact hlink.ne hself
 · intro id hin
   obtain ⟨hlt, hself⟩ := Finset.mem_filter.1 hin
   rw [len_link] at hlt
   refine Finset.mem_filter.2 ⟨hlt, ?_⟩
   rw [parentOf_link hlink] at hself
   split at hself
   · rename_i heq
     exact absurd (hself.trans heq) hlink.ne
   · exact hself

theorem roots_flatten (h : uf.Formed) : uf.flatten.roots = uf.roots := by
 rw [roots, roots, len_flatten h]
 grind [parentOf_flatten, parentOf_root, root_of_self]

end Relational.UnionFind

end Tir
