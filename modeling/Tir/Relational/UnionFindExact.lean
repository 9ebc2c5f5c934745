import Mathlib.Data.ZMod.Basic
import Tir.Basic.OffsetEquations
import Tir.Relational.UnionFindValues

/-!
# What a run of unions implies

The ids of a run share one carrier width. `Reached` is a union-find with the equations its unions
accepted, over any order of minting, union and flattening; a find changes nothing. `Tracks` says that
the union-find is an exact placement of those equations modulo `2 ^ width`, which every step keeps.
Then finds are equal exactly when the accepted equations imply it, a union answers what its equation
is to them, and the representative of a set depends on the set alone (`Reached.exactly`).
-/

open List Nat Bool

namespace Tir.Relational

open OffsetEquations

/-! ## Offsets modulo a width -/

/-- An offset modulo `2 ^ width`. -/
def residue (width : Nat) (offset : Word) : ZMod (2 ^ width) :=
 (offset.toNat : ZMod (2 ^ width))

section Residues

variable {width : Nat} (hwidth : width ≤ 64)
include hwidth

theorem residue_eq_iff {x y : Word} :
  residue width x = residue width y ↔ x &&& lowMask width = y &&& lowMask width := by
 rw [residue, residue, ZMod.natCast_eq_natCast_iff']
 have hmin : min width 64 = width := min_eq_left hwidth
 constructor
 · intro heq
   apply BitVec.eq_of_toNat_eq
   rw [toNat_and_lowMask, toNat_and_lowMask, hmin, heq]
 grind [toNat_and_lowMask]

theorem residue_and (x : Word) : residue width (x &&& lowMask width) = residue width x := by
 rw [residue_eq_iff hwidth, and_mask_and_mask]

theorem residue_add (x y : Word) : residue width (x + y) = residue width x + residue width y := by
 rw [residue, residue, residue, ← cast_add, ZMod.natCast_eq_natCast_iff', BitVec.toNat_add]
 exact mod_mod_of_dvd _ (Nat.pow_dvd_pow 2 hwidth)

theorem residue_sub (x y : Word) : residue width (x - y) = residue width x - residue width y := by
 rw [eq_sub_iff_add_eq, ← residue_add hwidth, sub_add_cancel]

end Residues

theorem residue_zero (width : Nat) : residue width 0 = 0 := by
 rw [residue]
 exact cast_zero

/-- A reference as an unknown at an offset. -/
def Ref.term (width : Nat) (ref : Ref) : Nat × ZMod (2 ^ width) :=
 (ref.id, residue width ref.offset)

/-- The equations of unions, as equations modulo `2 ^ width`. -/
def equations (width : Nat) (accepted : List (Ref × Ref)) : List (Equation Nat (ZMod (2 ^ width))) :=
 accepted.map fun e => (e.1.term width, e.2.term width)

namespace UnionFind

variable {uf : UnionFind} {width : Nat} {accepted : List (Ref × Ref)}

/-! ## The placement of a union-find -/

/-- Each id at the offset of its representative. -/
def placement (width : Nat) (h : uf.Formed) : Placement Nat (ZMod (2 ^ width)) where
 root := uf.root
 offset id := residue width (uf.total id)
 root_root := root_root h
 offset_root := by
  intro id
  rw [total_root h]
  exact residue_zero width

/-- The union-find places its ids as the accepted equations say, every offset reduced. -/
structure Tracks (width : Nat) (uf : UnionFind) (accepted : List (Ref × Ref)) : Prop where
 formed : uf.Formed
 masks : ∀ id, id < uf.len → uf.maskAt id = lowMask width
 reduced : ∀ id, uf.deltaOf id &&& lowMask width = uf.deltaOf id
 exact : Exact (placement width formed) (equations width accepted)

namespace Tracks

variable (hwidth : width ≤ 64) (h : Tracks width uf accepted)
include h

theorem maskOf_eq {id : Nat} (hlt : id < uf.len) : uf.maskOf id = lowMask width :=
 h.masks _ (root_lt h.formed hlt)

include hwidth

theorem term_find {ref : Ref} (hlt : ref.id < uf.len) :
  (uf.find ref).term width = (placement width h.formed).place (ref.term width) := by
 rw [find_eq h.formed, h.maskOf_eq hlt, Ref.term, residue_and hwidth, residue_add hwidth]
 rfl

theorem find_eq_iff_place {a b : Ref} (ha : a.id < uf.len) (hb : b.id < uf.len) : uf.find a = uf.find b ↔
  (placement width h.formed).place (a.term width) = (placement width h.formed).place (b.term width) := by
 rw [← h.term_find hwidth ha, ← h.term_find hwidth hb]
 refine ⟨fun heq => by rw [heq], fun heq => ?_⟩
 obtain ⟨hid, hoff⟩ := Prod.mk.inj heq
 rw [residue_eq_iff hwidth] at hoff
 have hfound : ∀ ref : Ref, ref.id < uf.len → (uf.find ref).offset &&& lowMask width = (uf.find ref).offset := by
  intro ref hlt
  rw [find_offset h.formed, h.maskOf_eq hlt, and_mask_and_mask]
 rw [hfound a ha, hfound b hb] at hoff
 cases hfa : uf.find a
 cases hfb : uf.find b
 simp_all

/-- References are found equal exactly when the accepted equations imply it. -/
theorem find_eq_iff {a b : Ref} (ha : a.id < uf.len) (hb : b.id < uf.len) :
  uf.find a = uf.find b ↔ Entails (equations width accepted) (a.term width) (b.term width) := by
 rw [h.find_eq_iff_place hwidth ha hb, h.exact.place_eq_iff]

end Tracks

/-! ## What each step keeps -/

theorem Formed.empty : UnionFind.empty.Formed where
 delta := rfl
 mask := rfl
 pinned := rfl
 conflict := rfl
 parent_lt := nofun
 ordered := nofun
 parent_pinned := nofun
 delta_root := fun _ _ => rfl
 straight := fun _ _ => rfl
 flat := nofun
 low := fun _ => isLowMask_zero

theorem Tracks.empty (width : Nat) : Tracks width UnionFind.empty [] where
 formed := Formed.empty
 masks := nofun
 reduced := fun _ => BitVec.zero_and
 exact := by
  have hapart : placement width Formed.empty = Placement.apart := by
   ext id
   · rfl
   · exact residue_zero width
  rw [hapart]
  exact Exact.nil

namespace Tracks

variable (h : Tracks width uf accepted)
include h

/-- A minted id stands for itself, and no equation names it yet. -/
theorem push (pinned : Bool) : Tracks width (uf.push (lowMask width) pinned) accepted where
 formed := h.formed.push _ _ (isLowMask_lowMask width)
 masks := by
  intro id hlt
  rw [len_push] at hlt
  rw [maskAt_push _ _ h.formed]
  split
  · rfl
  · rename_i hne
    apply h.masks id
    omega
 reduced := by
  intro id
  rw [deltaOf_push]
  exact h.reduced id
 exact := by
  have hplaced := push_placed (lowMask width) pinned h.formed (isLowMask_lowMask width)
  have hsame : placement width (h.formed.push _ pinned (isLowMask_lowMask width)) = placement width h.formed := by
   ext id
   · exact (hplaced id).1
   · exact congrArg (residue width) (hplaced id).2
  rw [hsame]
  exact h.exact

theorem markConflict (ids : List Nat) : Tracks width (ids.foldl UnionFind.markConflict uf) accepted := by
 induction ids generalizing uf with
 | nil => exact h
 | cons id ids ih =>
  apply @ih (uf.markConflict id)
  refine ⟨h.formed.markConflict id, h.masks, h.reduced, ?_⟩
  have hsame : placement width (h.formed.markConflict id) = placement width h.formed := by
   ext other
   · exact root_markConflict id other
   · exact congrArg (residue width) (total_markConflict id other)
  rw [hsame]
  exact h.exact

/-- An equation already implied is accepted and changes nothing. -/
theorem same (hwidth : width ≤ 64) {a b : Ref} (ha : a.id < uf.len) (hb : b.id < uf.len)
  (heq : uf.find a = uf.find b) : Tracks width uf ((a, b) :: accepted) where
 formed := h.formed
 masks := h.masks
 reduced := h.reduced
 exact := h.exact.cons ((h.find_eq_iff_place hwidth ha hb).1 heq)

section Link

variable {survivor absorbed : Ref} (hlink : uf.Linkable survivor.id absorbed.id)
include hlink

theorem linkDelta_eq : uf.linkDelta survivor absorbed = (survivor.offset - absorbed.offset) &&& lowMask width := by
 rw [linkDelta, h.masks _ hlink.survivor_lt, h.masks _ hlink.absorbed_lt, BitVec.or_self]

/-- A link is a merge of the two terms. -/
theorem placement_link (hwidth : width ≤ 64)
  (hroot : (placement width h.formed).root (survivor.term width).1 = (survivor.term width).1) :
  placement width (h.formed.link hlink) =
   (placement width h.formed).merge (survivor.term width) (absorbed.term width) hroot hlink.ne := by
 ext id
 · exact (link_placed h.formed hlink id).1
 · have htotal := (link_placed h.formed hlink id).2
   show residue width ((uf.link survivor absorbed).total id) = if uf.root id = absorbed.id then _ else _
   rw [htotal]
   split
   · rw [residue_add hwidth, h.linkDelta_eq hlink, residue_and hwidth, residue_sub hwidth]
     rfl
   · rfl

/-- Linking the representatives of two references accepts their equation. -/
theorem link (hwidth : width ≤ 64) {a b : Ref} (ha : a.id < uf.len) (hb : b.id < uf.len)
  (hwhich : survivor = uf.find a ∧ absorbed = uf.find b ∨ survivor = uf.find b ∧ absorbed = uf.find a) :
  Tracks width (uf.link survivor absorbed) ((a, b) :: accepted) where
 formed := h.formed.link hlink
 masks := by
  intro id hlt
  rw [len_link] at hlt
  rw [maskAt_link h.formed hlink, h.masks _ hlink.survivor_lt, h.masks _ hlink.absorbed_lt, BitVec.or_self,
   h.masks id hlt, ite_self]
 reduced := by
  intro id
  rw [deltaOf_link h.formed hlink]
  split
  · rw [h.linkDelta_eq hlink, and_mask_and_mask]
  · exact h.reduced id
 exact := by
  have hroot : (placement width h.formed).root (survivor.term width).1 = (survivor.term width).1 :=
   root_of_self hlink.survivor_root
  rw [h.placement_link hlink hwidth hroot]
  apply h.exact.merge
  rw [← h.term_find hwidth ha, ← h.term_find hwidth hb]
  rcases hwhich with ⟨rfl, rfl⟩ | ⟨rfl, rfl⟩
  · exact .inl ⟨rfl, rfl⟩
  · exact .inr ⟨rfl, rfl⟩

end Link

/-- Flattening moves no id, and leaves each at its reduced offset. -/
theorem deltaOf_flatten_eq {id : Nat} (hlt : id < uf.len) :
  uf.flatten.deltaOf id = uf.total id &&& lowMask width := by
 have hfound := deltaOf_flatten h.formed id
 rw [h.maskOf_eq hlt] at hfound
 rw [← hfound, (flattening h.formed).deltaOf]
 split
 · rw [h.maskOf_eq hlt, and_mask_and_mask]
 · exact (h.reduced id).symm

theorem flatten (hwidth : width ≤ 64) : Tracks width uf.flatten accepted where
 formed := h.formed.flatten
 masks := by
  intro id hlt
  rw [len_flatten h.formed] at hlt
  rw [maskAt_flatten h.formed]
  exact h.masks id hlt
 reduced := by
  intro id
  rcases lt_or_ge id uf.len with hlt | hle
  · rw [h.deltaOf_flatten_eq hlt, and_mask_and_mask]
  · rw [deltaOf_of_le uf.flatten h.formed.flatten (by rw [len_flatten h.formed]; exact hle)]
    exact BitVec.zero_and
 exact := by
  have hflat := flat_flatten h.formed
  have hsame : placement width h.formed.flatten = placement width h.formed := by
   ext id
   · show uf.flatten.root id = uf.root id
     rw [hflat.root_eq h.formed.flatten, parentOf_flatten h.formed]
   · show residue width (uf.flatten.total id) = residue width (uf.total id)
     rw [hflat.total_eq h.formed.flatten]
     rcases lt_or_ge id uf.len with hlt | hle
     · rw [h.deltaOf_flatten_eq hlt, residue_and hwidth]
     · rw [deltaOf_of_le uf.flatten h.formed.flatten (by rw [len_flatten h.formed]; exact hle),
        total_of_self (parentOf_of_le uf hle)]
  rw [hsame]
  exact h.exact

/-- A union that is not a contradiction accepts its equation, and one that is accepts nothing. -/
theorem union (hwidth : width ≤ 64) {a b : Ref} (ha : a.id < uf.len) (hb : b.id < uf.len) :
  Tracks width (uf.union a b).1 (if (uf.union a b).2 = .contradiction then accepted else (a, b) :: accepted) := by
 have hunites := union_unites h.formed ha hb
 generalize uf.union a b = result at hunites
 cases hunites with
 | same heq => exact h.same hwidth ha hb heq
 | clash ids _ _ => exact h.markConflict ids
 | merged survivor absorbed hlink hwhich => exact h.link hlink hwidth ha hb hwhich

end Tracks

/-! ## Runs -/

/-- The union-finds a run reaches, each with the equations its unions accepted. -/
inductive Reached (width : Nat) : UnionFind → List (Ref × Ref) → Prop where
 | new : Reached width UnionFind.empty []
 | push {uf : UnionFind} {accepted : List (Ref × Ref)} (h : Reached width uf accepted) (pinned : Bool) :
   Reached width (uf.push (lowMask width) pinned) accepted
 | union {uf : UnionFind} {accepted : List (Ref × Ref)} (h : Reached width uf accepted) {a b : Ref}
   (ha : a.id < uf.len) (hb : b.id < uf.len) :
   Reached width (uf.union a b).1
    (if (uf.union a b).2 = .contradiction then accepted else (a, b) :: accepted)
 | flatten {uf : UnionFind} {accepted : List (Ref × Ref)} (h : Reached width uf accepted) :
   Reached width uf.flatten accepted

theorem Reached.tracks (hwidth : width ≤ 64) (h : Reached width uf accepted) : Tracks width uf accepted := by
 induction h with
 | new => exact Tracks.empty width
 | push _ pinned ih => exact ih.push pinned
 | union _ ha hb ih => exact ih.union hwidth ha hb
 | flatten _ ih => exact ih.flatten hwidth

/-! ## What a union answers -/

/-- The two ids are of one set: the equations imply them equal up to an offset. -/
def Together (width : Nat) (accepted : List (Ref × Ref)) (id other : Nat) : Prop :=
 ∃ offset, Entails (equations width accepted) (id, 0) (other, offset)

/-- The equation has no solution beside the accepted ones. -/
def Contradicts (width : Nat) (accepted : List (Ref × Ref)) (a b : Ref) : Prop :=
 ¬ ∃ sol : Nat → ZMod (2 ^ width), Solves sol (equations width ((a, b) :: accepted))

/-- With the equation, two pinned ids are of one set. -/
def UnitesPinned (width : Nat) (uf : UnionFind) (accepted : List (Ref × Ref)) (a b : Ref) : Prop :=
 ∃ p q, p ≠ q ∧ uf.isPinned p = true ∧ uf.isPinned q = true ∧ Together width ((a, b) :: accepted) p q

theorem isPinned_union (h : uf.Formed) {a b : Ref} (ha : a.id < uf.len) (hb : b.id < uf.len) (id : Nat) :
  (uf.union a b).1.isPinned id = uf.isPinned id := by
 have hunites := union_unites h ha hb
 generalize uf.union a b = result at hunites
 cases hunites with
 | same _ => rfl
 | merged _ _ _ _ => rfl
 | clash ids _ _ =>
  show (ids.foldl UnionFind.markConflict uf).isPinned id = uf.isPinned id
  clear * -
  induction ids generalizing uf with
  | nil => rfl
  | cons first ids ih => exact ih

namespace Tracks

section Sets

variable (h : Tracks width uf accepted)
include h

/-- Ids are of one set exactly when they have one representative. -/
theorem together_iff {id other : Nat} : Together width accepted id other ↔ uf.root id = uf.root other := by
 constructor
 · rintro ⟨offset, hentails⟩
   exact (Placement.place_eq_iff.1 (h.exact.place_eq_iff.2 hentails)).1
 · intro hroot
   have hfst := h.exact.implied id
   have hsnd := (h.exact.implied other).symm
   have hshift := hsnd.shift ((placement width h.formed).offset id - (placement width h.formed).offset other)
   have hroot' : (placement width h.formed).root id = (placement width h.formed).root other := hroot
   rw [add_sub_cancel, ← hroot'] at hshift
   exact ⟨_, hfst.trans hshift⟩

theorem together_root (id : Nat) : Together width accepted id (uf.root id) :=
 h.together_iff.2 (root_root h.formed id).symm

/-- A pinned id represents its set. -/
theorem root_eq_of_pinned {id p : Nat} (hpinned : uf.isPinned p = true) (htogether : Together width accepted id p) :
  uf.root id = p := by
 rw [h.together_iff.1 htogether, root_of_self (h.formed.parent_pinned p hpinned)]

/-- A set without a pinned id is represented by its smallest. -/
theorem root_le_of_free {id : Nat} (hfree : ∀ p, Together width accepted id p → uf.isPinned p = false)
  {other : Nat} (htogether : Together width accepted id other) : uf.root id ≤ other := by
 rw [h.together_iff.1 htogether]
 rcases root_le h.formed other with hle | hpinned
 · exact hle
 · rw [← h.together_iff.1 htogether, hfree _ (h.together_root id)] at hpinned
   nomatch hpinned

/-- The representative of a set is a function of the set and the pinned ids. -/
theorem root_congr {uf' : UnionFind} {accepted' : List (Ref × Ref)} (h' : Tracks width uf' accepted')
  (hpinned : ∀ id, uf'.isPinned id = uf.isPinned id)
  (htogether : ∀ id other, Together width accepted' id other ↔ Together width accepted id other) (id : Nat) :
  uf'.root id = uf.root id := by
 by_cases hany : ∃ p, Together width accepted id p ∧ uf.isPinned p = true
 · obtain ⟨p, hin, hyes⟩ := hany
   rw [h.root_eq_of_pinned hyes hin,
    h'.root_eq_of_pinned ((hpinned p).trans hyes) ((htogether id p).2 hin)]
 · have hfree : ∀ p, Together width accepted id p → uf.isPinned p = false := fun p hin =>
    eq_false_iff.2 fun hyes => hany ⟨p, hin, hyes⟩
   have hfree' : ∀ p, Together width accepted' id p → uf'.isPinned p = false := fun p hin =>
    (hpinned p).trans (hfree p ((htogether id p).1 hin))
   apply le_antisymm
   · exact h'.root_le_of_free hfree' ((htogether id _).2 (h.together_root id))
   · exact h.root_le_of_free hfree ((htogether id _).1 (h'.together_root id))

end Sets

section Answers

variable (hwidth : width ≤ 64) (h : Tracks width uf accepted) {a b : Ref} (ha : a.id < uf.len) (hb : b.id < uf.len)
include hwidth h ha hb

/-- A union answers that its references are the same exactly when the accepted equations imply it. -/
theorem union_same_iff : (uf.union a b).2 = .same ↔ Entails (equations width accepted) (a.term width) (b.term width) := by
 rw [← h.find_eq_iff hwidth ha hb]
 have hunites := union_unites h.formed ha hb
 generalize uf.union a b = result at hunites
 cases hunites with
 | same heq => exact ⟨fun _ => heq, fun _ => rfl⟩
 | clash _ hne _ => exact ⟨nofun, fun heq => absurd heq hne⟩
 | merged survivor absorbed hlink hwhich =>
  refine ⟨nofun, fun heq => absurd ?_ hlink.ne⟩
  grind

/-- A clash of representatives is an equation without a solution, or unites two pinned ids. -/
theorem clash_contradicts (hne : uf.find a ≠ uf.find b) (hclash : (uf.find a).id = (uf.find b).id ∨
   uf.isPinned (uf.find a).id = true ∧ uf.isPinned (uf.find b).id = true) :
  Contradicts width accepted a b ∨ UnitesPinned width uf accepted a b := by
 by_cases hid : (uf.find a).id = (uf.find b).id
 · have hplaces : (placement width h.formed).place (a.term width) ≠ (placement width h.formed).place (b.term width) :=
    fun heq => hne ((h.find_eq_iff_place hwidth ha hb).2 heq)
   have hroots : ((placement width h.formed).place (a.term width)).1 =
     ((placement width h.formed).place (b.term width)).1 := by
    rw [← h.term_find hwidth ha, ← h.term_find hwidth hb]
    exact hid
   exact .inl (h.exact.unsolvable_iff.2 ⟨hroots, hplaces⟩)
 · obtain ⟨hpinned, hpinned'⟩ := hclash.resolve_left hid
   refine .inr ⟨_, _, hid, hpinned, hpinned', ?_⟩
   -- from one representative to the other by way of the equation
   have hplace : ∀ ref : Ref, ref.id < uf.len →
     Entails (equations width ((a, b) :: accepted)) (ref.term width) ((uf.find ref).term width) := by
    intro ref hlt
    rw [h.term_find hwidth hlt]
    exact (h.exact.entails_place _).mono fun _ hin => .tail _ hin
   have hgiven : Entails (equations width ((a, b) :: accepted)) (a.term width) (b.term width) :=
    Entails.given (.head _)
   have hboth := ((hplace a ha).symm.trans hgiven).trans (hplace b hb)
   have hshift := hboth.shift (-residue width (uf.find a).offset)
   rw [add_neg_cancel] at hshift
   exact ⟨_, hshift⟩

/-- A union is a contradiction exactly when its equation contradicts the accepted ones or would unite
two pinned ids. -/
theorem union_contradiction_iff : (uf.union a b).2 = .contradiction ↔
  Contradicts width accepted a b ∨ UnitesPinned width uf accepted a b := by
 constructor
 · intro hanswer
   have hunites := union_unites h.formed ha hb
   generalize uf.union a b = result at hunites hanswer
   cases hunites with
   | same _ => nomatch hanswer
   | merged _ _ _ _ => nomatch hanswer
   | clash ids hne hclash => exact h.clash_contradicts hwidth ha hb hne hclash
 · intro hbad
   by_contra hanswer
   -- the equations with this one are tracked, so they have a solution and keep pinned ids apart
   have hunion := h.union hwidth ha hb
   rw [if_neg hanswer] at hunion
   rcases hbad with hnone | ⟨p, q, hne, hp, hq, htogether⟩
   · exact hnone ⟨_, hunion.exact.solves fun _ => 0⟩
   · rw [← isPinned_union h.formed ha hb] at hp hq
     have hroot := hunion.root_eq_of_pinned hq htogether
     rw [root_of_self (hunion.formed.parent_pinned p hp)] at hroot
     exact hne hroot

omit hwidth in
/-- A contradiction moves no reference. -/
theorem find_union_of_contradiction (hanswer : (uf.union a b).2 = .contradiction) (ref : Ref) :
  (uf.union a b).1.find ref = uf.find ref := by
 have hunites := union_unites h.formed ha hb
 generalize uf.union a b = result at hunites hanswer
 cases hunites with
 | same _ => nomatch hanswer
 | merged _ _ _ _ => nomatch hanswer
 | clash ids _ _ =>
  clear * -
  induction ids generalizing uf with
  | nil => rfl
  | cons id ids ih =>
   simp_all

end Answers

section Flattened

variable (hwidth : width ≤ 64) (h : Tracks width uf accepted) {id : Nat} (hlt : id < uf.len)
include h hlt

theorem parents_flatten : uf.flatten.parent[id]? = some (uf.find ⟨id, 0⟩).id := by
 have hlen : id < uf.flatten.parent.length := by
  have hflat := len_flatten h.formed
  rw [len] at hflat
  rw [hflat]
  exact hlt
 have hpar := parentOf_flatten h.formed id
 rw [parentOf, getD_eq_getElem?_getD, List.getElem?_eq_getElem hlen, Option.getD_some] at hpar
 rw [List.getElem?_eq_getElem hlen, hpar, find_id h.formed]

theorem deltas_flatten : match uf.flatten.deltas with
  | none => (uf.find ⟨id, 0⟩).offset = 0
  | some deltas => deltas[id]? = some (uf.find ⟨id, 0⟩).offset := by
 have hoff : (uf.find ⟨id, 0⟩).offset = uf.total id &&& lowMask width := by
  rw [find_offset h.formed, h.maskOf_eq hlt, zero_add]
 have hdelta := h.deltaOf_flatten_eq hlt
 rw [hoff, ← hdelta, deltas]
 split
 · rename_i hnone
   by_cases hshifted : uf.flatten.shifted = true
   · grind
   · exact h.formed.flatten.straight (eq_false_iff.2 hshifted) id
 · rename_i deltas hsome
   by_cases hshifted : uf.flatten.shifted = true
   · rw [if_pos hshifted] at hsome
     cases hsome
     have hlen : id < uf.flatten.delta.length := by
      rw [h.formed.flatten.delta, len_flatten h.formed]
      exact hlt
     rw [deltaOf, getD_eq_getElem?_getD, List.getElem?_eq_getElem hlen, Option.getD_some]
   grind

end Flattened

/-- Finds are a function of the accepted equations and the pinned ids. -/
theorem find_congr (hwidth : width ≤ 64) (h : Tracks width uf accepted) {uf' : UnionFind}
  {accepted' : List (Ref × Ref)} (h' : Tracks width uf' accepted') (hlen : uf'.len = uf.len)
  (hpinned : ∀ id, uf'.isPinned id = uf.isPinned id) (hsame : ∀ e, e ∈ accepted' ↔ e ∈ accepted) {ref : Ref}
  (hlt : ref.id < uf.len) : uf'.find ref = uf.find ref := by
 have hmem : ∀ e, e ∈ equations width accepted' ↔ e ∈ equations width accepted := by
  intro e
  simp [equations, hsame]
 have hentails : ∀ a b, Entails (equations width accepted') a b ↔ Entails (equations width accepted) a b := fun a b =>
  ⟨Entails.mono fun e => (hmem e).1, Entails.mono fun e => (hmem e).2⟩
 have hroot := h.root_congr h' hpinned (fun id other => exists_congr fun offset => hentails _ _) ref.id
 -- both finds are implied equal to the reference
 have hfound := (h.exact.entails_place (ref.term width)).symm.trans
  ((hentails _ _).1 (h'.exact.entails_place (ref.term width)))
 have hfst : (placement width h.formed).place (ref.term width) = (uf.root ref.id, residue width (uf.find ref).offset) := by
  rw [← h.term_find hwidth hlt, Ref.term, find_id h.formed]
 have hsnd : (placement width h'.formed).place (ref.term width) =
   (uf.root ref.id, residue width (uf'.find ref).offset) := by
  rw [← h'.term_find hwidth (hlen ▸ hlt), Ref.term, find_id h'.formed, hroot]
 rw [hfst, hsnd] at hfound
 have hoff := (residue_eq_iff hwidth).1 (h.exact.eq_of_entails hfound)
 have hmask := h.maskOf_eq hlt
 have hmask' := h'.maskOf_eq (hlen ▸ hlt)
 grind [UnionFind.find_eq]

end Tracks

/-! ## The main result -/

/-- A union-find answers exactly what the accepted equations imply. -/
structure Exactly (width : Nat) (uf : UnionFind) (accepted : List (Ref × Ref)) : Prop where
 find : ∀ a b : Ref, a.id < uf.len → b.id < uf.len →
  (uf.find a = uf.find b ↔ Entails (equations width accepted) (a.term width) (b.term width))
 /-- With a carrier, implied is true in every solution. -/
 solutions : 0 < width → ∀ a b : Ref, a.id < uf.len → b.id < uf.len →
  (uf.find a = uf.find b ↔ ∀ sol : Nat → ZMod (2 ^ width), Solves sol (equations width accepted) →
   value sol (a.term width) = value sol (b.term width))
 same : ∀ a b : Ref, a.id < uf.len → b.id < uf.len →
  ((uf.union a b).2 = .same ↔ Entails (equations width accepted) (a.term width) (b.term width))
 contradiction : ∀ a b : Ref, a.id < uf.len → b.id < uf.len →
  ((uf.union a b).2 = .contradiction ↔ Contradicts width accepted a b ∨ UnitesPinned width uf accepted a b)
 unmoved : ∀ a b : Ref, a.id < uf.len → b.id < uf.len → (uf.union a b).2 = .contradiction →
  ∀ ref, (uf.union a b).1.find ref = uf.find ref
 pinned : ∀ id p, uf.isPinned p = true → Together width accepted id p → uf.root id = p
 smallest : ∀ id, (∀ p, Together width accepted id p → uf.isPinned p = false) →
  Together width accepted id (uf.root id) ∧ ∀ other, Together width accepted id other → uf.root id ≤ other
 /-- Any run that accepts the same equations over the same ids finds the same. -/
 ordered : ∀ uf' accepted', Reached width uf' accepted' → uf'.len = uf.len →
  (∀ id, uf'.isPinned id = uf.isPinned id) → (∀ e, e ∈ accepted' ↔ e ∈ accepted) →
  ∀ ref : Ref, ref.id < uf.len → uf'.find ref = uf.find ref
 flatten : ∀ ref, uf.flatten.find ref = uf.find ref
 parents : ∀ id, id < uf.len → uf.flatten.parent[id]? = some (uf.find ⟨id, 0⟩).id
 deltas : ∀ id, id < uf.len → match uf.flatten.deltas with
  | none => (uf.find ⟨id, 0⟩).offset = 0
  | some deltas => deltas[id]? = some (uf.find ⟨id, 0⟩).offset

/-- **Every union-find a run reaches answers exactly what its accepted equations imply.** -/
theorem Reached.exactly (hwidth : width ≤ 64) (h : Reached width uf accepted) : Exactly width uf accepted := by
 have htracks := h.tracks hwidth
 exact {
  find := fun a b ha hb => htracks.find_eq_iff hwidth ha hb
  solutions := by
   intro hpos a b ha hb
   have hlarge : 1 < 2 ^ width := Nat.one_lt_two_pow (ne_of_gt hpos)
   have : Fact (1 < 2 ^ width) := ⟨hlarge⟩
   rw [htracks.find_eq_iff hwidth ha hb, htracks.exact.entails_iff_solutions]
  same := fun a b ha hb => htracks.union_same_iff hwidth ha hb
  contradiction := fun a b ha hb => htracks.union_contradiction_iff hwidth ha hb
  unmoved := fun a b ha hb hanswer => htracks.find_union_of_contradiction ha hb hanswer
  pinned := fun id p hpinned htogether => htracks.root_eq_of_pinned hpinned htogether
  smallest := fun id hfree =>
   ⟨htracks.together_root id, fun other htogether => htracks.root_le_of_free hfree htogether⟩
  ordered := fun uf' accepted' h' hlen hpinned hsame ref hlt =>
   htracks.find_congr hwidth (h'.tracks hwidth) hlen hpinned hsame hlt
  flatten := find_flatten htracks.formed
  parents := fun id hlt => htracks.parents_flatten hlt
  deltas := fun id hlt => htracks.deltas_flatten hlt }

/-- Two classes and a pinned zero eight bits wide, the second class found to be the constant five. -/
theorem constant_exactly : ∃ uf, Exactly 8 uf [(⟨1, 0⟩, ⟨2, 5⟩)] ∧ uf.find ⟨1, 0⟩ = ⟨2, 5⟩ := by
 have hclasses : Reached 8 (((UnionFind.empty.push (lowMask 8) false).push (lowMask 8) false).push (lowMask 8) true) [] :=
  ((Reached.new.push false).push false).push true
 have hmerged := hclasses.union (a := ⟨1, 0⟩) (b := ⟨2, 5⟩) (by decide) (by decide)
 exact ⟨_, hmerged.exactly (by decide), by decide⟩

end UnionFind

end Tir.Relational
