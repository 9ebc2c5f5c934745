import Tir.Relational.Database
import Tir.Relational.UnionFindValues

/-!
# What a space knows of the tables

`Space.Tracks` says that the bits a space keeps cover one id a row names: the id's representative is
known to be held by the row's table, and an absorbed one is known to be unclean, and aged where the row
is older than the mark. Minting, holding and merging keep it, whatever id is absorbed.
-/

open List Bool

namespace Tir.Relational

open UnionFind

/-! ## Bits -/

theorem or_and_ne_zero {bits more bit : Word} (h : bits &&& bit ≠ 0) : (bits ||| more) &&& bit ≠ 0 := by
 grind

theorem and_holder_self (slot : Nat) : holder slot &&& holder slot ≠ 0 := by
 have hne : ∀ bit, bit < 64 → (1 : Word) <<< bit ≠ 0 := by decide
 rw [BitVec.and_self]
 exact hne _ (by omega)

namespace Space

variable {s : Space} {slot id : Nat} {old : Prop}

/-- The bits of the space cover `id` in a row of the table at `slot`; `old` says the row is from before
the mark of its table. -/
structure Tracks (s : Space) (slot : Nat) (old : Prop) (id : Nat) : Prop where
 lt : id < s.uf.len
 held : s.holding.getD (s.uf.root id) 0 &&& holder slot ≠ 0
 unclean : s.uf.parentOf id ≠ id → s.unclean &&& holder slot ≠ 0 ∧ s.dirty = true
 aged : old → (id < s.fresh ∨ s.uf.isPinned id = true) ∧ (s.uf.parentOf id ≠ id → s.aged = true)

/-- The partition is well formed, and flat unless an equate happened since the last canonicalization. -/
structure Formed (s : Space) : Prop where
 uf : s.uf.Formed
 flat : s.dirty = false → s.uf.Flat

/-! ## Writing bits -/

/-- Some bits are added, in places the word reaches. -/
structure Widens (s s' : Space) : Prop where
 uf : s'.uf = s.uf
 live : s'.live = s.live
 dirty : s'.dirty = s.dirty
 contradicted : s'.contradicted = s.contradicted
 fresh : s'.fresh = s.fresh
 length : s.holding.length ≤ s'.holding.length
 holding : ∀ id bit, s.holding.getD id 0 &&& bit ≠ 0 → s'.holding.getD id 0 &&& bit ≠ 0
 unclean : ∀ bit, s.unclean &&& bit ≠ 0 → s'.unclean &&& bit ≠ 0
 aged : s.aged = true → s'.aged = true

theorem Widens.refl (s : Space) : Widens s s :=
 ⟨rfl, rfl, rfl, rfl, rfl, le_rfl, fun _ _ => id, fun _ => id, id⟩

variable {s' : Space}

theorem Widens.trans {s'' : Space} (h : Widens s s') (h' : Widens s' s'') : Widens s s'' where
 uf := h'.uf.trans h.uf
 live := h'.live.trans h.live
 dirty := h'.dirty.trans h.dirty
 contradicted := h'.contradicted.trans h.contradicted
 fresh := h'.fresh.trans h.fresh
 length := h.length.trans h'.length
 holding id bit hbit := h'.holding id bit (h.holding id bit hbit)
 unclean bit hbit := h'.unclean bit (h.unclean bit hbit)
 aged haged := h'.aged (h.aged haged)

theorem Widens.tracks (h : Widens s s') (htracks : s.Tracks slot old id) : s'.Tracks slot old id where
 lt := by rw [h.uf]; exact htracks.lt
 held := by rw [h.uf]; exact h.holding _ _ htracks.held
 unclean := by
  rw [h.uf, h.dirty]
  exact fun hne => ⟨h.unclean _ (htracks.unclean hne).1, (htracks.unclean hne).2⟩
 aged := by
  rw [h.uf, h.fresh]
  exact fun hold => ⟨(htracks.aged hold).1, fun hne => h.aged ((htracks.aged hold).2 hne)⟩

theorem Widens.formed (h : Widens s s') (hformed : s.Formed) : s'.Formed where
 uf := by rw [h.uf]; exact hformed.uf
 flat := by
  rw [h.dirty, h.uf]
  exact hformed.flat

theorem widens_reach (s : Space) (id size : Nat) : Widens s (s.reach id size) := by
 rw [reach]
 split
 · refine ⟨rfl, rfl, rfl, rfl, rfl, ?_, fun other bit hbit => ?_, fun _ hbit => hbit, fun haged => haged⟩
   · simp
   grind
 · exact Widens.refl s

theorem lt_length_reach (s : Space) {size : Nat} (hlt : id < size) : id < (s.reach id size).holding.length := by
 rw [reach]
 split
 · grind
 · omega

theorem widens_addBits (s : Space) (id : Nat) (tables : Word) : Widens s (s.addBits id tables) := by
 refine ⟨rfl, rfl, rfl, rfl, rfl, by simp [addBits], fun other bit hbit => ?_, fun _ hbit => hbit, fun haged => haged⟩
 show (s.holding.set id _).getD other 0 &&& bit ≠ 0
 rw [getD_eq_getElem?_getD, getElem?_set]
 by_cases heq : id = other
 · grind
 grind

theorem held_addBits (s : Space) {tables bit : Word} (hlt : id < s.holding.length)
  (hbit : tables &&& bit ≠ 0) : (s.addBits id tables).holding.getD id 0 &&& bit ≠ 0 := by
 show (s.holding.set id _).getD id 0 &&& bit ≠ 0
 grind

/-! ## Holding -/

theorem widens_holdId (slot : Nat) (s : Space) (id : Nat) : Widens s (holdId slot s id) := by
 have hfst : Widens s ((s.reach id (max s.uf.len (id + 1))).addBits id (holder slot)) :=
  (widens_reach _ _ _).trans (widens_addBits _ _ _)
 rw [holdId]
 split
 · refine hfst.trans ?_
   have hroot := widens_addBits ((s.reach id (max s.uf.len (id + 1))).addBits id (holder slot))
    (((s.reach id (max s.uf.len (id + 1))).addBits id (holder slot)).uf.root id) (holder slot)
   exact ⟨hroot.uf, hroot.live, hroot.dirty, hroot.contradicted, hroot.fresh, hroot.length, hroot.holding,
    fun bit hbit => or_and_ne_zero hbit, fun _ => rfl⟩
 · exact hfst

theorem widens_hold (slot : Nat) (ids : List Nat) (s : Space) : Widens s (s.hold slot ids) := by
 induction ids generalizing s with
 | nil => exact Widens.refl s
 | cons id ids ih => exact (widens_holdId slot s id).trans (ih _)

theorem tracks_holdId (hlt : id < s.uf.len)
  (hroot : s.uf.parentOf id ≠ id → s.uf.root id ≤ id ∨ s.uf.root id < s.holding.length)
  (hdirty : s.uf.parentOf id ≠ id → s.dirty = true) (slot : Nat) : (holdId slot s id).Tracks slot False id := by
 have hwidens := widens_holdId slot s id
 have hreach : id < ((s.reach id (max s.uf.len (id + 1))).addBits id (holder slot)).holding.length := by
  rw [addBits, length_set]
  exact lt_length_reach s (by omega)
 have hself : ((s.reach id (max s.uf.len (id + 1))).addBits id (holder slot)).holding.getD id 0 &&& holder slot ≠ 0 := by
  apply held_addBits
  · rwa [addBits, length_set] at hreach
  · exact and_holder_self slot
 have huf : ((s.reach id (max s.uf.len (id + 1))).addBits id (holder slot)).uf = s.uf :=
  ((widens_reach s id _).trans (widens_addBits _ _ _)).uf
 refine ⟨by rw [hwidens.uf]; exact hlt, ?_, ?_, nofun⟩
 · rw [hwidens.uf, holdId]
   rw [huf]
   by_cases hmoved : s.uf.parentOf id = id
   · grind [root_of_self]
   · rw [if_pos ⟨hlt, hmoved⟩]
     apply held_addBits
     · rcases hroot hmoved with hle | hlen
       · exact hle.trans_lt hreach
       · exact hlen.trans_le ((widens_reach s id _).trans (widens_addBits _ _ _)).length
     · exact and_holder_self slot
 · rw [hwidens.uf]
   intro hmoved
   refine ⟨?_, by rw [hwidens.dirty]; exact hdirty hmoved⟩
   rw [holdId]
   simp only
   rw [huf, if_pos ⟨hlt, hmoved⟩]
   grind

theorem tracks_hold (slot : Nat) {ids : List Nat} (hlt : ∀ id ∈ ids, id < s.uf.len)
  (hroot : ∀ id ∈ ids, s.uf.parentOf id ≠ id → s.uf.root id ≤ id ∨ s.uf.root id < s.holding.length)
  (hdirty : ∀ id ∈ ids, s.uf.parentOf id ≠ id → s.dirty = true) :
  ∀ id ∈ ids, (s.hold slot ids).Tracks slot False id := by
 induction ids generalizing s with
 | nil => nofun
 | cons first ids ih =>
  have hwidens := widens_holdId slot s first
  intro id hin
  rcases mem_cons.1 hin with rfl | hin
  · have hfst := tracks_holdId (hlt id (.head _)) (hroot id (.head _))
     (hdirty id (.head _)) slot
    exact (widens_hold slot ids _).tracks hfst
  · refine ih (s := holdId slot s first) (fun id hin => ?_) (fun id hin => ?_) (fun id hin => ?_) id hin
    · rw [hwidens.uf]
      exact hlt id (.tail _ hin)
    · rw [hwidens.uf]
      exact fun hne => (hroot id (.tail _ hin) hne).imp_right fun hlt =>
       hlt.trans_le hwidens.length
    · rw [hwidens.uf, hwidens.dirty]
      exact hdirty id (.tail _ hin)

/-! ## Minting -/

theorem tracks_push (hformed : s.uf.Formed) (htracks : s.Tracks slot old id) {mask : Word} (hmask : IsLowMask mask)
  (pinned : Bool) (live : Nat) : Tracks { s with uf := s.uf.push mask pinned, live := live } slot old id where
 lt := by
  show id < (s.uf.push mask pinned).len
  rw [len_push]
  exact Nat.lt_succ_of_lt htracks.lt
 held := by
  show s.holding.getD ((s.uf.push mask pinned).root id) 0 &&& holder slot ≠ 0
  rw [(push_placed mask pinned hformed hmask id).1]
  exact htracks.held
 unclean := by
  show (s.uf.push mask pinned).parentOf id ≠ id → _
  rw [parentOf_push]
  exact htracks.unclean
 aged := by
  show old → (_ ∨ (s.uf.push mask pinned).isPinned id = true) ∧ ((s.uf.push mask pinned).parentOf id ≠ id → _)
  rw [parentOf_push, isPinned_push mask pinned hformed, if_neg (ne_of_lt htracks.lt)]
  exact htracks.aged

/-! ## Merging -/

/-- What a merge of two representatives makes of a space. -/
structure Merges (s : Space) (survivor absorbed : Ref) (s' : Space) : Prop where
 uf : s'.uf = s.uf.link survivor absorbed
 live : s'.live = s.live - 1
 dirty : s'.dirty = true
 contradicted : s'.contradicted = s.contradicted
 fresh : s'.fresh = s.fresh
 length : s.holding.length ≤ s'.holding.length
 tracks : ∀ slot old id, s.Tracks slot old id → s'.Tracks slot old id

theorem union_merges (hformed : s.uf.Formed) {a b survivor absorbed : Ref}
  (hlink : s.uf.Linkable survivor.id absorbed.id)
  (hunion : s.uf.union a b = (s.uf.link survivor absorbed, .merged survivor.id absorbed.id)) :
  (s.union a b).2 = .merged survivor.id absorbed.id ∧
   Merges s survivor absorbed { (s.union a b).1 with live := (s.union a b).1.live - 1, dirty := true } := by
 have hroots := fun id => (link_placed hformed hlink id).1
 by_cases hheld : s.holding.getD absorbed.id 0 = 0
 · -- no row names the absorbed id, and none any id it represents
   have hres : s.union a b = ({ s with uf := s.uf.link survivor absorbed }, .merged survivor.id absorbed.id) := by
    rw [union, hunion]
    exact if_pos hheld
   rw [hres]
   refine ⟨rfl, rfl, rfl, rfl, rfl, rfl, le_rfl, fun slot old id htracks => ?_⟩
   have hroot : s.uf.root id ≠ absorbed.id := by
    intro heq
    apply htracks.held
    grind
   have hid : id ≠ absorbed.id := by
    rintro rfl
    exact hroot (root_of_self hlink.absorbed_root)
   refine ⟨?_, ?_, ?_, ?_⟩
   · show id < (s.uf.link survivor absorbed).len
     rw [len_link]
     exact htracks.lt
   · show s.holding.getD ((s.uf.link survivor absorbed).root id) 0 &&& _ ≠ 0
     rw [hroots, if_neg hroot]
     exact htracks.held
   · show (s.uf.link survivor absorbed).parentOf id ≠ id → _
     rw [parentOf_link hlink, if_neg hid]
     exact fun hne => ⟨(htracks.unclean hne).1, rfl⟩
   · show old → (_ ∨ s.uf.isPinned id = true) ∧ ((s.uf.link survivor absorbed).parentOf id ≠ id → _)
     rw [parentOf_link hlink, if_neg hid]
     exact htracks.aged
 · generalize hbits : s.holding.getD absorbed.id 0 = held at hheld
   have hres : s.union a b = (Space.holdAll { s with
     uf := s.uf.link survivor absorbed, unclean := s.unclean ||| held,
     aged := s.aged || decide (absorbed.id < s.fresh) } survivor.id held, .merged survivor.id absorbed.id) := by
    rw [union, hunion]
    grind
   generalize hmid : { s with
     uf := s.uf.link survivor absorbed, unclean := s.unclean ||| held,
     aged := s.aged || decide (absorbed.id < s.fresh) } = mid at hres
   have hwidens : Widens mid (mid.holdAll survivor.id held) :=
    (widens_reach _ _ _).trans (widens_addBits _ _ _)
   have hsurvivor : survivor.id < mid.uf.len := by
    rw [← hmid]
    show survivor.id < (s.uf.link survivor absorbed).len
    rw [len_link]
    exact hlink.survivor_lt
   have hpassed : ∀ bit, held &&& bit ≠ 0 → (mid.holdAll survivor.id held).holding.getD survivor.id 0 &&& bit ≠ 0 :=
    fun bit => held_addBits _ (lt_length_reach mid hsurvivor)
   have huf : (mid.holdAll survivor.id held).uf = s.uf.link survivor absorbed := by rw [hwidens.uf, ← hmid]
   rw [hres]
   refine ⟨rfl, huf, ?_, rfl, ?_, ?_, ?_, fun slot old id htracks => ?_⟩
   · show (mid.holdAll survivor.id held).live - 1 = _
     rw [hwidens.live, ← hmid]
   · exact hwidens.contradicted.trans (by rw [← hmid])
   · exact hwidens.fresh.trans (by rw [← hmid])
   · refine le_trans ?_ hwidens.length
     rw [← hmid]
   have hself : id = absorbed.id → held &&& holder slot ≠ 0 := by
    rintro rfl
    have hbit := htracks.held
    rwa [root_of_self hlink.absorbed_root, hbits] at hbit
   refine ⟨?_, ?_, ?_, ?_⟩
   · show id < (mid.holdAll survivor.id held).uf.len
     rw [huf, len_link]
     exact htracks.lt
   · show (mid.holdAll survivor.id held).holding.getD ((mid.holdAll survivor.id held).uf.root id) 0 &&& _ ≠ 0
     rw [huf, hroots]
     split
     · rename_i heq
       apply hpassed
       rw [← hbits, ← heq]
       exact htracks.held
     · apply hwidens.holding
       rw [← hmid]
       exact htracks.held
   · show (mid.holdAll survivor.id held).uf.parentOf id ≠ id → _
     rw [huf, parentOf_link hlink]
     intro hne
     refine ⟨hwidens.unclean _ ?_, rfl⟩
     rw [← hmid]
     split at hne
     · grind
     · exact or_and_ne_zero (htracks.unclean hne).1
   · show old → (id < (mid.holdAll survivor.id held).fresh ∨ (mid.holdAll survivor.id held).uf.isPinned id = true) ∧
      ((mid.holdAll survivor.id held).uf.parentOf id ≠ id → _)
     have hfresh : (mid.holdAll survivor.id held).fresh = s.fresh := hwidens.fresh.trans (by rw [← hmid])
     rw [huf, parentOf_link hlink, isPinned_link, hfresh]
     intro hold
     obtain ⟨hage, hmoved⟩ := htracks.aged hold
     refine ⟨hage, fun hne => hwidens.aged ?_⟩
     rw [← hmid]
     show (s.aged || decide (absorbed.id < s.fresh)) = true
     rw [or_eq_true, decide_eq_true_iff]
     split at hne
     · -- an id absorbed now that an old row names is older than the epoch, since it is not pinned
       rename_i heq
       rcases hage with hlt | hpinned
       · exact .inr (heq ▸ hlt)
       · rw [heq, hlink.free] at hpinned
         nomatch hpinned
     · exact .inl (hmoved hne)

/-! ## Canonicalizing, and closing the epoch -/

/-- The representative of a tracked id is tracked once the tables are canonical. -/
theorem tracks_flatten (hformed : s.uf.Formed) (htracks : s.Tracks slot old id) :
  Tracks { s with uf := s.uf.flatten, dirty := false, unclean := 0, aged := false } slot old (s.uf.root id) where
 lt := by
  show s.uf.root id < s.uf.flatten.len
  rw [len_flatten hformed]
  exact root_lt hformed htracks.lt
 held := by
  show s.holding.getD (s.uf.flatten.root (s.uf.root id)) 0 &&& holder slot ≠ 0
  rw [(flat_flatten hformed).root_eq hformed.flatten, parentOf_flatten hformed,
   root_root hformed]
  exact htracks.held
 unclean := by
  grind [parentOf_flatten, root_root]
 aged := by
  show old → (s.uf.root id < s.fresh ∨ s.uf.flatten.isPinned (s.uf.root id) = true) ∧
   (s.uf.flatten.parentOf (s.uf.root id) ≠ s.uf.root id → _)
  rw [parentOf_flatten hformed, root_root hformed, isPinned_flatten hformed]
  refine fun hold => ⟨?_, fun hne => absurd rfl hne⟩
  rcases root_le hformed id with hle | hpinned
  · rcases (htracks.aged hold).1 with hlt | hpinned
    · exact .inl (by omega)
    · rw [root_of_self (hformed.parent_pinned id hpinned)]
      exact .inr hpinned
  · exact .inr hpinned

theorem tracks_advance (htracks : s.Tracks slot old id) (old' : Prop) :
  Tracks { s with aged := s.aged || s.unclean != 0, fresh := s.uf.len } slot old' id where
 lt := htracks.lt
 held := htracks.held
 unclean := htracks.unclean
 aged := by
  refine fun _ => ⟨.inl htracks.lt, fun hne => ?_⟩
  show (s.aged || s.unclean != 0) = true
  rw [or_eq_true, bne_iff_ne]
  refine .inr fun hzero => (htracks.unclean hne).1 ?_
  grind

end Space

end Tir.Relational
