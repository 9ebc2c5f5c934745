import Tir.Relational.GhdGroups
import Tir.Relational.GhdOrder

/-!
# Decompositions

A run of atoms is decomposed into bags that form a tree: each atom in one bag that covers it, each bag
after its parent, and the bags that hold a variable joined (`decompose_spec`).
-/

open List Option Relation

namespace Tir.Relational.Ghd

open Tir.Graph

/-- A decomposition of a run of atoms. -/
structure Decomposed (edges : List Word) (bags : List Bag) : Prop where
 once : ∀ i < edges.length, ∃! b : Nat, ∃ bag : Bag, bags[b]? = some bag ∧ bag.atoms.getLsbD i = true
 atoms : ∀ (b : Nat) (bag : Bag) (i : Nat), bags[b]? = some bag → bag.atoms.getLsbD i = true →
  i < edges.length ∧ within (edges.getD i 0) bag.vars = true
 first : ∃ bag : Bag, bags[0]? = some bag ∧ bag.atoms.getLsbD 0 = true ∧ bag.parent = 0 ∧ bag.separator = 0
 parent : ∀ (b : Nat) (bag : Bag), 0 < b → bags[b]? = some bag → bag.parent < b ∧
  ∃ above : Bag, bags[bag.parent]? = some above ∧ bag.separator = bag.vars &&& above.vars
 joined : ∀ x, Joined (fun b => bags[b]?.map Bag.parent) fun b =>
  ∃ bag : Bag, bags[b]? = some bag ∧ bag.vars.getLsbD x = true

section

variable (gathered : Gathered) (order : List (Nat × Nat))

def position (group : Nat) : Nat :=
 (order.findIdx? fun other => other.1 = group).getD 0

def bagOf (entry : Nat × Nat) : Bag where
 atoms := gathered.atoms.getD entry.1 0
 vars := gathered.vars.getD entry.1 0
 parent := position order entry.2
 separator := if entry.1 = entry.2 then 0 else gathered.vars.getD entry.1 0 &&& gathered.vars.getD entry.2 0

end

variable {tree : List (Option Nat)} {count root : Nat} {order : List (Nat × Nat)} {gathered : Gathered}

section

variable (h : Ordered tree count root order)

include h

theorem Ordered.unique {k j : Nat} {entry entry' : Nat × Nat}
  (hk : order[k]? = some entry) (hj : order[j]? = some entry') (heq : entry.1 = entry'.1) : k = j := by
 obtain ⟨hk', rfl⟩ := List.getElem?_eq_some_iff.1 hk
 obtain ⟨hj', rfl⟩ := List.getElem?_eq_some_iff.1 hj
 have hkey : k < (order.map Prod.fst).length := by simpa using hk'
 have hkey' : j < (order.map Prod.fst).length := by simpa using hj'
 have hkeys : (order.map Prod.fst)[k] = (order.map Prod.fst)[j] := by
  rw [getElem_map, getElem_map, heq]
 exact (Nodup.getElem_inj_iff h.nodup).1 hkeys

theorem Ordered.findIdx {j : Nat} {entry : Nat × Nat} (hj : order[j]? = some entry) :
  (order.findIdx? fun other => other.1 = entry.1) = some j := by
 obtain ⟨hlt, hget⟩ := List.getElem?_eq_some_iff.1 hj
 rw [findIdx?_eq_some_iff_getElem]
 refine ⟨hlt, by rw [hget]; simp, fun i hi heq => ?_⟩
 exact absurd (h.unique (getElem?_eq_getElem (hi.trans hlt)) hj (of_decide_eq_true heq)) (ne_of_lt hi)

theorem Ordered.position_eq {j : Nat} {entry : Nat × Nat} (hj : order[j]? = some entry) :
  position order entry.1 = j := by
 rw [position, h.findIdx hj, getD_some]

/-- The bag a group was reached from is before it, the root's bag excepted. -/
theorem Ordered.above {k : Nat} {entry : Nat × Nat} (hk : order[k]? = some entry) :
  ∃ above, order[position order entry.2]? = some above ∧ above.1 = entry.2 ∧
   (k = 0 ∧ entry = (root, root) ∨ position order entry.2 < k) := by
 rcases Nat.eq_zero_or_pos k with rfl | hpos
 · cases h.first.symm.trans hk
   exact ⟨(root, root), by rw [h.position_eq h.first]; exact h.first, rfl, .inl ⟨rfl, rfl⟩⟩
 · obtain ⟨j, above, hj, habove, heq⟩ := h.parent k entry hpos hk
   rw [← heq, h.position_eq habove]
   exact ⟨above, habove, rfl, .inr hj⟩

end

theorem mapM_eq_map {α β : Type} {f : α → Option β} {g : α → β} {items : List α} (h : ∀ item ∈ items, f item = some (g item)) :
  items.mapM f = some (items.map g) := by
 induction items with
 | nil => rfl
 | cons item items ih =>
  grind

theorem Ordered.mapM_bags (h : Ordered tree count root order) :
  (order.mapM fun entry => (order.findIdx? fun other => other.1 = entry.2).map fun parent =>
   ({ atoms := gathered.atoms.getD entry.1 0
      vars := gathered.vars.getD entry.1 0
      parent := parent
      separator := if entry.1 = entry.2 then 0
       else gathered.vars.getD entry.1 0 &&& gathered.vars.getD entry.2 0 } : Bag)) =
   some (order.map (bagOf gathered order)) := by
 apply mapM_eq_map
 intro entry hmem
 obtain ⟨k, hk, hget⟩ := getElem_of_mem hmem
 obtain ⟨above, habove, heq, -⟩ := h.above (by rw [getElem?_eq_getElem hk, hget])
 have hfound := h.findIdx habove
 rw [heq] at hfound
 rw [hfound, map_some, bagOf]

/-- Adjacent groups that hold a variable have adjacent bags that hold it. -/
theorem Ordered.joined (gathered : Gathered) (h : Ordered tree count root order) {among : Nat → Prop}
  (hlt : ∀ a b, upOf tree a = some b → a < count ∧ b < count) (hjoined : Joined (upOf tree) among) :
  Joined (fun b => (order.map (bagOf gathered order))[b]?.map Bag.parent) fun b =>
   ∃ entry, order[b]? = some entry ∧ among entry.1 := by
 rintro a b ⟨entry, ha, hin⟩ ⟨entry', hb, hin'⟩
 have hpar : ∀ (k : Nat) (entry : Nat × Nat), order[k]? = some entry →
   (order.map (bagOf gathered order))[k]?.map Bag.parent = some (position order entry.2) := by
  intro k entry hk
  rw [getElem?_map, hk]
  rfl
 have hchain := hjoined entry.1 entry'.1 hin hin'
 generalize hlast : entry'.1 = last at hchain
 -- along the chain of groups, each at its position
 have hall : ∀ (k : Nat) (above : Nat × Nat), order[k]? = some above → above.1 = last → ReflTransGen
   (fun a b => Adjacent (fun b => (order.map (bagOf gathered order))[b]?.map Bag.parent) a b ∧
    (∃ entry : Nat × Nat, order[a]? = some entry ∧ among entry.1) ∧ ∃ entry : Nat × Nat, order[b]? = some entry ∧ among entry.1) a k := by
  clear hlast hb hin'
  induction hchain with
  | refl =>
   intro k above hk heq
   rw [h.unique hk ha heq]
  | @tail g last' _ hstep ih =>
   intro k above hk heq
   obtain ⟨hadj, hg, hlast'⟩ := hstep
   have hboth : g < count ∧ last' < count := by
    rcases hadj with hup | hup
    · exact hlt g last' hup
    · exact (hlt last' g hup).symm
   obtain ⟨middle, hmem, rfl⟩ := List.mem_map.1 ((h.all g).2 hboth.1)
   obtain ⟨j, hj, hget⟩ := getElem_of_mem hmem
   have hj' : order[j]? = some middle := by rw [getElem?_eq_getElem hj, hget]
   refine ReflTransGen.tail (ih j middle hj' rfl) ⟨?_, ⟨middle, hj', hg⟩, ⟨above, hk, heq ▸ hlast'⟩⟩
   rcases h.edges middle.1 last' hboth.1 hboth.2 hadj with hin | hin
   · -- the first was reached from the second
     obtain ⟨i, hi, hget'⟩ := getElem_of_mem hin
     have hi' : order[i]? = some (middle.1, last') := by rw [getElem?_eq_getElem hi, hget']
     obtain rfl := h.unique hi' hj' rfl
     refine .inl ((hpar _ _ hi').trans ?_)
     rw [← heq, h.position_eq hk]
   · obtain ⟨i, hi, hget'⟩ := getElem_of_mem hin
     have hi' : order[i]? = some (last', middle.1) := by rw [getElem?_eq_getElem hi, hget']
     obtain rfl := h.unique hi' hk heq.symm
     refine .inr ((hpar _ _ hi').trans ?_)
     rw [h.position_eq hj']
 exact hall b entry' hb hlast

/-- **A run of at most 64 atoms is decomposed into bags that form a tree.** -/
theorem decompose_spec (edges : List Word) (hne : edges ≠ []) (hlt : edges.length ≤ 64) :
  ∃ bags, decompose edges = some bags ∧ Decomposed edges bags := by
 obtain ⟨hparts, htree⟩ := grouping_spec hlt
 rw [length_topEdges] at hparts
 obtain ⟨gathered, hgather, hgathering⟩ := gather_spec hlt hparts
 rw [← hgathering.vars] at htree
 obtain ⟨tree, htree⟩ := isSome_iff_exists.1 htree
 obtain ⟨⟨rank, hclimbs⟩, hup, hjoined⟩ := joinTree_spec htree
 obtain ⟨-, -, root, -, -, -, hrootlt, hroot⟩ := groupOf_spec hparts (length_pos_iff.2 hne)
 have hord := ordered_spec hclimbs hrootlt
 have hvars : gathered.vars.length = (grouping edges).length := by rw [hgathering.vars, length_map]
 refine ⟨(ordered tree (grouping edges).length root).map (bagOf gathered (ordered tree (grouping edges).length root)), ?_, ?_⟩
 · rw [decompose, hgather, bind_some, htree, bind_some, hroot, bind_some]
   exact hord.mapM_bags
 · generalize ordered tree (grouping edges).length root = order at hord
   have hbag : ∀ (b : Nat) (bag : Bag), (order.map (bagOf gathered order))[b]? = some bag →
     ∃ entry : Nat × Nat, order[b]? = some entry ∧ bagOf gathered order entry = bag := by
    intro b bag hb
    rw [getElem?_map] at hb
    exact map_eq_some_iff.1 hb
   have hget : ∀ (b : Nat) (entry : Nat × Nat), order[b]? = some entry → (order.map (bagOf gathered order))[b]? = some (bagOf gathered order entry) := by
    intro b entry hb
    rw [getElem?_map, hb, map_some]
   refine ⟨fun i hi => ?_, fun b bag i hb hbit => ?_, ?_, fun b bag hpos hb => ?_, fun x => ?_⟩
   · obtain ⟨-, -, g, -, -, -, hg, hgroup⟩ := groupOf_spec hparts hi
     obtain ⟨entry, hmem, rfl⟩ := List.mem_map.1 ((hord.all g).2 hg)
     obtain ⟨b, hb, hb'⟩ := getElem_of_mem hmem
     have hb'' : order[b]? = some entry := by rw [getElem?_eq_getElem hb, hb']
     refine ⟨b, ⟨_, hget b entry hb'', (hgathering.atoms entry.1 i).2 ⟨hi, hgroup⟩⟩, ?_⟩
     rintro c ⟨bag, hc, hbit⟩
     obtain ⟨entry', hc', rfl⟩ := hbag c bag hc
     have hsame := ((hgathering.atoms entry'.1 i).1 hbit).2
     exact hord.unique hc' hb'' (some.inj (hsame.symm.trans hgroup))
   · obtain ⟨entry, -, rfl⟩ := hbag b bag hb
     obtain ⟨hi, hgroup⟩ := (hgathering.atoms entry.1 i).1 hbit
     exact ⟨hi, within_iff.2 fun x hx => (hgathering.union entry.1 x).2 ⟨i, hi, hgroup, hx⟩⟩
   · refine ⟨_, hget 0 _ hord.first, (hgathering.atoms root 0).2 ⟨length_pos_iff.2 hne, hroot⟩,
      hord.position_eq hord.first, if_pos rfl⟩
   · obtain ⟨entry, hb', rfl⟩ := hbag b bag hb
     obtain ⟨above, habove, heq, hbef⟩ := hord.above hb'
     have hless := hbef.resolve_left fun hzero => absurd hzero.1 (ne_of_gt hpos)
     refine ⟨hless, _, hget _ above habove, ?_⟩
     have hne : entry.1 ≠ entry.2 := fun hsame =>
      absurd (hord.unique hb' habove (hsame.trans heq.symm)) (ne_of_gt hless)
     simp [bagOf, if_neg hne, heq]
   · have hall := Ordered.joined gathered hord (fun a b hab => by rw [← hvars]; exact hup a b hab) (hjoined x)
     have hsame : (fun b : Nat => ∃ bag : Bag, (order.map (bagOf gathered order))[b]? = some bag ∧ bag.vars.getLsbD x = true) =
       fun b : Nat => ∃ entry : Nat × Nat, order[b]? = some entry ∧ entry.1 < gathered.vars.length ∧ (gathered.vars.getD entry.1 0).getLsbD x = true := by
      funext b
      refine propext ⟨?_, ?_⟩
      · rintro ⟨bag, hb, hbit⟩
        obtain ⟨entry, hb', rfl⟩ := hbag b bag hb
        refine ⟨entry, hb', ?_, hbit⟩
        rw [hvars, ← hord.all]
        exact List.mem_map_of_mem (mem_of_getElem? hb')
      · rintro ⟨entry, hb, -, hbit⟩
        exact ⟨_, hget b entry hb, hbit⟩
     rwa [hsame]

/-- A triangle, an atom within it and one apart. -/
theorem decompose_triangle : ∃ bags, decompose [0b0011, 0b0001, 0b0110, 0b0101, 0b11000] = some bags ∧
  Decomposed [0b0011, 0b0001, 0b0110, 0b0101, 0b11000] bags :=
 decompose_spec [0b0011, 0b0001, 0b0110, 0b0101, 0b11000] (by decide) (by decide)

/-- No bag holds the first atom of a run of none. -/
theorem decompose_nil : ¬ ∀ edges : List Word, edges.length ≤ 64 → ∃ bags, decompose edges = some bags ∧ Decomposed edges bags := by
 intro h
 obtain ⟨bags, hbags, -⟩ := h [] (by decide)
 nomatch hbags

end Tir.Relational.Ghd
