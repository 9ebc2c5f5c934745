import Tir.Graph.Forest
import Tir.Relational.Ghd

/-!
# The order of the groups

Groups are placed from a start outwards, so every group comes after the one it was reached from, and two
groups adjacent in the forest have one reached from the other (`ordered_spec`).
-/

open List Bool

namespace Tir.Relational.Ghd

open Tir.Graph Placing

variable {tree : List (Option Nat)} {count root : Nat}

def Placing.groups (p : Placing) : List Nat :=
 p.order.map Prod.fst

/-- What placing groups keeps. -/
structure Placing.Grown (tree : List (Option Nat)) (count root : Nat) (p : Placing) : Prop where
 length : p.placed.length = count
 placed : ∀ g, p.placed.getD g false = true ↔ g ∈ p.groups
 lt : ∀ g ∈ p.groups, g < count
 nodup : p.groups.Nodup
 first : ∀ entry, p.order[0]? = some entry → entry = (root, root)
 parent : ∀ k entry, 0 < k → p.order[k]? = some entry → ∃ j above, j < k ∧ p.order[j]? = some above ∧ above.1 = entry.2
 edges : ∀ a ∈ p.groups, ∀ b ∈ p.groups, Adjacent (upOf tree) a b → (a, b) ∈ p.order ∨ (b, a) ∈ p.order

/-- What placing the groups of one component keeps: those before `at` have their neighbours placed, and
those from `start` on are joined by groups placed. -/
structure Placing.Reached (tree : List (Option Nat)) (count root start at' : Nat) (p : Placing) : Prop
  extends Placing.Grown tree count root p where
 done : ∀ k entry, k < at' → p.order[k]? = some entry → ∀ next < count, Adjacent (upOf tree) entry.1 next → next ∈ p.groups
 linked : ∀ side : Nat → Prop, (∀ a ∈ p.groups, ∀ b ∈ p.groups, Adjacent (upOf tree) a b → (side a ↔ side b)) →
  ∀ k entry j entry', start ≤ k → p.order[k]? = some entry → start ≤ j → p.order[j]? = some entry' →
   (side entry.1 ↔ side entry'.1)

/-- Every group placed has its neighbours placed. -/
structure Placing.Settled (tree : List (Option Nat)) (count root : Nat) (p : Placing) : Prop
  extends Placing.Grown tree count root p where
 closed : ∀ g ∈ p.groups, ∀ next < count, Adjacent (upOf tree) g next → next ∈ p.groups

/-- Place a group after another. -/
def Placing.put (p : Placing) (next group : Nat) : Placing :=
 ⟨p.placed.set next true, p.order ++ [(next, group)]⟩

variable {group next at' start : Nat} {p : Placing} {entry : Nat × Nat}

theorem Placing.mem_groups_put {g : Nat} : g ∈ (p.put next group).groups ↔ g ∈ p.groups ∨ g = next := by
 simp [put, groups]

theorem Placing.getElem?_put {k : Nat} (h : (p.put next group).order[k]? = some entry) :
  p.order[k]? = some entry ∨ k = p.order.length ∧ entry = (next, group) := by
 rw [put] at h
 rcases lt_trichotomy k p.order.length with hlt | rfl | hgt
 · grind
 · grind
 grind

theorem Placing.getElem?_put_of_some {k : Nat} (h : p.order[k]? = some entry) :
  (p.put next group).order[k]? = some entry := by
 rw [put]
 grind

/-- A group placed, after one placed that it is adjacent to alone of those placed or as the start of a
component. -/
theorem Placing.Grown.put (h : p.Grown tree count root) (hlt : next < count)
  (hnew : next ∉ p.groups) (hfst : p.order = [] → (next, group) = (root, root)) (hgroup : p.order ≠ [] → group ∈ p.groups)
  (hirrefl : ¬ Adjacent (upOf tree) next next) (hone : ∀ b ∈ p.groups, Adjacent (upOf tree) next b → b = group) :
  (p.put next group).Grown tree count root := by
 refine ⟨length_set.trans h.length, fun g => ?_, fun g hg => ?_, ?_, fun entry hent => ?_,
  fun k entry hk hent => ?_, fun a ha b hb hadjacent => ?_⟩
 · rw [Placing.mem_groups_put, ← h.placed, Placing.put]
   rw [getD_eq_getElem?_getD, getElem?_set, getD_eq_getElem?_getD]
   split
   · rename_i heq
     rw [if_pos (by rw [h.length]; exact hlt), heq]
     simp
   grind
 · rcases mem_groups_put.1 hg with hg | rfl
   · exact h.lt g hg
   · exact hlt
 · rw [Placing.groups, Placing.put, map_append, map_singleton]
   exact nodup_append.2 ⟨h.nodup, nodup_singleton _, fun a ha b hb => by
    rintro rfl
    obtain rfl := mem_singleton.1 hb
    exact hnew ha⟩
 · rcases getElem?_put hent with hold | ⟨hzero, rfl⟩
   · exact h.first entry hold
   · exact hfst (length_eq_zero_iff.1 hzero.symm)
 · rcases getElem?_put hent with hold | ⟨rfl, rfl⟩
   · obtain ⟨j, above, hj, habove, heq⟩ := h.parent k entry hk hold
     exact ⟨j, above, hj, getElem?_put_of_some habove, heq⟩
   · obtain ⟨above, hmem, heq⟩ := mem_map.1 (hgroup (ne_nil_of_length_pos hk))
     obtain ⟨j, hj, hget⟩ := getElem_of_mem hmem
     exact ⟨j, above, hj, getElem?_put_of_some (by rw [getElem?_eq_getElem hj, hget]), heq⟩
 · have hput : ∀ entry, entry ∈ (p.put next group).order ↔ entry ∈ p.order ∨ entry = (next, group) := by
    intro entry
    simp [Placing.put]
   rw [hput, hput]
   rcases Placing.mem_groups_put.1 ha with ha' | rfl
   · rcases mem_groups_put.1 hb with hb' | rfl
     · exact (h.edges a ha' b hb' hadjacent).imp .inl .inl
     · exact .inr (.inr (by rw [hone a ha' hadjacent.symm]))
   grind [mem_groups_put]

variable {rank : Nat → Nat}

theorem not_adjacent_self (hclimbs : Climbs (upOf tree) rank) (g : Nat) : ¬ Adjacent (upOf tree) g g := by
 rintro (h | h) <;> exact absurd (hclimbs g g h) (lt_irrefl _)

/-- Placing a neighbour of the group at `at`: it is adjacent to no other group placed, since two neighbours
of a group are apart without it. -/
theorem Placing.Reached.put (hclimbs : Climbs (upOf tree) rank)
  (h : p.Reached tree count root start at') (hstart : start ≤ at') (hat : p.order[at']? = some entry) (hlt : next < count)
  (hnew : next ∉ p.groups) (hadjacent : Adjacent (upOf tree) entry.1 next) :
  (p.put next entry.1).Reached tree count root start at' := by
 have hent : entry.1 ∈ p.groups := mem_map_of_mem (mem_of_getElem? hat)
 have hone : ∀ b ∈ p.groups, Adjacent (upOf tree) next b → b = entry.1 := by
  intro b hb hb'
  by_contra hne
  obtain ⟨above, hmem, rfl⟩ := mem_map.1 hb
  obtain ⟨k, hk, hget⟩ := getElem_of_mem hmem
  have hk' : p.order[k]? = some above := by rw [getElem?_eq_getElem hk, hget]
  by_cases hbef : k < at'
  · exact hnew (h.done k above hbef hk' next hlt hb'.symm)
  · obtain ⟨side, hsame, hapart⟩ := separates hclimbs hb' hadjacent.symm hne
    refine hapart (h.linked side (fun a ha b hb => hsame a b ?_ ?_) k above at' entry (by omega) hk' hstart hat)
    · rintro rfl
      exact hnew ha
    grind
 have hne : p.order ≠ [] := ne_nil_of_mem (mem_of_getElem? hat)
 refine ⟨h.toGrown.put hlt hnew (fun hnil => absurd hnil hne) (fun _ => hent) (not_adjacent_self hclimbs next) hone,
  fun k above hk hget next' hlt' hadj => ?_, fun side hside => ?_⟩
 · have hk' := (List.getElem?_eq_some_iff.1 hat).1
   rcases getElem?_put hget with hold | ⟨rfl, -⟩
   · exact mem_groups_put.2 (.inl (h.done k above hk hold next' hlt' hadj))
   · omega
 · have hold := h.linked side fun a ha b hb =>
    hside a (mem_groups_put.2 (.inl ha)) b (mem_groups_put.2 (.inl hb))
   have hnext := hside entry.1 (mem_groups_put.2 (.inl hent)) next (mem_groups_put.2 (.inr rfl)) hadjacent
   -- every group from the start on is on the side of the one at `at`
   have hall : ∀ k above, start ≤ k → (p.put next entry.1).order[k]? = some above → (side above.1 ↔ side entry.1) := by
    intro k above hk hget
    rcases getElem?_put hget with hget' | ⟨-, rfl⟩
    · exact hold k above at' entry hk hget' hstart hat
    · exact hnext.symm
   intro k above j above' hk hget hj hget'
   exact (hall k above hk hget).trans (hall j above' hj hget').symm

theorem visit_eq (group next : Nat) (h : p.Grown tree count root) :
  (visit tree group p next = p ∧ (Adjacent (upOf tree) group next → next ∈ p.groups)) ∨
   (visit tree group p next = p.put next group ∧ next ∉ p.groups ∧ Adjacent (upOf tree) group next) := by
 rw [visit]
 split
 · rename_i hif
   rw [and_eq_true, or_eq_true, decide_eq_true_iff, decide_eq_true_iff, not_eq_true'] at hif
   refine .inr ⟨rfl, fun hmem => ?_, hif.1.symm⟩
   rw [(h.placed next).2 hmem] at hif
   nomatch hif.2
 · rename_i hif
   refine .inl ⟨rfl, fun hadjacent => ?_⟩
   by_contra hnew
   rw [← h.placed] at hnew
   refine hif ?_
   rw [and_eq_true, or_eq_true, decide_eq_true_iff, decide_eq_true_iff, not_eq_true']
   exact ⟨hadjacent.symm, eq_false_of_not_eq_true hnew⟩

/-- Visiting the neighbours of the group at `at`. -/
theorem visits_reached (hclimbs : Climbs (upOf tree) rank)
  (h : p.Reached tree count root start at') (hstart : start ≤ at') (hat : p.order[at']? = some entry)
  (nexts : List Nat) (hnexts : ∀ next ∈ nexts, next < count) :
  (nexts.foldl (visit tree entry.1) p).Reached tree count root start at' ∧
   p.order <+: (nexts.foldl (visit tree entry.1) p).order ∧
   ∀ next ∈ nexts, Adjacent (upOf tree) entry.1 next → next ∈ (nexts.foldl (visit tree entry.1) p).groups := by
 induction nexts generalizing p with
 | nil => exact ⟨h, prefix_rfl, nofun⟩
 | cons next nexts ih =>
  have hrest := fun other hother => hnexts other (mem_cons_of_mem next hother)
  -- one more group visited, whether placed now or before
  have hone : (visit tree entry.1 p next).Reached tree count root start at' ∧
    p.order <+: (visit tree entry.1 p next).order ∧
    (Adjacent (upOf tree) entry.1 next → next ∈ (visit tree entry.1 p next).groups) := by
   rcases visit_eq entry.1 next h.toGrown with ⟨heq, hplaced⟩ | ⟨heq, hnew, hadjacent⟩
   · grind
   · rw [heq]
     exact ⟨h.put hclimbs hstart hat (hnexts next (.head _)) hnew hadjacent, prefix_append ..,
      fun _ => mem_groups_put.2 (.inr rfl)⟩
  obtain ⟨hreached, hgrown, hplaced⟩ := hone
  obtain ⟨hlt, hget⟩ := List.getElem?_eq_some_iff.1 hat
  obtain ⟨hreached', hgrown', hplaced'⟩ := ih hreached
   (by rw [getElem?_eq_getElem (hlt.trans_le hgrown.length_le), ← hgrown.getElem hlt, hget]) hrest
  refine ⟨hreached', hgrown.trans hgrown', fun other hother hadjacent => ?_⟩
  rcases mem_cons.1 hother with rfl | hother
  · exact (hgrown'.map Prod.fst).subset (hplaced hadjacent)
  · exact hplaced' other hother hadjacent

theorem Placing.Grown.length_le (h : p.Grown tree count root) : p.order.length ≤ count := by
 have hle := (subperm_of_subset h.nodup fun g hg => mem_range.2 (h.lt g hg)).length_le
 rwa [length_range, groups, length_map] at hle

/-- Past the last group placed, each has had its turn. -/
theorem Placing.Reached.settled (h : p.Reached tree count root start at')
  (hle : p.order.length ≤ at') : p.Settled tree count root := by
 refine ⟨h.toGrown, fun g hg next hlt hadjacent => ?_⟩
 obtain ⟨entry, hmem, rfl⟩ := mem_map.1 hg
 obtain ⟨k, hk, hget⟩ := getElem_of_mem hmem
 exact h.done k entry (by omega) (by rw [getElem?_eq_getElem hk, hget]) next hlt hadjacent

/-- The loop ends with every group placed having its neighbours placed. -/
theorem reach_settled {fuel : Nat} (hclimbs : Climbs (upOf tree) rank)
  (h : p.Reached tree count root start at') (hstart : start ≤ at') (hfuel : count < fuel + at') :
  (reach tree count fuel at' p).Settled tree count root ∧ p.order <+: (reach tree count fuel at' p).order := by
 induction fuel generalizing p at' with
 | zero =>
  have hle := h.toGrown.length_le
  exact ⟨h.settled (by omega), prefix_rfl⟩
 | succ fuel ih =>
  rw [reach]
  split
  · rename_i hnone
    exact ⟨h.settled (List.getElem?_eq_none_iff.1 hnone), prefix_rfl⟩
  · rename_i entry hat
    obtain ⟨hreached, hgrown, hplaced⟩ := visits_reached hclimbs h hstart hat (List.range count) fun next hnext =>
     mem_range.1 hnext
    obtain ⟨hlt, hget⟩ := List.getElem?_eq_some_iff.1 hat
    have hnext : ((List.range count).foldl (visit tree entry.1) p).Reached tree count root start (at' + 1) := by
     refine ⟨hreached.toGrown, fun k entry' hk hget' => ?_, hreached.linked⟩
     rcases Nat.lt_succ_iff_lt_or_eq.1 hk with hk | rfl
     · exact hreached.done k entry' hk hget'
     · rw [getElem?_eq_getElem (hlt.trans_le hgrown.length_le), ← hgrown.getElem hlt, hget] at hget'
       grind
    grind

theorem place_settled (hclimbs : Climbs (upOf tree) rank) (h : p.Settled tree count root)
  (hlt : start < count) (hfst : p.order = [] → start = root) (hroot : p.order ≠ [] → root ∈ p.groups) :
  (place tree count root p start).Settled tree count root ∧ p.order <+: (place tree count root p start).order ∧
   start ∈ (place tree count root p start).groups := by
 rw [place]
 split
 · rename_i hplaced
   exact ⟨h, prefix_rfl, (h.placed start).1 hplaced⟩
 · rename_i hnew
   rw [h.placed] at hnew
   have hgrown : (p.put start root).Grown tree count root := by
    refine h.toGrown.put hlt hnew (fun hnil => by rw [hfst hnil]) hroot (not_adjacent_self hclimbs start) ?_
    intro b hb hadjacent
    exact absurd (h.closed b hb start hlt hadjacent.symm) hnew
   have hreached : (p.put start root).Reached tree count root p.order.length p.order.length := by
    refine ⟨hgrown, fun k entry hk hget next hlt' hadjacent => ?_, fun side _ k entry j entry' hk hget hj hget' => ?_⟩
    · rcases getElem?_put hget with hold | ⟨rfl, -⟩
      · exact mem_groups_put.2 (.inl (h.closed _ (mem_map_of_mem (mem_of_getElem? hold)) next hlt' hadjacent))
      · omega
    · -- the start alone is from the start on
      have hone : ∀ k entry, p.order.length ≤ k → (p.put start root).order[k]? = some entry → entry = (start, root) := by
       intro k entry hk hget
       rcases getElem?_put hget with hold | ⟨-, rfl⟩
       · grind
       · rfl
      rw [hone k entry hk hget, hone j entry' hj hget']
   obtain ⟨hsettled, hgrown'⟩ := reach_settled hclimbs hreached le_rfl (by omega : count < count + 1 + p.order.length)
   exact ⟨hsettled, (prefix_append ..).trans hgrown',
    (hgrown'.map Prod.fst).subset (mem_groups_put.2 (.inr rfl))⟩

/-- The order of the groups of a forest. -/
structure Ordered (tree : List (Option Nat)) (count root : Nat) (order : List (Nat × Nat)) : Prop where
 all : ∀ g, g ∈ order.map Prod.fst ↔ g < count
 nodup : (order.map Prod.fst).Nodup
 first : order[0]? = some (root, root)
 parent : ∀ k entry, 0 < k → order[k]? = some entry → ∃ j above, j < k ∧ order[j]? = some above ∧ above.1 = entry.2
 edges : ∀ a b, a < count → b < count → Adjacent (upOf tree) a b → (a, b) ∈ order ∨ (b, a) ∈ order

/-- **Every group is placed once, after the one it was reached from, and adjacent groups are reached one
from the other.** -/
theorem ordered_spec (hclimbs : Climbs (upOf tree) rank) (hroot : root < count) :
  Ordered tree count root (ordered tree count root) := by
 have hempty : (⟨replicate count false, []⟩ : Placing).Settled tree count root := by
  refine ⟨⟨by simp, fun g => ?_, nofun, nodup_nil, nofun, nofun,
   nofun⟩, nofun⟩
  rw [getD_eq_getElem?_getD, getElem?_replicate]
  split <;> simp [groups]
 obtain ⟨hsettled, -, hmem⟩ := place_settled hclimbs hempty hroot (fun _ => rfl) (fun hne => absurd rfl hne)
 -- the root stays placed, so every later start hangs off it
 have hall : ∀ starts : List Nat, (∀ start ∈ starts, start < count) → ∀ p : Placing, p.Settled tree count root → root ∈ p.groups →
   (starts.foldl (place tree count root) p).Settled tree count root ∧
    p.order <+: (starts.foldl (place tree count root) p).order ∧
    ∀ start ∈ starts, start ∈ (starts.foldl (place tree count root) p).groups := by
  intro starts hstarts
  induction starts with
  | nil => exact fun p h _ => ⟨h, prefix_rfl, nofun⟩
  | cons start starts ih =>
   intro p h hin
   obtain ⟨hsettled, hgrown, hplaced⟩ := place_settled hclimbs h (hstarts start (.head _))
    (fun hnil => by rw [groups, hnil] at hin; exact absurd hin not_mem_nil) (fun _ => hin)
   obtain ⟨hsettled', hgrown', hplaced'⟩ := ih (fun other hother => hstarts other (.tail _ hother)) _ hsettled
    ((hgrown.map Prod.fst).subset hin)
   refine ⟨hsettled', hgrown.trans hgrown', fun other hother => ?_⟩
   rcases mem_cons.1 hother with rfl | hother
   · exact (hgrown'.map Prod.fst).subset hplaced
   · exact hplaced' other hother
 obtain ⟨hfinal, hgrown, hplaced⟩ := hall (List.range count) (fun start hstart => mem_range.1 hstart) _ hsettled hmem
 rw [ordered, foldl_cons]
 generalize (List.range count).foldl (place tree count root) _ = p at hfinal hgrown hplaced
 have hlt : ∀ g, g < count → g ∈ p.groups := fun g hg => hplaced g (mem_range.2 hg)
 refine ⟨fun g => ⟨hfinal.lt g, hlt g⟩, hfinal.nodup, ?_, hfinal.parent, fun a b ha hb => hfinal.edges a (hlt a ha) b (hlt b hb)⟩
 have hpos : 0 < p.order.length := by
  have := length_pos_of_mem (hlt root hroot)
  rwa [groups, length_map] at this
 rw [getElem?_eq_getElem hpos, hfinal.first _ (getElem?_eq_getElem hpos)]

end Tir.Relational.Ghd
