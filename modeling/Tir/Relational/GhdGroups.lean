import Tir.Relational.GhdTree

/-!
# The groups of a decomposition

However the maximal edges are grouped, every one of them is in one group and the groups' variables form a
forest (`grouping_spec`); gathering the atoms by the groups of the maximal edges they lie within keeps the
groups' variables (`gather_spec`).
-/

open List Nat

namespace Tir.Relational.Ghd

open Tir.Graph

variable {edges : List Word} {x : Nat}

/-! ## Partitions -/

/-- Every number below a bound is in one of the masks. -/
structure Parts (count : Nat) (groups : List Word) : Prop where
 held : ∀ i < count, ∃ g < groups.length, (groups.getD g 0).getLsbD i = true
 lt : ∀ g i, (groups.getD g 0).getLsbD i = true → i < count
 one : ∀ g g' i, (groups.getD g 0).getLsbD i = true → (groups.getD g' 0).getLsbD i = true → g = g'

variable {i count : Nat} {items : List Word} {block : Word}

theorem getD_set_eq (mask : Word) (h : i < items.length) (j : Nat) :
  (items.set i mask).getD j 0 = if i = j then mask else items.getD j 0 := by
 rw [getD_eq_getElem?_getD, getElem?_set, if_pos h]
 split
 · rfl
 · rw [getD_eq_getElem?_getD]

theorem getD_append_one (mask : Word) (j : Nat) :
  (items ++ [mask]).getD j 0 = if j = items.length then mask else items.getD j 0 := by
 rw [getD_eq_getElem?_getD, getD_eq_getElem?_getD]
 rcases Nat.lt_trichotomy j items.length with hlt | heq | hgt
 · rw [getElem?_append_left hlt, if_neg (Nat.ne_of_lt hlt)]
 · subst heq
   simp
 grind

theorem Parts.put {count g : Nat} {groups groups' : List Word} (h : Parts count groups) (hle : groups.length ≤ groups'.length)
  (hg : g < groups'.length) (hbits : ∀ g' i, (groups'.getD g' 0).getLsbD i = true ↔
   (groups.getD g' 0).getLsbD i = true ∨ g' = g ∧ i = count) : Parts (count + 1) groups' := by
 refine ⟨fun i hi => ?_, fun g' i hbit => ?_, fun g' g'' i hbit hbit' => ?_⟩
 · rcases Nat.lt_succ_iff_lt_or_eq.1 hi with hlt | rfl
   · obtain ⟨g', hg', hheld⟩ := h.held i hlt
     exact ⟨g', hg'.trans_le hle, (hbits g' i).2 (.inl hheld)⟩
   · exact ⟨g, hg, (hbits g i).2 (.inr ⟨rfl, rfl⟩)⟩
 · rcases (hbits g' i).1 hbit with hheld | ⟨-, rfl⟩
   · exact lt_succ_of_lt (h.lt g' i hheld)
   · exact lt_succ_self _
 · rcases (hbits g' i).1 hbit with hheld | ⟨rfl, rfl⟩
   · rcases (hbits g'' i).1 hbit' with hheld' | ⟨-, rfl⟩
     · exact h.one g' g'' i hheld hheld'
     · exact absurd (h.lt g' _ hheld) (lt_irrefl _)
   · rcases (hbits g'' i).1 hbit' with hheld' | ⟨rfl, -⟩
     · exact absurd (h.lt g'' _ hheld') (lt_irrefl _)
     · rfl

theorem Parts.join {count g : Nat} {groups : List Word} (h : Parts count groups) (hcnt : count < 64)
  (hg : g < groups.length) : Parts (count + 1) (groups.set g (groups.getD g 0 ||| bit count)) := by
 apply h.put (by rw [length_set]) (by rwa [length_set])
 intro g' i
 rw [getD_set_eq _ hg]
 split
 · rename_i heq
   subst heq
   rw [BitVec.getLsbD_or, getLsbD_bit, Bool.or_eq_true, Bool.and_eq_true, decide_eq_true_iff, decide_eq_true_iff]
   apply or_congr_right
   constructor
   · exact fun hand => ⟨rfl, hand.2⟩
   grind
 grind

theorem Parts.snoc {count : Nat} {groups : List Word} (h : Parts count groups) (hcnt : count < 64) :
  Parts (count + 1) (groups ++ [bit count]) := by
 apply h.put (g := groups.length) (by simp) (by simp)
 intro g' i
 rw [getD_append_one]
 split
 · rename_i heq
   grind [getLsbD_bit]
 grind

theorem Parts.nil : Parts 0 [] :=
 ⟨fun i hi => absurd hi (Nat.not_lt_zero i), fun g i hbit => by simp at hbit, fun g g' i hbit => by simp at hbit⟩

/-! ## The best partition -/

/-- Groups of edges that form a forest. -/
structure Grouped (edges groups : List Word) : Prop where
 parts : Parts edges.length groups
 tree : (joinTree (groups.map (blockVars edges))).isSome = true

theorem joinTree_singleton (edge : Word) : (joinTree [edge]).isSome = true := by
 have hear : ear [edge] [0] = some (0, none) := by
  simp [ear, others]
 simp [joinTree, joinTreeFrom, hear]

theorem settle_grouped {blocks : List Word} {best : Best} (hparts : Parts edges.length blocks)
  (h : Grouped edges best.blocks) : Grouped edges (settle edges blocks best).blocks := by
 rw [settle]
 dsimp only
 split
 · exact h
 · split
   · rename_i hbest
     rw [Bool.and_eq_true] at hbest
     exact ⟨hparts, hbest.2⟩
   · exact h

/-- Whatever partitions are tried, the best stays one whose groups form a forest. -/
theorem assign_grouped {remaining at' : Nat} {blocks : List Word} {best : Best} (hlt : edges.length ≤ 64)
  (hat : at' + remaining = edges.length) (hparts : Parts at' blocks) (h : Grouped edges best.blocks) :
  Grouped edges (assign edges remaining at' blocks best).blocks := by
 induction remaining generalizing at' blocks best with
 | zero =>
  rw [assign]
  grind [settle_grouped]
 | succ remaining ih =>
  rw [assign]
  apply ih (by omega) (hparts.snoc (by omega))
  refine List.foldlRecOn (motive := fun best : Best => Grouped edges best.blocks) (List.range blocks.length) _ h ?_
  intro best h block hblk
  exact ih (by omega) (hparts.join (by omega) (mem_range.1 hblk)) h

theorem reads_eq_self (h : ∀ i < edges.length, block.getLsbD i = true) : reads edges block = edges := by
 rw [reads, filter_eq_self.2 fun i hi => h i (mem_range.1 hi)]
 apply ext_getElem (by simp)
 intro i hi hi'
 simp [hi']

theorem countOnes_le (mask : Word) : countOnes mask ≤ 64 := by
 rw [countOnes]
 exact (length_filter_le ..).trans_eq length_range

section

variable (hcyclic : joinTree edges = none)

include hcyclic

/-- The search starts with the partition of one block. -/
theorem settle_first {best : Best}
  (hparts : Parts edges.length [block]) (hbest : 64 < best.size) : Grouped edges (settle edges [block] best).blocks := by
 have hall : ∀ i < edges.length, block.getLsbD i = true := by
  intro i hi
  obtain ⟨g, hg, hheld⟩ := hparts.held i hi
  grind
 have hones := countOnes_le block
 have hsize : ¬ (best.size < countOnes block) := by omega
 have hsize' : best.size ≠ countOnes block := by omega
 have htree := joinTree_singleton (blockVars edges block)
 have hkept : (settle edges [block] best).blocks = [block] := by
  simp [settle, hsize, hsize', reads_eq_self hall, hcyclic, htree]
 rw [hkept]
 exact ⟨hparts, htree⟩

/-- The first partition tried has one block, and is kept. -/
theorem assign_first {remaining at' : Nat} {block : Word} {best : Best}
  (hlt : edges.length ≤ 64) (hat : at' + remaining = edges.length) (hparts : Parts at' [block])
  (hbest : 64 < best.size) : Grouped edges (assign edges remaining at' [block] best).blocks := by
 induction remaining generalizing at' block with
 | zero =>
  rw [assign]
  grind [settle_first]
 | succ remaining ih =>
  rw [assign]
  apply assign_grouped hlt (by omega) (hparts.snoc (by omega))
  exact ih (by omega) (hparts.join (by omega) Nat.zero_lt_one)

/-- **The partition of cyclic edges puts every edge in one group, and its groups form a forest.** -/
theorem partition_spec (hlt : edges.length ≤ 64) : Grouped edges (partition edges) := by
 have hne : edges.length ≠ 0 := by
  intro hzero
  rw [length_eq_zero_iff.1 hzero] at hcyclic
  nomatch hcyclic
 obtain ⟨remaining, hremaining⟩ := exists_eq_succ_of_ne_zero hne
 rw [partition, hremaining, assign]
 apply assign_first hcyclic hlt (by omega) (Parts.nil.snoc (by omega))
 exact (by decide : 64 < 2 ^ 32 - 1)

end

/-! ## Maximal edges -/

theorem getLsbD_blockVars : (blockVars edges block).getLsbD x = true ↔
  ∃ i < edges.length, block.getLsbD i = true ∧ (edges.getD i 0).getLsbD x = true := by
 rw [blockVars, getLsbD_foldl_or fun mask => mask]
 simp [reads, and_assoc]

theorem Parts.ofBits (hcnt : count ≤ 64) : Parts count ((List.range count).map bit) := by
 have hbits : ∀ g i, (((List.range count).map bit).getD g 0).getLsbD i = true ↔ g < count ∧ i = g := by
  intro g i
  by_cases hg : g < count
  · grind [getLsbD_bit]
  grind
 refine ⟨fun i hi => ⟨i, by simpa using hi, (hbits i i).2 ⟨hi, rfl⟩⟩, fun g i hbit => ?_, fun g g' i hbit hbit' => ?_⟩
 · grind
 · exact ((hbits g i).1 hbit).2.symm.trans ((hbits g' i).1 hbit').2

theorem Parts.ofAll (hcnt : count ≤ 64) : Parts count [BitVec.allOnes 64 >>> (64 - count)] := by
 have hbits : ∀ g i, (([BitVec.allOnes 64 >>> (64 - count)] : List Word).getD g 0).getLsbD i = true ↔ g = 0 ∧ i < count := by
  intro g i
  cases g with
  | zero =>
   rw [getD_cons_zero, BitVec.getLsbD_ushiftRight, BitVec.getLsbD_allOnes, decide_eq_true_iff]
   omega
  | succ g => simp
 refine ⟨fun i hi => ⟨0, Nat.zero_lt_one, (hbits 0 i).2 ⟨rfl, hi⟩⟩, fun g i hbit => ((hbits g i).1 hbit).2, ?_⟩
 grind

theorem blockVars_bits (hlt : edges.length ≤ 64) : ((List.range edges.length).map bit).map (blockVars edges) = edges := by
 apply ext_getElem (by simp)
 intro t ht ht'
 rw [getElem_map, getElem_map, getElem_range]
 apply BitVec.eq_of_getLsbD_eq
 intro x hx
 rw [Bool.eq_iff_iff, getLsbD_blockVars]
 simp only [getLsbD_bit, Bool.and_eq_true, decide_eq_true_iff]
 constructor
 · grind
 · intro hbit
   refine ⟨t, ht', ⟨by omega, rfl⟩, ?_⟩
   rwa [getD_eq_getElem _ _ ht']

theorem length_topEdges : (topEdges edges).length = (tops edges).length := by
 rw [topEdges, length_map]

theorem length_tops_le : (tops edges).length ≤ edges.length := by
 rw [tops]
 exact (length_filter_le ..).trans_eq length_range

/-- **However the maximal edges are grouped, every one is in one group and the groups form a forest.** -/
theorem grouping_spec (hlt : edges.length ≤ 64) : Grouped (topEdges edges) (grouping edges) := by
 have hlt' : (topEdges edges).length ≤ 64 := by
  rw [length_topEdges]
  exact length_tops_le.trans hlt
 rw [grouping, ← length_topEdges]
 split
 · rename_i htree
   refine ⟨Parts.ofBits hlt', ?_⟩
   rwa [blockVars_bits hlt']
 · rename_i hcyclic
   split
   · exact partition_spec (Option.not_isSome_iff_eq_none.1 hcyclic) hlt'
   · exact ⟨Parts.ofAll hlt', joinTree_singleton _⟩

theorem within_refl (a : Word) : within a a = true :=
 within_iff.2 fun _ hx => hx

theorem within_trans {a b c : Word} (hab : within a b = true) (hbc : within b c = true) : within a c = true :=
 within_iff.2 fun x hx => within_iff.1 hbc x (within_iff.1 hab x hx)

/-- A mask within another is the smaller number. -/
theorem toNat_lt_of_within {a b : Word} (h : within a b = true) (hne : a ≠ b) : a.toNat < b.toNat := by
 have hand : a &&& b = a := by
  apply BitVec.eq_of_getLsbD_eq
  grind [within_iff]
 have hle : a.toNat ≤ b.toNat := by
  rw [← hand, BitVec.toNat_and]
  exact Nat.and_le_right
 exact lt_of_le_of_ne hle fun heq => hne (BitVec.eq_of_toNat_eq heq)

theorem covers_iff {j : Nat} : covers edges j i = true ↔
  j ≠ i ∧ within (edges.getD i 0) (edges.getD j 0) = true ∧ (edges.getD i 0 ≠ edges.getD j 0 ∨ j < i) := by
 rw [covers]
 simp [and_assoc]

theorem mem_tops : i ∈ tops edges ↔ i < edges.length ∧ ∀ j < edges.length, covers edges j i = false := by
 rw [tops]
 simp

/-- Every edge lies within a maximal one. -/
theorem exists_top {i : Nat} (h : i < edges.length) :
  ∃ top ∈ tops edges, within (edges.getD i 0) (edges.getD top 0) = true := by
 by_cases htop : i ∈ tops edges
 · exact ⟨i, htop, within_refl _⟩
 · have hcovered : ∃ j < edges.length, covers edges j i = true := by
    by_contra hnone
    refine htop (mem_tops.2 ⟨h, fun j hj => ?_⟩)
    by_contra hcov
    exact hnone ⟨j, hj, Bool.eq_true_of_not_eq_false hcov⟩
   obtain ⟨j, hj, hcov⟩ := hcovered
   obtain ⟨-, hwithin, hor⟩ := covers_iff.1 hcov
   obtain ⟨top, htop, hwithin'⟩ := exists_top hj
   exact ⟨top, htop, within_trans hwithin hwithin'⟩
termination_by (2 ^ 64 - (edges.getD i 0).toNat, i)
decreasing_by
 have hlt := (edges.getD j 0).isLt
 by_cases heq : edges.getD i 0 = edges.getD j 0
 · grind
 · have hless := toNat_lt_of_within hwithin heq
   exact Prod.Lex.left _ _ (by omega)

/-! ## Gathering -/

variable {groups : List Word}

theorem Parts.findIdx {g t : Nat} (h : Parts count groups) (hbit : (groups.getD g 0).getLsbD t = true) :
  groups.findIdx? (fun group => group.getLsbD t) = some g := by
 have hg : g < groups.length := by
  grind
 rw [findIdx?_eq_some_iff_getElem]
 refine ⟨hg, by rwa [← getD_eq_getElem _ 0 hg], fun j hj hbit' => ?_⟩
 rw [← getD_eq_getElem _ 0 (hj.trans hg)] at hbit'
 exact absurd (h.one j g t hbit' hbit) (Nat.ne_of_lt hj)

/-- An edge is in the group of a maximal edge it lies within. -/
theorem groupOf_spec (h : Parts (tops edges).length groups) (hi : i < edges.length) :
  ∃ t top g, (tops edges)[t]? = some top ∧ within (edges.getD i 0) (edges.getD top 0) = true ∧
   (groups.getD g 0).getLsbD t = true ∧ g < groups.length ∧ groupOf edges groups i = some g := by
 obtain ⟨top, htop, hwithin⟩ := exists_top hi
 have hfound : ((tops edges).findIdx? fun top => top = i || within (edges.getD i 0) (edges.getD top 0)).isSome = true := by
  grind
 obtain ⟨t, ht⟩ := Option.isSome_iff_exists.1 hfound
 obtain ⟨hlt, hfst, -⟩ := findIdx?_eq_some_iff_getElem.1 ht
 obtain ⟨g, hg, hbit⟩ := h.held t hlt
 refine ⟨t, (tops edges)[t], g, List.getElem?_eq_getElem hlt, ?_, hbit, hg, ?_⟩
 · rw [Bool.or_eq_true, decide_eq_true_iff] at hfst
   rcases hfst with heq | hwithin
   · rw [heq]
     exact within_refl _
   · exact hwithin
 · rw [groupOf, ht, Option.bind_some, h.findIdx hbit]

theorem tops_sorted : (tops edges).Pairwise (· < ·) := by
 rw [tops]
 exact pairwise_lt_range.filter _

/-- The first maximal edge a maximal edge lies within is itself. -/
theorem groupOf_top {t top g : Nat} (h : Parts (tops edges).length groups) (ht : (tops edges)[t]? = some top)
  (hbit : (groups.getD g 0).getLsbD t = true) : groupOf edges groups top = some g := by
 obtain ⟨hlt, rfl⟩ := List.getElem?_eq_some_iff.1 ht
 have hmem := getElem_mem hlt
 generalize hdef : (tops edges)[t] = top at hmem
 have hfst : ((tops edges).findIdx? fun top' => top' = top || within (edges.getD top 0) (edges.getD top' 0)) = some t := by
  rw [findIdx?_eq_some_iff_getElem]
  refine ⟨hlt, by rw [hdef]; simp, fun j hj hbef => ?_⟩
  -- an edge before it that covers it would keep it out
  have hless := pairwise_iff_getElem.1 tops_sorted j t (hj.trans hlt) hlt hj
  rw [hdef] at hless
  rw [Bool.or_eq_true, decide_eq_true_iff] at hbef
  grind [covers_iff, mem_tops]
 rw [groupOf, hfst, Option.bind_some, h.findIdx hbit]

/-- What gathering some of the edges adds to each group. -/
structure Gathers (groups : List Word) (edges : List Word) (entries : List (Word × Nat)) (before after : Gathered) : Prop where
 length_atoms : after.atoms.length = before.atoms.length
 length_vars : after.vars.length = before.vars.length
 atoms : ∀ g i, (after.atoms.getD g 0).getLsbD i = true ↔
  (before.atoms.getD g 0).getLsbD i = true ∨ ∃ entry ∈ entries, groupOf edges groups entry.2 = some g ∧ i = entry.2
 vars : ∀ g x, (after.vars.getD g 0).getLsbD x = true ↔
  (before.vars.getD g 0).getLsbD x = true ∨
   ∃ entry ∈ entries, groupOf edges groups entry.2 = some g ∧ entry.1.getLsbD x = true

theorem gather_entries (entries : List (Word × Nat)) (before : Gathered)
  (hgroups : ∀ entry ∈ entries, entry.2 < 64 ∧ ∃ g, g < before.atoms.length ∧ g < before.vars.length ∧
   groupOf edges groups entry.2 = some g) :
  ∃ after, entries.foldlM (fun gathered entry => (groupOf edges groups entry.2).map fun group =>
   (⟨gathered.atoms.set group (gathered.atoms.getD group 0 ||| bit entry.2),
     gathered.vars.set group (gathered.vars.getD group 0 ||| entry.1)⟩ : Gathered)) before = some after ∧
   Gathers groups edges entries before after := by
 induction entries generalizing before with
 | nil => exact ⟨before, rfl, rfl, rfl, fun g i => by simp, fun g x => by simp⟩
 | cons entry entries ih =>
  obtain ⟨hlt, g, hatoms, hvars, hgroup⟩ := hgroups entry (.head _)
  rw [List.foldlM_cons, hgroup, Option.map_some, Option.bind_eq_bind, Option.bind_some]
  obtain ⟨after, hafter, hlatoms, hlvars, hbits, hbits'⟩ := ih ⟨before.atoms.set g (before.atoms.getD g 0 ||| bit entry.2),
   before.vars.set g (before.vars.getD g 0 ||| entry.1)⟩ fun other hother => by
    grind
  refine ⟨after, hafter, hlatoms.trans List.length_set, hlvars.trans List.length_set, fun g' i => ?_, fun g' x => ?_⟩
  · rw [hbits, getD_set_eq _ hatoms, List.exists_mem_cons_iff, hgroup, Option.some_inj, ← or_assoc]
    apply or_congr_left
    split
    · rename_i heq
      subst heq
      simp only [BitVec.getLsbD_or, getLsbD_bit, Bool.or_eq_true, Bool.and_eq_true, decide_eq_true_iff, true_and]
      apply or_congr_right
      constructor
      · exact And.right
      grind
    grind
  · rw [hbits', getD_set_eq _ hvars, List.exists_mem_cons_iff, hgroup, Option.some_inj, ← or_assoc]
    apply or_congr_left
    split
    · grind
    grind

/-- The atoms and variables of the groups of a decomposition. -/
structure Gathering (edges groups : List Word) (gathered : Gathered) : Prop where
 length_atoms : gathered.atoms.length = groups.length
 vars : gathered.vars = groups.map (blockVars (topEdges edges))
 atoms : ∀ g i, (gathered.atoms.getD g 0).getLsbD i = true ↔ i < edges.length ∧ groupOf edges groups i = some g
 union : ∀ g x, (gathered.vars.getD g 0).getLsbD x = true ↔
  ∃ i < edges.length, groupOf edges groups i = some g ∧ (edges.getD i 0).getLsbD x = true

/-- **Gathering keeps the variables the maximal edges give each group.** -/
theorem gather_spec (hlt : edges.length ≤ 64) (h : Parts (tops edges).length groups) :
  ∃ gathered, gather edges groups = some gathered ∧ Gathering edges groups gathered := by
 have hent : ∀ entry : Word × Nat, entry ∈ edges.zipIdx ↔ entry.2 < edges.length ∧ edges.getD entry.2 0 = entry.1 := by
  intro entry
  rw [mem_zipIdx_iff_getElem?, List.getElem?_eq_some_iff]
  constructor
  · grind
  grind
 obtain ⟨gathered, hgather, hlatoms, hlvars, hatoms, hvars⟩ := gather_entries
  edges.zipIdx ⟨List.replicate groups.length 0, List.replicate groups.length 0⟩ fun entry hmem => by
   obtain ⟨hi, -⟩ := (hent entry).1 hmem
   obtain ⟨t, top, g, -, -, -, hg, hgroup⟩ := groupOf_spec h hi
   exact ⟨by omega, g, by simpa using hg, by simpa using hg, hgroup⟩
 have hnone : ∀ g x, ((List.replicate groups.length (0 : Word)).getD g 0).getLsbD x = false := by
  grind
 have hunion : ∀ g x, (gathered.vars.getD g 0).getLsbD x = true ↔
   ∃ i < edges.length, groupOf edges groups i = some g ∧ (edges.getD i 0).getLsbD x = true := by
  intro g x
  rw [hvars, hnone]
  constructor
  · rintro (hout | ⟨entry, hmem, hgroup, hbit⟩)
    · nomatch hout
    · grind
  · rintro ⟨i, hi, hgroup, hbit⟩
    exact .inr ⟨(edges.getD i 0, i), (hent _).2 ⟨hi, rfl⟩, hgroup, hbit⟩
 refine ⟨gathered, hgather, by simpa using hlatoms, ?_, fun g i => ?_, hunion⟩
 · apply ext_getElem (by simpa using hlvars)
   intro g hg hg'
   rw [getElem_map, ← getD_eq_getElem _ 0 hg]
   have hgs : g < groups.length := by simpa using hg'
   rw [← getD_eq_getElem _ 0 hgs]
   apply BitVec.eq_of_getLsbD_eq
   intro x hx
   rw [Bool.eq_iff_iff, hunion, getLsbD_blockVars, length_topEdges]
   constructor
   · rintro ⟨i, hi, hgroup, hbit⟩
     obtain ⟨t, top, g', ht, hwithin, hheld, -, hgroup'⟩ := groupOf_spec h hi
     cases hgroup.symm.trans hgroup'
     refine ⟨t, (List.getElem?_eq_some_iff.1 ht).1, hheld, ?_⟩
     rw [topEdges, getD_eq_getElem?_getD, getElem?_map, ht]
     exact within_iff.1 hwithin x hbit
   · rintro ⟨t, ht, hheld, hbit⟩
     rw [topEdges, getD_eq_getElem?_getD, getElem?_map, List.getElem?_eq_getElem ht] at hbit
     exact ⟨_, (mem_tops.1 (getElem_mem ht)).1, groupOf_top h (List.getElem?_eq_getElem ht) hheld, hbit⟩
 · rw [hatoms, hnone]
   constructor
   · rintro (hout | ⟨entry, hmem, hgroup, rfl⟩)
     · nomatch hout
     · exact ⟨((hent entry).1 hmem).1, hgroup⟩
   · rintro ⟨hi, hgroup⟩
     exact .inr ⟨(edges.getD i 0, i), (hent _).2 ⟨hi, rfl⟩, hgroup, rfl⟩

end Tir.Relational.Ghd
