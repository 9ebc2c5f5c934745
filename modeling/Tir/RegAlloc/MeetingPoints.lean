import Tir.Graph.Forest
import Tir.RegAlloc.SplitNames

/-!
# The meeting points of a split value

The dominators of a block are the blocks up its tree (`dominator_tree`).
`frontiers` has every block between a predecessor and the dominator of a join in its frontier
(`frontiers_returns`), and `iteratedFrontier` closes the blocks it starts from under it
(`iteratedFrontier_returns`). So a value that does not meet in a block enters it under the name it
has at the end of every predecessor (`entryName_eq_endName`).
-/

open List

namespace Tir.RegAlloc

open Tir.Graph Tir.Backend Returns Subset

variable {n : Nat} {edges : Fin n → List (Fin n)} {entry : Fin n} {d : Dominance n}

variable {b i : Fin n} {frontier : Fin n → List (Fin n)} {meet start work : List (Fin n)} {sites : List (Site n)}
 {v : Nat}

theorem idom_eq_some_iff :
  d.idom b = some i ↔ d.idoms b = some i ∧ i ≠ b := by
 simp [Dominance.idom, Option.filter_eq_some_iff]

section

variable (h : d.Correct edges entry)

include h

theorem Correct.idom_isIdom (hi : d.idom b = some i) :
  b ≠ entry ∧ Reachable (Edge edges) entry b ∧ IsIdom (Edge edges) entry i b := by
 obtain ⟨hi, hne⟩ := idom_eq_some_iff.1 hi
 have hb : Reachable (Edge edges) entry b := h.tree.reachable b (by simp [hi])
 have hbe : b ≠ entry := by
  rintro rfl
  exact hne (Option.some.inj (hi.symm.trans h.tree.root))
 obtain ⟨q, hq, hidom⟩ := h.isIdom b hb hbe
 grind

theorem Correct.exists_idom
  (hb : Reachable (Edge edges) entry b) (hbe : b ≠ entry) : ∃ i, d.idom b = some i := by
 obtain ⟨q, hq, hidom⟩ := h.isIdom b hb hbe
 exact ⟨q, idom_eq_some_iff.2 ⟨hq, hidom.1.1⟩⟩

theorem Correct.rank_lt (hi : d.idom b = some i) :
  d.rank i < d.rank b := by
 obtain ⟨hbe, -, -⟩ := Correct.idom_isIdom h hi
 exact h.tree.lower b i hbe (idom_eq_some_iff.1 hi).1

end

/-! ## The dominator tree -/

/-- The dominators of a block are the blocks up its tree. -/
theorem Correct.dominates_iff_below {a : Fin n} (h : d.Correct edges entry) (hb : Reachable (Edge edges) entry b) :
  Dominates (Edge edges) entry a b ↔ Below d.idom a b := by
 constructor
 · intro hdom
   induction hk : d.rank b using Nat.strong_induction_on generalizing b with
   | _ k ih =>
    by_cases hab : a = b
    · exact hab ▸ .refl
    · obtain ⟨i, hi⟩ := Correct.exists_idom h hb fun he => hab (hdom.antisymm (he ▸ .root a) hb)
      obtain ⟨-, -, hidom⟩ := Correct.idom_isIdom h hi
      exact .head hi (ih _ (hk ▸ Correct.rank_lt h hi) (hidom.1.2.reachable hb) (hidom.2 a ⟨hab, hdom⟩) rfl)
 · intro hbelow
   induction hbelow using Relation.ReflTransGen.head_induction_on with
   | refl => exact .refl a
   | head hi _ ih =>
    obtain ⟨-, -, hidom⟩ := Correct.idom_isIdom h hi
    exact (ih (hidom.1.2.reachable hb)).trans hidom.1.2

/-- **`idom` is a tree of the dominators, and `dominates` climbs it**: for reachable blocks it answers, and says whether the one
is on the way up from the other, which is whether every path to the other passes it. -/
theorem dominator_tree {B : Type} [DecidableEq B] (g : MachineCfg B) : ∃ d, Returns (fun fuel => g.dominance fuel) d ∧
  ∀ a b, Reachable (Edge g.edges) g.entry a → Reachable (Edge g.edges) g.entry b →
   ∃ v, Returns (fun fuel => d.dominates fuel a b) v ∧ (v = true ↔ Below d.idom a b) ∧
    (Below d.idom a b ↔ Dominates (Edge g.edges) g.entry a b) := by
 obtain ⟨d, hd, h⟩ := g.dominance_returns
 refine ⟨d, hd, fun a b ha hb => ?_⟩
 obtain ⟨v, hv, hiff⟩ := h.dominates_returns ha hb
 have htree := Correct.dominates_iff_below (a := a) h hb
 exact ⟨v, hv, hiff.trans htree, htree.symm⟩

/-! ## The dominance frontier -/

/-- The blocks from `p` up the dominator tree, short of `i`. -/
inductive Between (d : Dominance n) (i : Fin n) : Fin n → Fin n → Prop
 | here {p : Fin n} : p ≠ i → Between d i p p
 | up {p q x : Fin n} : p ≠ i → d.idom p = some q → Between d i q x → Between d i p x

theorem runUp_returns (h : d.Correct edges entry) (block idom runner : Fin n) (frontier : Fin n → List (Fin n)) :
  ∃ frontier', Returns (fun fuel => runUp d block idom fuel runner frontier) frontier' ∧
   (∀ x, frontier x ⊆ frontier' x) ∧ ∀ x, Between d idom runner x → block ∈ frontier' x := by
 induction hk : d.rank runner using Nat.strong_induction_on generalizing runner frontier with
 | _ k ih =>
  by_cases hrun : runner = idom
  · refine ⟨frontier, turn (fun _ => by rw [runUp, if_pos hrun]) (pure _),
     fun x => refl _, fun x hx => ?_⟩
    cases hx with
    | here hne => exact absurd hrun hne
    | up hne _ _ => exact absurd hrun hne
  · -- the frontier of the runner has the block after this turn
    have hadd : ∃ frontier1 : Fin n → List (Fin n), (if block ∈ frontier runner then frontier
      else Function.update frontier runner (frontier runner ++ [block])) = frontier1 ∧
      (∀ x, frontier x ⊆ frontier1 x) ∧ block ∈ frontier1 runner := by
     by_cases hmem : block ∈ frontier runner
     · exact ⟨frontier, if_pos hmem, fun x => refl _, hmem⟩
     grind
    obtain ⟨frontier1, heq, hsub, hblk⟩ := hadd
    cases hi : d.idom runner with
    | none =>
     refine ⟨frontier1, turn (fun _ => ?_) (pure _), hsub, fun x hx => ?_⟩
     · simp [runUp, if_neg hrun, hi, heq]
     · cases hx with
       | here _ => exact hblk
       | up _ hq _ => simp [hi] at hq
    | some up =>
     have hlt := Correct.rank_lt h hi
     have hne : up ≠ runner := (idom_eq_some_iff.1 hi).2
     obtain ⟨frontier', hr, hsub', hbetween⟩ :=
      ih (d.rank up) (by omega) up frontier1 rfl
     refine ⟨frontier', Returns.turn (fun _ => ?_) hr,
      fun x => Subset.trans (hsub x) (hsub' x), fun x hx => ?_⟩
     · simp [runUp, if_neg hrun, hi, heq, if_pos hne]
     · cases hx with
       | here _ => exact hsub' _ hblk
       | up _ hq hx =>
        grind

/-- The dominator of a block with a single predecessor is that predecessor. -/
theorem idom_of_single (h : d.Correct edges entry) {p : Fin n} (he : Edge edges p b)
  (hsingle : (predecessorsOf edges b).length < 2) (hi : d.idom b = some i) : p = i := by
 obtain ⟨hbe, hb, hidom⟩ := Correct.idom_isIdom h hi
 have honly : ∀ q, Edge edges q b → q = p := by
  intro q hq
  have hpm := mem_predecessorsOf.2 he
  have hqm := mem_predecessorsOf.2 hq
  cases hl : predecessorsOf edges b with
  | nil => simp [hl] at hpm
  | cons a t =>
   grind
 have hpb : p ≠ b := by
  obtain ⟨q, -, hqe, hlt⟩ := h.ranked.ascending b hb hbe
  grind
 have hdom : StrictlyDominates (Edge edges) entry p b := by
  refine ⟨hpb, fun l hl => ?_⟩
  cases hl with
  | root => exact absurd rfl hbe
  | step hl hqe =>
   rw [← honly _ hqe]
   exact .tail _ hl.self_mem
 exact (hidom.2 p hdom).antisymm (hidom.1.pred he) (hidom.1.2.reachable hb)

/-- Every block between a predecessor and the dominator of a join has the join in its
frontier. -/
def HasFrontier (edges : Fin n → List (Fin n)) (d : Dominance n) (blocks : List (Fin n))
  (frontier : Fin n → List (Fin n)) : Prop :=
 ∀ b ∈ blocks, ∀ i, d.idom b = some i → ∀ p, Edge edges p b → ∀ x, Between d i p x →
  b ∈ frontier x

theorem frontierStep_returns (h : d.Correct edges entry) {pre : List (Fin n)} (hf : HasFrontier edges d pre frontier) :
  ∃ frontier', Returns (fun fuel => frontierStep (predecessorsOf edges) d fuel frontier b)
   frontier' ∧ HasFrontier edges d (pre ++ [b]) frontier' := by
 by_cases hshort : (predecessorsOf edges b).length < 2
 · refine ⟨frontier, (pure _).congr fun fuel => by rw [frontierStep, if_pos hshort], ?_⟩
   intro c hc i hi p he x hx
   rcases mem_append.1 hc with hc | hc
   · exact hf c hc i hi p he x hx
   · obtain rfl := mem_singleton.1 hc
     obtain rfl := idom_of_single h he hshort hi
     cases hx with
     | here hne => exact absurd rfl hne
     | up hne _ _ => exact absurd rfl hne
 · cases hi : d.idom b with
   | none =>
    refine ⟨frontier, (pure _).congr fun fuel => ?_, ?_⟩
    · simp [frontierStep, hi]
    · intro c hc i hci p he x hx
      rcases mem_append.1 hc with hc | hc
      · exact hf c hc i hci p he x hx
      grind
   | some i =>
    obtain ⟨frontier', hr, hsub, hall⟩ := foldlM
     (fun fuel frontier pred => runUp d b i fuel pred frontier)
     (fun passed frontier' => (∀ x, frontier x ⊆ frontier' x) ∧
      ∀ p ∈ passed, ∀ x, Between d i p x → b ∈ frontier' x)
     (l := predecessorsOf edges b) (s := frontier)
     (by
      rintro passed p rest frontier1 - ⟨hsub, hpassed⟩
      obtain ⟨frontier2, hr, hsub', hp⟩ := runUp_returns h b i p frontier1
      refine ⟨frontier2, hr, fun x => Subset.trans (hsub x) (hsub' x), fun q hq x hx => ?_⟩
      rcases mem_append.1 hq with hq | hq
      · exact hsub' x (hpassed q hq x hx)
      grind)
     ⟨fun x => refl _, by simp⟩
    refine ⟨frontier', hr.congr fun fuel => ?_, ?_⟩
    · simp only [frontierStep, if_neg hshort, hi]
    · intro c hc j hj p he x hx
      rcases mem_append.1 hc with hc | hc
      · exact hsub x (hf c hc j hj p he x hx)
      grind [mem_predecessorsOf]

theorem frontiers_returns (h : d.Correct edges entry) :
  ∃ frontier, Returns (fun fuel => frontiers (predecessorsOf edges) d fuel) frontier ∧
   HasFrontier edges d (List.finRange n) frontier :=
 foldlM (frontierStep (predecessorsOf edges) d)
  (HasFrontier edges d) (fun _ _ _ _ _ hf => frontierStep_returns h hf) (by simp [HasFrontier])

/-! ## The iterated frontier -/

/-- Between two turns: what has been met waits on the stack or has had its frontier visited. -/
structure Closing (frontier : Fin n → List (Fin n)) (start work meet : List (Fin n)) : Prop where
 nodup : meet.Nodup
 start : ∀ b ∈ start, b ∈ work ∨ frontier b ⊆ meet
 closed : ∀ b ∈ meet, b ∈ work ∨ frontier b ⊆ meet

theorem visitFrontier_fold (l : List (Fin n)) (work meet : List (Fin n)) (hm : meet.Nodup) :
  (l.foldl visitFrontier (work, meet)).2.Nodup ∧ meet ⊆ (l.foldl visitFrontier (work, meet)).2 ∧
   l ⊆ (l.foldl visitFrontier (work, meet)).2 ∧ work ⊆ (l.foldl visitFrontier (work, meet)).1 ∧
   (∀ b ∈ (l.foldl visitFrontier (work, meet)).2, b ∈ meet ∨ b ∈ (l.foldl visitFrontier (work, meet)).1) ∧
   (l.foldl visitFrontier (work, meet)).1.length + meet.length =
    work.length + (l.foldl visitFrontier (work, meet)).2.length := by
 induction l generalizing work meet with
 | nil => exact ⟨hm, refl _, by simp, refl _, fun b hb => .inl hb, rfl⟩
 | cons x l ih =>
  rw [foldl_cons]
  by_cases hx : x ∈ meet
  · have hstep : visitFrontier (work, meet) x = (work, meet) := if_pos hx
    rw [hstep]
    obtain ⟨h1, h2, h3, h4, h5, h₆⟩ := ih work meet hm
    exact ⟨h1, h2, cons_subset.2 ⟨h2 hx, h3⟩, h4, h5, h₆⟩
  · have hstep : visitFrontier (work, meet) x = (x :: work, meet ++ [x]) := if_neg hx
    rw [hstep]
    have hnd : (meet ++ [x]).Nodup := by
     rw [nodup_append]
     refine ⟨hm, nodup_singleton x, ?_⟩
     grind
    obtain ⟨h1, h2, h3, h4, h5, h₆⟩ := ih (x :: work) (meet ++ [x]) hnd
    have hsub : meet ⊆ meet ++ [x] := subset_append_left _ _
    refine ⟨h1, Subset.trans hsub h2, cons_subset.2 ⟨h2 (by simp), h3⟩,
     Subset.trans (subset_cons_self x work) h4, fun b hb => ?_, ?_⟩
    · rcases h5 b hb with hb | hb
      · rcases mem_append.1 hb with hb | hb
        · exact .inl hb
        · exact .inr (h4 (mem_singleton.1 hb ▸ (.head _)))
      · exact .inr hb
    · rw [length_append, length_singleton, length_cons] at h₆
      omega

theorem Closing.step (h : Closing frontier start (b :: work) meet) :
  Closing frontier start ((frontier b).foldl visitFrontier (work, meet)).1
   ((frontier b).foldl visitFrontier (work, meet)).2 := by
 obtain ⟨hnd, hmeet, hfront, hwork, hnew, -⟩ := visitFrontier_fold (frontier b) work meet h.nodup
 have hkeep : ∀ c, c ∈ b :: work ∨ frontier c ⊆ meet →
   c ∈ ((frontier b).foldl visitFrontier (work, meet)).1 ∨
    frontier c ⊆ ((frontier b).foldl visitFrontier (work, meet)).2 := by
  rintro c (hc | hc)
  · rcases mem_cons.1 hc with rfl | hc
    · exact .inr hfront
    · exact .inl (hwork hc)
  · exact .inr (Subset.trans hc hmeet)
 refine ⟨hnd, fun c hc => hkeep c (h.start c hc), fun c hc => ?_⟩
 rcases hnew c hc with hc | hc
 · exact hkeep c (h.closed c hc)
 · exact .inl hc

theorem Closing.returns (h : Closing frontier start work meet) :
  ∃ meet', Returns (fun fuel => iteratedFrontier frontier fuel work meet) meet' ∧
   Closing frontier start [] meet' := by
 -- a block is pushed only when it is met for the first time
 induction hk : work.length + (n - meet.length) using Nat.strong_induction_on
  generalizing work meet with
 | _ k ih =>
  cases work with
  | nil =>
   exact ⟨meet, turn (fun _ => by rw [iteratedFrontier]) (pure _), h⟩
  | cons b work =>
   have hlen := (visitFrontier_fold (frontier b) work meet h.nodup).2.2.2.2.2
   have hle : ((frontier b).foldl visitFrontier (work, meet)).2.length ≤ n := by
    simpa using h.step.nodup.length_le_card
   rw [length_cons] at hk
   obtain ⟨meet', hr, hc⟩ := ih _ (by omega) h.step rfl
   exact ⟨meet', turn (fun _ => by rw [iteratedFrontier]) hr, hc⟩

theorem iteratedFrontier_returns (frontier : Fin n → List (Fin n)) (start : List (Fin n)) :
  ∃ meet, Returns (fun fuel => iteratedFrontier frontier fuel start.reverse []) meet ∧
   meet.Nodup ∧ (∀ b ∈ start, frontier b ⊆ meet) ∧ ∀ b ∈ meet, frontier b ⊆ meet := by
 have hstart : Closing frontier start start.reverse [] :=
  ⟨nodup_nil, fun b hb => .inl (mem_reverse.2 hb), by simp⟩
 obtain ⟨meet, hr, hc⟩ := hstart.returns
 refine ⟨meet, hr, hc.nodup, fun b hb => ?_, fun b hb => ?_⟩
 · simpa using hc.start b hb
 · simpa using hc.closed b hb

/-! ## The values that meet in each block -/

/-- What the meeting points of the source are right about. -/
structure MetRight (f : Code n Nat) (edges : Fin n → List (Fin n)) (d : Dominance n)
  (sites : List (Site n)) (met : Fin n → List Nat) : Prop where
 nodup : ∀ b, (met b).Nodup
 split : ∀ b, ∀ v ∈ met b, v ∈ splitValues sites
 live : ∀ b, ∀ v ∈ met b, f.Livein edges b v
 /-- A live value meets in a join when a block between a predecessor and the dominator of the
 join writes it. -/
 joins : ∀ v ∈ splitValues sites, ∀ b i p x, d.idom b = some i → Edge edges p b →
  Between d i p x → f.Livein edges b v →
  (∃ j, CopiedAt sites v x j) ∨ f.DefinedIn x v ∨ v ∈ met x → v ∈ met b

theorem mem_splitValues :
  v ∈ splitValues sites ↔ ∃ b j, CopiedAt sites v b j := by
 simp only [splitValues, mem_dedup, mem_flatMap]
 constructor
 · rintro ⟨s, hs, hv⟩
   exact ⟨s.block, s.index, s, hs, rfl, rfl, hv⟩
 · rintro ⟨b, j, s, hs, -, -, hv⟩
   exact ⟨s, hs, hv⟩

theorem mem_writesOf {f : Code n Nat} {x : Fin n}
  (h : (∃ j, CopiedAt sites v x j) ∨ f.DefinedIn x v) : x ∈ writesOf f sites v := by
 rw [writesOf, mem_append, mem_append]
 rcases h with ⟨j, s, hs, rfl, rfl, hv⟩ | hx | ⟨op, hop, hv⟩
 · grind
 · exact .inr (by simp [hx])
 · refine .inl (.inr (mem_flatMap.2 ⟨x, mem_finRange x, ?_⟩))
   exact mem_map.2 ⟨op, by simp [hop, hv], rfl⟩

theorem mem_metIn {meet : List (Nat × List (Fin n))} :
  v ∈ metIn meet b ↔ ∃ points, (v, points) ∈ meet ∧ b ∈ points := by
 rw [metIn, mem_mergeSort, mem_map]
 constructor
 · grind
 simp_all

theorem keyed_of_forall₂ {α β : Type} {Q : α → β → Prop} {l : List α} {m : List (α × β)}
  (h : Forall₂ (fun x y => y.1 = x ∧ Q x y.2) l m) :
  m.map Prod.fst = l ∧ ∀ y ∈ m, Q y.1 y.2 := by
 induction h with
 | nil => exact ⟨rfl, by simp⟩
 | @cons x y l m hxy _ ih =>
  refine ⟨by rw [map_cons, hxy.1, ih.1], fun z hz => ?_⟩
  rcases mem_cons.1 hz with rfl | hz
  · rw [hxy.1]
    exact hxy.2
  · exact ih.2 z hz

/-- **The meeting points are found**, and they are right. -/
theorem meetingPoints_returns (f : Code n Nat) [∀ b v, Decidable (f.Livein edges b v)]
  (h : d.Correct edges entry) (sites : List (Site n)) :
  ∃ meet, Returns (fun fuel => meetingPoints f edges d sites fuel) meet ∧
   MetRight f edges d sites (metIn meet) := by
 obtain ⟨frontier, hfr, hfrontier⟩ := frontiers_returns h
 obtain ⟨meet, hmr, hall⟩ := mapM
  (fun fuel value => (iteratedFrontier frontier fuel (writesOf f sites value).reverse []).map
   fun points => (value, points.filter fun b => f.Livein edges b value))
  (P := fun value m => m.1 = value ∧ (∀ b ∈ m.2, f.Livein edges b value) ∧
   ∀ x ∈ writesOf f sites value ++ m.2, ∀ b ∈ frontier x, f.Livein edges b value → b ∈ m.2)
  (l := splitValues sites)
  (by
   intro value _
   obtain ⟨points, hr, -, hstart, hclosed⟩ :=
    iteratedFrontier_returns frontier (writesOf f sites value)
   have hbind := hr.bind (g := fun _ points => some (value,
    points.filter fun b => decide (f.Livein edges b value))) (pure _)
   refine ⟨_, hbind.congr fun fuel => Option.map_eq_bind, rfl, ?_, ?_⟩
   · grind
   grind)
 obtain ⟨hkeys, hP⟩ := keyed_of_forall₂
  (Q := fun value points => (∀ b ∈ points, f.Livein edges b value) ∧
   ∀ x ∈ writesOf f sites value ++ points, ∀ b ∈ frontier x, f.Livein edges b value →
    b ∈ points) hall
 refine ⟨meet, hfr.bind hmr, ?_, ?_, ?_, ?_⟩
 · intro b
   have hnd : (meet.map Prod.fst).Nodup := by
    rw [hkeys]
    exact nodup_dedup _
   rw [metIn, (mergeSort_perm _ _).nodup_iff]
   exact hnd.sublist (List.Sublist.map Prod.fst filter_sublist)
 · grind [mem_metIn]
 · intro b v hv
   obtain ⟨points, hm, hb⟩ := mem_metIn.1 hv
   exact (hP _ hm).1 b hb
 · intro v hv b i p x hi he hx hlive hw
   have hb : b ∈ frontier x := hfrontier b (mem_finRange b) i hi p he x hx
   rw [← hkeys] at hv
   obtain ⟨⟨w, points⟩, hm, rfl⟩ := mem_map.1 hv
   refine mem_metIn.2 ⟨points, hm, (hP _ hm).2 x ?_ b hb hlive⟩
   rw [mem_append]
   rcases hw with hw | hw | hw
   · exact .inl (mem_writesOf (.inl hw))
   · exact .inl (mem_writesOf (.inr hw))
   · obtain ⟨points', hm', hx'⟩ := mem_metIn.1 hw
     -- a value has one entry among the meeting points
     have hnd : (meet.map Prod.fst).Nodup := by
      rw [hkeys]
      exact nodup_dedup _
     have : (w, points') = (w, points) := inj_on_of_nodup_map hnd hm' hm rfl
     grind

end Tir.RegAlloc
