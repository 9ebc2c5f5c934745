import Tir.Backend.IdomFixpoint

/-!
# The dominator tree of a machine function

`MachineCfg.dominance` returns on every graph, and what it returns is correct
(`MachineCfg.dominance_returns`): the record `Dominance.Correct` is what the other operations
need of it. Over it, `preorder` visits every block once, each reachable block after its
dominators (`Dominance.Correct.preorder_returns`), and `dominates` decides dominance
(`Dominance.Correct.dominates_returns`).
-/

open List Option

namespace Tir.Backend

open Tir.Graph Returns Dominates

variable {n : Nat}

/-- What `dominance` computes of a graph. -/
structure Dominance.Correct (d : Dominance n) (edges : Fin n → List (Fin n)) (entry : Fin n) : Prop where
 order_eq : d.order = entry :: d.order.tail
 ranked : Ranked edges entry d.rank d.order.tail
 seen_iff : ∀ b, d.seen b = true ↔ Reachable (Edge edges) entry b
 mem_predecessors : ∀ p b, p ∈ d.predecessors b ↔ Edge edges p b
 tree : IdomTree edges entry d.rank d.idoms
 isIdom : ∀ b, Reachable (Edge edges) entry b → b ≠ entry →
  ∃ q, d.idoms b = some q ∧ IsIdom (Edge edges) entry q b

section

variable {edges : Fin n → List (Fin n)} {entry : Fin n} {seen : Fin n → Bool} {order : List (Fin n)}

theorem Walked.ranked (h : Walked edges entry seen order) :
  Ranked edges entry (rankOf order.reverse) order.reverse.tail := by
 have hnd : order.reverse.Nodup := nodup_reverse.2 h.nodup
 have hcons := h.order_eq
 refine ⟨h.ascending, fun a b ha hb => h.rank_injective ha hb, fun b => ?_, ?_⟩
 · have hmem : b ∈ order.reverse ↔ Reachable (Edge edges) entry b := by
    rw [mem_reverse]
    exact h.mem_iff b
   rw [hcons] at hnd hmem
   rw [← hmem, mem_cons]
   constructor
   · grind
   grind
 · -- the rank of a listed block is its index
   have hidx : order.reverse.Pairwise fun a b => rankOf order.reverse a < rankOf order.reverse b := by
    rw [pairwise_iff_getElem]
    intro i j hi hj hij
    rw [rankOf_of_mem hnd (getElem_mem hi), rankOf_of_mem hnd (getElem_mem hj),
     hnd.idxOf_getElem i hi, hnd.idxOf_getElem j hj]
    exact hij
   exact hidx.sublist (tail_sublist _)

/-- **`dominance` ends without a panic**, and its result is correct. -/
theorem MachineCfg.dominance_returns {B : Type} [DecidableEq B] (g : MachineCfg B) :
  ∃ d, Returns (fun fuel => g.dominance fuel) d ∧ d.Correct g.edges g.entry := by
 obtain ⟨seen, order, hwalk, hw⟩ := depthFirst_returns g.edges g.entry
 obtain ⟨idom, hidom, htree, hisIdom⟩ := idomFixpoint_returns hw.ranked
 refine ⟨⟨order.reverse, rankOf order.reverse, idom, predecessorsOf g.edges, seen⟩,
  hwalk.bind (hidom.bind (pure _)), ?_⟩
 refine ⟨hw.order_eq, hw.ranked, fun b => ?_, fun p b => mem_predecessorsOf, htree, hisIdom⟩
 exact (hw.seen_iff b).trans (hw.mem_iff b)

end

namespace Dominance.Correct

variable {d : Dominance n} {edges : Fin n → List (Fin n)} {entry : Fin n}

section

variable (h : d.Correct edges entry)

include h

theorem mem_order (b : Fin n) :
  b ∈ d.order ↔ Reachable (Edge edges) entry b := by
 rw [h.order_eq, mem_cons, h.ranked.mem_iff]
 constructor
 · rintro (rfl | ⟨hb, -⟩)
   · exact Reachable.root
   · exact hb
 grind

theorem order_sorted :
  d.order.Pairwise fun a b => d.rank a < d.rank b := by
 rw [h.order_eq]
 refine pairwise_cons.2 ⟨fun b hb => ?_, h.ranked.sorted⟩
 obtain ⟨hr, hne⟩ := (h.ranked.mem_iff b).1 hb
 exact h.ranked.entry_lt hr hne

theorem order_nodup : d.order.Nodup :=
 h.order_sorted.imp fun hlt heq => by
  grind

end

/-! ## `preorder` -/

theorem mem_children (h : d.Correct edges entry) {p b : Fin n} :
  b ∈ d.children p ↔ b ≠ entry ∧ d.idoms b = some p := by
 simp only [children, mem_filter, decide_eq_true_eq, h.ranked.mem_iff]
 constructor
 · exact fun hb => ⟨hb.1.2, hb.2⟩
 · exact fun hb => ⟨⟨h.tree.reachable b (by simp [hb.2]), hb.1⟩, hb.2⟩

/-- What holds between two turns of the walk of the tree. -/
structure Preorder (d : Dominance n) (edges : Fin n → List (Fin n)) (entry : Fin n)
  (stack walk : List (Fin n)) : Prop where
 nodup : (walk ++ stack).Nodup
 entry_mem : entry ∈ walk ++ stack
 reachable : ∀ b ∈ walk ++ stack, Reachable (Edge edges) entry b
 /-- Only the children of what has been visited are on the way. -/
 parent : ∀ b ∈ walk ++ stack, b ≠ entry → ∃ q ∈ walk, d.idoms b = some q
 children : ∀ q ∈ walk, ∀ b ∈ d.children q, b ∈ walk ++ stack
 before : ∀ s b t, walk = s ++ b :: t → b ≠ entry → ∃ q ∈ s, d.idoms b = some q

section

variable (h : d.Correct edges entry)

include h

theorem Preorder.step {block : Fin n} {stack walk : List (Fin n)} (hp : Preorder d edges entry (block :: stack) walk) :
  Preorder d edges entry (d.children block ++ stack) (walk ++ [block]) := by
 have hblk : block ∉ walk := fun hb =>
  (nodup_append.1 hp.nodup).2.2 block hb block mem_cons_self rfl
 -- a child of the block has not been met: its parent would have been visited
 have hnew : ∀ b ∈ d.children block, b ∉ walk ++ block :: stack := by
  intro b hb hmem
  obtain ⟨hbe, hq⟩ := h.mem_children.1 hb
  obtain ⟨q, hqw, hq'⟩ := hp.parent b hmem hbe
  grind
 have hmem : ∀ b, b ∈ walk ++ [block] ++ (d.children block ++ stack) ↔
   b ∈ walk ++ block :: stack ∨ b ∈ d.children block := by
  grind
 refine ⟨?_, (hmem entry).2 (.inl hp.entry_mem), ?_, ?_, ?_, ?_⟩
 · have hperm : (walk ++ [block] ++ (d.children block ++ stack)).Perm
     (d.children block ++ (walk ++ block :: stack)) := by
    grind
   refine hperm.nodup_iff.2 (nodup_append.2 ⟨?_, hp.nodup, ?_⟩)
   · exact (h.order_nodup.sublist (tail_sublist _)).filter _
   grind
 · intro b hb
   rcases (hmem b).1 hb with hb | hb
   · exact hp.reachable b hb
   · exact h.tree.reachable b (by simp [(h.mem_children.1 hb).2])
 · intro b hb hbe
   rcases (hmem b).1 hb with hb | hb
   · obtain ⟨q, hq, hqb⟩ := hp.parent b hb hbe
     exact ⟨q, mem_append_left _ hq, hqb⟩
   · exact ⟨block, by simp, (h.mem_children.1 hb).2⟩
 · intro q hq b hb
   rcases mem_append.1 hq with hq | hq
   · exact (hmem b).2 (.inl (hp.children q hq b hb))
   grind
 · intro s b t hw hbe
   rcases eq_nil_or_concat t with rfl | ⟨t', x, rfl⟩
   · obtain ⟨rfl, hx⟩ := append_inj' hw rfl
     obtain rfl : block = b := by simpa using hx
     exact hp.parent block (by simp) hbe
   · have hw' : walk ++ [block] = (s ++ b :: t') ++ [x] := by simpa using hw
     obtain ⟨hw'', -⟩ := append_inj' hw' rfl
     exact hp.before s b t' hw'' hbe

theorem Preorder.returns {stack walk : List (Fin n)} (hp : Preorder d edges entry stack walk) :
  ∃ walk', Returns (fun fuel => d.preorderWalk fuel stack walk) walk' ∧
   Preorder d edges entry [] walk' := by
 -- every turn visits a block, and no block is visited twice
 induction hm : n - walk.length using Nat.strong_induction_on generalizing stack walk with
 | _ m ih =>
  cases stack with
  | nil => exact ⟨walk, turn (fun _ => by rw [preorderWalk]) (pure walk), hp⟩
  | cons block stack =>
   have hle : (walk ++ block :: stack).length ≤ n := by
    simpa using hp.nodup.length_le_card
   rw [length_append, length_cons] at hle
   have hlt : n - (walk ++ [block]).length < m := by
    grind
   obtain ⟨walk', hr, hp'⟩ := ih _ hlt (hp.step h) rfl
   exact ⟨walk', turn (fun _ => by rw [preorderWalk]) hr, hp'⟩

/-- The walk visits exactly the reachable blocks. -/
theorem Preorder.mem_iff {walk : List (Fin n)} (hp : Preorder d edges entry [] walk) (b : Fin n) :
  b ∈ walk ↔ Reachable (Edge edges) entry b := by
 refine ⟨fun hb => hp.reachable b (by simpa using hb), fun hb => ?_⟩
 -- by induction on the rank, from a block to its parent
 induction hk : d.rank b using Nat.strong_induction_on generalizing b with
 | _ k ih =>
  by_cases hbe : b = entry
  · rw [hbe]
    simpa using hp.entry_mem
  · obtain ⟨q, hq, hi⟩ := h.isIdom b hb hbe
    have hlt := h.tree.lower b q hbe hq
    have hqw := ih (d.rank q) (by omega) q (hi.1.2.reachable hb) rfl
    simpa using hp.children q hqw b (h.mem_children.2 ⟨hbe, hq⟩)

/-- Every strict dominator of a visited block was visited before it. -/
theorem Preorder.dominator_before {walk s t : List (Fin n)}
  (hp : Preorder d edges entry [] walk) {a b : Fin n} (hw : walk = s ++ b :: t)
  (hab : StrictlyDominates (Edge edges) entry a b) : a ∈ s := by
 induction hk : s.length using Nat.strong_induction_on generalizing s t b with
 | _ k ih =>
  have hrb : Reachable (Edge edges) entry b := (Preorder.mem_iff h hp b).1 (by simp [hw])
  have hbe : b ≠ entry := by
   rintro rfl
   exact hab.1 (hab.2.antisymm (root a) Reachable.root)
  obtain ⟨q, hqs, hq⟩ := hp.before s b t hw hbe
  obtain ⟨q', hq', hi⟩ := h.isIdom b hrb hbe
  obtain rfl : q = q' := some.inj (hq.symm.trans hq')
  by_cases haq : a = q
  · rw [haq]
    exact hqs
  · obtain ⟨s1, s2, rfl⟩ := append_of_mem hqs
    have hlt : s1.length < k := by
     rw [← hk, length_append, length_cons]
     omega
    have := ih s1.length hlt (s := s1) (t := s2 ++ b :: t) (by simp [hw])
     ⟨haq, hi.2 a hab⟩ rfl
    exact mem_append_left _ this

/-- **`preorder` visits every block once**, each reachable block after its dominators. -/
theorem preorder_returns : ∃ walk, Returns (fun fuel => d.preorder fuel) walk ∧ walk.Nodup ∧ (∀ b, b ∈ walk) ∧
   ∀ a b, Reachable (Edge edges) entry b → StrictlyDominates (Edge edges) entry a b →
    walk.idxOf a < walk.idxOf b := by
 have hstart : Preorder d edges entry d.order.head?.toList [] := by
  have hhead : d.order.head?.toList = [entry] := by
   rw [h.order_eq]
   rfl
  rw [hhead]
  refine ⟨by simp, by simp, fun b hb => ?_, fun b hb hbe => ?_, by simp, by simp⟩
  · grind [Reachable.root]
  · exact absurd (by simpa using hb) hbe
 obtain ⟨walk, hr, hp⟩ := hstart.returns h
 have hmem := Preorder.mem_iff h hp
 have hun : ∀ b, b ∈ d.unreachable ↔ ¬ Reachable (Edge edges) entry b := by
  intro b
  have := h.seen_iff b
  simp only [unreachable, mem_filter, mem_finRange, true_and, Bool.not_eq_true']
  rw [← Bool.not_eq_true, this]
 refine ⟨walk ++ d.unreachable, hr.bind (pure _), ?_, fun b => ?_, fun a b hb hab => ?_⟩
 · refine nodup_append.2 ⟨by simpa using hp.nodup, (nodup_finRange n).filter _, ?_⟩
   grind
 · grind
 · obtain ⟨s, t, hw⟩ := append_of_mem ((hmem b).2 hb)
   have has := hp.dominator_before h hw hab
   have hnd : walk.Nodup := by simpa using hp.nodup
   have hbs : b ∉ s := by
    rw [hw] at hnd
    intro hbs
    exact (nodup_append.1 hnd).2.2 b hbs b mem_cons_self rfl
   rw [hw, append_assoc, idxOf_append_of_mem has, idxOf_append_of_notMem hbs]
   grind

end

/-! ## `dominates` -/

/-- The climb stops at the lowest dominator that does not rank above `parent`. -/
theorem climb_returns (h : d.Correct edges entry) (parent : Fin n) {block : Fin n}
  (hb : Reachable (Edge edges) entry block) (hp : Reachable (Edge edges) entry parent) :
  ∃ z, Returns (fun fuel => d.climb parent fuel block) z ∧ d.rank z ≤ d.rank parent ∧
   Dominates (Edge edges) entry z block ∧ ∀ a, Dominates (Edge edges) entry a block → d.rank a ≤ d.rank parent →
    Dominates (Edge edges) entry a z := by
 induction hk : d.rank block using Nat.strong_induction_on generalizing block with
 | _ k ih =>
  by_cases hgt : d.rank block > d.rank parent
  · have hbe : block ≠ entry := by
     rintro rfl
     have := rank_le h.ranked.ascending (root parent) hp
     omega
    obtain ⟨q, hq, hi⟩ := h.isIdom block hb hbe
    have hlt := h.tree.lower block q hbe hq
    obtain ⟨z, hz, hle, hzq, hbelow⟩ := ih (d.rank q) (by omega) (hi.1.2.reachable hb) rfl
    refine ⟨z, turn (fun fuel => ?_) hz, hle, hzq.trans hi.1.2, fun a ha hr => ?_⟩
    · rw [climb, if_pos hgt, hq, bind_some]
    · refine hbelow a (hi.2 a ⟨?_, ha⟩) hr
      rintro rfl
      omega
  · refine ⟨block, turn (fun _ => by rw [climb, if_neg hgt]) (pure block),
     by omega, refl block, fun a ha _ => ha⟩

theorem dominates_returns (h : d.Correct edges entry) {parent block : Fin n}
  (hp : Reachable (Edge edges) entry parent) (hb : Reachable (Edge edges) entry block) :
  ∃ v, Returns (fun fuel => d.dominates fuel parent block) v ∧
   (v = true ↔ Dominates (Edge edges) entry parent block) := by
 obtain ⟨z, hz, hle, hzb, hbelow⟩ := h.climb_returns parent hb hp
 refine ⟨_, hz.bind (pure _), ?_⟩
 rw [decide_eq_true_eq]
 constructor
 · rintro rfl
   exact hzb
 · intro hdom
   have hrz : Reachable (Edge edges) entry z := hzb.reachable hb
   have hpz : d.rank parent ≤ d.rank z :=
    (hbelow parent hdom le_rfl).rank_le h.ranked.ascending hrz
   exact h.ranked.injective z parent hrz hp (by omega)

end Dominance.Correct

end Tir.Backend
