import Mathlib.Data.Fintype.Prod
import Mathlib.Data.Finset.Lattice.Fold

/-!
# Dominators of a rooted graph

A vertex `d` dominates `b` when every walk from the root to `b` passes through `d`. The file
has the order the dominators form (`Dominates.antisymm`, `Dominates.comparable`, `IsIdom.unique`),
the ranks that respect it (`Dominates.rank_le`), the dominators seen by walks with boundedly
many retreating edges, which is what an iterative solver knows after so many passes
(`dominates_of_dominatesUpTo`), and the nesting of natural loops (`InLoop.subset`).
-/

open List

namespace Tir.Graph

universe u

variable {V : Type u} (E : V → V → Prop) (r : V)

/-! ## Walks from the root -/

/-- A walk from the root to a vertex; its vertices, the last one first. -/
inductive Walk : V → List V → Prop
 | root : Walk r [r]
 | step {a b : V} {l : List V} : Walk a l → E a b → Walk b (b :: l)

/-- Some walk from the root ends in `b`. -/
def Reachable (b : V) : Prop :=
 ∃ l, Walk E r b l

/-- Every walk from the root to `b` passes through `d`. -/
def Dominates (d b : V) : Prop :=
 ∀ l, Walk E r b l → d ∈ l

def StrictlyDominates (d b : V) : Prop :=
 d ≠ b ∧ Dominates E r d b

/-- The strict dominator of `b` that every other strict dominator of `b` dominates. -/
def IsIdom (i b : V) : Prop :=
 StrictlyDominates E r i b ∧ ∀ d, StrictlyDominates E r d b → Dominates E r d i

variable {E r}

variable {b x d h : V} {l : List V}

theorem Walk.head (h : Walk E r b l) : ∃ t, l = b :: t := by
 cases h with
 | root => exact ⟨[], rfl⟩
 | step h _ => exact ⟨_, rfl⟩

theorem Walk.self_mem (h : Walk E r b l) : b ∈ l := by
 obtain ⟨t, rfl⟩ := h.head
 exact .head _

theorem Walk.root_mem (h : Walk E r b l) : r ∈ l := by
 induction h with
 | root => exact .head _
 | step _ _ ih => exact .tail _ ih

/-- The part of a walk up to one of its vertices. -/
theorem Walk.sub (h : Walk E r b l) (hx : x ∈ l) :
  ∃ l', Walk E r x l' ∧ l' <:+ l := by
 induction h with
 | root =>
  obtain rfl := mem_singleton.1 hx
  exact ⟨[x], Walk.root, suffix_rfl⟩
 | @step a b l h he ih =>
  rcases mem_cons.1 hx with rfl | hx
  · exact ⟨x :: l, Walk.step h he, suffix_rfl⟩
  grind

theorem Walk.prev {y : V} (h : Walk E r b (y :: l)) (hl : l ≠ []) :
  ∃ a, Walk E r a l ∧ E a b := by
 cases h with
 | root => exact absurd rfl hl
 | step h he => exact ⟨_, h, he⟩

/-- The part of a walk up to a vertex can be replaced by any other walk to it. -/
theorem Walk.splice {s t w : List V} (h : Walk E r b (s ++ x :: t))
  (hw : Walk E r x w) : Walk E r b (s ++ w) := by
 induction s generalizing b with
 | nil =>
  obtain ⟨t', ht⟩ := h.head
  grind
 | cons y s ih =>
  have hyb : y = b := by
   obtain ⟨t', ht⟩ := h.head
   exact (List.cons.inj ht).1
  subst hyb
  obtain ⟨a, ha, he⟩ := h.prev (by simp)
  exact Walk.step (ih ha) he

theorem Reachable.root : Reachable E r r :=
 ⟨[r], Walk.root⟩

theorem Reachable.step {a : V} (h : Reachable E r a) (he : E a b) : Reachable E r b := by
 obtain ⟨l, hl⟩ := h
 exact ⟨b :: l, hl.step he⟩

theorem Reachable.induction {P : V → Prop} (root : P r)
  (step : ∀ a b, Reachable E r a → P a → E a b → P b) (h : Reachable E r b) : P b := by
 obtain ⟨l, hl⟩ := h
 induction hl with
 | root => exact root
 | step h he ih => exact step _ _ ⟨_, h⟩ ih he

/-- Some walk comes to a vertex for the first time at its end. -/
theorem Reachable.exists_first (h : Reachable E r b) :
  ∃ l, Walk E r b l ∧ b ∉ l.tail := by
 obtain ⟨l, hl⟩ := h
 -- the shortest walk: an earlier visit would give a shorter one
 induction hk : l.length using Nat.strong_induction_on generalizing l with
 | _ k ih =>
  obtain ⟨t, rfl⟩ := hl.head
  by_cases hb : b ∈ t
  · obtain ⟨a, ha, -⟩ := hl.prev (ne_nil_of_mem hb)
    obtain ⟨l', hl', hs⟩ := ha.sub hb
    grind
  · exact ⟨b :: t, hl, hb⟩

/-! ## The order of the dominators -/

theorem Dominates.refl (b : V) : Dominates E r b b :=
 fun _ h => h.self_mem

theorem Dominates.root (b : V) : Dominates E r r b :=
 fun _ h => h.root_mem

theorem Dominates.trans {e : V} (hd : Dominates E r d e) (he : Dominates E r e b) :
  Dominates E r d b := by
 intro l hl
 obtain ⟨l', hl', hs⟩ := hl.sub (he l hl)
 exact hs.subset (hd l' hl')

theorem Dominates.reachable (h : Dominates E r d b) (hb : Reachable E r b) :
  Reachable E r d := by
 obtain ⟨l, hl⟩ := hb
 obtain ⟨l', hl', -⟩ := hl.sub (h l hl)
 exact ⟨l', hl'⟩

/-- A strict dominator of a vertex dominates its predecessors. -/
theorem StrictlyDominates.pred {p : V} (h : StrictlyDominates E r d b) (he : E p b) :
  Dominates E r d p := by
 intro l hl
 rcases mem_cons.1 (h.2 (b :: l) (hl.step he)) with hd | hd
 · exact absurd hd h.1
 · exact hd

theorem Dominates.antisymm (hdb : Dominates E r d b) (hbd : Dominates E r b d)
  (hb : Reachable E r b) : d = b := by
 by_contra hne
 -- a walk to `b` holds a shorter walk to `d`, and that one a shorter walk to `b`
 have descend : ∀ k l, l.length = k → ¬ Walk E r b l := by
  intro k
  induction k using Nat.strong_induction_on with
  | _ k ih =>
   intro l hk hl
   obtain ⟨m, hm, hml⟩ := hl.sub (hdb l hl)
   obtain ⟨l', hl', hlm⟩ := hm.sub (hbd m hm)
   have hlt : m.length < l.length := by
    refine lt_of_le_of_ne hml.length_le fun heq => hne ?_
    have : m = l := hml.eq_of_length heq
    subst this
    obtain ⟨t1, h1⟩ := hm.head
    obtain ⟨t2, h2⟩ := hl.head
    exact (List.cons.inj (h1.symm.trans h2)).1
   grind
 obtain ⟨l, hl⟩ := hb
 exact descend l.length l rfl hl

/-- The first of two vertices on a list, with none of them before it. -/
theorem exists_first_of_two {y : V} (h : x ∈ l ∨ y ∈ l) :
  ∃ s z t, l = s ++ z :: t ∧ x ∉ s ∧ y ∉ s ∧ (z = x ∨ z = y) := by
 induction l with
 | nil => simp at h
 | cons a l ih =>
  by_cases ha : a = x ∨ a = y
  · exact ⟨[], a, l, rfl, by simp, by simp, ha⟩
  grind

/-- Two dominators of one vertex: one of them dominates the other. -/
theorem Dominates.comparable {e : V} (hd : Dominates E r d b) (he : Dominates E r e b)
  (hb : Reachable E r b) : Dominates E r d e ∨ Dominates E r e d := by
 by_contra hno
 obtain ⟨hde, hed⟩ := not_or.1 hno
 obtain ⟨w, hw, hdw⟩ : ∃ w, Walk E r e w ∧ d ∉ w := by simpa [Dominates] using hde
 obtain ⟨w', hw', hew⟩ : ∃ w, Walk E r d w ∧ e ∉ w := by simpa [Dominates] using hed
 obtain ⟨l, hl⟩ := hb
 -- after the last visit to either of them, neither is met again
 obtain ⟨s, z, t, rfl, hds, hes, hz⟩ := exists_first_of_two (.inl (hd l hl) : d ∈ l ∨ e ∈ l)
 rcases hz with rfl | rfl
 · have := he _ (hl.splice hw')
   simp [hes, hew] at this
 · have := hd _ (hl.splice hw)
   simp [hds, hdw] at this

theorem IsIdom.unique {i j : V} (hi : IsIdom E r i b) (hj : IsIdom E r j b) (hb : Reachable E r b) : i = j :=
 (hj.2 i hi.1).antisymm (hi.2 j hj.1) (hj.1.2.reachable hb)

/-! ## Ranks -/

/-- Every reachable vertex but the root has a reachable predecessor of lower rank. -/
def Ascending (E : V → V → Prop) (r : V) (rank : V → Nat) : Prop :=
 ∀ b, Reachable E r b → b ≠ r → ∃ p, Reachable E r p ∧ E p b ∧ rank p < rank b

section

variable {rank : V → Nat}

theorem Ascending.exists_walk (h : Ascending E r rank) {b : V} (hb : Reachable E r b) :
  ∃ l, Walk E r b l ∧ ∀ x ∈ l, x ≠ b → rank x < rank b := by
 -- by induction on the rank: the walk goes down the ranks, from `b` back to the root
 induction hk : rank b using Nat.strong_induction_on generalizing b with
 | _ k ih =>
  by_cases hr : b = r
  · subst hr
    refine ⟨[b], Walk.root, fun x hx hne => ?_⟩
    exact absurd (mem_singleton.1 hx) hne
  · obtain ⟨p, hp, he, hlt⟩ := h b hb hr
    obtain ⟨l, hl, hle⟩ := ih (rank p) (by omega) hp rfl
    refine ⟨b :: l, hl.step he, fun x hx hne => ?_⟩
    rcases mem_cons.1 hx with hx | hx
    · exact absurd hx hne
    grind

theorem StrictlyDominates.rank_lt (h : Ascending E r rank) {d b : V}
  (hd : StrictlyDominates E r d b) (hb : Reachable E r b) : rank d < rank b := by
 obtain ⟨l, hl, hlt⟩ := h.exists_walk hb
 exact hlt d (hd.2 l hl) hd.1

theorem Dominates.rank_le (h : Ascending E r rank) {d b : V} (hd : Dominates E r d b)
  (hb : Reachable E r b) : rank d ≤ rank b := by
 by_cases hne : d = b
 · rw [hne]
 · exact le_of_lt (StrictlyDominates.rank_lt h ⟨hne, hd⟩ hb)

end

/-! ## Walks with boundedly many retreating edges -/

/-- A walk from the root with at most so many edges along which the rank need not rise. -/
inductive WalkUpTo (E : V → V → Prop) (r : V) (rank : V → Nat) : Nat → V → List V → Prop
 | root (k : Nat) : WalkUpTo E r rank k r [r]
 | forward {k : Nat} {a b : V} {l : List V} :
   WalkUpTo E r rank k a l → E a b → rank a < rank b → WalkUpTo E r rank k b (b :: l)
 | retreat {k : Nat} {a b : V} {l : List V} :
   WalkUpTo E r rank k a l → E a b → WalkUpTo E r rank (k + 1) b (b :: l)

/-- Every walk to `b` with at most `k` retreating edges passes through `d`. -/
def DominatesUpTo (E : V → V → Prop) (r : V) (rank : V → Nat) (k : Nat) (d b : V) : Prop :=
 ∀ l, WalkUpTo E r rank k b l → d ∈ l

section

variable {rank : V → Nat}

variable {b : V} {k : Nat} {l : List V}

theorem WalkUpTo.walk (h : WalkUpTo E r rank k b l) :
  Walk E r b l := by
 induction h with
 | root k => exact Walk.root
 | forward _ he _ ih => exact ih.step he
 | retreat _ he ih => exact ih.step he

theorem WalkUpTo.mono {m : Nat} (h : WalkUpTo E r rank k b l)
  (hkm : k ≤ m) : WalkUpTo E r rank m b l := by
 induction h generalizing m with
 | root k => exact WalkUpTo.root m
 | forward _ he hlt ih => exact (ih hkm).forward he hlt
 | retreat _ he ih =>
  obtain ⟨m, rfl⟩ : ∃ m', m = m' + 1 := ⟨m - 1, by omega⟩
  exact (ih (by omega)).retreat he

theorem WalkUpTo.sub {x : V} (h : WalkUpTo E r rank k b l)
  (hx : x ∈ l) : ∃ l', WalkUpTo E r rank k x l' ∧ l' ⊆ l := by
 induction h with
 | root k =>
  obtain rfl := mem_singleton.1 hx
  exact ⟨[x], WalkUpTo.root k, Subset.refl _⟩
 | @forward k a b l h he hlt ih =>
  rcases mem_cons.1 hx with rfl | hx
  · exact ⟨x :: l, h.forward he hlt, Subset.refl _⟩
  grind
 | @retreat k a b l h he ih =>
  rcases mem_cons.1 hx with rfl | hx
  · exact ⟨x :: l, h.retreat he, Subset.refl _⟩
  · obtain ⟨l', h', hs⟩ := ih hx
    exact ⟨l', h'.mono (Nat.le_succ k), subset_cons_of_subset b hs⟩

theorem Walk.upTo (h : Walk E r b l) :
  ∃ k, WalkUpTo E r rank k b l := by
 induction h with
 | root => exact ⟨0, WalkUpTo.root 0⟩
 | step _ he ih =>
  obtain ⟨k, hk⟩ := ih
  exact ⟨k + 1, hk.retreat he⟩

theorem DominatesUpTo.refl (k : Nat) (b : V) : DominatesUpTo E r rank k b b :=
 fun _ h => h.walk.self_mem

theorem DominatesUpTo.trans {d e : V} (hd : DominatesUpTo E r rank k d e)
  (he : DominatesUpTo E r rank k e b) : DominatesUpTo E r rank k d b := by
 intro l hl
 obtain ⟨l', hl', hs⟩ := hl.sub (he l hl)
 exact hs (hd l' hl')

theorem DominatesUpTo.anti {m : Nat} {d : V} (h : DominatesUpTo E r rank m d b)
  (hkm : k ≤ m) : DominatesUpTo E r rank k d b :=
 fun l hl => h l (hl.mono hkm)

/-- In a finite graph, walks with enough retreating edges tell every dominator. -/
theorem dominates_of_dominatesUpTo [Fintype V] (E : V → V → Prop) (r : V) (rank : V → Nat) :
  ∃ k, ∀ d b, DominatesUpTo E r rank k d b → Dominates E r d b := by
 classical
 -- for each pair that does not dominate, one walk shows it; take the most edges of these
 have hpair : ∀ p : V × V, ∃ k, DominatesUpTo E r rank k p.1 p.2 → Dominates E r p.1 p.2 := by
  intro p
  by_cases hp : Dominates E r p.1 p.2
  · exact ⟨0, fun _ => hp⟩
  · obtain ⟨l, hl, hd⟩ : ∃ l, Walk E r p.2 l ∧ p.1 ∉ l := by simpa [Dominates] using hp
    obtain ⟨k, hk⟩ : ∃ k, WalkUpTo E r rank k p.2 l := hl.upTo
    exact ⟨k, fun h => absurd (h l hk) hd⟩
 choose bound hbound using hpair
 refine ⟨Finset.univ.sup bound, fun d b h => hbound (d, b) (h.anti ?_)⟩
 exact Finset.le_sup (f := bound) (Finset.mem_univ (d, b))

end

/-! ## Natural loops -/

/-- A reachable block with an edge back to `h`, which dominates it. -/
def IsLatch (E : V → V → Prop) (r h l : V) : Prop :=
 Reachable E r l ∧ E l h ∧ Dominates E r h l

/-- The natural loop of the header `h`: `h`, and every reachable vertex that reaches a latch of
`h` without passing through `h`. -/
def InLoop (E : V → V → Prop) (r h b : V) : Prop :=
 ∃ latch, IsLatch E r h latch ∧
  (b = h ∨ b ≠ h ∧ Reachable E r b ∧
   Relation.ReflTransGen (fun x y => E x y ∧ y ≠ h) b latch)

theorem InLoop.of_latch {l : V} (hl : IsLatch E r h l) : InLoop E r h l := by
 refine ⟨l, hl, ?_⟩
 by_cases hlh : l = h
 · exact .inl hlh
 · exact .inr ⟨hlh, hl.1, Relation.ReflTransGen.refl⟩

theorem InLoop.header (hb : InLoop E r h b) : InLoop E r h h := by
 obtain ⟨l, hl, -⟩ := hb
 exact ⟨l, hl, .inl rfl⟩

theorem InLoop.reachable (hb : InLoop E r h b) : Reachable E r b := by
 obtain ⟨l, hl, rfl | ⟨-, hr, -⟩⟩ := hb
 · exact hl.2.2.reachable hl.1
 · exact hr

theorem InLoop.dominates (hb : InLoop E r h b) : Dominates E r h b := by
 obtain ⟨l, hl, rfl | ⟨hbh, -, hpath⟩⟩ := hb
 · exact Dominates.refl b
 · induction hpath using Relation.ReflTransGen.head_induction_on with
   | refl => exact hl.2.2
   | head he _ ih =>
    -- a strict dominator of the next vertex dominates this one
    exact StrictlyDominates.pred ⟨Ne.symm he.2, ih he.2⟩ he.1

/-- The loop is closed under predecessors, but for those of its header. -/
theorem InLoop.pred {y : V} (hy : InLoop E r h y) (hne : y ≠ h) (he : E x y)
  (hx : Reachable E r x) : InLoop E r h x := by
 obtain ⟨l, hl, heq | ⟨-, -, hpath⟩⟩ := hy
 · exact absurd heq hne
 · refine ⟨l, hl, ?_⟩
   by_cases hxh : x = h
   · exact .inl hxh
   · exact .inr ⟨hxh, hx, Relation.ReflTransGen.head ⟨he, hne⟩ hpath⟩

theorem InLoop.along {s t : List V} (hb : InLoop E r h b)
  (hw : Walk E r b (s ++ x :: t)) (hs : h ∉ s) : InLoop E r h x := by
 induction s generalizing b with
 | nil =>
  obtain ⟨t', ht⟩ := hw.head
  grind
 | cons y s ih =>
  have hyb : y = b := by
   obtain ⟨t', ht⟩ := hw.head
   exact (List.cons.inj ht).1
  obtain ⟨a, ha, he⟩ := hw.prev (by simp)
  obtain ⟨hby, hs⟩ := not_or.1 (mt mem_cons.2 hs)
  subst hyb
  exact ih (hb.pred (Ne.symm hby) he ⟨_, ha⟩) ha hs

/-- Two loops that share a vertex: the header further down lies in the loop of the other. -/
theorem InLoop.header_mem {h1 h2 : V} (h₁b : InLoop E r h1 b) (h₂b : InLoop E r h2 b)
  (hdom : Dominates E r h1 h2) (hne : h1 ≠ h2) : InLoop E r h1 h2 := by
 have hnot : ¬ Dominates E r h2 h1 := by
  intro h
  exact hne (hdom.antisymm h h₂b.header.reachable)
 obtain ⟨w, hw, hw2⟩ : ∃ w, Walk E r h1 w ∧ h2 ∉ w := by simpa [Dominates] using hnot
 obtain ⟨l, hl⟩ := h₁b.reachable
 -- the last of the two headers on a walk to `b` is `h2`: else a walk to `b` avoids `h2`
 obtain ⟨s, z, t, rfl, hs1, hs2, hz⟩ :=
  exists_first_of_two (.inl (h₁b.dominates l hl) : h1 ∈ l ∨ h2 ∈ l)
 rcases hz with rfl | rfl
 · have := h₂b.dominates _ (hl.splice hw)
   simp [hs2, hw2] at this
 · exact h₁b.along hl hs1

/-- Two loops that share a vertex are nested. -/
theorem InLoop.subset {h1 h2 c : V} (h₁b : InLoop E r h1 b) (h₂b : InLoop E r h2 b)
  (hdom : Dominates E r h1 h2) (hne : h1 ≠ h2) (hc : InLoop E r h2 c) : InLoop E r h1 c := by
 have hmem : InLoop E r h1 h2 := h₁b.header_mem h₂b hdom hne
 have hout : ∀ x, InLoop E r h2 x → x ≠ h1 := by
  rintro x hx rfl
  exact hne (hdom.antisymm hx.dominates h₂b.header.reachable)
 obtain ⟨l, hl, rfl | ⟨hch, hrc, hpath⟩⟩ := hc
 · exact hmem
 · induction hpath using Relation.ReflTransGen.head_induction_on with
   | refl => exact hmem.pred (Ne.symm hne) hl.2.1 hl.1
   | @head x y he hrest ih =>
    have hry : Reachable E r y := hrc.step he.1
    have hy : InLoop E r h2 y := ⟨l, hl, .inr ⟨he.2, hry, hrest⟩⟩
    exact (ih he.2 hry).pred (hout y hy) he.1 hrc

end Tir.Graph
