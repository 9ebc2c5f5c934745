import Tir.Backend.ReversePostorder

/-!
# The fixpoint of the immediate dominators

`idomFixpoint` ends and gives every reachable block its immediate dominator
(`idomFixpoint_returns`). Between two turns the tree built so far has two properties. Every strict
dominator of a block dominates the parent the tree gives it (`IdomTree.above`), which keeps the
walks of `intersect` below every common dominator. And a parent dominates its block as far as
walks with boundedly many retreating edges can tell (`UpTo`): pass after pass allows one edge
more, so that after enough passes the parents are the immediate dominators and nothing changes.
A parent need not move up from pass to pass in an irreducible graph, so the ranks of the parents are
no measure of the iteration.
-/

open List Option Function Bool

namespace Tir.Backend

open Tir.Graph

variable {n : Nat}

/-- The blocks of the passes: all reachable ones but the entry, by rising rank. -/
structure Ranked (edges : Fin n → List (Fin n)) (entry : Fin n) (rank : Fin n → Nat)
  (blocks : List (Fin n)) : Prop where
 ascending : Ascending (Edge edges) entry rank
 injective : ∀ a b, Reachable (Edge edges) entry a → Reachable (Edge edges) entry b →
  rank a = rank b → a = b
 mem_iff : ∀ b, b ∈ blocks ↔ Reachable (Edge edges) entry b ∧ b ≠ entry
 sorted : blocks.Pairwise fun a b => rank a < rank b

/-- What every turn keeps of the tree built so far. -/
structure IdomTree (edges : Fin n → List (Fin n)) (entry : Fin n) (rank : Fin n → Nat)
  (idom : Fin n → Option (Fin n)) : Prop where
 root : idom entry = some entry
 reachable : ∀ b, (idom b).isSome → Reachable (Edge edges) entry b
 known : ∀ b q, b ≠ entry → idom b = some q → (idom q).isSome
 lower : ∀ b q, b ≠ entry → idom b = some q → rank q < rank b
 above : ∀ b q, b ≠ entry → idom b = some q →
  ∀ d, StrictlyDominates (Edge edges) entry d b → Dominates (Edge edges) entry d q

/-- The tree has a parent for `b`, which dominates it for walks with `k` retreating edges. -/
def UpTo (edges : Fin n → List (Fin n)) (entry : Fin n) (rank : Fin n → Nat) (k : Nat)
  (idom : Fin n → Option (Fin n)) (b : Fin n) : Prop :=
 ∃ q, idom b = some q ∧ (b ≠ entry → DominatesUpTo (Edge edges) entry rank k q b)

/-- Ancestors in the tree built so far, a block among its own. -/
inductive Ancestor (entry : Fin n) (idom : Fin n → Option (Fin n)) : Fin n → Fin n → Prop
 | refl (a : Fin n) : Ancestor entry idom a a
 | up {a b q : Fin n} : b ≠ entry → idom b = some q → Ancestor entry idom a q →
   Ancestor entry idom a b

theorem mem_predecessorsOf {edges : Fin n → List (Fin n)} {p b : Fin n} :
  p ∈ predecessorsOf edges b ↔ Edge edges p b := by
 simp [predecessorsOf, Edge]

variable {edges : Fin n → List (Fin n)} {entry : Fin n} {rank : Fin n → Nat}
 {blocks : List (Fin n)} {idom : Fin n → Option (Fin n)}

variable {a b z : Fin n} {k : Nat}

theorem Ancestor.trans {c : Fin n} (hab : Ancestor entry idom a b)
  (hbc : Ancestor entry idom b c) : Ancestor entry idom a c := by
 induction hbc with
 | refl => exact hab
 | up hne hq _ ih => exact Ancestor.up hne hq ih

section

variable (ht : IdomTree edges entry rank idom) (h : Ancestor entry idom a b)

include ht h

theorem Ancestor.rank_le
  : rank a ≤ rank b := by
 induction h with
 | refl => exact le_rfl
 | up hne hq _ ih =>
  have := ht.lower _ _ hne hq
  omega

/-- Parents known up to `k` edges make ancestors known up to `k` edges. -/
theorem Ancestor.dominatesUpTo (hb : ∀ x, (idom x).isSome → rank x ≤ rank b → UpTo edges entry rank k idom x) :
  DominatesUpTo (Edge edges) entry rank k a b := by
 induction h with
 | refl => exact DominatesUpTo.refl k _
 | @up b q hne hq _ ih =>
  have hlt := ht.lower b q hne hq
  have haq := ih fun x hx hle => hb x hx (by omega)
  obtain ⟨q', hq', hdom⟩ := hb b (by simp [hq]) le_rfl
  have hqq : q = q' := some.inj (hq.symm.trans hq')
  subst hqq
  exact haq.trans (hdom hne)

end

theorem Ranked.entry_lt (hr : Ranked edges entry rank blocks)
  (hb : Reachable (Edge edges) entry b) (hne : b ≠ entry) : rank entry < rank b :=
 StrictlyDominates.rank_lt hr.ascending ⟨Ne.symm hne, Dominates.root b⟩ hb

/-! ## The common ancestor of two blocks -/

section

variable (hr : Ranked edges entry rank blocks) (ht : IdomTree edges entry rank idom)

include hr ht

/-- The walk of `intersect` meets, below every dominator the two blocks share. -/
theorem intersect_returns {p : Fin n} (ha : (idom a).isSome) (hp : (idom p).isSome) :
  ∃ z, Returns (fun fuel => intersect rank idom fuel a p) z ∧ (idom z).isSome ∧
   Ancestor entry idom z a ∧ Ancestor entry idom z p ∧
   ∀ d, Dominates (Edge edges) entry d a → Dominates (Edge edges) entry d p →
    Dominates (Edge edges) entry d z := by
 -- each turn moves the block of higher rank to its parent
 induction hk : rank a + rank p using Nat.strong_induction_on generalizing a p with
 | _ k ih =>
  by_cases hap : a = p
  · subst hap
    refine ⟨a, Returns.turn (fun _ => by rw [intersect, if_pos rfl]) (Returns.pure a), ha,
     Ancestor.refl a, Ancestor.refl a, fun d hd _ => hd⟩
  have hra := ht.reachable a ha
  have hrp := ht.reachable p hp
  by_cases hgt : rank a > rank p
  · have hae : a ≠ entry := by
     rintro rfl
     have := Dominates.rank_le hr.ascending (Dominates.root p) hrp
     omega
    obtain ⟨q, hq⟩ := isSome_iff_exists.1 ha
    have hlt := ht.lower a q hae hq
    obtain ⟨z, hz, hzk, hza, hzp, hd⟩ :=
     ih (rank q + rank p) (by omega) (ht.known a q hae hq) hp rfl
    refine ⟨z, Returns.turn (fun fuel => ?_) hz, hzk, Ancestor.up hae hq hza, hzp, ?_⟩
    · rw [intersect, if_neg hap, if_pos hgt, hq, bind_some]
    · intro d hda hdp
      refine hd d (ht.above a q hae hq d ⟨?_, hda⟩) hdp
      -- `a` itself ranks above `p` and so cannot dominate it
      rintro rfl
      have := hdp.rank_le hr.ascending hrp
      omega
  · have hlt : rank a < rank p := by
     have hne : rank a ≠ rank p := fun h => hap (hr.injective a p hra hrp h)
     omega
    have hpe : p ≠ entry := by
     rintro rfl
     have := Dominates.rank_le hr.ascending (Dominates.root a) hra
     omega
    obtain ⟨q, hq⟩ := isSome_iff_exists.1 hp
    have hqp := ht.lower p q hpe hq
    obtain ⟨z, hz, hzk, hza, hzp, hd⟩ :=
     ih (rank a + rank q) (by omega) ha (ht.known p q hpe hq) rfl
    refine ⟨z, Returns.turn (fun fuel => ?_) hz, hzk, hza, Ancestor.up hpe hq hzp, ?_⟩
    · rw [intersect, if_neg hap, if_neg hgt, hq, bind_some]
    · intro d hda hdp
      refine hd d hda (ht.above p q hpe hq d ⟨?_, hdp⟩)
      rintro rfl
      have := hda.rank_le hr.ascending hra
      omega

theorem parentOf_returns {preds : List (Fin n)} {p0 : Fin n} (hp0 : p0 ∈ preds) (hk0 : (idom p0).isSome) :
  ∃ z, Returns (fun fuel => parentOf rank idom fuel preds) z ∧ (idom z).isSome ∧
   (∀ p ∈ preds, (idom p).isSome → Ancestor entry idom z p) ∧
   ∀ d, (∀ p ∈ preds, (idom p).isSome → Dominates (Edge edges) entry d p) →
    Dominates (Edge edges) entry d z := by
 have hmem : ∀ p, p ∈ (preds.filter fun p => (idom p).isSome) ↔ p ∈ preds ∧ (idom p).isSome := by
  simp
 cases hf : preds.filter fun p => (idom p).isSome with
 | nil =>
  grind
 | cons first incoming =>
  rw [hf] at hmem
  have hfst := (hmem first).1 (.head _)
  -- the ancestor found so far is one of the first block and of those passed
  obtain ⟨z, hz, hzk, hzf, hzi, hd⟩ := Returns.foldlM
   (intersect rank idom)
   (fun pre z => (idom z).isSome ∧ Ancestor entry idom z first ∧
    (∀ p ∈ pre, Ancestor entry idom z p) ∧
    ∀ d, (∀ p ∈ first :: incoming, Dominates (Edge edges) entry d p) →
     Dominates (Edge edges) entry d z)
   (l := incoming) (s := first)
   (by
    rintro pre x rest z hl ⟨hzk, hzf, hzp, hd⟩
    have hx : x ∈ incoming := by simp [hl]
    have hxk := ((hmem x).1 (.tail _ hx)).2
    obtain ⟨y, hy, hyk, hyz, hyx, hyd⟩ := intersect_returns hr ht hzk hxk
    refine ⟨y, hy, hyk, hyz.trans hzf, fun p hp => ?_, fun d h => ?_⟩
    · rcases mem_append.1 hp with hp | hp
      · exact hyz.trans (hzp p hp)
      grind
    · exact hyd d (hd d h) (h x (.tail _ hx)))
   ⟨hfst.2, Ancestor.refl first, by simp, fun d h => h first mem_cons_self⟩
  refine ⟨z, hz.congr fun fuel => ?_, hzk, fun p hp hpk => ?_, fun d h => hd d fun p hp => ?_⟩
  · rw [parentOf, hf]
  · rcases mem_cons.1 ((hmem p).2 ⟨hp, hpk⟩) with rfl | hp
    · exact hzf
    · exact hzi p hp
  · exact h p ((hmem p).1 hp).1 ((hmem p).1 hp).2

end

/-! ## One turn -/

/-- What a pass that allows `k` retreating edges has reached before the turn of `b`. -/
structure Before (edges : Fin n → List (Fin n)) (entry : Fin n) (rank : Fin n → Nat) (k : Nat)
  (idom : Fin n → Option (Fin n)) (b : Fin n) : Prop where
 tree : IdomTree edges entry rank idom
 /-- The blocks of lower rank have had their turn. -/
 passed : ∀ x, Reachable (Edge edges) entry x → rank x < rank b → UpTo edges entry rank k idom x
 /-- The other blocks had theirs in the pass before. -/
 previous : ∀ m, k = m + 1 → ∀ x, Reachable (Edge edges) entry x →
  UpTo edges entry rank m idom x

theorem UpTo.anti {m : Nat} {x : Fin n} (h : UpTo edges entry rank m idom x) (hkm : k ≤ m) :
  UpTo edges entry rank k idom x := by
 obtain ⟨q, hq, hdom⟩ := h
 exact ⟨q, hq, fun hne => (hdom hne).anti hkm⟩

theorem UpTo.update {x : Fin n} (h : UpTo edges entry rank k idom x)
  (hxb : x ≠ b) : UpTo edges entry rank k (update idom b (some z)) x := by
 obtain ⟨q, hq, hdom⟩ := h
 exact ⟨q, by rw [update_of_ne hxb, hq], hdom⟩

/-- Every walk to the block, retreating at most `k` times, passes through its new parent. -/
theorem Before.parent_upTo (h : Before edges entry rank k idom b) (hbe : b ≠ entry)
  (hz : ∀ p ∈ predecessorsOf edges b, (idom p).isSome → Ancestor entry idom z p) :
  DominatesUpTo (Edge edges) entry rank k z b := by
 intro l hl
 cases hl with
 | root => exact absurd rfl hbe
 | @forward _ p _ l hl he hlt =>
  have hrp : Reachable (Edge edges) entry p := ⟨l, hl.walk⟩
  obtain ⟨q, hq, -⟩ := h.passed p hrp hlt
  have hanc := hz p (mem_predecessorsOf.2 he) (by simp [hq])
  have hdom := hanc.dominatesUpTo h.tree (k := k) fun x hx hle =>
   h.passed x (h.tree.reachable x hx) (by omega)
  exact mem_cons_of_mem b (hdom l hl)
 | @retreat m p _ l hl he =>
  have hrp : Reachable (Edge edges) entry p := ⟨l, hl.walk⟩
  obtain ⟨q, hq, -⟩ := h.previous m rfl p hrp
  have hanc := hz p (mem_predecessorsOf.2 he) (by simp [hq])
  have hdom := hanc.dominatesUpTo h.tree (k := m) fun x hx _ =>
   h.previous m rfl x (h.tree.reachable x hx)
  exact mem_cons_of_mem b (hdom l hl)

theorem IdomTree.update (ht : IdomTree edges entry rank idom) (hbe : b ≠ entry)
  (hrb : Reachable (Edge edges) entry b) (hz : (idom z).isSome) (hlt : rank z < rank b)
  (habove : ∀ d, StrictlyDominates (Edge edges) entry d b → Dominates (Edge edges) entry d z) :
  IdomTree edges entry rank (Function.update idom b (some z)) := by
 have hsome : ∀ x, (idom x).isSome → (Function.update idom b (some z) x).isSome := by
  intro x hx
  by_cases hxb : x = b
  · simp [hxb]
  · rwa [Function.update_of_ne hxb]
 refine ⟨?_, ?_, ?_, ?_, ?_⟩
 · rw [update_of_ne (Ne.symm hbe)]
   exact ht.root
 · intro x hx
   by_cases hxb : x = b
   · rw [hxb]
     exact hrb
   · rw [update_of_ne hxb] at hx
     exact ht.reachable x hx
 · intro x q hxe hq
   by_cases hxb : x = b
   · grind
   · rw [update_of_ne hxb] at hq
     exact hsome q (ht.known x q hxe hq)
 · intro x q hxe hq
   by_cases hxb : x = b
   · grind
   · rw [update_of_ne hxb] at hq
     exact ht.lower x q hxe hq
 · intro x q hxe hq
   by_cases hxb : x = b
   · grind
   · rw [update_of_ne hxb] at hq
     exact ht.above x q hxe hq

/-- The turn of a block gives it a parent that dominates it up to `k` edges. -/
theorem relaxIdom_returns (hr : Ranked edges entry rank blocks)
  (h : Before edges entry rank k idom b) (hrb : Reachable (Edge edges) entry b) (hbe : b ≠ entry) (changed : Bool) :
  ∃ z, Returns (fun fuel => relaxIdom edges rank fuel (idom, changed) b)
    (update idom b (some z), changed || decide (idom b ≠ some z)) ∧ IdomTree edges entry rank (update idom b (some z)) ∧
   DominatesUpTo (Edge edges) entry rank k z b := by
 -- some predecessor of lower rank has had its turn
 obtain ⟨p, hrp, hpe, hpb⟩ := hr.ascending b hrb hbe
 obtain ⟨q, hq, -⟩ := h.passed p hrp hpb
 have hpk : (idom p).isSome := by simp [hq]
 have hpmem : p ∈ predecessorsOf edges b := mem_predecessorsOf.2 hpe
 obtain ⟨z, hz, hzk, hanc, hdom⟩ := parentOf_returns hr h.tree hpmem hpk
 refine ⟨z, ?_, ?_, h.parent_upTo hbe hanc⟩
 · refine hz.bind ?_
   by_cases hne : idom b = some z
   · have hupd : update idom b (some z) = idom := by
      grind
     simpa [hne, hupd] using Returns.pure (idom, changed)
   · simpa [hne] using Returns.pure (update idom b (some z), true)
 · refine h.tree.update hbe hrb hzk ?_ ?_
   · have := (hanc p hpmem hpk).rank_le h.tree
     omega
   · exact fun d hd => hdom d fun x hx _ => hd.pred (mem_predecessorsOf.1 hx)

/-! ## One pass -/

/-- What a pass that allows `k` retreating edges leaves. -/
def Level (edges : Fin n → List (Fin n)) (entry : Fin n) (rank : Fin n → Nat) (k : Nat)
  (idom : Fin n → Option (Fin n)) : Prop :=
 IdomTree edges entry rank idom ∧
  ∀ x, Reachable (Edge edges) entry x → UpTo edges entry rank k idom x

/-- The state in the middle of a pass from `idom₀`, past the blocks `pre`. -/
structure MidPass (edges : Fin n → List (Fin n)) (entry : Fin n) (rank : Fin n → Nat) (k : Nat)
  (idom₀ : Fin n → Option (Fin n)) (pre : List (Fin n)) (state : (Fin n → Option (Fin n)) × Bool) : Prop where
 tree : IdomTree edges entry rank state.1
 passed : ∀ x ∈ pre, UpTo edges entry rank k state.1 x
 previous : ∀ m, k = m + 1 → ∀ x, Reachable (Edge edges) entry x →
  UpTo edges entry rank m state.1 x
 frame : ∀ x, x ∉ pre → state.1 x = idom₀ x
 unchanged : state.2 = false → state.1 = idom₀
 changed : state.2 = true → ∃ x ∈ pre, state.1 x ≠ idom₀ x

theorem MidPass.step (hr : Ranked edges entry rank blocks) {idom0 : Fin n → Option (Fin n)} {pre rest : List (Fin n)}
  {state : (Fin n → Option (Fin n)) × Bool} (hl : blocks = pre ++ b :: rest)
  (h : MidPass edges entry rank k idom0 pre state) :
  ∃ state', Returns (fun fuel => relaxIdom edges rank fuel state b) state' ∧
   MidPass edges entry rank k idom0 (pre ++ [b]) state' := by
 obtain ⟨idom, changed⟩ := state
 obtain ⟨hrb, hbe⟩ := (hr.mem_iff b).1 (by simp [hl])
 have hsorted := hr.sorted
 rw [hl, pairwise_append] at hsorted
 obtain ⟨-, hrest, hcross⟩ := hsorted
 have hbpre : b ∉ pre := fun hb => by
  have := hcross b hb b (.head _)
  omega
 -- a block of lower rank is the entry or comes before `b` in the pass
 have hbef : Before edges entry rank k idom b := by
  refine ⟨h.tree, fun x hx hlt => ?_, h.previous⟩
  by_cases hxe : x = entry
  · exact ⟨entry, by rw [hxe]; exact h.tree.root, fun hne => absurd hxe hne⟩
  · have hxm : x ∈ pre ++ b :: rest := hl ▸ (hr.mem_iff x).2 ⟨hx, hxe⟩
    rcases mem_append.1 hxm with hxm | hxm
    · exact h.passed x hxm
    · rcases mem_cons.1 hxm with rfl | hxm
      · omega
      · have := (pairwise_cons.1 hrest).1 x hxm
        omega
 obtain ⟨z, hz, htree, hupTo⟩ := relaxIdom_returns hr hbef hrb hbe changed
 have hself : UpTo edges entry rank k (update idom b (some z)) b :=
  ⟨z, update_self b (some z) idom, fun _ => hupTo⟩
 refine ⟨_, hz, htree, ?_, ?_, ?_, ?_, ?_⟩
 · intro x hx
   rcases mem_append.1 hx with hx | hx
   · exact (h.passed x hx).update fun hxb => hbpre (hxb ▸ hx)
   grind
 · intro m hm x hx
   by_cases hxb : x = b
   · rw [hxb]
     exact hself.anti (by omega)
   · exact (h.previous m hm x hx).update hxb
 · intro x hx
   have hxb : x ≠ b := fun hxb => hx (by simp [hxb])
   show update idom b (some z) x = idom0 x
   rw [update_of_ne hxb]
   exact h.frame x fun hmem => hx (mem_append_left _ hmem)
 · intro hch
   obtain ⟨hch, hsame⟩ := (or_eq_false_iff).1 hch
   have hbz : idom b = some z := by simpa using hsame
   show update idom b (some z) = idom0
   rw [← hbz, update_eq_self]
   exact h.unchanged hch
 · intro hch
   rcases (or_eq_true_iff).1 hch with hch | hch
   · obtain ⟨x, hx, hne⟩ := h.changed hch
     grind
   · -- `b` has its one turn of the pass now: it still had its old parent
     refine ⟨b, by simp, ?_⟩
     show update idom b (some z) b ≠ idom0 b
     rw [update_self, ← h.frame b hbpre]
     exact fun heq => (by simpa using hch : idom b ≠ some z) heq.symm

theorem pass_returns (hr : Ranked edges entry rank blocks) (ht : IdomTree edges entry rank idom)
  (hprev : ∀ m, k = m + 1 → ∀ x, Reachable (Edge edges) entry x → UpTo edges entry rank m idom x) :
  ∃ state, Returns (fun fuel => blocks.foldlM (relaxIdom edges rank fuel) (idom, false)) state ∧
   Level edges entry rank k state.1 ∧ (state.2 = false → state.1 = idom) ∧
   (state.2 = true → ∃ x, Reachable (Edge edges) entry x ∧ state.1 x ≠ idom x) := by
 have hstart : MidPass edges entry rank k idom [] (idom, false) :=
  ⟨ht, by simp, hprev, fun _ _ => rfl, fun _ => rfl, by simp⟩
 obtain ⟨state, hs, hmid⟩ := Returns.foldlM (relaxIdom edges rank)
  (MidPass edges entry rank k idom) (fun pre b rest s hl h => h.step hr hl) hstart
 refine ⟨state, hs, ⟨hmid.tree, fun x hx => ?_⟩, hmid.unchanged, fun hch => ?_⟩
 · by_cases hxe : x = entry
   · exact ⟨entry, by rw [hxe]; exact hmid.tree.root, fun hne => absurd hxe hne⟩
   · exact hmid.passed x ((hr.mem_iff x).2 ⟨hx, hxe⟩)
 · obtain ⟨x, hx, hne⟩ := hmid.changed hch
   exact ⟨x, ((hr.mem_iff x).1 hx).1, hne⟩

/-! ## The fixpoint -/

section

variable (hk : ∀ d b, DominatesUpTo (Edge edges) entry rank k d b → Dominates (Edge edges) entry d b)

include hk

theorem Level.isIdom (h : Level edges entry rank k idom) (hb : Reachable (Edge edges) entry b)
  (hbe : b ≠ entry) : ∃ q, idom b = some q ∧ IsIdom (Edge edges) entry q b := by
 obtain ⟨q, hq, hdom⟩ := h.2 b hb
 have hlt := h.1.lower b q hbe hq
 have hqb : q ≠ b := by
  rintro rfl
  omega
 exact ⟨q, hq, ⟨hqb, hk q b (hdom hbe)⟩, h.1.above b q hbe hq⟩

/-- Two trees that both give the immediate dominators agree. -/
theorem Level.agree {m : Nat} {idom' : Fin n → Option (Fin n)}
  (hkm : k ≤ m) (h : Level edges entry rank k idom) (h' : Level edges entry rank m idom') (hb : Reachable (Edge edges) entry b) : idom' b = idom b := by
 by_cases hbe : b = entry
 · rw [hbe, h.1.root, h'.1.root]
 · obtain ⟨q, hq, hi⟩ := h.isIdom hk hb hbe
   obtain ⟨q', hq', hi'⟩ := h'.isIdom (fun d b hd => hk d b (hd.anti hkm)) hb hbe
   rw [hq, hq', hi.unique hi' hb]

end

/-- A tree that a pass does not change is right up to any number of edges. -/
theorem Level.of_unchanged (hr : Ranked edges entry rank blocks) (h : Level edges entry rank k idom)
  (hs : Returns (fun fuel => blocks.foldlM (relaxIdom edges rank fuel) (idom, false))
   (idom, false)) (m : Nat) : Level edges entry rank (k + m) idom := by
 induction m with
 | zero => exact h
 | succ m ih =>
  obtain ⟨state, hs', hlevel, -⟩ := pass_returns hr (k := k + (m + 1)) ih.1
   fun j hj x hx => (ih.2 x hx).anti (by omega)
  obtain rfl := hs'.unique hs
  exact hlevel

theorem Level.returns (hr : Ranked edges entry rank blocks) {K : Nat}
  (hK : ∀ d b, DominatesUpTo (Edge edges) entry rank K d b → Dominates (Edge edges) entry d b)
  (h : Level edges entry rank k idom) : ∃ idom', Returns (fun fuel => idomFixpoint edges rank blocks fuel idom) idom' ∧
   Level edges entry rank K idom' := by
 -- by induction on the passes left until the tree is right
 induction hm : K + 1 - k using Nat.strong_induction_on generalizing k idom with
 | _ m ih =>
  obtain ⟨⟨idom', changed⟩, hs, hlevel, hsame, hdiff⟩ := pass_returns hr (k := k + 1) h.1
   fun j hj x hx => (h.2 x hx).anti (by omega)
  cases changed with
  | false =>
   obtain rfl : idom' = idom := hsame rfl
   have hstable := h.of_unchanged hr hs K
   refine ⟨idom', Returns.turn (fun fuel => by rw [idomFixpoint]) (hs.bind ?_),
    hstable.1, fun x hx => (hstable.2 x hx).anti (by omega)⟩
   simpa using Returns.pure idom'
  | true =>
   have hkK : k < K := by
    by_contra hle
    obtain ⟨x, hx, hne⟩ := hdiff rfl
    have hK' : ∀ d b, DominatesUpTo (Edge edges) entry rank k d b →
      Dominates (Edge edges) entry d b := fun d b hd => hK d b (hd.anti (by omega))
    exact hne (h.agree hK' (Nat.le_succ k) hlevel hx)
   obtain ⟨idom'', hr', hlevel'⟩ := ih (K + 1 - (k + 1)) (by omega) hlevel rfl
   refine ⟨idom'', Returns.turn (fun fuel => by rw [idomFixpoint]) (hs.bind ?_), hlevel'⟩
   simpa using hr'

theorem IdomTree.start : IdomTree edges entry rank
  (Function.update (fun _ => none) entry (some entry)) := by
 have honly : ∀ b q, (Function.update (fun _ => none) entry (some entry) :
   Fin n → Option (Fin n)) b = some q → b = entry := by
  grind
 refine ⟨update_self .., fun b hb => ?_, fun b q hne hq => ?_, fun b q hne hq => ?_,
  fun b q hne hq => ?_⟩
 · obtain ⟨q, hq⟩ := isSome_iff_exists.1 hb
   rw [honly b q hq]
   exact Reachable.root
 · exact absurd (honly b q hq) hne
 · exact absurd (honly b q hq) hne
 · exact absurd (honly b q hq) hne

/-- **The fixpoint is reached**, and it is the tree of the immediate dominators. -/
theorem idomFixpoint_returns (hr : Ranked edges entry rank blocks) :
  ∃ idom, Returns (fun fuel => idomFixpoint edges rank blocks fuel (update (fun _ => none) entry (some entry))) idom ∧
   IdomTree edges entry rank idom ∧ ∀ b, Reachable (Edge edges) entry b → b ≠ entry →
    ∃ q, idom b = some q ∧ IsIdom (Edge edges) entry q b := by
 obtain ⟨K, hK⟩ := dominates_of_dominatesUpTo (Edge edges) entry rank
 -- the first pass knows no block yet, and allows no retreating edge
 obtain ⟨⟨idom1, changed⟩, hs, hlevel, hsame, -⟩ := pass_returns hr (k := 0)
  (IdomTree.start : IdomTree edges entry rank _) (by simp)
 obtain ⟨idom, hreturns, hfinal⟩ : ∃ idom, Returns (fun fuel => idomFixpoint edges rank blocks fuel
   (update (fun _ => none) entry (some entry))) idom ∧
   Level edges entry rank K idom := by
  cases changed with
  | true =>
   obtain ⟨idom, h, hl⟩ := hlevel.returns hr hK
   refine ⟨idom, Returns.turn (fun fuel => by rw [idomFixpoint]) (hs.bind ?_), hl⟩
   simpa using h
  | false =>
   -- a single block: the pass is empty
   obtain rfl := hsame rfl
   exact hlevel.returns hr hK
 exact ⟨idom, hreturns, hfinal.1, fun b hb hbe => hfinal.isIdom hK hb hbe⟩

end Tir.Backend
