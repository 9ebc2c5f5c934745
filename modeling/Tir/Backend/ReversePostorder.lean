import Tir.Backend.MachineCfg

/-!
# The depth-first walk ranks the blocks

`depthFirst` ends and lists the blocks reachable from the entry, each once, in the order in which
it leaves them (`depthFirst_returns`). Every block but the entry has a predecessor that is left
later, so reverse postorder is a rank that rises from some predecessor to each block
(`Walked.ascending`), which is all the dominator fixpoint needs of it.

The invariant is about the *finishing order* of a state: the blocks left so far, then those
still open on the stack.
-/

open List Function

namespace Tir.Backend

open Tir.Graph Returns

variable {n : Nat}

def Edge (edges : Fin n → List (Fin n)) (a b : Fin n) : Prop :=
 b ∈ edges a

/-! ## The finishing order -/

/-- The blocks of the entries that finish one. -/
def openBlocks (dfs : List (Fin n × Bool)) : List (Fin n) :=
 (dfs.filter (·.2)).map (·.1)

/-- Every block but the entry has a predecessor further down the list. -/
def Fed (edges : Fin n → List (Fin n)) (entry : Fin n) : List (Fin n) → Prop
 | [] => True
 | b :: rest => (b ≠ entry → ∃ p ∈ rest, Edge edges p b) ∧ Fed edges entry rest

/-- Every block to visit was pushed by one that is open below it. -/
def Pushed (edges : Fin n → List (Fin n)) : List (Fin n × Bool) → Prop
 | [] => True
 | (_, true) :: rest => Pushed edges rest
 | (x, false) :: rest => (∃ p ∈ openBlocks rest, Edge edges p x) ∧ Pushed edges rest

section

variable {edges : Fin n → List (Fin n)} {entry : Fin n}

@[simp] theorem openBlocks_open (b : Fin n) (dfs : List (Fin n × Bool)) :
  openBlocks ((b, true) :: dfs) = b :: openBlocks dfs := by
  simp [openBlocks]

@[simp] theorem openBlocks_visit (b : Fin n) (dfs : List (Fin n × Bool)) :
  openBlocks ((b, false) :: dfs) = openBlocks dfs := by
  simp [openBlocks]

@[simp] theorem openBlocks_push (l : List (Fin n)) (dfs : List (Fin n × Bool)) :
  openBlocks (l.map (fun next => (next, false)) ++ dfs) = openBlocks dfs := by
  induction l with
  | nil => rfl
  | cons x l ih => simpa using ih

theorem Fed.exists_later {l s t : List (Fin n)} {b : Fin n} (h : Fed edges entry l)
  (hl : l = s ++ b :: t) (hb : b ≠ entry) : ∃ p ∈ t, Edge edges p b := by
 induction s generalizing l with
 | nil =>
  subst hl
  exact h.1 hb
 | cons x s ih =>
  subst hl
  exact ih h.2 rfl

theorem Fed.insert {o rest : List (Fin n)} {b : Fin n} (h : Fed edges entry (o ++ rest))
  (hb : ∃ p ∈ rest, Edge edges p b) : Fed edges entry (o ++ b :: rest) := by
 induction o with
 | nil => exact ⟨fun _ => hb, h⟩
 | cons x o ih =>
  refine ⟨fun hx => ?_, ih h.2⟩
  obtain ⟨p, hp, he⟩ := h.1 hx
  refine ⟨p, ?_, he⟩
  rcases mem_append.1 hp with hp | hp
  · exact mem_append_left _ hp
  · exact mem_append_right _ (.tail _ hp)

theorem Pushed.push {b : Fin n} {dfs : List (Fin n × Bool)} (h : Pushed edges dfs)
  {l : List (Fin n)} (hl : ∀ x ∈ l, Edge edges b x) :
  Pushed edges (l.map (fun next => (next, false)) ++ (b, true) :: dfs) := by
 induction l with
 | nil => exact h
 | cons x l ih =>
  refine ⟨⟨b, by simp, hl x mem_cons_self⟩, ih fun y hy => ?_⟩
  exact hl y (.tail _ hy)

end

/-! ## The walk -/

/-- What holds before every turn of the walk, once the entry is open. -/
structure Walking (edges : Fin n → List (Fin n)) (entry : Fin n) (seen : Fin n → Bool)
  (dfs : List (Fin n × Bool)) (order : List (Fin n)) : Prop where
 nodup : (order ++ openBlocks dfs).Nodup
 seen_iff : ∀ b, seen b = true ↔ b ∈ order ++ openBlocks dfs
 last : (order ++ openBlocks dfs).getLast? = some entry
 reachable : ∀ x ∈ dfs, Reachable (Edge edges) entry x.1
 listed : ∀ b ∈ order, Reachable (Edge edges) entry b
 closed : ∀ b, seen b = true → ∀ s ∈ edges b, seen s = true ∨ (s, false) ∈ dfs
 pushed : Pushed edges dfs
 fed : Fed edges entry (order ++ openBlocks dfs)

/-- What the walk leaves: the reachable blocks, each before some predecessor of its own. -/
structure Walked (edges : Fin n → List (Fin n)) (entry : Fin n) (seen : Fin n → Bool)
  (order : List (Fin n)) : Prop where
 nodup : order.Nodup
 seen_iff : ∀ b, seen b = true ↔ b ∈ order
 mem_iff : ∀ b, b ∈ order ↔ Reachable (Edge edges) entry b
 last : order.getLast? = some entry
 fed : Fed edges entry order

section

variable {edges : Fin n → List (Fin n)} {entry : Fin n} {seen : Fin n → Bool}
 {dfs : List (Fin n × Bool)} {order : List (Fin n)} {block : Fin n}

theorem Walking.start : Walking edges entry (update (fun _ => false) entry true)
  ((edges entry).map (fun next => (next, false)) ++ [(entry, true)]) [] := by
 have hF : ([] : List (Fin n)) ++ openBlocks
   ((edges entry).map (fun next => (next, false)) ++ [(entry, true)]) = [entry] := by
  rw [openBlocks_push]
  rfl
 refine ⟨?_, ?_, ?_, ?_, by simp, ?_, ?_, ?_⟩
 · grind
 · grind
 · rw [hF]
   rfl
 · intro x hx
   rcases mem_append.1 hx with hx | hx
   · obtain ⟨y, hy, rfl⟩ := mem_map.1 hx
     exact Reachable.root.step hy
   grind [Reachable.root]
 · grind
 · have hnil : Pushed edges [] := trivial
   exact hnil.push fun x hx => hx
 · rw [hF]
   exact ⟨fun h => absurd rfl h, trivial⟩

theorem Walking.finish (h : Walking edges entry seen ((block, true) :: dfs) order) :
  Walking edges entry seen dfs (order ++ [block]) := by
 have hF : order ++ [block] ++ openBlocks dfs = order ++ openBlocks ((block, true) :: dfs) := by
  simp
 refine ⟨?_, ?_, ?_, ?_, ?_, ?_, h.pushed, ?_⟩
 · rw [hF]
   exact h.nodup
 · rw [hF]
   exact h.seen_iff
 · rw [hF]
   exact h.last
 · exact fun x hx => h.reachable x (.tail _ hx)
 · intro b hb
   rcases mem_append.1 hb with hb | hb
   · exact h.listed b hb
   · obtain rfl := mem_singleton.1 hb
     exact h.reachable (b, true) (.head _)
 · intro b hb s hs
   rcases h.closed b hb s hs with h' | h'
   · exact .inl h'
   · exact .inr (by simpa using h')
 · rw [hF]
   exact h.fed

section

variable (h : Walking edges entry seen ((block, false) :: dfs) order)

include h

theorem Walking.skip
  (hs : seen block = true) : Walking edges entry seen dfs order := by
 refine ⟨by simpa using h.nodup, by simpa using h.seen_iff, by simpa using h.last, ?_, h.listed,
  ?_, h.pushed.2, by simpa using h.fed⟩
 · exact fun x hx => h.reachable x (.tail _ hx)
 · intro b hb s hsb
   rcases h.closed b hb s hsb with h' | h'
   · exact .inl h'
   grind

/-- A new block is opened, before the blocks that are open below it. -/
theorem Walking.visit (hs : seen block = false) : Walking edges entry (update seen block true)
   ((edges block).map (fun next => (next, false)) ++ (block, true) :: dfs) order := by
 have hnot : block ∉ order ++ openBlocks dfs := by
  intro hmem
  have := (h.seen_iff block).2 (by simpa using hmem)
  simp [hs] at this
 have hnd : (order ++ openBlocks dfs).Nodup := by simpa using h.nodup
 have hreach : Reachable (Edge edges) entry block := h.reachable (block, false) (.head _)
 obtain ⟨p, hp, hpe⟩ := h.pushed.1
 refine ⟨?_, ?_, ?_, ?_, h.listed, ?_, h.pushed.2.push fun x hx => hx, ?_⟩
 · rw [openBlocks_push, openBlocks_open]
   exact nodup_middle.2 (nodup_cons.2 ⟨hnot, hnd⟩)
 · intro b
   rw [openBlocks_push, openBlocks_open]
   have hb := h.seen_iff b
   rw [openBlocks_visit] at hb
   by_cases hbb : b = block
   · simp [hbb]
   grind
 · rw [openBlocks_push, openBlocks_open]
   -- the block is not the last one: its pusher is open below it
   have hlast : (order ++ openBlocks dfs).getLast? = some entry := by simpa using h.last
   obtain ⟨q, rest, hq⟩ : ∃ q rest, openBlocks dfs = q :: rest := by
    cases hd : openBlocks dfs with
    | nil => simp [hd] at hp
    | cons q rest => exact ⟨q, rest, rfl⟩
   simp_all
 · intro x hx
   rcases mem_append.1 hx with hx | hx
   · obtain ⟨y, hy, rfl⟩ := mem_map.1 hx
     exact hreach.step hy
   · rcases mem_cons.1 hx with rfl | hx
     · exact hreach
     · exact h.reachable x (.tail _ hx)
 · intro b hb s hsb
   by_cases hbb : b = block
   · grind
   · rw [update_of_ne hbb] at hb
     by_cases hsbl : s = block
     · exact .inl (by simp [hsbl])
     · rw [update_of_ne hsbl]
       rcases h.closed b hb s hsb with h' | h'
       · exact .inl h'
       grind
 · rw [openBlocks_push, openBlocks_open]
   exact Fed.insert (by simpa using h.fed) ⟨p, hp, hpe⟩

end

/-- With an empty stack the walk has listed everything that can be reached. -/
theorem Walking.done (h : Walking edges entry seen [] order) : Walked edges entry seen order := by
 have hF : order ++ openBlocks ([] : List (Fin n × Bool)) = order := by simp [openBlocks]
 have hseen : ∀ b, seen b = true ↔ b ∈ order := by simpa [hF] using h.seen_iff
 refine ⟨by simpa [hF] using h.nodup, hseen, fun b => ⟨h.listed b, fun hb => ?_⟩,
  by simpa [hF] using h.last, by simpa [hF] using h.fed⟩
 refine Reachable.induction (P := fun b => b ∈ order) ?_ ?_ hb
 · have := h.last
   grind
 · intro a b _ ih he
   rcases h.closed a ((hseen a).2 ih) b he with h' | h'
   · exact (hseen b).1 h'
   · simp at h'

/-- The number of blocks not seen yet. -/
def unseen (seen : Fin n → Bool) : Nat :=
 (Finset.univ.filter fun b => seen b = false).card

theorem unseen_update (hs : seen block = false) :
  unseen (update seen block true) < unseen seen := by
 refine Finset.card_lt_card (Finset.ssubset_iff_of_subset ?_ |>.2 ⟨block, ?_, ?_⟩)
 · intro b hb
   simp only [Finset.mem_filter, Finset.mem_univ, true_and] at hb ⊢
   by_cases hbb : b = block
   · rw [hbb]
     exact hs
   · rwa [update_of_ne hbb] at hb
 · simpa using hs
 · simp

theorem Walking.returns (h : Walking edges entry seen dfs order) :
  ∃ seen' order', Returns (fun fuel => depthFirst edges fuel seen dfs order) (seen', order') ∧
   Walked edges entry seen' order' := by
 -- every turn sees a block or shortens the stack
 induction hm : unseen seen using Nat.strong_induction_on generalizing seen dfs order with
 | _ m ihSeen =>
  induction dfs generalizing order with
  | nil => exact ⟨seen, order, turn (fun _ => rfl) (pure _), h.done⟩
  | cons x dfs ihStack =>
   obtain ⟨block, finish⟩ := x
   cases finish with
   | true =>
    obtain ⟨seen', order', hr, hw⟩ := ihStack h.finish
    exact ⟨seen', order', turn (fun _ => by rw [depthFirst]) hr, hw⟩
   | false =>
    cases hs : seen block with
    | true =>
     obtain ⟨seen', order', hr, hw⟩ := ihStack (h.skip hs)
     exact ⟨seen', order',
      turn (fun _ => by rw [depthFirst, if_pos hs]) hr, hw⟩
    | false =>
     have hlt := unseen_update hs
     obtain ⟨seen', order', hr, hw⟩ := ihSeen _ (by omega) (h.visit hs) rfl
     refine ⟨seen', order', turn (fun _ => ?_) hr, hw⟩
     rw [depthFirst, if_neg (by simp [hs])]

/-- **The depth-first walk ends** and lists the reachable blocks. -/
theorem depthFirst_returns (edges : Fin n → List (Fin n)) (entry : Fin n) : ∃ seen order,
   Returns (fun fuel => depthFirst edges fuel (fun _ => false) [(entry, false)] [])
    (seen, order) ∧ Walked edges entry seen order := by
 obtain ⟨seen, order, hr, hw⟩ := (Walking.start : Walking edges entry _ _ _).returns
 exact ⟨seen, order, turn (fun _ => by simp [depthFirst]) hr, hw⟩

end

/-! ## The ranks -/

theorem rankFold_apply (l : List (Fin n)) (k : Nat) (rank : Fin n → Nat) (hl : l.Nodup) (b : Fin n) :
  ((l.zipIdx k).foldl (fun rank block => update rank block.1 block.2) rank) b =
    if b ∈ l then k + l.idxOf b else rank b := by
 induction l generalizing k rank with
 | nil => simp
 | cons x l ih =>
  obtain ⟨hx, hl⟩ := nodup_cons.1 hl
  rw [zipIdx_cons, foldl_cons, ih (k + 1) _ hl]
  by_cases hbx : b = x
  · subst hbx
    simp [hx]
  grind

theorem rankOf_of_mem {order : List (Fin n)} (h : order.Nodup) {b : Fin n} (hb : b ∈ order) :
  rankOf order b = order.idxOf b := by
 rw [rankOf, rankFold_apply order 0 _ h b, if_pos hb, zero_add]

variable {edges : Fin n → List (Fin n)} {entry : Fin n} {seen : Fin n → Bool} {order : List (Fin n)}

section

variable (h : Walked edges entry seen order)

include h

/-- In reverse postorder some predecessor of each block comes before it. -/
theorem Walked.ascending :
  Ascending (Edge edges) entry (rankOf order.reverse) := by
 intro b hb hne
 obtain ⟨s, t, ht⟩ := append_of_mem ((h.mem_iff b).2 hb)
 obtain ⟨p, hp, he⟩ := h.fed.exists_later ht hne
 have hpo : p ∈ order := by
  grind
 have hnd : order.reverse.Nodup := nodup_reverse.2 h.nodup
 refine ⟨p, (h.mem_iff p).1 hpo, he, ?_⟩
 rw [rankOf_of_mem hnd (mem_reverse.2 hpo),
  rankOf_of_mem hnd (mem_reverse.2 ((h.mem_iff b).2 hb))]
 have hrev : order.reverse = t.reverse ++ b :: s.reverse := by simp [ht]
 have hbt : b ∉ t.reverse := by
  grind
 have hpt : p ∈ t.reverse := mem_reverse.2 hp
 rw [hrev, idxOf_append_of_mem hpt, idxOf_append_of_notMem hbt]
 grind

theorem Walked.rank_injective {a b : Fin n} (ha : Reachable (Edge edges) entry a) (hb : Reachable (Edge edges) entry b)
  (hab : rankOf order.reverse a = rankOf order.reverse b) : a = b := by
 have hnd : order.reverse.Nodup := nodup_reverse.2 h.nodup
 have ha' : a ∈ order.reverse := mem_reverse.2 ((h.mem_iff a).2 ha)
 have hb' : b ∈ order.reverse := mem_reverse.2 ((h.mem_iff b).2 hb)
 rw [rankOf_of_mem hnd ha', rankOf_of_mem hnd hb'] at hab
 exact (idxOf_inj ha').1 hab

/-- The order of the pass: the entry, then the other reachable blocks. -/
theorem Walked.order_eq :
  order.reverse = entry :: order.reverse.tail := by
 have hhead : order.reverse.head? = some entry := by
  rw [head?_reverse]
  exact h.last
 exact eq_cons_of_mem_head? hhead

end

end Tir.Backend
