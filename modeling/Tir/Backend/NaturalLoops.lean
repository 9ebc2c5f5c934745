import Mathlib.Data.Set.Card
import Tir.Backend.DominatorTree

/-!
# The natural loops of a machine function

`Dominance.loops` and `loopDepths` walk back from the latches of each header, in reverse
postorder. The walk of one header marks exactly its natural loop (`markLoop_returns`). Over the
headers passed so far, the mark of a block is the last header whose loop holds it
(`LoopMarks.step`). Natural loops that share a block are nested, the outer header first, so that
the chain of enclosing headers lists every loop around a block
(`LoopMarks.outwards_returns`). The whole of it is `dominance_correct`.
-/

open List Option Function

namespace Tir.Backend

open Tir.Graph Returns Dominance Loops

variable {n : Nat} {edges : Fin n → List (Fin n)} {entry : Fin n} {d : Dominance n}

/-! ## The walk of one header -/

/-- What holds between two turns of the walk back from the latches. -/
structure Marking (edges : Fin n → List (Fin n)) (entry header : Fin n)
  (innermost : Fin n → Option (Fin n)) (work : List (Fin n)) : Prop where
 header_marked : innermost header = some header
 marked : ∀ b, innermost b = some header → InLoop (Edge edges) entry header b
 work_mem : ∀ b ∈ work, InLoop (Edge edges) entry header b
 closed : ∀ y, innermost y = some header → y ≠ header → ∀ x, Edge edges x y →
  Reachable (Edge edges) entry x → innermost x = some header ∨ x ∈ work

variable {block header : Fin n} {innermost : Fin n → Option (Fin n)} {work : List (Fin n)}

theorem Marking.skip (hm : Marking edges entry header innermost (block :: work))
  (hb : innermost block = some header) : Marking edges entry header innermost work := by
 refine ⟨hm.header_marked, hm.marked, fun b hw => hm.work_mem b (.tail _ hw), ?_⟩
 intro y hy hne x he hx
 rcases hm.closed y hy hne x he hx with h | h
 · exact .inl h
 grind

theorem Marking.mark (h : d.Correct edges entry) (hm : Marking edges entry header innermost (block :: work))
  (hb : innermost block ≠ some header) : Marking edges entry header (update innermost block (some header))
   (((d.predecessors block).filter d.seen).reverse ++ work) := by
 have hbh : block ≠ header := by
  rintro rfl
  exact hb hm.header_marked
 have hblk := hm.work_mem block (.head _)
 have hpred : ∀ x, x ∈ ((d.predecessors block).filter d.seen).reverse ↔
   Edge edges x block ∧ Reachable (Edge edges) entry x := by
  intro x
  rw [mem_reverse, mem_filter, h.mem_predecessors, h.seen_iff]
 refine ⟨?_, ?_, ?_, ?_⟩
 · rw [update_of_ne (Ne.symm hbh)]
   exact hm.header_marked
 · intro b hmark
   by_cases hbb : b = block
   · rw [hbb]
     exact hblk
   · rw [update_of_ne hbb] at hmark
     exact hm.marked b hmark
 · intro b hw
   rcases mem_append.1 hw with hw | hw
   · obtain ⟨he, hr⟩ := (hpred b).1 hw
     exact hblk.pred hbh he hr
   · exact hm.work_mem b (.tail _ hw)
 · intro y hy hne x he hx
   by_cases hxb : x = block
   · exact .inl (by rw [hxb, update_self])
   · rw [update_of_ne hxb]
     by_cases hyb : y = block
     · grind
     · rw [update_of_ne hyb] at hy
       rcases hm.closed y hy hne x he hx with h' | h'
       · exact .inl h'
       grind

/-- The number of blocks without the mark of the header. -/
def unmarked (header : Fin n) (innermost : Fin n → Option (Fin n)) : Nat :=
 (Finset.univ.filter fun b => innermost b ≠ some header).card

theorem unmarked_update (hb : innermost block ≠ some header) :
  unmarked header (update innermost block (some header)) < unmarked header innermost := by
 refine Finset.card_lt_card (Finset.ssubset_iff_of_subset ?_ |>.2 ⟨block, ?_, ?_⟩)
 · intro b hmem
   simp only [Finset.mem_filter, Finset.mem_univ, true_and] at hmem ⊢
   by_cases hbb : b = block
   · rw [hbb]
     exact hb
   · rwa [update_of_ne hbb] at hmem
 · simpa using hb
 · simp

theorem Marking.returns (h : d.Correct edges entry) (hm : Marking edges entry header innermost work) :
  ∃ innermost', Returns (fun fuel => d.markLoop header fuel innermost work) innermost' ∧
   Marking edges entry header innermost' [] ∧ (∀ b, innermost b = some header → innermost' b = some header) ∧
   (∀ b ∈ work, innermost' b = some header) ∧
   ∀ b, innermost' b ≠ some header → innermost' b = innermost b := by
 -- every turn marks a block or shortens the stack
 induction hk : unmarked header innermost using Nat.strong_induction_on
  generalizing innermost work with
 | _ k ihMark =>
  induction work with
  | nil =>
   exact ⟨innermost, turn (fun _ => by rw [markLoop]) (pure _), hm,
    fun _ hb => hb, by simp, fun _ _ => rfl⟩
  | cons block work ihWork =>
   by_cases hb : innermost block = some header
   · obtain ⟨innermost', hr, hm', hkeep, hwork, hframe⟩ := ihWork (hm.skip hb)
     refine ⟨innermost', turn (fun _ => ?_) hr, hm', hkeep, fun b hw => ?_, hframe⟩
     · rw [markLoop, if_pos hb]
     grind
   · have hlt := unmarked_update hb
     obtain ⟨innermost', hr, hm', hkeep, hwork, hframe⟩ :=
      ihMark _ (by omega) (hm.mark h hb) rfl
     have hblk : innermost' block = some header := hkeep block (by simp)
     refine ⟨innermost', turn (fun _ => ?_) hr, hm', fun b hmark => ?_,
      fun b hw => ?_, fun b hne => ?_⟩
     · rw [markLoop, if_neg hb]
     · by_cases hbb : b = block
       · grind
       · exact hkeep b (by rwa [update_of_ne hbb])
     · rcases mem_cons.1 hw with rfl | hw
       · exact hblk
       · exact hwork b (mem_append_right _ hw)
     grind

/-- A finished walk that began with every latch has marked the whole loop. -/
theorem Marking.complete (hm : Marking edges entry header innermost [])
  (hlatch : ∀ l, IsLatch (Edge edges) entry header l → innermost l = some header) {b : Fin n}
  (hb : InLoop (Edge edges) entry header b) : innermost b = some header := by
 obtain ⟨l, hl, rfl | ⟨-, hrb, hpath⟩⟩ := hb
 · exact hm.header_marked
 · induction hpath using Relation.ReflTransGen.head_induction_on with
   | refl => exact hlatch l hl
   | @head x y he hrest ih =>
    have hy := ih (hrb.step he.1)
    simpa using hm.closed y hy he.2 x he.1 hrb

/-- The walk from the latches of a header marks its natural loop and nothing else. -/
theorem markLoop_returns (h : d.Correct edges entry) (hfresh : ∀ b, innermost b ≠ some header) (hwork : ∀ l, l ∈ work ↔ IsLatch (Edge edges) entry header l)
  {latch : Fin n} (hlatch : latch ∈ work) : ∃ innermost', Returns (fun fuel => d.markLoop header fuel
    (update innermost header (some header)) work.reverse) innermost' ∧
   (∀ b, InLoop (Edge edges) entry header b → innermost' b = some header) ∧
   ∀ b, ¬ InLoop (Edge edges) entry header b → innermost' b = innermost b := by
 have hhead : InLoop (Edge edges) entry header header :=
  (InLoop.of_latch ((hwork latch).1 hlatch)).header
 have honly : ∀ b, update innermost header (some header) b = some header →
   b = header := by
  grind
 have hstart : Marking edges entry header (update innermost header (some header))
   work.reverse := by
  refine ⟨update_self .., fun b hb => ?_, fun b hb => ?_, fun y hy hne => ?_⟩
  · rw [honly b hb]
    exact hhead
  · exact InLoop.of_latch ((hwork b).1 (mem_reverse.1 hb))
  · exact absurd (honly y hy) hne
 obtain ⟨innermost', hr, hm, -, hmarked, hframe⟩ := hstart.returns h
 refine ⟨innermost', hr, fun b hb => ?_, fun b hb => ?_⟩
 · refine hm.complete (fun l hl => hmarked l ?_) hb
   exact mem_reverse.2 ((hwork l).2 hl)
 · have hbh : b ≠ header := by
    rintro rfl
    exact hb hhead
   rw [hframe b fun hmark => hb (hm.marked b hmark), update_of_ne hbh]

/-- The latches of a header are found among its predecessors. -/
theorem latches_returns (h : d.Correct edges entry) (hr : Reachable (Edge edges) entry header) :
  ∃ work, Returns (fun fuel => d.latches fuel header) work ∧
   ∀ l, l ∈ work ↔ IsLatch (Edge edges) entry header l := by
 obtain ⟨work, hw, hmem⟩ := filterM
  (fun fuel latch => if d.seen latch then d.dominates fuel header latch else some false)
  (P := fun l => Reachable (Edge edges) entry l ∧ Dominates (Edge edges) entry header l)
  (l := d.predecessors header) (by
   intro l _
   by_cases hl : Reachable (Edge edges) entry l
   · obtain ⟨v, hv, hdom⟩ := h.dominates_returns hr hl
     refine ⟨v, hv.congr fun fuel => if_pos ((h.seen_iff l).2 hl), ?_⟩
     grind
   · have hseen : ¬ d.seen l = true := fun hs => hl ((h.seen_iff l).1 hs)
     refine ⟨false, (pure false).congr fun fuel => if_neg hseen, ?_⟩
     exact ⟨nofun, fun hd => absurd hd.1 hl⟩)
 refine ⟨work, hw, fun l => ?_⟩
 rw [hmem, h.mem_predecessors]
 exact ⟨fun hl => ⟨hl.2.1, hl.1, hl.2.2⟩, fun hl => ⟨hl.2.1, hl.1, hl.2.2⟩⟩

/-! ## All headers -/

section

open Classical in
/-- Of the given headers, those whose loop holds the block. -/
noncomputable def loopsOf (edges : Fin n → List (Fin n)) (entry : Fin n) (headers : List (Fin n))
  (b : Fin n) : List (Fin n) :=
 headers.filter fun header => InLoop (Edge edges) entry header b

variable {b x : Fin n} {headers pre work rest : List (Fin n)} {innermost : Fin n → Option (Fin n)} {loops : Loops n}

theorem mem_loopsOf :
  x ∈ loopsOf edges entry headers b ↔ x ∈ headers ∧ InLoop (Edge edges) entry x b := by
 simp [loopsOf]

theorem loopsOf_append (s t : List (Fin n)) (b : Fin n) :
  loopsOf edges entry (s ++ t) b = loopsOf edges entry s b ++ loopsOf edges entry t b :=
 filter_append ..

theorem loopsOf_cons_of_mem (hx : InLoop (Edge edges) entry x b)
  (t : List (Fin n)) : loopsOf edges entry (x :: t) b = x :: loopsOf edges entry t b := by
 simp [loopsOf, hx]

theorem loopsOf_snoc_of_mem (hx : InLoop (Edge edges) entry x b)
  (s : List (Fin n)) : loopsOf edges entry (s ++ [x]) b = loopsOf edges entry s b ++ [x] := by
 rw [loopsOf_append, loopsOf_cons_of_mem hx]
 rfl

theorem loopsOf_snoc_of_not_mem (hx : ¬ InLoop (Edge edges) entry x b)
  (s : List (Fin n)) : loopsOf edges entry (s ++ [x]) b = loopsOf edges entry s b := by
 rw [loopsOf_append]
 simp [loopsOf, hx]

theorem loopsOf_congr {a : Fin n} (h : ∀ x ∈ headers, InLoop (Edge edges) entry x a ↔ InLoop (Edge edges) entry x b) :
  loopsOf edges entry headers a = loopsOf edges entry headers b := by
 refine filter_congr fun x hx => ?_
 grind

/-- The marks of a block, over the headers passed so far: the last one whose loop holds it. -/
def InnermostOf (edges : Fin n → List (Fin n)) (entry : Fin n) (pre : List (Fin n))
  (innermost : Fin n → Option (Fin n)) : Prop :=
 ∀ b, innermost b = (loopsOf edges entry pre b).getLast?

theorem InnermostOf.fresh (hi : InnermostOf edges entry pre innermost) (hx : x ∉ pre) (b : Fin n) :
  innermost b ≠ some x := by
 intro hb
 rw [hi b] at hb
 exact hx (mem_loopsOf.1 (mem_of_getLast? hb)).1

/-- The walk of the next header moves the marks on by one header. -/
theorem InnermostOf.snoc {innermost' : Fin n → Option (Fin n)} (hi : InnermostOf edges entry pre innermost)
  (hin : ∀ b, InLoop (Edge edges) entry x b → innermost' b = some x)
  (hout : ∀ b, ¬ InLoop (Edge edges) entry x b → innermost' b = innermost b) :
  InnermostOf edges entry (pre ++ [x]) innermost' := by
 intro b
 by_cases hb : InLoop (Edge edges) entry x b
 · rw [hin b hb, loopsOf_snoc_of_mem hb, getLast?_concat]
 · rw [hout b hb, loopsOf_snoc_of_not_mem hb, hi b]

/-- The marks and the enclosing headers, over the headers passed so far. -/
structure LoopMarks (edges : Fin n → List (Fin n)) (entry : Fin n) (pre : List (Fin n)) (loops : Loops n) : Prop where
 innermost : InnermostOf edges entry pre loops.innermost
 enclosing : ∀ s x t, pre = s ++ x :: t → InLoop (Edge edges) entry x x →
  loops.enclosing x = (loopsOf edges entry s x).getLast?

theorem not_inLoop_of_latches (hempty : work = [])
  (hwork : ∀ l, l ∈ work ↔ IsLatch (Edge edges) entry x l) (b : Fin n) :
  ¬ InLoop (Edge edges) entry x b := by
 rintro ⟨l, hl, -⟩
 grind

theorem LoopMarks.step (h : d.Correct edges entry) (ho : d.order = pre ++ x :: rest)
  (hl : LoopMarks edges entry pre loops) : ∃ loops', Returns (fun fuel => d.loopsStep fuel loops x) loops' ∧
   LoopMarks edges entry (pre ++ [x]) loops' := by
 have hx : Reachable (Edge edges) entry x := (h.mem_order x).1 (by simp [ho])
 have hxpre : x ∉ pre := fun hmem => by
  have hnd := h.order_nodup
  grind
 obtain ⟨work, hw, hwork⟩ := latches_returns h hx
 cases hwk : work with
 | nil =>
  have hnone := not_inLoop_of_latches hwk hwork
  subst hwk
  refine ⟨loops, hw.bind (pure loops), ?_, fun s y t hs hy => ?_⟩
  · exact hl.innermost.snoc (fun b hb => absurd hb (hnone b)) fun _ _ => rfl
  · rcases eq_nil_or_concat t with rfl | ⟨t', z, rfl⟩
    · simp_all
    · have hs' : pre ++ [x] = (s ++ y :: t') ++ [z] := by simpa using hs
      obtain ⟨hs'', -⟩ := append_inj' hs' rfl
      exact hl.enclosing s y t' hs'' hy
 | cons l0 ls =>
  have hl0 : l0 ∈ work := by simp [hwk]
  obtain ⟨innermost', hr, hin, hout⟩ :=
   markLoop_returns h (hl.innermost.fresh hxpre) hwork hl0
  refine ⟨{ innermost := innermost'
            enclosing := update loops.enclosing x (loops.innermost x) }, ?_, ?_, ?_⟩
  · have hstep := hr.bind (g := fun _ innermost => some (Loops.mk innermost
     (update loops.enclosing x (loops.innermost x)))) (Returns.pure _)
    refine hw.bind (hstep.congr fun fuel => ?_)
    grind
  · exact hl.innermost.snoc hin hout
  · intro s y t hs hy
    rcases eq_nil_or_concat t with rfl | ⟨t', z, rfl⟩
    · -- the header of this turn: the mark it had before
      obtain ⟨rfl, hxy⟩ := append_inj' hs rfl
      obtain rfl : x = y := by simpa using hxy
      show update loops.enclosing x (loops.innermost x) x = _
      rw [update_self, hl.innermost x]
    · have hs' : pre ++ [x] = (s ++ y :: t') ++ [z] := by simpa using hs
      obtain ⟨rfl, -⟩ := append_inj' hs' rfl
      have hyx : y ≠ x := by
       grind
      show update loops.enclosing x (loops.innermost x) y = _
      rw [update_of_ne hyx]
      exact hl.enclosing s y t' rfl hy

theorem loops_returns (h : d.Correct edges entry) :
  ∃ loops, Returns (fun fuel => d.loops fuel) loops ∧ LoopMarks edges entry d.order loops := by
 have hstart : LoopMarks edges entry []
   { innermost := fun _ => none, enclosing := fun _ => none } := by
  refine ⟨fun _ => rfl, fun s x t hs => ?_⟩
  simp at hs
 exact foldlM d.loopsStep (LoopMarks edges entry)
  (fun pre x rest loops ho hl => hl.step h ho) hstart

/-! ## The chain of the headers around a block -/

section

variable (h : d.Correct edges entry)

include h

/-- Of two headers around one block, the one of lower rank has the outer loop. -/
theorem inLoop_header_iff {y : Fin n} (hy : InLoop (Edge edges) entry y b) (hlt : d.rank x < d.rank y) :
  InLoop (Edge edges) entry x y ↔ InLoop (Edge edges) entry x b := by
 have hxy : x ≠ y := by
  rintro rfl
  omega
 constructor
 · intro hx
   exact hx.subset hy.header hx.dominates hxy hy
 · intro hx
   refine hx.header_mem hy ?_ hxy
   rcases hx.dominates.comparable hy.dominates hx.reachable with hdom | hdom
   · exact hdom
   · have := hdom.rank_le h.ranked.ascending hx.header.reachable
     omega

/-- The headers around a block, from one of them outwards. -/
theorem LoopMarks.outwards_returns (hl : LoopMarks edges entry d.order loops) {s t : List (Fin n)}
  (hs : loopsOf edges entry d.order b = s ++ t) :
  Returns (fun fuel => loops.outwards fuel s.getLast?) s.reverse := by
 induction s using List.reverseRecOn generalizing t with
 | nil => exact turn (fun _ => rfl) (pure [])
 | append_singleton s x ih =>
  have hxmem : x ∈ loopsOf edges entry d.order b := by simp [hs]
  obtain ⟨hxo, hxb⟩ := mem_loopsOf.1 hxmem
  obtain ⟨pre, post, ho⟩ := append_of_mem hxo
  have hsorted := h.order_sorted
  rw [ho, pairwise_append] at hsorted
  -- the headers listed before `x` are the loops around `x`
  have hbef : loopsOf edges entry pre x = loopsOf edges entry pre b := by
   grind [loopsOf_congr, inLoop_header_iff]
  have hsplit : loopsOf edges entry pre b = s := by
   have hboth : loopsOf edges entry pre b ++ x :: loopsOf edges entry post b = s ++ x :: t := by
    grind [loopsOf_cons_of_mem, loopsOf_append]
   have hxpost : x ∉ loopsOf edges entry post b := by
    intro hmem
    have := (pairwise_cons.1 hsorted.2.1).1 x (mem_loopsOf.1 hmem).1
    omega
   have hxp : x ∉ loopsOf edges entry pre b := by
    grind [mem_loopsOf]
   exact ((append_cons_inj_of_notMem hxp hxpost).1 hboth).1
  have henc : loops.enclosing x = s.getLast? := by
   rw [hl.enclosing pre x post ho hxb.header, hbef, hsplit]
  have hrest := ih (t := x :: t) (by simp [hs])
  rw [getLast?_concat, reverse_concat]
  have hbind := hrest.bind (g := fun _ outer => some (x :: outer)) (pure _)
  refine turn (fun fuel => ?_) hbind
  rw [outwards, henc]

theorem LoopMarks.headers_returns (hl : LoopMarks edges entry d.order loops) (b : Fin n) :
  Returns (fun fuel => loops.headers fuel b) (loopsOf edges entry d.order b).reverse := by
 have := hl.outwards_returns h (s := loopsOf edges entry d.order b) (t := [])
  (append_nil _).symm
 refine this.congr fun fuel => ?_
 rw [headers, hl.innermost b]

/-- A header in whose loop a block lies is among the headers of the order. -/
theorem mem_loopsOf_order :
  x ∈ loopsOf edges entry d.order b ↔ InLoop (Edge edges) entry x b := by
 rw [mem_loopsOf, h.mem_order]
 exact ⟨fun hx => hx.2, fun hx => ⟨hx.header.reachable, hx⟩⟩

theorem LoopMarks.contains_returns (hl : LoopMarks edges entry d.order loops) (x b : Fin n) :
  ∃ v, Returns (fun fuel => loops.contains fuel x b) v ∧
   (v = true ↔ InLoop (Edge edges) entry x b) := by
 refine ⟨_, (hl.headers_returns h b).bind (pure _), ?_⟩
 rw [List.any_eq_true, ← mem_loopsOf_order h]
 constructor
 · grind
 · exact fun hx => ⟨x, mem_reverse.2 hx, decide_eq_true rfl⟩

/-- The mark of a block is the header of the smallest loop around it. -/
theorem LoopMarks.header_iff (hl : LoopMarks edges entry d.order loops) (b x : Fin n) :
  loops.header b = some x ↔ InLoop (Edge edges) entry x b ∧
   ∀ y, InLoop (Edge edges) entry y b → ∀ c, InLoop (Edge edges) entry x c →
    InLoop (Edge edges) entry y c := by
 -- the last header in the order lies in every other loop around the block
 have hlast : ∀ z, loops.header b = some z → InLoop (Edge edges) entry z b ∧
   ∀ y, InLoop (Edge edges) entry y b → ∀ c, InLoop (Edge edges) entry z c →
    InLoop (Edge edges) entry y c := by
  intro z hz
  rw [header, hl.innermost b] at hz
  obtain ⟨s, hs⟩ := getLast?_eq_some_iff.1 hz
  have hzb : InLoop (Edge edges) entry z b := (mem_loopsOf_order h).1 (by simp [hs])
  refine ⟨hzb, fun y hy c hc => ?_⟩
  by_cases hyz : y = z
  · rw [hyz]
    exact hc
  · have hlt : d.rank y < d.rank z := by
     have hymem : y ∈ s ++ [z] := hs ▸ (mem_loopsOf_order h).2 hy
     have hsorted : (s ++ [z]).Pairwise fun a b => d.rank a < d.rank b :=
      hs ▸ h.order_sorted.filter _
     rcases mem_append.1 hymem with hys | hyz'
     · exact (pairwise_append.1 hsorted).2.2 y hys z (mem_singleton.2 rfl)
     · exact absurd (mem_singleton.1 hyz') hyz
    exact hy.subset hzb ((inLoop_header_iff h hzb hlt).2 hy).dominates hyz hc
 refine ⟨hlast x, fun ⟨hx, hmin⟩ => ?_⟩
 obtain ⟨z, hz⟩ : ∃ z, loops.header b = some z := by
  rw [header, hl.innermost b]
  cases hlo : loopsOf edges entry d.order b with
  | nil =>
   have := (mem_loopsOf_order h).2 hx
   simp [hlo] at this
  | cons y ys => exact ⟨_, getLast?_eq_some_getLast (cons_ne_nil y ys)⟩
 obtain ⟨hzb, hzmin⟩ := hlast z hz
 -- two smallest loops have one header
 have hzx : InLoop (Edge edges) entry z x := hmin z hzb x hx.header
 have hxz : InLoop (Edge edges) entry x z := hzmin x hx z hzb.header
 rw [hz, hzx.dominates.antisymm hxz.dominates hx.header.reachable]

end

/-! ## The depths -/

theorem markLoop_keeps {header : Fin n} {fuel : Nat} {visited visited' : Fin n → Option (Fin n)} (h : d.markLoop header fuel visited work = some visited')
  (hb : visited b = some header) : visited' b = some header := by
 induction fuel generalizing visited work with
 | zero => simp [markLoop] at h
 | succ fuel ih =>
  cases work with
  | nil =>
   simp only [markLoop, some.injEq] at h
   rw [← h]
   exact hb
  | cons block work =>
   rw [markLoop] at h
   split at h
   · exact ih h hb
   grind

/-- `loopDepths` visits what `loops` marks, and counts each block the first time. -/
theorem countLoop_eq (header : Fin n) (fuel : Nat) (visited : Fin n → Option (Fin n))
  (depths : Fin n → Nat) (work : List (Fin n)) : d.countLoop header fuel visited depths work =
   (d.markLoop header fuel visited work).map fun visited' =>
    (visited', fun b => depths b +
     if visited' b = some header ∧ visited b ≠ some header then 1 else 0) := by
 induction fuel generalizing visited depths work with
 | zero => rfl
 | succ fuel ih =>
  cases work with
  | nil =>
   simp only [countLoop, markLoop, map_some, some.injEq,
    Prod.mk.injEq, true_and]
   funext b
   by_cases hb : visited b = some header
   · simp [hb]
   · simp [hb]
  | cons block work =>
   rw [countLoop, markLoop]
   by_cases hblk : visited block = some header
   · rw [if_pos hblk, if_pos hblk, ih]
   · rw [if_neg hblk, if_neg hblk, ih]
     refine Option.map_congr fun visited' hmark => ?_
     refine Prod.ext rfl (funext fun b => ?_)
     by_cases hbb : b = block
     · subst hbb
       have hin := markLoop_keeps hmark (b := b) (by rw [update_self])
       simp [hin, hblk]
     · simp [update_of_ne hbb]

/-- The visits and the depths, over the headers passed so far. -/
structure LoopCounts (edges : Fin n → List (Fin n)) (entry : Fin n) (pre : List (Fin n))
  (state : (Fin n → Option (Fin n)) × (Fin n → Nat)) : Prop where
 visited : InnermostOf edges entry pre state.1
 depths : ∀ b, state.2 b = (loopsOf edges entry pre b).length

theorem LoopCounts.step (h : d.Correct edges entry)
  {state : (Fin n → Option (Fin n)) × (Fin n → Nat)} (ho : d.order = pre ++ x :: rest)
  (hs : LoopCounts edges entry pre state) : ∃ state', Returns (fun fuel => d.depthsStep fuel state x) state' ∧
   LoopCounts edges entry (pre ++ [x]) state' := by
 have hx : Reachable (Edge edges) entry x := (h.mem_order x).1 (by simp [ho])
 have hxpre : x ∉ pre := fun hmem => by
  have hnd := h.order_nodup
  grind
 obtain ⟨work, hw, hwork⟩ := latches_returns h hx
 cases hwk : work with
 | nil =>
  have hnone := not_inLoop_of_latches hwk hwork
  subst hwk
  refine ⟨state, hw.bind (pure state), ?_, fun b => ?_⟩
  · exact hs.visited.snoc (fun b hb => absurd hb (hnone b)) fun _ _ => rfl
  · rw [loopsOf_snoc_of_not_mem (hnone b), hs.depths b]
 | cons l0 ls =>
  have hl0 : l0 ∈ work := by simp [hwk]
  have hfresh := hs.visited.fresh hxpre
  obtain ⟨visited', hr, hin, hout⟩ := markLoop_returns h hfresh hwork hl0
  have hhead : InLoop (Edge edges) entry x x := (InLoop.of_latch ((hwork l0).1 hl0)).header
  have hbind := hr.bind (g := fun _ visited => some (visited, fun b =>
   update state.2 x (state.2 x + 1) b + if visited b = some x ∧
    update state.1 x (some x) b ≠ some x then 1 else 0)) (pure _)
  refine ⟨_, hw.bind (hbind.congr fun fuel => ?_), hs.visited.snoc hin hout, fun b => ?_⟩
  · have hne : work.isEmpty = false := by simp [hwk]
    simp only [hne, Bool.false_eq_true, if_false, countLoop_eq]
    rw [map_eq_bind]
    rfl
  · -- the header is counted before the walk, the rest of its loop on the way
    by_cases hbx : b = x
    · subst hbx
      rw [loopsOf_snoc_of_mem hhead, length_append, length_singleton, ← hs.depths b]
      simp
    · by_cases hb : InLoop (Edge edges) entry x b
      · rw [loopsOf_snoc_of_mem hb, length_append, length_singleton, ← hs.depths b]
        simp [hbx, hin b hb, hfresh b]
      · rw [loopsOf_snoc_of_not_mem hb, ← hs.depths b]
        simp [hbx, hout b hb, hfresh b]

theorem lookup_zip_getElem {α β : Type} [DecidableEq α] {l : List α} {m : List β} (hl : l.Nodup)
  {i : Nat} (hi : i < l.length) : (l.zip m).lookup l[i] = m[i]? := by
 induction l generalizing m i with
 | nil => simp at hi
 | cons a l ih =>
  obtain ⟨ha, hl⟩ := nodup_cons.1 hl
  cases m with
  | nil => simp
  | cons x m =>
   cases i with
   | zero => simp
   | succ i =>
    have hi' : i < l.length := by simpa using hi
    have hne : l[i] ≠ a := fun heq => ha (heq ▸ getElem_mem hi')
    simpa [lookup_cons, beq_false_of_ne hne] using ih hl hi'

theorem loopsOf_length (h : d.Correct edges entry) (b : Fin n) : (loopsOf edges entry d.order b).length =
   {x | InLoop (Edge edges) entry x b}.ncard := by
 classical
 have hset : {x | InLoop (Edge edges) entry x b} =
   ((loopsOf edges entry d.order b).toFinset : Set (Fin n)) := by
  ext x
  simp [mem_loopsOf_order h]
 have hnd : (loopsOf edges entry d.order b).Nodup := h.order_nodup.filter _
 rw [hset, Set.ncard_coe_finset, toFinset_card_of_nodup hnd]

/-- `loopDepths` counts the natural loops around each block. -/
theorem loopDepths_returns {B : Type} [DecidableEq B] {blocks : List B} (hnd : blocks.Nodup)
  {edges : Fin blocks.length → List (Fin blocks.length)} {entry : Fin blocks.length}
  {d : Dominance blocks.length} (h : d.Correct edges entry) :
  ∃ depths, Returns (fun fuel => loopDepths blocks d fuel) depths ∧ ∀ b, depths.lookup (blocks.get b) =
    some {x | InLoop (Edge edges) entry x b}.ncard := by
 have hstart : LoopCounts edges entry [] (fun _ => none, fun _ => 0) :=
  ⟨fun _ => rfl, fun _ => rfl⟩
 obtain ⟨state, hr, hs⟩ := foldlM d.depthsStep
  (LoopCounts edges entry) (fun pre x rest state ho hs => hs.step h ho) hstart
 refine ⟨_, hr.bind (pure _), fun b => ?_⟩
 rw [get_eq_getElem, lookup_zip_getElem hnd b.2, ← loopsOf_length h b, ← hs.depths b]
 simp

end

/-! ## The whole -/

/-- **Dominators and loops of every machine function**: `dominance` returns, `idom` is the
immediate dominator, `preorder` visits every block once and after its dominators, `contains`
and `header` tell the natural loops, and `loopDepths` counts them. -/
theorem dominance_correct {B : Type} [DecidableEq B] (g : MachineCfg B) :
  ∃ d, Returns (fun fuel => g.dominance fuel) d ∧ (∀ b, Reachable (Edge g.edges) g.entry b → b ≠ g.entry →
    ∃ i, d.idom b = some i ∧ IsIdom (Edge g.edges) g.entry i b) ∧
   (∃ walk, Returns (fun fuel => d.preorder fuel) walk ∧ walk.Nodup ∧ (∀ b, b ∈ walk) ∧
    ∀ a b, Reachable (Edge g.edges) g.entry b →
     StrictlyDominates (Edge g.edges) g.entry a b → walk.idxOf a < walk.idxOf b) ∧
   (∃ loops, Returns (fun fuel => d.loops fuel) loops ∧ (∀ x b, ∃ v, Returns (fun fuel => loops.contains fuel x b) v ∧
     (v = true ↔ InLoop (Edge g.edges) g.entry x b)) ∧
    ∀ b x, loops.header b = some x ↔ InLoop (Edge g.edges) g.entry x b ∧
     ∀ y, InLoop (Edge g.edges) g.entry y b → ∀ z, InLoop (Edge g.edges) g.entry x z →
      InLoop (Edge g.edges) g.entry y z) ∧ ∃ depths, Returns (fun fuel => loopDepths g.blocks d fuel) depths ∧
    ∀ b, depths.lookup (g.blocks.get b) =
     some {x | InLoop (Edge g.edges) g.entry x b}.ncard := by
 obtain ⟨d, hd, h⟩ := g.dominance_returns
 obtain ⟨loops, hloops, hmarks⟩ := loops_returns h
 refine ⟨d, hd, fun b hb hbe => ?_, h.preorder_returns,
  ⟨loops, hloops, hmarks.contains_returns h, hmarks.header_iff h⟩,
  loopDepths_returns g.nodup h⟩
 obtain ⟨q, hq, hi⟩ := h.isIdom b hb hbe
 refine ⟨q, ?_, hi⟩
 rw [idom, hq]
 simp [hi.1.1]

end Tir.Backend
