import Tir.Sat.Propagate

/-!
# Conflict analysis

The loop of `analyze` resolves the conflicting clause with the reasons of its literals, the latest
first. Its state stands for a clause that follows from the added ones (`Resolving`): the learnt
literals of lower levels, and one literal for each seen variable of the current level. When one
variable of the current level is left, the clause is the one learnt (`resolve_spec`): it follows
from the added clauses, and after the jump back all its literals but the first are false
(`Asserting`).
-/

open List Function Nat

namespace Tir.Sat

open Lit

namespace Solver

variable {A : Type} {r : Ranking A} {F : List Clause} {s : Solver A}

/-- The variable of the literal is seen, and of the current level. -/
def isOpen (s : Solver A) (seen : Nat → Bool) (l : Lit) : Bool :=
 seen l.var && decide (s.decisionLevel ≤ s.level l.var)

theorem isOpen_iff (s : Solver A) (seen : Nat → Bool) (l : Lit) :
  s.isOpen seen l = true ↔ seen l.var = true ∧ s.decisionLevel ≤ s.level l.var := by
 simp [isOpen]

/-- The state of the main loop of `analyze`: the literals `todo` of a clause are still to be
marked, and every open variable stands before position `index` of the trail. -/
structure Resolving (F : List Clause) (s : Solver A) (index : Nat) (todo : List Lit) (a : Analysis A) : Prop where
 todo_false : ∀ q ∈ todo, q.negate ∈ s.trail.take index
 seen_low : ∀ v, a.seen v = true → s.level v < s.decisionLevel → ∃ q ∈ a.learnt, q.var = v
 seen_high : ∀ v, a.seen v = true → s.decisionLevel ≤ s.level v →
  ∃ l ∈ s.trail.take index, l.var = v
 learnt_false : ∀ q ∈ a.learnt, q.negate ∈ s.trail
 learnt_level : ∀ q ∈ a.learnt, 0 < s.level q.var ∧ s.level q.var < s.decisionLevel
 learnt_seen : ∀ q ∈ a.learnt, a.seen q.var = true
 learnt_nodup : (a.learnt.map Lit.var).Nodup
 path : a.pathC = (s.trail.take index).countP (s.isOpen a.seen)
 live : 0 < a.pathC ∨ ∃ q ∈ todo, s.decisionLevel ≤ s.level q.var
 marked : ∀ v, a.seen v = true → v ∈ a.marked
 sound : ∀ σ, Models σ F → (∃ q ∈ a.learnt, q.eval σ = true) ∨
  (∃ l ∈ s.trail.take index, s.isOpen a.seen l = true ∧ l.eval σ = false) ∨
   ∃ q ∈ todo, q.eval σ = true
 order : VarOrder.Reordered s.vsids a.vsids

/-! ## Marking -/

/-- A predicate that becomes true of one element counts one more. -/
theorem countP_flip {p p' : Lit → Bool} {x : Lit} : ∀ {L : List Lit}, L.Nodup → x ∈ L →
  p x = false → p' x = true → (∀ y ∈ L, y ≠ x → p' y = p y) → L.countP p' = L.countP p + 1 := by
 intro L
 induction L with
 | nil => nofun
 | cons y L ih =>
  intro hnd hx hpx hpx' hagree
  rw [countP_cons, countP_cons]
  by_cases hyx : y = x
  · subst hyx
    have hrest : L.countP p' = L.countP p := by
     apply countP_congr
     grind
    simp [hrest, hpx, hpx']
  grind

section Mark

variable {index : Nat} {q : Lit} {todo : List Lit} {a : Analysis A}

section

variable (h : Resolving F s index (q :: todo) a)

include h

/-- A literal that is seen already, or settled, is dropped. -/
theorem Resolving.skip (hcore : Core F s)
  (hskip : a.seen q.var = true ∨ s.level q.var = 0) (hpos : 0 < s.decisionLevel) :
  Resolving F s index todo a := by
 have hq := h.todo_false q (.head _)
 have hqtrail := mem_of_mem_take hq
 -- what stands for the literal if its variable is seen
 have hopen : a.seen q.var = true → s.decisionLevel ≤ s.level q.var →
   ∃ l ∈ s.trail.take index, s.isOpen a.seen l = true ∧ l = q.negate := by
  intro hseen hlevel
  obtain ⟨l, hl, hvar⟩ := h.seen_high q.var hseen hlevel
  have heq := hcore.eq_of_var (mem_of_mem_take hl) hqtrail hvar
  exact ⟨l, hl, (s.isOpen_iff a.seen l).2 (by rw [hvar]; exact ⟨hseen, hlevel⟩), heq⟩
 refine { h with todo_false := ?_, live := ?_, sound := ?_ }
 · exact fun k hk => h.todo_false k (.tail _ hk)
 · rcases h.live with hlive | ⟨k, hk, hlevel⟩
   · exact .inl hlive
   · rcases mem_cons.1 hk with rfl | hk
     · have hseen : a.seen k.var = true := hskip.resolve_right (by omega)
       obtain ⟨l, hl, hl', -⟩ := hopen hseen hlevel
       refine .inl ?_
       rw [h.path]
       exact countP_pos_iff.2 ⟨l, hl, hl'⟩
     · exact .inr ⟨k, hk, hlevel⟩
 · intro σ hσ
   rcases h.sound σ hσ with hlearnt | hopen' | ⟨k, hk, heval⟩
   · exact .inl hlearnt
   · exact .inr (.inl hopen')
   · rcases mem_cons.1 hk with rfl | hk
     · by_cases hzero : s.level k.var = 0
       · -- the literal is false in every model
         have hneg := (hcore.settled _ hqtrail hzero).eval hσ
         grind [eval_negate]
       · have hseen := hskip.resolve_right hzero
         by_cases hlevel : s.decisionLevel ≤ s.level k.var
         · grind [eval_negate]
         · obtain ⟨k', hk', hvar⟩ := h.seen_low k.var hseen (by omega)
           have heq := hcore.eq_of_var (h.learnt_false k' hk') hqtrail hvar
           grind [negate_negate]
     · exact .inr (.inr ⟨k, hk, heval⟩)

/-- A literal of the current level opens its variable. -/
theorem Resolving.open (hcore : Core F s) (hseen : a.seen q.var = false) (hlevel : s.decisionLevel ≤ s.level q.var) :
  Resolving F s index todo { a with
     vsids := VarOrder.bump r a.vsids q.var
     seen := update a.seen q.var true
     marked := a.marked ++ [q.var]
     pathC := a.pathC + 1 } := by
 have hq := h.todo_false q (.head _)
 have hseen' : ∀ v, update a.seen q.var true v = true ↔ v = q.var ∨ a.seen v = true := by
  grind
 have hopen : ∀ l, s.isOpen a.seen l = true →
   s.isOpen (update a.seen q.var true) l = true := by
  grind [isOpen_iff]
 have hnew : s.isOpen (update a.seen q.var true) q.negate = true := by
  rw [isOpen_iff]
  exact ⟨(hseen' _).2 (.inl rfl), hlevel⟩
 refine
  { todo_false := fun k hk => h.todo_false k (.tail _ hk)
    seen_low := ?_, seen_high := ?_
    learnt_false := h.learnt_false, learnt_level := h.learnt_level
    learnt_seen := fun k hk => (hseen' _).2 (.inr (h.learnt_seen k hk))
    learnt_nodup := h.learnt_nodup, path := ?_, live := .inl (succ_pos _), marked := ?_
    sound := ?_, order := h.order.trans (VarOrder.bump_reordered h.order.slots q.var) }
 · intro v hv hlow
   rcases (hseen' v).1 hv with rfl | hv
   · omega
   · exact h.seen_low v hv hlow
 · intro v hv hhigh
   rcases (hseen' v).1 hv with rfl | hv
   · exact ⟨q.negate, hq, rfl⟩
   · exact h.seen_high v hv hhigh
 · -- the literal's negation is the one new open literal of the trail
   show a.pathC + 1 = (s.trail.take index).countP (s.isOpen (update a.seen q.var true))
   rw [h.path]
   refine (countP_flip (Nodup.sublist (take_sublist _ _) hcore.trail_nodup) hq ?_ hnew
    ?_).symm
   · simp [isOpen, hseen]
   · intro l hl hne
     have hvar : l.var ≠ q.var := fun hvar =>
      hne (hcore.eq_of_var (mem_of_mem_take hl) (mem_of_mem_take hq) hvar)
     simp [isOpen, hvar]
 · intro v hv
   rcases (hseen' v).1 hv with rfl | hv
   · exact mem_append_right _ (mem_singleton_self _)
   · exact mem_append_left _ (h.marked v hv)
 · intro σ hσ
   rcases h.sound σ hσ with hlearnt | ⟨l, hl, hl', heval⟩ | ⟨k, hk, heval⟩
   · exact .inl hlearnt
   · exact .inr (.inl ⟨l, hl, hopen l hl', heval⟩)
   grind [eval_negate]

/-- A literal of a lower level is learnt. -/
theorem Resolving.learn (hseen : a.seen q.var = false)
  (hpos : 0 < s.level q.var) (hlevel : s.level q.var < s.decisionLevel) : Resolving F s index todo { a with
     vsids := VarOrder.bump r a.vsids q.var
     seen := update a.seen q.var true
     marked := a.marked ++ [q.var]
     learnt := a.learnt ++ [q] } := by
 have hq := h.todo_false q (.head _)
 have hseen' : ∀ v, update a.seen q.var true v = true ↔ v = q.var ∨ a.seen v = true := by
  grind
 -- the variable is of a lower level, so the same literals are open
 have hopen : ∀ l, s.isOpen (update a.seen q.var true) l = s.isOpen a.seen l := by
  intro l
  by_cases hvar : l.var = q.var
  · have hlow : ¬ s.decisionLevel ≤ s.level l.var := by rw [hvar]; omega
    simp [isOpen, hlow]
  · simp [isOpen, hvar]
 have hopen' : s.isOpen (update a.seen q.var true) = s.isOpen a.seen := funext hopen
 refine
  { todo_false := fun k hk => h.todo_false k (.tail _ hk)
    seen_low := ?_, seen_high := ?_, learnt_false := ?_, learnt_level := ?_
    learnt_seen := ?_, learnt_nodup := ?_
    path := by rw [hopen']; exact h.path
    live := ?_, marked := ?_, sound := ?_
    order := h.order.trans (VarOrder.bump_reordered h.order.slots q.var) }
 · intro v hv hlow
   rcases (hseen' v).1 hv with rfl | hv
   · exact ⟨q, mem_append_right _ (mem_singleton_self q), rfl⟩
   · obtain ⟨k, hk, hvar⟩ := h.seen_low v hv hlow
     exact ⟨k, mem_append_left _ hk, hvar⟩
 · intro v hv hhigh
   rcases (hseen' v).1 hv with rfl | hv
   · omega
   · exact h.seen_high v hv hhigh
 · intro k hk
   rcases mem_append.1 hk with hk | hk
   · exact h.learnt_false k hk
   grind
 · intro k hk
   rcases mem_append.1 hk with hk | hk
   · exact h.learnt_level k hk
   grind
 · intro k hk
   rcases mem_append.1 hk with hk | hk
   · exact (hseen' _).2 (.inr (h.learnt_seen k hk))
   grind
 · rw [map_append, nodup_append]
   refine ⟨h.learnt_nodup, nodup_singleton _, ?_⟩
   rintro v hv w hw rfl
   obtain ⟨k, hk, rfl⟩ := mem_map.1 hv
   have hkseen := h.learnt_seen k hk
   grind
 · rcases h.live with hlive | ⟨k, hk, hhigh⟩
   · exact .inl hlive
   grind
 · intro v hv
   rcases (hseen' v).1 hv with rfl | hv
   · exact mem_append_right _ (mem_singleton_self _)
   · exact mem_append_left _ (h.marked v hv)
 · intro σ hσ
   rcases h.sound σ hσ with ⟨k, hk, heval⟩ | ⟨l, hl, hl', heval⟩ | ⟨k, hk, heval⟩
   · exact .inl ⟨k, mem_append_left _ hk, heval⟩
   · exact .inr (.inl ⟨l, hl, by rw [hopen]; exact hl', heval⟩)
   grind

theorem Resolving.mark (hcore : Core F s)
  (hpos : 0 < s.decisionLevel) : Resolving F s index todo (s.mark r a q) := by
 unfold Solver.mark
 split
 · rename_i hmark
   split
   · rename_i hlevel
     exact h.open hcore hmark.1 hlevel
   · rename_i hlevel
     exact h.learn hmark.1 hmark.2 (not_le.1 hlevel)
 · rename_i hmark
   refine h.skip hcore ?_ hpos
   grind

end

theorem Resolving.foldl_mark (hcore : Core F s) (hpos : 0 < s.decisionLevel) :
  ∀ (todo : List Lit) (a : Analysis A), Resolving F s index todo a →
   Resolving F s index [] (todo.foldl (s.mark r) a) := by
 intro todo
 induction todo with
 | nil => exact fun a h => h
 | cons q todo ih => exact fun a h => ih _ (h.mark hcore hpos)

end Mark

/-! ## The latest open literal -/

/-- `scan` finds the last seen literal before a position. -/
theorem scan_spec (s : Solver A) (seen : Nat → Bool) (index : Nat) (hidx : index ≤ s.trail.length)
  (hex : ∃ l ∈ s.trail.take index, seen l.var = true) :
  ∃ i pl, s.scan seen index = some (i, pl) ∧ i < index ∧ s.trail[i]? = some pl ∧ seen pl.var = true ∧
   ∀ j l, i < j → j < index → s.trail[j]? = some l → seen l.var = false := by
 induction index with
 | zero =>
  grind
 | succ index ih =>
  have hlt : index < s.trail.length := hidx
  have hget : s.trail[index]? = some s.trail[index] := getElem?_eq_getElem hlt
  simp only [scan, hget]
  split
  · grind
  · rename_i hseen
    obtain ⟨l, hl, hlseen⟩ := hex
    have hl' : l ∈ s.trail.take index := by
     rw [take_add_one, hget] at hl
     grind
    obtain ⟨i, pl, hscan, hi, hpl, hplseen, hlast⟩ := ih hlt.le ⟨l, hl', hlseen⟩
    refine ⟨i, pl, hscan, hi.trans (lt_succ_self _), hpl, hplseen, fun j k hij hj hk => ?_⟩
    rcases Nat.lt_succ_iff_lt_or_eq.1 hj with hj | rfl
    · exact hlast j k hij hj hk
    grind

section Step

variable {index i : Nat} {pl : Lit} {a : Analysis A}

variable (h : Resolving F s index [] a) (hcore : Core F s)

include h hcore

/-- The latest seen literal is of the current level. -/
theorem Resolving.latest_level (hpl : s.trail[i]? = some pl)
  (hlast : ∀ j l, i < j → j < index → s.trail[j]? = some l → a.seen l.var = false) :
  s.level pl.var = s.decisionLevel := by
 have hpath : 0 < a.pathC := by
  rcases h.live with hlive | ⟨q, hq, -⟩
  · exact hlive
  · nomatch hq
 rw [h.path, countP_pos_iff] at hpath
 obtain ⟨l, hl, hopen⟩ := hpath
 obtain ⟨hseen, hlevel⟩ := (s.isOpen_iff _ _).1 hopen
 obtain ⟨j, hj⟩ := getElem?_of_mem hl
 rw [getElem?_take] at hj
 split at hj
 · rename_i hjlt
   have hji : j ≤ i := by
    grind
   rw [hcore.level_eq j l hj] at hlevel
   rw [hcore.level_eq i pl hpl]
   exact le_antisymm (s.levelAt_le i) (hlevel.trans (s.levelAt_mono hji))
 · cases hj

/-- Closing the latest open literal: it is the literal to resolve on. -/
theorem Resolving.close (hi : i < index) (hpl : s.trail[i]? = some pl) (hseen : a.seen pl.var = true)
  (hlast : ∀ j l, i < j → j < index → s.trail[j]? = some l → a.seen l.var = false) :
  (s.trail.take i).countP (s.isOpen (update a.seen pl.var false)) + 1 = a.pathC ∧
   (∀ v, update a.seen pl.var false v = true → s.decisionLevel ≤ s.level v → ∃ l ∈ s.trail.take i, l.var = v) ∧
   ∀ σ, Models σ F → (∃ q ∈ a.learnt, q.eval σ = true) ∨ (∃ l ∈ s.trail.take i,
     s.isOpen (update a.seen pl.var false) l = true ∧ l.eval σ = false) ∨
    pl.eval σ = false := by
 have hlevel := h.latest_level hcore hpl hlast
 have hplmem := mem_of_getElem? hpl
 have hilt : i < s.trail.length := (List.getElem?_eq_some_iff.1 hpl).1
 have hplout : pl ∉ s.trail.take i := by
  intro hmem
  obtain ⟨j, hj⟩ := getElem?_of_mem hmem
  rw [getElem?_take] at hj
  split at hj
  · have hji := (getElem?_inj hilt hcore.trail_nodup).1 (hpl.trans hj.symm)
    omega
  · cases hj
 -- before `i` the same literals are open as before
 have hsame : ∀ l ∈ s.trail.take i,
   s.isOpen (update a.seen pl.var false) l = s.isOpen a.seen l := by
  intro l hl
  have hvar : l.var ≠ pl.var := fun hvar =>
   hplout (hcore.eq_of_var (mem_of_mem_take hl) hplmem hvar ▸ hl)
  simp [isOpen, hvar]
 -- a seen literal before `index` is the closed one, or stands before it
 have hsplit : ∀ l ∈ s.trail.take index, a.seen l.var = true → l = pl ∨ l ∈ s.trail.take i := by
  intro l hl hlseen
  obtain ⟨j, hj⟩ := getElem?_of_mem hl
  rw [getElem?_take] at hj
  split at hj
  · rename_i hjlt
    rcases lt_trichotomy j i with hji | rfl | hij
    · exact .inr (mem_of_getElem? (i := j) (by rw [getElem?_take, if_pos hji, hj]))
    · exact .inl (Option.some.inj (hj.symm.trans hpl))
    grind
  · cases hj
 refine ⟨?_, ?_, ?_⟩
 · have hcnt : (s.trail.take index).countP (s.isOpen a.seen) =
     (s.trail.take (i + 1)).countP (s.isOpen a.seen) := by
    have htake : s.trail.take index =
      s.trail.take (i + 1) ++ (s.trail.take index).drop (i + 1) := by
     conv_lhs => rw [← take_append_drop (i + 1) (s.trail.take index)]
     rw [take_take, min_eq_left hi]
    conv_lhs => rw [htake]
    rw [countP_append, Nat.add_eq_left, countP_eq_zero]
    intro l hl hopen
    obtain ⟨j, hj⟩ := getElem?_of_mem hl
    rw [getElem?_drop, getElem?_take] at hj
    split at hj
    · grind [isOpen_iff]
    · cases hj
   have hplopen : s.isOpen a.seen pl = true := (s.isOpen_iff _ _).2 ⟨hseen, hlevel.ge⟩
   rw [h.path, hcnt, take_add_one, hpl, countP_append,
    countP_congr fun l hl => by rw [hsame l hl]]
   simp [hplopen]
 · intro v hv hhigh
   by_cases hvar : v = pl.var
   · subst hvar
     simp at hv
   · rw [update_of_ne hvar] at hv
     obtain ⟨l, hl, rfl⟩ := h.seen_high v hv hhigh
     rcases hsplit l hl hv with rfl | hl
     · exact absurd rfl hvar
     · exact ⟨l, hl, rfl⟩
 · intro σ hσ
   rcases h.sound σ hσ with hlearnt | ⟨l, hl, hopen, heval⟩ | ⟨q, hq, -⟩
   · exact .inl hlearnt
   · rcases hsplit l hl ((s.isOpen_iff _ _).1 hopen).1 with rfl | hl
     · exact .inr (.inr heval)
     · exact .inr (.inl ⟨l, hl, by rw [hsame l hl]; exact hopen, heval⟩)
   · nomatch hq

/-- Resolving with the reason of the closed literal. -/
theorem Resolving.next (hi : i < index) (hpl : s.trail[i]? = some pl) (hseen : a.seen pl.var = true)
  (hlast : ∀ j l, i < j → j < index → s.trail[j]? = some l → a.seen l.var = false)
  {pathC : Nat} (hpath : a.pathC = pathC + 2) {rest : Clause} {c : Nat}
  (hc : s.clauses[c]? = some (pl :: rest)) (hrest : ∀ q ∈ rest, q.negate ∈ s.trail.take i) : Resolving F s i rest
   { a with seen := update a.seen pl.var false, pathC := pathC + 1 } := by
 obtain ⟨hcnt, hhigh, hsound⟩ := h.close hcore hi hpl hseen hlast
 have hlevel := h.latest_level hcore hpl hlast
 have hkeep : ∀ v, update a.seen pl.var false v = true → a.seen v = true := by
  intro v hv
  by_cases hvar : v = pl.var
  · subst hvar
    simp at hv
  · rwa [update_of_ne hvar] at hv
 refine
  { todo_false := hrest
    seen_low := fun v hv hlow => h.seen_low v (hkeep v hv) hlow
    seen_high := hhigh
    learnt_false := h.learnt_false, learnt_level := h.learnt_level
    learnt_seen := ?_
    learnt_nodup := h.learnt_nodup
    path := ?_
    live := .inl (succ_pos _)
    marked := fun v hv => h.marked v (hkeep v hv)
    sound := ?_, order := h.order }
 · intro q hq
   have hvar : q.var ≠ pl.var := by
    intro hvar
    have hlow := (h.learnt_level q hq).2
    grind
   show update a.seen pl.var false q.var = true
   rw [update_of_ne hvar]
   exact h.learnt_seen q hq
 · grind
 · intro σ hσ
   rcases hsound σ hσ with hlearnt | hopen | heval
   · exact .inl hlearnt
   · exact .inr (.inl hopen)
   · -- the literal is false, so its reason holds by another one
     obtain ⟨q, hq, hqeval⟩ := hcore.clause_entailed _ (mem_of_getElem? hc) σ hσ
     rcases mem_cons.1 hq with rfl | hq
     · grind
     · exact .inr (.inr ⟨q, hq, hqeval⟩)

end Step

/-! ## The learnt clause -/

/-- What the main loop ends with: the literals of lower levels and the one literal left open. -/
structure Learnt (F : List Clause) (s : Solver A) (a : Analysis A) (pl : Lit) : Prop where
 mem : pl ∈ s.trail
 level : s.level pl.var = s.decisionLevel
 learnt_false : ∀ q ∈ a.learnt, q.negate ∈ s.trail
 learnt_level : ∀ q ∈ a.learnt, 0 < s.level q.var ∧ s.level q.var < s.decisionLevel
 learnt_nodup : (a.learnt.map Lit.var).Nodup
 entailed : Entails F (pl.negate :: a.learnt)
 marked : ∀ v, a.seen v = true → v ∈ a.marked
 order : VarOrder.Reordered s.vsids a.vsids

/-- The literal a level begins with is before all others of its level. -/
theorem Core.levelAt_lt_of_lim {i j : Nat} (hi : i ∈ s.trailLim) (hji : j < i) :
  s.levelAt j < s.levelAt i := by
 unfold levelAt
 obtain ⟨before, after, hsplit⟩ := append_of_mem hi
 rw [hsplit, countP_append, countP_append, countP_cons, countP_cons,
  if_neg (by simpa using hji), if_pos (by simp)]
 have hmono : ∀ L : List Nat, L.countP (fun t => decide (t ≤ j)) ≤
   L.countP (fun t => decide (t ≤ i)) := by
  intro L
  apply countP_mono_left
  grind
 grind

/-- The main loop of `analyze` never fails. -/
theorem resolve_spec (hcore : Core F s) (hpos : 0 < s.decisionLevel) (fuel : Nat) :
  ∀ (a : Analysis A) (todo : List Lit) (index : Nat), Resolving F s index todo a →
   index ≤ s.trail.length → index < fuel →
   ∃ a' pl, s.resolve r fuel a todo index = some (a', pl) ∧ Learnt F s a' pl := by
 induction fuel with
 | zero =>
  grind
 | succ fuel ih =>
  intro a todo index h hidx hfuel
  have hdone := Resolving.foldl_mark (r := r) hcore hpos todo a h
  simp only [resolve]
  generalize todo.foldl (s.mark r) a = a at hdone
  have hlive : 0 < a.pathC := by
   rcases hdone.live with hlive | ⟨q, hq, -⟩
   · exact hlive
   · nomatch hq
  obtain ⟨i, pl, hscan, hi, hpl, hseen, hlast⟩ := scan_spec s a.seen index hidx (by
   rw [hdone.path, countP_pos_iff] at hlive
   obtain ⟨l, hl, hopen⟩ := hlive
   exact ⟨l, hl, ((s.isOpen_iff _ _).1 hopen).1⟩)
  have hlevel := hdone.latest_level hcore hpl hlast
  obtain ⟨hcnt, -, hsound⟩ := hdone.close hcore hi hpl hseen hlast
  simp only [hscan]
  match hpath : a.pathC with
  | 0 => omega
  | 1 =>
   -- nothing is left open: the closed literal is the one to assert the negation of
   refine ⟨_, pl, rfl, ⟨mem_of_getElem? hpl, hlevel, hdone.learnt_false,
    hdone.learnt_level, hdone.learnt_nodup, ?_, ?_, hdone.order⟩⟩
   · intro σ hσ
     rcases hsound σ hσ with ⟨q, hq, heval⟩ | ⟨l, hl, hopen, -⟩ | heval
     · exact ⟨q, .tail _ hq, heval⟩
     · grind
     · exact ⟨pl.negate, .head _, by rw [eval_negate, heval]; rfl⟩
   · intro v hv
     apply hdone.marked
     by_cases hvar : v = pl.var
     · grind
     · simpa [hvar] using hv
  | pathC + 2 =>
   -- another literal of the level stands before, so this one is not its decision
   have hother : ∃ l ∈ s.trail.take i, s.decisionLevel ≤ s.level l.var := by
    have hcountpos : 0 < (s.trail.take i).countP
      (s.isOpen (update a.seen pl.var false)) := by omega
    obtain ⟨l, hl, hopen⟩ := countP_pos_iff.1 hcountpos
    exact ⟨l, hl, ((s.isOpen_iff _ _).1 hopen).2⟩
   cases hreason : s.reason pl.var with
   | none =>
    rcases hcore.reason_none i pl hpl hreason with hlim | hzero
    · obtain ⟨l, hl, hhigh⟩ := hother
      obtain ⟨j, hj⟩ := getElem?_of_mem hl
      rw [getElem?_take] at hj
      split at hj
      · rename_i hji
        have hlt := Core.levelAt_lt_of_lim hlim hji
        rw [hcore.level_eq j l hj] at hhigh
        have := s.levelAt_le i
        omega
      · cases hj
    · omega
   | some c =>
    obtain ⟨rest, hc, hrest⟩ := hcore.reason_some i pl c hpl hreason
    have hnext := hdone.next hcore hi hpl hseen hlast hpath hc hrest
    grind

/-- The first position of a literal of the highest level. -/
theorem highest_spec (s : Solver A) (lits : List Lit) (hne : lits ≠ []) : s.highest lits < lits.length ∧ ∀ l ∈ lits,
   s.level l.var ≤ s.level (lits.getD (s.highest lits) ⟨0, false⟩).var := by
 have hupto : ∀ n, n ≤ lits.length →
   let best := (List.range n).foldl (fun best k =>
    if s.level (lits.getD best ⟨0, false⟩).var < s.level (lits.getD k ⟨0, false⟩).var then k
    else best) 0
   best < lits.length ∧ ∀ k, k < n →
    s.level (lits.getD k ⟨0, false⟩).var ≤ s.level (lits.getD best ⟨0, false⟩).var := by
  intro n
  induction n with
  | zero => exact fun _ => ⟨length_pos_iff.2 hne, fun k hk => absurd hk (Nat.not_lt_zero k)⟩
  | succ n ih =>
   intro hn
   obtain ⟨hbest, hall⟩ := ih (by omega)
   simp only [range_succ, foldl_append, foldl_cons, foldl_nil]
   generalize (List.range n).foldl _ 0 = best at hbest hall ⊢
   split
   · rename_i hlt
     refine ⟨hn, fun k hk => ?_⟩
     rcases Nat.lt_succ_iff_lt_or_eq.1 hk with hk | rfl
     · exact (hall k hk).trans hlt.le
     · exact le_rfl
   grind
 obtain ⟨hlt, hall⟩ := hupto lits.length le_rfl
 refine ⟨hlt, fun l hl => ?_⟩
 obtain ⟨k, hk, rfl⟩ := getElem_of_mem hl
 have hle := hall k hk
 rwa [getD_eq_getElem?_getD, getElem?_eq_getElem hk] at hle

theorem swapFirst_spec {q : Lit} {rest : List Lit} {k : Nat} (hk : k < (q :: rest).length) :
  ∃ lower, swapFirst (q :: rest) k = (q :: rest).getD k ⟨0, false⟩ :: lower ∧
   (swapFirst (q :: rest) k).Perm (q :: rest) := by
 cases k with
 | zero => exact ⟨rest, rfl, List.Perm.refl _⟩
 | succ k =>
  have hlt : k < rest.length := lt_of_succ_lt_succ hk
  have hget : rest[k]? = some (rest.getD k ⟨0, false⟩) := by simp [hlt]
  refine ⟨rest.set k q, rfl, ?_⟩
  exact cons_set_perm hget q

/-- A clause that the jump back to level `bt` leaves with its first literal unassigned and all
others false. -/
structure Asserting (F : List Clause) (s : Solver A) (l : Lit) (lower : List Lit) (bt : Nat) : Prop where
 mem : l.negate ∈ s.trail
 level : s.level l.var = s.decisionLevel
 lower_false : ∀ q ∈ lower, q.negate ∈ s.trail
 lower_level : ∀ q ∈ lower, s.level q.var ≤ bt
 bt_lt : bt < s.decisionLevel
 nodup : (l :: lower).Nodup
 entailed : Entails F (l :: lower)
 unit : lower = [] → bt = 0
 second : ∀ q rest, lower = q :: rest → s.level q.var = bt

/-- Analysis changes the queue and nothing else. -/
structure Analyzed (s t : Solver A) : Prop where
 same : t = { s with seen := t.seen, vsids := t.vsids }
 unseen : ∀ v, t.seen v = false
 order : VarOrder.Reordered s.vsids t.vsids

theorem Core.analyzed {t : Solver A} (h : Core F s) (ht : Analyzed s t) : Core F t := by
 obtain ⟨hsame, hunseen, horder⟩ := ht
 rw [hsame]
 exact
  { h with
    slots := horder.slots
    queued := fun v hv hasgn => (horder.mem v).2 (h.queued v hv hasgn)
    queued_lt := fun v hv => h.queued_lt v ((horder.mem v).1 hv)
    unseen := hunseen }

/-- Analysis of a conflict above level 0 never fails, and learns an asserting clause. -/
theorem analyze_spec (hcore : Core F s) (hpos : 0 < s.decisionLevel) {cref : Nat} (hconflict : Conflicting s cref) :
  ∃ t l lower bt, s.analyze r cref = some (t, l :: lower, bt) ∧ Analyzed s t ∧
   Asserting F s l lower bt := by
 obtain ⟨c, hc, hfalse, q, hq, hlevel⟩ := hconflict
 have hstart : Resolving F s s.trail.length c
   { seen := s.seen, marked := [], learnt := [], pathC := 0, vsids := s.vsids } := by
  have hno : ∀ v, s.seen v = true → False := fun v hv => by
   rw [hcore.unseen] at hv
   cases hv
  have hclosed : ∀ l, s.isOpen s.seen l = false := fun l => by simp [isOpen, hcore.unseen]
  refine
   { todo_false := by rw [take_length]; exact hfalse
     seen_low := fun v hv => (hno v hv).elim
     seen_high := fun v hv => (hno v hv).elim
     learnt_false := nofun
     learnt_level := nofun
     learnt_seen := nofun
     learnt_nodup := nodup_nil
     path := ?_
     live := .inr ⟨q, hq, hlevel.ge⟩
     marked := fun v hv => (hno v hv).elim
     sound := fun σ hσ => .inr (.inr (hcore.clause_entailed c (mem_of_getElem? hc) σ hσ))
     order := hcore.slots.reordered }
  exact (countP_eq_zero.2 fun l _ => by simp [hclosed]).symm
 obtain ⟨a, pl, hresolve, hlearnt⟩ := resolve_spec (r := r) hcore hpos (s.trail.length + 1) _ _ _
  hstart le_rfl (lt_succ_self _)
 have hunseen : ∀ v, (a.seen v && !a.marked.contains v) = false := by
  intro v
  cases hv : a.seen v with
  | false => rfl
  | true => simp [hlearnt.marked v hv]
 have hnd : (pl.negate :: a.learnt).Nodup := by
  refine nodup_cons.2 ⟨fun hmem => ?_, Nodup.of_map _ hlearnt.learnt_nodup⟩
  have hlow := (hlearnt.learnt_level _ hmem).2
  rw [negate_var, hlearnt.level] at hlow
  omega
 simp only [analyze, hc, hresolve]
 cases hlow : a.learnt with
 | nil =>
  refine ⟨_, _, _, _, rfl, ⟨rfl, hunseen, hlearnt.order⟩, ?_⟩
  have hentailed := hlearnt.entailed
  rw [hlow] at hentailed
  exact
   { mem := by rw [negate_negate]; exact hlearnt.mem
     level := hlearnt.level
     lower_false := nofun
     lower_level := nofun
     bt_lt := hpos
     nodup := nodup_singleton _
     entailed := hentailed
     unit := fun _ => rfl
     second := fun q rest h => by cases h }
 | cons q rest =>
  obtain ⟨hlt, hmax⟩ := highest_spec s (q :: rest) (cons_ne_nil _ _)
  obtain ⟨lower, hswap, hperm⟩ := swapFirst_spec hlt
  refine ⟨_, _, _, _, rfl, ⟨rfl, hunseen, hlearnt.order⟩, ?_⟩
  have hmem : ∀ k, k ∈ swapFirst (q :: rest) (s.highest (q :: rest)) ↔ k ∈ a.learnt := by
   grind
  show Asserting F s pl.negate (swapFirst (q :: rest) (s.highest (q :: rest)))
   (s.level ((swapFirst (q :: rest) (s.highest (q :: rest))).getD 0 ⟨0, false⟩).var)
  have hfst : (swapFirst (q :: rest) (s.highest (q :: rest))).getD 0 ⟨0, false⟩ =
    (q :: rest).getD (s.highest (q :: rest)) ⟨0, false⟩ := by rw [hswap]; rfl
  have hfirstmem : (q :: rest).getD (s.highest (q :: rest)) ⟨0, false⟩ ∈ a.learnt := by
   grind
  rw [hfst]
  exact
   { mem := by rw [negate_negate]; exact hlearnt.mem
     level := hlearnt.level
     lower_false := fun k hk => hlearnt.learnt_false k ((hmem k).1 hk)
     lower_level := fun k hk => hmax k (hperm.mem_iff.1 hk)
     bt_lt := (hlearnt.learnt_level _ hfirstmem).2
     nodup := (Perm.nodup_iff (hperm.cons _)).2 (hlow ▸ hnd)
     entailed := hlearnt.entailed.of_subset fun k hk => by
      rcases mem_cons.1 hk with rfl | hk
      · exact .head _
      · exact .tail _ ((hmem k).2 hk)
     unit := fun h => by rw [hswap] at h; cases h
     second := fun k ks h => by
      grind }

end Solver

end Tir.Sat
