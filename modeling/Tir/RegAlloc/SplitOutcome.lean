import Tir.RegAlloc.SplitRuns

/-!
# What the split returns

`split` ends on every function and never fails: it names the conditional branches that enter a
block where names meet, or it inserts its copies, and then the record `SplitInput` holds
(`split_returns`). Its copies keep strict SSA form and what every operation reads exactly when
they stand before the branches that matter (`split_correct_iff`). `earlyExit` is a function with a
conditional branch before a constrained instruction; its target reads a copy that the branch
skips (`earlyExit_not_strict`).
-/

open List Option

namespace Tir.RegAlloc

open Tir.Graph Tir.Backend Returns Instr

variable {B : Type} [DecidableEq B] {f : MachineFunction B} {d : Dominance f.cfg.size} {sites : List (Site f.cfg.size)}

/-! ## The outcome -/

theorem mem_conditionalEntries {pred block : Fin f.cfg.size} {i : Nat} : i ∈ conditionalEntries f.code pred block ↔
   ∃ op, (f.code.ops pred)[i]? = some op ∧ op.vbr = false ∧ block ∈ op.succs := by
 simp only [conditionalEntries, mem_filterMap, Prod.exists, mem_zipIdx_iff_getElem?]
 constructor
 · rintro ⟨op, j, hop, hif⟩
   by_cases hb : op.vbr = false ∧ block ∈ op.succs
   · grind
   grind
 grind

section

variable {met : Fin f.cfg.size → List Nat} (h : entriesOf f.code f.cfg.edges met = [])

include h

/-- With no entry to give a block of its own, only an `asm.vbr` enters a meeting block. -/
theorem passed_of_entries_nil {b : Fin f.cfg.size} {i : Nat}
  {op : Instr f.cfg.size Nat} {x : Fin f.cfg.size} (hop : (f.code.ops b)[i]? = some op)
  (hv : op.vbr = false) (hx : x ∈ op.succs) : met x = [] := by
 by_contra hmet
 have hedge : x ∈ f.cfg.edges b := (f.edges_iff b x).2 ⟨op, mem_of_getElem? hop, hx⟩
 have hmem : (b, i, x) ∈ entriesOf f.code f.cfg.edges met := by
  rw [entriesOf, mem_flatMap]
  refine ⟨x, mem_filter.2 ⟨mem_finRange x, by simpa using hmet⟩, ?_⟩
  rw [mem_flatMap]
  refine ⟨b, mem_predecessorsOf.2 hedge, List.mem_map.2 ⟨i, ?_, rfl⟩⟩
  exact mem_conditionalEntries.2 ⟨op, hop, hv, hx⟩
 grind

/-- Every predecessor of a meeting block has an `asm.vbr` to pass the arguments. -/
theorem missing_eq_nil : ((List.finRange f.cfg.size).flatMap fun block =>
    if met block = [] then [] else ((predecessorsOf f.cfg.edges block).filter fun pred =>
     branchTo f.code pred block = none).map fun pred => (pred, block)) = [] := by
 refine flatMap_eq_nil_iff.2 fun block _ => ?_
 split_ifs with hmet
 · rfl
 · rw [map_eq_nil_iff, filter_eq_nil_iff]
   intro pred hpred
   obtain ⟨op, hopmem, hx⟩ := (f.edges_iff pred block).1 (mem_predecessorsOf.1 hpred)
   obtain ⟨i, hop⟩ := mem_iff_getElem?.1 hopmem
   cases hv : op.vbr with
   | true => simp [SplitInput.branchTo_eq hop hv hx]
   | false => exact absurd (passed_of_entries_nil h hop hv hx) hmet

end

theorem sameCode_eq (f : MachineFunction B) (d : Dominance f.cfg.size) :
  sameCode f.code = splitCode f.code ⟨[], fun _ => [], d⟩ := by
 have hargs : ∀ (b : Fin f.cfg.size) (i : Nat), argsAt f.code ⟨[], fun _ => [], d⟩ b i = [] := by
  intro b i
  refine flatMap_eq_nil_iff.2 fun x _ => ?_
  split_ifs <;> rfl
 have hname : ∀ (b : Fin f.cfg.size) (i : Nat),
   rename (⟨[], fun _ => [], d⟩ : Naming f.cfg.size) b i = Name.original := fun _ _ => rfl
 rw [sameCode, splitCode, Code.mk.injEq]
 refine ⟨funext fun b => (append_nil _).symm, funext fun b => ext_getElem? fun i => ?_⟩
 rw [getElem?_map, getElem?_mapIdx]
 cases hop : (f.code.ops b)[i]? with
 | none => rfl
 | some op =>
  have hnil : op.copies = [] := f.no_copies b op (mem_of_getElem? hop)
  simp only [map_some, splitOp, hargs, hname, hnil, map_nil, append_nil]
  rfl

/-- **The split returns.** It names branches that need a block of their own, or it inserts
its copies as `SplitInput` has them. -/
theorem split_returns [∀ b v, Decidable (f.code.Livein f.cfg.edges b v)]
  (hd : d.Correct f.cfg.edges f.cfg.entry) (hs : SitesOf f.code f.cfg.edges sites) :
  ∃ outcome, Returns (fun fuel => split f d sites fuel) (.ok outcome) ∧
   ((∃ entries, entries ≠ [] ∧ outcome = .edges entries) ∨ ∃ met, outcome = .copies (splitCode f.code ⟨sites, met, d⟩) ∧
      SplitInput f ⟨sites, met, d⟩) := by
 by_cases hempty : sites.isEmpty
 · have hnil : sites = [] := List.isEmpty_iff.1 hempty
   subst hnil
   refine ⟨_, pure _, .inr ⟨fun _ => [], ?_, hd, hs, ?_, fun _ _ _ _ _ _ _ => rfl⟩⟩
   · rw [sameCode_eq f d]
   · exact ⟨fun _ => nodup_nil, by simp, by simp, by simp [splitValues]⟩
 · obtain ⟨meet, hmeet, hmet⟩ := meetingPoints_returns f.code hd sites
   by_cases hentries : entriesOf f.code f.cfg.edges (metIn meet) = []
   · refine ⟨.copies (splitCode f.code ⟨sites, metIn meet, d⟩), ?_, .inr ⟨_, rfl, hd, hs, hmet,
      fun b i op x hop hv hx => passed_of_entries_nil hentries hop hv hx⟩⟩
     refine Returns.congr (fun fuel => if_neg hempty) (hmeet.bind ?_)
     grind [Returns.pure, missing_eq_nil]
   · refine ⟨.edges (entriesOf f.code f.cfg.edges (metIn meet)), ?_, .inl ⟨_, hentries, rfl⟩⟩
     refine Returns.congr (fun fuel => if_neg hempty) (hmeet.bind ?_)
     exact congr (fun fuel => if_pos hentries) (pure _)

/-! ## Blocks in a tree -/

theorem iteratedFrontier_nil {n : Nat} (work : List (Fin n)) :
  Returns (fun fuel => iteratedFrontier (fun _ => []) fuel work []) [] := by
 induction work with
 | nil => exact turn (fun _ => rfl) (pure [])
 | cons b work ih => exact turn (fun _ => rfl) ih

/-- Names meet in no block when every block has at most one way in. -/
theorem meetingPoints_of_tree {n : Nat} (f : Code n Nat) {edges : Fin n → List (Fin n)}
  [∀ b v, Decidable (f.Livein edges b v)] (d : Dominance n) (sites : List (Site n))
  (h : ∀ b, (predecessorsOf edges b).length < 2) :
  ∃ meet, Returns (fun fuel => meetingPoints f edges d sites fuel) meet ∧
   metIn meet = fun _ => [] := by
 have hfrontier : ∀ fuel, frontiers (predecessorsOf edges) d fuel = some fun _ => [] := by
  intro fuel
  rw [frontiers]
  induction List.finRange n with
  | nil => rfl
  | cons b blocks ih =>
   rw [foldlM_cons, frontierStep, if_pos (h b)]
   exact ih
 obtain ⟨meet, hmeet, hall⟩ := mapM
  (fun fuel value => (iteratedFrontier (fun _ => []) fuel (writesOf f sites value).reverse []).map
   fun points => (value, points.filter fun b => f.Livein edges b value))
  (P := fun value m => m.1 = value ∧ m.2 = []) (l := splitValues sites)
  (by
   intro value _
   have hbind := (iteratedFrontier_nil (writesOf f sites value).reverse).bind
    (g := fun _ points => some (value, points.filter fun b => decide (f.Livein edges b value)))
    (pure _)
   exact ⟨_, hbind.congr fun fuel => map_eq_bind, rfl, rfl⟩)
 obtain ⟨-, hnil⟩ := keyed_of_forall₂ (Q := fun _ points => points = []) hall
 refine ⟨meet, congr (fun fuel => ?_) hmeet, funext fun b => ?_⟩
 · rw [meetingPoints, hfrontier]
   rfl
 · refine eq_nil_iff_forall_not_mem.2 fun v hv => ?_
   grind [mem_metIn]

theorem split_of_tree [∀ b v, Decidable (f.code.Livein f.cfg.edges b v)]
  (h : ∀ b, (predecessorsOf f.cfg.edges b).length < 2) (hne : sites ≠ []) : Returns (fun fuel => split f d sites fuel)
   (.ok (.copies (splitCode f.code ⟨sites, fun _ => [], d⟩))) := by
 obtain ⟨meet, hmeet, hmet⟩ := meetingPoints_of_tree f.code d sites h
 have hentries : entriesOf f.code f.cfg.edges (metIn meet) = [] := by
  simp [entriesOf, hmet]
 have hempty : ¬ sites.isEmpty := by simpa using hne
 refine Returns.congr (fun fuel => if_neg hempty) (hmeet.bind ?_)
 grind [Returns.pure, missing_eq_nil]

/-! ## A branch before a constrained instruction -/

/-- Three blocks: the first branches to the second, or goes on to the third. -/
def earlyExitCfg : MachineCfg Nat where
 blocks := [0, 1, 2]
 successors b := if b = 0 then some [1, 2] else none
 nonempty := by decide
 nodup := by decide
 closed := by decide

/-- Block 0 defines value 0, leaves for block 1 on a condition, uses value 0 in its operation 2
and goes on to block 2. Block 1 reads value 0 again. -/
def earlyExitCode : Code 3 Nat where
 params _ := []
 ops b :=
  if b = 0 then
   [⟨[], [], [], [0], [], false⟩, ⟨[], [0], [], [], [1], false⟩, ⟨[], [0], [], [1], [], false⟩,
     ⟨[], [], [], [], [2], true⟩]
  else if b = 1 then [⟨[], [0], [], [], [], false⟩]
  else [⟨[], [1], [], [], [], false⟩]

theorem earlyExitCode_op {b : Fin 3} {i : Nat} {op : Instr 3 Nat} (h : (earlyExitCode.ops b)[i]? = some op) :
  (b = 0 ∧ i = 0 ∧ op = ⟨[], [], [], [0], [], false⟩) ∨ (b = 0 ∧ i = 1 ∧ op = ⟨[], [0], [], [], [1], false⟩) ∨
   (b = 0 ∧ i = 2 ∧ op = ⟨[], [0], [], [1], [], false⟩) ∨ (b = 0 ∧ i = 3 ∧ op = ⟨[], [], [], [], [2], true⟩) ∨
   (b = 1 ∧ i = 0 ∧ op = ⟨[], [0], [], [], [], false⟩) ∨
   (b = 2 ∧ i = 0 ∧ op = ⟨[], [1], [], [], [], false⟩) := by
 match b, i, h with
 | 0, 0, h => simpa [earlyExitCode, eq_comm] using h
 | 0, 1, h => simpa [earlyExitCode, eq_comm] using h
 | 0, 2, h => simpa [earlyExitCode, eq_comm] using h
 | 0, 3, h => simpa [earlyExitCode, eq_comm] using h
 | 0, _ + 4, h => simp [earlyExitCode] at h
 | 1, 0, h => simpa [earlyExitCode, eq_comm] using h
 | 1, _ + 1, h => simp [earlyExitCode] at h
 | 2, 0, h => simpa [earlyExitCode, eq_comm] using h
 | 2, _ + 1, h => simp [earlyExitCode] at h

/-- What every path to a point of `earlyExitCode` has defined. -/
theorem earlyExitCode_defined {b : Fin 3} {i : Nat} {D : List Nat} (h : earlyExitCode.Reaches 0 b i D) :
  (b ≠ 0 ∨ 0 < i → 0 ∈ D) ∧ (b = 2 ∨ b = 0 ∧ 2 < i → 1 ∈ D) := by
 induction h with
 | entry => simp
 | next _ hop _ ih =>
  rcases earlyExitCode_op hop with h | h | h | h | h | h <;> obtain ⟨rfl, rfl, rfl⟩ := h <;>
   simp_all [defined, copied]
 | jump _ hop hx ih =>
  rcases earlyExitCode_op hop with h | h | h | h | h | h <;> obtain ⟨rfl, rfl, rfl⟩ := h <;>
   simp_all [defined, copied]

theorem earlyExitCode_definesAt {s : DefSite 3} {x : Nat} (h : earlyExitCode.definesAt s = some x) :
  s = .result 0 (2 * x) 0 := by
 cases s with
 | param b k => simp [Code.definesAt, earlyExitCode] at h
 | copy b i k =>
  obtain ⟨op, hop, hx⟩ := bind_eq_some_iff.1 h
  rcases earlyExitCode_op hop with h | h | h | h | h | h <;> obtain ⟨rfl, rfl, rfl⟩ := h <;>
   simp [copied] at hx
 | result b i k =>
  obtain ⟨op, hop, hx⟩ := bind_eq_some_iff.1 h
  rcases earlyExitCode_op hop with h | h | h | h | h | h <;> obtain ⟨rfl, rfl, rfl⟩ := h <;>
   simp [getElem?_singleton] at hx <;> simp [hx.1, ← hx.2]

theorem earlyExitCode_strict : earlyExitCode.StrictSSA 0 where
 unique s t x hs ht := by
  rw [earlyExitCode_definesAt hs, earlyExitCode_definesAt ht]
 dominated b i D op hD hop := by
  have hdef := earlyExitCode_defined hD
  rcases earlyExitCode_op hop with h | h | h | h | h | h <;> obtain ⟨rfl, rfl, rfl⟩ := h <;>
   simp_all [Instr.reads]

def earlyExit : MachineFunction Nat where
 cfg := earlyExitCfg
 code := earlyExitCode
 edges_iff := by decide
 no_copies := by decide
 vbr_last b i op hop hv := by
  rcases earlyExitCode_op hop with h | h | h | h | h | h <;> obtain ⟨rfl, rfl, rfl⟩ := h <;>
   first | rfl | nomatch hv
 vbr_args := by decide
 branch_args := by decide
 strict := earlyExitCode_strict

/-- The copies before one operation of block 0. -/
def earlyExitSite (index : Nat) : Site earlyExit.cfg.size where
 block := (0 : Fin 3)
 index := index
 values := [0]
 nodup := by decide

theorem earlyExit_sitesOf {index : Nat} (op : Instr 3 Nat)
  (hop : (earlyExitCode.ops 0)[index]? = some op) (h : 0 ∈ op.reads) :
  SitesOf earlyExit.code earlyExit.cfg.edges [earlyExitSite index] where
 distinct s hs t ht _ _ := by
  rw [mem_singleton.1 hs, mem_singleton.1 ht]
 operation s hs := by
  obtain rfl := mem_singleton.1 hs
  refine ⟨op, hop, fun v hv => .inl ?_⟩
  rw [mem_singleton.1 hv]
  exact h

theorem earlyExit_tree : ∀ b, (predecessorsOf earlyExit.cfg.edges b).length < 2 := by
 decide

theorem earlyExit_livein : earlyExit.code.Livein earlyExit.cfg.edges (1 : Fin 3) 0 :=
 Code.Livein.use (d := (0 : Fin 3)) (b := (1 : Fin 3)) (.head _)
  (.head _) (.inr ⟨_, .head _, .head _⟩) (by decide)

open scoped Classical in
/-- The target of the branch before the copy reads a copy it never ran. -/
theorem earlyExit_not_strict : ∃ d code, Returns (fun fuel => earlyExit.cfg.dominance fuel) d ∧
   SitesOf earlyExit.code earlyExit.cfg.edges [earlyExitSite 2] ∧
   Returns (fun fuel => split earlyExit d [earlyExitSite 2] fuel) (.ok (.copies code)) ∧
   ¬ code.StrictSSA earlyExit.cfg.entry := by
 obtain ⟨d, hd, hcorrect⟩ := earlyExit.cfg.dominance_returns
 have hs : SitesOf earlyExit.code earlyExit.cfg.edges [earlyExitSite 2] :=
  earlyExit_sitesOf ⟨[], [0], [], [1], [], false⟩ rfl (by decide)
 have hcopies := split_of_tree (d := d) earlyExit_tree (cons_ne_nil (earlyExitSite 2) [])
 obtain ⟨outcome, hr, hout⟩ := split_returns hcorrect hs
 cases hr.unique hcopies
 obtain ⟨entries, -, heq⟩ | ⟨met, heq, h⟩ := hout
 · nomatch heq
 · refine ⟨d, _, hd, hs, hcopies, ?_⟩
   rw [Split.copies.inj heq]
   refine h.not_strict fun hc => ?_
   exact hc (0 : Fin 3) Reachable.root 1 _ rfl (1 : Fin 3) mem_cons_self 2 0 (by decide)
    ⟨earlyExitSite 2, mem_singleton.2 rfl, rfl, rfl, by decide⟩ earlyExit_livein

/-! ## When the split is right -/

/-- **The split is right exactly when its copies stand before the branches that matter**: the new
code is in strict SSA form and every operation reads what it read, if and only if no site
after a branch of its block copies a value live into the target of the branch. -/
theorem split_correct_iff [∀ b v, Decidable (f.code.Livein f.cfg.edges b v)]
  (hd : Returns (fun fuel => f.cfg.dominance fuel) d) (hs : SitesOf f.code f.cfg.edges sites) :
  ∃ outcome, Returns (fun fuel => split f d sites fuel) (.ok outcome) ∧ ∀ code, outcome = .copies code →
    (code.StrictSSA f.cfg.entry ∧ SameReads f code ↔ CopiedBeforeBranches f sites) := by
 obtain ⟨d', hd', hcorrect⟩ := f.cfg.dominance_returns
 obtain rfl : d = d' := hd.unique hd'
 obtain ⟨outcome, hr, ⟨entries, -, rfl⟩ | ⟨met, rfl, h⟩⟩ := split_returns hcorrect hs
 · exact ⟨_, hr, nofun⟩
 · refine ⟨_, hr, fun code hcode => ?_⟩
   obtain rfl := Split.copies.inj hcode
   constructor
   · rintro ⟨hstrict, -⟩
     by_contra hc
     exact h.not_strict hc hstrict
   · intro hc
     exact ⟨h.strict hc, h.sameReads hc⟩

open scoped Classical in
/-- A copy before the conditional branch itself reaches both of its sides. -/
theorem earlyExit_split_correct : ∃ d code, Returns (fun fuel => earlyExit.cfg.dominance fuel) d ∧
   SitesOf earlyExit.code earlyExit.cfg.edges [earlyExitSite 1] ∧
   Returns (fun fuel => split earlyExit d [earlyExitSite 1] fuel) (.ok (.copies code)) ∧
   code.StrictSSA earlyExit.cfg.entry ∧ SameReads earlyExit code := by
 obtain ⟨d, hd, -⟩ := earlyExit.cfg.dominance_returns
 have hs : SitesOf earlyExit.code earlyExit.cfg.edges [earlyExitSite 1] :=
  earlyExit_sitesOf ⟨[], [0], [], [], [1], false⟩ rfl (by decide)
 obtain ⟨outcome, hr, hiff⟩ := split_correct_iff hd hs
 have hcopies := split_of_tree (d := d) earlyExit_tree (cons_ne_nil (earlyExitSite 1) [])
 refine ⟨d, _, hd, hs, hcopies, (hiff _ (Except.ok.inj (hr.unique hcopies))).2 ?_⟩
 rintro b - i op hop x hx j v hij ⟨s, hs, -, hj, -⟩ -
 obtain rfl := mem_singleton.1 hs
 -- no branch stands before the copied operation
 rw [← hj] at hij
 rcases earlyExitCode_op hop with h | h | h | h | h | h <;> obtain ⟨rfl, rfl, rfl⟩ := h <;>
  first | exact absurd hx not_mem_nil | nomatch hij

end Tir.RegAlloc
