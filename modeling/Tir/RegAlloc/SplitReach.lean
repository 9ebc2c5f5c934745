import Tir.RegAlloc.MeetingPoints

/-!
# The name that reaches a point

`Held` values are those a block has by a point: live in, a parameter, or defined before it. For a
held value the names of the split follow the code. A copy gives a new name, a definition
starts with the value's own (`SplitInput.nameAt_of_def`), and across an edge the name at the
end of the predecessor is the name the block enters with, unless the names meet there
(`SplitInput.entryName_eq_endName`). The memo of the source changes no name (`Reach.names_agree`).
-/

open List Option

namespace Tir.RegAlloc

open Tir.Graph Tir.Backend Correct Naming

variable {B : Type} [DecidableEq B] {f : MachineFunction B}

theorem MachineFunction.laid (f : MachineFunction B) : f.code.Laid f.cfg.edges := by
 refine ⟨fun a b => (f.edges_iff a b).trans ?_, f.vbr_last⟩
 constructor
 · rintro ⟨op, hop, hb⟩
   obtain ⟨i, hi⟩ := mem_iff_getElem?.1 hop
   exact ⟨i, op, hi, hb⟩
 grind

theorem MachineFunction.defined_eq (f : MachineFunction B) {b : Fin f.cfg.size} {i : Nat}
  {op : Instr f.cfg.size Nat} (hop : (f.code.ops b)[i]? = some op) :
  op.copied = [] ∧ op.defined = op.defs := by
 have hnil : op.copies = [] := f.no_copies b op (mem_of_getElem? hop)
 simp [Instr.copied, Instr.defined, hnil]

/-- The block has the value before the operation at an index. -/
def Held (f : MachineFunction B) (v : Nat) (b : Fin f.cfg.size) (i : Nat) : Prop :=
 f.code.Livein f.cfg.edges b v ∨ v ∈ f.code.params b ∨
  ∃ (q : Nat) (op : Instr f.cfg.size Nat), q < i ∧ (f.code.ops b)[q]? = some op ∧ v ∈ op.defs

/-- What `split` names its values by, when it inserts copies. -/
structure SplitInput (f : MachineFunction B) (r : Naming f.cfg.size) : Prop where
 correct : r.dominance.Correct f.cfg.edges f.cfg.entry
 sites : SitesOf f.code f.cfg.edges r.sites
 met : MetRight f.code f.cfg.edges r.dominance r.sites r.met
 /-- Only an `asm.vbr` enters a block where names meet. -/
 passed : ∀ (b : Fin f.cfg.size) (i : Nat) (op : Instr f.cfg.size Nat) (x : Fin f.cfg.size),
  (f.code.ops b)[i]? = some op → op.vbr = false → x ∈ op.succs → r.met x = []

/-! ## What a block holds -/

/-- Some path comes to an operation having defined, of its block, only what is before it. -/
theorem MachineFunction.exists_path (f : MachineFunction B) {b : Fin f.cfg.size}
  (hb : Reachable (Edge f.cfg.edges) f.cfg.entry b) {i : Nat} {op : Instr f.cfg.size Nat}
  (hop : (f.code.ops b)[i]? = some op) : ∃ D, f.code.Reaches f.cfg.entry b i D ∧ ∀ x ∈ D, x ∈ f.code.params b ∨
   (∃ (q : Nat) (op : Instr f.cfg.size Nat), q < i ∧ (f.code.ops b)[q]? = some op ∧
    x ∈ op.defs) ∨ ∃ a, a ≠ b ∧ f.code.DefinedBy a x := by
 obtain ⟨D, hD, hdef⟩ := f.laid.first_visit hb
 refine ⟨_, hD.fall f.laid hop, fun x hx => ?_⟩
 rcases mem_append.1 hx with hx | hx
 · rcases hdef x hx with hx | hx
   · exact .inl hx
   · exact .inr (.inr hx)
 · obtain ⟨q, op', hq, hop', hx⟩ := Code.mem_definedUpTo.1 hx
   rw [(f.defined_eq hop').2] at hx
   exact .inr (.inl ⟨q, op', hq, hop', hx⟩)

theorem DefinedBy.definedIn {b : Fin f.cfg.size} {x : Nat} (h : f.code.DefinedBy b x) :
  f.code.DefinedIn b x := by
 rcases h with h | ⟨op, hop, hx⟩
 · exact .inl h
 · obtain ⟨i, hi⟩ := mem_iff_getElem?.1 hop
   rw [(f.defined_eq hi).2] at hx
   exact .inr ⟨op, hop, hx⟩

/-- What an operation reads is held before it. -/
theorem held_of_read {b : Fin f.cfg.size} (hb : Reachable (Edge f.cfg.edges) f.cfg.entry b)
  {i v : Nat} {op : Instr f.cfg.size Nat} (hop : (f.code.ops b)[i]? = some op)
  (hv : v ∈ op.reads) : Held f v b i := by
 obtain ⟨D, hD, hdef⟩ := f.exists_path hb hop
 have hmem := (f.strict.dominated b i D op hD hop).2 v hv
 rw [(f.defined_eq hop).1, append_nil] at hmem
 rcases hdef v hmem with h | h | ⟨a, hab, ha⟩
 · exact .inr (.inl h)
 · exact .inr (.inr h)
 · exact .inl (Code.Livein.use (mem_of_getElem? hop) hv (DefinedBy.definedIn ha) hab)

/-- What leaves a block live was held after the branch it leaves by. -/
theorem held_of_livein {b x : Fin f.cfg.size} (hb : Reachable (Edge f.cfg.edges) f.cfg.entry b)
  {i v : Nat} {op : Instr f.cfg.size Nat} (hop : (f.code.ops b)[i]? = some op)
  (hx : x ∈ op.succs) (hv : f.code.Livein f.cfg.edges x v) : Held f v b (i + 1) := by
 have hedge : x ∈ f.cfg.edges b := (f.edges_iff b x).2 ⟨op, mem_of_getElem? hop, hx⟩
 obtain ⟨D, hD, hdef⟩ := f.exists_path hb hop
 have hmem := hv.mem_of_reaches f.laid f.strict f.no_copies (hD.jump hop hx)
 rw [(f.defined_eq hop).2] at hmem
 rcases mem_append.1 hmem with hmem | hmem
 · rcases mem_append.1 hmem with hmem | hmem
   · rcases hdef v hmem with h | ⟨q, op', hq, hop', h⟩ | ⟨a, hab, ha⟩
     · exact .inr (.inl h)
     · exact .inr (.inr ⟨q, op', by omega, hop', h⟩)
     · exact .inl (Code.Livein.out hedge hv (DefinedBy.definedIn ha) hab)
   · exact .inr (.inr ⟨i, op, by omega, hop, hmem⟩)
 · exact absurd (.inl hmem) (hv.not_definedBy f.strict)

section

variable {sites : List (Site f.cfg.size)} {b : Fin f.cfg.size} (hs : SitesOf f.code f.cfg.edges sites)
  (hb : Reachable (Edge f.cfg.edges) f.cfg.entry b)

include hs hb

/-- A copied value is held before its copy. -/
theorem held_of_copied  {i v : Nat} (hv : CopiedAt sites v b i) :
  Held f v b i := by
 obtain ⟨s, hs', rfl, rfl, hv⟩ := hv
 obtain ⟨op, hop, hvals⟩ := hs.operation s hs'
 rcases hvals v hv with h | ⟨hdef, hheld, -⟩
 · exact held_of_read hb hop h
 · rcases hheld with h | h | ⟨q, op', hq, hop', h⟩
   · exact .inl h
   · exact .inr (.inl h)
   · refine .inr (.inr ⟨q, op', ?_, hop', h⟩)
     grind

/-- A value an operation defines is copied in its block only after it. -/
theorem not_copied_of_def  {i j v : Nat} {op : Instr f.cfg.size Nat}
  (hop : (f.code.ops b)[i]? = some op) (hv : v ∈ op.defs) (hcopied : CopiedAt sites v b j) :
  i < j := by
 rcases held_of_copied hs hb hcopied with h | h | ⟨q, op', hq, hop', h⟩
 · exact absurd (.inr ⟨op, mem_of_getElem? hop, mem_append_right _ hv⟩)
    (h.not_definedBy f.strict)
 · exact absurd h (f.strict.not_param_of_result hop hv)
 · rw [f.strict.result_index hop hv hop' h]
   exact hq

end

/-! ## The names -/

namespace SplitInput

variable {r : Naming f.cfg.size}

theorem ordered (h : SplitInput f r) : r.Ordered :=
 fun _ _ hi => rank_lt h.correct hi

theorem nameAt_zero (v : Nat) (b : Fin f.cfg.size) : r.nameAt v b (before 0) = r.entryName v b := by
 rw [nameAt_eq, lastCopy_none_of]
 · rfl
 grind [before_lt_before]

/-- After an operation its reads' names still hold, until the next copy. -/
theorem nameAt_next (v : Nat) (b : Fin f.cfg.size) (i : Nat) :
  r.nameAt v b (before (i + 1)) = r.nameAt v b (point i) := by
 grind [nameAt_eq, lastCopy_congr, before_lt_before, before_lt_point]

theorem nameAt_copied {v : Nat} {b : Fin f.cfg.size} {i : Nat} (h : CopiedAt r.sites v b i) :
  r.nameAt v b (point i) = .copy b i v := by
 rw [nameAt_eq]
 rcases lastCopy_cases r.sites v b (some (point i)) with
  ⟨-, hno⟩ | ⟨j, hj, -, hlj, hmax⟩
 · exact absurd (by simpa using before_lt_point.2 (le_refl i)) (hno i h)
 grind [before_lt_point]

theorem nameAt_not_copied {v : Nat} {b : Fin f.cfg.size} {i : Nat}
  (h : ¬ CopiedAt r.sites v b i) : r.nameAt v b (point i) = r.nameAt v b (before i) := by
 grind [nameAt_eq, lastCopy_congr, before_lt_before, before_lt_point]

/-- With no copy after an operation, the name it reads is the one the block ends with. -/
theorem endName_eq_nameAt (h : SplitInput f r) {v : Nat} {b : Fin f.cfg.size} {i : Nat}
  (hno : ∀ j, i < j → ¬ CopiedAt r.sites v b j) : r.endName v b = r.nameAt v b (point i) := by
 rw [endName_eq h.ordered, nameAt_eq, lastCopy_congr]
 grind [before_lt_point]

theorem nameAt_value (v : Nat) (b : Fin f.cfg.size) (p : Nat) : (r.nameAt v b p).value = v := by
 rw [nameAt_eq]
 rcases lastCopy_cases r.sites v b (some p) with
  ⟨hnone, -⟩ | ⟨j, hj, -⟩
 · rw [hnone]
   exact entryName_value v b
 · rw [hj]
   rfl

section

variable (h : SplitInput f r)

include h

/-- Above the block that defines a value, nothing names it. -/
theorem endName_of_dominator {a c : Fin f.cfg.size} {v : Nat}
  (ha : Reachable (Edge f.cfg.edges) f.cfg.entry a) (hv : f.code.DefinedIn a v)
  (hc : StrictlyDominates (Edge f.cfg.edges) f.cfg.entry c a) :
  r.endName v c = .original v := by
 induction hk : r.dominance.rank c using Nat.strong_induction_on generalizing c with
 | _ k ih =>
  have hrc : Reachable (Edge f.cfg.edges) f.cfg.entry c := hc.2.reachable ha
  have hnot : ¬ Dominates (Edge f.cfg.edges) f.cfg.entry a c := by
   intro hac
   exact hc.1 (hc.2.antisymm hac ha)
  have hdef : ¬ f.code.DefinedBy c v := fun hcv =>
   hc.1 (f.strict.definedBy_unique hcv hv.definedBy)
  have hlive : ¬ f.code.Livein f.cfg.edges c v := by
   intro hl
   obtain ⟨D, hD, hD'⟩ := f.laid.avoiding hnot
   obtain ⟨e, hea, he⟩ := hD' v (hl.mem_of_reaches f.laid f.strict f.no_copies hD)
   exact hea (f.strict.definedBy_unique he hv.definedBy)
  have hcopied : ∀ j, ¬ CopiedAt r.sites v c j := by
   intro j hj
   rcases held_of_copied h.sites hrc hj with h' | h' | ⟨q, op, -, hop, h'⟩
   · exact hlive h'
   · exact hdef (.inl h')
   · exact hdef (.inr ⟨op, mem_of_getElem? hop, mem_append_right _ h'⟩)
  have hmet : v ∉ r.met c := fun hm => hlive (h.met.live c v hm)
  rw [endName_eq h.ordered, lastCopy_none_of _ fun j hj => absurd hj (hcopied j),
   getD_none, entryName, if_neg hmet]
  cases hi : r.dominance.idom c with
  | none => rfl
  | some i =>
   obtain ⟨-, -, hidom⟩ := idom_isIdom h.correct hi
   have hlt := rank_lt h.correct hi
   refine ih (r.dominance.rank i) (by omega) ⟨?_, hidom.1.2.trans hc.2⟩ rfl
   rintro rfl
   exact hnot hidom.1.2

/-- A block that defines a value would enter with the value's own name. -/
theorem entryName_of_definedIn {a : Fin f.cfg.size} {v : Nat}
  (ha : Reachable (Edge f.cfg.edges) f.cfg.entry a) (hv : f.code.DefinedIn a v) :
  r.entryName v a = .original v := by
 have hmet : v ∉ r.met a := fun hm =>
  (h.met.live a v hm).not_definedBy f.strict hv.definedBy
 rw [entryName, if_neg hmet]
 cases hi : r.dominance.idom a with
 | none => rfl
 | some i =>
  obtain ⟨-, -, hidom⟩ := idom_isIdom h.correct hi
  exact h.endName_of_dominator ha hv hidom.1

/-- After its definition a value has its own name. -/
theorem nameAt_of_def {b : Fin f.cfg.size} {i v : Nat}
  {op : Instr f.cfg.size Nat} (hb : Reachable (Edge f.cfg.edges) f.cfg.entry b)
  (hop : (f.code.ops b)[i]? = some op) (hv : v ∈ op.defs) :
  r.nameAt v b (point i) = .original v := by
 have hin : f.code.DefinedIn b v := .inr ⟨op, mem_of_getElem? hop, hv⟩
 rw [nameAt_eq, lastCopy_none_of, getD_none, h.entryName_of_definedIn hb hin]
 intro j hj hlt
 have hji : j ≤ i := before_lt_point.1 (by simpa using hlt)
 have := not_copied_of_def h.sites hb hop hv hj
 omega

/-- Up the tree from a block that writes no name of a value, to a dominator of it. -/
theorem endName_climb {i p : Fin f.cfg.size} {v : Nat} (hp : Reachable (Edge f.cfg.edges) f.cfg.entry p)
  (hdom : Dominates (Edge f.cfg.edges) f.cfg.entry i p) (hquiet : ∀ x, Between r.dominance i p x →
   (∀ j, ¬ CopiedAt r.sites v x j) ∧ v ∉ r.met x) :
  r.endName v p = r.endName v i := by
 induction hk : r.dominance.rank p using Nat.strong_induction_on generalizing p with
 | _ k ih =>
  by_cases hpi : p = i
  · rw [hpi]
  · obtain ⟨hcopied, hmet⟩ := hquiet p (Between.here hpi)
    have hpe : p ≠ f.cfg.entry := by
     rintro rfl
     exact hpi ((Dominates.root i).antisymm hdom (hdom.reachable hp))
    obtain ⟨q, hq⟩ := exists_idom h.correct hp hpe
    obtain ⟨-, -, hidom⟩ := idom_isIdom h.correct hq
    have hlt := rank_lt h.correct hq
    have hup := ih (r.dominance.rank q) (by omega) (hidom.1.2.reachable hp)
     (hidom.2 i ⟨Ne.symm hpi, hdom⟩) (fun x hx => hquiet x (Between.up hpi hq hx)) rfl
    rw [endName_eq h.ordered, lastCopy_none_of _ fun j hj => absurd hj (hcopied j),
     getD_none, entryName, if_neg hmet, hq]
    exact hup

end

theorem not_entry_of_livein {b : Fin f.cfg.size} {v : Nat}
  (hv : f.code.Livein f.cfg.edges b v) : b ≠ f.cfg.entry := by
 rintro rfl
 have := hv.mem_of_reaches f.laid f.strict f.no_copies Code.Reaches.entry
 exact hv.not_definedBy f.strict (.inl this)

/-- **Across an edge a live value keeps its name**, unless its names meet there. -/
theorem entryName_eq_endName (h : SplitInput f r) {p b : Fin f.cfg.size} {v : Nat}
  (hp : Reachable (Edge f.cfg.edges) f.cfg.entry p) (he : b ∈ f.cfg.edges p)
  (hlive : f.code.Livein f.cfg.edges b v) (hmet : v ∉ r.met b) :
  r.entryName v b = r.endName v p := by
 have hb : Reachable (Edge f.cfg.edges) f.cfg.entry b := hp.step he
 obtain ⟨i, hi⟩ := exists_idom h.correct hb (not_entry_of_livein hlive)
 obtain ⟨-, -, hidom⟩ := idom_isIdom h.correct hi
 rw [entryName, if_neg hmet, hi]
 refine (h.endName_climb hp (hidom.1.pred he) fun x hx => ?_).symm
 -- a block on the way that wrote a name would have the join in its frontier
 by_cases hv : v ∈ splitValues r.sites
 · have hjoin := h.met.joins v hv b i p x hi he hx hlive
   grind
 · exact ⟨fun j hj => hv (mem_splitValues.2 ⟨x, j, hj⟩), fun hm => hv (h.met.split x v hm)⟩

/-- A value no site copies has its own name everywhere. -/
theorem nameAt_of_not_split (h : SplitInput f r) {v : Nat} (hv : v ∉ splitValues r.sites)
  (b : Fin f.cfg.size) (p : Nat) : r.nameAt v b p = .original v := by
 have hcopied : ∀ (c : Fin f.cfg.size) j, ¬ CopiedAt r.sites v c j := fun c j hj =>
  hv (mem_splitValues.2 ⟨c, j, hj⟩)
 have hmet : ∀ c, v ∉ r.met c := fun c hm => hv (h.met.split c v hm)
 have hend : ∀ steps c, r.climbNames v steps c = .original v := by
  intro steps
  induction steps with
  | zero => exact fun c => rfl
  | succ steps ih =>
   intro c
   rw [climbNames, lastCopy_none_of _ fun j hj => absurd hj (hcopied c j)]
   grind
 rw [nameAt_eq, lastCopy_none_of _ fun j hj => absurd hj (hcopied b j), getD_none,
  entryName, if_neg (hmet b)]
 cases r.dominance.idom b with
 | none => rfl
 | some i => exact hend _ i

/-- Every read is renamed to the name that reaches it. -/
theorem rename_eq (h : SplitInput f r) (b : Fin f.cfg.size) (i v : Nat) :
  rename r b i v = r.nameAt v b (point i) := by
 by_cases hv : v ∈ splitValues r.sites
 · rw [rename, if_pos hv]
 · rw [rename, if_neg hv, h.nameAt_of_not_split hv]

end SplitInput

/-! ## The memo of the names -/

namespace Reach

variable {n : Nat} {r : Naming n} {memo : EndNames n} {value : Nat} {block : Fin n}

/-- What the memo holds is what the climb finds. -/
def Sound (r : Naming n) (memo : EndNames n) : Prop :=
 ∀ block value name, memo block value = some name → r.endName value block = name

/-- The lookup ends with the name, and leaves a sound memo. -/
def Finds (r : Naming n) (lookup : Nat → Option (Name n × EndNames n)) (name : Name n) : Prop :=
 ∃ memo, Returns lookup (name, memo) ∧ Sound r memo

theorem Sound.insert (h : Sound r memo) (value : Nat) (block : Fin n) :
  Sound r (Function.update memo block (Function.update (memo block) value (some (r.endName value block)))) := by
 intro b v name hname
 rcases eq_or_ne b block with rfl | hb
 · rcases eq_or_ne v value with rfl | hv
   · simpa using hname
   · exact h _ _ _ (by simpa [hv] using hname)
 · exact h _ _ _ (by simpa [hb] using hname)

theorem finds_atWith {endOf : Nat → EndNames n → Fin n → Option (Name n × EndNames n)} (hr : r.Ordered) (h : Sound r memo)
  (hend : ∀ above, r.dominance.rank above < r.dominance.rank block →
   Finds r (fun fuel => endOf fuel memo above) (r.endName value above)) (limit : Option Nat) :
  Finds r (fun fuel => atWith r (endOf fuel) value memo block limit)
   ((lastCopy r.sites value block limit).getD (r.entryName value block)) := by
 simp only [atWith, entryWith, entryName]
 cases lastCopy r.sites value block limit with
 | some name => exact ⟨memo, .pure _, h⟩
 | none =>
  by_cases hmet : value ∈ r.met block
  · exact ⟨memo, by simpa [hmet] using .pure _, h⟩
  · cases hidom : r.dominance.idom block with
    | none => exact ⟨memo, by simpa [hmet] using .pure _, h⟩
    | some above =>
     have hlt := hr block above hidom
     have hne : above ≠ block := by
      rintro rfl
      omega
     simpa [hmet, hne] using hend above hlt

theorem finds_endAt (hr : r.Ordered) (h : Sound r memo) (block : Fin n) :
  Finds r (fun fuel => endAt r value fuel memo block) (r.endName value block) := by
 induction hk : r.dominance.rank block using Nat.strong_induction_on generalizing block with
 | _ k ih =>
  cases hmemo : memo block value with
  | some name =>
   refine ⟨memo, .turn (fun fuel => ?_) (.pure _), h⟩
   rw [endAt, hmemo, h _ _ _ hmemo]
  | none =>
   have hlow : ∀ above, r.dominance.rank above < r.dominance.rank block → Finds r (fun fuel => endAt r value fuel memo above) (r.endName value above) :=
    fun above hlt => ih _ (hk ▸ hlt) above rfl
   obtain ⟨memo', hat, hsound⟩ := finds_atWith hr h hlow none
   rw [← endName_eq hr] at hat
   refine ⟨_, .turn (fun fuel => by rw [endAt, hmemo]) (hat.imp fun _ hfound fuel hfuel => ?_), hsound.insert value block⟩
   simp only [hfound fuel hfuel, Option.map_some]

/-- A lookup after others, from the memo they left. -/
def lookUp (r : Naming n) (fuel : Nat) (found : List (Name n) × EndNames n) (lookup : Nat × Fin n × Nat) :
  Option (List (Name n) × EndNames n) := do
 let named ← nameAt r fuel found.2 lookup.1 lookup.2.1 lookup.2.2
 return (found.1 ++ [named.1], named.2)

/-- **The memo changes no name**: over the dominators of any function, lookups in any order from the empty memo on give
the names of the climb. -/
theorem names_agree {B : Type} [DecidableEq B] (g : MachineCfg B) (sites : List (Site g.size)) (met : Fin g.size → List Nat) :
  ∃ d, Returns (fun fuel => g.dominance fuel) d ∧ ∀ lookups : List _, ∃ memo,
   Returns (fun fuel => lookups.foldlM (lookUp ⟨sites, met, d⟩ fuel) ([], fun _ _ => none))
    (lookups.map fun lookup => (⟨sites, met, d⟩ : Naming _).nameAt lookup.1 lookup.2.1 lookup.2.2, memo) := by
 obtain ⟨d, hd, hcorrect⟩ := g.dominance_returns
 refine ⟨d, hd, fun lookups => ?_⟩
 have hr : (⟨sites, met, d⟩ : Naming _).Ordered := fun _ _ hi => rank_lt hcorrect hi
 generalize (⟨sites, met, d⟩ : Naming _) = r at hr ⊢
 obtain ⟨⟨names, memo⟩, hrun, rfl, -⟩ := @Returns.foldlM _ _ (lookUp r)
  (fun passed found => found.1 = passed.map (fun lookup => r.nameAt lookup.1 lookup.2.1 lookup.2.2) ∧ Sound r found.2) lookups
  (fun passed lookup rest found _ h => by
   obtain ⟨memo, hat, hm⟩ := finds_atWith hr h.2 (fun above _ => finds_endAt hr h.2 above) (some lookup.2.2)
   rw [← nameAt_eq] at hat
   exact ⟨_, hat.bind (.pure _), by simp [h.1], hm⟩) ([], fun _ _ => none) ⟨rfl, fun _ _ _ h => by cases h⟩
 exact ⟨memo, hrun⟩

end Reach

end Tir.RegAlloc
