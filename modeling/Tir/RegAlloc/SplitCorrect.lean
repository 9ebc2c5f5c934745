import Tir.RegAlloc.SplitCode

/-!
# The split and strict SSA form

`CopiedBeforeBranches` says that no site after a branch of its block copies a value that is live
into the branch's target. Under it the new code is in strict SSA form (`SplitInput.strict`).
Without it the target of that branch reads a copy that its path never ran, so that the new
code is not in strict SSA form (`SplitInput.not_strict`).
-/

open List Option

namespace Tir.RegAlloc

open Tir.Graph Tir.Backend Naming

variable {B : Type} [DecidableEq B] {f : MachineFunction B} {r : Naming f.cfg.size}

/-- No site after a branch of a reachable block copies a value live into the branch's target. -/
def CopiedBeforeBranches (f : MachineFunction B) (sites : List (Site f.cfg.size)) : Prop :=
 ∀ b, Reachable (Edge f.cfg.edges) f.cfg.entry b → ∀ (i : Nat) (op : Instr f.cfg.size Nat),
  (f.code.ops b)[i]? = some op → ∀ x ∈ op.succs, ∀ (j v : Nat), i < j →
   CopiedAt sites v b j → ¬ f.code.Livein f.cfg.edges x v

/-- What is held after an operation is one of its results or was held before it. -/
theorem Held.of_succ {v : Nat} {b : Fin f.cfg.size} {i : Nat} {op : Instr f.cfg.size Nat}
  (hop : (f.code.ops b)[i]? = some op) (h : Held f v b (i + 1)) : v ∈ op.defs ∨ Held f v b i := by
 rcases h with h | h | ⟨q, op', hq, hop', h⟩
 · exact .inr (.inl h)
 · exact .inr (.inr (.inl h))
 · by_cases hqi : q = i
   · grind
   · exact .inr (.inr (.inr ⟨q, op', by omega, hop', h⟩))

namespace SplitInput

variable {b : Fin f.cfg.size} {i v : Nat} {op : Instr f.cfg.size Nat} {D' : List (Name f.cfg.size)}

/-- On entry to a block, through a branch: a parameter, a value that meets there, or a live
value under the name the branch saw. -/
theorem name_of_jump (h : SplitInput f r) (hc : CopiedBeforeBranches f r.sites) {x : Fin f.cfg.size}
  (hb : Reachable (Edge f.cfg.edges) f.cfg.entry b) (hop : (f.code.ops b)[i]? = some op)
  (hx : x ∈ op.succs) (hv : Held f v x 0) : (v ∈ f.code.params x ∧ r.nameAt v x (before 0) = .original v) ∨
   (f.code.Livein f.cfg.edges x v ∧ v ∉ f.code.params x ∧ Held f v b (i + 1) ∧ r.endName v b = r.nameAt v b (point i) ∧
    ((v ∈ r.met x ∧ r.nameAt v x (before 0) = .param x v) ∨
      v ∉ r.met x ∧ r.nameAt v x (before 0) = r.nameAt v b (point i))) := by
 have hedge : x ∈ f.cfg.edges b := (f.edges_iff b x).2 ⟨op, mem_of_getElem? hop, hx⟩
 rw [nameAt_zero]
 rcases hv with hlive | hp | ⟨q, -, hq, -⟩
 · have hend : r.endName v b = r.nameAt v b (point i) :=
    h.endName_eq_nameAt fun j hij hj => hc b hb i op hop x hx j v hij hj hlive
   refine .inr ⟨hlive, fun hp => hlive.not_definedBy f.strict (.inl hp),
    held_of_livein hb hop hx hlive, hend, ?_⟩
   by_cases hm : v ∈ r.met x
   · exact .inl ⟨hm, by rw [entryName, if_pos hm]⟩
   · exact .inr ⟨hm, by rw [h.entryName_eq_endName hb hedge hlive hm, hend]⟩
 · exact .inl ⟨hp, h.entryName_of_definedIn (hb.step hedge) (.inl hp)⟩
 · exact absurd hq (Nat.not_lt_zero q)

/-- On entry to the function only its parameters are held. -/
theorem name_of_entry (h : SplitInput f r) (hv : Held f v f.cfg.entry 0) :
  v ∈ f.code.params f.cfg.entry ∧ r.nameAt v f.cfg.entry (before 0) = .original v := by
 rcases hv with hlive | hp | ⟨q, -, hq, -⟩
 · exact absurd rfl (not_entry_of_livein hlive)
 · refine ⟨hp, ?_⟩
   rw [nameAt_zero]
   exact h.entryName_of_definedIn Reachable.root (.inl hp)
 · exact absurd hq (Nat.not_lt_zero q)

/-- The last operation of a block has no copy after it. -/
theorem endName_of_vbr (h : SplitInput f r) (hop : (f.code.ops b)[i]? = some op) (hvbr : op.vbr = true) :
  r.endName v b = r.nameAt v b (point i) := by
 refine h.endName_eq_nameAt fun j hij hj => ?_
 obtain ⟨s, hs, rfl, rfl, -⟩ := hj
 obtain ⟨op', hop', -⟩ := h.sites.operation s hs
 have h1 := f.vbr_last _ i op hop hvbr
 grind

/-! ## Strict SSA form -/

/-- A path of the new code is one of the old code, and it has defined the names that reach its
end. -/
structure Covers (r : Naming f.cfg.size) (b : Fin f.cfg.size) (i : Nat) (D : List Nat)
  (D' : List (Name f.cfg.size)) : Prop where
 path : f.code.Reaches f.cfg.entry b i D
 named : ∀ v, Held f v b i → r.nameAt v b (before i) ∈ D'

section

variable (h : SplitInput f r)

include h

theorem Covers.read {D : List Nat} (hcov : Covers r b i D D') (hv : Held f v b i) :
  r.nameAt v b (point i) ∈ D' ++ (splitOp f.code r b i op).copied := by
 by_cases hcopied : CopiedAt r.sites v b i
 · rw [nameAt_copied hcopied]
   exact mem_append_right _ (h.mem_copied.2 ⟨v, hcopied, rfl⟩)
 · rw [nameAt_not_copied hcopied]
   exact mem_append_left _ (hcov.named v hv)

theorem Covers.after {D : List Nat} (hcov : Covers r b i D D')
  (hop : (f.code.ops b)[i]? = some op) (hv : Held f v b (i + 1)) :
  r.nameAt v b (point i) ∈ D' ++ (splitOp f.code r b i op).defined := by
 have hb := hcov.path.reachable f.laid
 rw [Instr.defined, ← append_assoc]
 rcases hv.of_succ hop with hdef | hheld
 · rw [h.nameAt_of_def hb hop hdef]
   exact mem_append_right _ (mem_map.2 ⟨v, hdef, rfl⟩)
 · exact mem_append_left _ (hcov.read h hheld)

theorem exists_covers (hc : CopiedBeforeBranches f r.sites)
  (hD' : (splitCode f.code r).Reaches f.cfg.entry b i D') : ∃ D, Covers r b i D D' := by
 induction hD' with
 | entry =>
  refine ⟨_, Code.Reaches.entry, fun v hv => ?_⟩
  obtain ⟨hp, hname⟩ := h.name_of_entry hv
  rw [hname]
  exact mem_append_left _ (mem_map.2 ⟨v, hp, rfl⟩)
 | next _ hop' hvbr ih =>
  obtain ⟨D, hcov⟩ := ih
  obtain ⟨op, hop, rfl⟩ := splitCode_op.1 hop'
  refine ⟨_, hcov.path.next hop hvbr, fun v hv => ?_⟩
  rw [nameAt_next]
  exact hcov.after h hop hv
 | jump _ hop' hx ih =>
  obtain ⟨D, hcov⟩ := ih
  obtain ⟨op, hop, rfl⟩ := splitCode_op.1 hop'
  refine ⟨_, hcov.path.jump hop hx, fun v hv => ?_⟩
  rcases h.name_of_jump hc (hcov.path.reachable f.laid) hop hx hv with
   ⟨hp, hname⟩ | ⟨-, -, hheld, -, ⟨hm, hname⟩ | ⟨-, hname⟩⟩
  · rw [hname]
    exact mem_append_right _ (mem_append_left _ (mem_map.2 ⟨v, hp, rfl⟩))
  · rw [hname]
    exact mem_append_right _ (mem_append_right _ (mem_map.2 ⟨v, hm, rfl⟩))
  · rw [hname]
    exact mem_append_left _ (hcov.after h hop hheld)

/-- **The new code is in strict SSA form.** -/
theorem strict (hc : CopiedBeforeBranches f r.sites) :
  (splitCode f.code r).StrictSSA f.cfg.entry := by
 refine ⟨h.definesAt_unique, fun b i D' op' hD' hop' => ?_⟩
 obtain ⟨D, hcov⟩ := h.exists_covers hc hD'
 obtain ⟨op, hop, rfl⟩ := splitCode_op.1 hop'
 have hb := hcov.path.reachable f.laid
 refine ⟨fun c hcopy => ?_, fun x hx => ?_⟩
 · obtain ⟨v, hv, rfl⟩ := h.mem_copiesAt.1 hcopy
   exact hcov.named v (held_of_copied h.sites hb hv)
 · have hread : ∀ v ∈ op.reads, rename r b i v ∈ D' ++ (splitOp f.code r b i op).copied := by
    intro v hv
    rw [h.rename_eq]
    exact hcov.read h (held_of_read hb hop hv)
   rcases mem_append.1 hx with hx | hx
   · obtain ⟨v, hv, rfl⟩ := mem_map.1 hx
     exact hread v (mem_append_left _ hv)
   · rcases mem_append.1 hx with hx | hx
     · obtain ⟨v, hv, rfl⟩ := mem_map.1 hx
       exact hread v (mem_append_right _ hv)
     · -- an added argument: the name its value has at the end of the block
       obtain ⟨hvbr, y, v, hy, hm, rfl⟩ := mem_argsAt hop hx
       rw [h.endName_of_vbr hop hvbr]
       have hheld := held_of_livein hb hop hy (h.met.live y v hm)
       rcases hheld.of_succ hop with hdef | hheld
       · rw [(f.vbr_args b op (mem_of_getElem? hop) hvbr).1] at hdef
         nomatch hdef
       · exact hcov.read h hheld

end

/-! ## A copy after the branch -/

section

variable (h : SplitInput f r) (hlive : f.code.Livein f.cfg.edges b v)

include h hlive

/-- Before its first copy in a block, a live value's entry name is not defined there. -/
theorem ne_entryName_of_defined {k : Nat} (hop : (f.code.ops b)[k]? = some op) (hcopied : ¬ CopiedAt r.sites v b k)
  {x : Name f.cfg.size} (hx : x ∈ (splitOp f.code r b k op).defined) :
  x ≠ r.entryName v b := by
 rintro rfl
 have hval := entryName_value (r := r) v b
 rcases mem_append.1 hx with hx | hx
 · obtain ⟨w, hw, heq⟩ := h.mem_copied.1 hx
   rw [heq] at hval
   have hwv : w = v := hval
   exact hcopied (hwv ▸ hw)
 · obtain ⟨w, hw, heq⟩ := mem_map.1 hx
   rw [← heq] at hval
   have hwv : w = v := hval
   exact hlive.not_definedBy f.strict
    (.inr ⟨op, mem_of_getElem? hop, mem_append_right _ (hwv ▸ hw)⟩)

theorem entryName_not_mem_upTo {k : Nat}
  (hmiss : r.entryName v b ∉ D') (hcopied : ∀ j, j < k → ¬ CopiedAt r.sites v b j) :
  r.entryName v b ∉ D' ++ (splitCode f.code r).definedUpTo b k := by
 intro hx
 rcases mem_append.1 hx with hx | hx
 · exact hmiss hx
 · obtain ⟨q, op', hq, hop', hx⟩ := Code.mem_definedUpTo.1 hx
   obtain ⟨op, hop, rfl⟩ := splitCode_op.1 hop'
   exact h.ne_entryName_of_defined hlive hop (hcopied q hq) hx rfl

end

/-- On a path that enters a block without the name of a live value, a copy of the value would
read that name: strict SSA form leaves room for none. -/
theorem not_copied_of_missing (h : SplitInput f r) (hs : (splitCode f.code r).StrictSSA f.cfg.entry)
  (hlive : f.code.Livein f.cfg.edges b v)
  (hD' : (splitCode f.code r).Reaches f.cfg.entry b 0 D') (hmiss : r.entryName v b ∉ D')
  (j : Nat) : ¬ CopiedAt r.sites v b j := by
 -- the first copy of the block is the one that reads the entry name
 induction j using Nat.strong_induction_on with
 | _ j ih =>
  intro hcopied
  obtain ⟨op, hop⟩ : ∃ op, (f.code.ops b)[j]? = some op := by
   obtain ⟨s, hs', rfl, rfl, -⟩ := hcopied
   obtain ⟨op, hop, -⟩ := h.sites.operation s hs'
   exact ⟨op, hop⟩
  have hop' := splitCode_op (r := r).2 ⟨op, hop, rfl⟩
  have hfst : r.nameAt v b (before j) = r.entryName v b := by
   grind [nameAt_eq, lastCopy_none_of, before_lt_before]
  have hread := (hs.dominated b j _ _ (hD'.fall splitCode_laid hop') hop').1
   (.copy b j v, r.nameAt v b (before j)) (h.mem_copiesAt.2 ⟨v, hcopied, rfl⟩)
  rw [hfst] at hread
  exact h.entryName_not_mem_upTo hlive hmiss ih hread

theorem entryName_not_mem_params (hlive : f.code.Livein f.cfg.edges b v) (hmet : v ∉ r.met b) :
  r.entryName v b ∉ (splitCode f.code r).params b := by
 have hval := entryName_value (r := r) v b
 intro hmem
 rcases mem_append.1 hmem with hmem | hmem
 · obtain ⟨w, hw, heq⟩ := mem_map.1 hmem
   rw [← heq] at hval
   have hwv : w = v := hval
   exact hlive.not_definedBy f.strict (.inl (hwv ▸ hw))
 · obtain ⟨w, hw, heq⟩ := mem_map.1 hmem
   rw [← heq] at hval
   have hwv : w = v := hval
   exact hmet (hwv ▸ hw)

/-- A copy is not on a path that comes to its block for the first time and leaves before it. -/
theorem copy_not_mem_first (h : SplitInput f r) {e j : Nat} (hej : e < j)
  (hfst : ∀ x ∈ D', x ∈ (splitCode f.code r).params b ∨ ∃ a, a ≠ b ∧ (splitCode f.code r).DefinedBy a x) :
  Name.copy b j v ∉ D' ++ (splitCode f.code r).definedUpTo b e ++
   (splitOp f.code r b e op).defined := by
 have hparams : ∀ a, Name.copy b j v ∉ (splitCode f.code r).params a := by
  intro a hx
  rcases mem_append.1 hx with hx | hx
  · grind
  grind
 have hplace : ∀ a q op, Name.copy b j v ∈ (splitOp f.code r a q op).defined → a = b ∧ q = j := by
  intro a q op hx
  rcases mem_append.1 hx with hx | hx
  · obtain ⟨w, -, heq⟩ := h.mem_copied.1 hx
    grind
  · obtain ⟨w, -, heq⟩ := mem_map.1 hx
    nomatch heq
 intro hx
 rcases mem_append.1 hx with hx | hx
 · rcases mem_append.1 hx with hx | hx
   · rcases hfst _ hx with hx | ⟨a, hab, hx | ⟨op', hop', hx⟩⟩
     · exact hparams b hx
     · exact hparams a hx
     · obtain ⟨q, hq⟩ := mem_iff_getElem?.1 hop'
       grind [splitCode_op]
   grind [Code.mem_definedUpTo, splitCode_op]
 grind

/-- A path that enters a block without the name a live value has there comes to a read of a name
it has not defined. -/
theorem not_strict_of_missing (h : SplitInput f r) (hlive : f.code.Livein f.cfg.edges b v)
  (hD' : (splitCode f.code r).Reaches f.cfg.entry b 0 D') (hmiss : r.entryName v b ∉ D') :
  ¬ (splitCode f.code r).StrictSSA f.cfg.entry := by
 intro hs
 -- what the block reads at an operation is not behind the path
 have hread : ∀ {b : Fin f.cfg.size} {v k : Nat} {op : Instr f.cfg.size Nat}
   {D' : List (Name f.cfg.size)}, f.code.Livein f.cfg.edges b v →
   (splitCode f.code r).Reaches f.cfg.entry b 0 D' → r.entryName v b ∉ D' →
   (f.code.ops b)[k]? = some op → r.entryName v b ∉ (splitOp f.code r b k op).reads := by
  intro b v k op D' hlive hD' hmiss hop hx
  have hcopied := h.not_copied_of_missing hs hlive hD' hmiss
  have hop' := splitCode_op (r := r).2 ⟨op, hop, rfl⟩
  have hmem := (hs.dominated b k _ _ (hD'.fall splitCode_laid hop') hop').2 _ hx
  rcases mem_append.1 hmem with hmem | hmem
  · exact h.entryName_not_mem_upTo hlive hmiss (fun j _ => hcopied j) hmem
  · exact h.ne_entryName_of_defined hlive hop (hcopied k) (mem_append_left _ hmem) rfl
 -- follow the value to its read; a block it leaves before a copy starts a new path
 induction hlive generalizing D' with
 | @use b d x op hop hx hd hne =>
  have hlive : f.code.Livein f.cfg.edges b x := Code.Livein.use hop hx hd hne
  have hcopied := h.not_copied_of_missing hs hlive hD' hmiss
  obtain ⟨k, hk⟩ := mem_iff_getElem?.1 hop
  have hname : rename r b k x = r.entryName x b := by
   rw [h.rename_eq, nameAt_eq, lastCopy_none_of _ fun j hj => absurd hj (hcopied j),
    getD_none]
  refine hread hlive hD' hmiss hk ?_
  rw [← hname]
  rcases mem_append.1 hx with hx | hx
  · exact mem_append_left _ (mem_map.2 ⟨x, hx, rfl⟩)
  · exact mem_append_right _ (mem_append_left _ (mem_map.2 ⟨x, hx, rfl⟩))
 | @out b s d x he hlive hd hne ih =>
  have hliveb : f.code.Livein f.cfg.edges b x := Code.Livein.out he hlive hd hne
  have hcopied := h.not_copied_of_missing hs hliveb hD' hmiss
  have hb : Reachable (Edge f.cfg.edges) f.cfg.entry b := hD'.reachable splitCode_laid
  have hsame : r.endName x b = r.entryName x b := by
   rw [endName_eq h.ordered, lastCopy_none_of _ fun j hj => absurd hj (hcopied j),
    getD_none]
  obtain ⟨e, op, hop, hsucc⟩ := (f.laid.branch_iff b s).1 he
  have hop' := splitCode_op (r := r).2 ⟨op, hop, rfl⟩
  by_cases hm : x ∈ r.met s
  · -- the branch passes the missing name
    have hvbr : op.vbr = true := by
     by_contra hv
     rw [h.passed b e op s hop (by simpa using hv) hsucc] at hm
     nomatch hm
    obtain ⟨-, y, hy, -⟩ := f.vbr_args b op (mem_of_getElem? hop) hvbr
    obtain rfl : s = y := by simpa [hy] using hsucc
    refine hread hliveb hD' hmiss hop ?_
    refine mem_append_right _ (mem_append_right _ ?_)
    grind [argsAt_vbr]
  · -- the same path goes on, and the name is still missing
    have hent : r.entryName x s = r.entryName x b := by
     rw [h.entryName_eq_endName hb he hlive hm, hsame]
    refine ih ((hD'.fall splitCode_laid hop').jump hop' hsucc) fun hx => ?_
    rcases mem_append.1 hx with hx | hx
    · rw [hent] at hx
      rcases mem_append.1 hx with hx | hx
      · exact h.entryName_not_mem_upTo hliveb hmiss (fun j _ => hcopied j) hx
      · exact h.ne_entryName_of_defined hliveb hop (hcopied e) hx rfl
    · exact entryName_not_mem_params hlive hm hx

/-- **A copy after a branch breaks the form** where its value is live into the target. -/
theorem not_strict (h : SplitInput f r) (hc : ¬ CopiedBeforeBranches f r.sites) :
  ¬ (splitCode f.code r).StrictSSA f.cfg.entry := by
 simp only [CopiedBeforeBranches, not_forall, not_not] at hc
 obtain ⟨b, hb, e, op, hop, x, hx, j, v, hej, hcopied, hlive⟩ := hc
 have hedge : x ∈ f.cfg.edges b := (f.edges_iff b x).2 ⟨op, mem_of_getElem? hop, hx⟩
 -- the branch is conditional: an `asm.vbr` has no operation after it
 have hvbr : op.vbr = false := by
  by_contra hv
  obtain ⟨s, hs, rfl, rfl, -⟩ := hcopied
  obtain ⟨op', hop', -⟩ := h.sites.operation s hs
  have h1 := f.vbr_last _ e op hop (by simpa using hv)
  grind
 have hmet : v ∉ r.met x := by
  rw [h.passed b e op x hop hvbr hx]
  exact not_mem_nil
 have hop' := splitCode_op (r := r).2 ⟨op, hop, rfl⟩
 rcases lastCopy_cases r.sites v b none with
  ⟨-, hno⟩ | ⟨k, hk, -, -, hmax⟩
 · exact absurd rfl (hno j hcopied)
 · have hname : r.entryName v x = .copy b k v := by
    rw [h.entryName_eq_endName hb hedge hlive hmet, endName_eq h.ordered, hk,
     getD_some]
   have hek : e < k := hej.trans_le (hmax j hcopied rfl)
   obtain ⟨D, hD, hfst⟩ := (splitCode_laid (r := r)).first_visit hb
   refine h.not_strict_of_missing hlive ((hD.fall splitCode_laid hop').jump hop' hx) fun hmem => ?_
   rcases mem_append.1 hmem with hmem | hmem
   · rw [hname] at hmem
     exact h.copy_not_mem_first hek hfst hmem
   · exact entryName_not_mem_params hlive hmet hmem

end SplitInput

end Tir.RegAlloc
