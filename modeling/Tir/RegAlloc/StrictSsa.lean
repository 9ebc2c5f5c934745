import Tir.RegAlloc.MachineCode

/-!
# Paths through machine code

The paths of `Code.Reaches` against the walks of the block graph. A walk that comes to a block for
the first time passes no definition of that block (`Laid.first_visit`), and a walk that avoids a
block passes none of its definitions (`Laid.reaches_of_walk`): this is how strict SSA form
turns into facts about dominators. A value live into a block is defined on every path to it
(`Livein.mem_of_reaches`).
-/

open List

namespace Tir.RegAlloc

open Tir.Graph Tir.Backend

variable {n : Nat} {N : Type}

namespace Code

/-- The edges of the graph are the branches of the code, and an `asm.vbr` ends its block. -/
structure Laid (f : Code n N) (edges : Fin n → List (Fin n)) : Prop where
 branch_iff : ∀ a b, b ∈ edges a ↔
  ∃ (i : Nat) (op : Instr n N), (f.ops a)[i]? = some op ∧ b ∈ op.succs
 vbr_last : ∀ b i op, (f.ops b)[i]? = some op → op.vbr = true → i + 1 = (f.ops b).length

/-- A parameter, copy or result of the block. -/
def DefinedBy (f : Code n N) (block : Fin n) (x : N) : Prop :=
 x ∈ f.params block ∨ ∃ op ∈ f.ops block, x ∈ op.defined

/-- What the operations of a block before an index define. -/
def definedUpTo (f : Code n N) (block : Fin n) (i : Nat) : List N :=
 ((f.ops block).take i).flatMap fun op => op.defined

variable {f : Code n N} {edges : Fin n → List (Fin n)} {entry : Fin n}

theorem mem_definedUpTo {b : Fin n} {i : Nat} {x : N} :
  x ∈ f.definedUpTo b i ↔ ∃ (q : Nat) (op : Instr n N), q < i ∧ (f.ops b)[q]? = some op ∧ x ∈ op.defined := by
 rw [definedUpTo, mem_flatMap]
 constructor
 · rintro ⟨op, hop, hx⟩
   obtain ⟨q, hq, hget⟩ := mem_take_iff_getElem.1 hop
   refine ⟨q, op, by omega, ?_, hx⟩
   rw [getElem?_eq_getElem (by omega), hget]
 · rintro ⟨q, op, hq, hop, hx⟩
   obtain ⟨hlt, hget⟩ := List.getElem?_eq_some_iff.1 hop
   exact ⟨op, mem_take_iff_getElem.2 ⟨q, by omega, hget⟩, hx⟩

theorem definedUpTo_succ {b : Fin n} {i : Nat} {op : Instr n N} (hop : (f.ops b)[i]? = some op) :
  f.definedUpTo b (i + 1) = f.definedUpTo b i ++ op.defined := by
 obtain ⟨hlt, hget⟩ := List.getElem?_eq_some_iff.1 hop
 rw [definedUpTo, definedUpTo, take_succ_eq_append_getElem hlt, flatMap_append, hget]
 simp

theorem DefinedBy.of_definedUpTo {b : Fin n} {i : Nat} {x : N} (h : x ∈ f.definedUpTo b i) :
  f.DefinedBy b x := by
 obtain ⟨q, op, -, hop, hx⟩ := mem_definedUpTo.1 h
 exact .inr ⟨op, mem_of_getElem? hop, hx⟩

section

variable (h : f.Laid edges)

include h

/-- Every operation of a block is reached from its start. -/
theorem Reaches.fall {b : Fin n} {D : List N} (hb : f.Reaches entry b 0 D)
  {i : Nat} {op : Instr n N} (hop : (f.ops b)[i]? = some op) :
  f.Reaches entry b i (D ++ f.definedUpTo b i) := by
 induction i generalizing op with
 | zero => simpa [definedUpTo] using hb
 | succ i ih =>
  have hlt : i + 1 < (f.ops b).length := (List.getElem?_eq_some_iff.1 hop).1
  have hi : (f.ops b)[i]? = some ((f.ops b)[i]) := getElem?_eq_getElem (by omega)
  have hvbr : ((f.ops b)[i]).vbr = false := by
   by_contra hv
   have := h.vbr_last b i _ hi (by simpa using hv)
   omega
  rw [definedUpTo_succ hi, ← append_assoc]
  exact Reaches.next (ih hi) hi hvbr

theorem Reaches.reachable {b : Fin n} {i : Nat} {D : List N}
  (hb : f.Reaches entry b i D) : Reachable (Edge edges) entry b := by
 induction hb with
 | entry => exact Reachable.root
 | next _ _ _ ih => exact ih
 | jump _ hop hx ih => exact ih.step ((h.branch_iff _ _).2 ⟨_, _, hop, hx⟩)

/-- A walk of the block graph as a path: it defines what the blocks on it define. -/
theorem Laid.reaches_of_walk {b : Fin n} {l : List (Fin n)} (hw : Walk (Edge edges) entry b l) :
  ∃ D, f.Reaches entry b 0 D ∧ ∀ x ∈ D, x ∈ f.params b ∨ ∃ a ∈ l.tail, f.DefinedBy a x := by
 induction hw with
 | root => exact ⟨_, Reaches.entry, fun x hx => .inl hx⟩
 | @step a b l hw he ih =>
  obtain ⟨D, hD, hdef⟩ := ih
  obtain ⟨i, op, hop, hb⟩ := (h.branch_iff a b).1 he
  refine ⟨_, (hD.fall h hop).jump hop hb, fun x hx => ?_⟩
  obtain ⟨t, rfl⟩ := hw.head
  rcases mem_append.1 hx with hx | hx
  · refine .inr ?_
    rcases mem_append.1 hx with hx | hx
    · rcases mem_append.1 hx with hx | hx
      · rcases hdef x hx with hx | ⟨c, hc, hx⟩
        · exact ⟨a, .head _, .inl hx⟩
        · exact ⟨c, mem_cons_of_mem a hc, hx⟩
      · exact ⟨a, .head _, DefinedBy.of_definedUpTo hx⟩
    · exact ⟨a, .head _, .inr ⟨op, mem_of_getElem? hop, hx⟩⟩
  · exact .inl hx

/-- Some path comes to a reachable block before it has defined anything of that block. -/
theorem Laid.first_visit {b : Fin n} (hb : Reachable (Edge edges) entry b) :
  ∃ D, f.Reaches entry b 0 D ∧ ∀ x ∈ D, x ∈ f.params b ∨ ∃ a, a ≠ b ∧ f.DefinedBy a x := by
 obtain ⟨l, hl, hfst⟩ := hb.exists_first
 obtain ⟨D, hD, hdef⟩ := h.reaches_of_walk hl
 refine ⟨D, hD, fun x hx => ?_⟩
 rcases hdef x hx with hx | ⟨a, ha, hx⟩
 · exact .inl hx
 · exact .inr ⟨a, fun hab => hfst (hab ▸ ha), hx⟩

/-- Some path comes to a block without passing a block that does not dominate it. -/
theorem Laid.avoiding {a b : Fin n} (hnot : ¬ Dominates (Edge edges) entry b a) :
  ∃ D, f.Reaches entry a 0 D ∧ ∀ x ∈ D, ∃ c, c ≠ b ∧ f.DefinedBy c x := by
 obtain ⟨l, hl, hb⟩ : ∃ l, Walk (Edge edges) entry a l ∧ b ∉ l := by
  simpa [Dominates] using hnot
 obtain ⟨D, hD, hdef⟩ := h.reaches_of_walk hl
 refine ⟨D, hD, fun x hx => ?_⟩
 rcases hdef x hx with hx | ⟨c, hc, hx⟩
 · exact ⟨a, fun hab => hb (hab ▸ hl.self_mem), .inl hx⟩
 · exact ⟨c, fun hcb => hb (hcb ▸ mem_of_mem_tail hc), hx⟩

end

/-! ## Definitions -/

theorem DefinedIn.definedBy {b : Fin n} {x : N} (h : f.DefinedIn b x) : f.DefinedBy b x := by
 rcases h with h | ⟨op, hop, hx⟩
 · exact .inl h
 · exact .inr ⟨op, hop, mem_append_right _ hx⟩

theorem DefinedBy.exists_site {b : Fin n} {x : N} (h : f.DefinedBy b x) : ∃ s, f.definesAt s = some x ∧
   ((∃ k, s = .param b k) ∨ (∃ i k, s = .copy b i k) ∨ ∃ i k, s = .result b i k) := by
 rcases h with h | ⟨op, hop, hx⟩
 · obtain ⟨k, hk⟩ := mem_iff_getElem?.1 h
   exact ⟨.param b k, hk, .inl ⟨k, rfl⟩⟩
 · obtain ⟨i, hi⟩ := mem_iff_getElem?.1 hop
   rcases mem_append.1 hx with hx | hx
   · obtain ⟨k, hk⟩ := mem_iff_getElem?.1 hx
     exact ⟨.copy b i k, by simp [definesAt, hi, hk], .inr (.inl ⟨i, k, rfl⟩)⟩
   · obtain ⟨k, hk⟩ := mem_iff_getElem?.1 hx
     exact ⟨.result b i k, by simp [definesAt, hi, hk], .inr (.inr ⟨i, k, rfl⟩)⟩

theorem StrictSSA.definedBy_unique (h : f.StrictSSA entry) {a b : Fin n} {x : N}
  (ha : f.DefinedBy a x) (hb : f.DefinedBy b x) : a = b := by
 obtain ⟨s, hs, hsa⟩ := ha.exists_site
 obtain ⟨t, ht, htb⟩ := hb.exists_site
 obtain rfl := h.unique s t x hs ht
 rcases hsa with ⟨k, rfl⟩ | ⟨i, k, rfl⟩ | ⟨i, k, rfl⟩
 · simpa using htb
 · simpa using htb
 · simpa using htb

theorem StrictSSA.not_param_of_result (h : f.StrictSSA entry) {a b : Fin n} {i : Nat}
  {op : Instr n N} {x : N} (hop : (f.ops b)[i]? = some op) (hx : x ∈ op.defs) :
  x ∉ f.params a := by
 intro hp
 obtain ⟨k, hk⟩ := mem_iff_getElem?.1 hp
 obtain ⟨m, hm⟩ := mem_iff_getElem?.1 hx
 have := h.unique (.param a k) (.result b i m) x hk (by simp [definesAt, hop, hm])
 nomatch this

theorem StrictSSA.result_index (h : f.StrictSSA entry) {b : Fin n} {i j : Nat}
  {op op' : Instr n N} {x : N} (hop : (f.ops b)[i]? = some op) (hx : x ∈ op.defs)
  (hop' : (f.ops b)[j]? = some op') (hx' : x ∈ op'.defs) : i = j := by
 obtain ⟨k, hk⟩ := mem_iff_getElem?.1 hx
 obtain ⟨m, hm⟩ := mem_iff_getElem?.1 hx'
 have := h.unique (.result b i k) (.result b j m) x (by simp [definesAt, hop, hk])
  (by simp [definesAt, hop', hm])
 simpa using (DefSite.result.inj this).2.1

/-! ## Liveness -/

theorem Livein.definedIn_ne {b : Fin n} {x : N} (h : f.Livein edges b x) :
  ∃ d, f.DefinedIn d x ∧ d ≠ b := by
 cases h with
 | use _ _ hd hne => exact ⟨_, hd, hne⟩
 | out _ _ hd hne => exact ⟨_, hd, hne⟩

theorem Livein.not_definedBy (hs : f.StrictSSA entry) {b : Fin n} {x : N}
  (h : f.Livein edges b x) : ¬ f.DefinedBy b x := by
 obtain ⟨d, hd, hne⟩ := h.definedIn_ne
 exact fun hb => hne (hs.definedBy_unique hd.definedBy hb)

/-- A value live into a block is defined on every path to the block. -/
theorem Livein.mem_of_reaches (hl : f.Laid edges) (hs : f.StrictSSA entry)
  (hcopies : ∀ b, ∀ op ∈ f.ops b, op.copies = []) {b : Fin n} {x : N}
  (h : f.Livein edges b x) {D : List N} (hD : f.Reaches entry b 0 D) : x ∈ D := by
 -- by induction on how the value came to be live: at a read the definition is behind
 induction h generalizing D with
 | @use b d x op hop hx hd hne =>
  have hnot : ¬ f.DefinedBy b x := (Livein.use hop hx hd hne : f.Livein edges b x).not_definedBy hs
  obtain ⟨i, hi⟩ := mem_iff_getElem?.1 hop
  have hmem := (hs.dominated b i _ op (hD.fall hl hi) hi).2 x hx
  have hcopied : op.copied = [] := by simp [Instr.copied, hcopies b op hop]
  rw [hcopied, append_nil] at hmem
  rcases mem_append.1 hmem with hmem | hmem
  · exact hmem
  · exact absurd (DefinedBy.of_definedUpTo hmem) hnot
 | @out b s d x he hlive hd hne ih =>
  have hnot : ¬ f.DefinedBy b x := (Livein.out he hlive hd hne : f.Livein edges b x).not_definedBy hs
  obtain ⟨i, op, hop, hsucc⟩ := (hl.branch_iff b s).1 he
  have hmem := ih ((hD.fall hl hop).jump hop hsucc)
  rcases mem_append.1 hmem with hmem | hmem
  · rcases mem_append.1 hmem with hmem | hmem
    · rcases mem_append.1 hmem with hmem | hmem
      · exact hmem
      · exact absurd (DefinedBy.of_definedUpTo hmem) hnot
    · exact absurd (.inr ⟨op, mem_of_getElem? hop, hmem⟩) hnot
  · exact absurd (.inl hmem) (hlive.not_definedBy hs)

end Code

end Tir.RegAlloc
