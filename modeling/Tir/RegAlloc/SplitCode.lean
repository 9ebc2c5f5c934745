import Tir.RegAlloc.SplitReach

/-!
# The code after the split

What the code of `splitCode` has at each place: its operations, the copies before them, the
arguments its branches pass, and one definition for every name (`SplitInput.definesAt_unique`).
-/

open List Option

namespace Tir.RegAlloc

open Tir.Graph Tir.Backend

variable {B : Type} [DecidableEq B] {f : MachineFunction B} {r : Naming f.cfg.size}

theorem splitCode_op {b : Fin f.cfg.size} {i : Nat} {op' : Instr f.cfg.size (Name f.cfg.size)} :
  ((splitCode f.code r).ops b)[i]? = some op' ↔
    ∃ op, (f.code.ops b)[i]? = some op ∧ op' = splitOp f.code r b i op := by
 rw [splitCode, getElem?_mapIdx, map_eq_some_iff]
 constructor
 · grind
 grind

theorem splitCode_laid : (splitCode f.code r).Laid f.cfg.edges := by
 refine ⟨fun a b => (f.laid.branch_iff a b).trans ?_, fun b i op' hop' hv => ?_⟩
 · constructor
   · rintro ⟨i, op, hop, hb⟩
     exact ⟨i, _, splitCode_op.2 ⟨op, hop, rfl⟩, hb⟩
   · rintro ⟨i, op', hop', hb⟩
     obtain ⟨op, hop, rfl⟩ := splitCode_op.1 hop'
     exact ⟨i, op, hop, hb⟩
 · obtain ⟨op, hop, rfl⟩ := splitCode_op.1 hop'
   have := f.vbr_last b i op hop hv
   simpa [splitCode] using this

/-! ## Copies and arguments -/

namespace SplitInput

theorem mem_copiesAt (h : SplitInput f r) {b : Fin f.cfg.size} {i : Nat} {x : Name f.cfg.size × Name f.cfg.size} :
  x ∈ copiesAt r b i ↔
   ∃ v, CopiedAt r.sites v b i ∧ x = (.copy b i v, r.nameAt v b (before i)) := by
 rw [copiesAt]
 cases hfind : r.sites.find? fun site => site.block = b ∧ site.index = i with
 | none =>
  refine ⟨nofun, ?_⟩
  rintro ⟨v, ⟨s, hs, hb, hi, -⟩, -⟩
  grind
 | some site =>
  have hsite := find?_some hfind
  have hmem := mem_of_find?_eq_some hfind
  obtain ⟨hb, hi⟩ : site.block = b ∧ site.index = i := by simpa using hsite
  simp only [List.mem_map]
  constructor
  · rintro ⟨v, hv, rfl⟩
    exact ⟨v, ⟨site, hmem, hb, hi, hv⟩, rfl⟩
  · rintro ⟨v, ⟨s, hs, hsb, hsi, hv⟩, rfl⟩
    -- one site before each operation
    obtain rfl := h.sites.distinct s hs site hmem (hsb.trans hb.symm) (hsi.trans hi.symm)
    exact ⟨v, hv, rfl⟩

theorem mem_copied (h : SplitInput f r) {b : Fin f.cfg.size} {i : Nat}
  {op : Instr f.cfg.size Nat} {x : Name f.cfg.size} :
  x ∈ (splitOp f.code r b i op).copied ↔ ∃ v, CopiedAt r.sites v b i ∧ x = .copy b i v := by
 simp only [Instr.copied, splitOp, List.mem_map, h.mem_copiesAt]
 constructor
 · grind
 grind

theorem branchTo_some {b x : Fin f.cfg.size} {i : Nat} (h : branchTo f.code b x = some i) :
  ∃ op, (f.code.ops b)[i]? = some op ∧ op.vbr = true ∧ x ∈ op.succs := by
 rw [branchTo, map_eq_some_iff] at h
 obtain ⟨⟨op, j⟩, hfind, rfl⟩ := h
 grind

section

variable {b x : Fin f.cfg.size} {i : Nat} {op : Instr f.cfg.size Nat} (hop : (f.code.ops b)[i]? = some op) (hv : op.vbr = true)

include hop hv

theorem branchTo_eq (hx : x ∈ op.succs) :
  branchTo f.code b x = some i := by
 cases hbr : branchTo f.code b x with
 | none =>
  rw [branchTo, map_eq_none_iff] at hbr
  have hmem : (op, i) ∈ (f.code.ops b).zipIdx.reverse := by
   grind
  grind
 | some j =>
  -- an `asm.vbr` ends its block, so there is only one
  obtain ⟨op', hop', hv', -⟩ := branchTo_some hbr
  have h1 := f.vbr_last b i op hop hv
  have h2 := f.vbr_last b j op' hop' hv'
  rw [show j = i by omega]

theorem argsAt_vbr (hx : op.succs = [x]) :
  argsAt f.code r b i = (r.met x).map fun v => r.endName v b := by
 have hiff : ∀ y, branchTo f.code b y = some i ↔ y = x := by
  intro y
  constructor
  · grind [branchTo_some]
  grind [branchTo_eq]
 have hone : ∀ l : List (Fin f.cfg.size), l.Nodup → x ∈ l →
   (l.flatMap fun target => if branchTo f.code b target = some i then
    (r.met target).map fun value => r.endName value b else []) =
   (r.met x).map fun v => r.endName v b := by
  intro l
  induction l with
  | nil => simp
  | cons y l ih =>
   intro hl hmem
   obtain ⟨hy, hl⟩ := nodup_cons.1 hl
   rw [flatMap_cons]
   by_cases hyx : y = x
   · subst hyx
     have hrest : (l.flatMap fun target => if branchTo f.code b target = some i then
       (r.met target).map fun value => r.endName value b else []) = [] := by
      refine flatMap_eq_nil_iff.2 fun z hz => if_neg fun hb => hy ?_
      grind
     rw [if_pos ((hiff y).2 rfl), hrest, append_nil]
   grind
 exact hone _ (nodup_finRange _) (mem_finRange x)

end

section

variable {b : Fin f.cfg.size} {i : Nat} {op : Instr f.cfg.size Nat} (hop : (f.code.ops b)[i]? = some op)

include hop

theorem argsAt_branch
  (hv : op.vbr = false) : argsAt f.code r b i = [] := by
 refine flatMap_eq_nil_iff.2 fun x _ => if_neg fun hb => ?_
 grind [branchTo_some]

/-- The arguments a branch adds are names of values that meet in its target. -/
theorem mem_argsAt {x : Name f.cfg.size} (hx : x ∈ argsAt f.code r b i) :
  op.vbr = true ∧ ∃ y v, y ∈ op.succs ∧ v ∈ r.met y ∧ x = r.endName v b := by
 cases hv : op.vbr with
 | false =>
  rw [argsAt_branch hop hv] at hx
  simp at hx
 | true =>
  obtain ⟨-, y, hy, -⟩ := f.vbr_args b op (mem_of_getElem? hop) hv
  rw [argsAt_vbr hop hv hy] at hx
  obtain ⟨v, hmv, rfl⟩ := List.mem_map.1 hx
  exact ⟨rfl, y, v, by simp [hy], hmv, rfl⟩

end

/-! ## One definition for every name -/

theorem definesAt_param {b : Fin f.cfg.size} {k : Nat} {x : Name f.cfg.size}
  (hx : (splitCode f.code r).definesAt (.param b k) = some x) :
  (∃ v, f.code.definesAt (.param b k) = some v ∧ x = .original v) ∨
   ∃ v, (r.met b)[k - (f.code.params b).length]? = some v ∧
    (f.code.params b).length ≤ k ∧ x = .param b v := by
 have hx' : ((f.code.params b).map Name.original ++ (r.met b).map (Name.param b))[k]? = some x := hx
 by_cases hk : k < (f.code.params b).length
 · rw [getElem?_append_left (by simpa using hk), getElem?_map,
    map_eq_some_iff] at hx'
   obtain ⟨v, hv, rfl⟩ := hx'
   exact Or.inl ⟨v, hv, rfl⟩
 · rw [getElem?_append_right (by simpa using hk), getElem?_map,
    map_eq_some_iff, length_map] at hx'
   grind

theorem definesAt_copy {b : Fin f.cfg.size} {i k : Nat}
  {x : Name f.cfg.size} (hx : (splitCode f.code r).definesAt (.copy b i k) = some x) :
  ∃ site ∈ r.sites, site.block = b ∧ site.index = i ∧
   ∃ v, site.values[k]? = some v ∧ x = .copy b i v := by
 simp only [Code.definesAt, bind_eq_some_iff] at hx
 obtain ⟨op', hop', hk⟩ := hx
 obtain ⟨op, -, rfl⟩ := splitCode_op.1 hop'
 rw [Instr.copied, splitOp, getElem?_map, map_eq_some_iff] at hk
 obtain ⟨c, hc, rfl⟩ := hk
 simp only [copiesAt] at hc
 grind

theorem definesAt_result {b : Fin f.cfg.size} {i k : Nat} {x : Name f.cfg.size}
  (hx : (splitCode f.code r).definesAt (.result b i k) = some x) :
  ∃ v, f.code.definesAt (.result b i k) = some v ∧ x = .original v := by
 simp only [Code.definesAt, bind_eq_some_iff] at hx ⊢
 obtain ⟨op', hop', hk⟩ := hx
 obtain ⟨op, hop, rfl⟩ := splitCode_op.1 hop'
 rw [splitOp, getElem?_map, map_eq_some_iff] at hk
 grind

theorem getElem?_inj_of_nodup {l : List Nat} (hl : l.Nodup) {j k v : Nat} (hj : l[j]? = some v)
  (hk : l[k]? = some v) : j = k := by
 obtain ⟨hj', hjv⟩ := List.getElem?_eq_some_iff.1 hj
 obtain ⟨hk', hkv⟩ := List.getElem?_eq_some_iff.1 hk
 exact (hl.getElem_inj_iff).1 (hjv.trans hkv.symm)

/-- A name of the new code tells its place. -/
theorem definesAt_unique (h : SplitInput f r) (s t : DefSite f.cfg.size) (x : Name f.cfg.size)
  (hs : (splitCode f.code r).definesAt s = some x)
  (ht : (splitCode f.code r).definesAt t = some x) : s = t := by
 -- an original name is defined where it was; the new names carry their block and index
 have horiginal : ∀ s v, (splitCode f.code r).definesAt s = some (.original v) →
   f.code.definesAt s = some v := by
  intro s v hs
  cases s with
  | param b k =>
   rcases definesAt_param hs with ⟨w, hw, heq⟩ | ⟨w, -, -, heq⟩
   · grind
   · nomatch heq
  | copy b i k =>
   grind [definesAt_copy]
  | result b i k =>
   grind [definesAt_result]
 cases x with
 | original v => exact f.strict.unique s t v (horiginal s v hs) (horiginal t v ht)
 | copy c j v =>
  have hcopy : ∀ s, (splitCode f.code r).definesAt s = some (.copy c j v) →
    ∃ site ∈ r.sites, site.block = c ∧ site.index = j ∧
     ∃ k, site.values[k]? = some v ∧ s = .copy c j k := by
   intro s hs
   cases s with
   | param b k =>
    rcases definesAt_param hs with ⟨w, -, heq⟩ | ⟨w, -, -, heq⟩
    · nomatch heq
    · nomatch heq
   | copy b i k =>
    grind [definesAt_copy]
   | result b i k =>
    grind [definesAt_result]
  obtain ⟨site, hsite, hb, hi, k, hk, rfl⟩ := hcopy s hs
  obtain ⟨site', hsite', hb', hi', k', hk', rfl⟩ := hcopy t ht
  obtain rfl := h.sites.distinct site hsite site' hsite' (hb.trans hb'.symm) (hi.trans hi'.symm)
  rw [getElem?_inj_of_nodup site.nodup hk hk']
 | param c v =>
  have hparam : ∀ s, (splitCode f.code r).definesAt s = some (.param c v) →
    ∃ k, (r.met c)[k - (f.code.params c).length]? = some v ∧
     (f.code.params c).length ≤ k ∧ s = .param c k := by
   intro s hs
   cases s with
   | param b k =>
    rcases definesAt_param hs with ⟨w, -, heq⟩ | ⟨w, hw, hle, heq⟩
    · nomatch heq
    grind
   | copy b i k =>
    grind [definesAt_copy]
   | result b i k =>
    grind [definesAt_result]
  obtain ⟨k, hk, hle, rfl⟩ := hparam s hs
  obtain ⟨k', hk', hle', rfl⟩ := hparam t ht
  have := getElem?_inj_of_nodup (h.met.nodup c) hk hk'
  rw [show k = k' by omega]

end SplitInput

end Tir.RegAlloc
