import Tir.Backend.WriterResolve

/-!
# Emissions that grow

Every step of the walk opens a section or adds to the end of one. What an emission has pending stays apart and
inside its section (`Extends.sound`), and what it has laid out stays where it is (`Extends.grows`).
-/

open List Option

namespace Tir.Backend.Writer

open Bytes Encodings ObjectFile

variable {ρ : Type}

namespace ObjectEmission

/-- What an emission has pending: each fixup is for clear bits of its own inside its section, and each symbol
difference for bytes of its section no fixup is for. -/
structure Sound (st : ObjectEmission ρ) : Prop where
 current : ∀ k, st.currentSection = some k → k < st.obj.sections.length
 place : ∀ f ∈ st.fixups, f.offset + f.len ≤ st.obj.size f.inSection
 fits : ∀ f ∈ st.fixups, f.Fits
 apart : st.fixups.Pairwise PendingFixup.Apart
 clear : ∀ f ∈ st.fixups, ∀ k i, f.Covers k i → byteBit (st.obj.data k) i = false
 differences : ∀ d ∈ st.symbolDifferences, d.2.offset + d.2.width ≤ st.obj.size d.1
 storage : ∀ d ∈ st.symbolDifferences, ∀ f ∈ st.fixups, ∀ i, f.Covers d.1 i →
  i < 8 * d.2.offset ∨ 8 * (d.2.offset + d.2.width) ≤ i
 spans : ∀ (k : Nat) (s : ObjSection), st.obj.sections[k]? = some s → Ordered s.insnSpans 0 s.data.length

/-- An emission that another goes on from, with these blocks started since. -/
structure Grows (ids : List Nat) (st st' : ObjectEmission ρ) : Prop where
 sections : ∀ (k : Nat) (s : ObjSection), st.obj.sections[k]? = some s →
  ∃ s' : ObjSection, st'.obj.sections[k]? = some s' ∧ s.align ≤ s'.align ∧ s.data.length ≤ s'.data.length ∧ s.insnSpans <+: s'.insnSpans
 fixups : ∀ f ∈ st.fixups, f ∈ st'.fixups
 differences : ∃ more, st'.symbolDifferences = st.symbolDifferences ++ more ∧ ∀ d ∈ more, st.obj.size d.1 ≤ d.2.offset
 starts : ∀ b, b ∉ ids → st'.blockStarts.lookup b = st.blockStarts.lookup b

variable {st st' st'' : ObjectEmission ρ} {ids ids' : List Nat}

section

variable (h : Grows ids st st')

include h

theorem Grows.size_le (k : Nat) : st.obj.size k ≤ st'.obj.size k := by
 rw [size]
 cases hs : st.obj.sections[k]? with
 | none => exact Nat.zero_le _
 | some s =>
  obtain ⟨s', hs', -, hlen, -⟩ := h.sections k s hs
  rw [size, hs']
  exact hlen

theorem Grows.length_le : st.obj.sections.length ≤ st'.obj.sections.length := by
 by_contra hlt
 have hget := getElem?_eq_getElem (l := st.obj.sections) (i := st'.obj.sections.length) (not_le.1 hlt)
 obtain ⟨s', hs', -⟩ := h.sections _ _ hget
 rw [getElem?_eq_none le_rfl] at hs'
 nomatch hs'

theorem Grows.trans (h' : Grows ids' st' st'') : Grows (ids ++ ids') st st'' where
 sections k s hs := by
  obtain ⟨s', hs', halign, hlen, hspans⟩ := h.sections k s hs
  obtain ⟨s'', hs'', halign', hlen', hspans'⟩ := h'.sections k s' hs'
  exact ⟨s'', hs'', halign.trans halign', hlen.trans hlen', hspans.trans hspans'⟩
 fixups f hf := h'.fixups f (h.fixups f hf)
 differences := by
  obtain ⟨more, hmore, hlate⟩ := h.differences
  obtain ⟨more', hmore', hlate'⟩ := h'.differences
  refine ⟨more ++ more', by rw [hmore', hmore, append_assoc], fun d hd => ?_⟩
  rcases mem_append.1 hd with hd | hd
  · exact hlate d hd
  · exact (h.size_le d.1).trans (hlate' d hd)
 starts b hb := by
  have hnot := not_or.1 fun h => hb (mem_append.2 h)
  exact (h'.starts b hnot.2).trans (h.starts b hnot.1)

theorem Grows.mono (hsub : ids ⊆ ids') : Grows ids' st st' :=
 { h with starts := fun b hb => h.starts b fun hmem => hb (hsub hmem) }

end

/-! ## Sections -/

/-- A section that gains a chunk, an alignment and symbol differences. -/
structure Extends (st st' : ObjectEmission ρ) (k align : Nat) (c : Chunk) (differences : List (Nat × SymbolDifference)) : Prop where
 here : ∃ s : ObjSection, st.obj.sections[k]? = some s ∧ st'.obj.sections[k]? = some { s.add c with align := max s.align align }
 others : ∀ j : Nat, j ≠ k → st'.obj.sections[j]? = st.obj.sections[j]?
 symbols : st'.obj.symbols = st.obj.symbols
 fixups : st'.fixups = st.fixups ++ c.fixups
 differences : st'.symbolDifferences = st.symbolDifferences ++ differences
 current : st'.currentSection = st.currentSection
 starts : st'.blockStarts = st.blockStarts

namespace Extends

variable {k align : Nat} {c : Chunk} {differences : List (Nat × SymbolDifference)} (h : Extends st st' k align c differences)

include h

theorem data_self : st'.obj.data k = st.obj.data k ++ c.bytes := by
 obtain ⟨s, hs, hs'⟩ := h.here
 rw [data, data, hs, hs']
 rfl

theorem data_other {j : Nat} (hj : j ≠ k) : st'.obj.data j = st.obj.data j := by
 rw [data, data, h.others j hj]

theorem size_self : st'.obj.size k = st.obj.size k + c.bytes.length := by
 rw [size_eq, size_eq, h.data_self, length_append]

theorem size_le (j : Nat) : st.obj.size j ≤ st'.obj.size j := by
 by_cases hj : j = k
 · subst hj
   rw [h.size_self]
   exact Nat.le_add_right _ _
 · rw [size_eq, size_eq, h.data_other hj]

theorem relocs_self : st'.obj.relocs k = st.obj.relocs k ++ c.relocs := by
 obtain ⟨s, hs, hs'⟩ := h.here
 rw [relocs, relocs, hs, hs']
 rfl

theorem relocs_other {j : Nat} (hj : j ≠ k) : st'.obj.relocs j = st.obj.relocs j := by
 rw [relocs, relocs, h.others j hj]

theorem grows (hlate : ∀ d ∈ differences, st.obj.size d.1 ≤ d.2.offset) : Grows [] st st' where
 sections j s hs := by
  by_cases hj : j = k
  · subst hj
    obtain ⟨s', hs', hnew⟩ := h.here
    cases hs.symm.trans hs'
    refine ⟨_, hnew, le_max_left _ _, ?_, prefix_append _ _⟩
    exact (Nat.le_add_right _ _).trans_eq length_append.symm
  · exact ⟨s, by rw [h.others j hj, hs], le_rfl, le_rfl, prefix_refl _⟩
 fixups f hf := by
  rw [h.fixups]
  exact mem_append_left _ hf
 differences := ⟨differences, h.differences, hlate⟩
 starts b _ := by rw [h.starts]

/-- **A section that gains a chunk leaves what is pending as it was.** -/
theorem sound (hst : st.Sound) (hgood : c.Good k (st.obj.size k))
  (hin : ∀ d ∈ differences, d.1 = k ∧ st.obj.size k ≤ d.2.offset ∧ d.2.offset + d.2.width ≤ st.obj.size k + c.bytes.length)
  (hone : c.fixups = [] ∨ differences = []) : st'.Sound where
 current j hj := by
  rw [h.current] at hj
  exact (hst.current j hj).trans_le ((h.grows fun d hd => by rw [(hin d hd).1]; exact (hin d hd).2.1).length_le)
 place f hf := by
  rw [h.fixups] at hf
  rcases mem_append.1 hf with hf | hf
  · exact (hst.place f hf).trans (h.size_le _)
  · obtain ⟨hk, -, hend⟩ := hgood.place f hf
    rw [hk, h.size_self]
    exact hend
 fits f hf := by
  rw [h.fixups] at hf
  rcases mem_append.1 hf with hf | hf
  · exact hst.fits f hf
  · exact hgood.fits f hf
 apart := by
  rw [h.fixups]
  refine pairwise_append.2 ⟨hst.apart, hgood.apart, fun f hf g hg j i hcov hcov' => ?_⟩
  have hhi := (hst.fits f hf).lt hcov
  have hplace := hst.place f hf
  obtain ⟨hk, hstart, -⟩ := hgood.place g hg
  have hsame : f.inSection = k := by rw [← hcov.1, hcov'.1, hk]
  rw [hsame] at hplace
  have hlo := hcov'.2.1
  omega
 clear f hf j i hcov := by
  rw [h.fixups] at hf
  rcases mem_append.1 hf with hf | hf
  · have hold := hst.clear f hf j i hcov
    by_cases hj : j = k
    · subst hj
      have hhi := (hst.fits f hf).lt hcov
      have hplace := hst.place f hf
      rw [← hcov.1, size_eq] at hplace
      rw [h.data_self, byteBit_append_left (by omega)]
      exact hold
    · rw [h.data_other hj]
      exact hold
  · obtain ⟨hk, hstart, -⟩ := hgood.place f hf
    obtain rfl : j = k := hcov.1.trans hk
    have hlo := hcov.2.1
    rw [size_eq] at hstart
    rw [h.data_self, byteBit_append_right (by omega), ← size_eq]
    exact hgood.clear f hf i hcov
 differences d hd := by
  rw [h.differences] at hd
  rcases mem_append.1 hd with hd | hd
  · exact (hst.differences d hd).trans (h.size_le _)
  · obtain ⟨hk, -, hend⟩ := hin d hd
    rw [hk, h.size_self]
    exact hend
 storage d hd f hf i hcov := by
  rw [h.differences] at hd
  rw [h.fixups] at hf
  rcases mem_append.1 hd with hd | hd
  · rcases mem_append.1 hf with hf | hf
    · exact hst.storage d hd f hf i hcov
    · obtain ⟨hk, hstart, -⟩ := hgood.place f hf
      have hend := hst.differences d hd
      have hlo := hcov.2.1
      rw [hcov.1, hk] at hend
      omega
  · rcases mem_append.1 hf with hf | hf
    · obtain ⟨hk, hstart, -⟩ := hin d hd
      have hhi := (hst.fits f hf).lt hcov
      have hplace := hst.place f hf
      rw [← hcov.1, hk] at hplace
      omega
    · rcases hone with hnone | hnone
      · rw [hnone] at hf
        nomatch hf
      · rw [hnone] at hd
        nomatch hd
 spans j s hs := by
  by_cases hj : j = k
  · subst hj
    obtain ⟨s', hs', hnew⟩ := h.here
    cases hs.symm.trans hnew
    have hspans := hgood.spans
    rw [size, hs'] at hspans
    have hall := (hst.spans j s' hs').append hspans (Nat.zero_le _) (Nat.le_add_right _ _)
    rw [← length_append] at hall
    exact hall
  · rw [h.others j hj] at hs
    exact hst.spans j s hs

end Extends

end ObjectEmission

end Tir.Backend.Writer
