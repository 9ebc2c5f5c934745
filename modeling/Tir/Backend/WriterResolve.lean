import Tir.Backend.WriterChunk

/-!
# Resolution

One pass over the pending fixups and one over the symbol differences. Neither moves anything (`SameShape`). The
first sets in each field the bits of its displacement (`resolveFixups_spec`), the second writes the bytes of each
difference (`differences_spec`).
-/

open List Int

namespace Tir.Backend.Writer

open Bytes Encodings ObjectFile

variable {k i : Nat} {obj obj' obj'' : ObjectFile} {fmt : ObjectFormatInfo}

/-! ## Objects -/

def ObjectFile.data (obj : ObjectFile) (k : Nat) : List Byte :=
 (obj.sections[k]?.map ObjSection.data).getD []

def ObjectFile.relocs (obj : ObjectFile) (k : Nat) : List ObjReloc :=
 (obj.sections[k]?.map ObjSection.relocs).getD []

theorem size_of_get {s : ObjSection} (h : obj.sections[k]? = some s) : obj.size k = s.data.length := by
 rw [size, h]

theorem size_eq : obj.size k = (obj.data k).length := by
 rw [size, data]
 grind

/-- What resolution leaves of a section: all but its bytes and its relocations, and how many bytes there are. -/
structure SectionShape where
 name : String
 kind : Elf.SectionKind
 align : Nat
 size : Nat
 insnSpans : List (Nat × Nat)

def ObjSection.shape (s : ObjSection) : SectionShape :=
 ⟨s.name, s.kind, s.align, s.data.length, s.insnSpans⟩

structure SameShape (obj obj' : ObjectFile) : Prop where
 symbols : obj'.symbols = obj.symbols
 sections : obj'.sections.map ObjSection.shape = obj.sections.map ObjSection.shape

theorem SameShape.refl (obj : ObjectFile) : SameShape obj obj :=
 ⟨rfl, rfl⟩

theorem SameShape.trans (h : SameShape obj obj') (h' : SameShape obj' obj'') : SameShape obj obj'' :=
 ⟨h'.symbols.trans h.symbols, h'.sections.trans h.sections⟩

theorem SameShape.section_eq (h : SameShape obj obj') {s : ObjSection} (hs : obj.sections[k]? = some s) :
  ∃ s', obj'.sections[k]? = some s' ∧ s'.shape = s.shape := by
 have hget := congrArg (fun l => l[k]?) h.sections
 grind

theorem SameShape.size_eq (h : SameShape obj obj') : obj'.size k = obj.size k := by
 have hget := congrArg (fun l => l[k]?) h.sections
 rw [size, size]
 cases hs : obj.sections[k]? with
 | none =>
  grind
 | some s =>
  obtain ⟨s', hs', hshape⟩ := h.section_eq hs
  rw [hs']
  exact congrArg SectionShape.size hshape

variable {f : ObjSection → ObjSection} {p : Nat} {starts : List (Nat × Nat)}

theorem modify_self : (obj.modify k f).sections[k]? = obj.sections[k]?.map f :=
 getElem?_modify_eq ..

theorem modify_other {j : Nat} (h : k ≠ j) : (obj.modify k f).sections[j]? = obj.sections[j]? :=
 getElem?_modify_ne _ _ h

theorem modify_sameShape (h : ∀ s, obj.sections[k]? = some s → (f s).shape = s.shape) :
  SameShape obj (obj.modify k f) := by
 refine ⟨rfl, ext_getElem? fun j => ?_⟩
 rw [getElem?_map, getElem?_map]
 by_cases hj : k = j
 · grind [modify_self]
 · rw [modify_other hj]

theorem relocs_modify (hf : ∀ s, (f s).relocs = s.relocs) (j : Nat) :
  (obj.modify k f).relocs j = obj.relocs j := by
 rw [relocs, relocs]
 by_cases hj : k = j
 · grind [modify_self]
 · rw [modify_other hj]

theorem data_modify (hf : ∀ s, (f s).data = s.data) (j : Nat) :
  (obj.modify k f).data j = obj.data j := by
 rw [data, data]
 by_cases hj : k = j
 · grind [modify_self]
 · rw [modify_other hj]

/-- Bytes over those of a section. -/
def ObjectFile.write (obj : ObjectFile) (k p : Nat) (bytes : List Byte) : ObjectFile :=
 obj.modify k fun s => { s with data := splice s.data p bytes }

theorem relocs_write {bytes : List Byte} (j : Nat) : (obj.write k p bytes).relocs j = obj.relocs j := by
 apply relocs_modify
 intro s
 rfl

section Write

variable {p : Nat} {bytes : List Byte} (h : p + bytes.length ≤ obj.size k)

include h

theorem write_sameShape : SameShape obj (obj.write k p bytes) := by
 apply modify_sameShape
 intro s hs
 have hlen : p + bytes.length ≤ s.data.length := by
  rw [size, hs] at h
  exact h
 rw [ObjSection.shape, ObjSection.shape]
 rw [length_splice hlen]

/-- The bits that are written, and those around them. -/
theorem byteBit_write (j i : Nat) : byteBit ((obj.write k p bytes).data j) i =
  if j = k ∧ 8 * p ≤ i ∧ i < 8 * (p + bytes.length) then byteBit bytes (i - 8 * p) else byteBit (obj.data j) i := by
 by_cases hj : j = k
 · subst hj
   have hdata : (obj.write j p bytes).data j = (obj.sections[j]?.map fun s => splice s.data p bytes).getD [] := by
    rw [write, data, modify_self, Option.map_map]
    rfl
   rw [hdata]
   cases hs : obj.sections[j]? with
   | none =>
    rw [size, hs] at h
    dsimp only at h
    rw [data, hs, if_neg (by omega)]
    rfl
   | some s =>
    rw [size, hs] at h
    rw [data, hs, Option.map_some, Option.map_some, Option.getD_some, Option.getD_some]
    split
    · grind [byteBit_splice_in]
    grind [byteBit_splice_out]
 · have hother : (obj.write k p bytes).data j = obj.data j := by
    rw [write, data, modify_other (Ne.symm hj)]
    rfl
   rw [hother, if_neg fun hin => hj hin.1]

end Write

/-! ## Fixups -/

/-- The bits of some bytes of a section. -/
def ObjectFile.slice (obj : ObjectFile) (k p n : Nat) : List Byte :=
 ((obj.data k).drop p).take n

theorem length_slice {n : Nat} (h : p + n ≤ obj.size k) : (obj.slice k p n).length = n := by
 rw [slice, length_take, length_drop, ← size_eq]
 omega

/-- The displacement a branch to a block is given. -/
def PendingFixup.Value (f : PendingFixup) (fmt : ObjectFormatInfo) (starts : List (Nat × Nat)) (v : BitVec 64) : Prop :=
 ∃ b t, f.target = .block b ∧ starts.lookup b = some t ∧ ((t : Int) - f.base fmt) % 2 ^ fmt.pcRelScale f.info.name = 0 ∧
  v = BitVec.ofInt 64 (((t : Int) - f.base fmt) / 2 ^ fmt.pcRelScale f.info.name)

theorem PendingFixup.Value.unique {f : PendingFixup} {v v' : BitVec 64} (h : f.Value fmt starts v)
  (h' : f.Value fmt starts v') : v = v' := by
 obtain ⟨b, t, htgt, hstart, -, rfl⟩ := h
 obtain ⟨b', t', htgt', hstart', -, rfl⟩ := h'
 grind

def PendingFixup.Sets (f : PendingFixup) (fmt : ObjectFormatInfo) (starts : List (Nat × Nat)) (k i : Nat) : Prop :=
 ∃ v, f.Value fmt starts v ∧ k = f.inSection ∧ 8 * f.offset ≤ i ∧
  ∃ run ∈ f.patch.runs, run.Covers (i - 8 * f.offset) ∧ (v.signExtend 128).getLsbD (run.source (i - 8 * f.offset)) = true

theorem PendingFixup.Sets.covers {f : PendingFixup} (h : f.Sets fmt starts k i) : f.Covers k i := by
 obtain ⟨v, -, hk, hlo, run, hrun, hcov, -⟩ := h
 exact ⟨hk, hlo, run, hrun, hcov⟩

def PendingFixup.Reloc (f : PendingFixup) (fmt : ObjectFormatInfo) (k : Nat) (r : ObjReloc) : Prop :=
 k = f.inSection ∧ ∃ symbol kind, f.target = .symbol symbol ∧ fmt.relocFor f.info.name = some kind ∧
  r = ⟨f.offset + kind.fieldOffset, symbol, kind.rType, kind.addend⟩

/-- What resolving a fixup does. -/
structure Resolves (fmt : ObjectFormatInfo) (starts : List (Nat × Nat)) (fixups : List PendingFixup) (obj obj' : ObjectFile) : Prop where
 shape : SameShape obj obj'
 bits : ∀ k i, byteBit (obj'.data k) i = true ↔ byteBit (obj.data k) i = true ∨ ∃ f ∈ fixups, f.Sets fmt starts k i
 relocs : ∀ k, ∀ r ∈ obj'.relocs k, r ∈ obj.relocs k ∨ ∃ f ∈ fixups, f.Reloc fmt k r
 accepted : ∀ f ∈ fixups, ∀ b, f.target = .block b → ∃ v, f.Value fmt starts v ∧ Accepts f.patch v

theorem resolveFixup_spec {f : PendingFixup} (hfits : f.Fits)
  (hplace : f.offset + f.len ≤ obj.size f.inSection) (h : resolveFixup fmt starts obj f = .ok obj') :
  Resolves fmt starts [f] obj obj' := by
 rw [resolveFixup] at h
 split at h
 · rename_i b htgt
   obtain ⟨t, hstart, h⟩ := bind_eq h
   have hlookup := orError_eq hstart
   dsimp only at h
   split at h
   · nomatch h
   · rename_i haligned
     obtain ⟨patched, hpatched, h⟩ := bind_eq h
     cases h
     have hslice : (obj.slice f.inSection f.offset f.len).length = f.len := length_slice hplace
     obtain ⟨haccepts, hlength, -, hbits⟩ := patchWith_spec (hslice.trans_le hfits.len) (orError_eq hpatched)
     have hlength' : patched.length = f.len := hlength.trans hslice
     have hval : f.Value fmt starts (BitVec.ofInt 64 (((t : Int) - f.base fmt) / 2 ^ fmt.pcRelScale f.info.name)) :=
      ⟨b, t, htgt, hlookup, Decidable.of_not_not haligned, rfl⟩
     have hinside : f.offset + patched.length ≤ obj.size f.inSection := by rw [hlength']; exact hplace
     refine ⟨write_sameShape hinside, fun k i => ?_, fun k r hr => ?_, fun g hg c hc => ?_⟩
     · refine (Bool.eq_iff_iff.1 (byteBit_write hinside k i)).trans ?_
       rw [hlength']
       split
       · rename_i hin
         obtain ⟨rfl, hlo, hhi⟩ := hin
         have hidx : 8 * f.offset + (i - 8 * f.offset) = i := by omega
         refine (hbits (i - 8 * f.offset) (by rw [hslice]; omega)).trans ?_
         rw [slice, byteBit_slice (by omega), hidx]
         apply or_congr_right
         constructor
         · rintro ⟨run, hrun, hcov, hbit⟩
           exact ⟨f, mem_singleton_self f, _, hval, rfl, hlo, run, hrun, hcov, hbit⟩
         · rintro ⟨g, hg, v, hv, -, -, run, hrun, hcov, hbit⟩
           obtain rfl := mem_singleton.1 hg
           obtain rfl := hv.unique hval
           exact ⟨run, hrun, hcov, hbit⟩
       · rename_i hout
         refine (or_iff_left ?_).symm
         rintro ⟨g, hg, hsets⟩
         obtain rfl := mem_singleton.1 hg
         exact hout ⟨hsets.covers.1, hsets.covers.2.1, hfits.lt hsets.covers⟩
     · have hsame : (obj.write f.inSection f.offset patched).relocs k = obj.relocs k := relocs_write k
       exact .inl (hsame ▸ hr)
     grind
 · rename_i symbol htgt
   obtain ⟨kind, hkind, h⟩ := bind_eq h
   cases h
   refine ⟨modify_sameShape fun _ _ => rfl, fun k i => ?_, fun k r hr => ?_, fun g hg c hc => ?_⟩
   · have hsame : ∀ g : ObjSection → List ObjReloc, (obj.modify f.inSection fun s => { s with relocs := g s }).data k = obj.data k :=
      fun g => data_modify (f := fun s => { s with relocs := g s }) (fun _ => rfl) k
     rw [hsame]
     refine (or_iff_left ?_).symm
     rintro ⟨g, hg, v, ⟨b, t, htgt', -⟩, -⟩
     grind
   · by_cases hk : f.inSection = k
     · subst hk
       rw [relocs, modify_self] at hr
       rw [relocs]
       cases hs : obj.sections[f.inSection]? with
       | none =>
        grind
       | some s =>
        rw [hs] at hr
        rcases mem_append.1 hr with hr | hr
        · exact .inl hr
        · exact .inr ⟨f, mem_singleton_self f, rfl, symbol, kind, htgt, orError_eq hkind, mem_singleton.1 hr⟩
     · rw [relocs, modify_other hk] at hr
       exact .inl hr
   grind

/-- **The pass over the fixups sets in each field the bits of its displacement, and no other bit.** -/
theorem resolveFixups_spec {fixups : List PendingFixup} (hfits : ∀ f ∈ fixups, f.Fits)
  (hplace : ∀ f ∈ fixups, f.offset + f.len ≤ obj.size f.inSection)
  (h : fixups.foldlM (resolveFixup fmt starts) obj = .ok obj') : Resolves fmt starts fixups obj obj' := by
 induction fixups generalizing obj with
 | nil =>
  cases h
  exact ⟨SameShape.refl _, fun k i => (or_iff_left fun ⟨f, hf, _⟩ => List.not_mem_nil hf).symm, fun k r hr => .inl hr, nofun⟩
 | cons f fixups ih =>
  rw [List.foldlM_cons] at h
  obtain ⟨middle, hstep, hrest⟩ := bind_eq h
  have hfst := resolveFixup_spec (hfits f (.head _)) (hplace f (.head _)) hstep
  have htail := ih (fun g hg => hfits g (.tail _ hg))
   (fun g hg => by rw [hfst.shape.size_eq]; exact hplace g (.tail _ hg)) hrest
  refine ⟨hfst.shape.trans htail.shape, fun k i => ?_, fun k r hr => ?_, fun g hg b hb => ?_⟩
  · rw [htail.bits, hfst.bits, or_assoc]
    grind
  · rcases htail.relocs k r hr with hr | ⟨g, hg, hreloc⟩
    · rcases hfst.relocs k r hr with hr | ⟨g, hg, hreloc⟩
      · exact .inl hr
      grind
    · exact .inr ⟨g, .tail _ hg, hreloc⟩
  · rcases List.mem_cons.1 hg with rfl | hg
    · exact hfst.accepted g (List.mem_singleton_self g) b hb
    · exact htail.accepted g hg b hb

/-! ## Symbol differences -/

theorem eq_of_byteBit {a b : List Byte} (hlength : a.length = b.length) (h : ∀ i < 8 * a.length, byteBit a i = byteBit b i) : a = b := by
 apply ext_getElem hlength
 intro n ha hb
 apply BitVec.eq_of_getLsbD_eq
 intro j hj
 have hbit := h (8 * n + j) (by omega)
 have hidx : (8 * n + j) / 8 = n := by omega
 have hmod : (8 * n + j) % 8 = j := by omega
 rwa [byteBit, byteBit, hidx, hmod, getElem?_eq_getElem ha, getElem?_eq_getElem hb] at hbit

theorem slice_eq {n : Nat} (hsize : obj'.size k = obj.size k) (hin : p + n ≤ obj.size k)
  (h : ∀ i, 8 * p ≤ i → i < 8 * (p + n) → byteBit (obj'.data k) i = byteBit (obj.data k) i) : obj'.slice k p n = obj.slice k p n := by
 have hlength : (obj'.slice k p n).length = n := length_slice (by rw [hsize]; exact hin)
 apply eq_of_byteBit (hlength.trans (length_slice hin).symm)
 intro i hi
 rw [hlength] at hi
 rw [slice, slice, byteBit_slice hi, byteBit_slice hi]
 exact h _ (by omega) (by omega)

/-- The bytes of a difference hold it, for symbols of one section. -/
def Written (obj : ObjectFile) (k p : Nat) (d : SymbolDifference) : Prop :=
 ∃ symbol base j, obj.symbol d.symbol = some symbol ∧ obj.symbol d.base = some base ∧
  symbol.inSection = some j ∧ base.inSection = some j ∧
  obj.slice k p d.width = toLe d.width (wrappingSub symbol.value base.value)

/-- Two differences share no byte. -/
def DifferencesApart (d e : Nat × SymbolDifference) : Prop :=
 e.1 = d.1 → e.2.offset + e.2.width ≤ d.2.offset ∨ d.2.offset + d.2.width ≤ e.2.offset

/-- What writing differences does. -/
structure Differs (differences : List (Nat × SymbolDifference)) (obj obj' : ObjectFile) : Prop where
 shape : SameShape obj obj'
 relocs : ∀ k, obj'.relocs k = obj.relocs k
 bits : ∀ k i, (∀ d ∈ differences, d.1 = k → i < 8 * d.2.offset ∨ 8 * (d.2.offset + d.2.width) ≤ i) →
  byteBit (obj'.data k) i = byteBit (obj.data k) i
 written : ∀ before d after, differences = before ++ d :: after → (∀ e ∈ after, DifferencesApart d e) →
  Written obj' d.1 d.2.offset d.2

theorem resolveSymbolDifference_spec {d : Nat × SymbolDifference} (hin : d.2.offset + d.2.width ≤ obj.size d.1)
  (h : resolveSymbolDifference obj d = .ok obj') : SameShape obj obj' ∧ (∀ k, obj'.relocs k = obj.relocs k) ∧
   (∀ k i, (d.1 = k → i < 8 * d.2.offset ∨ 8 * (d.2.offset + d.2.width) ≤ i) →
    byteBit (obj'.data k) i = byteBit (obj.data k) i) ∧
   Written obj' d.1 d.2.offset d.2 := by
 obtain ⟨symbol, hsymbol, h⟩ := bind_eq h
 obtain ⟨j, hj, h⟩ := bind_eq h
 obtain ⟨base, hbase, h⟩ := bind_eq h
 obtain ⟨j', hj', h⟩ := bind_eq h
 split at h
 · nomatch h
 · rename_i heq
   obtain rfl : j = j' := Decidable.of_not_not heq
   cases h
   have hlength : (toLe d.2.width (wrappingSub symbol.value base.value)).length = d.2.width := length_toLe ..
   have hinside : d.2.offset + (toLe d.2.width (wrappingSub symbol.value base.value)).length ≤ obj.size d.1 := by
    rw [hlength]
    exact hin
   have hshape := write_sameShape hinside
   refine ⟨hshape, relocs_write, fun k i hout => ?_, symbol, base, j, orError_eq hsymbol, orError_eq hbase,
    orError_eq hj, orError_eq hj', ?_⟩
   · refine (byteBit_write hinside k i).trans (if_neg fun hbit => ?_)
     grind
   · have hslice : (slice (obj.write d.1 d.2.offset (toLe d.2.width (wrappingSub symbol.value base.value))) d.1 d.2.offset
       d.2.width).length = d.2.width := length_slice (by rw [hshape.size_eq]; exact hin)
     apply eq_of_byteBit (hslice.trans hlength.symm)
     intro i hi
     have hi' : i < 8 * d.2.width := hi.trans_eq (congrArg (8 * ·) hslice)
     have hidx : 8 * d.2.offset + i - 8 * d.2.offset = i := by omega
     refine (byteBit_slice hi').trans ((byteBit_write hinside d.1 _).trans ?_)
     rw [hlength, if_pos ⟨rfl, by omega, by omega⟩, hidx]

theorem SameShape.symbol_eq (h : SameShape obj obj') (name : String) : obj'.symbol name = obj.symbol name := by
 rw [symbol, symbol, h.symbols]

/-- **The pass over the differences writes each where no later one is written.** -/
theorem differences_spec {differences : List (Nat × SymbolDifference)}
  (hin : ∀ d ∈ differences, d.2.offset + d.2.width ≤ obj.size d.1)
  (h : resolveSymbolDifferences obj differences = .ok obj') : Differs differences obj obj' := by
 induction differences generalizing obj with
 | nil =>
  cases h
  exact ⟨SameShape.refl _, fun _ => rfl, fun _ _ _ => rfl, fun before d after hsplit =>
   absurd (congrArg List.length hsplit) (by simp)⟩
 | cons d differences ih =>
  rw [resolveSymbolDifferences, foldlM_cons] at h
  obtain ⟨middle, hstep, hrest⟩ := bind_eq h
  obtain ⟨hshape, hrelocs, hbits, hwritten⟩ := resolveSymbolDifference_spec (hin d (.head _)) hstep
  have htail := ih (fun e he => by rw [hshape.size_eq]; exact hin e (.tail _ he)) hrest
  refine ⟨hshape.trans htail.shape, fun k => (htail.relocs k).trans (hrelocs k), fun k i hout => ?_, fun before e after hsplit hapart => ?_⟩
  · rw [htail.bits k i fun e he => hout e (mem_cons_of_mem _ he), hbits k i (hout d mem_cons_self)]
  · cases before with
    | cons first before => exact htail.written before e after (List.cons.inj hsplit).2 hapart
    | nil =>
     cases hsplit
     obtain ⟨symbol, base, j, hsymbol, hbase, hj, hj', hslice⟩ := hwritten
     refine ⟨symbol, base, j, by rw [htail.shape.symbol_eq, hsymbol], by rw [htail.shape.symbol_eq, hbase], hj, hj', ?_⟩
     rw [← hslice]
     apply slice_eq htail.shape.size_eq (by rw [hshape.size_eq]; exact hin d (.head _))
     intro i hlo hhi
     apply htail.bits
     intro other hother hk
     have := hapart other hother hk
     omega

/-- The number in the bytes of a difference is the difference cut to them. -/
theorem Written.value {d : SymbolDifference} (h : Written obj k p d) (hwid : d.width ≤ 8) :
  ∃ symbol base j, obj.symbol d.symbol = some symbol ∧ obj.symbol d.base = some base ∧
   symbol.inSection = some j ∧ base.inSection = some j ∧
   ((ofLe (obj.slice k p d.width) : Nat) : Int) = ((symbol.value : Int) - base.value) % 2 ^ (8 * d.width) := by
 obtain ⟨symbol, base, j, hsymbol, hbase, hj, hj', hslice⟩ := h
 refine ⟨symbol, base, j, hsymbol, hbase, hj, hj', ?_⟩
 have hpow : (256 : Nat) ^ d.width = 2 ^ (8 * d.width) := by rw [Nat.pow_mul]
 have hdvd : (2 : Int) ^ (8 * d.width) ∣ 2 ^ 64 := pow_dvd_pow 2 (by omega)
 have hnonneg : 0 ≤ ((symbol.value : Int) - base.value) % 2 ^ 64 := emod_nonneg _ (by decide)
 rw [hslice, ofLe_toLe, hpow, wrappingSub, natCast_emod, toNat_of_nonneg hnonneg, natCast_pow, Nat.cast_ofNat,
  emod_emod_of_dvd _ hdvd]

end Tir.Backend.Writer
