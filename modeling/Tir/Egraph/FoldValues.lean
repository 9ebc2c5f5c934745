import Tir.Egraph.Interpretation

/-!
# What laws settle, and what a key keeps

Under an interpretation, what `fold` settles a node to is its value (`fold_value`), and the node is the
row of its key, shifted by what the key leaves out (`apply_strip`).
-/

open List Option Bool

namespace Tir.Egraph

open Tir.Relational

variable {L : Type} [Label L]

/-! ## What the engine reads off a label -/

namespace Laws

theorem of_unique {l : L} (h : Label.unique l = true) : (of l).coefficients = [] ∧ (of l).identity = [Option.none, Option.none] := by
 rw [of]
 split
 · exact ⟨rfl, rfl⟩
 · rw [if_pos h]
   exact ⟨rfl, rfl⟩

theorem mask_of (l : L) : (of l).mask = (Label.carrier l).elim 0 Carrier.mask := by
 rw [of]
 cases Label.carrier l with
 | none => rfl
 | some carrier =>
  grind

theorem carrier_of (l : L) : (of l).carrier = Label.carrier l := by
 rw [of]
 cases Label.carrier l with
 | none => rfl
 | some carrier =>
  grind

/-- A coefficient the engine reads is one the label declares. -/
theorem coefficient_of {l : L} {operand : Nat} (h : (of l).coefficient operand ≠ 0) :
  Label.carrier l ≠ Option.none ∧ Label.offsetCoefficient l operand = some ((of l).coefficient operand) := by
 rw [coefficient, of] at *
 cases hcarr : Label.carrier l with
 | none =>
  rw [hcarr] at h
  exact absurd rfl h
 | some carrier =>
  rw [hcarr] at h
  refine ⟨nofun, ?_⟩
  simp only at h ⊢
  split at h
  · exact absurd rfl h
  · rename_i hunique
    rw [if_neg hunique]
    split at h
    · exact absurd rfl h
    · rename_i hall
      rw [if_neg hall]
      rw [getD_eq_getElem?_getD, getElem?_map] at h ⊢
      rcases lt_or_ge operand (Label.arity l) with hlt | hge
      · rw [getElem?_range hlt] at h ⊢
        simp only [map_some, getD_some] at h ⊢
        cases hk : Label.offsetCoefficient l operand with
        | none =>
         grind
        | some k => rfl
      grind

/-- An identity the engine reads is one the label declares, modulo the width of its carrier. -/
theorem identity_of {l : L} {operand : Nat} {identity : Word} (h : (of l).identity.getD operand Option.none = some identity) :
  ∃ c e, Label.carrier l = some c ∧ Label.arity l = 2 ∧ operand < 2 ∧ Label.identity l operand = some e ∧
   identity = e &&& c.mask := by
 have hnone : ([Option.none, Option.none] : List (Option Word)).getD operand Option.none = Option.none := by
  grind
 rw [of] at h
 cases hcarr : Label.carrier l with
 | none =>
  rw [hcarr] at h
  nomatch h.symm.trans hnone
 | some carrier =>
  rw [hcarr] at h
  simp only at h
  split at h
  · nomatch h.symm.trans hnone
  · simp only at h
    split at h
    · rename_i harity
      have hread : operand < 2 ∧ (Label.identity l operand).map (· &&& carrier.mask) = some identity := by
       match operand, h with
       | 0, h => exact ⟨by omega, h⟩
       | 1, h => exact ⟨by omega, h⟩
       | _ + 2, h => nomatch h
      obtain ⟨e, he, heq⟩ := map_eq_some_iff.1 hread.2
      exact ⟨carrier, e, rfl, harity, hread.1, he, heq.symm⟩
    · nomatch h.symm.trans hnone

theorem bias_of {l : L} {c : Carrier} (hunique : Label.unique l = false) (hcarr : Label.carrier l = some c) :
  (of l).bias = Label.bias l &&& c.mask := by
 rw [of, hcarr]
 grind

theorem unique_of_linear {l : L} (h : (of l).linear = true) : Label.unique l = false := by
 cases hunique : Label.unique l with
 | false => rfl
 | true =>
  rw [linear, (of_unique hunique).1] at h
  nomatch h

theorem coefficient_of_linear {laws : Laws} (h : laws.linear = true) {operand : Nat}
  (hlt : operand < laws.coefficients.length) : laws.coefficient operand ≠ 0 := by
 rw [linear, and_eq_true, List.all_eq_true] at h
 rw [coefficient, getD_eq_getElem?_getD, getElem?_eq_getElem hlt]
 exact of_decide_eq_true (h.2 _ (getElem_mem hlt))

theorem length_of_linear {l : L} (h : (of l).linear = true) : (of l).coefficients.length = Label.arity l := by
 have hunique := unique_of_linear h
 rw [linear, of] at *
 cases hcarr : Label.carrier l with
 | none =>
  rw [hcarr] at h
  nomatch h
 | some carrier =>
  rw [hcarr] at h
  simp only at h ⊢
  rw [if_neg (by rw [hunique]; exact nofun)] at h ⊢
  split at h
  · nomatch h
  grind

end Laws

/-! ## Values of operands -/

variable {D : Type} {uf : UnionFind} {env : Nat → Value D}

/-- The partition places every class truly, and the classes it pins are zeros. -/
structure Placed (uf : UnionFind) (env : Nat → Value D) : Prop where
 formed : uf.Formed
 holds : uf.Holds env
 pinned : ∀ id, id < uf.len → uf.isPinned id = true → ∃ carrier, env id = Value.int carrier 0

/-- Operands that stand for themselves. -/
def Canonical (uf : UnionFind) (operands : List Ref) : Prop :=
 ∀ ref ∈ operands, ref.id < uf.len ∧ uf.parentOf ref.id = ref.id

namespace Placed

variable (h : Placed uf env)
include h

theorem mask_eq {ref : Ref} (hlt : ref.id < uf.len) : uf.maskOf ref.id = Offsets.mask (ref.value env) := by
 rw [h.holds.maskOf_eq h.formed hlt, Ref.value, Offsets.mask_shift]

/-- A zero at an offset is the integer. -/
theorem value_zero (ref : Ref) (hlt : ref.id < uf.len) (hroot : uf.parentOf ref.id = ref.id)
  (hzero : uf.isZero ref.id = true) : ∃ carrier, ref.value env = Value.int carrier ref.offset := by
 rw [UnionFind.isZero, UnionFind.root_of_self hroot] at hzero
 obtain ⟨carrier, hval⟩ := h.pinned _ hlt hzero
 refine ⟨carrier, ?_⟩
 rw [Ref.value, hval, Value.shift_int, zero_add]

end Placed

theorem value_and_mask {ref : Ref} (offset : Word) :
  Ref.value env ⟨ref.id, (ref.offset + offset) &&& Offsets.mask (ref.value env)⟩ =
   Offsets.shift (ref.value env) offset := by
 rw [Ref.value, Ref.value, Offsets.mask_shift, Offsets.shift_mask, Offsets.shift_shift]

/-! ## Taking offsets out of operands -/

variable {I : Interpretation L D} {l : L}

/-- An operand as the key keeps it: without its offset where it has a coefficient. -/
def Laws.strip (laws : Laws) (entry : Ref × Nat) : Ref :=
 if laws.coefficient entry.2 = 0 then entry.1 else ⟨entry.1.id, 0⟩

/-- What the offsets left out of the key come to. -/
def Laws.moved (laws : Laws) (operands : List Ref) : Word :=
 operands.zipIdx.foldl (fun sum entry => sum + laws.coefficient entry.2 * entry.1.offset) 0

theorem carrier_value (ref : Ref) (offset : Word) :
  (Ref.value env ⟨ref.id, offset⟩).carrier = (ref.value env).carrier := by
 rw [Ref.value, Ref.value, Value.carrier_shift, Value.carrier_shift]

theorem carrier_strip (laws : Laws) (entry : Ref × Nat) :
  ((laws.strip entry).value env).carrier = (entry.1.value env).carrier := by
 rw [Laws.strip]
 split
 · rfl
 · exact carrier_value entry.1 0

theorem map_fst_zipIdx {α β : Type} (f : α → β) (l : List α) : l.zipIdx.map (fun entry => f entry.1) = l.map f := by
 rw [show (fun entry : α × Nat => f entry.1) = f ∘ Prod.fst from rfl, ← List.map_map, zipIdx_map_fst]

theorem Meaning.Takes.congr {M : Meaning L D} {args args' : List (Value D)} (h : M.Takes l args)
  (heq : args'.map Value.carrier = args.map Value.carrier) : M.Takes l args' where
 unique := h.unique
 length := by
  rw [← h.length]
  have hlen := congrArg List.length heq
  rwa [length_map, length_map] at hlen
 accepts := by
  rw [heq]
  exact h.accepts

/-- Entries of a list with indices know where they stand. -/
theorem zipIdx_split {α : Type} {l : List α} {pre rest : List (α × Nat)} {entry : α × Nat}
  (h : l.zipIdx = pre ++ entry :: rest) : entry.2 = pre.length := by
 have hat : l.zipIdx[pre.length]? = some entry := by
  grind
 grind

/-- The value over operands is the value over what the key keeps of them, shifted. -/
theorem apply_strip {operands : List Ref} (htakes : I.Takes l (operands.map (Ref.value env))) :
  I.Takes l ((operands.zipIdx.map (Laws.of l).strip).map (Ref.value env)) ∧ I.apply l (operands.map (Ref.value env)) =
    Offsets.shift (I.apply l ((operands.zipIdx.map (Laws.of l).strip).map (Ref.value env)))
     ((Laws.of l).moved operands) := by
 -- the operands passed are stripped, those to come still have their offsets
 have hpass : ∀ pre rest, operands.zipIdx = pre ++ rest →
   I.Takes l (((pre.map (Laws.of l).strip) ++ rest.map Prod.fst).map (Ref.value env)) ∧
   I.apply l (operands.map (Ref.value env)) =
    Offsets.shift (I.apply l (((pre.map (Laws.of l).strip) ++ rest.map Prod.fst).map (Ref.value env)))
     (pre.foldl (fun sum entry => sum + (Laws.of l).coefficient entry.2 * entry.1.offset) 0) := by
  intro pre
  induction pre using List.reverseRecOn with
  | nil =>
   intro rest hrest
   rw [nil_append] at hrest
   rw [← hrest, map_nil, nil_append, zipIdx_map_fst, foldl_nil, Offsets.shift_zero]
   exact ⟨htakes, rfl⟩
  | append_singleton pre entry ih =>
   intro rest hrest
   rw [append_assoc, singleton_append] at hrest
   obtain ⟨htakes', heq⟩ := ih (entry :: rest) hrest
   have hidx := zipIdx_split hrest
   have hcarriers : (((pre ++ [entry]).map (Laws.of l).strip ++ rest.map Prod.fst).map (Ref.value env)).map
     Value.carrier = ((pre.map (Laws.of l).strip ++ (entry :: rest).map Prod.fst).map (Ref.value env)).map
      Value.carrier := by
    grind [carrier_strip]
   refine ⟨htakes'.congr hcarriers, ?_⟩
   rw [heq, foldl_concat]
   by_cases hzero : (Laws.of l).coefficient entry.2 = 0
   · have hstrip : (Laws.of l).strip entry = entry.1 := if_pos hzero
     grind
   · have hstrip : (Laws.of l).strip entry = ⟨entry.1.id, 0⟩ := if_neg hzero
     obtain ⟨hcarr, hdecl⟩ := Laws.coefficient_of hzero
     have htakes'' := htakes'.congr hcarriers
     simp only [map_append, map_cons, map_nil, append_assoc, singleton_append,
      hstrip] at htakes'' ⊢
     have hval : entry.1.value env = Offsets.shift (Ref.value env ⟨entry.1.id, 0⟩) entry.1.offset := by
      rw [Ref.value, Ref.value, Offsets.shift_zero]
     have hlen : ((pre.map (Laws.of l).strip).map (Ref.value env)).length = entry.2 := by
      rw [length_map, length_map, hidx]
     rw [hval, I.coefficient l _ _ _ _ entry.1.offset htakes'' hcarr (by rw [hlen]; exact hdecl),
      Offsets.shift_shift, add_comm]
 have hall := hpass operands.zipIdx [] (append_nil _).symm
 rwa [map_nil, append_nil] at hall

/-! ## What the laws settle -/

/-- The zeros are zeros of carriers that labels have. -/
def Zeros (L : Type) [Label L] {D : Type} (env : Nat → Value D) (size : Nat) (zeros : List (Nat × Nat)) : Prop :=
 ∀ zero ∈ zeros, zero.2 < size ∧
  ∃ (l : L) (c : Carrier), Label.carrier l = some c ∧ c.key = zero.1 ∧ env zero.2 = Value.int c 0

section Fold

variable (h : Placed uf env) {operands : List Ref} (hcanonical : Canonical uf operands)
 (htakes : I.Takes l (operands.map (Ref.value env)))

include htakes in
theorem pair_of_takes (harity : Label.arity l = 2) : ∃ first second, operands = [first, second] := by
 have hlen := htakes.length
 rw [length_map, harity] at hlen
 exact length_eq_two.1 hlen

include h

/-- What an identity leaves of a node is the other operand, shifted by what the coefficient carries. -/
theorem identity_value {element other found : Ref} {operand : Nat} {identity : Word} (args : Value D → List (Value D))
  (hroot : element.id < uf.len ∧ uf.parentOf element.id = element.id) (hzero : uf.isZero element.id = true)
  (hother : other.id < uf.len ∧ uf.parentOf other.id = other.id)
  (hcongr : ∀ v v', v.carrier = v'.carrier → I.Takes l (args v) → I.Takes l (args v'))
  (htakes : I.Takes l (args (element.value env)))
  (hidentity : ∀ carrier, I.Takes l (args (Value.int carrier identity)) →
   I.apply l (args (Value.int carrier identity)) = other.value env)
  (hcoefficient : ∀ v k offset, I.Takes l (args v) → Label.carrier l ≠ none →
   Label.offsetCoefficient l operand = some k →
   I.apply l (args (Offsets.shift v offset)) = Offsets.shift (I.apply l (args v)) (k * offset))
  (hfold : (if (Laws.of l).coefficient operand = 0 then
    if element.offset = identity then
     if uf.maskOf other.id = (Laws.of l).mask then some (Ref.mk other.id ((other.offset + 0) &&& (Laws.of l).mask))
     else none else none else
    if uf.maskOf other.id = (Laws.of l).mask then
     some (Ref.mk other.id ((other.offset + (Laws.of l).coefficient operand * (element.offset - identity)) &&&
      (Laws.of l).mask)) else none) = some found) :
  found.id < uf.len ∧ uf.parentOf found.id = found.id ∧ found.value env = I.apply l (args (element.value env)) := by
 obtain ⟨carrier, hval⟩ := h.value_zero element hroot.1 hroot.2 hzero
 split at hfold
 · split at hfold
   · rename_i hoff
     split at hfold
     · rename_i hmask
       cases hfold
       refine ⟨hother.1, hother.2, ?_⟩
       rw [hval, hoff] at htakes ⊢
       rw [hidentity carrier htakes, ← hmask, h.mask_eq hother.1, value_and_mask, Offsets.shift_zero]
     · nomatch hfold
   · nomatch hfold
 · rename_i hne
   split at hfold
   · rename_i hmask
     cases hfold
     refine ⟨hother.1, hother.2, ?_⟩
     obtain ⟨hcarr, hdecl⟩ := Laws.coefficient_of hne
     have hshift : element.value env = Offsets.shift (Value.int carrier identity) (element.offset - identity) := by
      rw [hval, Value.shift_int]
      congr 1
      ring
     have htakes' : I.Takes l (args (Value.int carrier identity)) := by
      grind [Value.carrier_int]
     rw [hshift, hcoefficient _ _ _ htakes' hcarr hdecl, hidentity carrier htakes', ← hmask,
      h.mask_eq hother.1, value_and_mask]
   · nomatch hfold

include hcanonical htakes

theorem foldIdentity_value {operand : Nat} {found : Ref} (hfold : foldIdentity uf (Laws.of l) operands operand = some found) :
  found.id < uf.len ∧ uf.parentOf found.id = found.id ∧
   found.value env = I.apply l (operands.map (Ref.value env)) := by
 rw [foldIdentity] at hfold
 split at hfold
 · rename_i identity element hidentity helement
   obtain ⟨c, e, hcarr, harity, hop, hdecl, rfl⟩ := Laws.identity_of hidentity
   obtain ⟨first, second, rfl⟩ := pair_of_takes htakes harity
   have hfst := hcanonical first (.head _)
   have hsnd := hcanonical second (.tail _ (.head _))
   split at hfold
   · rename_i hzero
     -- the two operands are the element and the other, one way or the other way round
     match operand, hop with
     | 0, _ =>
      cases helement
      exact identity_value (I := I) h (fun v => [v, second.value env]) hfst hzero hsnd
       (fun v v' heq htakes => htakes.congr (by simp [heq])) htakes
       (fun carrier htakes => I.identity_left l c e carrier _ htakes hcarr hdecl)
       (fun v k offset htakes => I.coefficient l [] v [second.value env] k offset htakes) hfold
     | 1, _ =>
      cases helement
      exact identity_value (I := I) h (fun v => [first.value env, v]) hsnd hzero hfst
       (fun v v' heq htakes => htakes.congr (by simp [heq])) htakes
       (fun carrier htakes => I.identity_right l c e carrier _ htakes hcarr hdecl)
       (fun v k offset htakes => I.coefficient l [first.value env] v [] k offset htakes) hfold
   · nomatch hfold
 · nomatch hfold

variable {zeros : List (Nat × Nat)} (hzeros : Zeros L env uf.len zeros)

include hzeros

theorem foldLinear_value {found : Ref} (hfold : foldLinear uf zeros (Laws.of l) operands = some found) :
  ∃ zero ∈ zeros, found.id = zero.2 ∧ found.value env = I.apply l (operands.map (Ref.value env)) := by
 rw [foldLinear] at hfold
 split at hfold
 · rename_i hboth
   rw [and_eq_true, List.all_eq_true] at hboth
   obtain ⟨hlinear, hall⟩ := hboth
   rw [Laws.carrier_of, bind_eq_some_iff] at hfold
   obtain ⟨c, hcarr, hfold⟩ := hfold
   rw [map_eq_some_iff] at hfold
   obtain ⟨zero, hfind, rfl⟩ := hfold
   have hin := mem_of_find?_eq_some hfind
   have hkey : zero.1 = c.key := by simpa using find?_some hfind
   obtain ⟨-, l', c', hcarr', hkey', hval⟩ := hzeros zero hin
   obtain rfl := Label.carrier_key l l' c c' hcarr hcarr' (hkey.symm.trans hkey'.symm)
   refine ⟨zero, hin, rfl, ?_⟩
   have hlen : operands.length = (Laws.of l).coefficients.length := by
    rw [Laws.length_of_linear hlinear, ← htakes.length, length_map]
   -- stripped, every operand is a zero
   obtain ⟨htakes', heq⟩ := apply_strip htakes
   have hstripped : ∀ arg ∈ (operands.zipIdx.map (Laws.of l).strip).map (Ref.value env),
     ∃ carrier, arg = Value.int carrier 0 := by
    intro arg harg
    obtain ⟨ref, href, rfl⟩ := List.mem_map.1 harg
    obtain ⟨⟨operand, index⟩, hent, rfl⟩ := List.mem_map.1 href
    obtain ⟨-, hidx, hget⟩ := mem_zipIdx hent
    have hmem : operand ∈ operands := by
     grind
    rw [Laws.strip, if_neg (Laws.coefficient_of_linear hlinear (by omega))]
    obtain ⟨hlt, hroot⟩ := hcanonical operand hmem
    obtain ⟨carrier, hval⟩ := h.value_zero ⟨operand.id, 0⟩ hlt hroot (hall operand hmem)
    exact ⟨carrier, hval⟩
   have hsum : operands.zipIdx.foldl (fun sum entry => sum + (Laws.of l).coefficient entry.2 * entry.1.offset)
     (Laws.of l).bias = (Laws.of l).bias + (Laws.of l).moved operands := by
    rw [Laws.moved]
    generalize operands.zipIdx = entries
    induction entries using List.reverseRecOn with
    | nil => exact (add_zero _).symm
    | append_singleton entries entry ih => rw [foldl_concat, foldl_concat, ih, add_assoc]
   have hmask : (Laws.of l).mask = c.mask := by
    rw [Laws.mask_of, hcarr]
    rfl
   rw [heq, I.bias l _ c htakes' hcarr hlinear hstripped, Value.shift_int, hsum, hmask,
    Laws.bias_of htakes.unique hcarr, Ref.value, hval, Value.shift_int, zero_add, Value.int_and_mask]
   have hlow : IsLowMask c.mask := isLowMask_lowMask c.width
   rw [← Value.int_and_mask c ((Label.bias l &&& c.mask) + _), and_add_and hlow, Value.int_and_mask]
 · cases hfold

/-- What the laws settle a node to is its value. -/
theorem fold_value {found : Ref} (hfold : fold uf zeros (Laws.of l) operands = some found) :
  found.id < uf.len ∧ found.value env = I.apply l (operands.map (Ref.value env)) := by
 rw [fold, or_eq_some_iff, or_eq_some_iff] at hfold
 rcases hfold with hleft | ⟨-, hright | ⟨-, hlinear⟩⟩
 · obtain ⟨hlt, -, hval⟩ := foldIdentity_value h hcanonical htakes hleft
   exact ⟨hlt, hval⟩
 · obtain ⟨hlt, -, hval⟩ := foldIdentity_value h hcanonical htakes hright
   exact ⟨hlt, hval⟩
 · obtain ⟨zero, hin, hid, hval⟩ := foldLinear_value h hcanonical htakes hzeros hlinear
   refine ⟨?_, hval⟩
   rw [hid]
   exact (hzeros zero hin).1

end Fold

theorem fold_unique {l : L} (h : Label.unique l = true) (uf : UnionFind) (zeros : List (Nat × Nat)) (operands : List Ref) :
  fold uf zeros (Laws.of l) operands = none := by
 obtain ⟨hcoefficients, hidentity⟩ := Laws.of_unique h
 have hlinear : (Laws.of l).linear = false := by
  rw [Laws.linear, hcoefficients]
  rfl
 rw [fold, foldIdentity, foldIdentity, foldLinear, hidentity, hlinear]
 rfl

end Tir.Egraph
