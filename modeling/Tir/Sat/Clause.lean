import Mathlib.Tactic

/-!
# Literals, clauses and entailment

Propositional clauses over variables numbered by `Nat`, their truth under an assignment, and
entailment by a list of clauses. The lemmas are those clause learning rests on: a clause of the
list is entailed, entailment is kept by adding clauses, and a literal whose negation is entailed
can be dropped from an entailed clause.
-/

open List

namespace Tir.Sat

/-- A variable with a sign. -/
structure Lit where
 var : Nat
 negated : Bool
 deriving DecidableEq, Repr

namespace Lit

/-- The opposite literal. -/
def negate (l : Lit) : Lit := ⟨l.var, !l.negated⟩

/-- The truth value of a literal. -/
def eval (l : Lit) (σ : Nat → Bool) : Bool := σ l.var ^^ l.negated

@[simp] theorem negate_var (l : Lit) : l.negate.var = l.var := rfl

@[simp] theorem negate_negate (l : Lit) : l.negate.negate = l := by
  cases l
  simp [negate]

@[simp] theorem eval_negate (l : Lit) (σ : Nat → Bool) : l.negate.eval σ = !l.eval σ := by
  simp [eval, negate]

/-- Two literals of one variable are equal or opposite. -/
theorem eq_or_eq_negate {l k : Lit} (h : l.var = k.var) : l = k ∨ l = k.negate := by
 obtain ⟨v, s⟩ := l
 obtain ⟨w, t⟩ := k
 subst h
 cases s <;> cases t <;> simp [negate]

end Lit

/-- A disjunction of literals. -/
abbrev Clause := List Lit

/-- Some literal of the clause is true. -/
def Clause.Holds (c : Clause) (σ : Nat → Bool) : Prop := ∃ l ∈ c, l.eval σ = true

instance (c : Clause) (σ : Nat → Bool) : Decidable (c.Holds σ) :=
 inferInstanceAs (Decidable (∃ l ∈ c, l.eval σ = true))

/-- The assignment satisfies every clause. -/
def Models (σ : Nat → Bool) (F : List Clause) : Prop := ∀ c ∈ F, c.Holds σ

instance (σ : Nat → Bool) (F : List Clause) : Decidable (Models σ F) :=
 inferInstanceAs (Decidable (∀ c ∈ F, c.Holds σ))

/-- Every assignment that satisfies `F` satisfies the clause. -/
def Entails (F : List Clause) (c : Clause) : Prop := ∀ σ, Models σ F → c.Holds σ

variable {F F' : List Clause} {c d : Clause} {l : Lit} {σ : Nat → Bool}

theorem Models.of_append_left (h : Models σ (F ++ F')) : Models σ F :=
 fun c hc => h c (mem_append_left _ hc)

theorem Entails.append (h : Entails F c) (F' : List Clause) : Entails (F ++ F') c :=
 fun σ hσ => h σ hσ.of_append_left

theorem entails_of_mem (h : c ∈ F) : Entails F c := fun _ hσ => hσ c h

theorem Entails.of_subset (h : Entails F c) (hsub : ∀ l ∈ c, l ∈ d) : Entails F d := by
 intro σ hσ
 obtain ⟨l, hl, heval⟩ := h σ hσ
 exact ⟨l, hsub l hl, heval⟩

theorem Entails.eval (h : Entails F [l]) (hσ : Models σ F) : l.eval σ = true := by
 obtain ⟨k, hk, heval⟩ := h σ hσ
 rwa [mem_singleton.1 hk] at heval

/-- A clause all of whose literals but one are refuted entails that one. -/
theorem Entails.unit (h : Entails F (l :: c)) (hc : ∀ q ∈ c, Entails F [q.negate]) :
  Entails F [l] := by
 intro σ hσ
 obtain ⟨q, hq, heval⟩ := h σ hσ
 rcases mem_cons.1 hq with rfl | hq
 · exact ⟨q, mem_singleton_self q, heval⟩
 · have hfalse := (hc q hq).eval hσ
   rw [Lit.eval_negate, heval] at hfalse
   cases hfalse

/-- A clause all of whose literals are refuted leaves no model. -/
theorem Entails.refute (h : Entails F c) (hc : ∀ q ∈ c, Entails F [q.negate]) (σ : Nat → Bool) :
  ¬ Models σ F := by
 intro hσ
 obtain ⟨q, hq, heval⟩ := h σ hσ
 have hfalse := (hc q hq).eval hσ
 rw [Lit.eval_negate, heval] at hfalse
 cases hfalse

/-! ## Reordering literals -/

/-- Taking the literal at `k` out and leaving another in its place. -/
theorem cons_set_perm {lits : Clause} {k : Nat} (hk : lits[k]? = some l) (w : Lit) :
  (l :: lits.set k w).Perm (w :: lits) := by
 obtain ⟨hlt, rfl⟩ := List.getElem?_eq_some_iff.1 hk
 calc (lits[k] :: lits.set k w).Perm (lits[k] :: w :: lits.eraseIdx k) :=
       (set_perm_cons_eraseIdx hlt w).cons _
  _ |>.Perm (w :: lits[k] :: lits.eraseIdx k) := Perm.swap _ _ _
  _ |>.Perm (w :: lits) := (getElem_cons_eraseIdx_perm hlt).cons _

/-! ## Counting clauses -/

/-- The clauses as sets of literals. -/
def clauseSets (F : List Clause) : Finset (Finset Lit) := (F.map List.toFinset).toFinset

/-- The literals of the first `n` variables. -/
def litsBelow (n : Nat) : Finset Lit :=
 ((Finset.range n) ×ˢ (Finset.univ : Finset Bool)).image fun p => ⟨p.1, p.2⟩

theorem mem_litsBelow (n : Nat) (l : Lit) : l ∈ litsBelow n ↔ l.var < n := by
 simp only [litsBelow, Finset.mem_image, Finset.mem_product, Finset.mem_range, Finset.mem_univ,
  and_true, Prod.exists]
 constructor
 · rintro ⟨v, s, hv, rfl⟩
   exact hv
 · exact fun h => ⟨l.var, l.negated, h, rfl⟩

theorem card_litsBelow_le (n : Nat) : (litsBelow n).card ≤ 2 * n := by
 refine Finset.card_image_le.trans ?_
 rw [Finset.card_product, Finset.card_range, Finset.card_univ, Fintype.card_bool]
 omega

/-- There are only so many clauses over `n` variables. -/
theorem card_clauseSets_le {n : Nat} (h : ∀ c ∈ F, ∀ l ∈ c, l.var < n) :
  (clauseSets F).card ≤ 2 ^ (2 * n) := by
 have hsub : clauseSets F ⊆ (litsBelow n).powerset := by
  intro s hs
  simp only [clauseSets, mem_toFinset, mem_map] at hs
  obtain ⟨c, hc, rfl⟩ := hs
  refine Finset.mem_powerset.2 fun l hl => (mem_litsBelow n l).2 ?_
  exact h c hc l (mem_toFinset.1 hl)
 calc (clauseSets F).card ≤ (litsBelow n).powerset.card := Finset.card_le_card hsub
  _ = 2 ^ (litsBelow n).card := Finset.card_powerset _
  _ ≤ 2 ^ (2 * n) := Nat.pow_le_pow_right (by decide) (card_litsBelow_le n)

/-- A clause that is none of them as a set is one more. -/
theorem card_clauseSets_append (h : ∀ d ∈ F, d.toFinset ≠ c.toFinset) :
  (clauseSets (F ++ [c])).card = (clauseSets F).card + 1 := by
 have hnot : c.toFinset ∉ clauseSets F := by
  simp only [clauseSets, mem_toFinset, mem_map, not_exists, not_and]
  exact h
 have hins : clauseSets (F ++ [c]) = insert c.toFinset (clauseSets F) := by
  ext s
  simp [clauseSets]
 rw [hins, Finset.card_insert_of_notMem hnot]

/-- Reordering the literals of one clause does not change the sets. -/
theorem clauseSets_set {i : Nat} (hi : F[i]? = some c) (hd : d.toFinset = c.toFinset) :
  clauseSets (F.set i d) = clauseSets F := by
 have hmap : (F.set i d).map List.toFinset = F.map List.toFinset := by
  rw [map_set, hd]
  apply ext_getElem?
  intro j
  rw [getElem?_set]
  split
  · rename_i hij
    subst hij
    obtain ⟨hlt, rfl⟩ := List.getElem?_eq_some_iff.1 hi
    simp [hlt]
  · rfl
 rw [clauseSets, hmap, clauseSets]

end Tir.Sat
