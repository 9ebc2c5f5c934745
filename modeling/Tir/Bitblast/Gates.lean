import Tir.Sat.Clause

/-!
# Tseitin gates

The blaster adds clauses over fresh variables. Each gate defines one new variable by the clauses of its truth table,
so an assignment of the variables there were extends to the new one in exactly one way (`Valued.Extends`), and
under that extension the gate's literal has the value of the gate.
-/

open List Function Nat

namespace Tir.Bitblast

open Tir.Sat

/-- The solver's variables and clauses so far, and a literal fixed to true. -/
structure Blaster where
 numVars : Nat
 clauses : List Clause
 one : Lit

abbrev Blast := StateM Blaster

namespace Blaster

/-- The blaster of an empty graph. -/
def new : Blaster :=
 let one : Lit := ⟨0, false⟩
 ⟨1, [[one]], one⟩

/-- The literal fixed to true. -/
def getOne : Blast Lit := fun b => (b.one, b)

/-- The negation of `one` is the constant false. -/
def zero : Blast Lit := fun b => (b.one.negate, b)

/-- A fresh variable, and the clauses that define it. -/
def gate (clauses : Lit → List Clause) : Blast Lit := fun b =>
 let y : Lit := ⟨b.numVars, false⟩
 (y, { b with numVars := b.numVars + 1, clauses := b.clauses ++ clauses y })

def gateAnd (a b : Lit) : Blast Lit :=
 gate fun y => [[a.negate, b.negate, y], [a, y.negate], [b, y.negate]]

def gateOr (a b : Lit) : Blast Lit :=
 gate fun y => [[a, b, y.negate], [a.negate, y], [b.negate, y]]

def gateXor (a b : Lit) : Blast Lit :=
 gate fun y => [[a.negate, b.negate, y.negate], [a, b, y.negate], [a, b.negate, y], [a.negate, b, y]]

def gateMux (s a b : Lit) : Blast Lit :=
 gate fun y => [[s.negate, a.negate, y], [s.negate, a, y.negate], [s, b.negate, y], [s, b, y.negate]]

end Blaster

/-! ## Assignments and their extensions -/

/-- A blaster with an assignment that satisfies its clauses. -/
structure Valued where
 blaster : Blaster
 value : Nat → Bool
 models : Models value blaster.clauses
 bounded : ∀ c ∈ blaster.clauses, ∀ l ∈ c, l.var < blaster.numVars
 one_mem : [blaster.one] ∈ blaster.clauses

namespace Valued

/-- The assignment of `s` extends to `t`, and to the variables of `t` in no other way. -/
structure Extends (s t : Valued) : Prop where
 le : s.blaster.numVars ≤ t.blaster.numVars
 one : t.blaster.one = s.blaster.one
 clauses : ∀ c ∈ s.blaster.clauses, c ∈ t.blaster.clauses
 agree : ∀ v < s.blaster.numVars, t.value v = s.value v
 unique : ∀ τ, Models τ t.blaster.clauses → (∀ v < s.blaster.numVars, τ v = s.value v) →
  ∀ v < t.blaster.numVars, τ v = t.value v

theorem Extends.refl (s : Valued) : s.Extends s :=
 ⟨le_rfl, rfl, fun _ hc => hc, fun _ _ => rfl, fun _ _ hagree => hagree⟩

theorem Extends.trans {s t u : Valued} (h : s.Extends t) (h' : t.Extends u) : s.Extends u where
 le := h.le.trans h'.le
 one := h'.one.trans h.one
 clauses c hc := h'.clauses c (h.clauses c hc)
 agree v hv := (h'.agree v (hv.trans_le h.le)).trans (h.agree v hv)
 unique τ hτ hagree := h'.unique τ hτ (h.unique τ (fun c hc => hτ c (h'.clauses c hc)) hagree)

/-- Two extensions to one blaster assign the same values. -/
theorem Extends.of_same {s t u : Valued} (h : s.Extends t) (h' : s.Extends u) (hsame : u.blaster = t.blaster) : t.Extends u where
 le := hsame ▸ le_rfl
 one := congrArg Blaster.one hsame
 clauses c hc := hsame ▸ hc
 agree := h.unique u.value (hsame ▸ u.models) h'.agree
 unique τ _ hagree v hv := by
  rw [hsame] at hv
  exact (hagree v hv).trans (h.unique u.value (hsame ▸ u.models) h'.agree v hv).symm

def Means (s : Valued) (l : Lit) (v : Bool) : Prop :=
 l.var < s.blaster.numVars ∧ l.eval s.value = v

variable {s t : Valued} {l : Lit} {v : Bool}

theorem Means.mono (h : s.Means l v) (hext : s.Extends t) : t.Means l v := by
 refine ⟨h.1.trans_le hext.le, ?_⟩
 rw [Lit.eval, hext.agree _ h.1]
 exact h.2

theorem Means.unique {w : Bool} (h : s.Means l v) (h' : s.Means l w) : v = w :=
 h.2.symm.trans h'.2

theorem Means.negate (h : s.Means l v) : s.Means l.negate (!v) := by
 refine ⟨h.1, ?_⟩
 rw [Lit.eval_negate, h.2]

theorem means_one (s : Valued) : s.Means s.blaster.one true := by
 obtain ⟨l, hl, heval⟩ := s.models _ s.one_mem
 rw [mem_singleton.1 hl] at heval
 exact ⟨s.bounded _ s.one_mem _ (mem_singleton_self _), heval⟩

theorem means_zero (s : Valued) : s.Means s.blaster.one.negate false :=
 s.means_one.negate

/-- The action runs from the assignment to an extension of it. -/
def Yields {α : Type} (s : Valued) (act : Blast α) (post : Valued → α → Prop) : Prop :=
 ∃ t : Valued, s.Extends t ∧ t.blaster = (act s.blaster).2 ∧ post t (act s.blaster).1

variable {α β : Type} {act : Blast α} {post post' : Valued → α → Prop}

theorem yields_pure {a : α} (h : post s a) : s.Yields (pure a) post :=
 ⟨s, .refl s, rfl, h⟩

theorem yields_bind {k : α → Blast β} {Q : Valued → β → Prop} (h : s.Yields act post)
  (hk : ∀ t a, s.Extends t → post t a → t.Yields (k a) Q) : s.Yields (act >>= k) Q := by
 obtain ⟨t, hext, hstate, hpost⟩ := h
 obtain ⟨u, hext', hstate', hpost'⟩ := hk t _ hext hpost
 rw [hstate] at hstate' hpost'
 exact ⟨u, hext.trans hext', hstate', hpost'⟩

theorem Yields.mono (h : s.Yields act post) (himp : ∀ t a, s.Extends t → post t a → post' t a) : s.Yields act post' := by
 obtain ⟨t, hext, hstate, hpost⟩ := h
 exact ⟨t, hext, hstate, himp t _ hext hpost⟩

theorem yields_one : s.Yields Blaster.getOne fun t l => t.Means l true :=
 ⟨s, .refl s, rfl, s.means_one⟩

theorem yields_zero : s.Yields Blaster.zero fun t l => t.Means l false :=
 ⟨s, .refl s, rfl, s.means_zero⟩

/-- A gate whose clauses force the value of its variable. -/
theorem yields_gate {clauses : Lit → List Clause} (hbounded : ∀ c ∈ clauses ⟨s.blaster.numVars, false⟩,
   ∀ l ∈ c, l.var ≤ s.blaster.numVars) (hforced : ∀ τ, (∀ w < s.blaster.numVars, τ w = s.value w) →
   (Models τ (clauses ⟨s.blaster.numVars, false⟩) ↔ τ s.blaster.numVars = v)) :
  s.Yields (Blaster.gate clauses) fun t l => t.Means l v := by
 have hold : ∀ w < s.blaster.numVars, update s.value s.blaster.numVars v w = s.value w :=
  fun w hw => update_of_ne hw.ne _ _
 have hself : update s.value s.blaster.numVars v s.blaster.numVars = v := update_self ..
 have hnew : Models (update s.value s.blaster.numVars v) (clauses ⟨s.blaster.numVars, false⟩) :=
  (hforced _ hold).2 hself
 have hmodels : Models (update s.value s.blaster.numVars v)
   (s.blaster.clauses ++ clauses ⟨s.blaster.numVars, false⟩) := by
  intro c hc
  rcases mem_append.1 hc with hc | hc
  · obtain ⟨l, hl, heval⟩ := s.models c hc
    refine ⟨l, hl, ?_⟩
    rw [Lit.eval, hold _ (s.bounded c hc l hl)]
    exact heval
  · exact hnew c hc
 refine ⟨⟨(Blaster.gate clauses s.blaster).2, _, hmodels, ?_, mem_append_left _ s.one_mem⟩, ?_, rfl, ?_⟩
 · intro c hc l hl
   rcases mem_append.1 hc with hc | hc
   · exact lt_succ_of_lt (s.bounded c hc l hl)
   · exact lt_succ_of_le (hbounded c hc l hl)
 · refine ⟨le_succ _, rfl, fun c hc => mem_append_left _ hc, hold, fun τ hτ hagree w hw => ?_⟩
   rcases Nat.lt_succ_iff_lt_or_eq.1 hw with hw | rfl
   · exact (hagree w hw).trans (hold w hw).symm
   · exact ((hforced τ hagree).1 fun c hc => hτ c (mem_append_right _ hc)).trans hself.symm
 · exact ⟨lt_succ_self _, (Bool.xor_false _).trans hself⟩

/-! ## The gates -/

variable {a b c : Lit} {x y z : Bool}

/-- A literal of the older variables keeps its value under every extension. -/
theorem Means.eval_of_agree (h : s.Means l v) {τ : Nat → Bool} (hagree : ∀ w < s.blaster.numVars, τ w = s.value w) :
  l.eval τ = v := by
 rw [Lit.eval, hagree _ h.1]
 exact h.2

theorem eval_fresh (n : Nat) (τ : Nat → Bool) : (⟨n, false⟩ : Lit).eval τ = τ n :=
 Bool.xor_false _

section

variable (ha : s.Means a x) (hb : s.Means b y)

include ha hb

theorem yields_and : s.Yields (Blaster.gateAnd a b) fun t l => t.Means l (x && y) := by
 apply yields_gate
 · simp [ha.1.le, hb.1.le]
 · intro τ hagree
   have hx := ha.eval_of_agree hagree
   have hy := hb.eval_of_agree hagree
   cases x <;> cases y <;> simp [Models, Clause.Holds, hx, hy, eval_fresh]

theorem yields_or : s.Yields (Blaster.gateOr a b) fun t l => t.Means l (x || y) := by
 apply yields_gate
 · simp [ha.1.le, hb.1.le]
 · intro τ hagree
   have hx := ha.eval_of_agree hagree
   have hy := hb.eval_of_agree hagree
   cases x <;> cases y <;> simp [Models, Clause.Holds, hx, hy, eval_fresh]

theorem yields_xor : s.Yields (Blaster.gateXor a b) fun t l => t.Means l (x ^^ y) := by
 apply yields_gate
 · simp [ha.1.le, hb.1.le]
 · intro τ hagree
   have hx := ha.eval_of_agree hagree
   have hy := hb.eval_of_agree hagree
   cases x <;> cases y <;> simp [Models, Clause.Holds, hx, hy, eval_fresh]

end

theorem yields_mux (hc : s.Means c z) (ha : s.Means a x) (hb : s.Means b y) :
  s.Yields (Blaster.gateMux c a b) fun t l => t.Means l (if z then x else y) := by
 apply yields_gate
 · simp [ha.1.le, hb.1.le, hc.1.le]
 · intro τ hagree
   have hx := ha.eval_of_agree hagree
   have hy := hb.eval_of_agree hagree
   have hz := hc.eval_of_agree hagree
   cases x <;> cases y <;> cases z <;> simp [Models, Clause.Holds, hx, hy, hz, eval_fresh]

end Valued

end Tir.Bitblast
