import Mathlib

/-!
# Lattice columns

A column joins what is written of a key, logs what an open scope overwrites, and keeps an index from values to keys that only grows.
A read of the index drops the keys that have left the value, but one that left it and came back stands in it twice
(`keysWith_twice`); where no key comes back, everything is as the writes say (`column_correct`).
-/

open List Option Function

namespace Tir.Relational.Lattice

variable {V : Type}

/-- What an id is known to be. -/
inductive Fact (V : Type) where
 | known (value : V)
 | conflict
deriving DecidableEq

/-- How a column combines two values proven of one id. -/
inductive Join where
 | agree | first | max | min | sum

structure Entry (V : Type) where
 fact : Fact V
 /-- The epoch the entry last rose in. -/
 stamp : Nat

/-- What a scope logs: the keys it wrote and what they held before. -/
abbrev Frame (V : Type) := List (Nat × Option (Entry V))

/-- One lattice column. The innermost scope stands first, and in a scope what it wrote last. -/
structure Column (V : Type) where
 how : Join
 fact : Nat → Option (Entry V)
 byValue : V → List Nat
 scopes : List (Frame V)

def new (how : Join) : Column V :=
 ⟨how, fun _ => none, fun _ => [], []⟩

section Join

variable [LinearOrder V] [Add V]

def Fact.join : Fact V → Fact V → Join → Fact V
 | .known a, _, .first => .known a
 | .known a, .known b, .agree => if a = b then .known a else .conflict
 | .known a, .known b, .max => .known (max a b)
 | .known a, .known b, .min => .known (min a b)
 | .known a, .known b, .sum => .known (a + b)
 | _, _, _ => .conflict

/-- The join of facts, the first one written first. -/
def joined (how : Join) : List (Fact V) → Option (Fact V)
 | [] => none
 | fact :: facts => some (facts.foldl (fun a b => a.join b how) fact)

theorem joined_concat (how : Join) (facts : List (Fact V)) (fact : Fact V) :
  joined how (facts ++ [fact]) = some (((joined how facts).map fun a => a.join fact how).getD fact) := by
 cases facts with
 | nil => rfl
 | cons first facts => simp [joined, foldl_append]

end Join

namespace Column

variable (c : Column V)

/-- The log of the innermost scope, with what a key held before. -/
def logged (key : Nat) (previous : Option (Entry V)) : List (Frame V) :=
 match c.scopes with
 | [] => []
 | frame :: rest => ((key, previous) :: frame) :: rest

def entry (key : Nat) : Option (Fact V) :=
 (c.fact key).map Entry.fact

def get (key : Nat) : Option V :=
 match c.entry key with
 | some (.known value) => some value
 | _ => none

def detach (key : Nat) : Option (Fact V) × Column V :=
 match c.fact key with
 | none => (none, c)
 | some entry => (some entry.fact, { c with fact := update c.fact key none, scopes := c.logged key (some entry) })

variable {c} in
theorem detach_of_none {key : Nat} (h : c.fact key = none) : c.detach key = (none, c) := by
 rw [detach, h]

variable {c} in
theorem detach_of_some {key : Nat} {entry : Entry V} (h : c.fact key = some entry) :
  c.detach key = (some entry.fact, { c with fact := update c.fact key none, scopes := c.logged key (some entry) }) := by
 rw [detach, h]

def pushScope : Column V :=
 { c with scopes := [] :: c.scopes }

/-- Put back what a scope logged, the last write first. -/
def undo (frame : Frame V) (fact : Nat → Option (Entry V)) : Nat → Option (Entry V) :=
 frame.foldl (fun fact entry => update fact entry.1 entry.2) fact

/-- `none` is the panic without an open scope. -/
def popScope : Option (Column V) :=
 match c.scopes with
 | [] => none
 | frame :: rest => some { c with fact := undo frame c.fact, scopes := rest }

variable [LinearOrder V] [Add V]

/-- The index with a key added under the value it has come to hold. -/
def indexed (key : Nat) : Fact V → V → List Nat
 | .known value => update c.byValue value (c.byValue value ++ [key])
 | .conflict => c.byValue

def set (key : Nat) (joined : Fact V) (epoch : Nat) : Bool × Column V :=
 if c.entry key = some joined then (false, c)
 else
  (true, { c with
   scopes := c.logged key (c.fact key)
   fact := update c.fact key (some ⟨joined, epoch⟩)
   byValue := c.indexed key joined })

/-- What a write makes of a key's entry. -/
def onto (key : Nat) (fact : Fact V) : Fact V :=
 match c.fact key with
 | some entry => entry.fact.join fact c.how
 | none => fact

def write (key : Nat) (fact : Fact V) (epoch : Nat) : Bool × Column V :=
 c.set key (c.onto key fact) epoch

def raise (key : Nat) (value : V) (epoch : Nat) : Bool × Column V :=
 c.write key (.known value) epoch

/-- An empty column has no entry to move either. -/
def merge (absorbed survivor epoch : Nat) : Bool × Column V :=
 match c.detach absorbed with
 | (some fact, c) => c.write survivor fact epoch
 | (none, c) => (false, c)

/-- The keys that the index has for a value and that still hold it. -/
def keysWith (value : V) : List Nat :=
 (c.byValue value).filter fun key => c.get key = some value

end Column

/-! ## Runs -/

/-- The facts written of each key since it was last detached. -/
abbrev Ledger (V : Type) := Nat → List (Fact V)

/-- What was written and what was held at a push. -/
abbrev Saved (V : Type) := Ledger V × (Nat → Option (Entry V))

section Runs

variable [LinearOrder V] [Add V]

/-- A merge detaches one key and writes what it held of the other. -/
def Ledger.merge (how : Join) (wrote : Ledger V) (absorbed survivor : Nat) : Ledger V :=
 match joined how (wrote absorbed) with
 | none => wrote
 | some fact => update (update wrote absorbed []) survivor (update wrote absorbed [] survivor ++ [fact])

/-- A key that comes to hold a value has not held it before. -/
def Column.Fresh (c : Column V) (key : Nat) (fact : Fact V) : Prop :=
 ∀ value, c.onto key fact = .known value → c.entry key ≠ some (.known value) → key ∉ c.byValue value

/-- The columns that calls lead to, with what was written, and for each open scope what was written and held at its push. The calls
are fresh where `strict` holds. -/
inductive Run (strict : Prop) (how : Join) : Column V → Ledger V → List (Saved V) → Prop
 | new : Run strict how (new how) (fun _ => []) []
 | write {c : Column V} {wrote saved} (h : Run strict how c wrote saved) (key : Nat) (fact : Fact V) (epoch : Nat)
  (hfresh : strict → c.Fresh key fact) : Run strict how (c.write key fact epoch).2 (update wrote key (wrote key ++ [fact])) saved
 | detach {c : Column V} {wrote saved} (h : Run strict how c wrote saved) (key : Nat) :
  Run strict how (c.detach key).2 (update wrote key []) saved
 | merge {c : Column V} {wrote saved} (h : Run strict how c wrote saved) (absorbed survivor epoch : Nat)
  (hfresh : strict → ∀ fact, (c.detach absorbed).1 = some fact → (c.detach absorbed).2.Fresh survivor fact) :
  Run strict how (c.merge absorbed survivor epoch).2 (wrote.merge how absorbed survivor) saved
 | pushScope {c : Column V} {wrote saved} (h : Run strict how c wrote saved) : Run strict how c.pushScope wrote ((wrote, c.fact) :: saved)
 | popScope {c c' : Column V} {wrote before saved} (h : Run strict how c wrote (before :: saved)) (hpop : c.popScope = some c') :
  Run strict how c' before.1 saved

/-! ## The invariant -/

variable {strict : Prop} {how : Join} {c c' : Column V} {wrote : Ledger V} {saved : List (Saved V)}

/-- The entries are the joins of what was written, and the index has them. -/
def Holds (how : Join) (byValue : V → List Nat) (fact : Nat → Option (Entry V)) (wrote : Ledger V) : Prop :=
 (∀ key, (fact key).map Entry.fact = joined how (wrote key)) ∧
  ∀ key value, (fact key).map Entry.fact = some (.known value) → key ∈ byValue value

/-- Each scope's log leads back to what was held at its push. -/
def Frames (how : Join) (byValue : V → List Nat) : List (Frame V) → (Nat → Option (Entry V)) → List (Saved V) → Prop
 | [], _, [] => True
 | frame :: rest, fact, before :: saved => Column.undo frame fact = before.2 ∧ Holds how byValue before.2 before.1 ∧
   Frames how byValue rest before.2 saved
 | _, _, _ => False

structure Inv (strict : Prop) (how : Join) (c : Column V) (wrote : Ledger V) (saved : List (Saved V)) : Prop where
 joins : c.how = how
 holds : Holds how c.byValue c.fact wrote
 frames : Frames how c.byValue c.scopes c.fact saved
 nodup : strict → ∀ value, (c.byValue value).Nodup

theorem Holds.mono {byValue byValue' : V → List Nat} {fact : Nat → Option (Entry V)} (h : Holds how byValue fact wrote)
  (hgrows : ∀ value key, key ∈ byValue value → key ∈ byValue' value) : Holds how byValue' fact wrote :=
 ⟨h.1, fun key value hknown => hgrows value key (h.2 key value hknown)⟩

theorem Holds.update {byValue : V → List Nat} {fact : Nat → Option (Entry V)} (h : Holds how byValue fact wrote) {key : Nat}
  {entry : Option (Entry V)} {facts : List (Fact V)} (hjoined : entry.map Entry.fact = joined how facts)
  (hlisted : ∀ value, entry.map Entry.fact = some (.known value) → key ∈ byValue value) :
  Holds how byValue (update fact key entry) (update wrote key facts) := by
 constructor
 · intro k
   rcases eq_or_ne k key with rfl | hne
   · rw [update_self, update_self, hjoined]
   · rw [update_of_ne hne, update_of_ne hne, h.1 k]
 · intro k value hknown
   rcases eq_or_ne k key with rfl | hne
   · rw [update_self] at hknown
     exact hlisted value hknown
   · rw [update_of_ne hne] at hknown
     exact h.2 k value hknown

theorem Frames.mono {byValue byValue' : V → List Nat} {scopes : List (Frame V)} {fact : Nat → Option (Entry V)}
  (h : Frames how byValue scopes fact saved) (hgrows : ∀ value key, key ∈ byValue value → key ∈ byValue' value) :
  Frames how byValue' scopes fact saved := by
 induction scopes generalizing fact saved with
 | nil =>
  cases saved with
  | nil => trivial
  | cons => exact h.elim
 | cons frame rest ih =>
  cases saved with
  | nil => exact h.elim
  | cons before saved =>
   obtain ⟨hundo, hholds, hrest⟩ := h
   exact ⟨hundo, hholds.mono hgrows, ih hrest⟩

/-- What is logged of an overwritten entry puts it back. -/
theorem Frames.logged {byValue : V → List Nat} (h : Frames how byValue c.scopes c.fact saved) (key : Nat) (entry : Option (Entry V)) :
  Frames how byValue (c.logged key (c.fact key)) (update c.fact key entry) saved := by
 rw [Column.logged]
 cases hscopes : c.scopes with
 | nil =>
  rw [hscopes] at h
  cases saved with
  | nil => trivial
  | cons => exact h.elim
 | cons frame rest =>
  rw [hscopes] at h
  cases saved with
  | nil => exact h.elim
  | cons before saved =>
   obtain ⟨hundo, hrest⟩ := h
   refine ⟨?_, hrest⟩
   rw [Column.undo, foldl_cons, update_idem, update_eq_self]
   exact hundo

omit [Add V] in
theorem mem_indexed {key k : Nat} {fact : Fact V} {value : V} :
  k ∈ c.indexed key fact value ↔ k ∈ c.byValue value ∨ fact = .known value ∧ k = key := by
 cases fact with
 | known v =>
  rcases eq_or_ne v value with rfl | hne
  · simp [Column.indexed]
  · simp [Column.indexed, update_of_ne hne.symm, hne]
 | conflict => simp [Column.indexed]

omit [Add V] in
theorem nodup_indexed {key : Nat} {fact : Fact V} {value : V} (h : (c.byValue value).Nodup)
  (hnew : fact = .known value → key ∉ c.byValue value) : (c.indexed key fact value).Nodup := by
 cases fact with
 | known v =>
  rcases eq_or_ne value v with rfl | hne
  · rw [Column.indexed, update_self, ← concat_eq_append]
    exact h.concat (hnew rfl)
  · rw [Column.indexed, update_of_ne hne]
    exact h
 | conflict => exact h

theorem Inv.set (h : Inv strict how c wrote saved) {key : Nat} {fact : Fact V} {facts : List (Fact V)}
  (hjoined : joined how facts = some fact) (epoch : Nat)
  (hfresh : strict → ∀ value, fact = .known value → c.entry key ≠ some (.known value) → key ∉ c.byValue value) :
  Inv strict how (c.set key fact epoch).2 (update wrote key facts) saved := by
 by_cases hsame : c.entry key = some fact
 · rw [Column.set, if_pos hsame]
   have hholds := h.holds.update (hsame.trans hjoined.symm) fun value => h.holds.2 key value
   rw [update_eq_self] at hholds
   exact ⟨h.joins, hholds, h.frames, h.nodup⟩
 · rw [Column.set, if_neg hsame]
   have hgrows : ∀ value k, k ∈ c.byValue value → k ∈ c.indexed key fact value := fun value k hk => mem_indexed.2 (.inl hk)
   exact ⟨h.joins, (h.holds.mono hgrows).update hjoined.symm fun value hknown => mem_indexed.2 (.inr ⟨some_inj.1 hknown, rfl⟩),
    (h.frames.logged key _).mono hgrows, fun hstrict value =>
     nodup_indexed (h.nodup hstrict value) fun hknown => hfresh hstrict value hknown (hknown ▸ hsame)⟩

theorem Inv.write (h : Inv strict how c wrote saved) (key : Nat) (fact : Fact V) (epoch : Nat) (hfresh : strict → c.Fresh key fact) :
  Inv strict how (c.write key fact epoch).2 (update wrote key (wrote key ++ [fact])) saved := by
 refine h.set ?_ epoch hfresh
 rw [joined_concat, ← h.holds.1 key, Column.onto, h.joins]
 cases c.fact key <;> rfl

theorem Inv.detach (h : Inv strict how c wrote saved) (key : Nat) : Inv strict how (c.detach key).2 (update wrote key []) saved := by
 cases hkey : c.fact key with
 | none =>
  have hholds := @Holds.update _ _ _ _ _ _ _ h.holds key _ [] (congrArg (Option.map Entry.fact) hkey) fun value => h.holds.2 key value
  rw [update_eq_self] at hholds
  rw [Column.detach_of_none hkey]
  exact ⟨h.joins, hholds, h.frames, h.nodup⟩
 | some entry =>
  rw [Column.detach_of_some hkey]
  exact ⟨h.joins, h.holds.update rfl nofun, hkey ▸ h.frames.logged key none, h.nodup⟩

theorem Inv.merge (h : Inv strict how c wrote saved) (absorbed survivor epoch : Nat)
  (hfresh : strict → ∀ fact, (c.detach absorbed).1 = some fact → (c.detach absorbed).2.Fresh survivor fact) :
  Inv strict how (c.merge absorbed survivor epoch).2 (wrote.merge how absorbed survivor) saved := by
 have hdetached := h.detach absorbed
 rw [Column.merge, Ledger.merge, ← h.holds.1 absorbed]
 cases habsorbed : c.fact absorbed with
 | none =>
  rw [Column.detach_of_none habsorbed]
  exact h
 | some entry =>
  rw [Column.detach_of_some habsorbed] at hfresh hdetached ⊢
  exact hdetached.write survivor entry.fact epoch fun hstrict => hfresh hstrict _ rfl

theorem Inv.popScope {before : Saved V} (h : Inv strict how c wrote (before :: saved)) :
  ∃ c', c.popScope = some c' ∧ c'.fact = before.2 ∧ Inv strict how c' before.1 saved := by
 have hframes := h.frames
 rw [Column.popScope]
 cases hscopes : c.scopes with
 | nil =>
  rw [hscopes] at hframes
  exact hframes.elim
 | cons frame rest =>
  rw [hscopes] at hframes
  obtain ⟨hundo, hholds, hrest⟩ := hframes
  exact ⟨_, rfl, hundo, h.joins, hundo ▸ hholds, hundo ▸ hrest, h.nodup⟩

theorem inv_of_run (h : Run strict how c wrote saved) : Inv strict how c wrote saved := by
 induction h with
 | new => exact ⟨rfl, ⟨fun _ => rfl, nofun⟩, trivial, fun _ _ => nodup_nil⟩
 | write _ key fact epoch hfresh ih => exact ih.write key fact epoch hfresh
 | detach _ key ih => exact ih.detach key
 | merge _ absorbed survivor epoch hfresh ih => exact ih.merge absorbed survivor epoch hfresh
 | pushScope _ ih => exact ⟨ih.joins, ih.holds, ⟨rfl, ih.holds, ih.frames⟩, ih.nodup⟩
 | popScope _ hpop ih =>
  obtain ⟨_, hpopped, -, hinv⟩ := ih.popScope
  obtain rfl := some_inj.1 (hpop.symm.trans hpopped)
  exact hinv

/-! ## Reads -/

omit [LinearOrder V] [Add V] in
theorem get_eq_some_iff {key : Nat} {value : V} : c.get key = some value ↔ c.entry key = some (.known value) := by
 rw [Column.get]
 split
 next v hv => simp [hv]
 next hother => exact ⟨nofun, fun h => absurd h (hother value)⟩

/-- Reads are the joins of what was written, a pop restores what was held at its push, and the index lists the keys of a value, each
once where the calls were fresh. -/
def Correct (strict : Prop) (how : Join) (c : Column V) (wrote : Ledger V) (saved : List (Saved V)) : Prop :=
 (∀ key, c.entry key = joined how (wrote key)) ∧
 (∀ key value, c.get key = some value ↔ joined how (wrote key) = some (.known value)) ∧
 (∀ before rest, saved = before :: rest → ∃ c', c.popScope = some c' ∧ c'.fact = before.2) ∧
 (∀ key value, key ∈ c.keysWith value ↔ c.get key = some value) ∧
 (strict → ∀ value, (c.keysWith value).Nodup)

theorem column_correct (h : Run strict how c wrote saved) : Correct strict how c wrote saved := by
 have hinv := inv_of_run h
 refine ⟨hinv.holds.1, fun key value => ?_, ?_, fun key value => ?_, fun hstrict value => (hinv.nodup hstrict value).filter _⟩
 · rw [get_eq_some_iff, ← hinv.holds.1 key]
   rfl
 · rintro before rest rfl
   obtain ⟨c', hpop, hfact, -⟩ := hinv.popScope
   exact ⟨c', hpop, hfact⟩
 · rw [Column.keysWith, mem_filter, decide_eq_true_iff]
   exact and_iff_right_of_imp fun hget => hinv.holds.2 key value (get_eq_some_iff.1 hget)

end Runs

theorem column_correct_raised :
  Correct True .agree ((new .agree : Column Nat).raise 1 5 0).2 (update (fun _ => []) 1 [Fact.known 5]) [] :=
 column_correct (Run.write .new 1 (.known 5) 0 fun _ _ _ _ => not_mem_nil)

/-- A key that is detached and raised to its value again is listed twice. -/
theorem keysWith_twice : ((((new .agree : Column Nat).raise 1 5 0).2.detach 1).2.raise 1 5 1).2.keysWith 5 = [1, 1] := by
 decide

end Tir.Relational.Lattice
