import Tir.RegAlloc.LiveDb

/-!
# What a search finds

A search finds exactly the assignments of ids and scalars that satisfy every atom of a rule
(`found_sound`, `found_complete`), for rules whose atoms bind each scalar once and read none before it is bound.
-/

open List Option Function Bool

namespace Tir.RegAlloc.Live

open Atom

/-! ## Assignments -/

section Assignments

variable (db : Db) (ids : Nat → Id) (numbers : Nat → Int)

def Expr.value : Expr → Int
 | scalar slot => numbers slot
 | lit value => value
 | add a value => a.value + value

/-- An assignment satisfies an atom. -/
def Atom.Holds : Atom → Prop
 | rows table vars tag within => ∃ row ∈ db.rows table, vars.map ids = row.key ++ [row.value] ∧
   (∀ slot, tag = some slot → numbers slot = row.tag) ∧
    ∀ lo hi, within = some (lo, hi) → lo.value numbers ≤ row.tag ∧ row.tag < hi.value numbers
 | lattice column key out => db.cell column (ids key) = some (numbers out)

/-- An assignment satisfies the body of a rule. -/
structure Rule.Matches (rule : Rule) : Prop where
 atoms : ∀ atom ∈ rule.atoms, atom.Holds db ids numbers
 distinct : ∀ pair ∈ rule.distinct, ids pair.1 ≠ ids pair.2
 nots : ∀ nested ∈ rule.nots, ∀ row ∈ db.rows nested.1, row.key ≠ nested.2.map ids

/-- The key of the head under an assignment. -/
def Rule.keyOf (rule : Rule) : List Id :=
 rule.plain.map (fun slot => .plain (numbers slot).toNat) ++
  if rule.sorted then sortPair (rule.args.map ids) else rule.args.map ids

end Assignments

/-! ## Scopes -/

/-- The variables and the scalars that are bound. -/
abbrev Scope := List Nat × List Nat

def Expr.bound (scope : Scope) : Expr → Bool
 | scalar slot => slot ∈ scope.2
 | lit _ => true
 | add a _ => a.bound scope

/-- What is bound after an atom. -/
def Atom.scope (scope : Scope) : Atom → Option Scope
 | rows _ vars tag within =>
  if within.all fun (lo, hi) => lo.bound scope && hi.bound scope then
   match tag with
   | none => some (vars ++ scope.1, scope.2)
   | some slot => if slot ∈ scope.2 then none else some (vars ++ scope.1, slot :: scope.2)
  else none
 | lattice _ key out => if key ∈ scope.1 ∧ out ∉ scope.2 then some (scope.1, out :: scope.2) else none

def scopeOf (scope : Scope) : List Atom → Option Scope
 | [] => some scope
 | atom :: atoms => (atom.scope scope).bind fun scope => scopeOf scope atoms

/-- A rule reads what its atoms bind. -/
def Rule.scoped (rule : Rule) : Bool :=
 match scopeOf ([], []) rule.atoms with
 | none => false
 | some scope => rule.args.all (· ∈ scope.1) && rule.plain.all (· ∈ scope.2) &&
   rule.raise.all (fun raise => raise.2.bound scope) &&
   rule.distinct.all (fun pair => pair.1 ∈ scope.1 && pair.2 ∈ scope.1) &&
   rule.nots.all fun nested => nested.2.all (· ∈ scope.1)

/-! ## Environments -/

namespace Env

/-- An environment binds what is in scope. -/
structure Binds (env : Env) (scope : Scope) : Prop where
 vars : ∀ x, (env.vars x).isSome = true ↔ x ∈ scope.1
 scalars : ∀ slot, (env.scalars slot).isSome = true ↔ slot ∈ scope.2

/-- What an environment binds is what an assignment has. -/
structure Agrees (env : Env) (ids : Nat → Id) (numbers : Nat → Int) : Prop where
 vars : ∀ x id, env.vars x = some id → ids x = id
 scalars : ∀ slot value, env.scalars slot = some value → numbers slot = value

/-- What an environment binds stays bound. -/
structure Extends (next env : Env) : Prop where
 vars : ∀ x id, env.vars x = some id → next.vars x = some id
 scalars : ∀ slot value, env.scalars slot = some value → next.scalars slot = some value

variable {env next : Env} {scope : Scope} {ids : Nat → Id} {numbers : Nat → Int}

theorem binds_empty : Env.empty.Binds ([], []) :=
 ⟨fun x => by simp [Env.empty], fun slot => by simp [Env.empty]⟩

theorem agrees_empty : Env.empty.Agrees ids numbers :=
 ⟨nofun, nofun⟩

/-- The assignment an environment is read as. -/
def idOf (env : Env) (x : Nat) : Id :=
 (env.vars x).getD (.plain 0)

def numberOf (env : Env) (slot : Nat) : Int :=
 (env.scalars slot).getD 0

theorem agrees_self (env : Env) : env.Agrees env.idOf env.numberOf :=
 ⟨fun x id h => by simp [Env.idOf, h], fun slot value h => by simp [Env.numberOf, h]⟩

variable {vars : List Nat} {slot : Nat}

/-- The order of a scope does not matter. -/
theorem Binds.congr (h : env.Binds scope) (hvars : ∀ x, x ∈ scope.1 ↔ x ∈ vars) : env.Binds (vars, scope.2) :=
 ⟨fun x => (h.vars x).trans (hvars x), h.scalars⟩

theorem Extends.refl : env.Extends env :=
 ⟨fun _ _ h => h, fun _ _ h => h⟩

theorem Extends.trans {last : Env} (h : last.Extends next) (h' : next.Extends env) : last.Extends env :=
 ⟨fun x id hx => h.vars x id (h'.vars x id hx), fun slot value hs => h.scalars slot value (h'.scalars slot value hs)⟩

theorem Agrees.of_extends (h : next.Agrees ids numbers) (hext : next.Extends env) : env.Agrees ids numbers :=
 ⟨fun x id hx => h.vars x id (hext.vars x id hx), fun slot value hs => h.scalars slot value (hext.scalars slot value hs)⟩

section

variable (h : env.Binds scope) (hagrees : env.Agrees ids numbers)

include h hagrees

theorem Binds.vars_eq {x : Nat} (hx : x ∈ scope.1) :
  env.vars x = some (ids x) := by
 obtain ⟨id, hid⟩ := isSome_iff_exists.1 ((h.vars x).2 hx)
 rw [hid, hagrees.vars x id hid]

theorem Binds.scalars_eq (hslot : slot ∈ scope.2) :
  env.scalars slot = some (numbers slot) := by
 obtain ⟨value, hval⟩ := isSome_iff_exists.1 ((h.scalars slot).2 hslot)
 rw [hval, hagrees.scalars slot value hval]

theorem Binds.eval_eq {expr : Expr} (hbound : expr.bound scope = true) :
  expr.eval env = some (expr.value numbers) := by
 induction expr with
 | scalar slot => exact h.scalars_eq hagrees (of_decide_eq_true hbound)
 | lit value => rfl
 | add a value ih => rw [Expr.eval, ih hbound, map_some, Expr.value]

/-- Variables in scope name the ids of the assignment. -/
theorem Binds.mapM_vars
  (hvars : ∀ x ∈ vars, x ∈ scope.1) : vars.mapM env.vars = some (vars.map ids) := by
 induction vars with
 | nil => rfl
 | cons x vars ih =>
  have hx := h.vars_eq hagrees (hvars x (.head _))
  grind

theorem Binds.mapM_scalars {slots : List Nat}
  (hslots : ∀ slot ∈ slots, slot ∈ scope.2) : slots.mapM env.scalars = some (slots.map numbers) := by
 induction slots with
 | nil => rfl
 | cons slot slots ih =>
  have hslot := h.scalars_eq hagrees (hslots slot (.head _))
  grind

end

/-! ## Binding variables -/

theorem bindVar_sound {var : Nat} {id : Id} (h : env.bindVar var id = some next) (hbinds : env.Binds scope) :
  next.Extends env ∧ next.vars var = some id ∧ next.Binds (var :: scope.1, scope.2) := by
 rw [bindVar] at h
 cases hvar : env.vars var with
 | none =>
  rw [hvar] at h
  cases h
  refine ⟨⟨fun x id' hx => ?_, fun _ _ hs => hs⟩, update_self .., fun x => ?_, hbinds.scalars⟩
  · grind
  · by_cases hx : x = var
    · subst hx
      simp
    · simpa [update_of_ne hx, hx] using hbinds.vars x
 | some bound =>
  rw [hvar] at h
  dsimp only at h
  split at h
  · rename_i hsame
    cases h
    refine ⟨.refl, hvar.trans (congrArg some hsame), fun x => ?_, hbinds.scalars⟩
    by_cases hx : x = var
    · subst hx
      simp [hvar]
    · simpa [hx] using hbinds.vars x
  · nomatch h

theorem bindVars_sound {found : List Id} (h : env.bindVars vars found = some next) (hbinds : env.Binds scope) :
  next.Extends env ∧ vars.map next.vars = found.map some ∧ next.Binds (vars ++ scope.1, scope.2) := by
 induction vars generalizing env found scope with
 | nil =>
  cases found with
  | nil =>
   cases h
   exact ⟨.refl, rfl, hbinds⟩
  | cons id found => nomatch h
 | cons var vars ih =>
  cases found with
  | nil => nomatch h
  | cons id found =>
   obtain ⟨middle, hmiddle, hrest⟩ := bind_eq_some_iff.1 h
   obtain ⟨hext, hvar, hbinds'⟩ := bindVar_sound hmiddle hbinds
   obtain ⟨hext', hmap, hbinds''⟩ := ih hrest hbinds'
   refine ⟨hext'.trans hext, ?_, hbinds''.congr fun x => ?_⟩
   · rw [map_cons, map_cons, hmap, hext'.vars var id hvar]
   grind

theorem bindVar_complete (var : Nat) (hagrees : env.Agrees ids numbers) :
  ∃ next, env.bindVar var (ids var) = some next ∧ next.Agrees ids numbers := by
 rw [bindVar]
 cases hvar : env.vars var with
 | none =>
  refine ⟨_, rfl, ⟨fun x id hx => ?_, hagrees.scalars⟩⟩
  by_cases hsame : x = var
  · subst hsame
    simpa using hx
  · exact hagrees.vars x id (by simpa [update_of_ne hsame] using hx)
 | some bound =>
  have hbound := hagrees.vars var bound hvar
  grind

theorem bindVars_complete (vars : List Nat) (hagrees : env.Agrees ids numbers) :
  ∃ next, env.bindVars vars (vars.map ids) = some next ∧ next.Agrees ids numbers := by
 induction vars generalizing env with
 | nil => exact ⟨env, rfl, hagrees⟩
 | cons var vars ih =>
  obtain ⟨middle, hmiddle, hagrees'⟩ := bindVar_complete var hagrees
  obtain ⟨next, hnext, hagrees''⟩ := ih hagrees'
  refine ⟨next, ?_, hagrees''⟩
  rw [map_cons, bindVars, hmiddle, bind_some, hnext]

theorem setScalar_sound (value : Int) (hbinds : env.Binds scope) (hslot : slot ∉ scope.2) :
  (env.setScalar slot value).Extends env ∧ (env.setScalar slot value).Binds (scope.1, slot :: scope.2) := by
 refine ⟨⟨fun _ _ hx => hx, fun other bound hs => ?_⟩, hbinds.vars, fun other => ?_⟩
 · have hne : other ≠ slot := by
    rintro rfl
    exact hslot ((hbinds.scalars other).1 (by rw [hs]; rfl))
   simpa [setScalar, update_of_ne hne] using hs
 · by_cases hsame : other = slot
   · subst hsame
     simp [setScalar]
   · simpa [setScalar, update_of_ne hsame, hsame] using hbinds.scalars other

theorem setScalar_agrees (hagrees : env.Agrees ids numbers) : (env.setScalar slot (numbers slot)).Agrees ids numbers := by
 refine ⟨hagrees.vars, fun other value hs => ?_⟩
 by_cases hsame : other = slot
 · subst hsame
   simpa [setScalar] using hs
 · exact hagrees.scalars other value (by simpa [setScalar, update_of_ne hsame] using hs)

theorem setScalar_self (slot : Nat) (value : Int) : (env.setScalar slot value).scalars slot = some value :=
 update_self ..

end Env

/-! ## Atoms -/

section Search

open Env

variable {db : Db} {env next : Env} {scope bound : Scope} {ids : Nat → Id} {numbers : Nat → Int}

variable {within : Option (Expr × Expr)} {atoms : List Atom}

theorem inside_iff {tag : Nat} (hbinds : env.Binds scope) (hagrees : env.Agrees ids numbers)
  (hwithin : within.all (fun (lo, hi) => lo.bound scope && hi.bound scope) = true) : inside env tag within = true ↔
   ∀ lo hi, within = some (lo, hi) → lo.value numbers ≤ (tag : Int) ∧ (tag : Int) < hi.value numbers := by
 match within with
 | none => exact ⟨nofun, fun _ => rfl⟩
 | some (lo, hi) =>
  simp only [all_some, and_eq_true] at hwithin
  simp only [inside, hbinds.eval_eq hagrees hwithin.1, hbinds.eval_eq hagrees hwithin.2, any_some, and_eq_true,
   decide_eq_true_eq, some.injEq, Prod.mk.injEq]
  exact ⟨by rintro h _ _ ⟨rfl, rfl⟩; exact h, fun h => h lo hi ⟨rfl, rfl⟩⟩

/-- The tag of a row is bound in a slot of its own. -/
theorem tagScope {vars : List Nat} {table : Table} {tag : Option Nat}
  (hscope : (Atom.rows table vars tag within).scope scope = some bound) :
  within.all (fun (lo, hi) => lo.bound scope && hi.bound scope) = true ∧
   (tag = none ∧ bound = (vars ++ scope.1, scope.2) ∨
    ∃ slot, tag = some slot ∧ slot ∉ scope.2 ∧ bound = (vars ++ scope.1, slot :: scope.2)) := by
 simp only [Atom.scope] at hscope
 split at hscope
 · grind
 · nomatch hscope

theorem Atom.extend_sound {atom : Atom} (h : next ∈ atom.extend db env) (hbinds : env.Binds scope)
  (hscope : atom.scope scope = some bound) :
  next.Extends env ∧ next.Binds bound ∧ ∀ ids numbers, next.Agrees ids numbers → atom.Holds db ids numbers := by
 cases atom with
 | rows table vars tag within =>
  obtain ⟨hwithin, htag⟩ := tagScope hscope
  obtain ⟨row, hrow, hmatch⟩ := mem_filterMap.1 h
  rw [matchRow] at hmatch
  split at hmatch
  · rename_i hinside
    obtain ⟨middle, hmiddle, hnext⟩ := map_eq_some_iff.1 hmatch
    obtain ⟨hext, hvars, hbinds'⟩ := bindVars_sound hmiddle hbinds
    -- the columns and the interval are read off the environment before the tag is bound
    have hcols : ∀ ids numbers, middle.Agrees ids numbers → vars.map ids = row.key ++ [row.value] := by
     intro ids numbers hagrees
     refine map_injective_iff.2 (some_injective Id) ?_
     rw [← hvars, List.map_map]
     exact map_congr_left fun x hx =>
      (hbinds'.vars_eq hagrees (mem_append_left _ hx)).symm
    rcases htag with ⟨rfl, rfl⟩ | ⟨slot, rfl, hslot, rfl⟩
    · obtain rfl : middle = next := hnext
      refine ⟨hext, hbinds', fun ids numbers hagrees => ⟨row, hrow, hcols ids numbers hagrees, by simp, ?_⟩⟩
      exact (inside_iff hbinds (hagrees.of_extends hext) hwithin).1 hinside
    · obtain rfl : middle.setScalar slot row.tag = next := hnext
      obtain ⟨hext', hbinds''⟩ := setScalar_sound row.tag hbinds' hslot
      refine ⟨hext'.trans hext, hbinds'', fun ids numbers hagrees =>
       ⟨row, hrow, hcols ids numbers (hagrees.of_extends hext'), ?_, ?_⟩⟩
      · rintro other ⟨⟩
        exact hagrees.scalars slot row.tag (setScalar_self slot row.tag)
      · exact (inside_iff hbinds ((hagrees.of_extends hext').of_extends hext) hwithin).1 hinside
  · cases hmatch
 | lattice column key out =>
  rw [Atom.scope] at hscope
  split at hscope
  · rename_i hkey
    cases hscope
    rw [extend] at h
    split at h
    · rename_i value hval
      obtain rfl := mem_singleton.1 h
      obtain ⟨hext, hbinds'⟩ := setScalar_sound value hbinds hkey.2
      refine ⟨hext, hbinds', fun ids numbers hagrees => ?_⟩
      rw [hbinds.vars_eq (hagrees.of_extends hext) hkey.1, bind_some] at hval
      rw [Atom.Holds, hval, hagrees.scalars out value (setScalar_self out value)]
    · cases h
  · cases hscope

theorem Atom.extend_complete {atom : Atom} (hagrees : env.Agrees ids numbers) (hbinds : env.Binds scope)
  (hscope : atom.scope scope = some bound) (h : atom.Holds db ids numbers) :
  ∃ next ∈ atom.extend db env, next.Agrees ids numbers := by
 cases atom with
 | rows table vars tag within =>
  obtain ⟨hwithin, -⟩ := tagScope hscope
  obtain ⟨row, hrow, hcols, htag, hinside⟩ := h
  obtain ⟨middle, hmiddle, hagrees'⟩ := bindVars_complete vars hagrees
  have hmatch := (inside_iff hbinds hagrees hwithin).2 hinside
  rw [hcols] at hmiddle
  cases tag with
  | none =>
   refine ⟨middle, mem_filterMap.2 ⟨row, hrow, ?_⟩, hagrees'⟩
   rw [matchRow, if_pos hmatch, hmiddle]
   rfl
  | some slot =>
   refine ⟨middle.setScalar slot row.tag, mem_filterMap.2 ⟨row, hrow, ?_⟩, ?_⟩
   · rw [matchRow, if_pos hmatch, hmiddle]
     rfl
   grind [setScalar_agrees]
 | lattice column key out =>
  rw [Atom.scope] at hscope
  split at hscope
  · rename_i hkey
    refine ⟨env.setScalar out (numbers out), ?_, setScalar_agrees hagrees⟩
    rw [Atom.Holds] at h
    rw [extend, hbinds.vars_eq hagrees hkey.1, bind_some, h]
    exact mem_singleton_self _
  · cases hscope

/-! ## Searches -/

theorem search_sound (h : next ∈ search db atoms env) (hbinds : env.Binds scope)
  (hscope : scopeOf scope atoms = some bound) : next.Extends env ∧ next.Binds bound ∧
   ∀ ids numbers, next.Agrees ids numbers → ∀ atom ∈ atoms, atom.Holds db ids numbers := by
 induction atoms generalizing env scope with
 | nil =>
  obtain rfl := mem_singleton.1 h
  cases hscope
  exact ⟨.refl, hbinds, nofun⟩
 | cons atom atoms ih =>
  obtain ⟨middle, hmiddle, hrest⟩ := mem_flatMap.1 h
  obtain ⟨scope', hscope', hscope''⟩ := bind_eq_some_iff.1 hscope
  obtain ⟨hext, hbinds', hatom⟩ := extend_sound hmiddle hbinds hscope'
  obtain ⟨hext', hbinds'', hatoms⟩ := ih hrest hbinds' hscope''
  refine ⟨hext'.trans hext, hbinds'', fun ids numbers hagrees => forall_mem_cons.2 ⟨?_, hatoms ids numbers hagrees⟩⟩
  exact hatom ids numbers (hagrees.of_extends hext')

theorem search_complete (hagrees : env.Agrees ids numbers) (hbinds : env.Binds scope)
  (hscope : scopeOf scope atoms = some bound) (h : ∀ atom ∈ atoms, atom.Holds db ids numbers) :
  ∃ next ∈ search db atoms env, next.Agrees ids numbers := by
 induction atoms generalizing env scope with
 | nil => exact ⟨env, mem_singleton_self env, hagrees⟩
 | cons atom atoms ih =>
  obtain ⟨scope', hscope', hscope''⟩ := bind_eq_some_iff.1 hscope
  obtain ⟨middle, hmiddle, hagrees'⟩ :=
   extend_complete hagrees hbinds hscope' (h atom (.head _))
  obtain ⟨-, hbinds', -⟩ := extend_sound hmiddle hbinds hscope'
  obtain ⟨next, hnext, hagrees''⟩ := ih hagrees' hbinds' hscope'' fun a ha => h a (mem_cons_of_mem atom ha)
  exact ⟨next, mem_flatMap.2 ⟨middle, hmiddle, hnext⟩, hagrees''⟩

end Search

/-! ## Heads -/

/-- What a match writes: the row, and the values its lattices are raised to. -/
structure Head where
 table : Table
 key : List Id
 raises : List (Lattice × Int)

/-- The head of a rule under an assignment. -/
def Rule.headOf (rule : Rule) (ids : Nat → Id) (numbers : Nat → Int) : Head :=
 ⟨rule.table, rule.keyOf ids numbers, rule.raise.map fun raise => (raise.1, raise.2.value numbers)⟩

/-- A rule of a set derives a head from a database. -/
def Derives (rules : List Rule) (db : Db) (head : Head) : Prop :=
 ∃ rule ∈ rules, ∃ ids numbers, rule.Matches db ids numbers ∧ head = rule.headOf ids numbers

namespace Db

def write (db : Db) (head : Head) : Db :=
 let (id, db) := db.keyed head.table head.key
 head.raises.foldl (fun db raise => db.raise raise.1 id raise.2) db

end Db

section Heads

open Env

variable {rule : Rule} {db : Db} {env : Env} {scope : Scope} {ids : Nat → Id} {numbers : Nat → Int}

/-- What a rule's atoms bind covers what the rest of it reads. -/
structure Rule.Reads (rule : Rule) (scope : Scope) : Prop where
 atoms : scopeOf ([], []) rule.atoms = some scope
 args : ∀ x ∈ rule.args, x ∈ scope.1
 plain : ∀ slot ∈ rule.plain, slot ∈ scope.2
 raise : ∀ raise ∈ rule.raise, raise.2.bound scope = true
 distinct : ∀ pair ∈ rule.distinct, pair.1 ∈ scope.1 ∧ pair.2 ∈ scope.1
 nots : ∀ nested ∈ rule.nots, ∀ x ∈ nested.2, x ∈ scope.1

theorem Rule.exists_reads (hscoped : rule.scoped = true) : ∃ scope, rule.Reads scope := by
 rw [Rule.scoped] at hscoped
 split at hscoped
 · nomatch hscoped
 · rename_i scope hscope
   simp only [and_eq_true, List.all_eq_true, decide_eq_true_eq] at hscoped
   obtain ⟨⟨⟨⟨hargs, hplain⟩, hraise⟩, hdist⟩, hnots⟩ := hscoped
   exact ⟨scope, hscope, hargs, hplain, hraise, hdist, hnots⟩

theorem raiseAll_eq {raises : List (Lattice × Expr)} (hbinds : env.Binds scope) (hagrees : env.Agrees ids numbers)
  (hbound : ∀ raise ∈ raises, raise.2.bound scope = true) (id : Id) : db.raiseAll env id raises =
   (raises.map fun raise => (raise.1, raise.2.value numbers)).foldl (fun db raise => db.raise raise.1 id raise.2) db := by
 induction raises generalizing db with
 | nil => rfl
 | cons raise raises ih =>
  rw [Db.raiseAll, hbinds.eval_eq hagrees (hbound raise mem_cons_self)]
  exact ih fun r hr => hbound r (mem_cons_of_mem raise hr)

namespace Rule.Reads

section

variable (h : rule.Reads scope) (hbinds : env.Binds scope) (hagrees : env.Agrees ids numbers)

include h hbinds hagrees

theorem key_eq :
  rule.key env = some (rule.keyOf ids numbers) := by
 simp only [Rule.key, hbinds.mapM_scalars hagrees h.plain, hbinds.mapM_vars hagrees h.args, bind_eq_bind,
  bind_some, List.map_map]
 rfl

/-- Applying a match writes the head of the assignment it is part of. -/
theorem apply_eq (next : Db) :
  next.apply rule env = next.write (rule.headOf ids numbers) := by
 rw [Db.apply, h.key_eq hbinds hagrees]
 exact raiseAll_eq hbinds hagrees h.raise _

/-- The head depends on what is bound alone. -/
theorem headOf_eq :
  rule.headOf env.idOf env.numberOf = rule.headOf ids numbers := by
 have hkey := (h.key_eq hbinds env.agrees_self).symm.trans (h.key_eq hbinds hagrees)
 have hraise : rule.raise.map (fun raise => (raise.1, raise.2.value env.numberOf)) =
   rule.raise.map fun raise => (raise.1, raise.2.value numbers) := by
  apply map_congr_left
  intro raise hmem
  have heval := (hbinds.eval_eq env.agrees_self (h.raise raise hmem)).symm.trans (hbinds.eval_eq hagrees (h.raise raise hmem))
  rw [some.inj heval]
 rw [Rule.headOf, Rule.headOf, some.inj hkey, hraise]

end

/-- The environments found are the parts of the assignments that satisfy the rule. -/
theorem found_sound (h : rule.Reads scope) (hfound : env ∈ rule.found db) :
  env.Binds scope ∧ rule.Matches db env.idOf env.numberOf := by
 rw [Rule.found, mem_filter] at hfound
 obtain ⟨-, hbinds, hatoms⟩ := search_sound hfound.1 binds_empty h.atoms
 simp only [and_eq_true, List.all_eq_true, absent, differ, decide_eq_true_eq] at hfound
 have hagrees := env.agrees_self
 refine ⟨hbinds, hatoms _ _ hagrees, fun pair hpair heq => ?_, fun nested hnested row hrow heq => ?_⟩
 · apply hfound.2.1 pair hpair
   rw [hbinds.vars_eq hagrees (h.distinct pair hpair).1, hbinds.vars_eq hagrees (h.distinct pair hpair).2, heq]
 · apply hfound.2.2 nested hnested row hrow
   rw [heq, List.map_map]
   exact map_congr_left fun x hx => (hbinds.vars_eq hagrees (h.nots nested hnested x hx)).symm

theorem found_complete (h : rule.Reads scope) (hmatches : rule.Matches db ids numbers) :
  ∃ env ∈ rule.found db, env.Binds scope ∧ env.Agrees ids numbers := by
 obtain ⟨env, henv, hagrees⟩ := search_complete agrees_empty binds_empty h.atoms hmatches.atoms
 obtain ⟨-, hbinds, -⟩ := search_sound henv binds_empty h.atoms
 refine ⟨env, mem_filter.2 ⟨henv, ?_⟩, hbinds, hagrees⟩
 simp only [and_eq_true, List.all_eq_true, absent, differ, decide_eq_true_eq]
 refine ⟨fun pair hpair heq => hmatches.distinct pair hpair ?_, fun nested hnested row hrow heq =>
  hmatches.nots nested hnested row hrow ?_⟩
 · rw [hbinds.vars_eq hagrees (h.distinct pair hpair).1, hbinds.vars_eq hagrees (h.distinct pair hpair).2] at heq
   exact some.inj heq
 · refine map_injective_iff.2 (some_injective Id) (heq.trans ?_)
   rw [List.map_map]
   exact map_congr_left fun x hx => hbinds.vars_eq hagrees (h.nots nested hnested x hx)

end Rule.Reads

/-- The heads of a round, in its order. -/
def roundHeads (rules : List Rule) (db : Db) : List Head :=
 rules.flatMap fun rule => (rule.found db).map fun env => rule.headOf env.idOf env.numberOf

variable {rules : List Rule}

/-- The heads of a round are exactly those its rules derive from the database before it. -/
theorem mem_roundHeads (hscoped : ∀ rule ∈ rules, rule.scoped = true) {head : Head} :
  head ∈ roundHeads rules db ↔ Derives rules db head := by
 simp only [roundHeads, mem_flatMap, List.mem_map, Derives]
 constructor
 · rintro ⟨rule, hrule, env, henv, rfl⟩
   obtain ⟨scope, hreads⟩ := rule.exists_reads (hscoped rule hrule)
   exact ⟨rule, hrule, env.idOf, env.numberOf, (hreads.found_sound henv).2, rfl⟩
 · rintro ⟨rule, hrule, ids, numbers, hmatches, rfl⟩
   obtain ⟨scope, hreads⟩ := rule.exists_reads (hscoped rule hrule)
   obtain ⟨env, henv, hbinds, hagrees⟩ := hreads.found_complete hmatches
   exact ⟨rule, hrule, env, henv, hreads.headOf_eq hbinds hagrees⟩

theorem Db.round_eq (hscoped : ∀ rule ∈ rules, rule.scoped = true) (db : Db) :
  db.round rules = (roundHeads rules db).foldl Db.write db := by
 rw [Db.round, roundHeads, foldl_flatMap]
 refine foldl_ext _ _ db fun next rule hrule => ?_
 obtain ⟨scope, hreads⟩ := rule.exists_reads (hscoped rule hrule)
 rw [foldl_map]
 exact foldl_ext _ _ next fun next env henv => hreads.apply_eq (hreads.found_sound henv).1 env.agrees_self next

end Heads

end Tir.RegAlloc.Live
