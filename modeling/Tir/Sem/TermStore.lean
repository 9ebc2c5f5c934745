import Mathlib.Data.List.Nodup
import Mathlib.Logic.Relation

/-!
# The store of type terms

`try_intern` looks a term up as it is spelled, and only where it misses leaves a default out. So a term that was interned with the
value spelled out before `set_default` keeps an id of its own (`spelled_keeps_id`), and where there is none the two spellings have
one id (`default_shares_id`). A row holds a constructor and arguments, whose cells differ for different arguments.
-/

open List Option Relation

namespace Tir.Sem.TermStore

/-! ## Terms -/

abbrev TypeId := Nat

abbrev CtorId := Nat

abbrev Name := Nat

inductive TypeArg where
 | nat (n : BitVec 64)
 | sym (name : Name)
 | type (id : TypeId)
 | var (index : Nat)
 | lam (arity : Nat) (body : TypeArg)
 | list (items : List TypeArg)

namespace TypeArg

mutual

def decEq : (a b : TypeArg) → Decidable (a = b)
 | .nat n, .nat m => decidable_of_iff (n = m) (by rw [nat.injEq])
 | .sym n, .sym m => decidable_of_iff (n = m) (by rw [sym.injEq])
 | .type n, .type m => decidable_of_iff (n = m) (by rw [type.injEq])
 | .var n, .var m => decidable_of_iff (n = m) (by rw [var.injEq])
 | .lam n a, .lam m b => @decidable_of_iff _ (n = m ∧ a = b) (by rw [lam.injEq]) (@instDecidableAnd _ _ _ (decEq a b))
 | .list a, .list b => @decidable_of_iff _ (a = b) (by rw [list.injEq]) (decEqAll a b)
 | .nat _, .sym _ | .nat _, .type _ | .nat _, .var _ | .nat _, .lam .. | .nat _, .list _
 | .sym _, .nat _ | .sym _, .type _ | .sym _, .var _ | .sym _, .lam .. | .sym _, .list _
 | .type _, .nat _ | .type _, .sym _ | .type _, .var _ | .type _, .lam .. | .type _, .list _
 | .var _, .nat _ | .var _, .sym _ | .var _, .type _ | .var _, .lam .. | .var _, .list _
 | .lam .., .nat _ | .lam .., .sym _ | .lam .., .type _ | .lam .., .var _ | .lam .., .list _
 | .list _, .nat _ | .list _, .sym _ | .list _, .type _ | .list _, .var _ | .list _, .lam .. => isFalse nofun

def decEqAll : (a b : List TypeArg) → Decidable (a = b)
 | [], [] => isTrue rfl
 | a :: as, b :: bs => @decidable_of_iff _ (a = b ∧ as = bs) (by rw [List.cons.injEq]) (@instDecidableAnd _ _ (decEq a b) (decEqAll as bs))
 | [], _ :: _ | _ :: _, [] => isFalse nofun
end

instance : DecidableEq TypeArg :=
 decEq

end TypeArg

inductive Kind where
 | data | ghost | nat | sym | bool
deriving DecidableEq

/-- The shape of one constructor parameter. -/
inductive Param where
 | one (kind : Kind)
 | opt (kind : Kind)
 | list (kind : Kind)
 | fields
 | any

structure TypeCtor where
 dialect : String
 name : String
 params : List (String × Param)
 kind : Kind

/-- The constructors that every store registers first. -/
def base : List TypeCtor :=
 [⟨"builtin", "i", [("width", .one .nat)], .data⟩, ⟨"builtin", "f", [("exponent", .one .nat), ("mantissa", .one .nat)], .data⟩,
   ⟨"builtin", "unit", [], .data⟩, ⟨"builtin", "tuple", [("elements", .list .data)], .data⟩,
   ⟨"builtin", "state", [("resource", .one .sym)], .ghost⟩, ⟨"nat", "add", [("terms", .list .nat)], .nat⟩,
   ⟨"sem", "raw", [("width", .one .nat)], .data⟩, ⟨"sem", "iter", [("element", .one .data)], .data⟩,
   ⟨"sem", "state", [], .ghost⟩, ⟨"type", "named", [("name", .one .sym), ("args", .any)], .data⟩]

def INT : CtorId := 0

def STATE : CtorId := 4

def NAT_ADD : CtorId := 5

def NAMED : CtorId := 9

def FIRST_INT : TypeId := 2

def FIXED_INT_WIDTHS : Nat := 128

inductive TypeError where
 | arity (ctor : TypeCtor) (got : Nat)
 | shape (ctor : TypeCtor) (param : String) (arg : TypeArg)
 | invalid (message : String)
 | defaulted (ctor : Option TypeCtor) (value : TypeArg)

/-- A store: its rows, the ids of each shard's keys, the constructors, their defaults, and the kinds of the names defined. -/
structure Terms where
 rows : List (CtorId × List TypeArg)
 lookup : CtorId → BitVec 32 → List TypeId
 ctors : List TypeCtor
 defaults : CtorId → Option TypeArg
 defined : Name → Option Kind

/-- The id of one of the integers every store interns up front. -/
def fixedInt (c : CtorId) (args : List TypeArg) : Option TypeId :=
 match args with
 | [.nat width] => if c = INT ∧ 1 ≤ width.toNat ∧ width.toNat ≤ FIXED_INT_WIDTHS then some (FIRST_INT + width.toNat - 1) else none
 | _ => none

namespace Terms

variable (t : Terms)

def ctorOf (id : TypeId) : Option CtorId :=
 (t.rows[id]?).map Prod.fst

/-! ## Normal forms -/

/-- The constant of a sum and its other terms; the sums in it are at most `fuel` deep. -/
def flattenSum : Nat → List TypeArg → Option (BitVec 64 × List TypeArg)
 | 0, _ => none
 | fuel + 1, items => items.foldlM (fun (constant, parts) item =>
   match item with
   | .nat n => some (constant + n, parts)
   | .type id => do
    if (← t.ctorOf id) = NAT_ADD then
     match t.rows[id]? with
     | some (_, [.list inner]) =>
      let (more, rest) ← flattenSum fuel inner
      some (constant + more, parts ++ rest)
     | _ => none
    else some (constant, parts ++ [item])
   | other => some (constant, parts ++ [other])) (0, [])

def sumOrder : TypeArg → Nat × Nat
 | .var index => (0, index)
 | .type id => (1, id)
 | _ => (2, 0)

def normalForm (c : CtorId) (args : List TypeArg) : Option (List TypeArg) :=
 if c ≠ NAT_ADD then some args
 else
  match args with
  | [.list items] => (t.flattenSum (t.rows.length + 1) items).map fun (constant, parts) =>
   let parts := parts.mergeSort fun a b =>
    (sumOrder a).1 < (sumOrder b).1 ∨ (sumOrder a).1 = (sumOrder b).1 ∧ (sumOrder a).2 ≤ (sumOrder b).2
   [.list (if constant ≠ 0 then parts ++ [.nat constant] else parts)]
  | _ => some args

/-! ## Checks -/

/-- A name with no definition yet is an incomplete data type. -/
def kind (id : TypeId) : Option Kind := do
 let (c, args) ← t.rows[id]?
 match c == NAMED, args with
 | true, .sym name :: _ => some ((t.defined name).getD .data)
 | _, _ => (t.ctors[c]?).map TypeCtor.kind

def fits : Kind → TypeArg → Option Bool
 | _, .var _ => some true
 | .nat, .nat _ => some true
 | .sym, .sym _ => some true
 | .bool, .nat flag => some (flag ≤ 1)
 | kind, .type id => (t.kind id).map (· == kind)
 | _, _ => some false

def takes : Param → TypeArg → Option Bool
 | .one kind, arg => t.fits kind arg
 | .opt kind, arg => t.fits kind arg
 | .list kind, .list items => items.allM (t.fits kind)
 | .fields, .list fields => fields.allM fun
  | .list [name, type] => do if ← t.fits .sym name then t.fits .data type else some false
  | _ => some false
 | .any, _ => some true
 | _, .var _ => some true
 | _, _ => some false

def Param.isOpt : Param → Bool
 | .opt _ => true
 | _ => false

end Terms

/-- What a constructor checks that its shapes do not, and the hash of a row's cells. -/
structure Env where
 validate : CtorId → Terms → List TypeArg → Except String Unit
 hashRow : List TypeArg → BitVec 32

namespace Terms

variable (env : Env) (t : Terms)

def check (c : CtorId) (args : List TypeArg) : Option (Except TypeError Unit) := do
 let info ← t.ctors[c]?
 let fixed := info.params.filter fun p => !Param.isOpt p.2
 if args.length ≠ info.params.length ∧ args.length ≠ fixed.length then some (.error (.arity info args.length))
 else
  match ← (info.params.zip args).findM? fun entry => (t.takes entry.1.2 entry.2).map (! ·) with
  | some ((param, _), arg) => some (.error (.shape info param arg))
  | none => some ((env.validate c t args).mapError .invalid)

/-! ## Interning -/

def key (c : CtorId) (args : List TypeArg) : BitVec 32 :=
 env.hashRow args ^^^ (BitVec.ofNat 32 c * 0x9e3779b9)

def SHARDS : Nat := 16

def found (c : CtorId) (args : List TypeArg) : Option TypeId :=
 (t.lookup (c % SHARDS) (key env c args)).find? fun id => decide (t.rows[id]? = some (c, args))

/-- Append a row under the next id. -/
def push (c : CtorId) (args : List TypeArg) : Terms :=
 { t with
   rows := t.rows ++ [(c, args)]
   lookup := fun shard k => t.lookup shard k ++ if shard = c % SHARDS ∧ k = key env c args then [t.rows.length] else [] }

def arity (c : CtorId) : Option Nat :=
 (t.ctors[c]?).map fun info => info.params.length

def withoutDefault (c : CtorId) (args : List TypeArg) : Option (List TypeArg) :=
 match args.getLast? with
 | none => none
 | some last => if t.arity c = some args.length ∧ t.defaults c = some last then some args.dropLast else none

variable {t}

theorem normalForm_length {c : CtorId} {args args' : List TypeArg} (h : t.normalForm c args = some args') :
  args'.length = args.length := by
 rw [normalForm.eq_def] at h
 split at h
 · exact congrArg length (some_inj.1 h).symm
 · split at h
   · obtain ⟨_, -, rfl⟩ := map_eq_some_iff.1 h
     rfl
   · exact congrArg length (some_inj.1 h).symm

theorem withoutDefault_length {c : CtorId} {args rest : List TypeArg} (h : t.withoutDefault c args = some rest) :
  rest.length + 1 = args.length ∧ t.arity c = some args.length := by
 rw [withoutDefault] at h
 split at h
 next => nomatch h
 next last hlast =>
  split at h
  next hfull =>
   obtain rfl := some_inj.1 h
   have hpos := length_pos_of_mem (mem_of_getLast? hlast)
   exact ⟨by rw [length_dropLast]; omega, hfull.1⟩
  next => nomatch h

variable (t)

/-- Check a term and intern it in normal form; `none` is a panic. -/
def tryIntern (c : CtorId) (args : List TypeArg) : Option (Except TypeError TypeId × Terms) :=
 match _hnormal : t.normalForm c args with
 | none => none
 | some args' =>
  match (fixedInt c args').or (t.found env c args') with
  | some id => some (.ok id, t)
  | none =>
   match _hdefault : t.withoutDefault c args' with
   | some rest => tryIntern c rest
   | none => (t.check env c args').map fun
    | Except.error e => (.error e, t)
    | Except.ok () => (.ok t.rows.length, t.push env c args')
termination_by args.length
decreasing_by
 rw [← normalForm_length _hnormal, ← (withoutDefault_length _hdefault).1]
 exact Nat.lt_succ_self _

/-- A default is set once. -/
def setDefault (c : CtorId) (value : TypeArg) : Except TypeError Unit × Terms :=
 match t.defaults c with
 | none => (.ok (), { t with defaults := fun d => if d = c then some value else t.defaults d })
 | some old => (if old = value then .ok () else .error (.defaulted t.ctors[c]? old), t)

def define (name : Name) (kind : Kind) : Terms :=
 { t with defined := fun n => if n = name then some kind else t.defined n }

/-- The states of `memory` and `fp.env` and the fixed integers come first; the lookup holds none of the integers. -/
def new (more : List TypeCtor) : Terms :=
 let empty : Terms := ⟨[], fun _ _ => [], base ++ more, fun _ => none, fun _ => none⟩
 let states := (empty.push env STATE [.sym 0]).push env STATE [.sym 1]
 { states with rows := states.rows ++ (List.range FIXED_INT_WIDTHS).map fun i => (INT, [.nat (BitVec.ofNat 64 (i + 1))]) }

/-! ## The invariant -/

/-- The arguments of a term with its default left out. -/
def omitted (c : CtorId) (args : List TypeArg) : List TypeArg :=
 (t.withoutDefault c args).getD args

/-- Rows are distinct and found, and none spells a default out. -/
structure Inv : Prop where
 nodup : t.rows.Nodup
 found : ∀ id c args, t.rows[id]? = some (c, args) →
  (∃ id', fixedInt c args = some id') ∨ id ∈ t.lookup (c % SHARDS) (key env c args)
 omits : ∀ c args, (c, args) ∈ t.rows → t.withoutDefault c args = none

/-- What a step keeps. -/
structure Extends (t t' : Terms) : Prop where
 rows : t.rows <+: t'.rows
 ctors : t'.ctors = t.ctors
 defaults : ∀ c v, t.defaults c = some v → t'.defaults c = some v

/-- The constructor has neither fixed ids nor a normal form of its own. -/
def Plain (c : CtorId) : Prop :=
 c ≠ INT ∧ c ≠ NAT_ADD

variable {env t} {t' : Terms} {c : CtorId} {args rest : List TypeArg}

theorem Extends.refl (t : Terms) : Extends t t :=
 ⟨prefix_rfl, rfl, fun _ _ h => h⟩

theorem Extends.trans {t'' : Terms} (h : Extends t t') (h' : Extends t' t'') : Extends t t'' :=
 ⟨h.rows.trans h'.rows, h'.ctors.trans h.ctors, fun c v hv => h'.defaults c v (h.defaults c v hv)⟩

theorem Extends.row (h : Extends t t') {id : TypeId} {row : CtorId × List TypeArg} (hrow : t.rows[id]? = some row) :
  t'.rows[id]? = some row := by
 obtain ⟨more, hmore⟩ := h.rows
 rw [← hmore, getElem?_append_left (List.getElem?_eq_some_iff.1 hrow).1, hrow]

theorem fixedInt_of_plain (h : Plain c) : fixedInt c args = none := by
 rw [fixedInt.eq_def]
 split
 · exact if_neg fun hint => h.1 hint.1
 · rfl

theorem normalForm_of_plain (h : Plain c) : t.normalForm c args = some args :=
 if_pos h.2

theorem row_of_found {id : TypeId} (h : t.found env c args = some id) : t.rows[id]? = some (c, args) :=
 of_decide_eq_true (find?_some (p := fun id => decide (t.rows[id]? = some (c, args))) h)

/-- A row that the lookup misses is new. -/
theorem not_mem_of_found (hinv : Inv env t) (hint : fixedInt c args = none) (h : t.found env c args = none) : (c, args) ∉ t.rows := by
 intro hmem
 obtain ⟨id, hid⟩ := mem_iff_getElem?.1 hmem
 obtain ⟨_, hfixed⟩ | hlookup := hinv.found id c args hid
 · rw [hint] at hfixed
   nomatch hfixed
 · exact absurd (decide_eq_true hid) (find?_eq_none.1 h id hlookup)

theorem inv_push (hinv : Inv env t) (hnew : (c, args) ∉ t.rows) (homits : t.withoutDefault c args = none) : Inv env (t.push env c args) where
 nodup := by
  rw [push, ← concat_eq_append]
  exact hinv.nodup.concat hnew
 found := by
  intro id d args' hid
  rcases Nat.lt_or_ge id t.rows.length with hlt | hge
  · rw [push, getElem?_append_left hlt] at hid
    exact (hinv.found id d args' hid).imp_right fun h => mem_append_left _ h
  · have hlast : id = t.rows.length := by
     have hlt := (List.getElem?_eq_some_iff.1 hid).1
     rw [push, length_append, length_singleton] at hlt
     exact Nat.le_antisymm (Nat.lt_succ_iff.1 hlt) hge
    rw [push, hlast, getElem?_concat_length] at hid
    cases some_inj.1 hid
    refine .inr (mem_append_right _ ?_)
    rw [if_pos ⟨rfl, rfl⟩, hlast]
    exact mem_singleton_self _
 omits := by
  intro d args' hmem
  rcases mem_append.1 hmem with hold | hnew
  · exact hinv.omits d args' hold
  · cases mem_singleton.1 hnew
    exact homits

theorem extends_push : Extends t (t.push env c args) :=
 ⟨prefix_append .., rfl, fun _ _ h => h⟩

theorem omitted_eq_self (h : t.withoutDefault c args = none) : t.omitted c args = args := by
 rw [omitted, h]
 rfl

theorem omitted_eq (hctors : t'.ctors = t.ctors) (hdefaults : t'.defaults c = t.defaults c) : t'.omitted c args = t.omitted c args := by
 simp only [omitted, withoutDefault, arity, hctors, hdefaults]
 split <;> rfl

/-- A term without its default has none to leave out. -/
theorem withoutDefault_rest (h : t.withoutDefault c args = some rest) : t.withoutDefault c rest = none := by
 obtain ⟨hlen, harity⟩ := withoutDefault_length h
 cases hrest : t.withoutDefault c rest with
 | none => rfl
 | some rest' =>
  have hsame := (withoutDefault_length hrest).2
  rw [harity] at hsame
  have heq := some_inj.1 hsame
  omega

/-- Interning keeps the invariant and what was interned, and gives a plain term the row without its default. -/
theorem tryIntern_spec (hinv : Inv env t) {r : Except TypeError TypeId} (h : t.tryIntern env c args = some (r, t')) :
  Inv env t' ∧ Extends t t' ∧ (Plain c → ∀ id, r = .ok id → t'.rows[id]? = some (c, t.omitted c args)) := by
 induction hn : args.length using Nat.strongRecOn generalizing args with
 | ind n ih =>
  rw [tryIntern] at h
  split at h
  next => nomatch h
  next args' hnormal =>
   have hplain : Plain c → args' = args := fun hp => by
    rw [normalForm_of_plain hp] at hnormal
    exact (some_inj.1 hnormal).symm
   split at h
   next id hid =>
    cases some_inj.1 h
    refine ⟨hinv, .refl t, fun hp id' hok => ?_⟩
    cases hok
    obtain rfl := hplain hp
    rw [fixedInt_of_plain hp, none_or] at hid
    have hrow := row_of_found hid
    rw [omitted_eq_self (hinv.omits c _ (mem_of_getElem? hrow)), hrow]
   next hmiss =>
    obtain ⟨hint, hfound⟩ := or_eq_none_iff.1 hmiss
    split at h
    next rest hdefault =>
     have hlen := (withoutDefault_length hdefault).1
     rw [normalForm_length hnormal] at hlen
     obtain ⟨hinv', hext, hrow⟩ := ih rest.length (by omega) h rfl
     refine ⟨hinv', hext, fun hp id hok => ?_⟩
     rw [hrow hp id hok, omitted_eq_self (withoutDefault_rest hdefault), omitted, ← hplain hp, hdefault, getD_some]
    next hdefault =>
     obtain ⟨checked, -, hres⟩ := map_eq_some_iff.1 h
     cases checked with
     | error e =>
      cases hres
      exact ⟨hinv, .refl t, nofun⟩
     | ok _ =>
      cases hres
      refine ⟨inv_push hinv (not_mem_of_found hinv hint hfound) hdefault, extends_push, fun hp id hok => ?_⟩
      cases hok
      rw [push, getElem?_concat_length, ← hplain hp, omitted_eq_self hdefault]

/-- Both spellings of a term take the same way. -/
theorem tryIntern_spelled (hinv : Inv env t) (hp : Plain c) (h : t.withoutDefault c args = some rest) :
  t.tryIntern env c args = t.tryIntern env c rest := by
 have hmiss : t.found env c args = none := by
  cases hfound : t.found env c args with
  | none => rfl
  | some id =>
   have homits := hinv.omits c args (mem_of_getElem? (row_of_found hfound))
   rw [h] at homits
   nomatch homits
 rw [tryIntern]
 split
 next hnormal =>
  rw [normalForm_of_plain hp] at hnormal
  nomatch hnormal
 next args' hnormal =>
  rw [normalForm_of_plain hp] at hnormal
  obtain rfl := some_inj.1 hnormal
  split
  next id hid =>
   rw [fixedInt_of_plain hp, hmiss] at hid
   nomatch hid
  next =>
   split
   next rest' hdefault =>
    rw [h] at hdefault
    obtain rfl := some_inj.1 hdefault
    rfl
   next hdefault =>
    rw [h] at hdefault
    nomatch hdefault

/-! ## Runs -/

/-- No term of the constructor spells the value out before its default is set. -/
def Fresh (t : Terms) (c : CtorId) (v : TypeArg) : Prop :=
 t.defaults c = none → ∀ args, (c, args) ∈ t.rows → t.arity c = some args.length → args.getLast? ≠ some v

/-- A call on the store. -/
inductive Step (env : Env) : Terms → Terms → Prop
 | intern {t t' : Terms} {c : CtorId} {args : List TypeArg} {r : Except TypeError TypeId} (h : t.tryIntern env c args = some (r, t')) :
  Step env t t'
 | setDefault {t : Terms} {c : CtorId} {v : TypeArg} (h : t.Fresh c v) : Step env t (t.setDefault c v).2
 | define {t : Terms} (name : Name) (kind : Kind) : Step env t (t.define name kind)

theorem setDefault_spec (hinv : Inv env t) {v : TypeArg} (hfresh : t.Fresh c v) :
  Inv env (t.setDefault c v).2 ∧ Extends t (t.setDefault c v).2 ∧
   ((t.setDefault c v).1 = .ok () → (t.setDefault c v).2.defaults c = some v) := by
 rw [setDefault]
 split
 next hnone =>
  refine ⟨⟨hinv.nodup, hinv.found, fun d args hmem => ?_⟩, ⟨prefix_rfl, rfl, fun d u hu => ?_⟩, fun _ => if_pos rfl⟩
  · have homits := hinv.omits d args hmem
    rw [withoutDefault.eq_def] at homits ⊢
    split
    next => rfl
    next last hlast =>
     rw [hlast] at homits
     rcases eq_or_ne d c with rfl | hne
     · refine if_neg fun hfull => hfresh hnone args hmem hfull.1 ?_
       rw [hlast, ← hfull.2]
       exact if_pos rfl
     · simp only [if_neg hne]
       exact homits
  · rcases eq_or_ne d c with rfl | hne
    · rw [hnone] at hu
      nomatch hu
    · exact (if_neg hne).trans hu
 next old hold =>
  refine ⟨hinv, .refl t, fun hok => ?_⟩
  by_cases heq : old = v
  · rw [hold, heq]
  · rw [if_neg heq] at hok
    nomatch hok

theorem Step.spec (h : Step env t t') (hinv : Inv env t) : Inv env t' ∧ Extends t t' := by
 cases h with
 | intern h =>
  obtain ⟨hinv', hext, -⟩ := tryIntern_spec hinv h
  exact ⟨hinv', hext⟩
 | setDefault h =>
  obtain ⟨hinv', hext, -⟩ := setDefault_spec hinv h
  exact ⟨hinv', hext⟩
 | define => exact ⟨⟨hinv.nodup, hinv.found, hinv.omits⟩, prefix_rfl, rfl, fun _ _ h => h⟩

theorem run_spec (h : ReflTransGen (Step env) t t') (hinv : Inv env t) : Inv env t' ∧ Extends t t' := by
 induction h with
 | refl => exact ⟨hinv, .refl t⟩
 | tail _ hstep ih =>
  obtain ⟨hinv', hext⟩ := hstep.spec ih.1
  exact ⟨hinv', ih.2.trans hext⟩

theorem fixedInt_width {i : Nat} (h : i < FIXED_INT_WIDTHS) :
  fixedInt INT [.nat (BitVec.ofNat 64 (i + 1))] = some (FIRST_INT + i) := by
 rw [FIXED_INT_WIDTHS] at h
 have hwid : (BitVec.ofNat 64 (i + 1)).toNat = i + 1 := by
  rw [BitVec.toNat_ofNat, Nat.mod_eq_of_lt (by omega)]
 simp only [fixedInt, hwid]
 exact if_pos ⟨trivial, Nat.succ_pos i, h⟩

theorem inv_new (more : List TypeCtor) : Inv env (new env more) where
 nodup := by
  refine nodup_append.2 ⟨by simp [push, STATE], nodup_range.map_on fun i hi j hj heq => ?_, ?_⟩
  · have hsame := congrArg (fun row => fixedInt INT row.2) heq
    rw [fixedInt_width (mem_range.1 hi), fixedInt_width (mem_range.1 hj)] at hsame
    exact Nat.add_left_cancel (some_inj.1 hsame)
  · rintro row hstate _ hint rfl
    obtain ⟨i, -, rfl⟩ := mem_map.1 hint
    simp [push, STATE, INT] at hstate
 found := by
  intro id c args hid
  match id with
  | 0 =>
   cases some_inj.1 hid
   exact .inr (by simp [new, push])
  | 1 =>
   cases some_inj.1 hid
   exact .inr (by simp [new, push])
  | id + 2 =>
   obtain ⟨i, hi, heq⟩ := mem_map.1 (mem_of_getElem? (show ((List.range FIXED_INT_WIDTHS).map fun i =>
    (INT, [TypeArg.nat (BitVec.ofNat 64 (i + 1))]))[id]? = some (c, args) from hid))
   cases heq
   exact .inl ⟨_, fixedInt_width (mem_range.1 hi)⟩
 omits := fun c args _ => by
  rw [withoutDefault.eq_def]
  split
  next => rfl
  next => exact if_neg fun h => nomatch h.2

/-- Only the last parameter can be optional, and the constructor's is. -/
def Optional (ctors : List TypeCtor) (c : CtorId) : Prop :=
 ∃ info name kind, ctors[c]? = some info ∧ info.params.getLast? = some (name, .opt kind)

theorem plain_of_optional {more : List TypeCtor} (h : Optional (base ++ more) c) : Plain c := by
 obtain ⟨info, name, kind, hinfo, hlast⟩ := h
 constructor
 · rintro rfl
   obtain rfl := some_inj.1 hinfo
   nomatch hlast
 · rintro rfl
   obtain rfl := some_inj.1 hinfo
   nomatch hlast

/-- The spellings of a term with and without a default are interned alike, terms that agree but for it are given one id, and their
rows are one. -/
def SharesId (env : Env) (t : Terms) (c : CtorId) (v : TypeArg) : Prop :=
 (∀ rest, t.arity c = some (rest.length + 1) → t.tryIntern env c (rest ++ [v]) = t.tryIntern env c rest) ∧
  (∀ args args' id id' t₁ t₂ t₃, t.tryIntern env c args = some (.ok id, t₁) → ReflTransGen (Step env) t₁ t₂ →
   t₂.tryIntern env c args' = some (.ok id', t₃) → t.omitted c args = t.omitted c args' → id = id') ∧
  ∀ (id id' : TypeId) (args args' : List TypeArg), t.rows[id]? = some (c, args) → t.rows[id']? = some (c, args') →
   t.omitted c args = t.omitted c args' → id = id'

/-- Once a default is set that no term spelled out, its terms share their ids. -/
theorem default_shares_id {more : List TypeCtor} {t₀ : Terms} {v : TypeArg} (hoptional : Optional (base ++ more) c)
  (hbefore : ReflTransGen (Step env) (new env more) t₀) (hfresh : t₀.Fresh c v) (hok : (t₀.setDefault c v).1 = .ok ())
  (hafter : ReflTransGen (Step env) (t₀.setDefault c v).2 t) :
  SharesId env t c v := by
 have hp := plain_of_optional hoptional
 obtain ⟨hinv0, -⟩ := run_spec hbefore (inv_new more)
 obtain ⟨hinv, -, hset⟩ := setDefault_spec hinv0 hfresh
 obtain ⟨hinv, hext⟩ := run_spec hafter hinv
 have hdefault := hext.defaults c v (hset hok)
 refine ⟨fun rest harity => tryIntern_spelled hinv hp ?_, ?_, ?_⟩
 · rw [withoutDefault, getLast?_concat, dropLast_concat, length_append, length_singleton]
   exact if_pos ⟨harity, hdefault⟩
 · intro args args' id id' t1 t2 t3 h hrun h' heq
   obtain ⟨hinv1, hext1, hrow⟩ := tryIntern_spec hinv h
   obtain ⟨hinv2, hext2⟩ := run_spec hrun hinv1
   obtain ⟨hinv3, hext3, hrow'⟩ := tryIntern_spec hinv2 h'
   have hkept := hext1.trans hext2
   have hsame : t2.omitted c args' = t.omitted c args' :=
    omitted_eq hkept.ctors ((hkept.defaults c v hdefault).trans hdefault.symm)
   have hid := hext3.row (hext2.row (hrow hp id rfl))
   have hid' := hrow' hp id' rfl
   rw [hsame, ← heq] at hid'
   exact (getElem?_inj (List.getElem?_eq_some_iff.1 hid).1 hinv3.nodup).1 (hid.trans hid'.symm)
 · intro id id' args args' hid hid' heq
   rw [omitted_eq_self (hinv.omits c _ (mem_of_getElem? hid)), omitted_eq_self (hinv.omits c _ (mem_of_getElem? hid'))] at heq
   subst heq
   exact (getElem?_inj (List.getElem?_eq_some_iff.1 hid).1 hinv.nodup).1 (hid.trans hid'.symm)

def flagged : TypeCtor :=
 ⟨"type", "p", [("width", .one .nat), ("flag", .opt .bool)], .data⟩

def accepting : Env :=
 ⟨fun _ _ _ => .ok (), fun _ => 0⟩

theorem default_shares_id_flag : SharesId accepting ((new accepting [flagged]).setDefault 10 (.nat 0)).2 10 (.nat 0) :=
 default_shares_id ⟨flagged, "flag", .bool, rfl, rfl⟩ .refl
  (fun _ args hmem => by simp [new, push, STATE, INT] at hmem) rfl .refl

/-- The default set between two spellings of one term leaves them two ids. -/
theorem spelled_keeps_id : (do
  let (before, t) ← (new accepting [flagged]).tryIntern accepting 10 [.nat 32, .nat 0]
  let (done, t) := t.setDefault 10 (.nat 0)
  let (spelled, t) ← t.tryIntern accepting 10 [.nat 32, .nat 0]
  let (omitted, _) ← t.tryIntern accepting 10 [.nat 32]
  some (before.toOption, done.toOption, spelled.toOption, omitted.toOption)) = some (some 130, some (), some 130, some 131) := by
 decide +kernel

end Terms

end Tir.Sem.TermStore
