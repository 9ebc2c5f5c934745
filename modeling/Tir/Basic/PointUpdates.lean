import Mathlib.Data.List.Basic

/-!
# Lists of point updates

`putAll` sets the points of a list one after another. A run of consecutive points given a list of values
holds the list from its first point on.
-/

open List Function Nat

namespace Tir

universe u v

/-- The second list is shared out between the halves of the first. -/
theorem zip_append_left {α : Type u} {β : Type v} (first second : List α) (values : List β) :
  (first ++ second).zip values =
   first.zip (values.take first.length) ++ second.zip (values.drop first.length) := by
 induction first generalizing values with
 | nil => rfl
 | cons x first ih =>
  cases values with
  | nil => rw [take_nil, drop_nil, zip_nil_right, zip_nil_right, zip_nil_right, append_nil]
  | cons value values =>
   rw [cons_append, zip_cons_cons, ih, length_cons, take_succ_cons, drop_succ_cons,
    zip_cons_cons, cons_append]

section PutAll

variable {α : Type u} {β : Type v} [DecidableEq α]

/-- Set each point of the list in turn. -/
def putAll (updates : List (α × β)) (f : α → β) : α → β :=
 updates.foldl (fun f update => Function.update f update.1 update.2) f

@[simp] theorem putAll_nil (f : α → β) : putAll [] f = f :=
  rfl

theorem putAll_cons (update : α × β) (updates : List (α × β)) (f : α → β) :
  putAll (update :: updates) f = putAll updates (Function.update f update.1 update.2) :=
 rfl

theorem putAll_append (first second : List (α × β)) (f : α → β) :
  putAll (first ++ second) f = putAll second (putAll first f) :=
 foldl_append

theorem putAll_of_forall_ne {updates : List (α × β)} {x : α} (h : ∀ update ∈ updates, x ≠ update.1) (f : α → β) :
  putAll updates f x = f x := by
 induction updates generalizing f with
 | nil => rfl
 | cons update updates ih =>
  rw [putAll_cons, ih fun other hin => h other (mem_cons_of_mem _ hin)]
  exact update_of_ne (h update (.head _)) _ _

/-- Consecutive points of an injective numbering get the values in order, as far as both last. -/
theorem putAll_range' {point : Nat → α} (hinjective : Injective point) (values : List β) (first count : Nat)
  (f : α → β) (i : Nat) : putAll (((List.range' first count).map point).zip values) f (point i) =
   if i < first then f (point i) else (values.take count).getD (i - first) (f (point i)) := by
 induction values generalizing first count f with
 | nil =>
  rw [zip_nil_right, take_nil, putAll_nil, getD_nil, ite_self]
 | cons value values ih =>
  cases count with
  | zero => rw [range'_zero, map_nil, zip_nil_left, take_zero, putAll_nil, getD_nil, ite_self]
  | succ count =>
   rw [range'_succ, map_cons, zip_cons_cons, putAll_cons, ih, take_succ_cons]
   rcases Nat.lt_trichotomy i first with hlt | rfl | hgt
   · have hne : point i ≠ point first := fun h => (Nat.ne_of_lt hlt) (hinjective h)
     rw [if_pos hlt, if_pos (lt_succ_of_lt hlt), update_of_ne hne]
   · rw [if_pos (lt_succ_self i), if_neg (Nat.lt_irrefl i), update_self, Nat.sub_self,
      getD_cons_zero]
   · have hne : point i ≠ point first := fun h => (Nat.ne_of_gt hgt) (hinjective h)
     have hsub : i - first = (i - (first + 1)) + 1 := by omega
     rw [if_neg (by omega), if_neg (Nat.lt_asymm hgt), update_of_ne hne, hsub, getD_cons_succ]

end PutAll

end Tir
