import Mathlib.Data.List.Sort

/-!
# Stable sorting by a key

`List.mergeSort` by a key keeps the elements of one key in their order
(`filter_mergeSort_key`), so that a list sorted by a pair of keys has, at one value of the first
key, the elements of each second key one after the other (`filter_mergeSort_lex`).
-/

open List

namespace Tir

variable {α : Type}

/-- The order of a sort by two keys, the first one first. -/
def lexLe (key second : α → Nat) (a b : α) : Bool :=
 key a < key b || (key a == key b && second a ≤ second b)

theorem lexLe_iff {key second : α → Nat} {a b : α} :
  lexLe key second a b = true ↔ key a < key b ∨ (key a = key b ∧ second a ≤ second b) := by
 simp [lexLe]

theorem lexLe_trans (key second : α → Nat) (a b c : α) (hab : lexLe key second a b)
  (hbc : lexLe key second b c) : lexLe key second a c := by
 rw [lexLe_iff] at *
 omega

theorem lexLe_total (key second : α → Nat) (a b : α) :
  (lexLe key second a b || lexLe key second b a) = true := by
 rw [Bool.or_eq_true, lexLe_iff, lexLe_iff]
 omega

/-- The elements with one pair of keys stay as they were. -/
theorem filter_mergeSort_key (key second : α → Nat) (k m : Nat) (l : List α) :
  (l.mergeSort (lexLe key second)).filter (fun a => key a = k ∧ second a = m) =
   l.filter fun a => key a = k ∧ second a = m := by
 have hpair : (l.filter fun a => key a = k ∧ second a = m).Pairwise
   (fun a b => lexLe key second a b) := by
  refine pairwise_of_forall_mem_list fun a ha b hb => ?_
  have ha' : key a = k ∧ second a = m := by simpa using (mem_filter.1 ha).2
  have hb' : key b = k ∧ second b = m := by simpa using (mem_filter.1 hb).2
  rw [lexLe_iff]
  omega
 have hsub := sublist_mergeSort (lexLe_trans key second) (lexLe_total key second) hpair
  filter_sublist
 have hsub' := hsub.filter fun a => decide (key a = k ∧ second a = m)
 rw [filter_filter] at hsub'
 simp only [Bool.and_self] at hsub'
 refine (hsub'.eq_of_length ?_).symm
 exact (((mergeSort_perm l (lexLe key second)).filter _).length_eq).symm

section

variable {key : α → Nat} {l : List α} (h : l.Pairwise fun a b => key a ≤ key b)

include h

/-- A list sorted by a key is cut by a bound on the key. -/
theorem filter_lt_append_filter_le
  (m : Nat) : l = l.filter (fun a => key a < m) ++ l.filter fun a => m ≤ key a := by
 induction l with
 | nil => rfl
 | cons a l ih =>
  obtain ⟨ha, hl⟩ := pairwise_cons.1 h
  by_cases hm : key a < m
  · rw [filter_cons_of_pos (by simpa using hm), filter_cons_of_neg (by simpa using hm),
     cons_append, ← ih hl]
  · -- everything from here on has a key of at least the bound
    have hnone : l.filter (fun a => key a < m) = [] := by
     refine filter_eq_nil_iff.2 fun b hb => ?_
     have := ha b hb
     simp only [decide_eq_true_eq]
     omega
    have hall : l.filter (fun a => m ≤ key a) = l := by
     refine filter_eq_self.2 fun b hb => ?_
     have := ha b hb
     simp only [decide_eq_true_eq]
     omega
    rw [filter_cons_of_neg (by simpa using hm), hnone,
     filter_cons_of_pos (by simpa using hm), hall, nil_append]

/-- A list sorted by a key is the elements of each key, one key after the other. -/
theorem flatMap_filter_range {n : Nat} (hn : ∀ a ∈ l, key a < n) :
  (List.range n).flatMap (fun m => l.filter fun a => key a = m) = l := by
 induction n generalizing l with
 | zero =>
  cases l with
  | nil => rfl
  | cons a l => exact absurd (hn a (.head _)) (Nat.not_lt_zero _)
 | succ n ih =>
  have hcut := filter_lt_append_filter_le h n
  have hlow := ih (l := l.filter fun a => key a < n) (h.sublist filter_sublist)
   fun a ha => by simpa using (mem_filter.1 ha).2
  have hsame : ∀ m ∈ List.range n, (l.filter fun a => key a < n).filter (fun a => key a = m) =
    l.filter fun a => key a = m := by
   intro m hm
   rw [filter_filter]
   refine filter_congr fun a _ => ?_
   have hm' : m < n := mem_range.1 hm
   by_cases ha : key a = m <;> simp [ha, hm']
  have htop : l.filter (fun a => n ≤ key a) = l.filter fun a => key a = n := by
   refine filter_congr fun a ha => ?_
   have := hn a ha
   rw [decide_eq_decide]
   omega
  rw [range_succ, flatMap_append, flatMap_singleton, ← htop,
   ← flatMap_congr hsame, hlow]
  exact hcut.symm

end

/-- At one value of the first key, the elements of each second key one after the other, each in
the order they had. -/
theorem filter_mergeSort_lex (key second : α → Nat) (k : Nat) {n : Nat} {l : List α} (hn : ∀ a ∈ l, second a < n) :
  (l.mergeSort (lexLe key second)).filter (fun a => key a = k) =
   (List.range n).flatMap fun m => l.filter fun a => key a = k ∧ second a = m := by
 have hsorted := pairwise_mergeSort (lexLe_trans key second) (lexLe_total key second) l
 have hone : ((l.mergeSort (lexLe key second)).filter fun a => key a = k).Pairwise
   fun a b => second a ≤ second b := by
  refine (hsorted.sublist filter_sublist).imp_of_mem fun {a b} ha hb hab => ?_
  have ha' : key a = k := by simpa using (mem_filter.1 ha).2
  have hb' : key b = k := by simpa using (mem_filter.1 hb).2
  rw [lexLe_iff] at hab
  omega
 rw [← flatMap_filter_range hone fun a ha => hn a (mem_mergeSort.1 (mem_filter.1 ha).1)]
 refine flatMap_congr fun m _ => ?_
 rw [filter_filter, ← filter_mergeSort_key key second k m l]
 refine filter_congr fun a _ => ?_
 by_cases ha : key a = k <;> simp [ha]

end Tir
