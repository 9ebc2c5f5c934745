import Mathlib.Data.List.Basic
import Mathlib.Tactic.Linarith

/-!
# Lexicographic orders of iterations

Loops that walk keys, outermost first, run their iterations in the lexicographic order of the keys
(`RunsBefore`), which the first difference of the keys decides (`runsBefore_iff`). Tiling a band of loops whose
differences do not fall keeps the order (`lexPositive_tiled`). `choices` lists every way to take one of each
list of options.
-/

open List Int

namespace Tir.Lexicographic

/-! ## Choices -/

section Choices

variable {α : Type}

/-- Every way to take one option of each list, the last list varying fastest. -/
def choices (options : List (List α)) : List (List α) :=
 options.foldl (fun all choice => all.flatMap fun front => choice.map fun a => front ++ [a]) [[]]

theorem mem_foldl_choices {options all : List (List α)} {l : List α} :
  l ∈ options.foldl (fun all choice => all.flatMap fun front => choice.map fun a => front ++ [a]) all ↔
   ∃ front ∈ all, ∃ rest, Forall₂ (· ∈ ·) rest options ∧ l = front ++ rest := by
 induction options generalizing all with
 | nil =>
  constructor
  · exact fun h => ⟨l, h, [], Forall₂.nil, (append_nil l).symm⟩
  · rintro ⟨front, hfront, rest, hrest, rfl⟩
    cases hrest
    rwa [append_nil]
 | cons choice options ih =>
  rw [foldl_cons, ih]
  constructor
  · rintro ⟨longer, hlonger, rest, hrest, rfl⟩
    obtain ⟨front, hfront, hin⟩ := mem_flatMap.1 hlonger
    obtain ⟨a, ha, rfl⟩ := mem_map.1 hin
    exact ⟨front, hfront, a :: rest, Forall₂.cons ha hrest, by rw [append_assoc]; rfl⟩
  · rintro ⟨front, hfront, rest, hrest, rfl⟩
    cases hrest with
    | cons ha hrest =>
     exact ⟨_, mem_flatMap.2 ⟨front, hfront, mem_map.2 ⟨_, ha, rfl⟩⟩, _, hrest, by rw [append_assoc]; rfl⟩

theorem mem_choices {options : List (List α)} {l : List α} : l ∈ choices options ↔ Forall₂ (· ∈ ·) l options := by
 rw [choices, mem_foldl_choices]
 simp

end Choices

/-! ## The first difference -/

/-- The first entry that is not zero is positive. -/
def lexPositive (vector : List Int) : Bool :=
 match vector.find? fun sign => sign ≠ 0 with
 | some sign => 0 < sign
 | none => false

@[simp] theorem lexPositive_nil : lexPositive [] = false :=
  rfl

theorem lexPositive_cons (sign : Int) (vector : List Int) :
  lexPositive (sign :: vector) = if sign = 0 then lexPositive vector else decide (0 < sign) := by
 rw [lexPositive, find?_cons]
 by_cases h : sign = 0
 · rw [if_pos h, decide_eq_false (not_not_intro h)]
   rfl
 · rw [if_neg h, decide_eq_true h]

theorem lexPositive_append_of_zero {front rest : List Int} (h : ∀ sign ∈ front, sign = 0) :
  lexPositive (front ++ rest) = lexPositive rest := by
 induction front with
 | nil => rfl
 | cons sign front ih =>
  rw [cons_append, lexPositive_cons, if_pos (h sign mem_cons_self),
   ih fun other hother => h other (.tail _ hother)]

/-- An entry in front that is not zero decides. -/
theorem lexPositive_append_of_ne_zero {front rest : List Int} (h : ∃ sign ∈ front, sign ≠ 0) :
  lexPositive (front ++ rest) = lexPositive front := by
 induction front with
 | nil =>
  obtain ⟨sign, hsign, -⟩ := h
  nomatch hsign
 | cons sign front ih =>
  rw [cons_append, lexPositive_cons, lexPositive_cons]
  split
  · rename_i hzero
    apply ih
    obtain ⟨other, hother, hne⟩ := h
    rcases mem_cons.1 hother with rfl | hmem
    · exact absurd hzero hne
    · exact ⟨other, hmem, hne⟩
  · rfl

/-- Entries that do not fall and are not all zero. -/
theorem lexPositive_of_nonneg {vector : List Int} (hnonneg : ∀ sign ∈ vector, 0 ≤ sign) (h : ∃ sign ∈ vector, sign ≠ 0) :
  lexPositive vector = true := by
 induction vector with
 | nil =>
  obtain ⟨sign, hsign, -⟩ := h
  nomatch hsign
 | cons sign vector ih =>
  rw [lexPositive_cons]
  split
  · rename_i hzero
    apply ih fun other hother => hnonneg other (.tail _ hother)
    obtain ⟨other, hother, hne⟩ := h
    rcases mem_cons.1 hother with rfl | hmem
    · exact absurd hzero hne
    · exact ⟨other, hmem, hne⟩
  · rename_i hne
    have hle := hnonneg sign (.head _)
    exact decide_eq_true (by omega)

theorem lexPositive_map_sign (vector : List Int) : lexPositive (vector.map Int.sign) = lexPositive vector := by
 induction vector with
 | nil => rfl
 | cons sign vector ih =>
  rw [map_cons, lexPositive_cons, lexPositive_cons, ih]
  by_cases h : sign = 0
  · rw [if_pos h, if_pos (sign_eq_zero_iff_zero.2 h)]
  · rw [if_neg h, if_neg (mt sign_eq_zero_iff_zero.1 h), decide_eq_decide, sign_pos_iff]

/-! ## Loop orders -/

section RunsBefore

variable {ι : Type}

/-- One iteration runs before another in loops that walk `keys`, the outermost first. -/
def RunsBefore : List (ι → Int) → ι → ι → Prop
 | [], _, _ => False
 | key :: keys, x, y => key x < key y ∨ key x = key y ∧ RunsBefore keys x y

instance decidableRunsBefore : (keys : List (ι → Int)) → (x y : ι) → Decidable (RunsBefore keys x y)
 | [], _, _ => inferInstanceAs (Decidable False)
 | key :: keys, x, y =>
  have := decidableRunsBefore keys x y
  inferInstanceAs (Decidable (key x < key y ∨ key x = key y ∧ RunsBefore keys x y))

/-- The first difference of the keys decides. -/
theorem runsBefore_iff {keys : List (ι → Int)} {x y : ι} :
  RunsBefore keys x y ↔ lexPositive (keys.map fun key => key y - key x) = true := by
 induction keys with
 | nil => simp [RunsBefore]
 | cons key keys ih =>
  rw [RunsBefore, map_cons, lexPositive_cons, ih]
  by_cases h : key y - key x = 0
  · rw [if_pos h]
    constructor
    · rintro (hless | ⟨-, hrest⟩)
      · omega
      · exact hrest
    · exact fun hrest => .inr ⟨by omega, hrest⟩
  · rw [if_neg h, decide_eq_true_iff]
    constructor
    · rintro (hless | ⟨heq, -⟩)
      · omega
      · omega
    · exact fun hless => .inl (by omega)

end RunsBefore

/-! ## Tiles -/

section Tiles

variable {ι : Type} {keys : List (ι → Int)} {x y : ι}

theorem ediv_sub_nonneg {a b tile : Int} (htile : 0 ≤ tile) (h : 0 ≤ b - a) : 0 ≤ b / tile - a / tile := by
 rcases htile.lt_or_eq with hpos | rfl
 · have hle := Int.ediv_le_ediv hpos (show a ≤ b by omega)
   omega
 · simp

/-- In one tile the positions differ as the iterations do. -/
theorem emod_sub_eq {a b tile : Int} (h : b / tile - a / tile = 0) : b % tile - a % tile = b - a := by
 have ha := mul_ediv_add_emod a tile
 have hb := mul_ediv_add_emod b tile
 have heq : b / tile = a / tile := by omega
 rw [heq] at hb
 omega

/-- Walking the tiles of a band first and then each tile keeps the order of iterations whose band does not
fall. -/
theorem lexPositive_tiled {band : List (Int × Int × Int)} {front rest : List Int}
  (htiles : ∀ entry ∈ band, 0 ≤ entry.1) (hband : ∀ entry ∈ band, 0 ≤ entry.2.2 - entry.2.1)
  (h : lexPositive (front ++ (band.map (fun entry => entry.2.2 - entry.2.1) ++ rest)) = true) :
  lexPositive (front ++ (band.map (fun entry => entry.2.2 / entry.1 - entry.2.1 / entry.1) ++
   (band.map (fun entry => entry.2.2 % entry.1 - entry.2.1 % entry.1) ++ rest))) = true := by
 by_cases hfront : ∃ sign ∈ front, sign ≠ 0
 · rw [lexPositive_append_of_ne_zero hfront] at h ⊢
   exact h
 · have hzero : ∀ sign ∈ front, sign = 0 := by
    intro sign hsign
    by_contra hne
    exact hfront ⟨sign, hsign, hne⟩
   rw [lexPositive_append_of_zero hzero] at h ⊢
   by_cases htile : ∃ sign ∈ band.map (fun entry => entry.2.2 / entry.1 - entry.2.1 / entry.1), sign ≠ 0
   · -- another tile: it comes later, since no tile of the band comes earlier
     rw [lexPositive_append_of_ne_zero htile]
     apply lexPositive_of_nonneg _ htile
     intro sign hsign
     obtain ⟨entry, hent, rfl⟩ := mem_map.1 hsign
     exact ediv_sub_nonneg (htiles entry hent) (hband entry hent)
   · have hsame : ∀ sign ∈ band.map (fun entry => entry.2.2 / entry.1 - entry.2.1 / entry.1), sign = 0 := by
      intro sign hsign
      by_contra hne
      exact htile ⟨sign, hsign, hne⟩
     have hinner : band.map (fun entry => entry.2.2 % entry.1 - entry.2.1 % entry.1) =
       band.map fun entry => entry.2.2 - entry.2.1 := by
      apply map_congr_left
      intro entry hent
      exact emod_sub_eq (hsame _ (mem_map.2 ⟨entry, hent, rfl⟩))
     rw [lexPositive_append_of_zero hsame, hinner]
     exact h

end Tiles

end Tir.Lexicographic
