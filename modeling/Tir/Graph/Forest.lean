import Mathlib.Logic.Relation

/-!
# Forests

A forest is an `up` that climbs: every node has at most one node above it, of a higher rank. Two neighbours
of a node are apart without it (`separates`), so a search that reaches a node from one neighbour has not
reached another before.
-/

open Option Relation

namespace Tir.Graph

universe u

variable {α : Type u} (up : α → Option α)

/-- Two nodes one of which is right above the other. -/
def Adjacent (a b : α) : Prop :=
 up a = some b ∨ up b = some a

/-- `above` is on the way up from `v`. -/
def Below (above v : α) : Prop :=
 ReflTransGen (fun a b => up a = some b) v above

def Climbs (rank : α → Nat) : Prop :=
 ∀ a b, up a = some b → rank a < rank b

variable {up} {rank : α → Nat} {a b m n g : α}

theorem Adjacent.symm (h : Adjacent up a b) : Adjacent up b a :=
 Or.symm h

theorem Below.rank_le (h : Climbs up rank) (hbelow : Below up m a) : rank a ≤ rank m := by
 induction hbelow with
 | refl => exact Nat.le_refl _
 | tail _ hstep ih => exact Nat.le_trans ih (Nat.le_of_lt (h _ _ hstep))

/-- A node below another is it, or the node above is below it too. -/
theorem below_cases (hbelow : Below up m a) : a = m ∨ ∃ b, up a = some b ∧ Below up m b := by
 induction hbelow using ReflTransGen.head_induction_on with
 | refl => exact .inl rfl
 | head hstep hrest _ => exact .inr ⟨_, hstep, hrest⟩

/-- Being below `m` is left only by the step up from it. -/
theorem Below.iff_of_adjacent (hup : up m = some n) (ha : a ≠ n) (hb : b ≠ n) (hadj : Adjacent up a b) :
  Below up m a ↔ Below up m b := by
 have hone : ∀ a b, b ≠ n → Adjacent up a b → Below up m a → Below up m b := by
  intro a b hb hadj hbelow
  rcases hadj with habove | hunder
  · rcases below_cases hbelow with rfl | ⟨c, hc, hrest⟩
    · exact absurd (some.inj (habove.symm.trans hup)) hb
    · rwa [← some.inj (hc.symm.trans habove)]
  · exact ReflTransGen.head hunder hbelow
 exact ⟨hone a b hb hadj, hone b a ha hadj.symm⟩

/-- A node below one right under `n` is not another neighbour of `n`. -/
theorem not_below_of_adjacent (h : Climbs up rank) (hup : up m = some n) (hadj : Adjacent up n g) (hne : g ≠ m) :
  ¬ Below up m g := by
 intro hbelow
 have hm := h m n hup
 rcases below_cases hbelow with heq | ⟨b, hb, hrest⟩
 · exact hne heq
 · rcases hadj with habove | hunder
   · -- `g` is above `n`, so above `m`
     have hlow := ReflTransGen.head hb hrest |> Below.rank_le h
     have hhigh := h n g habove
     omega
   · cases hb.symm.trans hunder
     have hlow := hrest.rank_le h
     omega

/-- Two neighbours of a node are apart without it. -/
theorem separates (h : Climbs up rank) (hg : Adjacent up n g) (hm : Adjacent up n m) (hne : g ≠ m) :
  ∃ side : α → Prop, (∀ a b, a ≠ n → b ≠ n → Adjacent up a b → (side a ↔ side b)) ∧ ¬ (side g ↔ side m) := by
 have hcut : ∀ m g, up m = some n → Adjacent up n g → g ≠ m →
   ∃ side : α → Prop, (∀ a b, a ≠ n → b ≠ n → Adjacent up a b → (side a ↔ side b)) ∧ side m ∧ ¬ side g :=
  fun m g hup hg hne => ⟨Below up m, fun a b ha hb hadj => Below.iff_of_adjacent hup ha hb hadj,
   ReflTransGen.refl, not_below_of_adjacent h hup hg hne⟩
 rcases hm with habove | hunder
 · rcases hg with habove' | hunder'
   · exact absurd (some.inj (habove'.symm.trans habove)) hne
   · obtain ⟨side, hsame, hin, hout⟩ := hcut g m hunder' (.inl habove) (Ne.symm hne)
     exact ⟨side, hsame, fun hboth => hout (hboth.1 hin)⟩
 · obtain ⟨side, hsame, hin, hout⟩ := hcut m g hunder hg hne
   exact ⟨side, hsame, fun hboth => hout (hboth.2 hin)⟩

/-! ## Running intersections -/

/-- The nodes that hold something are joined by steps between nodes that hold it. -/
def Joined (up : α → Option α) (among : α → Prop) : Prop :=
 ∀ a b, among a → among b → ReflTransGen (fun a b => Adjacent up a b ∧ among a ∧ among b) a b

/-- An ear: a node that, where it holds something another of the nodes holds too, has a node above it among
them that holds it. -/
theorem Joined.ear {among : α → Prop} (ear : α)
  (h : Joined up fun a => among a ∧ a ≠ ear) (hear : among ear → (∃ a, among a ∧ a ≠ ear) →
   ∃ above, up ear = some above ∧ among above ∧ above ≠ ear) : Joined up among := by
 have hrest : ∀ a b, among a → a ≠ ear → among b → b ≠ ear →
   ReflTransGen (fun a b => Adjacent up a b ∧ among a ∧ among b) a b := by
  intro a b ha hae hb hbe
  exact ReflTransGen.mono (fun _ _ hstep => ⟨hstep.1, hstep.2.1.1, hstep.2.2.1⟩) a b (h a b ⟨ha, hae⟩ ⟨hb, hbe⟩)
 intro a b ha hb
 by_cases hae : a = ear
 · subst hae
   by_cases hbe : b = a
   · subst hbe
     exact ReflTransGen.refl
   · obtain ⟨above, hup, habove, hne⟩ := hear ha ⟨b, hb, hbe⟩
     exact ReflTransGen.head ⟨.inl hup, ha, habove⟩ (hrest above b habove hne hb hbe)
 · by_cases hbe : b = ear
   · subst hbe
     obtain ⟨above, hup, habove, hne⟩ := hear hb ⟨a, ha, hae⟩
     exact ReflTransGen.tail (hrest a above ha hae habove hne) ⟨.inr hup, habove, hb⟩
   · exact hrest a b ha hae hb hbe

end Tir.Graph
