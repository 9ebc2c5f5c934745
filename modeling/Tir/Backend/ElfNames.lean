import Tir.Backend.Elf

/-!
# Names in a string table

A name interned stands at its offset, ended by a zero, and stays there while further names are interned, so
that it is what the parser finds at the offset (`internAll_spec`, `strAt_eq`).
-/

open List Option

namespace Tir.Backend.Elf

open Bytes

/-- A name is at an offset of a string table, ended by a zero. -/
def NameAt (data : List Byte) (offset : Nat) (name : Name) : Prop :=
 StandsAt data offset (name ++ [0])

variable {data : List Byte} {name : Name} {table : StrTab}

theorem strAt_eq {offset : Nat} (h : NameAt data offset name) (hzero : (0 : Byte) ∉ name) : strAt data offset = .ok name := by
 have hle := h.le
 rw [length_append, length_singleton] at hle
 obtain ⟨rest, hdrop⟩ := h.drop
 rw [strAt, if_pos (by omega), hdrop, append_assoc, takeWhile_append_of_pos]
 · simp
 · intro byte hbyte
   rw [decide_eq_true_iff]
   rintro rfl
   exact hzero hbyte

namespace StrTab

/-- The offsets of a table are those of its names. -/
def Sound (table : StrTab) : Prop :=
 ∀ name offset, table.offsets.lookup name = some offset → NameAt table.data offset.toNat name

theorem sound_new : new.Sound :=
 nofun

theorem intern_spec (hsound : table.Sound) (hlt : (table.intern name).1.data.length ≤ 2 ^ 32) :
  (table.intern name).1.Sound ∧ NameAt (table.intern name).1.data (table.intern name).2.toNat name := by
 rw [intern] at hlt ⊢
 cases hlookup : table.offsets.lookup name with
 | some offset => exact ⟨hsound, hsound name offset hlookup⟩
 | none =>
  rw [hlookup] at hlt
  rw [length_append, length_append, length_singleton] at hlt
  have hoff : (BitVec.ofNat 32 table.data.length).toNat = table.data.length := by
   rw [BitVec.toNat_ofNat, Nat.mod_eq_of_lt (by omega)]
  have hnew : NameAt (table.data ++ (name ++ [0])) (BitVec.ofNat 32 table.data.length).toNat name := by
   rw [hoff]
   exact standsAt_length _ _
  refine ⟨fun other offset hother => ?_, hnew⟩
  rw [lookup_cons] at hother
  split at hother
  · rename_i heq
    obtain rfl := eq_of_beq heq
    cases hother
    exact hnew
  · exact (hsound other offset hother).append _

theorem data_intern (table : StrTab) (name : Name) : ∃ more, (table.intern name).1.data = table.data ++ more := by
 rw [intern]
 cases table.offsets.lookup name with
 | some offset => exact ⟨[], (append_nil _).symm⟩
 | none => exact ⟨_, rfl⟩

theorem data_internAll (table : StrTab) (names : List Name) :
  ∃ more, (table.internAll names).1.data = table.data ++ more := by
 induction names generalizing table with
 | nil => exact ⟨[], (append_nil _).symm⟩
 | cons name names ih =>
  obtain ⟨more, hone⟩ := data_intern table name
  obtain ⟨rest, hrest⟩ := ih (table.intern name).1
  refine ⟨more ++ rest, ?_⟩
  rw [← append_assoc, ← hone]
  exact hrest

/-- Interning names one after the other: each stands at its offset in the end. -/
theorem internAll_spec {names : List Name} (hsound : table.Sound) (hlt : (table.internAll names).1.data.length ≤ 2 ^ 32) :
  (table.internAll names).1.Sound ∧ (table.internAll names).2.length = names.length ∧
   ∀ (k : Nat) (name : Name), names[k]? = some name → ∃ offset : BitVec 32, (table.internAll names).2[k]? = some offset ∧
    NameAt (table.internAll names).1.data offset.toNat name := by
 induction names generalizing table with
 | nil => exact ⟨hsound, rfl, nofun⟩
 | cons first names ih =>
  have hunfold : table.internAll (first :: names) = (((table.intern first).1.internAll names).1,
    (table.intern first).2 :: ((table.intern first).1.internAll names).2) := rfl
  rw [hunfold] at hlt ⊢
  obtain ⟨more, hmore⟩ := data_internAll (table.intern first).1 names
  have hless : (table.intern first).1.data.length ≤ 2 ^ 32 := by
   rw [hmore, length_append] at hlt
   omega
  obtain ⟨hsound', hfst⟩ := intern_spec hsound hless
  obtain ⟨hfinal, hlen, hnames⟩ := ih hsound' hlt
  refine ⟨hfinal, congrArg (· + 1) hlen, fun k name hk => ?_⟩
  cases k with
  | zero =>
   cases hk
   refine ⟨_, rfl, ?_⟩
   rw [hmore]
   exact hfst.append more
  | succ k => exact hnames k name hk

theorem nameAt_zero (names : List Name) : NameAt (new.internAll names).1.data 0 [] := by
 obtain ⟨more, hmore⟩ := data_internAll new names
 rw [hmore]
 exact standsAt_zero _ _

end StrTab

end Tir.Backend.Elf
