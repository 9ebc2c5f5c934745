import Tir.Simcore.MemoryBytes

/-!
# The ranges of mappings

Mappings that are not empty and lie apart give every address at most one backing byte
(`Mappings.Apart.unique`). Checks that look at one neighbour decide for whole ranges, and taking a range out of
mappings cuts them without moving a byte (`Mappings.Apart.replaceAll`).
-/

open List Option

namespace Tir.Simcore

/-! ## Entries -/

/-- An entry and the address it starts at. -/
abbrev Entry := Nat × Mapping

namespace Entry

def Covers (entry : Entry) (address : Nat) : Prop :=
 entry.1 ≤ address ∧ address < entry.2.stop

/-- The backing byte that an entry gives an address. -/
def cell (entry : Entry) (address : Nat) : Cell :=
 (entry.2.backing, entry.2.backingOffset + (address - entry.1))

end Entry

namespace Mappings

variable {mappings : Mappings} {entry other : Entry} {address : Nat}

/-- Mappings hold bytes, and lie apart. -/
structure Apart (mappings : Mappings) : Prop where
 nonempty : ∀ entry ∈ mappings.entries, entry.1 < entry.2.stop
 apart : ∀ entry ∈ mappings.entries, ∀ other ∈ mappings.entries, entry.1 < other.1 → entry.2.stop ≤ other.1

theorem eq_of_start (hent : entry ∈ mappings.entries) (hother : other ∈ mappings.entries) (h : entry.1 = other.1) : entry = other := by
 have hbef : mappings.entries.Pairwise fun a b : Entry => a.1 = b.1 → a = b :=
  mappings.ascending.imp fun hlt heq => absurd heq (ne_of_lt hlt)
 have hafter : mappings.entries.Pairwise (flip fun a b : Entry => a.1 = b.1 → a = b) :=
  mappings.ascending.imp fun hlt heq => absurd heq (ne_of_gt hlt)
 exact Pairwise.forall_of_forall_of_flip (fun _ _ _ => rfl) hbef hafter hent hother h

/-! ## The neighbour below -/

/-- The last entry of a selection that is closed downwards is the highest. -/
theorem getLast?_filter {p : Entry → Bool} : (mappings.entries.filter p).getLast? = some entry ↔
   entry ∈ mappings.entries ∧ p entry = true ∧ ∀ other ∈ mappings.entries, p other = true → other.1 ≤ entry.1 := by
 have hascending := mappings.ascending.filter p
 constructor
 · intro hlast
   obtain ⟨front, hfront⟩ := getLast?_eq_some_iff.1 hlast
   have hmem : entry ∈ mappings.entries.filter p := hfront ▸ mem_append_right _ (mem_singleton_self _)
   refine ⟨(mem_filter.1 hmem).1, (mem_filter.1 hmem).2, fun other hother hp => ?_⟩
   have hin : other ∈ mappings.entries.filter p := mem_filter.2 ⟨hother, hp⟩
   rw [hfront] at hin hascending
   rcases mem_append.1 hin with hbef | hsame
   · exact ((pairwise_append.1 hascending).2.2 other hbef entry (mem_singleton_self _)).le
   · rw [mem_singleton.1 hsame]
 · rintro ⟨hent, hp, hhighest⟩
   have hmem : entry ∈ mappings.entries.filter p := mem_filter.2 ⟨hent, hp⟩
   cases hlast : (mappings.entries.filter p).getLast? with
   | none =>
    grind
   | some last =>
    obtain ⟨front, hfront⟩ := getLast?_eq_some_iff.1 hlast
    have hin : last ∈ mappings.entries.filter p := hfront ▸ mem_append_right _ (mem_singleton_self _)
    rw [hfront] at hmem hascending
    rcases mem_append.1 hmem with hbef | hsame
    · grind
    · rw [mem_singleton.1 hsame]

/-- The neighbour at or below an address is the mapping of it, if any is. -/
theorem Apart.atOrBelow_eq (h : mappings.Apart) (hent : entry ∈ mappings.entries) (hcov : entry.Covers address) :
  mappings.atOrBelow address = some entry := by
 refine getLast?_filter.2 ⟨hent, decide_eq_true hcov.1, fun other hother hle => ?_⟩
 by_contra hgt
 have hstop := h.apart entry hent other hother (not_le.1 hgt)
 exact absurd (of_decide_eq_true hle) (not_le.2 (hcov.2.trans_le hstop))

theorem mem_of_atOrBelow (h : mappings.atOrBelow address = some entry) : entry ∈ mappings.entries ∧ entry.1 ≤ address := by
 obtain ⟨hent, hle, -⟩ := getLast?_filter.1 h
 exact ⟨hent, of_decide_eq_true hle⟩

/-- Some mapping covers an address. -/
def Mapped (mappings : Mappings) (address : Nat) : Prop :=
 ∃ entry ∈ mappings.entries, Entry.Covers entry address

theorem Apart.mapped_iff (h : mappings.Apart) :
  mappings.Mapped address ↔ ∃ entry, mappings.atOrBelow address = some entry ∧ address < entry.2.stop := by
 constructor
 · rintro ⟨entry, hent, hcov⟩
   exact ⟨entry, h.atOrBelow_eq hent hcov, hcov.2⟩
 · rintro ⟨entry, hent, hlt⟩
   obtain ⟨hmem, hle⟩ := mem_of_atOrBelow hent
   exact ⟨entry, hmem, hle, hlt⟩

/-- The overlap check looks at one neighbour, and decides for the range. -/
theorem Apart.overlaps_iff (h : mappings.Apart) {start stop : Nat} (hrng : start < stop) :
  mappings.overlaps start stop = true ↔ ∃ address, start ≤ address ∧ address < stop ∧ mappings.Mapped address := by
 have hreach : (∃ address, start ≤ address ∧ address < stop ∧ mappings.Mapped address) ↔
   ∃ entry ∈ mappings.entries, entry.1 < stop ∧ start < entry.2.stop := by
  constructor
  · rintro ⟨address, hle, hlt, entry, hent, hcov⟩
    exact ⟨entry, hent, hcov.1.trans_lt hlt, hle.trans_lt hcov.2⟩
  · rintro ⟨entry, hent, hlt, hreach⟩
    have hnonempty := h.nonempty entry hent
    exact ⟨max start entry.1, le_max_left .., Nat.max_lt.2 ⟨hrng, hlt⟩, entry, hent, le_max_right ..,
     Nat.max_lt.2 ⟨hreach, hnonempty⟩⟩
 rw [hreach, overlaps, below]
 cases hlast : (mappings.entries.filter fun entry => decide (entry.1 < stop)).getLast? with
 | none =>
  refine ⟨nofun, ?_⟩
  rintro ⟨entry, hent, hlt, -⟩
  grind
 | some last =>
  obtain ⟨hin, hlt, hhighest⟩ := getLast?_filter.1 hlast
  simp only [Bool.and_eq_true, decide_eq_true_eq]
  refine ⟨fun hreach => ⟨last, hin, hreach⟩, ?_⟩
  rintro ⟨entry, hent, hbelow, hstart⟩
  refine ⟨of_decide_eq_true hlt, ?_⟩
  -- the last entry below the end reaches at least as far as any other
  rcases lt_or_ge entry.1 last.1 with hbef | hafter
  · have hstop := h.apart entry hent last hin hbef
    have hnonempty := h.nonempty last hin
    omega
  grind [eq_of_start]

/-! ## Ranges -/

/-- The walk over a range goes from mapping to mapping. -/
theorem Apart.mappedRange_iff (h : mappings.Apart) (cursor stop : Nat) :
  mappings.mappedRange cursor stop = true ↔ ∀ address, cursor ≤ address → address < stop → mappings.Mapped address := by
 induction hn : stop - cursor using Nat.strong_induction_on generalizing cursor with
 | _ n ih =>
  rw [mappedRange]
  split
  · rename_i hlt
    split
    · rename_i hnone
      refine ⟨by rintro ⟨⟩, fun hall => ?_⟩
      obtain ⟨entry, hent, -⟩ := h.mapped_iff.1 (hall cursor le_rfl hlt)
      grind
    · rename_i start mapping hent
      split
      · rename_i hstop
        refine ⟨by rintro ⟨⟩, fun hall => ?_⟩
        obtain ⟨entry, hent', hreach⟩ := h.mapped_iff.1 (hall cursor le_rfl hlt)
        grind
      · rename_i hstop
        obtain ⟨hmem, hle⟩ := mem_of_atOrBelow hent
        rw [ih _ (by omega) _ rfl]
        constructor
        · intro hall address hge hless
          by_cases hhere : address < mapping.stop
          · exact ⟨(start, mapping), hmem, hle.trans hge, hhere⟩
          · exact hall address (by omega) hless
        grind
  grind

/-- A mapping covers an address, and allows an access. -/
def Allowed (mappings : Mappings) (permission : Permissions) (address : Nat) : Prop :=
 ∃ entry ∈ mappings.entries, Entry.Covers entry address ∧ entry.2.permissions.contains permission = true

/-- The backing byte of an address. -/
def cellAt (mappings : Mappings) (address : Nat) : Option Cell :=
 (mappings.atOrBelow address).bind fun entry => if address < entry.2.stop then some (Entry.cell entry address) else none

theorem Apart.cellAt_eq (h : mappings.Apart) (hent : entry ∈ mappings.entries) (hcov : entry.Covers address) :
  mappings.cellAt address = some (entry.cell address) := by
 rw [cellAt, h.atOrBelow_eq hent hcov, bind_some, if_pos hcov.2]

theorem Apart.cellAt_iff (h : mappings.Apart) {cell : Cell} :
  mappings.cellAt address = some cell ↔ ∃ entry ∈ mappings.entries, Entry.Covers entry address ∧ Entry.cell entry address = cell := by
 constructor
 · intro hcell
   obtain ⟨entry, hent, hcell⟩ := bind_eq_some_iff.1 hcell
   split at hcell
   · rename_i hlt
     obtain ⟨hmem, hle⟩ := mem_of_atOrBelow hent
     exact ⟨entry, hmem, ⟨hle, hlt⟩, some.inj hcell⟩
   · nomatch hcell
 · rintro ⟨entry, hent, hcov, rfl⟩
   exact h.cellAt_eq hent hcov

end Mappings

/-! ## Accesses -/

theorem exists_ok_cons (span : Span) (r : Except MemoryError (List Span)) : (∃ spans, (match r with
   | .error e => .error e
   | .ok spans => .ok (span :: spans) : Except MemoryError (List Span)) = .ok spans) ↔ ∃ spans, r = .ok spans := by
 cases r <;> simp

section

variable {mappings : Mappings} (h : mappings.Apart)

include h

/-- The backing bytes of a piece of a mapping. -/
theorem cells_of_entry {start : Nat} {mapping : Mapping}
  (hent : (start, mapping) ∈ mappings.entries) {cursor len : Nat} (hle : start ≤ cursor) (hfits : cursor + len ≤ mapping.stop) :
  (Span.cells ⟨mapping.backing, mapping.backingOffset + (cursor - start), len⟩).map some =
   (List.range' cursor len).map mappings.cellAt := by
 rw [Span.cells, range'_eq_map_range, @range'_eq_map_range cursor, List.map_map, List.map_map, List.map_map]
 refine map_congr_left fun i hi => ?_
 have hlt : i < len := mem_range.1 hi
 have hcov : Entry.Covers (start, mapping) (cursor + i) := ⟨by omega, by dsimp only; omega⟩
 have hoff : mapping.backingOffset + (cursor - start) + i = mapping.backingOffset + (cursor + i - start) := by omega
 simp [h.cellAt_eq hent hcov, Entry.cell, hoff]

/-- An access is resolved exactly when each byte of it is allowed. -/
theorem exists_resolveFrom (access : MemoryAccess) (permission : Permissions) (cursor stop : Nat) :
  (∃ spans, resolveFrom mappings access permission cursor stop = .ok spans) ↔
   ∀ address, cursor ≤ address → address < stop → mappings.Allowed permission address := by
 induction hn : stop - cursor using Nat.strong_induction_on generalizing cursor with
 | _ n ih =>
  rw [resolveFrom]
  split
  · rename_i hlt
    have hhere : ∀ {P : Prop}, (mappings.Allowed permission cursor → P) →
      (∀ address, cursor ≤ address → address < stop → mappings.Allowed permission address) → P :=
     fun hnext hall => hnext (hall cursor le_rfl hlt)
    split
    · rename_i hnone
      refine ⟨by rintro ⟨_, ⟨⟩⟩, hhere ?_⟩
      rintro ⟨entry, hent, hcov, -⟩
      rw [h.atOrBelow_eq hent hcov] at hnone
      cases hnone
    · rename_i start mapping hent
      obtain ⟨hmem, hle⟩ := Mappings.mem_of_atOrBelow hent
      have hsame : ∀ {entry : Entry}, entry ∈ mappings.entries → entry.Covers cursor → (start, mapping) = entry :=
       fun hent' hcov => some.inj (hent.symm.trans (h.atOrBelow_eq hent' hcov))
      split
      · rename_i hstop
        refine ⟨by rintro ⟨_, ⟨⟩⟩, hhere ?_⟩
        rintro ⟨entry, hent', hcov, -⟩
        obtain rfl := hsame hent' hcov
        exact absurd hcov.2 (not_lt.2 hstop)
      · split
        · rename_i hdenied
          refine ⟨by rintro ⟨_, ⟨⟩⟩, hhere ?_⟩
          rintro ⟨entry, hent', hcov, hcont⟩
          grind
        · rename_i hstop hcont
          have hcont : mapping.permissions.contains permission = true := by simpa using hcont
          have hrest := ih (stop - min mapping.stop stop) (by omega) (min mapping.stop stop) rfl
          refine ((exists_ok_cons ..).trans hrest).trans ⟨fun hall address hge hless => ?_, fun hall address hge hless => hall address (by omega) hless⟩
          by_cases hin : address < mapping.stop
          · exact ⟨(start, mapping), hmem, ⟨hle.trans hge, hin⟩, hcont⟩
          · exact hall address (by omega) hless
  grind

/-- The spans of an access are the backing bytes of its addresses in order. -/
theorem cells_resolveFrom {access : MemoryAccess} {permission : Permissions} {cursor stop : Nat}
  {spans : List Span} (hspans : resolveFrom mappings access permission cursor stop = .ok spans) :
  (spans.flatMap Span.cells).map some = (List.range' cursor (stop - cursor)).map mappings.cellAt ∧
   ∀ span ∈ spans, ∃ entry ∈ mappings.entries, entry.2.backing = span.backing := by
 induction hn : stop - cursor using Nat.strong_induction_on generalizing cursor spans with
 | _ n ih =>
  rw [resolveFrom] at hspans
  split at hspans
  · rename_i hlt
    split at hspans
    · cases hspans
    · rename_i start mapping hent
      obtain ⟨hmem, hle⟩ := Mappings.mem_of_atOrBelow hent
      split at hspans
      · cases hspans
      · rename_i hstop
        split at hspans
        · cases hspans
        · dsimp only at hspans
          split at hspans
          · cases hspans
          · rename_i rest hrest
            cases hspans
            have hsplit : List.range' cursor n = List.range' cursor (min mapping.stop stop - cursor) ++
              List.range' (min mapping.stop stop) (stop - min mapping.stop stop) := by
             have hmiddle : min mapping.stop stop = cursor + (min mapping.stop stop - cursor) := by omega
             grind
            grind [cells_of_entry]
  · cases hspans
    have hzero : n = 0 := by omega
    grind

end

/-! ## Cutting ranges out -/

namespace Mappings

section Cut

variable {mappings : Mappings} {entry other piece : Entry} {address : Nat}

theorem mem_remove {start : Nat} : entry ∈ (mappings.remove start).entries ↔ entry ∈ mappings.entries ∧ entry.1 ≠ start := by
 rw [remove, mem_filter, decide_eq_true_eq]

theorem mem_insert {start : Nat} {mapping : Mapping} :
  entry ∈ (mappings.insert start mapping).entries ↔ entry = (start, mapping) ∨ entry ∈ mappings.entries ∧ entry.1 ≠ start := by
 simp only [insert, below, mem_append, mem_cons, mem_filter, decide_eq_true_eq]
 constructor
 · rintro (⟨hent, hlt⟩ | rfl | ⟨hent, hgt⟩)
   · exact .inr ⟨hent, ne_of_lt hlt⟩
   · exact .inl rfl
   · exact .inr ⟨hent, ne_of_gt hgt⟩
 grind

def insertAll (pieces : List Entry) (mappings : Mappings) : Mappings :=
 pieces.foldl (fun mappings piece => mappings.insert piece.1 piece.2) mappings

theorem mem_insertAll {pieces : List Entry} (hkeys : pieces.Pairwise fun a b => a.1 ≠ b.1) :
  entry ∈ (insertAll pieces mappings).entries ↔ entry ∈ pieces ∨ entry ∈ mappings.entries ∧ ∀ piece ∈ pieces, entry.1 ≠ piece.1 := by
 induction pieces generalizing mappings with
 | nil => simp [insertAll]
 | cons piece pieces ih =>
  obtain ⟨hpiece, hpieces⟩ := pairwise_cons.1 hkeys
  have hrest := @ih (mappings.insert piece.1 piece.2) hpieces
  rw [insertAll, foldl_cons]
  refine hrest.trans ?_
  rw [mem_insert, mem_cons, forall_mem_cons]
  constructor
  · rintro (hmem | ⟨rfl | ⟨hent, hne⟩, hothers⟩)
    · exact .inl (.inr hmem)
    · exact .inl (.inl rfl)
    · exact .inr ⟨hent, hne, hothers⟩
  grind

/-- What is left of an entry that a range is taken out of: before it, in it and after it. -/
def pieces (start stop generation : Nat) (permissions : Option Permissions) (entry : Entry) : List Entry :=
 (if entry.1 < start then [(entry.1, { entry.2 with stop := start })] else []) ++
  (match permissions with
   | some newPermissions => [(max entry.1 start,
     { entry.2 with
       stop := min entry.2.stop stop
       backingOffset := entry.2.backingOffset + (max entry.1 start - entry.1)
       permissions := newPermissions
       generation := generation })]
   | none => []) ++
  if stop < entry.2.stop then [(stop, { entry.2 with backingOffset := entry.2.backingOffset + (stop - entry.1) })] else []

theorem replaceOne_eq (start stop generation : Nat) (permissions : Option Permissions) (mappings : Mappings) (entry : Entry) :
  replaceOne start stop generation permissions mappings entry =
   insertAll (pieces start stop generation permissions entry) (mappings.remove entry.1) := by
 unfold replaceOne pieces insertAll
 grind

structure Reaches (start stop : Nat) (entry : Entry) : Prop where
 range : start < stop
 nonempty : entry.1 < entry.2.stop
 starts : entry.1 < stop
 stops : start < entry.2.stop

variable {start stop generation : Nat} {permissions : Option Permissions}

theorem mem_pieces : piece ∈ pieces start stop generation permissions entry ↔
  (entry.1 < start ∧ piece = (entry.1, { entry.2 with stop := start })) ∨
   (∃ newPermissions, permissions = some newPermissions ∧ piece = (max entry.1 start,
     { entry.2 with
       stop := min entry.2.stop stop
       backingOffset := entry.2.backingOffset + (max entry.1 start - entry.1)
       permissions := newPermissions
       generation := generation })) ∨
    stop < entry.2.stop ∧ piece = (stop, { entry.2 with backingOffset := entry.2.backingOffset + (stop - entry.1) }) := by
 unfold pieces
 by_cases hbef : entry.1 < start <;> by_cases hafter : stop < entry.2.stop <;> cases permissions <;>
  simp [hbef, hafter]

section

variable (h : Reaches start stop entry)

include h

theorem Reaches.piece_within (hpiece : piece ∈ pieces start stop generation permissions entry) :
  entry.1 ≤ piece.1 ∧ piece.1 < piece.2.stop ∧ piece.2.stop ≤ entry.2.stop := by
 obtain ⟨hrng, hnonempty, hstarts, hstops⟩ := h
 rcases mem_pieces.1 hpiece with ⟨hbef, rfl⟩ | ⟨newPermissions, -, rfl⟩ | ⟨hafter, rfl⟩ <;> dsimp only <;> omega

/-- A piece names the backing bytes its entry does. -/
theorem Reaches.piece_inside (hpiece : piece ∈ pieces start stop generation permissions entry) :
  piece.2.backing = entry.2.backing ∧
   piece.2.backingOffset + (piece.2.stop - piece.1) ≤ entry.2.backingOffset + (entry.2.stop - entry.1) := by
 obtain ⟨hrng, hnonempty, hstarts, hstops⟩ := h
 rcases mem_pieces.1 hpiece with ⟨hbef, rfl⟩ | ⟨newPermissions, -, rfl⟩ | ⟨hafter, rfl⟩ <;> refine ⟨rfl, ?_⟩ <;> dsimp only <;> omega

theorem Reaches.pieces_apart : (pieces start stop generation permissions entry).Pairwise fun a b => a.2.stop ≤ b.1 := by
 obtain ⟨hrng, hnonempty, hstarts, hstops⟩ := h
 unfold pieces
 by_cases hbef : entry.1 < start <;> by_cases hafter : stop < entry.2.stop <;> cases permissions <;>
  grind

/-- The byte a piece gives an address is the one its entry gives, with the permissions of its part. -/
theorem Reaches.piece_cell (hpiece : piece ∈ pieces start stop generation permissions entry)
  (hcov : piece.Covers address) : entry.Covers address ∧ piece.cell address = entry.cell address ∧
   (start ≤ address ∧ address < stop → permissions = some piece.2.permissions) ∧
    (address < start ∨ stop ≤ address → piece.2.permissions = entry.2.permissions) := by
 obtain ⟨hrng, hnonempty, hstarts, hstops⟩ := h
 obtain ⟨hle, hlt⟩ := hcov
 unfold Entry.Covers Entry.cell
 rcases mem_pieces.1 hpiece with ⟨hbef, rfl⟩ | ⟨newPermissions, rfl, rfl⟩ | ⟨hafter, rfl⟩ <;> dsimp only at hle hlt ⊢
 · exact ⟨⟨hle, by omega⟩, rfl, fun hin => absurd hlt (by omega), fun _ => rfl⟩
 · exact ⟨⟨by omega, by omega⟩, Prod.ext rfl (by dsimp only; omega), fun _ => rfl, fun hout => absurd hout (by omega)⟩
 · exact ⟨⟨by omega, hlt⟩, Prod.ext rfl (by dsimp only; omega), fun hin => absurd hle (by omega), fun _ => rfl⟩

omit h in
/-- No address outside of the range is lost, nor inside of it where the permissions are changed. -/
theorem exists_piece (generation : Nat) {permissions : Option Permissions} (hcov : entry.Covers address)
  (hkept : permissions ≠ none ∨ address < start ∨ stop ≤ address) :
  ∃ piece ∈ pieces start stop generation permissions entry, Entry.Covers piece address := by
 obtain ⟨hle, hlt⟩ := hcov
 rcases lt_or_ge address start with hbef | hge
 · exact ⟨_, mem_pieces.2 (.inl ⟨by omega, rfl⟩), hle, hbef⟩
 · rcases lt_or_ge address stop with hin | hafter
   · obtain ⟨newPermissions, hperms⟩ := ne_none_iff_exists'.1 (hkept.resolve_right (by omega))
     refine ⟨_, mem_pieces.2 (.inr (.inl ⟨newPermissions, hperms, rfl⟩)), ?_⟩
     constructor <;> dsimp only <;> omega
   · exact ⟨_, mem_pieces.2 (.inr (.inr ⟨by omega, rfl⟩)), hafter, hlt⟩

end

/-! ### One entry -/

section

variable (h : mappings.Apart) (hent : entry ∈ mappings.entries)

include h hent

/-- Entries lie on either side of another. -/
theorem Apart.beside (hother : other ∈ mappings.entries) (hne : other ≠ entry) :
  other.2.stop ≤ entry.1 ∨ entry.2.stop ≤ other.1 := by
 rcases lt_trichotomy other.1 entry.1 with hlt | heq | hgt
 · exact .inl (h.apart other hother entry hent hlt)
 · exact absurd (eq_of_start hother hent heq) hne
 · exact .inr (h.apart entry hent other hother hgt)

theorem Apart.mem_replaceOne (hreaches : Reaches start stop entry) :
  other ∈ (replaceOne start stop generation permissions mappings entry).entries ↔
   (other ∈ mappings.entries ∧ other ≠ entry) ∨ other ∈ pieces start stop generation permissions entry := by
 have hkeys : (pieces start stop generation permissions entry).Pairwise fun a b => a.1 ≠ b.1 := by
  refine Pairwise.imp_of_mem (fun {a b} ha _ hstop => ?_) hreaches.pieces_apart
  have hwithin := hreaches.piece_within ha
  omega
 rw [replaceOne_eq, mem_insertAll hkeys, mem_remove, or_comm]
 refine or_congr_left ?_
 constructor
 · grind
 · rintro ⟨hother, hne⟩
   have hnonempty := h.nonempty other hother
   have hbeside := h.beside hent hother hne
   refine ⟨⟨hother, fun heq => hne (eq_of_start hother hent heq)⟩, fun piece hpiece => ?_⟩
   have hwithin := hreaches.piece_within hpiece
   omega

theorem Apart.replaceOne (hreaches : Reaches start stop entry) :
  (replaceOne start stop generation permissions mappings entry).Apart := by
 constructor
 · intro a ha
   rcases (h.mem_replaceOne hent hreaches).1 ha with ⟨ha, -⟩ | ha
   · exact h.nonempty a ha
   · exact (hreaches.piece_within ha).2.1
 · intro a ha b hb hlt
   rcases (h.mem_replaceOne hent hreaches).1 ha with ⟨ha, hne⟩ | ha <;> rcases (h.mem_replaceOne hent hreaches).1 hb with ⟨hb, hne'⟩ | hb
   · exact h.apart a ha b hb hlt
   · have hwithin := hreaches.piece_within hb
     have hbeside := h.beside hent ha hne
     omega
   · have hwithin := hreaches.piece_within ha
     have hbeside := h.beside hent hb hne'
     have hnonempty := h.nonempty b hb
     omega
   · have hwithin := hreaches.piece_within ha
     have hwithin' := hreaches.piece_within hb
     have hbef : (pieces start stop generation permissions entry).Pairwise fun a b => a.1 < b.1 → a.2.stop ≤ b.1 :=
      hreaches.pieces_apart.imp fun {a b} (hstop : a.2.stop ≤ b.1) (_ : a.1 < b.1) => hstop
     have hafter : (pieces start stop generation permissions entry).Pairwise (flip fun a b => a.1 < b.1 → a.2.stop ≤ b.1) := by
      refine Pairwise.imp_of_mem (fun {a b} ha hb hstop hback => ?_) hreaches.pieces_apart
      have hwithin := hreaches.piece_within ha
      omega
     exact Pairwise.forall_of_forall_of_flip (fun _ _ hself => absurd hself (lt_irrefl _)) hbef hafter ha hb hlt

end

/-! ### A range -/

/-- Taking a range out of entries, one after another, leaves the other entries and the pieces of these. -/
theorem Apart.replaceAll (h : mappings.Apart) (generation : Nat) (permissions : Option Permissions) {affected : List Entry} (honce : affected.Nodup)
  (haffected : ∀ entry ∈ affected, entry ∈ mappings.entries ∧ Reaches start stop entry) :
  (affected.foldl (Mappings.replaceOne start stop generation permissions) mappings).Apart ∧
   ∀ other, other ∈ (affected.foldl (Mappings.replaceOne start stop generation permissions) mappings).entries ↔
    (other ∈ mappings.entries ∧ other ∉ affected) ∨ ∃ entry ∈ affected, other ∈ pieces start stop generation permissions entry := by
 induction affected generalizing mappings with
 | nil => exact ⟨h, fun other => by simp⟩
 | cons entry affected ih =>
  obtain ⟨hnew, honce⟩ := nodup_cons.1 honce
  obtain ⟨⟨hent, hreaches⟩, haffected⟩ := forall_mem_cons.1 haffected
  have hstep : ∀ other ∈ affected, other ∈ (Mappings.replaceOne start stop generation permissions mappings entry).entries ∧ Reaches start stop other := by
   intro other hother
   obtain ⟨hin, hreaches'⟩ := haffected other hother
   exact ⟨(h.mem_replaceOne hent hreaches).2 (.inl ⟨hin, fun heq => hnew (heq ▸ hother)⟩), hreaches'⟩
  obtain ⟨hapart, hmem⟩ := ih (h.replaceOne hent hreaches) honce hstep
  refine ⟨hapart, fun other => (hmem other).trans ?_⟩
  rw [h.mem_replaceOne hent hreaches, mem_cons, exists_mem_cons_iff]
  have hpiece : other ∈ pieces start stop generation permissions entry → other ∉ affected := by
   intro hpiece hother
   have hwithin := hreaches.piece_within hpiece
   have hbeside := h.beside hent (haffected other hother).1 fun heq => hnew (heq ▸ hother)
   omega
  tauto

end Cut

end Mappings

end Tir.Simcore
