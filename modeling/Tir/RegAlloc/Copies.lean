import Tir.RegAlloc.AllocationOrder

/-!
# Sequencing a parallel copy

Model of `sequence` (`core/src/backend/regalloc/copies.rs`). A parallel copy is a list of moves
`dst <- src`; it is turned into a list of steps that run one after the other. A move whose
destination no move left still reads is emitted; when only cycles are left, a register the first
destination overlaps is moved aside, into a scratch register that is not busy or else into a
stack slot, and read from there.

The steps run on a register file of units and on spill slots (`exec`). The loop ends without
panicking on every input (`sequenceStep_isSome`). A destination ends with what its source held
before the first step provided no scratch register reaches it: every supplied register that
covers one of its units overlaps a live register (`sequence_delivers`). Without the proviso a
scratch register may be a destination already written (`scratch_overwrites_destination`).
A register with another use keeps its contents (`sequence_spares`).
-/

open List Option Function

namespace Tir.RegAlloc

/-- The defining operation of a constant. -/
abbrev OpId := Nat

/-- Where a pending move reads its value. -/
inductive Source where
 | reg (src : PhysReg)
 | slot (slot : Nat)
 | const (op : OpId)
 deriving DecidableEq, Repr

/-- One emitted step; the register it is paired with is the one written, or the one stored. -/
inductive Step where
 | move (src : PhysReg)
 | replay (op : OpId)
 | store (slot : Nat)
 | reload (slot : Nat)
 deriving DecidableEq, Repr

/-- A pending move: destination and source. -/
abbrev Move := PhysReg × Source

/-- The source is a register that overlaps `register`. -/
def Source.overlapsReg : Source → PhysReg → Bool
 | .reg src, register => src.overlaps register
 | _, _ => false

/-- Some move still reads a register overlapping `dst`. -/
def reads (moves : List Move) (dst : PhysReg) : Bool :=
 moves.any fun m => m.2.overlapsReg dst

def Source.step : Source → Step
 | .reg src => .move src
 | .slot n => .reload n
 | .const op => .replay op

/-- The first register read by a move that is `blocked` itself, or, unless `exact`, overlaps it. -/
def reading (moves : List Move) (blocked : PhysReg) (exact : Bool) : Option PhysReg :=
 moves.findSome? fun m =>
  match m.2 with
  | .reg src => if src == blocked || (!exact && src.overlaps blocked) then some src else none
  | _ => none

/-- The register is live, or a move left writes or reads it. -/
def busy (live : List PhysReg) (moves : List Move) (register : PhysReg) : Bool :=
 live.any (fun other => other.overlaps register) ||
  moves.any fun m => m.1.overlaps register || m.2.overlapsReg register

/-- Some move still reads the slot. -/
def pendingSlot (moves : List Move) (slot : Nat) : Bool :=
 moves.any fun m => m.2 == .slot slot

/-- The first slot no move reads. At most one slot a move is read, so the search is over
`moves.length + 1` slots. -/
def freeSlot (moves : List Move) : Option Nat :=
 (List.range (moves.length + 1)).find? fun slot => !pendingSlot moves slot

/-- Read `target` wherever `aside` was read. -/
def redirect (moves : List Move) (aside : PhysReg) (target : Source) : List Move :=
 moves.map fun m => if m.2 = .reg aside then (m.1, target) else m

/-- Registers a cycle may be broken through, per class; each belongs to the class asked for. -/
structure ScratchSupply where
 supply : RegClassId → List PhysReg
 ofClass : ∀ c, ∀ r ∈ supply c, r.1 = c

/-- The supply of `emit_moves`: the allocation order without unsaved callee-saved registers. -/
def ScratchSupply.ofAbi (abi : AbiInfo) (taken : List PhysReg) : ScratchSupply where
 supply := scratch abi taken
 ofClass := scratch_ofClass abi taken

/-- One turn of the loop when no destination is free: move a register that blocks the first
destination aside. `none` is the panic of `expect`. -/
def breakCycle (live : List PhysReg) (scratch : ScratchSupply) (moves : List Move)
  (blocked : PhysReg) : Option ((PhysReg × Step) × List Move) :=
 match (reading moves blocked true).or (reading moves blocked false) with
 | none => none
 | some aside =>
  match (scratch.supply aside.1).find? fun register => !busy live moves register with
  | some free => some ((free, .move aside), redirect moves aside (.reg free))
  | none =>
   match freeSlot moves with
   | none => none
   | some slot => some ((aside, .store slot), redirect moves aside (.slot slot))

/-- One turn of the loop of `sequence`: the step pushed and the moves left. -/
def sequenceStep (live : List PhysReg) (scratch : ScratchSupply) (moves : List Move) :
  Option ((PhysReg × Step) × List Move) :=
 match moves.findIdx? fun m => !reads moves m.1 with
 | some i =>
  match moves[i]? with
  | none => none
  | some m => some ((m.1, m.2.step), moves.eraseIdx i)
 | none =>
  match moves with
  | [] => none
  | first :: _ => breakCycle live scratch moves first.1

/-- The moves that keep some destination from being written. -/
def blocking (moves : List Move) (m : Move) : Bool :=
 moves.any fun other => m.2.overlapsReg other.1

/-- The loop's measure: the moves left and those among them that block a destination. -/
def work (moves : List Move) : Nat := moves.length + moves.countP (blocking moves)

theorem overlapsReg_comm (src : PhysReg) (r : PhysReg) :
  (Source.reg src).overlapsReg r = r.overlaps src := by
 show src.overlaps r = r.overlaps src
 exact PhysReg.overlaps_comm src r

/-- What `reading` finds is read by some move and overlaps the blocked destination. -/
theorem reading_spec {moves : List Move} {blocked src : PhysReg} {exact : Bool}
  (h : reading moves blocked exact = some src) :
  (∃ m ∈ moves, m.2 = .reg src) ∧ src.overlaps blocked = true := by
 obtain ⟨m, hm, hsrc⟩ := exists_of_findSome?_eq_some h
 cases hs : m.2 with
 | reg s =>
  rw [hs] at hsrc
  simp only [ite_none_right_eq_some, some.injEq] at hsrc
  obtain ⟨hcond, rfl⟩ := hsrc
  refine ⟨⟨m, hm, hs⟩, ?_⟩
  rcases Bool.or_eq_true_iff.1 hcond with heq | hov
  · rw [beq_iff_eq] at heq
    rw [heq]
    exact PhysReg.overlaps_self blocked
  · exact (Bool.and_eq_true_iff.1 hov).2
 | slot s =>
  grind
 | const op =>
  grind

/-- A destination that is read has a register for `reading` to find. -/
theorem reading_isSome {moves : List Move} {blocked : PhysReg} (h : reads moves blocked = true) :
  (reading moves blocked false).isSome = true := by
 obtain ⟨m, hm, hov⟩ := List.any_eq_true.1 h
 rw [reading, findSome?_isSome_iff]
 refine ⟨m, hm, ?_⟩
 cases hs : m.2 with
 | reg s =>
  rw [hs] at hov
  have hov' : s.overlaps blocked = true := hov
  simp [hov']
 | slot s =>
  rw [hs] at hov
  exact absurd hov (by simp [Source.overlapsReg])
 | const op =>
  rw [hs] at hov
  exact absurd hov (by simp [Source.overlapsReg])

/-- A register that is not busy overlaps no live register, no destination and no source. -/
theorem not_busy {live : List PhysReg} {moves : List Move} {r : PhysReg} (h : busy live moves r = false) :
  (∀ l ∈ live, l.overlaps r = false) ∧
   ∀ m ∈ moves, m.1.overlaps r = false ∧ m.2.overlapsReg r = false := by
 rw [busy, Bool.or_eq_false_iff] at h
 refine ⟨fun l hl => ?_, fun m hm => ?_⟩
 · exact Bool.eq_false_iff.2 (List.any_eq_false.1 h.1 l hl)
 grind

/-- More slots than moves leave a slot no move reads. -/
theorem freeSlot_isSome (moves : List Move) : (freeSlot moves).isSome = true := by
 rw [freeSlot, find?_isSome]
 by_contra hnone
 push Not at hnone
 -- every slot of the range is read, so the sources contain `moves.length + 1` distinct slots
 have hsub : (List.range (moves.length + 1)).map Source.slot ⊆ moves.map Prod.snd := by
  intro s hs
  obtain ⟨slot, hslot, rfl⟩ := List.mem_map.1 hs
  have hread : pendingSlot moves slot = true := by simpa using hnone slot hslot
  obtain ⟨m, hm, heq⟩ := List.any_eq_true.1 hread
  exact List.mem_map.2 ⟨m, hm, beq_iff_eq.1 heq⟩
 have hnd : ((List.range (moves.length + 1)).map Source.slot).Nodup :=
  nodup_range.map (fun _ _ h => Source.slot.inj h)
 have hle := (hnd.subperm hsub).length_le
 grind

theorem freeSlot_spec {moves : List Move} {slot : Nat} (h : freeSlot moves = some slot) :
  ∀ m ∈ moves, m.2 ≠ .slot slot := by
 intro m hm heq
 have hnot := find?_some h
 simp only [Bool.not_eq_true', pendingSlot, List.any_eq_false, beq_iff_eq] at hnot
 exact hnot m hm heq

/-! ## The loop terminates -/

theorem redirect_map_fst (moves : List Move) (aside : PhysReg) (target : Source) :
  (redirect moves aside target).map Prod.fst = moves.map Prod.fst := by
 rw [redirect, List.map_map]
 apply map_congr_left
 grind

/-- Redirecting keeps what holds of every destination. -/
theorem forall_dst_redirect (moves : List Move) (aside : PhysReg) (target : Source) (P : PhysReg → Prop) :
  (∀ m ∈ redirect moves aside target, P m.1) ↔ ∀ m ∈ moves, P m.1 := by
 have hmap : ∀ l : List Move, (∀ m ∈ l, P m.1) ↔ ∀ dst ∈ l.map Prod.fst, P dst := by
  grind
 rw [hmap, hmap, redirect_map_fst]

theorem mem_redirect {moves : List Move} {aside : PhysReg} {target : Source} {m : Move}
  (h : m ∈ redirect moves aside target) :
  (m ∈ moves ∧ m.2 ≠ .reg aside) ∨ ((m.1, Source.reg aside) ∈ moves ∧ m.2 = target) := by
 obtain ⟨m', hm', rfl⟩ := List.mem_map.1 h
 by_cases hsrc : m'.2 = .reg aside
 · grind
 grind

/-- Blocking depends on the moves only through their destinations. -/
theorem blocking_congr {moves moves' : List Move} (h : moves.map Prod.fst = moves'.map Prod.fst) (m : Move) :
  blocking moves m = blocking moves' m := by
 have hany : ∀ l : List Move,
   blocking l m = (l.map Prod.fst).any fun dst => m.2.overlapsReg dst := by
  intro l
  rw [List.any_map]
  rfl
 rw [hany, hany, h]

/-- Replacing entries that are counted by entries that are not lowers a count. -/
theorem countP_map_lt {β : Type} (p : β → Bool) (f : β → β) (l : List β) (hmono : ∀ b ∈ l, p (f b) = true → p b = true)
  (hdrop : ∃ b ∈ l, p b = true ∧ p (f b) = false) :
  (l.map f).countP p < l.countP p := by
 induction l with
 | nil =>
  simp_all
 | cons a l ih =>
  have hle : (l.map f).countP p ≤ l.countP p := by
   rw [countP_map]
   exact countP_mono_left fun b hb hpb => hmono b (mem_cons_of_mem a hb) hpb
  rw [map_cons, countP_cons, countP_cons]
  by_cases htail : ∃ b ∈ l, p b = true ∧ p (f b) = false
  · grind
  grind

/-- Moving a blocking register to a place that blocks nothing lowers the measure. -/
theorem work_redirect_lt {moves : List Move} {blocked aside : PhysReg} {target : Source}
  (hblocked : blocked ∈ moves.map Prod.fst) (haside : ∃ m ∈ moves, m.2 = .reg aside)
  (hov : aside.overlaps blocked = true) (htgt : ∀ m ∈ moves, target.overlapsReg m.1 = false) :
  work (redirect moves aside target) < work moves := by
 have hfst := redirect_map_fst moves aside target
 have hlen : (redirect moves aside target).length = moves.length := length_map _
 have hblk : ∀ m, blocking (redirect moves aside target) m = blocking moves m :=
  blocking_congr hfst
 have hnone : ∀ dst : PhysReg, blocking moves (dst, target) = false := by
  intro dst
  rw [blocking, List.any_eq_false]
  grind
 have hcnt : (redirect moves aside target).countP (blocking moves) <
   moves.countP (blocking moves) := by
  apply countP_map_lt
  · intro m _ hm
    by_cases hsrc : m.2 = .reg aside
    · grind
    · rwa [if_neg hsrc] at hm
  · obtain ⟨m, hm, hsrc⟩ := haside
    refine ⟨m, hm, ?_, ?_⟩
    · obtain ⟨other, hother, rfl⟩ := List.mem_map.1 hblocked
      refine List.any_eq_true.2 ⟨other, hother, ?_⟩
      rw [hsrc]
      exact hov
    grind
 unfold work
 rw [hlen, countP_congr fun m _ => by rw [hblk m]]
 omega

theorem work_eraseIdx_lt {moves : List Move} {i : Nat} (hi : i < moves.length) :
  work (moves.eraseIdx i) < work moves := by
 have hlen : (moves.eraseIdx i).length = moves.length - 1 := length_eraseIdx_of_lt hi
 have hsub : (moves.eraseIdx i).Sublist moves := eraseIdx_sublist moves i
 have hcnt : (moves.eraseIdx i).countP (blocking (moves.eraseIdx i)) ≤
   moves.countP (blocking moves) := by
  refine (countP_mono_left fun m _ hm => ?_).trans (hsub.countP_le)
  obtain ⟨other, hother, hov⟩ := List.any_eq_true.1 hm
  exact List.any_eq_true.2 ⟨other, hsub.subset hother, hov⟩
 unfold work
 omega

section

variable {live : List PhysReg} {scratch : ScratchSupply} {moves rest : List Move} {step : PhysReg × Step}
  (h : sequenceStep live scratch moves = some (step, rest))

include h

/-- What one turn of the loop can do: emit a move whose destination is not read, or move a
register aside into a free register or a free slot. -/
theorem sequenceStep_cases : (∃ i m, moves[i]? = some m ∧ reads moves m.1 = false ∧ step = (m.1, m.2.step) ∧
    rest = moves.eraseIdx i) ∨ ∃ blocked aside, blocked ∈ moves.map Prod.fst ∧ (∃ m ∈ moves, m.2 = .reg aside) ∧
    aside.overlaps blocked = true ∧ ((∃ free ∈ scratch.supply aside.1, busy live moves free = false ∧
      step = (free, .move aside) ∧ rest = redirect moves aside (.reg free)) ∨
      ∃ slot, (∀ m ∈ moves, m.2 ≠ .slot slot) ∧ step = (aside, .store slot) ∧
       rest = redirect moves aside (.slot slot)) := by
 unfold sequenceStep at h
 split at h
 · rename_i i hi
   left
   split at h
   · nomatch h
   · rename_i m hm
     obtain ⟨rfl, rfl⟩ := h
     refine ⟨i, m, hm, ?_, rfl, rfl⟩
     obtain ⟨hlt, hread, -⟩ := findIdx?_eq_some_iff_getElem.1 hi
     grind
 · right
   cases moves with
   | nil => nomatch h
   | cons first tail =>
    simp only at h
    unfold breakCycle at h
    split at h
    · nomatch h
    · rename_i aside haside
      have hspec : (∃ m ∈ first :: tail, m.2 = .reg aside) ∧
        aside.overlaps first.1 = true := by
       rcases or_eq_some_iff.1 haside with hexact | ⟨-, hany⟩
       · exact reading_spec hexact
       · exact reading_spec hany
      refine ⟨first.1, aside, List.mem_map_of_mem (.head _), hspec.1, hspec.2, ?_⟩
      split at h
      · grind
      · split at h
        · nomatch h
        · rename_i slot hslot
          simp only [some.injEq, Prod.mk.injEq] at h
          obtain ⟨rfl, rfl⟩ := h
          exact Or.inr ⟨slot, freeSlot_spec hslot, rfl, rfl⟩

/-- Every turn of the loop lowers the measure. -/
theorem sequenceStep_work_lt
  : work rest < work moves := by
 rcases sequenceStep_cases h with ⟨i, m, hm, -, -, rfl⟩ |
  ⟨blocked, aside, hblocked, haside, hov, hplace⟩
 · exact work_eraseIdx_lt (List.getElem?_eq_some_iff.1 hm).1
 · rcases hplace with ⟨free, -, hfree, -, rfl⟩ | ⟨slot, -, -, rfl⟩
   · apply work_redirect_lt hblocked haside hov
     intro m hm
     rw [overlapsReg_comm]
     exact ((not_busy hfree).2 m hm).1
   · apply work_redirect_lt hblocked haside hov
     intro m _
     rfl

end

/-- The steps of a parallel copy in order; `none` is a panic. -/
def sequence (live : List PhysReg) (scratch : ScratchSupply) (moves : List Move) : Option (List (PhysReg × Step)) :=
 if moves.isEmpty then some []
 else
  match _h : sequenceStep live scratch moves with
  | none => none
  | some (step, rest) => (sequence live scratch rest).map (step :: ·)
termination_by work moves
decreasing_by exact sequenceStep_work_lt _h

/-- With moves left the loop body does not panic. -/
theorem sequenceStep_isSome (live : List PhysReg) (scratch : ScratchSupply) {moves : List Move}
  (hne : moves ≠ []) : (sequenceStep live scratch moves).isSome = true := by
 unfold sequenceStep
 split
 · rename_i i hi
   obtain ⟨hlt, -⟩ := findIdx?_eq_some_iff_getElem.1 hi
   grind
 · rename_i hnone
   cases moves with
   | nil => exact absurd rfl hne
   | cons first tail =>
    have hread : reads (first :: tail) first.1 = true := by
     grind
    have hfound := reading_isSome hread
    obtain ⟨slot, hslot⟩ := isSome_iff_exists.1 (freeSlot_isSome (first :: tail))
    simp only [breakCycle]
    split
    · grind
    grind

/-! ## Running the steps -/

section Machine

variable {α : Type}

/-- A register file, unit by unit, and the spill slots written so far. -/
structure Machine (α : Type) where
 regs : RegUnit → α
 slots : Nat → Option (List α)

/-- `n` units starting at the first unit of `r`. -/
def unitsFrom (regs : RegUnit → α) (r : PhysReg) (n : Nat) : List α :=
 (List.range n).map fun k => regs (r.unit k)

/-- What a register holds. -/
def contents (regs : RegUnit → α) (r : PhysReg) : List α := unitsFrom regs r r.width

/-- Write `values` into the units of `r`. -/
def write (regs : RegUnit → α) (r : PhysReg) (values : List α) : RegUnit → α := fun u =>
 if r.Covers u then values.getD (u.2 - r.2) (regs u) else regs u

/-- What a source supplies to a destination of `width` units; `constant` is the value a
replayed definition leaves, unit by unit. A slot supplies what was stored, when something of
that width was. -/
def Source.value (constant : OpId → Nat → α) (s : Machine α) (width : Nat) : Source → Option (List α)
 | .reg src => some (unitsFrom s.regs src width)
 | .slot n => (s.slots n).filter fun values => values.length = width
 | .const op => some ((List.range width).map (constant op))

/-- Run one step; `none` is a reload of a slot that holds nothing of the register's width. -/
def execStep (constant : OpId → Nat → α) (s : Machine α) : PhysReg × Step → Option (Machine α)
 | (dst, .move src) => some { s with regs := write s.regs dst (unitsFrom s.regs src dst.width) }
 | (dst, .replay op) =>
  some { s with regs := write s.regs dst ((List.range dst.width).map (constant op)) }
 | (src, .store n) => some { s with slots := update s.slots n (contents s.regs src) }
 | (dst, .reload n) =>
  ((s.slots n).filter fun values => values.length = dst.width).map fun values =>
    { s with regs := write s.regs dst values }

/-- Run steps in order. -/
def exec (constant : OpId → Nat → α) : List (PhysReg × Step) → Machine α → Option (Machine α)
 | [], s => some s
 | step :: steps, s => (execStep constant s step).bind (exec constant steps)

/-- Registers on entry, no slot written. -/
def Machine.start (regs : RegUnit → α) : Machine α := ⟨regs, fun _ => none⟩

theorem write_of_not_covers {regs : RegUnit → α} {r : PhysReg} {values : List α} {u : RegUnit}
  (h : ¬ r.Covers u) : write regs r values u = regs u :=
 if_neg h

theorem unitsFrom_congr {regs regs' : RegUnit → α} {r : PhysReg} {n : Nat} (hn : n ≤ r.width)
  (h : ∀ u, r.Covers u → regs' u = regs u) : unitsFrom regs' r n = unitsFrom regs r n := by
 apply map_congr_left
 grind [PhysReg.covers_iff_exists_unit]

theorem contents_congr {regs regs' : RegUnit → α} {r : PhysReg}
  (h : ∀ u, r.Covers u → regs' u = regs u) : contents regs' r = contents regs r :=
 unitsFrom_congr le_rfl h

theorem contents_length (regs : RegUnit → α) (r : PhysReg) :
  (contents regs r).length = r.width := by
 simp [contents, unitsFrom]

theorem contents_write {regs : RegUnit → α} {r : PhysReg} {values : List α}
  (hlen : values.length = r.width) : contents (write regs r values) r = values := by
 apply ext_getElem
 · rw [contents_length, hlen]
 · intro k hk hk'
   have hcov : r.Covers (r.unit k) := by
    grind [PhysReg.covers_iff_exists_unit]
   simp only [contents, unitsFrom, getElem_map, getElem_range]
   rw [write, if_pos hcov]
   have hidx : (r.unit k).2 - r.2 = k := by
    simp only [PhysReg.unit]
    omega
   rw [hidx, getD_eq_getElem?_getD, getElem?_eq_getElem hk', getD_some]

theorem value_length {constant : OpId → Nat → α} {s : Machine α} {width : Nat} {src : Source}
  {values : List α} (h : src.value constant s width = some values) : values.length = width := by
 cases src with
 | reg r =>
  simp only [Source.value, some.injEq] at h
  rw [← h]
  simp [unitsFrom]
 | slot n =>
  simp only [Source.value, filter_eq_some_iff, decide_eq_true_eq] at h
  exact h.2
 | const op =>
  simp only [Source.value, some.injEq] at h
  rw [← h]
  simp

/-- The step of a move writes its source's value into its destination. -/
theorem execStep_move {constant : OpId → Nat → α} {s : Machine α} {dst : PhysReg} {src : Source}
  {values : List α} (h : src.value constant s dst.width = some values) :
  execStep constant s (dst, src.step) = some { s with regs := write s.regs dst values } := by
 cases src with
 | reg r =>
  simp only [Source.value, some.injEq] at h
  simp only [Source.step, execStep, h]
 | slot n =>
  simp only [Source.value] at h
  simp only [Source.step, execStep, h, map_some]
 | const op =>
  simp only [Source.value, some.injEq] at h
  simp only [Source.step, execStep, h]

/-! ## What the steps preserve -/

/-- A unit no scratch register reaches: a supplied register that covers it overlaps a live
register, so it is busy. -/
def GuardedUnit (live : List PhysReg) (scratch : ScratchSupply) (u : RegUnit) : Prop :=
 ∀ c, ∀ r ∈ scratch.supply c, r.Covers u → ∃ l ∈ live, l.overlaps r = true

/-- A register none of whose units a scratch register reaches. -/
def Guarded (live : List PhysReg) (scratch : ScratchSupply) (r : PhysReg) : Prop :=
 ∀ u, r.Covers u → GuardedUnit live scratch u

theorem guarded_of_mem_live {live : List PhysReg} {r : PhysReg} (scratch : ScratchSupply)
  (h : r ∈ live) : Guarded live scratch r := by
 intro u hu c s _ hs
 exact ⟨r, h, (PhysReg.overlaps_iff_exists_unit r s).2 ⟨u, hu, hs⟩⟩

/-- The destination's source has its width, and reads no slot yet. -/
def Move.WellFormed (m : Move) : Prop :=
 match m.2 with
 | .reg src => src.width = m.1.width
 | .slot _ => False
 | .const _ => True

/-- No two destinations share a unit. -/
def DisjointDests (moves : List Move) : Prop :=
 (moves.map Prod.fst).Pairwise fun a b => a.overlaps b = false

/-- What the loop keeps: destinations are disjoint, register sources have their destination's
width, and each pending source supplies the value `want` its destination is to receive. -/
structure Pending (constant : OpId → Nat → α) (want : PhysReg → List α) (moves : List Move) (s : Machine α) : Prop where
 disjoint : DisjointDests moves
 width : ∀ m ∈ moves, ∀ src, m.2 = .reg src → src.width = m.1.width
 supplies : ∀ m ∈ moves, m.2.value constant s m.1.width = some (want m.1)

/-- A write outside every pending source leaves the sources' values. -/
theorem value_write {constant : OpId → Nat → α} {s : Machine α} {r : PhysReg} {values : List α}
  {m : Move} (hwid : ∀ src, m.2 = .reg src → src.width = m.1.width) (hov : m.2.overlapsReg r = false) :
  m.2.value constant { s with regs := write s.regs r values } m.1.width =
   m.2.value constant s m.1.width := by
 cases hs : m.2 with
 | reg src =>
  rw [hs] at hov
  have hov' : src.overlaps r = false := hov
  simp only [Source.value, some.injEq]
  apply unitsFrom_congr
  · exact (hwid src hs).ge
  · intro u hu
    exact write_of_not_covers (PhysReg.not_covers_of_not_overlaps hov' hu)
 | slot n => rfl
 | const op => rfl

section

variable {constant : OpId → Nat → α} {want : PhysReg → List α} {moves : List Move} {s : Machine α}
  (h : Pending constant want moves s)

include h

/-- Emitting a move whose destination is not read keeps the invariant for the moves left. -/
theorem Pending.emit {i : Nat} {m : Move} (hread : reads moves m.1 = false) :
  Pending constant want (moves.eraseIdx i) { s with regs := write s.regs m.1 (want m.1) } := by
 have hsub : (moves.eraseIdx i).Sublist moves := eraseIdx_sublist moves i
 refine ⟨?_, fun m' hm' => h.width m' (hsub.subset hm'), fun m' hm' => ?_⟩
 · exact h.disjoint.sublist (hsub.map Prod.fst)
 · rw [value_write (h.width m' (hsub.subset hm'))]
   · exact h.supplies m' (hsub.subset hm')
   · exact Bool.eq_false_iff.2 (List.any_eq_false.1 hread m' (hsub.subset hm'))

/-- Moving a source aside into a register that is not busy keeps the invariant. -/
theorem Pending.aside_reg  {live : List PhysReg} {aside free : PhysReg} (hclass : free.1 = aside.1)
  (hfree : busy live moves free = false) : Pending constant want (redirect moves aside (.reg free))
   { s with regs := write s.regs free (unitsFrom s.regs aside free.width) } := by
 have hw : free.width = aside.width := by
  simp [PhysReg.width, hclass]
 refine ⟨?_, fun m hm src hsrc => ?_, fun m hm => ?_⟩
 · rw [DisjointDests, redirect_map_fst]
   exact h.disjoint
 · rcases mem_redirect hm with ⟨hmem, -⟩ | ⟨hmem, htgt⟩
   · exact h.width m hmem src hsrc
   · rw [htgt, Source.reg.injEq] at hsrc
     rw [← hsrc, hw]
     exact h.width _ hmem aside rfl
 · rcases mem_redirect hm with ⟨hmem, -⟩ | ⟨hmem, htgt⟩
   · rw [value_write (h.width m hmem) ((not_busy hfree).2 m hmem).2]
     exact h.supplies m hmem
   · have hwid := h.width _ hmem aside rfl
     have hval := h.supplies _ hmem
     simp only [Source.value, some.injEq] at hval
     rw [htgt]
     simp only [Source.value, some.injEq]
     rw [← hval, ← hwid, ← hw]
     exact contents_write (by simp [unitsFrom])

/-- Storing a source into a slot no move reads keeps the invariant. -/
theorem Pending.aside_slot  {aside : PhysReg} {n : Nat} (hslot : ∀ m ∈ moves, m.2 ≠ .slot n) :
  Pending constant want (redirect moves aside (.slot n))
   { s with slots := update s.slots n (some (contents s.regs aside)) } := by
 refine ⟨?_, fun m hm src hsrc => ?_, fun m hm => ?_⟩
 · rw [DisjointDests, redirect_map_fst]
   exact h.disjoint
 · rcases mem_redirect hm with ⟨hmem, -⟩ | ⟨-, htgt⟩
   · exact h.width m hmem src hsrc
   grind
 · rcases mem_redirect hm with ⟨hmem, -⟩ | ⟨hmem, htgt⟩
   · have hval := h.supplies m hmem
     cases hs : m.2 with
     | reg src =>
      rw [hs] at hval
      exact hval
     | slot k =>
      have hk : k ≠ n := by
       grind
      rw [hs] at hval
      simp only [Source.value, update_of_ne hk]
      exact hval
     | const op =>
      rw [hs] at hval
      exact hval
   · have hwid := h.width _ hmem aside rfl
     have hval := h.supplies _ hmem
     simp only [Source.value, some.injEq] at hval
     rw [htgt]
     simp only [Source.value, update_self, filter_eq_some_iff, decide_eq_true_eq,
      some.injEq]
     have hcontents : contents s.regs aside = want m.1 := by
      rw [← hval, ← hwid]
      rfl
     grind [contents_length]

end

/-- A guarded unit is outside every register that is free to be scratch. -/
theorem GuardedUnit.not_covers {live : List PhysReg} {scratch : ScratchSupply} {u : RegUnit}
  (h : GuardedUnit live scratch u) {moves : List Move} {c : RegClassId} {free : PhysReg}
  (hsupply : free ∈ scratch.supply c) (hfree : busy live moves free = false) :
  ¬ free.Covers u := by
 intro hcov
 obtain ⟨l, hl, hov⟩ := h c free hsupply hcov
 grind [not_busy]

/-- The destinations of other moves cover no unit of an emitted move's destination. -/
theorem not_covers_of_eraseIdx {moves : List Move} (hdis : DisjointDests moves) {i : Nat}
  {m : Move} (hm : moves[i]? = some m) {u : RegUnit} (hu : m.1.Covers u) :
  ∀ m' ∈ moves.eraseIdx i, ¬ m'.1.Covers u := by
 intro m' hm'
 obtain ⟨j, hj, hmj⟩ := mem_eraseIdx_iff_getElem?.1 hm'
 have hpair : ∀ a b (ha : a < moves.length) (hb : b < moves.length), a < b →
   moves[a].1.overlaps moves[b].1 = false := by
  intro a b ha hb hab
  have hget := pairwise_iff_getElem.1 hdis a b (by simpa using ha) (by simpa using hb) hab
  simpa using hget
 grind [PhysReg.not_covers_of_not_overlaps]

/-- Running the sequenced steps from a state that supplies every pending value delivers the
values to the guarded destinations and leaves every other guarded unit alone. -/
theorem sequence_run (constant : OpId → Nat → α) (want : PhysReg → List α)
  (live : List PhysReg) (scratch : ScratchSupply) :
  ∀ n (moves : List Move) (s : Machine α), work moves = n → Pending constant want moves s →
   ∃ steps final, sequence live scratch moves = some steps ∧ exec constant steps s = some final ∧
    (∀ m ∈ moves, Guarded live scratch m.1 → contents final.regs m.1 = want m.1) ∧
    ∀ u, GuardedUnit live scratch u → (∀ m ∈ moves, ¬ m.1.Covers u) →
     final.regs u = s.regs u := by
 intro n
 induction n using Nat.strong_induction_on with
 | _ n ih =>
  intro moves s hn hp
  rw [sequence]
  split
  · rename_i hempty
    have hnil : moves = [] := by simpa using hempty
    subst hnil
    refine ⟨[], s, rfl, rfl, nofun, fun u _ _ => rfl⟩
  · rename_i hempty
    split
    · grind [sequenceStep_isSome]
    · rename_i step rest hstep
      have hlt := sequenceStep_work_lt hstep
      rw [hn] at hlt
      -- one step leads to a state that supplies the moves left; the rest is by induction
      rcases sequenceStep_cases hstep with ⟨i, m, hm, hread, rfl, rfl⟩ |
       ⟨blocked, aside, -, -, -, ⟨free, hsupply, hfree, rfl, rfl⟩ | ⟨slot, hslot, rfl, rfl⟩⟩
      · have hmem := mem_of_getElem? hm
        have hval := hp.supplies m hmem
        obtain ⟨steps, final, hseq, hexec, hdeliver, hframe⟩ :=
         ih _ hlt _ _ rfl (hp.emit (i := i) hread)
        refine ⟨_, final, by rw [hseq]; rfl, ?_, ?_, ?_⟩
        · simp only [exec, execStep_move hval, bind_some]
          exact hexec
        · intro m' hm' hguard
          by_cases hlater : m' ∈ moves.eraseIdx i
          · exact hdeliver m' hlater hguard
          · have hsame : m' = m := by
             obtain ⟨j, hj⟩ := getElem?_of_mem hm'
             by_cases hji : j = i
             · grind
             · exact absurd (mem_eraseIdx_iff_getElem?.2 ⟨j, hji, hj⟩) hlater
            subst hsame
            rw [contents_congr fun u hu => hframe u (hguard u hu)
             (not_covers_of_eraseIdx hp.disjoint hm hu)]
            exact contents_write (value_length hval)
        · intro u hu hout
          rw [hframe u hu fun m' hm' => hout m' ((eraseIdx_sublist moves i).subset hm')]
          exact write_of_not_covers (hout m hmem)
      · obtain ⟨steps, final, hseq, hexec, hdeliver, hframe⟩ :=
         ih _ hlt _ _ rfl (hp.aside_reg (scratch.ofClass aside.1 free hsupply) hfree)
        refine ⟨_, final, by rw [hseq]; rfl, hexec, ?_, fun u hu hout => ?_⟩
        · exact (forall_dst_redirect moves aside _ fun r =>
           Guarded live scratch r → contents final.regs r = want r).1 hdeliver
        · rw [hframe u hu ((forall_dst_redirect moves aside _ fun r => ¬ r.Covers u).2 hout)]
          exact write_of_not_covers (hu.not_covers hsupply hfree)
      · obtain ⟨steps, final, hseq, hexec, hdeliver, hframe⟩ :=
         ih _ hlt _ _ rfl (hp.aside_slot hslot)
        refine ⟨_, final, by rw [hseq]; rfl, hexec, ?_, fun u hu hout => ?_⟩
        · exact (forall_dst_redirect moves aside _ fun r =>
           Guarded live scratch r → contents final.regs r = want r).1 hdeliver
        · rw [hframe u hu ((forall_dst_redirect moves aside _ fun r => ¬ r.Covers u).2 hout)]

/-- The loop states of `sequence`: the steps pushed so far and the moves left. -/
inductive SequenceReaches (live : List PhysReg) (scratch : ScratchSupply) (moves : List Move) :
  List (PhysReg × Step) → List Move → Prop
 | start : SequenceReaches live scratch moves [] moves
 | next {emitted : List (PhysReg × Step)} {pending rest : List Move} {step : PhysReg × Step} :
   SequenceReaches live scratch moves emitted pending →
   sequenceStep live scratch pending = some (step, rest) →
   SequenceReaches live scratch moves (emitted ++ [step]) rest

/-- The steps of the whole copy are those pushed so far and those of the moves left. -/
theorem sequence_of_reaches {live : List PhysReg} {scratch : ScratchSupply}
  {moves pending : List Move} {emitted : List (PhysReg × Step)}
  (h : SequenceReaches live scratch moves emitted pending) :
  sequence live scratch moves = (sequence live scratch pending).map (emitted ++ ·) := by
 induction h with
 | start => simp
 | @next emitted pending rest step _ hstep ih =>
  have hne : pending.isEmpty = false := by
   cases pending with
   | nil => exact absurd hstep (by simp [sequenceStep])
   | cons m tail => rfl
  rw [ih, sequence, hne, if_neg Bool.false_ne_true]
  split
  · grind
  · rename_i step' rest' hstep'
    rw [hstep', some.injEq, Prod.mk.injEq] at hstep
    obtain ⟨rfl, rfl⟩ := hstep
    rw [Option.map_map]
    congr 1
    funext steps
    simp

section

variable {live : List PhysReg} {scratch : ScratchSupply} {moves pending : List Move} {emitted : List (PhysReg × Step)}
  (hstart : ∀ m ∈ moves, ∀ n, m.2 ≠ .slot n) (h : SequenceReaches live scratch moves emitted pending)

include hstart h

/-- Every slot a pending move reads was stored by an earlier step. -/
theorem stored_of_reaches  :
  ∀ m ∈ pending, ∀ n, m.2 = .slot n → ∃ r, (r, Step.store n) ∈ emitted := by
 induction h with
 | start => exact fun m hm n hs => absurd hs (hstart m hm n)
 | @next emitted pending rest step _ hstep ih =>
  have hold : ∀ m ∈ pending, ∀ n, m.2 = .slot n →
    ∃ r, (r, Step.store n) ∈ emitted ++ [step] := by
   grind
  intro m hm n hs
  rcases sequenceStep_cases hstep with ⟨i, m', -, -, -, rfl⟩ |
   ⟨blocked, aside, -, -, -, ⟨free, -, -, -, rfl⟩ | ⟨slot, -, rfl, rfl⟩⟩
  · exact hold m ((eraseIdx_sublist pending i).subset hm) n hs
  · rcases mem_redirect hm with ⟨hmem, -⟩ | ⟨-, htgt⟩
    · exact hold m hmem n hs
    grind
  · rcases mem_redirect hm with ⟨hmem, -⟩ | ⟨-, htgt⟩
    · exact hold m hmem n hs
    grind

/-- The slots are used in order: a slot is stored before it is reloaded, and stored only while
no pending move reads it. -/
theorem slots_in_order  {step : PhysReg × Step}
  {rest : List Move} (hstep : sequenceStep live scratch pending = some (step, rest)) :
  (∀ n, step.2 = .reload n → ∃ r, (r, Step.store n) ∈ emitted) ∧
   ∀ n, step.2 = .store n → ∀ m ∈ pending, m.2 ≠ .slot n := by
 rcases sequenceStep_cases hstep with ⟨i, m, hm, -, rfl, -⟩ |
  ⟨blocked, aside, -, -, -, ⟨free, -, -, rfl, -⟩ | ⟨slot, hslot, rfl, -⟩⟩
 · have hmem := mem_of_getElem? hm
   refine ⟨fun n hn => ?_, fun n hn => ?_⟩
   · apply stored_of_reaches hstart h m hmem n
     cases hs : m.2 <;> simp_all [Source.step]
   · cases hs : m.2 <;> simp_all [Source.step]
 · exact ⟨nofun, nofun⟩
 grind

end

/-- What a destination is to receive: its source's value before the first step. -/
def wanted (constant : OpId → Nat → α) (moves : List Move) (s : Machine α) (dst : PhysReg) : List α :=
 ((moves.find? fun m => m.1 == dst).bind fun m => m.2.value constant s m.1.width).getD []

theorem wanted_eq {constant : OpId → Nat → α} {moves : List Move} {s : Machine α}
  (hdis : DisjointDests moves) {m : Move} (hm : m ∈ moves) {values : List α}
  (hval : m.2.value constant s m.1.width = some values) :
  wanted constant moves s m.1 = values := by
 have hfind : moves.find? (fun m' => m'.1 == m.1) = some m := by
  induction moves with
  | nil => nomatch hm
  | cons a tail ih =>
   rw [DisjointDests, map_cons, pairwise_cons] at hdis
   rcases mem_cons.1 hm with rfl | htail
   · simp
   · have hov := hdis.1 m.1 (List.mem_map_of_mem htail)
     have hne : (a.1 == m.1) = false := by
      grind [PhysReg.overlaps_self]
     rw [find?_cons, hne]
     exact ih hdis.2 htail
 rw [wanted, hfind, bind_some, hval, getD_some]

/-- Before the first step every well-formed move supplies its wanted value. -/
theorem pending_start (constant : OpId → Nat → α) (regs : RegUnit → α) {moves : List Move}
  (hdis : DisjointDests moves) (hwf : ∀ m ∈ moves, m.WellFormed) :
  Pending constant (wanted constant moves (Machine.start regs)) moves (Machine.start regs) := by
 refine ⟨hdis, fun m hm src hsrc => ?_, fun m hm => ?_⟩
 · have h := hwf m hm
   rw [Move.WellFormed, hsrc] at h
   exact h
 · have h := hwf m hm
   obtain ⟨values, hval⟩ : ∃ values,
     m.2.value constant (Machine.start regs) m.1.width = some values := by
    cases hs : m.2 with
    | reg src => exact ⟨_, rfl⟩
    | slot n =>
     rw [Move.WellFormed, hs] at h
     exact absurd h id
    | const op => exact ⟨_, rfl⟩
   rw [wanted_eq hdis hm hval, hval]

/-- **A sequenced parallel copy delivers.** For disjoint destinations and sources of their
width the loop ends; its steps run to the end; each destination no scratch register reaches
holds what its source held before the first step; a live register no destination overlaps is
unchanged; and in every loop state a slot is reloaded only after it was stored, and stored only
while no pending move reads it. -/
theorem sequence_delivers (constant : OpId → Nat → α) (live : List PhysReg)
  (scratch : ScratchSupply) (moves : List Move) (hdis : DisjointDests moves)
  (hwf : ∀ m ∈ moves, m.WellFormed) (regs : RegUnit → α) : ∃ steps final, sequence live scratch moves = some steps ∧
   exec constant steps (Machine.start regs) = some final ∧ (∀ m ∈ moves, Guarded live scratch m.1 →
    m.2.value constant (Machine.start regs) m.1.width = some (contents final.regs m.1)) ∧
   (∀ r ∈ live, (∀ m ∈ moves, m.1.overlaps r = false) → contents final.regs r = contents regs r) ∧
   ∀ emitted pending, SequenceReaches live scratch moves emitted pending →
    sequence live scratch moves = (sequence live scratch pending).map (emitted ++ ·) ∧
    ∀ step rest, sequenceStep live scratch pending = some (step, rest) →
     (∀ n, step.2 = .reload n → ∃ r, (r, Step.store n) ∈ emitted) ∧
      ∀ n, step.2 = .store n → ∀ m ∈ pending, m.2 ≠ .slot n := by
 have hp := pending_start constant regs hdis hwf
 obtain ⟨steps, final, hseq, hexec, hdeliver, hframe⟩ :=
  sequence_run constant _ live scratch _ moves _ rfl hp
 have hnoslot : ∀ m ∈ moves, ∀ n, m.2 ≠ .slot n := by
  intro m hm n hs
  have h := hwf m hm
  rw [Move.WellFormed, hs] at h
  exact h
 refine ⟨steps, final, hseq, hexec, fun m hm hguard => ?_, fun r hr hout => ?_,
  fun emitted pending hreach => ⟨sequence_of_reaches hreach, fun step rest hstep => ?_⟩⟩
 · rw [hdeliver m hm hguard]
   exact hp.supplies m hm
 · apply contents_congr
   intro u hu
   refine hframe u (guarded_of_mem_live scratch hr u hu) fun m hm => ?_
   intro hcov
   exact PhysReg.not_covers_of_not_overlaps (hout m hm) hcov hu
 · exact slots_in_order hnoslot hreach hstep

end Machine

/-! ## A scratch register may be a destination already written -/

/-- A file of four single registers. -/
def gpr : RegClassId :=
 ⟨0, { name := "GPR", file := "GPR", registers := [0, 1, 2, 3], groupWidth := 1,
       view := { bitOffset := 0, merge := false } }⟩

/-- The supply that offers the given indices of `gpr`. -/
def gprSupply (indices : List Nat) : ScratchSupply where
 supply c := if c = gpr then indices.map fun i => (gpr, i) else []
 ofClass := by
  intro c r hr
  split at hr
  · grind
  · nomatch hr

/-- A chain into register 3 and a swap of registers 1 and 2. -/
def chainAndSwap : List Move :=
 [((gpr, 3), .reg (gpr, 0)), ((gpr, 1), .reg (gpr, 2)), ((gpr, 2), .reg (gpr, 1))]

theorem chainAndSwap_disjoint : DisjointDests chainAndSwap := by
 unfold DisjointDests
 decide

theorem chainAndSwap_wellFormed : ∀ m ∈ chainAndSwap, m.WellFormed := by
 intro m hm
 simp only [chainAndSwap, List.mem_cons, List.not_mem_nil, or_false] at hm
 rcases hm with rfl | rfl | rfl <;> rfl

/-- With nothing live, register 3 is written first and then used to break the swap. -/
theorem sequence_chainAndSwap : sequence [] (gprSupply [3]) chainAndSwap =
   some [((gpr, 3), .move (gpr, 0)), ((gpr, 3), .move (gpr, 1)), ((gpr, 1), .move (gpr, 2)),
    ((gpr, 2), .move (gpr, 3))] := by
 decide +kernel

/-- The proviso on scratch registers is needed: with register 3 both a destination and the only
scratch register, and nothing live, the value delivered to it is lost. -/
theorem scratch_overwrites_destination : ¬ ∀ (live : List PhysReg) (scratch : ScratchSupply) (moves : List Move)
    (regs : RegUnit → Nat), DisjointDests moves → (∀ m ∈ moves, m.WellFormed) →
    ∃ steps final, sequence live scratch moves = some steps ∧
     exec (fun _ _ => 0) steps (Machine.start regs) = some final ∧
     ∀ m ∈ moves, m.2.value (fun _ _ => 0) (Machine.start regs) m.1.width =
      some (contents final.regs m.1) := by
 intro hall
 obtain ⟨steps, final, hseq, hexec, hdeliver⟩ := hall [] (gprSupply [3]) chainAndSwap
  (fun u => u.2) chainAndSwap_disjoint chainAndSwap_wellFormed
 rw [sequence_chainAndSwap, some.injEq] at hseq
 subst hseq
 simp only [exec, execStep, bind_some, some.injEq] at hexec
 subst hexec
 have hlost := hdeliver ((gpr, 3), .reg (gpr, 0)) (by decide)
 revert hlost
 decide

/-- With the destinations live the swap goes through a slot and every value arrives. -/
theorem sequence_delivers_chainAndSwap : ∃ steps final,
   sequence [(gpr, 1), (gpr, 2), (gpr, 3)] (gprSupply [3]) chainAndSwap = some steps ∧
    exec (fun _ _ => 0) steps (Machine.start fun u => u.2) = some final ∧
    contents final.regs (gpr, 3) = [0] ∧ contents final.regs (gpr, 1) = [2] ∧
    contents final.regs (gpr, 2) = [1] := by
 obtain ⟨steps, final, hseq, hexec, hdeliver, -, -⟩ :=
  sequence_delivers (fun _ _ => 0) [(gpr, 1), (gpr, 2), (gpr, 3)] (gprSupply [3]) chainAndSwap
   chainAndSwap_disjoint chainAndSwap_wellFormed (fun u => u.2)
 have h3 := hdeliver ((gpr, 3), .reg (gpr, 0)) (by decide)
  (guarded_of_mem_live _ (by decide))
 have h1 := hdeliver ((gpr, 1), .reg (gpr, 2)) (by decide)
  (guarded_of_mem_live _ (by decide))
 have h2 := hdeliver ((gpr, 2), .reg (gpr, 1)) (by decide)
  (guarded_of_mem_live _ (by decide))
 refine ⟨steps, final, hseq, hexec, ?_, ?_, ?_⟩
 · exact (some.inj h3).symm
 · exact (some.inj h1).symm
 · exact (some.inj h2).symm

/-! ## What the steps of an edge spare -/

section

variable {α : Type} {constant : OpId → Nat → α} {p : PhysReg} {s t : Machine α}

/-- A store changes no register, another step none that its own does not overlap. -/
theorem execStep_contents {step : PhysReg × Step} (hstep : execStep constant s step = some t)
  (h : (∃ n, step.2 = .store n) ∨ p.overlaps step.1 = false) : contents t.regs p = contents s.regs p := by
 obtain ⟨dst, kind⟩ := step
 refine contents_congr fun u hu => ?_
 rcases h with ⟨n, rfl⟩ | hov
 · cases hstep
   rfl
 · have hout := PhysReg.not_covers_of_not_overlaps hov hu
   cases kind with
   | reload n =>
    obtain ⟨values, -, rfl⟩ := map_eq_some_iff.1 hstep
    exact write_of_not_covers hout
   | _ =>
    cases hstep
    first | rfl | exact write_of_not_covers hout

theorem exec_contents {steps : List (PhysReg × Step)} (hexec : exec constant steps s = some t)
  (h : ∀ step ∈ steps, (∃ n, step.2 = .store n) ∨ p.overlaps step.1 = false) : contents t.regs p = contents s.regs p := by
 induction steps generalizing s with
 | nil => cases hexec; rfl
 | cons step steps ih =>
  obtain ⟨next, hstep, hrest⟩ := bind_eq_some_iff.1 hexec
  obtain ⟨hfirst, h⟩ := forall_mem_cons.1 h
  exact (ih hrest h).trans (execStep_contents hstep hfirst)

/-- What a step writes is a destination, or a scratch register that is free of any use. -/
theorem sequence_writes (abi : AbiInfo) (taken live : List PhysReg) (moves : List Move) :
  ∃ steps, sequence live (.ofAbi abi taken) moves = some steps ∧ ∀ step ∈ steps, (∃ n, step.2 = .store n) ∨
   step.1 ∈ moves.map Prod.fst ∨ Allocatable abi step.1.1 step.1 ∧ unsaved abi taken step.1 = false ∧
    ∀ l ∈ live, l.overlaps step.1 = false := by
 induction hk : work moves using Nat.strong_induction_on generalizing moves with
 | _ k ih =>
  rw [sequence]
  by_cases hne : moves = []
  · exact ⟨[], by rw [hne]; rfl, by simp⟩
  · obtain ⟨⟨step, rest⟩, hstep⟩ := isSome_iff_exists.1 (sequenceStep_isSome live (.ofAbi abi taken) hne)
    obtain ⟨steps, hsteps, hall⟩ := ih _ (hk ▸ sequenceStep_work_lt hstep) rest rfl
    refine ⟨step :: steps, by grind, forall_mem_cons.2 ?_⟩
    rcases sequenceStep_cases hstep with ⟨i, m, hm, -, rfl, rfl⟩ | ⟨_, aside, -, -, -, hplace⟩
    · exact ⟨.inr (.inl (mem_map_of_mem (mem_of_getElem? hm))), fun step hs =>
       (hall step hs).imp_right (.imp_left fun hdst => ((eraseIdx_sublist ..).map _).subset hdst)⟩
    · have hfst : rest.map Prod.fst = moves.map Prod.fst := by grind [redirect_map_fst]
      rw [hfst] at hall
      refine ⟨?_, hall⟩
      rcases hplace with ⟨free, hfree, hbusy, rfl, -⟩ | ⟨slot, -, rfl, -⟩
      · obtain ⟨horder, hsaved⟩ := mem_filter.1 hfree
        have halloc := allocationOrder_spec abi _ free horder
        exact .inr (.inr ⟨halloc.ofClass ▸ halloc, by simpa using hsaved, (not_busy hbusy).1⟩)
      · exact .inl ⟨slot, rfl⟩

/-- **A sequenced copy spares what is not its own.** The loop ends, and no run of its steps changes a register outside the
destinations that is live, has a fixed role, or is saved by the callee with no value in it to have it saved. -/
theorem sequence_spares (constant : OpId → Nat → α) (abi : AbiInfo) (taken live : List PhysReg) (moves : List Move) :
  ∃ steps, sequence live (.ofAbi abi taken) moves = some steps ∧ ∀ s t, exec constant steps s = some t →
   ∀ p, (∀ m ∈ moves, p.overlaps m.1 = false) →
    p ∈ live ∨ p ∈ abi.roles ∨ p ∈ abi.calleeSaved ∧ (∀ r ∈ taken, r.overlaps p = false) →
    contents t.regs p = contents s.regs p := by
 obtain ⟨steps, hsteps, hwrites⟩ := sequence_writes abi taken live moves
 refine ⟨steps, hsteps, fun s t hexec p hdst hp => exec_contents hexec fun step hstep => (hwrites step hstep).imp_right ?_⟩
 rintro (hmem | ⟨halloc, hsaved, hlive⟩)
 · obtain ⟨m, hm, heq⟩ := mem_map.1 hmem
   exact heq ▸ hdst m hm
 · rcases hp with hp | hp | ⟨hp, htaken⟩
   · exact hlive p hp
   · exact (PhysReg.overlaps_comm ..).trans (halloc.noRole p hp)
   · have hunused : (taken.any fun r => r.overlaps p) = false := List.any_eq_false.2 fun r hr => by simp [htaken r hr]
     have hused := List.any_eq_false.1 hsaved p hp
     simpa [hunused] using hused

end

end Tir.RegAlloc
