import Tir.RegAlloc.Belady
import Mathlib.Data.List.Perm.Basic

/-!
# Filling slots is a parallel copy

`Spiller.fill` ends on every list of transfers (`Spiller.fill_returns`), with an error only when
it would reload a pinned value. Run in the order they were placed, its edits leave in the slot of
every parameter what its transfer read before the first of them (`Spiller.fillLoop_run`): a slot
is stored to once nothing left reads it, and what is set aside is read from there on. Where no
slot is read after it is filled, the stores from registers may also go first
(`Spiller.fillLoop_unordered`).
-/

open List Function Nat

namespace Tir.RegAlloc.Belady

open Returns

variable {f : Function} {Val : Type} {constant : Nat → Val}

/-- The name was there before the next SSA value. -/
def Name.Old (next : Nat) : Name → Prop
 | .value id => id < next
 | .phi _ => True

theorem Name.Old.mono {n : Name} {next next' : Nat} (h : n.Old next) (hle : next ≤ next') :
  n.Old next' := by
 cases n with
 | value id => exact h.trans_le hle
 | phi index => trivial

/-- What a transfer reads. -/
def Transfer.read (f : Function) (constant : Nat → Val) (m : Machine Val) : Transfer → Val
 | .name held => m.regs held
 | .slot (.of value) =>
  match f.remat value with
  | some definition => constant definition
  | none => m.mem (.of value)
 | .slot (.aside value) => m.mem (.aside value)

/-- The error of a pinned value that would be reloaded. -/
def PinnedFault (f : Function) (fault : Fault) (value : Nat) : Prop :=
 value ∈ f.pinned ∧
  fault = .invalidRuleSet ("pinned %" ++ toString (f.valueOf value) ++ " would be reloaded")

theorem runEdits_append (l l' : List Edit) (m : Machine Val) :
  runEdits constant (l ++ l') m = runEdits constant l' (runEdits constant l m) := by
 rw [runEdits, foldl_append]
 rfl

/-! ## One reload -/

namespace Spiller

variable {s s' : Spiller} {block index value : Nat} {phase : Phase} {name : Name}

/-- The edits placed in the block, and nowhere else. -/
structure Placed (block : Nat) (s s' : Spiller) (new : List (Nat × Phase × Edit)) : Prop where
 next : s.next ≤ s'.next
 edits : s'.edits block = s.edits block ++ new
 others : ∀ other, other ≠ block → s'.edits other = s.edits other

variable {new : List (Nat × Phase × Edit)} {next next' param position fuel : Nat} {t : Nat × Transfer} {named : Phase}
 {rest : List (Nat × Transfer)}

theorem Placed.trans {s'' : Spiller} {new' : List (Nat × Phase × Edit)}
  (h : Placed block s s' new) (h' : Placed block s' s'' new') :
  Placed block s s'' (new ++ new') := by
 refine ⟨h.next.trans h'.next, ?_, fun other ho => ?_⟩
 · rw [h'.edits, h.edits, append_assoc]
 · rw [h'.others other ho, h.others other ho]

theorem placed_push (s : Spiller) (block index : Nat) (phase : Phase) (edit : Edit) :
  Placed block s (s.push block index phase edit) [(index, phase, edit)] :=
 ⟨le_rfl, by simp [push], fun other ho => by simp [push, ho]⟩

/-- A reload writes a fresh value from the slot, or replays its definition. -/
theorem reload_ok (h : s.reload f block index value phase = .ok (name, s')) :
  value ∉ f.pinned ∧ name = .value s.next ∧ s'.next = s.next + 1 ∧
   Placed block s s' [(index, phase, .reload (.of value) s.next (f.remat value))] := by
 rw [reload] at h
 by_cases hpin : value ∈ f.pinned
 · grind
 · rw [if_neg hpin] at h
   refine ⟨hpin, ?_⟩
   cases hr : f.remat value with
   | some definition =>
    simp only [hr, Except.ok.injEq, Prod.mk.injEq] at h
    obtain ⟨rfl, rfl⟩ := h
    by_cases hs : value ∈ s.replayed
    · simp only [hs, if_true, freshReg]
      exact ⟨trivial, rfl, le_succ _, by simp [push], fun other ho => by simp [push, ho]⟩
    · simp only [hs, if_false, freshReg]
      exact ⟨trivial, rfl, le_succ _, by simp [push], fun other ho => by simp [push, ho]⟩
   | none =>
    cases hs : f.shapes value with
    | none => simp only [hr, hs] at h; nomatch h
    | some shape =>
     simp only [hr, hs, Except.ok.injEq, Prod.mk.injEq] at h
     obtain ⟨rfl, rfl⟩ := h
     by_cases hst : value ∉ f.memory ∧ value ∉ s.stored
     · simp only [if_pos hst, freshReg]
       exact ⟨trivial, rfl, le_succ _, by simp [push],
        fun other ho => by simp [push, ho]⟩
     · simp only [if_neg hst, freshReg]
       exact ⟨trivial, rfl, le_succ _, by simp [push],
        fun other ho => by simp [push, ho]⟩

/-- A reload of a value with a shape fails only when the value is pinned. -/
theorem reload_error {fault : Fault} (hs : (f.shapes value).isSome)
  (h : s.reload f block index value phase = .error fault) : PinnedFault f fault value := by
 rw [reload] at h
 by_cases hpin : value ∈ f.pinned
 · rw [if_pos hpin] at h
   exact ⟨hpin, (Except.error.inj h).symm⟩
 grind

/-- The machine after a reload of a value: its fresh register has what a transfer of its slot
reads. -/
theorem run_reload (m : Machine Val) (value fresh : Nat) :
  Edit.run constant m (.reload (.of value) fresh (f.remat value)) =
   ⟨update m.regs (.value fresh) (Transfer.read f constant m (.slot (.of value))),
    m.mem⟩ := by
 cases h : f.remat value with
 | none => simp only [Edit.run, Transfer.read, h]
 | some definition => simp only [Edit.run, Transfer.read, h]

def code (new : List (Nat × Phase × Edit)) : List Edit :=
 new.map fun edit => edit.2.2

theorem code_append (new new' : List (Nat × Phase × Edit)) : code (new ++ new') = code new ++ code new' :=
 map_append

theorem read_congr {source : Transfer} {m m' : Machine Val} (hname : ∀ n, source = .name n → m'.regs n = m.regs n)
  (hslot : ∀ slot, source = .slot slot → m'.mem slot = m.mem slot) :
  source.read f constant m' = source.read f constant m := by
 cases source with
 | name n => exact hname n rfl
 | slot slot =>
  cases slot with
  | of value =>
   simp only [Transfer.read]
   grind
  | aside value => exact hslot _ rfl

/-! ## One transfer -/

section

variable {named : Phase} {source : Transfer} {s₁ : Spiller}

theorem takeTransfer_ok (hold : ∀ n, source = .name n → n.Old s.next)
  (h : s.takeTransfer f block index named source = .ok (phase, name, s₁)) :
  ∃ new, Placed block s s₁ new ∧ (∀ e ∈ new, e.1 = index ∧ e.2.1 = .copy) ∧
   (∀ n, source = .name n → phase = named ∧ name = n ∧ new = []) ∧ (∀ slot, source = .slot slot → phase = .copy) ∧
   ∀ (Val : Type) (constant : Nat → Val) (m : Machine Val), (runEdits constant (code new) m).mem = m.mem ∧
    (runEdits constant (code new) m).regs name = source.read f constant m ∧
    ∀ n : Name, n.Old s.next → (runEdits constant (code new) m).regs n = m.regs n := by
 have hfresh : ∀ n : Name, n.Old s.next → n ≠ .value s.next := by
  rintro n hn rfl
  exact absurd hn (lt_irrefl _)
 cases source with
 | name held =>
  obtain ⟨rfl, rfl, rfl⟩ := h
  refine ⟨[], ⟨le_rfl, (append_nil _).symm, fun _ _ => rfl⟩, by simp, ?_, ?_, ?_⟩
  · grind
  · nofun
  · exact fun Val constant m => ⟨rfl, rfl, fun _ _ => rfl⟩
 | slot slot =>
  cases slot with
  | of value =>
   rw [takeTransfer] at h
   cases hr : s.reload f block index value .copy with
   | error fault =>
    rw [hr] at h
    nomatch h
   | ok result =>
    obtain ⟨held, s2⟩ := result
    rw [hr] at h
    obtain ⟨rfl, rfl, rfl⟩ : Phase.copy = phase ∧ held = name ∧ s2 = s₁ := by
     simpa [Except.map] using h
    obtain ⟨-, rfl, -, hplaced⟩ := reload_ok hr
    refine ⟨_, hplaced, by simp, nofun, fun _ _ => rfl, ?_⟩
    intro Val constant m
    have hrun : runEdits constant
      (code [(index, .copy, .reload (.of value) s.next (f.remat value))]) m =
      Edit.run constant m (.reload (.of value) s.next (f.remat value)) := rfl
    rw [hrun, run_reload]
    exact ⟨rfl, update_self .., fun n hn => update_of_ne (hfresh n hn) ..⟩
  | aside value =>
   rw [takeTransfer] at h
   cases hs : f.shapes value with
   | none =>
    grind
   | some shape =>
    rw [hs] at h
    obtain ⟨rfl, rfl, rfl⟩ := h
    refine ⟨[(index, .copy, .reload (.aside value) s.next none)],
     ⟨le_succ _, by simp [push], fun other ho => by simp [push, ho]⟩, by simp,
     nofun, fun _ _ => rfl, ?_⟩
    intro Val constant m
    exact ⟨rfl, update_self .., fun n hn => update_of_ne (hfresh n hn) ..⟩

theorem takeTransfer_error {fault : Fault}
  (hshape : ∀ slot, source = .slot slot → (f.shapes (match slot with
   | .of value => value
   | .aside value => value)).isSome)
  (h : s.takeTransfer f block index named source = .error fault) :
  ∃ value, source = .slot (.of value) ∧ PinnedFault f fault value := by
 cases source with
 | name held => nomatch h
 | slot slot =>
  have hs := hshape slot rfl
  cases slot with
  | of value =>
   rw [takeTransfer] at h
   cases hr : s.reload f block index value .copy with
   | error fault' =>
    rw [hr] at h
    obtain rfl : fault' = fault := by simpa [Except.map] using h
    exact ⟨value, rfl, reload_error hs hr⟩
   | ok result =>
    rw [hr] at h
    nomatch h
  | aside value =>
   obtain ⟨shape, hshape⟩ := Option.isSome_iff_exists.1 hs
   simp only [takeTransfer, hshape] at h
   nomatch h

end

/-! ## Transfers -/

/-- A list of transfers `fill` may have in hand: to distinct memory parameters, from names there
are, and never from a slot set aside that is also still read. -/
structure Fillable (f : Function) (next : Nat) (transfers : List (Nat × Transfer)) : Prop where
 nodup : (transfers.map Prod.fst).Nodup
 memory : ∀ t ∈ transfers, t.1 ∈ f.memory
 shape : ∀ t ∈ transfers, ∀ slot, t.2 = .slot slot → (f.shapes (match slot with
  | .of value => value
  | .aside value => value)).isSome
 old : ∀ t ∈ transfers, ∀ n, t.2 = .name n → n.Old next
 asides : ∀ t ∈ transfers, ∀ value, t.2 = .slot (.aside value) → ¬ reads transfers value

variable {transfers : List (Nat × Transfer)}

section

variable (h : Fillable f next transfers) (hle : next ≤ next')

include h hle

theorem Fillable.sublist {part : List (Nat × Transfer)} (hsub : part.Sublist transfers) :
  Fillable f next' part := by
 refine ⟨h.nodup.sublist (hsub.map _), fun t ht => h.memory t (hsub.subset ht),
  fun t ht => h.shape t (hsub.subset ht),
  fun t ht n hn => (h.old t (hsub.subset ht) n hn).mono hle, fun t ht value hv hr => ?_⟩
 obtain ⟨u, hu, hread⟩ := hr
 exact h.asides t (hsub.subset ht) value hv ⟨u, hsub.subset hu, hread⟩

theorem Fillable.erase (position : Nat) : Fillable f next' (transfers.eraseIdx position) :=
 h.sublist hle (eraseIdx_sublist ..)

end

theorem map_fst_throughAside (transfers : List (Nat × Transfer)) (param : Nat) :
  (throughAside transfers param).map Prod.fst = transfers.map Prod.fst := by
 rw [throughAside, map_map]
 refine map_congr_left fun t _ => ?_
 by_cases h : t.2 = .slot (.of param) <;> simp [h]

theorem mem_throughAside (ht : t ∈ throughAside transfers param) : (t ∈ transfers ∧ t.2 ≠ .slot (.of param)) ∨
   (t.1, Transfer.slot (.of param)) ∈ transfers ∧ t.2 = .slot (.aside param) := by
 obtain ⟨u, hu, rfl⟩ := mem_map.1 ht
 by_cases h : u.2 = .slot (.of param)
 · grind
 grind

theorem not_reads_throughAside (param : Nat) : ¬ reads (throughAside transfers param) param := by
 rintro ⟨t, ht, hread⟩
 rcases mem_throughAside ht with ⟨-, hne⟩ | ⟨-, heq⟩
 · exact hne hread
 grind

theorem reads_of_throughAside
  (h : reads (throughAside transfers param) value) : reads transfers value := by
 obtain ⟨t, ht, hread⟩ := h
 rcases mem_throughAside ht with ⟨ht, -⟩ | ⟨-, heq⟩
 · exact ⟨t, ht, hread⟩
 grind

theorem Fillable.throughAside (h : Fillable f next transfers) (hle : next ≤ next') (hparam : param ∈ f.memory) :
  Fillable f next' (throughAside transfers param) := by
 refine ⟨by rw [map_fst_throughAside]; exact h.nodup, ?_, ?_, ?_, ?_⟩
 · intro t ht
   rcases mem_throughAside ht with ⟨ht, -⟩ | ⟨ht, -⟩
   · exact h.memory t ht
   · exact h.memory (t.1, .slot (.of param)) ht
 · intro t ht slot hslot
   rcases mem_throughAside ht with ⟨ht, -⟩ | ⟨-, heq⟩
   · exact h.shape t ht slot hslot
   · obtain rfl := Transfer.slot.inj (heq.symm.trans hslot)
     exact f.memory_shape param hparam
 · intro t ht n hn
   rcases mem_throughAside ht with ⟨ht, -⟩ | ⟨-, heq⟩
   · exact (h.old t ht n hn).mono hle
   · exact nomatch heq.symm.trans hn
 · intro t ht value hv hr
   rcases mem_throughAside ht with ⟨ht, -⟩ | ⟨-, heq⟩
   · exact h.asides t ht value hv (reads_of_throughAside hr)
   grind [not_reads_throughAside]

/-! ## The loop -/

/-- The transfer is out of a value's own slot. -/
def ofSlot (t : Nat × Transfer) : Bool :=
 match t.2 with
 | .slot (.of _) => true
 | _ => false

/-- The transfers still to make and the slots they read. -/
def pending (transfers : List (Nat × Transfer)) : Nat :=
 transfers.length + transfers.countP ofSlot

theorem pending_erase (h : transfers[position]? = some t) :
  pending (transfers.eraseIdx position) < pending transfers := by
 obtain ⟨hlt, -⟩ := List.getElem?_eq_some_iff.1 h
 have hlen := length_eraseIdx_of_lt hlt
 have hcnt : (transfers.eraseIdx position).countP ofSlot ≤ transfers.countP ofSlot :=
  (eraseIdx_sublist transfers position).countP_le
 simp only [pending]
 omega

theorem pending_throughAside (h : reads transfers param) :
  pending (throughAside transfers param) < pending transfers := by
 have hle : ∀ l : List (Nat × Transfer),
   (throughAside l param).countP ofSlot ≤ l.countP ofSlot := by
  intro l
  rw [throughAside, countP_map]
  refine countP_mono_left fun t _ ht => ?_
  by_cases hp : t.2 = .slot (.of param)
  · simp [ofSlot, hp] at ht
  · simpa [hp] using ht
 rw [pending, pending]
 refine Nat.add_lt_add_of_le_of_lt (by simp [throughAside]) ?_
 -- a transfer out of the slot no longer counts, and no other one starts to
 obtain ⟨t, ht, hread⟩ := h
 obtain ⟨before, after, rfl⟩ := append_of_mem ht
 have hcut : throughAside (before ++ t :: after) param =
   throughAside before param ++ (t.1, .slot (.aside param)) :: throughAside after param := by
  simp [throughAside, hread]
 have hone : ofSlot t = true := by simp [ofSlot, hread]
 have hnone : ofSlot (t.1, .slot (.aside param)) = false := rfl
 grind

/-- The turn of the loop with a slot that nothing left reads. -/
theorem fillLoop_take (hfind : (transfers.findIdx? fun u => ¬ reads transfers u.1) = some position)
  (ht : transfers[position]? = some t) : fillLoop f block index named (fuel + 1) transfers s =
   match s.takeTransfer f block index named t.2 with
   | .error fault => some (.error fault)
   | .ok (phase, name, s) =>
    fillLoop f block index named fuel (transfers.eraseIdx position)
     (s.push block index phase (.store (.of t.1) name)) := by
 cases transfers with
 | nil => simp at ht
 | cons first rest =>
  have hget : (first :: rest).getD position first = t := by
   rw [getD_eq_getElem?_getD, ht, Option.getD_some]
  rw [fillLoop]
  simp only [hfind, hget] <;> rfl

/-- The turn of the loop that sets a slot aside. -/
theorem fillLoop_aside {first : Nat × Transfer}
  (hfind : ((first :: rest).findIdx? fun u => ¬ reads (first :: rest) u.1) = none) :
  fillLoop f block index named (fuel + 1) (first :: rest) s =
   match s.reload f block index first.1 .copy with
   | .error fault => some (.error fault)
   | .ok (name, s) =>
    fillLoop f block index named fuel (throughAside (first :: rest) first.1)
     (s.push block index .copy (.store (.aside first.1) name)) := by
 rw [fillLoop]
 simp only [hfind] <;> rfl

/-- What a turn of the loop finds. -/
theorem findIdx_cases (transfers : List (Nat × Transfer)) :
  (∃ position t, (transfers.findIdx? fun u => ¬ reads transfers u.1) = some position ∧
   transfers[position]? = some t ∧ ¬ reads transfers t.1) ∨
  ((transfers.findIdx? fun u => ¬ reads transfers u.1) = none ∧
    ∀ t ∈ transfers, reads transfers t.1) := by
 cases hfind : transfers.findIdx? fun u => ¬ reads transfers u.1 with
 | some position =>
  obtain ⟨hlt, hp, -⟩ := findIdx?_eq_some_iff_getElem.1 hfind
  grind
 | none =>
  grind

/-- **The loop ends.** It fails only when it would reload a pinned value. -/
theorem fillLoop_returns (named : Phase) (h : Fillable f s.next transfers) :
  ∃ result, Returns (fun fuel => fillLoop f block index named fuel transfers s) result ∧
   ∀ fault, result = .error fault →
    ∃ value, reads transfers value ∧ PinnedFault f fault value := by
 -- a turn makes a transfer, or leaves fewer slots to read
 induction hk : pending transfers using Nat.strong_induction_on generalizing transfers s with
 | _ k ih =>
  cases transfers with
  | nil =>
   exact ⟨_, turn (fun _ => rfl) (pure _), nofun⟩
  | cons first rest =>
   rcases findIdx_cases (first :: rest) with ⟨position, t, hfind, ht, -⟩ | ⟨hfind, hall⟩
   · have hmem := mem_of_getElem? ht
     cases htake : s.takeTransfer f block index named t.2 with
     | error fault =>
      refine ⟨.error fault, turn (fun fuel => ?_) (pure _), ?_⟩
      · rw [fillLoop_take hfind ht, htake]
      · intro fault' hf
        cases hf
        obtain ⟨value, hsrc, hpin⟩ := takeTransfer_error (h.shape t hmem) htake
        exact ⟨value, ⟨t, hmem, hsrc⟩, hpin⟩
     | ok result =>
      obtain ⟨phase, name, s₁⟩ := result
      obtain ⟨new, hplaced, -⟩ := takeTransfer_ok (h.old t hmem) htake
      obtain ⟨result, hret, herr⟩ := ih _ (hk ▸ pending_erase ht)
       (s := s₁.push block index phase (.store (.of t.1) name))
       (h.erase hplaced.next position) rfl
      refine ⟨result, turn (fun fuel => ?_) hret, fun fault hf => ?_⟩
      · rw [fillLoop_take hfind ht, htake]
      · obtain ⟨value, ⟨u, hu, hread⟩, hpin⟩ := herr fault hf
        exact ⟨value, ⟨u, mem_of_mem_eraseIdx hu, hread⟩, hpin⟩
   · have hparam : first.1 ∈ f.memory := h.memory first (.head _)
     cases hreload : s.reload f block index first.1 .copy with
     | error fault =>
      have hpin := reload_error (f.memory_shape _ hparam) hreload
      exact absurd hpin.1 (f.memory_pinned _ hparam)
     | ok result =>
      obtain ⟨name, s₁⟩ := result
      obtain ⟨-, -, -, hplaced⟩ := reload_ok hreload
      obtain ⟨result, hret, herr⟩ := ih _
       (hk ▸ pending_throughAside (hall first (.head _)))
       (s := s₁.push block index .copy (.store (.aside first.1) name))
       (h.throughAside hplaced.next hparam) rfl
      refine ⟨result, turn (fun fuel => ?_) hret, fun fault hf => ?_⟩
      · rw [fillLoop_aside hfind, hreload]
      grind [reads_of_throughAside]

/-! ## What the edits of the loop do -/

/-- The rest of a list has no second transfer to the same parameter. -/
theorem Fillable.not_mem_erase (h : Fillable f next transfers) (ht : transfers[position]? = some t) :
  t.1 ∉ (transfers.eraseIdx position).map Prod.fst := by
 obtain ⟨hlt, hget⟩ := List.getElem?_eq_some_iff.1 ht
 have hperm := (getElem_cons_eraseIdx_perm hlt).map Prod.fst
 rw [hget] at hperm
 exact (nodup_cons.1 (hperm.nodup_iff.2 h.nodup)).1

theorem mem_erase_or_eq {u : Nat × Transfer} (ht : transfers[position]? = some t) (hu : u ∈ transfers) :
  u = t ∨ u ∈ transfers.eraseIdx position := by
 obtain ⟨hlt, hget⟩ := List.getElem?_eq_some_iff.1 ht
 have hperm := getElem_cons_eraseIdx_perm hlt
 grind

/-- Run in this order, the edits are the parallel copy of the transfers: they leave in the slot of
every parameter what its transfer read before the first of them, and the slot of every other
value as it was. -/
def Copied (f : Function) (transfers : List (Nat × Transfer)) (new : List (Nat × Phase × Edit)) : Prop :=
 ∀ (Val : Type) (constant : Nat → Val) (m : Machine Val),
  (∀ t ∈ transfers,
   (runEdits constant (code new) m).mem (.of t.1) = t.2.read f constant m) ∧
  ∀ value, value ∉ transfers.map Prod.fst →
   (runEdits constant (code new) m).mem (.of value) = m.mem (.of value)

section

variable (h : Fillable f s.next transfers)

include h

/-- A slot that nothing left reads is stored to, then the rest is copied. -/
theorem Copied.take {new1 new2 : List (Nat × Phase × Edit)} (ht : transfers[position]? = some t)
  (hfree : ¬ reads transfers t.1) (htake : ∀ (Val : Type) (constant : Nat → Val) (m : Machine Val),
   (runEdits constant (code new1) m).mem = m.mem ∧ (runEdits constant (code new1) m).regs name = t.2.read f constant m ∧
   ∀ n : Name, n.Old s.next → (runEdits constant (code new1) m).regs n = m.regs n)
  (hrest : Copied f (transfers.eraseIdx position) new2) :
  Copied f transfers (new1 ++ [(index, phase, .store (.of t.1) name)] ++ new2) := by
 intro Val constant m
 obtain ⟨hmem1, hname1, hold1⟩ := htake Val constant m
 rw [code_append, code_append, runEdits_append, runEdits_append]
 generalize hm2 : runEdits constant (code [(index, phase, Edit.store (.of t.1) name)])
  (runEdits constant (code new1) m) = m2
 have hregs2 : m2.regs = (runEdits constant (code new1) m).regs := by
  rw [← hm2]
  rfl
 have hmem2 : m2.mem = update m.mem (.of t.1) (t.2.read f constant m) := by
  rw [← hm2, ← hname1, ← hmem1]
  rfl
 obtain ⟨hfill, hkeep⟩ := hrest Val constant m2
 refine ⟨fun u hu => ?_, fun value hv => ?_⟩
 · rcases mem_erase_or_eq ht hu with rfl | hu'
   · rw [hkeep _ (h.not_mem_erase ht), hmem2, update_self]
   · rw [hfill u hu']
     refine read_congr (fun n hn => ?_) fun slot hslot => ?_
     · rw [hregs2]
       exact hold1 n (h.old u hu n hn)
     · rw [hmem2]
       refine update_of_ne ?_ _ _
       rintro rfl
       exact hfree ⟨u, hu, hslot⟩
 · have hne : value ≠ t.1 := by
    grind
   have hv' : value ∉ (transfers.eraseIdx position).map Prod.fst :=
    fun hv' => hv (((eraseIdx_sublist _ _).map _).subset hv')
   rw [hkeep value hv', hmem2, update_of_ne (by simpa using hne)]

/-- The slot of a parameter is set aside, then the rest is copied from there. -/
theorem Copied.aside (hparam : param ∈ f.memory) (hread : reads transfers param)
  (hrest : Copied f (throughAside transfers param) new) :
  Copied f transfers ([(index, .copy, .reload (.of param) s.next (f.remat param))] ++
   [(index, .copy, .store (.aside param) (.value s.next))] ++ new) := by
 intro Val constant m
 rw [code_append, runEdits_append]
 generalize hm2 : runEdits constant
  (code ([(index, .copy, Edit.reload (.of param) s.next (f.remat param))] ++
   [(index, .copy, .store (.aside param) (.value s.next))])) m = m2
 have hm₂' : m2 = ⟨update m.regs (.value s.next) (m.mem (.of param)),
   update m.mem (.aside param) (m.mem (.of param))⟩ := by
  rw [← hm2, f.memory_remat _ hparam]
  simp [code, runEdits, Edit.run]
 obtain ⟨hfill, hkeep⟩ := hrest Val constant m2
 refine ⟨fun u hu => ?_, fun value hv => ?_⟩
 · by_cases hu' : u.2 = .slot (.of param)
   · have hmem : (u.1, Transfer.slot (.aside param)) ∈ throughAside transfers param :=
      mem_map.2 ⟨u, hu, if_pos hu'⟩
     rw [hfill _ hmem, hu', hm₂']
     simp [Transfer.read, f.memory_remat _ hparam]
   · have hmem : u ∈ throughAside transfers param := mem_map.2 ⟨u, hu, if_neg hu'⟩
     rw [hfill u hmem, hm₂']
     refine read_congr (fun n hn => ?_) fun slot hslot => ?_
     · refine update_of_ne ?_ _ _
       rintro rfl
       exact lt_irrefl _ (h.old u hu _ hn)
     · refine update_of_ne ?_ _ _
       rintro rfl
       exact h.asides u hu _ hslot hread
 · rw [hkeep value (by rw [map_fst_throughAside]; exact hv), hm₂']
   grind

/-- **Filling is a parallel copy**, in the order its edits were placed. -/
theorem fillLoop_run (hloop : fillLoop f block index named fuel transfers s = some (.ok s')) :
  ∃ new, Placed block s s' new ∧ (∀ e ∈ new, e.1 = index ∧ (e.2.1 = .copy ∨ e.2.1 = named)) ∧
   Copied f transfers new := by
 induction fuel generalizing transfers s with
 | zero => nomatch hloop
 | succ fuel ih =>
  cases transfers with
  | nil =>
   obtain rfl : s = s' := by simpa [fillLoop] using hloop
   exact ⟨[], ⟨le_rfl, (append_nil _).symm, fun _ _ => rfl⟩, by simp,
    fun Val constant m => ⟨by simp, fun _ _ => rfl⟩⟩
  | cons first rest =>
   rcases findIdx_cases (first :: rest) with ⟨position, t, hfind, ht, hfree⟩ | ⟨hfind, hall⟩
   · have hmem := mem_of_getElem? ht
     rw [fillLoop_take hfind ht] at hloop
     cases htake : s.takeTransfer f block index named t.2 with
     | error fault =>
      grind
     | ok result =>
      obtain ⟨phase, name, s₁⟩ := result
      rw [htake] at hloop
      obtain ⟨new1, hplaced1, hphase1, hnamed, hslot, hrun1⟩ :=
       takeTransfer_ok (h.old t hmem) htake
      have hpush := placed_push s₁ block index phase (.store (.of t.1) name)
      have hnext : Fillable f (s₁.push block index phase (.store (.of t.1) name)).next
        ((first :: rest).eraseIdx position) := h.erase hplaced1.next position
      obtain ⟨new2, hplaced2, hphase2, hrun2⟩ := ih hnext hloop
      refine ⟨_, (hplaced1.trans hpush).trans hplaced2, fun e he => ?_,
       Copied.take h ht hfree hrun1 hrun2⟩
      rcases mem_append.1 he with he | he
      · rcases mem_append.1 he with he | he
        · exact ⟨(hphase1 e he).1, .inl (hphase1 e he).2⟩
        · rw [mem_singleton.1 he]
          cases hsrc : t.2 with
          | name n => exact ⟨rfl, .inr (hnamed n hsrc).1⟩
          | slot slot => exact ⟨rfl, .inl (hslot slot hsrc)⟩
      · exact hphase2 e he
   · have hparam : first.1 ∈ f.memory := h.memory first (.head _)
     rw [fillLoop_aside hfind] at hloop
     cases hreload : s.reload f block index first.1 .copy with
     | error fault =>
      grind
     | ok result =>
      obtain ⟨name, s₁⟩ := result
      rw [hreload] at hloop
      obtain ⟨-, rfl, -, hplaced1⟩ := reload_ok hreload
      have hpush := placed_push s₁ block index .copy
       (.store (.aside first.1) (.value s.next))
      have hnext : Fillable f
        (s₁.push block index .copy (.store (.aside first.1) (.value s.next))).next
        (throughAside (first :: rest) first.1) := h.throughAside hplaced1.next hparam
      obtain ⟨new2, hplaced2, hphase2, hrun2⟩ := ih hnext hloop
      refine ⟨_, (hplaced1.trans hpush).trans hplaced2, fun e he => ?_,
       Copied.aside h hparam (hall first (.head _)) hrun2⟩
      rcases mem_append.1 he with he | he
      · rcases mem_append.1 he with he | he
        · grind
        grind
      · exact hphase2 e he

end

/-! ## The stores from registers first -/

/-- The transfer is out of a slot. -/
def fromSlot (t : Nat × Transfer) : Bool :=
 match t.2 with
 | .slot _ => true
 | .name _ => false

/-- The edits store what registers hold, and nothing else. -/
def StoredNames (transfers : List (Nat × Transfer)) (new : List (Nat × Phase × Edit)) : Prop :=
 ∀ (Val : Type) (constant : Nat → Val) (m : Machine Val),
  (runEdits constant (code new) m).regs = m.regs ∧
  (∀ t ∈ transfers, ∀ n, t.2 = .name n →
   (runEdits constant (code new) m).mem (.of t.1) = m.regs n) ∧
  ∀ slot, (∀ t ∈ transfers, ∀ n, t.2 = .name n → slot ≠ .of t.1) →
   (runEdits constant (code new) m).mem slot = m.mem slot

theorem StoredNames.cons {n : Name} (hn : t.2 = .name n) (hnot : t.1 ∉ rest.map Prod.fst) (h : StoredNames rest new) :
  StoredNames (t :: rest) ((index, phase, .store (.of t.1) n) :: new) := by
 intro Val constant m
 obtain ⟨hregs, hnames, hkeep⟩ :=
  h Val constant ⟨m.regs, update m.mem (.of t.1) (m.regs n)⟩
 refine ⟨hregs, fun u hu k hk => ?_, fun slot hslot => ?_⟩
 · rcases mem_cons.1 hu with rfl | hu
   · obtain rfl := Transfer.name.inj (hn.symm.trans hk)
     refine (hkeep (.of u.1) fun v hv k _ heq => ?_).trans (update_self ..)
     exact hnot (mem_map.2 ⟨v, hv, (Slot.of.inj heq).symm⟩)
   · exact hnames u hu k hk
 · refine (hkeep slot fun u hu => hslot u (.tail _ hu)).trans ?_
   exact update_of_ne (hslot t mem_cons_self n hn) ..

/-- Where no slot is read after it is filled, the loop takes the transfers in their order. -/
theorem fillLoop_unordered (h : Fillable f s.next transfers) (hfree : ∀ t ∈ transfers, ¬ reads transfers t.1)
  (hloop : fillLoop f block index .edgeStore fuel transfers s = some (.ok s')) : ∃ new, Placed block s s' new ∧
   (∀ e ∈ new, e.1 = index ∧ (e.2.1 = .copy ∨ e.2.1 = .edgeStore)) ∧
   StoredNames transfers (new.filter fun e => e.2.1 = .edgeStore) ∧
   Copied f (transfers.filter fromSlot) (new.filter fun e => e.2.1 = .copy) := by
 induction fuel generalizing transfers s with
 | zero => cases hloop
 | succ fuel ih =>
  cases transfers with
  | nil =>
   obtain rfl : s = s' := by simpa [fillLoop] using hloop
   exact ⟨[], ⟨le_rfl, (append_nil _).symm, fun _ _ => rfl⟩, by simp,
    fun Val constant m => ⟨rfl, by simp, fun _ _ => rfl⟩,
    fun Val constant m => ⟨by simp, fun _ _ => rfl⟩⟩
  | cons first rest =>
   have hfst := hfree first (.head _)
   have hfind : ((first :: rest).findIdx? fun u => ¬ reads (first :: rest) u.1) = some 0 := by
    rw [findIdx?_cons, if_pos (by simpa using hfst)]
   have hrest : ∀ t ∈ rest, ¬ reads rest t.1 := fun t ht hread => by
    obtain ⟨u, hu, hread⟩ := hread
    exact hfree t (.tail _ ht) ⟨u, .tail _ hu, hread⟩
   rw [fillLoop_take hfind rfl] at hloop
   cases htake : s.takeTransfer f block index .edgeStore first.2 with
   | error fault =>
    grind
   | ok result =>
    obtain ⟨phase, name, s₁⟩ := result
    rw [htake] at hloop
    obtain ⟨new1, hplaced1, hphase1, hnamed, hslot, hrun1⟩ :=
     takeTransfer_ok (h.old first (.head _)) htake
    have hpush := placed_push s₁ block index phase (.store (.of first.1) name)
    have hnext : Fillable f (s₁.push block index phase (.store (.of first.1) name)).next
      rest := h.sublist hplaced1.next (sublist_cons_self ..)
    obtain ⟨new2, hplaced2, hphase2, hnames, hcopied⟩ := ih hnext hrest hloop
    have hnot : first.1 ∉ rest.map Prod.fst := (nodup_cons.1 h.nodup).1
    cases hsrc : first.2 with
    | name n =>
     -- a store from a register: no copy is placed
     obtain ⟨rfl, rfl, rfl⟩ := hnamed n hsrc
     refine ⟨_, (hplaced1.trans hpush).trans hplaced2, ?_, ?_, ?_⟩
     · intro e he
       rcases mem_cons.1 he with rfl | he
       · exact ⟨rfl, .inr rfl⟩
       · exact hphase2 e he
     · exact hnames.cons hsrc hnot
     · have hfrom : fromSlot first = false := by simp [fromSlot, hsrc]
       grind
    | slot slot =>
     -- through a register: no register is stored from
     obtain rfl := hslot slot hsrc
     have hedge : new1.filter (fun e => e.2.1 = .edgeStore) = [] := by
      refine filter_eq_nil_iff.2 fun e he => ?_
      simp [(hphase1 e he).2]
     have hcopy : new1.filter (fun e => e.2.1 = .copy) = new1 := by
      refine filter_eq_self.2 fun e he => ?_
      simp [(hphase1 e he).2]
     refine ⟨_, (hplaced1.trans hpush).trans hplaced2, ?_, ?_, ?_⟩
     · intro e he
       rcases mem_append.1 he with he | he
       · rcases mem_append.1 he with he | he
         · exact ⟨(hphase1 e he).1, .inl (hphase1 e he).2⟩
         grind
       · exact hphase2 e he
     · rw [filter_append, filter_append, hedge]
       intro Val constant m
       obtain ⟨hregs, hstored, hkeep⟩ := hnames Val constant m
       refine ⟨hregs, fun t ht n hn => ?_, fun slot hs => ?_⟩
       · rcases mem_cons.1 ht with rfl | ht
         · cases hsrc.symm.trans hn
         · exact hstored t ht n hn
       · exact hkeep slot fun t ht => hs t (.tail _ ht)
     · have hfrom : fromSlot first = true := by simp [fromSlot, hsrc]
       have hsub : (first :: rest.filter fromSlot).Sublist (first :: rest) :=
        filter_sublist.cons_cons first
       rw [filter_cons_of_pos hfrom, filter_append, filter_append, hcopy]
       have hhead : (first :: rest.filter fromSlot)[0]? = some first := rfl
       refine Copied.take (h.sublist le_rfl hsub) hhead ?_ hrun1 hcopied
       rintro ⟨u, hu, hread⟩
       exact hfst ⟨u, hsub.subset hu, hread⟩

/-- Stores from registers into slots that nothing reads, then the copies out of slots. -/
theorem StoredNames.copied {names copies : List (Nat × Phase × Edit)}
  (h : Fillable f next transfers) (hfree : ∀ t ∈ transfers, ¬ reads transfers t.1)
  (hnames : StoredNames transfers names) (hcopies : Copied f (transfers.filter fromSlot) copies) :
  Copied f transfers (names ++ copies) := by
 intro Val constant m
 obtain ⟨hregs, hstored, hkeep⟩ := hnames Val constant m
 rw [code_append, runEdits_append]
 obtain ⟨hfill, hrest⟩ := hcopies Val constant (runEdits constant (code names) m)
 have hslot : ∀ t ∈ transfers, ∀ slot, t.2 = .slot slot →
   (runEdits constant (code names) m).mem slot = m.mem slot := by
  intro t ht slot hsrc
  refine hkeep slot fun u hu n _ heq => hfree u hu ⟨t, ht, ?_⟩
  rw [hsrc, heq]
 refine ⟨fun t ht => ?_, fun value hv => ?_⟩
 · cases hsrc : t.2 with
   | slot slot =>
    have hmem : t ∈ transfers.filter fromSlot :=
     mem_filter.2 ⟨ht, by simp [fromSlot, hsrc]⟩
    rw [hfill t hmem, hsrc]
    refine read_congr nofun fun slot' heq => ?_
    exact hslot t ht slot' (hsrc.trans heq)
   | name n =>
    rw [hrest t.1, hstored t ht n hsrc]
    · rfl
    · intro hmem
      obtain ⟨u, hu, heq⟩ := mem_map.1 hmem
      obtain ⟨hu, hfrom⟩ := mem_filter.1 hu
      obtain rfl := inj_on_of_nodup_map h.nodup hu ht heq
      simp [fromSlot, hsrc] at hfrom
 grind

/-- **`fill` in the order of its phases**: the edge stores, then the copies. -/
theorem fill_run (h : Fillable f s.next transfers) (hfill : fill f block index transfers s fuel = some (.ok s')) :
  ∃ new, Placed block s s' new ∧ (∀ e ∈ new, e.1 = index ∧ (e.2.1 = .copy ∨ e.2.1 = .edgeStore)) ∧ Copied f transfers
    ((new.filter fun e => e.2.1 = .edgeStore) ++ new.filter fun e => e.2.1 = .copy) := by
 by_cases hord : ∃ t ∈ transfers, reads transfers t.1
 · rw [fill, if_pos hord] at hfill
   obtain ⟨new, hplaced, hphase, hcopied⟩ := fillLoop_run h hfill
   have hcopy : ∀ e ∈ new, e.2.1 = .copy := fun e he => (hphase e he).2.elim id id
   refine ⟨new, hplaced, fun e he => ⟨(hphase e he).1, .inl (hcopy e he)⟩, ?_⟩
   have hedge : new.filter (fun e => e.2.1 = .edgeStore) = [] := by
    refine filter_eq_nil_iff.2 fun e he => ?_
    simp [hcopy e he]
   have hall : new.filter (fun e => e.2.1 = .copy) = new := by
    refine filter_eq_self.2 fun e he => ?_
    simp [hcopy e he]
   rw [hedge, hall]
   exact hcopied
 · rw [fill, if_neg hord] at hfill
   have hfree : ∀ t ∈ transfers, ¬ reads transfers t.1 := fun t ht hread =>
    hord ⟨t, ht, hread⟩
   obtain ⟨new, hplaced, hphase, hnames, hcopies⟩ := fillLoop_unordered h hfree hfill
   exact ⟨new, hplaced, hphase, hnames.copied h hfree hcopies⟩

/-- `fill` ends, and fails only when it would reload a pinned value. -/
theorem fill_returns (block index : Nat) (h : Fillable f s.next transfers) :
  ∃ result, Returns (fun fuel => fill f block index transfers s fuel) result ∧ ∀ fault, result = .error fault →
    ∃ value, reads transfers value ∧ PinnedFault f fault value :=
 fillLoop_returns _ h

end Spiller

end Tir.RegAlloc.Belady
