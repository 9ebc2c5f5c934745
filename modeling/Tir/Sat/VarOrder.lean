import Mathlib.Tactic

/-!
# The queue of branching variables

Model of the variable order of the SAT solver (`libs/symbolic/src/sat/mod.rs`): a binary heap of
variables, with the slot of each, sorted by activity. Activities are floating point in the source.
The model takes them from any type with any operations and any comparison (`Ranking`), so nothing
proved below rests on how variables are ranked: whatever the comparison answers, the operations
keep the table of slots in step with the heap (`Slots`), and change the queued variables only as
`queue` and `unqueueTop` say.
-/

open List Function Nat

namespace Tir.Sat

/-- The arithmetic of activities: what `f64` offers the solver. No law is assumed of it. -/
structure Ranking (A : Type) where
 /-- `0.0`. -/
 zero : A
 /-- `1.0`. -/
 one : A
 plus : A → A → A
 /-- `> 1e100`. -/
 exceeds : A → Bool
 /-- `* 1e-100`. -/
 shrink : A → A
 /-- `/ 0.95`. -/
 grow : A → A
 /-- `>` on pairs of an activity and a variable. -/
 above : A × Nat → A × Nat → Bool

/-- The fields `activity`, `var_inc`, `order` and `order_slot`; a slot is `none` where the source
has `usize::MAX`. -/
structure VarOrder (A : Type) where
 activity : Nat → A
 varInc : A
 order : List Nat
 slot : Nat → Option Nat

namespace VarOrder

variable {A : Type} (r : Ranking A)

def ahead (o : VarOrder A) (a b : Nat) : Bool := r.above (o.activity a, a) (o.activity b, b)

def swapSlots (o : VarOrder A) (a b : Nat) : VarOrder A :=
 let x := o.order.getD a 0
 let y := o.order.getD b 0
 { o with
   order := (o.order.set a y).set b x
   slot := update (update o.slot y (some a)) x (some b) }

/-- The loop of `Solver::sift_up`; the slot halves in every turn. -/
def siftUpLoop : Nat → VarOrder A → Nat → VarOrder A
 | 0, o, _ => o
 | fuel + 1, o, slot =>
  let parent := (slot - 1) / 2
  if slot = 0 then o
  else if o.ahead r (o.order.getD slot 0) (o.order.getD parent 0) then
   siftUpLoop fuel (o.swapSlots slot parent) parent
  else o

def siftUp (o : VarOrder A) (slot : Nat) : VarOrder A := siftUpLoop r slot o slot

/-- The child to prefer over the variable in slot `first`. -/
def better (o : VarOrder A) (first child : Nat) : Nat :=
 if child < o.order.length ∧ o.ahead r (o.order.getD child 0) (o.order.getD first 0) then child
 else first

/-- The loop of `Solver::sift_down`; the slot grows in every turn. -/
def siftDownLoop : Nat → VarOrder A → Nat → VarOrder A
 | 0, o, _ => o
 | fuel + 1, o, slot =>
  let first := o.better r (o.better r slot (2 * slot + 1)) (2 * slot + 2)
  if first = slot then o else siftDownLoop fuel (o.swapSlots slot first) first

def siftDown (o : VarOrder A) (slot : Nat) : VarOrder A := siftDownLoop r o.order.length o slot

def queue (o : VarOrder A) (var : Nat) : VarOrder A :=
 match o.slot var with
 | some _ => o
 | none =>
  siftUp r
   { o with
     order := o.order ++ [var]
     slot := update o.slot var (some o.order.length) }
   o.order.length

/-- `Vec::swap_remove(0)`. -/
def swapRemoveFirst : List Nat → List Nat
 | [] => []
 | [_] => []
 | _ :: x :: rest => (x :: rest).getLast (cons_ne_nil x rest) :: (x :: rest).dropLast

/-- `Solver::unqueue_top`, given the first variable of the heap. -/
def unqueueTop (o : VarOrder A) (top : Nat) : VarOrder A :=
 let order := swapRemoveFirst o.order
 let slot := update o.slot top none
 match order.head? with
 | none => { o with order, slot }
 | some moved => siftDown r { o with order, slot := update slot moved (some 0) } 0

/-- Scale every activity down and restore the heap. -/
def rescale (o : VarOrder A) : VarOrder A :=
 (List.range (o.order.length / 2)).reverse.foldl (fun o slot => siftDown r o slot)
  { o with activity := fun v => r.shrink (o.activity v), varInc := r.shrink o.varInc }

def bump (o : VarOrder A) (var : Nat) : VarOrder A :=
 let raised := r.plus (o.activity var) o.varInc
 let o := { o with activity := update o.activity var raised }
 let o := if r.exceeds raised then rescale r o else o
 match o.slot var with
 | some slot => siftUp r o slot
 | none => o

def decay (o : VarOrder A) : VarOrder A := { o with varInc := r.grow o.varInc }

/-! ## Slots -/

/-- The table of slots is the inverse of the heap. -/
def Slots (o : VarOrder A) : Prop := ∀ v i, o.slot v = some i ↔ o.order[i]? = some v

/-- What no reordering changes: the slots stay right, and the same variables are queued. -/
structure Reordered (o o' : VarOrder A) : Prop where
 slots : Slots o'
 length : o'.order.length = o.order.length
 mem : ∀ v, v ∈ o'.order ↔ v ∈ o.order

variable {r} {o o' o'' : VarOrder A}

theorem Slots.reordered (h : Slots o) : Reordered o o := ⟨h, rfl, fun _ => Iff.rfl⟩

theorem Reordered.trans (h : Reordered o o') (h' : Reordered o' o'') : Reordered o o'' :=
 ⟨h'.slots, h'.length.trans h.length, fun v => (h'.mem v).trans (h.mem v)⟩

theorem Slots.mem_iff (h : Slots o) (v : Nat) : v ∈ o.order ↔ (o.slot v).isSome := by
 rw [Option.isSome_iff_exists, mem_iff_getElem?]
 exact exists_congr fun i => (h v i).symm

theorem swapSlots_reordered (h : Slots o) {a b : Nat} (ha : a < o.order.length)
  (hb : b < o.order.length) : Reordered o (o.swapSlots a b) := by
 have hx : o.order[a]? = some (o.order.getD a 0) := by simp [ha]
 have hy : o.order[b]? = some (o.order.getD b 0) := by simp [hb]
 simp only [swapSlots]
 generalize o.order.getD a 0 = x at hx ⊢
 generalize o.order.getD b 0 = y at hy ⊢
 have hlookup : ∀ i, ((o.order.set a y).set b x)[i]? =
   if i = b then some x else if i = a then some y else o.order[i]? := by
  grind
 refine ⟨fun v i => ?_, by simp, fun v => ?_⟩
 · rw [hlookup]
   have hvi := h v i
   have hxa := (h x a).2 hx
   have hyb := (h y b).2 hy
   grind
 · rw [mem_iff_getElem?, mem_iff_getElem?]
   grind

/-! ## Sifting -/

theorem siftUpLoop_reordered (fuel : Nat) : ∀ (o : VarOrder A) (slot : Nat), Slots o →
  slot < o.order.length → Reordered o (siftUpLoop r fuel o slot) := by
 induction fuel with
 | zero => exact fun o slot h _ => h.reordered
 | succ fuel ih =>
  intro o slot h hslot
  simp only [siftUpLoop]
  split
  · exact h.reordered
  · split
    · have hswap := swapSlots_reordered h hslot
       (show (slot - 1) / 2 < o.order.length by omega)
      exact hswap.trans (ih _ _ hswap.slots (by rw [hswap.length]; omega))
    · exact h.reordered

theorem siftUp_reordered (h : Slots o) {slot : Nat} (hslot : slot < o.order.length) : Reordered o (siftUp r o slot) :=
 siftUpLoop_reordered slot o slot h hslot

theorem better_lt {first child : Nat} (h : first < o.order.length) :
  o.better r first child < o.order.length := by
 unfold better
 split
 · rename_i hchild
   exact hchild.1
 · exact h

theorem siftDownLoop_reordered (fuel : Nat) : ∀ (o : VarOrder A) (slot : Nat), Slots o →
  slot < o.order.length → Reordered o (siftDownLoop r fuel o slot) := by
 induction fuel with
 | zero => exact fun o slot h _ => h.reordered
 | succ fuel ih =>
  intro o slot h hslot
  simp only [siftDownLoop]
  have hfst : o.better r (o.better r slot (2 * slot + 1)) (2 * slot + 2) < o.order.length :=
   better_lt (better_lt hslot)
  split
  · exact h.reordered
  · have hswap := swapSlots_reordered h hslot hfst
    exact hswap.trans (ih _ _ hswap.slots (by rw [hswap.length]; exact hfst))

theorem siftDown_reordered (h : Slots o) {slot : Nat} (hslot : slot < o.order.length) :
  Reordered o (siftDown r o slot) :=
 siftDownLoop_reordered o.order.length o slot h hslot

/-! ## Queueing and unqueueing -/

/-- After `queue` the variable is queued, and nothing else has changed. -/
theorem queue_spec (h : Slots o) (var : Nat) :
  Slots (queue r o var) ∧ ∀ v, v ∈ (queue r o var).order ↔ v = var ∨ v ∈ o.order := by
 unfold queue
 cases hslot : o.slot var with
 | some i =>
  have hmem : var ∈ o.order := (h.mem_iff var).2 (by rw [hslot]; rfl)
  grind
 | none =>
  have hpush : Slots
    { o with
      order := o.order ++ [var]
      slot := update o.slot var (some o.order.length) } := by
   intro v i
   have hvi := h v i
   grind
  have hsift : Reordered _ (siftUp r _ o.order.length) :=
   siftUp_reordered hpush (by simp)
  refine ⟨hsift.slots, fun v => ?_⟩
  rw [hsift.mem]
  simp [or_comm]

/-- What `swap_remove(0)` leaves: a permutation of the tail. -/
theorem swapRemoveFirst_perm (top : Nat) (rest : List Nat) :
  (swapRemoveFirst (top :: rest)).Perm rest := by
 cases rest with
 | nil => exact .nil
 | cons x rest =>
  have hlast := dropLast_append_getLast (cons_ne_nil x rest)
  exact (perm_append_singleton _ _).symm.trans (Perm.of_eq hlast)

/-- Every slot but the first, up to the last, is left as it is; the first takes the last. -/
theorem swapRemoveFirst_getElem? (top x : Nat) (rest : List Nat) (i : Nat) : (swapRemoveFirst (top :: x :: rest))[i]? =
   if i = 0 then (x :: rest)[rest.length]?
   else if i ≤ rest.length then (top :: x :: rest)[i]? else none := by
 cases i with
 | zero => simp [swapRemoveFirst, getLast_eq_getElem]
 | succ i =>
  simp only [swapRemoveFirst, getElem?_cons_succ, getElem?_dropLast,
   length_cons]
  grind

/-- `unqueueTop` takes the first variable of the heap out, and nothing else. -/
theorem unqueueTop_spec (h : Slots o) {top : Nat} {rest : List Nat} (horder : o.order = top :: rest) :
  Slots (unqueueTop r o top) ∧ (unqueueTop r o top).order.length = rest.length ∧
   ∀ v, v ∈ (unqueueTop r o top).order ↔ v ∈ rest := by
 have hperm := swapRemoveFirst_perm top rest
 have htop : o.slot top = some 0 := (h top 0).2 (by rw [horder]; rfl)
 unfold unqueueTop
 rw [horder]
 cases rest with
 | nil =>
  refine ⟨fun v i => ?_, rfl, fun v => Iff.rfl⟩
  show update o.slot top none v = some i ↔ ([] : List Nat)[i]? = some v
  have hvi := h v i
  rw [horder] at hvi
  grind
 | cons x rest =>
  have hhead : (swapRemoveFirst (top :: x :: rest)).head? = (x :: rest)[rest.length]? := by
   rw [head?_eq_getElem?, swapRemoveFirst_getElem?]
   rfl
  have hlast : (x :: rest)[rest.length]? =
    some ((x :: rest).get ⟨rest.length, lt_succ_self _⟩) := by simp
  generalize (x :: rest).get ⟨rest.length, lt_succ_self _⟩ = moved at hlast
  simp only [hhead, hlast]
  have hslots : Slots
    { o with
      order := swapRemoveFirst (top :: x :: rest)
      slot := update (update o.slot top none) moved (some 0) } := by
   intro v i
   have hvi := h v i
   have hmoved := h moved (rest.length + 1)
   have hvmoved := h v (rest.length + 1)
   rw [horder] at hvi hmoved hvmoved
   simp only [swapRemoveFirst_getElem?, update_apply]
   grind
  have hsift : Reordered _ (siftDown r _ 0) :=
   siftDown_reordered hslots (by rw [hperm.length_eq]; exact succ_pos _)
  exact ⟨hsift.slots, hsift.length.trans hperm.length_eq,
   fun v => (hsift.mem v).trans hperm.mem_iff⟩

/-! ## Bumping -/

theorem rescale_reordered (h : Slots o) : Reordered o (rescale r o) := by
 have hslots : ∀ slots : List Nat, (∀ i ∈ slots, i < o.order.length) → ∀ o' : VarOrder A,
   Reordered o o' → Reordered o (slots.foldl (siftDown r) o') := by
  intro slots
  induction slots with
  | nil => exact fun _ o' ho' => ho'
  | cons i slots ih =>
   intro hlt o' ho'
   have hi : i < o'.order.length := by
    rw [ho'.length]
    exact hlt i (.head _)
   exact ih (fun j hj => hlt j (.tail _ hj)) _
    (ho'.trans (siftDown_reordered ho'.slots hi))
 refine hslots _ (fun i hi => ?_) _ ⟨h, rfl, fun v => Iff.rfl⟩
 grind

/-- Bumping a variable reorders the heap. -/
theorem bump_reordered (h : Slots o) (var : Nat) : Reordered o (bump r o var) := by
 have hraise : Reordered o
   { o with
     activity := update o.activity var (r.plus (o.activity var) o.varInc) } :=
  ⟨h, rfl, fun v => Iff.rfl⟩
 have hscale : Reordered o
   (if r.exceeds (r.plus (o.activity var) o.varInc) then
    rescale r
     { o with
       activity := update o.activity var (r.plus (o.activity var) o.varInc) }
   else
    { o with
      activity := update o.activity var (r.plus (o.activity var) o.varInc) }) := by
  split
  · exact hraise.trans (rescale_reordered hraise.slots)
  · exact hraise
 simp only [bump]
 split
 · rename_i slot hslot
   have hget := (hscale.slots var slot).1 hslot
   exact hscale.trans (siftUp_reordered hscale.slots (List.getElem?_eq_some_iff.1 hget).1)
 · exact hscale

end VarOrder

end Tir.Sat
