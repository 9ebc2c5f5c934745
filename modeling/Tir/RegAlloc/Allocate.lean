import Tir.RegAlloc.AllocationOrder
import Tir.Pbqp.Feasible
import Mathlib.Data.List.GetD

/-!
# Assigning registers

Model of `allocate_with_affinities` (`core/src/backend/regalloc.rs`): every value of the coloring
order is a node of a PBQP problem whose alternatives are the registers its class leaves it; the
tables of the database become costs, and one solve picks a register for every value.

What the solve must not violate is an infinite cost, and an assignment is returned only when nobody
is at fault for one. The assignment hence keeps every constraint but one: when the class a value's
operands constrain it to is not a subclass of its pin's class, `resolveClass` answers the pin's
class, and the operand constraint is forgotten. The assignment respects all the constraints exactly
when every such class can encode its value's pin (`allocate_respects_iff`).
-/

namespace Tir.RegAlloc

open Tir.Pbqp PhysReg Problem RegClassId

/-- `RegAllocError`; both carry the offending virtual register. -/
inductive RegAllocError where
 | infeasible (vreg : Nat)
 | classConflict (vreg : Nat)
 deriving DecidableEq, Repr

/-- The classes a function references its virtual registers through. -/
structure Classes where
 vregClass : Nat → Option RegClassId
 allowedIndices : Nat → Option (List Nat)
 classConflicts : Nat → Bool

/-- The tables of the database the assignment reads. `register` are the registers tags name, and
`number` the number of the value an id names: a value is given one id. -/
structure RegAllocDb where
 register : Nat → PhysReg
 number : Nat → Nat
 /-- Rows `[register, value]`. -/
 forbid : List (Nat × Nat)
 /-- Rows `[weight, value]` tagged with a register. -/
 prefer : List (Nat × Nat × Nat)
 /-- Rows `[a, b]`. -/
 interfere : List (Nat × Nat)
 /-- Rows `[weight, a, b]`. -/
 affinity : List (Nat × Nat × Nat)
 number_injective : Function.Injective number

/-- What `allocate_with_affinities` is called with. -/
structure AllocInput where
 abi : AbiInfo
 db : RegAllocDb
 classes : Classes
 precolor : Nat → Option PhysReg
 /-- The file indices left to a value, one bit each. -/
 restricted : Nat → Option Nat
 order : List Nat

/-- `resolve_class`: the class a virtual register is allocated from. -/
def resolveClass (classes : Classes) (precolor : Nat → Option PhysReg)
  (defaultClass : Option RegClassId) (vreg : Nat) : Except RegAllocError RegClassId :=
 if classes.classConflicts vreg then .error (.classConflict vreg)
 else
  match classes.vregClass vreg, (precolor vreg).map Prod.fst with
  | some constraint, some pinned =>
   if constraint.isSubclassOf pinned then .ok constraint else .ok pinned
  | none, some pinned => .ok pinned
  | some constraint, none => .ok constraint
  | none, none =>
   match defaultClass with
   | some c => .ok c
   | none => .error (.infeasible vreg)

/-- `node_costs`, for one register. -/
def nodeCost (pinned : Option PhysReg) (forbidden : List PhysReg) (p : PhysReg) : Nat :=
 match pinned with
 | some target =>
  let conflict := forbidden.any fun f => f.overlaps target
  if !conflict && p.span == target.span then 0 else infCost
 | none => if forbidden.any fun f => f.overlaps p then infCost else 0

/-- `interference_matrix`; `none` when the lists share no physical register. -/
def interferenceMatrix (left right : List PhysReg) : Option Matrix :=
 if left.any fun l => right.any fun r => l.overlaps r then
  some fun row col =>
   match left[row]?, right[col]? with
   | some l, some r => if l.overlaps r then infCost else 0
   | _, _ => 0
 else none

def affinityMatrix (left right : List PhysReg) (weight : Nat) : Matrix := fun row col =>
 match left[row]?, right[col]? with
 | some l, some r => if l.span != r.span then weight else 0
 | _, _ => 0

/-- The ids of the order, each once, in the order of their first appearance; a position in the list
is a node. -/
def nodesOf (order : List Nat) : List Nat :=
 order.foldl (fun nodes id => if nodes.contains id then nodes else nodes ++ [id]) []

def nodeOf (nodes : List Nat) (id : Nat) : Option Nat :=
 if nodes.contains id then some (nodes.idxOf id) else none

/-- The registers a value must not take. -/
def forbiddenOf (db : RegAllocDb) (id : Nat) : List PhysReg :=
 (db.forbid.filter fun row => row.2 == id).map fun row => db.register row.1

/-- The registers a value prefers, with their weights. -/
def preferencesOf (db : RegAllocDb) (id : Nat) : List (PhysReg × Nat) :=
 (db.prefer.filter fun row => row.2.1 == id).map fun row => (db.register row.2.2, row.1)

/-- A register's cost after the preferences: one that is not the preferred register costs the
weight more. -/
def preferCost (preferences : List (PhysReg × Nat)) (actual : PhysReg) (cost : Nat) : Nat :=
 preferences.foldl
  (fun cost p =>
   if cost < infCost ∧ actual.span ≠ p.1.span then min (saturatingAdd cost p.2) infCost
   else cost)
  cost

/-- The registers of a class left to a value. A set is a `u64`; `none` is the panic of shifting it
by 64 or more. -/
def candidates (abi : AbiInfo) (c : RegClassId) (allowed : Option (List Nat))
  (restricted : Option Nat) : Option (List PhysReg) :=
 let registers := (allocationOrder abi c).filter fun r =>
  match allowed with
  | none => true
  | some allowed => allowed.contains r.2
 match restricted with
 | none => some registers
 | some set =>
  if registers.any fun r => decide (64 ≤ r.2) then none
  else some (registers.filter fun r => set.testBit r.2)

def valueCosts (inp : AllocInput) (id : Nat) (registers : List PhysReg) : List Nat :=
 registers.map fun p => preferCost (preferencesOf inp.db id) p
  (nodeCost (inp.precolor (inp.db.number id)) (forbiddenOf inp.db id) p)

/-- The nodes added so far: the problem, the distinct register lists and each node's list. -/
structure Build where
 problem : Problem
 lists : List (List PhysReg)
 nodeList : List Nat

def Build.registers (b : Build) (node : Nat) : List PhysReg :=
 b.lists.getD (b.nodeList.getD node 0) []

/-- The number of a register list, which is added unless it is there. -/
def intern (lists : List (List PhysReg)) (registers : List PhysReg) : List (List PhysReg) × Nat :=
 if lists.contains registers then (lists, lists.idxOf registers)
 else (lists ++ [registers], lists.length)

/-- Add a node for each value; `none` is a panic. -/
def buildNodes (inp : AllocInput) : List Nat → Build → Option (Except RegAllocError Build)
 | [], b => some (.ok b)
 | id :: rest, b =>
  let vreg := inp.db.number id
  match resolveClass inp.classes inp.precolor inp.abi.defaultIntegerClass vreg with
  | .error e => some (.error e)
  | .ok c =>
   match candidates inp.abi c (inp.classes.allowedIndices vreg) (inp.restricted vreg) with
   | none => none
   | some registers =>
    let (lists, list) := intern b.lists registers
    let costs := valueCosts inp id (lists.getD list [])
    if costs.all fun c => decide (infCost ≤ c) then some (.error (.infeasible vreg))
    else
     match b.problem.addNode costs with
     | none => none
     | some problem =>
      buildNodes inp rest { problem, lists, nodeList := b.nodeList ++ [list] }

/-- The interference matrices built so far, by the pair of lists they are between. -/
abbrev MatrixCache := List ((Nat × Nat) × Option Matrix)

/-- The matrix between two lists, built unless it is cached. -/
def cachedMatrix (lists : List (List PhysReg)) (cache : MatrixCache) (lu lv : Nat) : MatrixCache × Option Matrix :=
 match cache.lookup (lu, lv) with
 | some matrix => (cache, matrix)
 | none =>
  let matrix := interferenceMatrix (lists.getD lu []) (lists.getD lv [])
  (cache ++ [((lu, lv), matrix)], matrix)

/-- Add an edge for each pair of interfering values; `none` is the panic on a self-edge. -/
def addInterferences (b : Build) (nodes : List Nat) : List (Nat × Nat) → MatrixCache → Problem → Option Problem
 | [], _, problem => some problem
 | row :: rest, cache, problem =>
  match nodeOf nodes row.1, nodeOf nodes row.2 with
  | some a, some b' =>
   let u := min a b'
   let v := max a b'
   let (cache, matrix) :=
    cachedMatrix b.lists cache (b.nodeList.getD u 0) (b.nodeList.getD v 0)
   match matrix with
   | none => addInterferences b nodes rest cache problem
   | some m =>
    match problem.addEdge u v m with
    | none => none
    | some problem => addInterferences b nodes rest cache problem
  | _, _ => addInterferences b nodes rest cache problem

/-- Add an edge for each pair of values a copy relates. -/
def addAffinities (b : Build) (nodes : List Nat) : List (Nat × Nat × Nat) → Problem → Option Problem
 | [], problem => some problem
 | row :: rest, problem =>
  match nodeOf nodes row.2.1, nodeOf nodes row.2.2 with
  | some a, some b' =>
   if a ≠ b' then
    let u := min a b'
    let v := max a b'
    match problem.addEdge u v (affinityMatrix (b.registers u) (b.registers v) row.1) with
    | none => none
    | some problem => addAffinities b nodes rest problem
   else addAffinities b nodes rest problem
  | _, _ => addAffinities b nodes rest problem

/-- The assignment: each value's number with the register chosen for its node. -/
abbrev Assignment := List (Nat × PhysReg)

/-- The registers chosen; `none` is the panic on a choice outside its list. -/
def chosen (inp : AllocInput) (b : Build) (choices : Nat → Nat) (nodes : List Nat) : Option Assignment :=
 nodes.zipIdx.mapM fun p =>
  ((b.registers p.2)[choices p.2]?).map fun r => (inp.db.number p.1, r)

/-- `allocate_with_affinities`; `none` is a panic. -/
def allocate (inp : AllocInput) : Option (Except RegAllocError Assignment) :=
 let nodes := nodesOf inp.order
 match buildNodes inp nodes { problem := .empty, lists := [], nodeList := [] } with
 | none => none
 | some (.error e) => some (.error e)
 | some (.ok b) =>
  match addInterferences b nodes inp.db.interfere [] b.problem with
  | none => none
  | some problem =>
   match addAffinities b nodes inp.db.affinity problem with
   | none => none
   | some problem =>
    match problem.solve (List.range nodes.length) with
    | none => none
    | some solution =>
     match solution.infeasible with
     | node :: _ => some (.error (.infeasible (inp.db.number (nodes.getD node 0))))
     | [] => (chosen inp b solution.choices nodes).map .ok

/-! ## The nodes of the order -/

private theorem foldl_nodes (order : List Nat) : ∀ acc : List Nat, acc.Nodup →
  (order.foldl (fun nodes id => if nodes.contains id then nodes else nodes ++ [id]) acc).Nodup ∧ ∀ id, id ∈ order.foldl
    (fun nodes id => if nodes.contains id then nodes else nodes ++ [id]) acc ↔
     id ∈ acc ∨ id ∈ order := by
 induction order with
 | nil => exact fun acc hacc => ⟨hacc, by simp⟩
 | cons next rest ih =>
  intro acc hacc
  rw [List.foldl_cons]
  by_cases hnext : next ∈ acc
  · obtain ⟨hnd, hmem⟩ := ih acc hacc
    rw [if_pos (List.contains_iff_mem.2 hnext)]
    refine ⟨hnd, fun id => ?_⟩
    rw [hmem, List.mem_cons]
    constructor
    · rintro (h | h)
      · exact .inl h
      · exact .inr (.inr h)
    grind
  · rw [if_neg (by simpa using hnext)]
    obtain ⟨hnd, hmem⟩ := ih (acc ++ [next])
     (List.nodup_append.2 ⟨hacc, List.nodup_singleton _, by
      grind⟩)
    refine ⟨hnd, fun id => ?_⟩
    rw [hmem, List.mem_append, List.mem_singleton, List.mem_cons, or_assoc]

theorem nodesOf_nodup (order : List Nat) : (nodesOf order).Nodup :=
 (foldl_nodes order [] List.nodup_nil).1

theorem mem_nodesOf (order : List Nat) (id : Nat) : id ∈ nodesOf order ↔ id ∈ order := by
 rw [nodesOf, (foldl_nodes order [] List.nodup_nil).2]
 simp

/-- The node of a value is where the value stands among the nodes. -/
theorem nodeOf_eq_some {nodes : List Nat} (hnd : nodes.Nodup) {id k : Nat}
  (h : nodes[k]? = some id) : nodeOf nodes id = some k := by
 have hmem : id ∈ nodes := List.mem_of_getElem? h
 obtain ⟨hk, rfl⟩ := getElem_of_getElem? h
 rw [nodeOf, if_pos (List.contains_iff_mem.2 hmem), hnd.idxOf_getElem k hk]

/-! ## Costs -/

/-- A register the preferences leave a finite cost had one before them. -/
theorem lt_of_preferCost_lt (preferences : List (PhysReg × Nat)) (actual : PhysReg) :
  ∀ cost, preferCost preferences actual cost < infCost → cost < infCost := by
 induction preferences with
 | nil => exact fun cost h => h
 | cons p rest ih =>
  intro cost h
  rw [preferCost, List.foldl_cons] at h
  have hnext := ih _ h
  split at hnext
  · grind
  · exact hnext

/-- What a finite cost says of a register: it is the pin, if there is one, and no forbidden
register overlaps it. -/
theorem nodeCost_lt {pinned : Option PhysReg} {forbidden : List PhysReg} {p : PhysReg}
  (h : nodeCost pinned forbidden p < infCost) : (∀ target, pinned = some target → p.span = target.span) ∧
   ∀ f ∈ forbidden, f.overlaps p = false := by
 cases pinned with
 | none =>
  simp only [nodeCost] at h
  split at h
  · exact absurd h (lt_irrefl _)
  grind
 | some target =>
  simp only [nodeCost] at h
  split at h
  · grind [overlaps_comm, overlaps_congr_span]
  · exact absurd h (lt_irrefl _)

/-- What the candidates of a value are. -/
theorem candidates_spec {abi : AbiInfo} {c : RegClassId} {allowed : Option (List Nat)}
  {restricted : Option Nat} {registers : List PhysReg}
  (h : candidates abi c allowed restricted = some registers) {r : PhysReg} (hr : r ∈ registers) :
  Allocatable abi c r ∧ (∀ indices, allowed = some indices → r.2 ∈ indices) ∧
   ∀ set, restricted = some set → set.testBit r.2 = true := by
 have hkeep : ∀ r ∈ (allocationOrder abi c).filter (fun r =>
   match allowed with
   | none => true
   | some allowed => allowed.contains r.2),
   Allocatable abi c r ∧ ∀ indices, allowed = some indices → r.2 ∈ indices := by
  grind [allocationOrder_spec]
 unfold candidates at h
 generalize (allocationOrder abi c).filter _ = listed at h hkeep
 cases restricted with
 | none =>
  grind
 | some bits =>
  dsimp only at h
  split at h
  · cases h
  grind

/-! ## The nodes of the problem -/

/-- An interned list is found under its number, and the numbers given before keep their lists. -/
theorem intern_spec (lists : List (List PhysReg)) (registers : List PhysReg) :
  (intern lists registers).2 < (intern lists registers).1.length ∧
   (intern lists registers).1.getD (intern lists registers).2 [] = registers ∧ ∀ l, l < lists.length →
    l < (intern lists registers).1.length ∧
     (intern lists registers).1.getD l [] = lists.getD l [] := by
 unfold intern
 split
 · grind
 grind

/-- The registers are those left to the value, out of the class it is resolved to. -/
def Candidates (inp : AllocInput) (id : Nat) (registers : List PhysReg) : Prop :=
 ∃ c, resolveClass inp.classes inp.precolor inp.abi.defaultIntegerClass (inp.db.number id) =
   .ok c ∧
  candidates inp.abi c (inp.classes.allowedIndices (inp.db.number id))
   (inp.restricted (inp.db.number id)) = some registers

/-- The nodes stand for the values `ids`, one each, with their candidates and costs. -/
structure Built (inp : AllocInput) (ids : List Nat) (b : Build) : Prop where
 costs_length : b.problem.costs.length = ids.length
 nodeList_length : b.nodeList.length = ids.length
 nodeList_lt : ∀ l ∈ b.nodeList, l < b.lists.length
 candidates : ∀ k id, ids[k]? = some id → Candidates inp id (b.registers k)
 costs : ∀ k id, ids[k]? = some id →
  b.problem.costs[k]? = some (valueCosts inp id (b.registers k))

theorem built_empty (inp : AllocInput) : Built inp [] { problem := .empty, lists := [], nodeList := [] } where
 costs_length := rfl
 nodeList_length := rfl
 nodeList_lt := nofun
 candidates := fun k id h => by simp at h
 costs := fun k id h => by simp at h

/-- A node's registers are those it was added with. -/
theorem registers_push {b : Build} {problem : Problem} {registers : List PhysReg}
  (hlt : ∀ l ∈ b.nodeList, l < b.lists.length) :
  let b' : Build :=
   { problem, lists := (intern b.lists registers).1
     nodeList := b.nodeList ++ [(intern b.lists registers).2] }
  (∀ k, k < b.nodeList.length → b'.registers k = b.registers k) ∧
   b'.registers b.nodeList.length = registers := by
 obtain ⟨-, hget, hkeep⟩ := intern_spec b.lists registers
 constructor
 · intro k hk
   simp only [Build.registers]
   grind
 · simp only [Build.registers]
   grind

theorem Built.push {inp : AllocInput} {ids : List Nat} {b : Build} (h : Built inp ids b) {id : Nat}
  {registers : List PhysReg} (hid : Candidates inp id registers) {problem : Problem}
  (hadd : b.problem.addNode (valueCosts inp id registers) = some problem) : Built inp (ids ++ [id])
   { problem, lists := (intern b.lists registers).1
     nodeList := b.nodeList ++ [(intern b.lists registers).2] } := by
 obtain ⟨hnew, -, hkeep⟩ := intern_spec b.lists registers
 obtain ⟨hold, hlast⟩ := @registers_push b problem registers h.nodeList_lt
 have hcosts : problem.costs = b.problem.costs ++ [valueCosts inp id registers] := by
  unfold addNode at hadd
  split at hadd
  · cases hadd
  · exact (Option.some.inj hadd) ▸ rfl
 -- a value is either one of the old ones, or the last
 have hsplit : ∀ k id', (ids ++ [id])[k]? = some id' →
   (k < ids.length ∧ ids[k]? = some id') ∨ (k = ids.length ∧ id' = id) := by
  intro k id' hk
  rcases lt_trichotomy k ids.length with hlt | heq | hgt
  · grind
  · grind
  grind
 constructor
 · simp [hcosts, h.costs_length]
 · simp [h.nodeList_length]
 · intro l hl
   rcases List.mem_append.1 hl with hl | hl
   · exact (hkeep l (h.nodeList_lt l hl)).1
   · exact List.mem_singleton.1 hl ▸ hnew
 · intro k id' hk
   rcases hsplit k id' hk with ⟨hlt, hk⟩ | ⟨rfl, rfl⟩
   · rw [hold k (h.nodeList_length ▸ hlt)]
     exact h.candidates k id' hk
   · rw [← h.nodeList_length, hlast]
     exact hid
 · intro k id' hk
   rcases hsplit k id' hk with ⟨hlt, hk⟩ | ⟨rfl, rfl⟩
   · rw [hold k (h.nodeList_length ▸ hlt)]
     simp only [hcosts]
     rw [List.getElem?_append_left (h.costs_length ▸ hlt)]
     exact h.costs k id' hk
   · simp only [hcosts]
     rw [← h.costs_length, List.getElem?_concat_length, h.costs_length, ← h.nodeList_length,
      hlast]

/-- The loop over the values ends with a node for each. -/
theorem buildNodes_built (inp : AllocInput) (rest : List Nat) : ∀ (ids : List Nat) (b b' : Build),
  Built inp ids b → buildNodes inp rest b = some (.ok b') → Built inp (ids ++ rest) b' := by
 induction rest with
 | nil =>
  intro ids b b' hb h
  simp only [buildNodes, Option.some.injEq, Except.ok.injEq] at h
  grind
 | cons id rest ih =>
  intro ids b b' hb h
  simp only [buildNodes] at h
  split at h
  · cases h
  · rename_i c hclass
    split at h
    · cases h
    · rename_i registers hregs
      obtain ⟨-, hget, -⟩ := intern_spec b.lists registers
      rw [hget] at h
      split at h
      · cases h
      · split at h
        · cases h
        · rename_i problem hadd
          have hb' := hb.push ⟨c, hclass, hregs⟩ hadd
          grind

/-! ## The edges of the problem -/

/-- Some edge prices the two alternatives together at infinity. -/
def Forbids (p : Problem) (u v a b : Nat) : Prop :=
 ∃ e ∈ p.edges, e.1 = (u, v) ∧ infCost ≤ e.2 a b

theorem le_plus (m m' : Matrix) (a b : Nat) (h : infCost ≤ m a b ∨ infCost ≤ m' a b) :
  infCost ≤ m.plus m' a b := by
 have hsum : infCost ≤ m a b + m' a b := by omega
 rw [Matrix.plus, add_eq_cap, cap_of_le hsum]

/-- No edge that is charged gets cheaper than it was, or than what it is charged with. -/
theorem chargeEdges_le (edges : List ((Nat × Nat) × Matrix)) (k : Nat × Nat) (m : Matrix) :
  (∀ e ∈ edges, ∃ e' ∈ Problem.chargeEdges edges k m, e'.1 = e.1 ∧ ∀ a b, infCost ≤ e.2 a b → infCost ≤ e'.2 a b) ∧
   ∃ e' ∈ Problem.chargeEdges edges k m, e'.1 = k ∧
    ∀ a b, infCost ≤ m a b → infCost ≤ e'.2 a b := by
 unfold chargeEdges
 split
 · rename_i hk
   constructor
   · intro e he
     by_cases hek : e.1 = k
     · refine ⟨_, List.mem_map.2 ⟨e, he, if_pos hek⟩, hek.symm, fun a b h => ?_⟩
       exact le_plus _ _ _ _ (.inl h)
     · exact ⟨_, List.mem_map.2 ⟨e, he, if_neg hek⟩, rfl, fun a b h => h⟩
   · obtain ⟨e, he, hek⟩ := List.mem_map.1 hk
     refine ⟨_, List.mem_map.2 ⟨e, he, if_pos hek⟩, rfl, fun a b h => ?_⟩
     exact le_plus _ _ _ _ (.inr h)
 · constructor
   · exact fun e he => ⟨e, List.mem_append_left _ he, rfl, fun a b h => h⟩
   · exact ⟨(k, m), by simp, rfl, fun a b h => h⟩

/-- What charging an edge does: no cost vector changes, no edge gets cheaper, and the edge costs
at least the matrix. -/
theorem addEdge_spec {p p' : Problem} {u v : Nat} {m : Matrix} (h : p.addEdge u v m = some p') :
  p'.costs = p.costs ∧ (∀ x y a b, Forbids p x y a b → Forbids p' x y a b) ∧
   (u ≤ v → ∀ a b, infCost ≤ m a b → Forbids p' u v a b) := by
 unfold addEdge at h
 split at h
 · rename_i hne
   cases h
   refine ⟨rfl, ?_, ?_⟩
   · rintro x y a b ⟨e, he, hkey, hinf⟩
     obtain ⟨e', he', hkey', hle⟩ := (chargeEdges_le p.edges (key u v) _).1 e he
     exact ⟨e', he', hkey'.trans hkey, hle a b hinf⟩
   · intro huv a b hinf
     obtain ⟨e', he', hkey', hle⟩ := (chargeEdges_le p.edges (key u v)
      (if u < v then m else m.transposed)).2
     have hlt : u < v := lt_of_le_of_ne huv hne.1
     refine ⟨e', he', ?_, hle a b ?_⟩
     · rw [hkey', key, min_eq_left huv, max_eq_right huv]
     · rwa [if_pos hlt]
 · cases h

/-- A matrix is missing only where no two registers overlap, and is infinite where they do. -/
theorem interferenceMatrix_spec {left right : List PhysReg} {a b : Nat} {l r : PhysReg}
  (hl : left[a]? = some l) (hr : right[b]? = some r) (hover : l.overlaps r = true) :
  ∃ m, interferenceMatrix left right = some m ∧ infCost ≤ m a b := by
 have hany : (left.any fun l => right.any l.overlaps) = true :=
  List.any_eq_true.2 ⟨l, List.mem_of_getElem? hl,
   List.any_eq_true.2 ⟨r, List.mem_of_getElem? hr, hover⟩⟩
 refine ⟨_, if_pos hany, ?_⟩
 simp [hl, hr, if_pos hover]

/-- The cached matrices are those that would be built. -/
def CacheOk (lists : List (List PhysReg)) (cache : MatrixCache) : Prop :=
 ∀ lu lv m, cache.lookup (lu, lv) = some m →
  m = interferenceMatrix (lists.getD lu []) (lists.getD lv [])

theorem cachedMatrix_spec {lists : List (List PhysReg)} {cache : MatrixCache} (h : CacheOk lists cache) (lu lv : Nat) :
  CacheOk lists (cachedMatrix lists cache lu lv).1 ∧ (cachedMatrix lists cache lu lv).2 =
    interferenceMatrix (lists.getD lu []) (lists.getD lv []) := by
 unfold cachedMatrix
 split
 · rename_i m hm
   exact ⟨h, h lu lv m hm⟩
 · refine ⟨fun lu' lv' m hm => ?_, rfl⟩
   rw [List.lookup_append, Option.or_eq_some_iff] at hm
   rcases hm with hm | ⟨-, hm⟩
   · exact h lu' lv' m hm
   grind

/-- Two registers that overlap, one of each end of an interference row, are priced at infinity. -/
def Separated (b : Build) (nodes : List Nat) (p : Problem) (row : Nat × Nat) : Prop :=
 ∀ i j, nodeOf nodes row.1 = some i → nodeOf nodes row.2 = some j →
  ∀ x y l r, (b.registers (min i j))[x]? = some l → (b.registers (max i j))[y]? = some r →
   l.overlaps r = true → Forbids p (min i j) (max i j) x y

/-- The loop over the interference rows separates the ends of each. -/
theorem addInterferences_spec (b : Build) (nodes : List Nat) (rows : List (Nat × Nat)) :
  ∀ (cache : MatrixCache) (p p' : Problem), CacheOk b.lists cache → addInterferences b nodes rows cache p = some p' →
   p'.costs = p.costs ∧ (∀ u v x y, Forbids p u v x y → Forbids p' u v x y) ∧
    ∀ row ∈ rows, Separated b nodes p' row := by
 induction rows with
 | nil =>
  intro cache p p' _ h
  cases h
  exact ⟨rfl, fun u v x y h => h, nofun⟩
 | cons row rest ih =>
  intro cache p p' hcache h
  rw [addInterferences] at h
  split at h
  · rename_i i j hi hj
    obtain ⟨hcache', hmatrix⟩ := cachedMatrix_spec hcache
     (b.nodeList.getD (min i j) 0) (b.nodeList.getD (max i j) 0)
    simp only [hmatrix] at h
    split at h
    · rename_i hnone
      obtain ⟨hcosts, hmono, hrest⟩ := ih _ _ _ hcache' h
      refine ⟨hcosts, hmono, fun row' hrow' => ?_⟩
      rcases List.mem_cons.1 hrow' with rfl | hrow'
      · -- no matrix: no two registers of the lists overlap
        intro i' j' hi' hj' x y l r hl hr hover
        rw [hi, Option.some.injEq] at hi'
        rw [hj, Option.some.injEq] at hj'
        obtain ⟨m, hm, -⟩ := interferenceMatrix_spec hl hr hover
        simp only [Build.registers] at hm
        grind
      · exact hrest row' hrow'
    · rename_i m hsome
      split at h
      · cases h
      · rename_i q hq
        obtain ⟨hcosts', hmono', hnew⟩ := addEdge_spec hq
        obtain ⟨hcosts, hmono, hrest⟩ := ih _ _ _ hcache' h
        refine ⟨hcosts.trans hcosts',
         fun u v x y hf => hmono u v x y (hmono' u v x y hf), fun row' hrow' => ?_⟩
        rcases List.mem_cons.1 hrow' with rfl | hrow'
        · intro i' j' hi' hj' x y l r hl hr hover
          rw [hi, Option.some.injEq] at hi'
          rw [hj, Option.some.injEq] at hj'
          subst hi' hj'
          obtain ⟨m', hm', hinf⟩ := interferenceMatrix_spec hl hr hover
          simp only [Build.registers] at hm'
          grind
        · exact hrest row' hrow'
  · rename_i hnodes
    obtain ⟨hcosts, hmono, hrest⟩ := ih _ _ _ hcache h
    refine ⟨hcosts, hmono, fun row' hrow' => ?_⟩
    rcases List.mem_cons.1 hrow' with rfl | hrow'
    · exact fun i j hi hj => absurd hj (hnodes i j hi)
    · exact hrest row' hrow'

/-- The affinities make no edge cheaper. -/
theorem addAffinities_spec (b : Build) (nodes : List Nat) (rows : List (Nat × Nat × Nat)) :
  ∀ p p' : Problem, addAffinities b nodes rows p = some p' →
   p'.costs = p.costs ∧ ∀ u v x y, Forbids p u v x y → Forbids p' u v x y := by
 induction rows with
 | nil =>
  intro p p' h
  cases h
  exact ⟨rfl, fun u v x y h => h⟩
 | cons row rest ih =>
  intro p p' h
  rw [addAffinities] at h
  split at h
  · split at h
    · dsimp only at h
      split at h
      · cases h
      · rename_i q hq
        obtain ⟨hcosts', hmono', -⟩ := addEdge_spec hq
        grind
    · exact ih _ _ h
  · exact ih _ _ h

/-! ## What an assignment keeps -/

/-- The class names the register: it has the register's view and encodes its index. -/
def Encodes (c : RegClassId) (r : PhysReg) : Prop :=
 c.sharesViewWith r.1 = true ∧ c.contains r.2 = true

instance (c : RegClassId) (r : PhysReg) : Decidable (Encodes c r) :=
 inferInstanceAs (Decidable (_ ∧ _))

/-- The register the assignment gives the value `id`. -/
def Holds (inp : AllocInput) (asg : Assignment) (id : Nat) (r : PhysReg) : Prop :=
 asg.lookup (inp.db.number id) = some r

/-- The constraints of the tables, the pins, the classes, the restricted sets and the ABI. -/
structure Respects (inp : AllocInput) (asg : Assignment) : Prop where
 total : ∀ id ∈ inp.order, ∃ r, Holds inp asg id r
 interfere : ∀ row ∈ inp.db.interfere, ∀ r r', Holds inp asg row.1 r → Holds inp asg row.2 r' →
  r.overlaps r' = false
 forbid : ∀ row ∈ inp.db.forbid, ∀ r, Holds inp asg row.2 r →
  r.overlaps (inp.db.register row.1) = false
 pinned : ∀ id r, Holds inp asg id r → ∀ target, inp.precolor (inp.db.number id) = some target →
  r.span = target.span
 encodable : ∀ id r, Holds inp asg id r → ∀ c, inp.classes.vregClass (inp.db.number id) = some c →
  Encodes c r
 allowed : ∀ id r, Holds inp asg id r → ∀ indices,
  inp.classes.allowedIndices (inp.db.number id) = some indices → r.2 ∈ indices
 restricted : ∀ id r, Holds inp asg id r → ∀ set, inp.restricted (inp.db.number id) = some set →
  set.testBit r.2 = true
 roles : ∀ id r, Holds inp asg id r → ∀ role ∈ inp.abi.roles, r.overlaps role = false

/-- Every operand class of a pinned value encodes the pin. -/
def PinsEncodable (inp : AllocInput) : Prop :=
 ∀ id ∈ inp.order, ∀ target c, inp.precolor (inp.db.number id) = some target →
  inp.classes.vregClass (inp.db.number id) = some c → Encodes c target

/-- Both directions between the elements of a traversed list and those of its result. -/
theorem mapM_mem {α β : Type} {f : α → Option β} {xs : List α} : ∀ {ys : List β}, xs.mapM f = some ys →
   (∀ x ∈ xs, ∃ y ∈ ys, f x = some y) ∧ ∀ y ∈ ys, ∃ x ∈ xs, f x = some y := by
 induction xs with
 | nil =>
  grind
 | cons x xs ih =>
  intro ys h
  rw [List.mapM_cons] at h
  obtain ⟨y, hy, h⟩ := Option.bind_eq_some_iff.1 h
  obtain ⟨rest, hrest, h⟩ := Option.bind_eq_some_iff.1 h
  cases h
  constructor
  · intro x' hx'
    rcases List.mem_cons.1 hx' with rfl | hx'
    · exact ⟨y, .head _, hy⟩
    grind
  grind

section

variable {inp : AllocInput} {b : Build} {choices : Nat → Nat} {nodes : List Nat} {asg : Assignment}
  (h : chosen inp b choices nodes = some asg)

include h

/-- Who holds a register is a node, and the register is the one chosen for it. -/
theorem chosen_holds {id : Nat} {r : PhysReg} (hr : Holds inp asg id r) :
  ∃ k, nodes[k]? = some id ∧ (b.registers k)[choices k]? = some r := by
 obtain ⟨before, after, rfl, -⟩ := List.lookup_eq_some_iff.1 hr
 obtain ⟨⟨id', k⟩, hmem, hchoice⟩ :=
  (mapM_mem h).2 _ (List.mem_append_right before (.head _))
 simp only [Option.map_eq_some_iff, Prod.mk.injEq] at hchoice
 obtain ⟨r', hget, hnum, rfl⟩ := hchoice
 obtain rfl := inp.db.number_injective hnum
 exact ⟨k, List.mem_zipIdx_iff_getElem?.1 hmem, hget⟩

theorem chosen_total {id : Nat} (hid : id ∈ nodes) :
  ∃ r, Holds inp asg id r := by
 obtain ⟨k, hk⟩ := List.getElem?_of_mem hid
 obtain ⟨y, hy, hchoice⟩ :=
  (mapM_mem h).1 (id, k) (List.mem_zipIdx_iff_getElem?.2 hk)
 simp only [Option.map_eq_some_iff] at hchoice
 obtain ⟨r, -, rfl⟩ := hchoice
 apply Option.isSome_iff_exists.1
 exact List.lookup_isSome_iff.2 ⟨_, hy, by simp⟩

end

/-- What is known of the register of one value: it comes from the class the value is resolved to,
and meets every constraint of the value but the operand class. -/
structure Placed (inp : AllocInput) (id : Nat) (r : PhysReg) : Prop where
 resolved : resolveClass inp.classes inp.precolor inp.abi.defaultIntegerClass (inp.db.number id) =
  .ok r.1
 encodable : r.1.contains r.2 = true
 roles : ∀ role ∈ inp.abi.roles, r.overlaps role = false
 allowed : ∀ indices, inp.classes.allowedIndices (inp.db.number id) = some indices →
  r.2 ∈ indices
 restricted : ∀ set, inp.restricted (inp.db.number id) = some set → set.testBit r.2 = true
 pinned : ∀ target, inp.precolor (inp.db.number id) = some target → r.span = target.span
 forbid : ∀ f ∈ forbiddenOf inp.db id, f.overlaps r = false

/-- A finite choice places the value. -/
theorem Built.placed {inp : AllocInput} {nodes : List Nat} {b : Build} (hb : Built inp nodes b)
  {p : Problem} (hcosts : p.costs = b.problem.costs) {choices : Nat → Nat}
  (hfin : p.Finite choices) {k id : Nat} {r : PhysReg} (hk : nodes[k]? = some id)
  (hr : (b.registers k)[choices k]? = some r) : Placed inp id r := by
 obtain ⟨c, hclass, hregs⟩ := hb.candidates k id hk
 obtain ⟨⟨rfl, hcont, hroles⟩, hallowed, hrestricted⟩ :=
  candidates_spec hregs (List.mem_of_getElem? hr)
 have hlt : k < p.costs.length := by
  rw [hcosts, hb.costs_length]
  exact (getElem_of_getElem? hk).1
 have hcost : p.nodeCost k (choices k) = preferCost (preferencesOf inp.db id) r
   (nodeCost (inp.precolor (inp.db.number id)) (forbiddenOf inp.db id) r) := by
  simp [Problem.nodeCost, hcosts, hb.costs k id hk, valueCosts, hr]
 have hbase := lt_of_preferCost_lt _ _ _ (hcost ▸ hfin.1 k hlt)
 obtain ⟨hpinned, hforbid⟩ := nodeCost_lt hbase
 exact ⟨hclass, hcont, hroles, hallowed, hrestricted, hpinned, hforbid⟩

/-- The operand class encodes the register exactly when it encodes the pin, and always when there
is none. -/
theorem Placed.encodes_iff {inp : AllocInput} {id : Nat} {r : PhysReg} (h : Placed inp id r)
  {c : RegClassId} (hc : inp.classes.vregClass (inp.db.number id) = some c) :
  Encodes c r ↔ ∀ target, inp.precolor (inp.db.number id) = some target → Encodes c target := by
 have hresolved := h.resolved
 simp only [resolveClass, hc] at hresolved
 split at hresolved
 · cases hresolved
 · cases hpin : inp.precolor (inp.db.number id) with
   | none =>
    -- without a pin the value is resolved to its operand class
    simp only [hpin, Option.map_none, Except.ok.injEq] at hresolved
    subst hresolved
    simp [Encodes, sharesViewWith, h.encodable]
   | some target =>
    have hspan := h.pinned target hpin
    simp only [PhysReg.span, RegClassId.span, Prod.mk.injEq] at hspan
    simp only [hpin, Option.map_some] at hresolved
    split at hresolved
    · -- the operand class is a subclass of the pin's: both name the register
      rename_i hsub
      simp only [Except.ok.injEq] at hresolved
      subst hresolved
      simp only [isSubclassOf, Bool.and_eq_true] at hsub
      have hself : r.1.sharesViewWith r.1 = true := by simp [sharesViewWith]
      simp [Encodes, hsub.1, ← hspan.2.1, h.encodable, hself]
    grind

/-- What an assignment is made of: a built problem, its edges, and a finite choice. -/
theorem allocate_ok {inp : AllocInput} {asg : Assignment} (h : allocate inp = some (.ok asg)) :
  ∃ b p choices, Built inp (nodesOf inp.order) b ∧ p.costs = b.problem.costs ∧
   (∀ row ∈ inp.db.interfere, Separated b (nodesOf inp.order) p row) ∧
   p.Finite choices ∧ chosen inp b choices (nodesOf inp.order) = some asg := by
 simp only [allocate] at h
 split at h
 · cases h
 · cases h
 · rename_i b hbuild
   split at h
   · cases h
   · rename_i q hinterfere
     split at h
     · cases h
     · rename_i p haffinity
       split at h
       · cases h
       · rename_i solution hsolve
         split at h
         · cases h
         · rename_i hnobody
           obtain ⟨asg', hchosen, heq⟩ := Option.map_eq_some_iff.1 h
           cases heq
           have hbuilt := buildNodes_built inp _ [] _ _ (built_empty inp) hbuild
           obtain ⟨hcosts, -, hseparated⟩ := addInterferences_spec b (nodesOf inp.order) _ _ _ _
            (fun lu lv m hm => by simp at hm) hinterfere
           obtain ⟨hcosts', hmono⟩ := addAffinities_spec b (nodesOf inp.order) _ _ _ haffinity
           refine ⟨b, p, solution.choices, hbuilt, hcosts'.trans hcosts, ?_,
            (p.solve_sound hsolve).2 hnobody, hchosen⟩
           intro row hrow i j hi hj x y l r hl hr hover
           exact hmono _ _ _ _ (hseparated row hrow i j hi hj x y l r hl hr hover)

/-- The ends of an interference row hold registers that do not overlap. -/
theorem Separated.disjoint {b : Build} {nodes : List Nat} (hnd : nodes.Nodup) {p : Problem}
  {row : Nat × Nat} (h : Separated b nodes p row) {choices : Nat → Nat} (hfin : p.Finite choices)
  {i j : Nat} {r r' : PhysReg} (hi : nodes[i]? = some row.1) (hj : nodes[j]? = some row.2)
  (hr : (b.registers i)[choices i]? = some r) (hr' : (b.registers j)[choices j]? = some r') :
  r.overlaps r' = false := by
 have hrow := h i j (nodeOf_eq_some hnd hi) (nodeOf_eq_some hnd hj)
 -- the edge's rows are those of the lower node
 have hapart : ∀ l r'', (b.registers (min i j))[choices (min i j)]? = some l →
   (b.registers (max i j))[choices (max i j)]? = some r'' → l.overlaps r'' = false := by
  intro l r'' hl hr''
  by_contra hover
  obtain ⟨e, he, hkey, hinf⟩ := hrow _ _ l r'' hl hr'' (by simpa using hover)
  have hlt := hfin.2 e he
  grind
 rcases le_total i j with hij | hij
 · grind
 grind [overlaps_comm]

/-- The assignment respects every constraint exactly when the operand class of every pinned value
encodes its pin. -/
theorem allocate_respects_iff (inp : AllocInput) (asg : Assignment)
  (h : allocate inp = some (.ok asg)) : Respects inp asg ↔ PinsEncodable inp := by
 obtain ⟨b, p, choices, hb, hcosts, hseparated, hfin, hchosen⟩ := allocate_ok h
 have hnd := nodesOf_nodup inp.order
 have hplaced : ∀ id r, Holds inp asg id r → Placed inp id r := by
  intro id r hr
  obtain ⟨k, hk, hget⟩ := chosen_holds hchosen hr
  exact hb.placed hcosts hfin hk hget
 have htotal : ∀ id ∈ inp.order, ∃ r, Holds inp asg id r := fun id hid =>
  chosen_total hchosen ((mem_nodesOf inp.order id).2 hid)
 constructor
 · intro hrespects id hid target c htgt hc
   obtain ⟨r, hr⟩ := htotal id hid
   exact ((hplaced id r hr).encodes_iff hc).1 (hrespects.encodable id r hr c hc) target htgt
 · intro hpins
   refine
    { total := htotal
      interfere := ?_
      forbid := ?_
      pinned := fun id r hr => (hplaced id r hr).pinned
      encodable := ?_
      allowed := fun id r hr => (hplaced id r hr).allowed
      restricted := fun id r hr => (hplaced id r hr).restricted
      roles := fun id r hr => (hplaced id r hr).roles }
   · intro row hrow r r' hr hr'
     obtain ⟨i, hi, hget⟩ := chosen_holds hchosen hr
     obtain ⟨j, hj, hget'⟩ := chosen_holds hchosen hr'
     exact (hseparated row hrow).disjoint hnd hfin hi hj hget hget'
   · intro row hrow r hr
     rw [overlaps_comm]
     apply (hplaced row.2 r hr).forbid
     simp only [forbiddenOf, List.mem_map, List.mem_filter, beq_iff_eq]
     exact ⟨row, ⟨hrow, rfl⟩, rfl⟩
   · intro id r hr c hc
     obtain ⟨k, hk, -⟩ := chosen_holds hchosen hr
     have hid := (mem_nodesOf inp.order id).1 (List.mem_of_getElem? hk)
     exact ((hplaced id r hr).encodes_iff hc).2 fun target htgt => hpins id hid target c htgt hc

/-! ## A pin its operand class does not encode -/

/-- A general-purpose class of four registers. -/
def low : RegClassId := ⟨0, "low", "gpr", [0, 1, 2, 3], 1, ⟨0, false⟩⟩

/-- A class of the same view that encodes two of them and one more. -/
def high : RegClassId := ⟨1, "high", "gpr", [2, 3, 4], 1, ⟨0, false⟩⟩

/-- Two values that interfere. The operands of the first constrain it to `high`, and it is pinned
to a register of `low`. -/
def pinnedPair (pin : Nat) : AllocInput where
 abi :=
  { callerSaved := [(low, 0), (low, 1), (low, 2), (low, 3)], calleeSaved := []
    sp := (low, 3), ra := none, reserved := [], defaultIntegerClass := some low }
 db :=
  { register := fun _ => (low, 0), number := id, forbid := [], prefer := []
    interfere := [(0, 1)], affinity := [], number_injective := Function.injective_id }
 classes :=
  { vregClass := fun vreg => if vreg = 0 then some high else none
    allowedIndices := fun _ => none, classConflicts := fun _ => false }
 precolor := fun vreg => if vreg = 0 then some (low, pin) else none
 restricted := fun _ => none
 order := [0, 1]

def pairProblem (pin : Nat) : Problem where
 costs := [(List.range 3).map fun i => if i = pin then 0 else infCost, [0, 0, 0]]
 edges := [((0, 1), fun row col =>
  match [(low, 0), (low, 1), (low, 2)][row]?, [(low, 0), (low, 1), (low, 2)][col]? with
  | some l, some r => if PhysReg.overlaps l r then infCost else 0
  | _, _ => 0)]
 alternatives := by simp
 ordered := by simp
 distinct := by simp

def pairBuild (pin : Nat) : Build where
 problem :=
  { costs := (pairProblem pin).costs, edges := []
    alternatives := (pairProblem pin).alternatives
    ordered := by simp
    distinct := List.nodup_nil }
 lists := [[(low, 0), (low, 1), (low, 2)]]
 nodeList := [0, 0]

theorem pairProblem_solve {pin : Nat} (h : pin = 0 ∨ pin = 2) :
  ∃ sol other, (pairProblem pin).solve [0, 1] = some sol ∧ sol.infeasible = [] ∧
   chosen (pinnedPair pin) (pairBuild pin) sol.choices [0, 1] =
    some [(0, (low, pin)), (1, (low, other))] := by
 have hrun : (pairProblem pin).solver.run ((pairProblem pin).ranked [0, 1]) =
   some (Solver.reduceTurns 20 (pairProblem pin).solver, []) := by
  rcases h with rfl | rfl
  · exact run_of_turns _ (by decide +kernel) (by decide +kernel)
  · exact run_of_turns _ (by decide +kernel) (by decide +kernel)
 rcases h with rfl | rfl
 · refine ⟨_, 1, (pairProblem 0).solve_eq (by simp [pairProblem]) hrun, ?_, ?_⟩
   · decide +kernel
   · decide +kernel
 · refine ⟨_, 0, (pairProblem 2).solve_eq (by simp [pairProblem]) hrun, ?_, ?_⟩
   · decide +kernel
   · decide +kernel

/-- The pin decides, whatever the operand class encodes. -/
theorem allocate_pinnedPair {pin : Nat} (h : pin = 0 ∨ pin = 2) :
  ∃ other, allocate (pinnedPair pin) = some (.ok [(0, (low, pin)), (1, (low, other))]) := by
 obtain ⟨sol, other, hsolve, hnobody, hchosen⟩ := pairProblem_solve h
 have hbuild : buildNodes (pinnedPair pin) [0, 1] { problem := .empty, lists := [], nodeList := [] } =
   some (.ok (pairBuild pin)) := by
  rcases h with rfl | rfl
  · rfl
  · rfl
 have hedges : addInterferences (pairBuild pin) [0, 1] [(0, 1)] [] (pairBuild pin).problem =
   some (pairProblem pin) := by
  rcases h with rfl | rfl
  · rfl
  · rfl
 have hnodes : nodesOf (pinnedPair pin).order = [0, 1] := rfl
 have hrng : List.range [0, 1].length = [0, 1] := rfl
 have hinterfere : (pinnedPair pin).db.interfere = [(0, 1)] := rfl
 have haffinity : (pinnedPair pin).db.affinity = [] := rfl
 refine ⟨other, ?_⟩
 simp only [allocate, hnodes, hbuild, hinterfere, hedges, haffinity, addAffinities, hrng, hsolve,
  hnobody, hchosen, Option.map_some]

/-- A pin of `high` is respected. -/
theorem pinnedPair_respects :
  ∃ other, Respects (pinnedPair 2) [(0, (low, 2)), (1, (low, other))] := by
 obtain ⟨other, h⟩ := @allocate_pinnedPair 2 (.inr rfl)
 refine ⟨other, (allocate_respects_iff (pinnedPair 2) _ h).2 ?_⟩
 intro id hid target c htgt hc
 rcases List.mem_cons.1 hid with rfl | hid
 · cases htgt
   cases hc
   decide
 · rw [List.mem_singleton.1 hid] at htgt
   cases htgt

/-- A value whose operands only encode `high` is given register 0 of `low`. -/
theorem pinnedPair_not_encodable :
  ∃ asg, allocate (pinnedPair 0) = some (.ok asg) ∧ ¬ Respects (pinnedPair 0) asg := by
 obtain ⟨other, h⟩ := @allocate_pinnedPair 0 (.inl rfl)
 refine ⟨_, h, fun hrespects => ?_⟩
 have hencodes := hrespects.encodable 0 (low, 0) rfl high rfl
 nomatch hencodes

end Tir.RegAlloc
