import Tir.Adt.Dag
import Mathlib

/-!
# Traversals of a DAG

A descendant of a node has a smaller index, so one sweep from the node downward marks its descendants (`reachable_spec`);
`postorder` and `reaches` read the marks off. `preorder` keeps a stack and visits as the recursive traversal does
(`preorder_eq`), and `subgraph_eq` compares two subgraphs as the trees they unfold to (`subgraphEqFrom_iff`).
-/

open List

namespace Tir.Adt.Dag

variable {N L : Type} (g : Dag N L)

/-- The children of a node, in edge order. -/
def children (id : Nat) : List Nat :=
 ((g.nodes[id]?).map DagNode.children).getD []

theorem lt_of_mem_children {g : Dag N L} {parent child : Nat} (h : child ∈ g.children parent) : child < parent := by
 rw [children] at h
 cases hnode : g.nodes[parent]? with
 | none => simp [hnode] at h
 | some node =>
  rw [hnode, Option.map_some, Option.getD_some] at h
  exact g.topological parent node hnode child h

/-! ## The sweep -/

/-- What the sweep keeps: the marks from the floor on, how many marked nodes it has still to pass, and the last it passed. -/
structure Sweep where
 reached : List Bool
 pending : Nat
 low : Nat

/-- An edge of a node that the sweep passes. -/
def mark (floor : Nat) (s : Sweep) (child : Nat) : Sweep :=
 if child < floor then s
 else { s with
  reached := s.reached.set (child - floor) true
  pending := if s.reached.getD (child - floor) false then s.pending else s.pending + 1 }

/-- The indices from above the floor down to it, as long as a marked node is pending. -/
def sweep (floor : Nat) : Nat → Sweep → Sweep
 | 0, s => s
 | n + 1, s =>
  if s.pending = 0 then s
  else if s.reached.getD n false then
   sweep floor n ((g.children (floor + n)).foldl (mark floor) { s with pending := s.pending - 1, low := floor + n })
  else sweep floor n s

def reachable (start floor : Nat) : Nat × List Bool :=
 let s := g.sweep floor (start + 1 - floor) ⟨(List.replicate (start + 1 - floor) false).set (start - floor) true, 1, start⟩
 (s.low, s.reached.drop (s.low - floor))

def postorder (start : Nat) : List Nat :=
 let (low, reached) := g.reachable start 0
 (List.range' low (start + 1 - low)).filter fun index => reached.getD (index - low) false

def reaches (source target : Nat) : Bool :=
 if source < target then false
 else
  let (low, reached) := g.reachable source target
  low == target && reached.getD 0 false

/-- Pops nodes until one is new, gives it and pushes its children, the first of them on top; an index past the marks panics. -/
def preorderFrom (visited : List Bool) : List Nat → Option (List Nat)
 | [] => some []
 | node :: stack =>
  match _h : visited[node]? with
  | none => none
  | some true => preorderFrom visited stack
  | some false => (preorderFrom (visited.set node true) (g.children node ++ stack)).map (node :: ·)
termination_by stack => (visited.count false, stack.length)
decreasing_by
 · exact Prod.Lex.right _ (Nat.lt_succ_self _)
 · obtain ⟨hlt, hget⟩ := List.getElem?_eq_some_iff.1 _h
   have hmem : false ∈ visited := mem_of_getElem hget
   have hpos := count_pos_iff.2 hmem
   apply Prod.Lex.left
   rw [count_set hlt, hget, beq_self_eq_true, if_pos rfl, if_neg (by decide)]
   omega

def preorder (start : Nat) : Option (List Nat) :=
 g.preorderFrom (List.replicate (start + 1) false) [start]

/-- How many nodes the tree of a node has. -/
def unfoldedSize (id : Nat) : Nat :=
 1 + ((g.children id).attach.map fun child => unfoldedSize child.1).sum
termination_by id
decreasing_by exact lt_of_mem_children child.2

variable {g} in
theorem unfoldedSize_eq (id : Nat) : g.unfoldedSize id = 1 + ((g.children id).map g.unfoldedSize).sum := by
 rw [unfoldedSize, List.attach_map_val]

def subgraphEqFrom [DecidableEq N] [DecidableEq L] (h : Dag N L) : List (Nat × Nat) → Bool
 | [] => true
 | (lhs, rhs) :: pending =>
  if (g.nodes[lhs]?).map (·.label) ≠ (h.nodes[rhs]?).map (·.label) ∨ (g.nodes[lhs]?).map (·.leaf) ≠ (h.nodes[rhs]?).map (·.leaf) ∨
   (g.children lhs).length ≠ (h.children rhs).length then false
  else subgraphEqFrom h (((g.children lhs).zip (h.children rhs)).reverse ++ pending)
termination_by pending => (pending.map fun pair => g.unfoldedSize pair.1).sum
decreasing_by
 rename_i hsame
 have hlength : (g.children lhs).length = (h.children rhs).length := not_not.1 fun hne => hsame (.inr (.inr hne))
 have hfst : (((g.children lhs).zip (h.children rhs)).map fun pair => g.unfoldedSize pair.1) = (g.children lhs).map g.unfoldedSize := by
  have hzip := congrArg (List.map g.unfoldedSize) (map_fst_zip hlength.le)
  rwa [List.map_map] at hzip
 rw [map_append, sum_append, map_reverse, sum_reverse, hfst, map_cons, sum_cons, unfoldedSize_eq]
 dsimp only
 omega

def subgraphEq [DecidableEq N] [DecidableEq L] (root : Nat) (other : Dag N L) (otherRoot : Nat) : Bool :=
 g.subgraphEqFrom other [(root, otherRoot)]

/-! ## Paths -/

def Reaches : Nat → Nat → Prop :=
 Relation.ReflTransGen fun parent child => child ∈ g.children parent

variable {g}

theorem Reaches.le {source target : Nat} (h : g.Reaches source target) : target ≤ source := by
 induction h with
 | refl => exact le_rfl
 | tail _ hstep ih => exact (lt_of_mem_children hstep).le.trans ih

/-! ## What the sweep marks -/

/-- Marked nodes are descendants, pending ones are those below the index, and a node passed has its children marked. -/
structure Swept (g : Dag N L) (start floor n : Nat) (s : Sweep) : Prop where
 length : s.reached.length = start + 1 - floor
 sound : ∀ i, s.reached.getD i false = true → g.Reaches start (floor + i)
 root : s.reached.getD (start - floor) false = true
 pending : s.pending = (s.reached.take n).count true
 passed : ∀ i, n ≤ i → s.reached.getD i false = true → ∀ child ∈ g.children (floor + i), floor ≤ child →
  s.reached.getD (child - floor) false = true
 low_le : ∀ i, n ≤ i → s.reached.getD i false = true → s.low ≤ floor + i
 low_mem : floor ≤ s.low ∧ s.reached.getD (s.low - floor) false = true

variable {start floor n : Nat} {s : Sweep}

theorem foldl_mark {cs : List Nat} (hlength : n ≤ s.reached.length) (hcs : ∀ c ∈ cs, c < floor + n)
  (hpending : s.pending = (s.reached.take n).count true) :
  (cs.foldl (mark floor) s).reached.length = s.reached.length ∧ (cs.foldl (mark floor) s).low = s.low ∧
   (cs.foldl (mark floor) s).pending = ((cs.foldl (mark floor) s).reached.take n).count true ∧
   ∀ i, (cs.foldl (mark floor) s).reached.getD i false = true ↔ s.reached.getD i false = true ∨ floor + i ∈ cs := by
 induction cs generalizing s with
 | nil => exact ⟨rfl, rfl, hpending, fun i => by simp⟩
 | cons c cs ih =>
  have hc := hcs c (.head _)
  rw [List.foldl_cons, mark]
  split
  next hbelow =>
   obtain ⟨hlen, hlow, hpend, hmarked⟩ := ih hlength (fun c' hc' => hcs c' (List.mem_cons_of_mem c hc')) hpending
   refine ⟨hlen, hlow, hpend, fun i => ?_⟩
   rw [hmarked, List.mem_cons, or_iff_right (a := floor + i = c) (by omega)]
  next habove =>
   have hlt : c - floor < s.reached.length := by omega
   have hset : ∀ i, (s.reached.set (c - floor) true).getD i false = true ↔ s.reached.getD i false = true ∨ floor + i = c := by
    intro i
    rw [List.getD_eq_getElem?_getD, List.getElem?_set, List.getD_eq_getElem?_getD]
    rcases eq_or_ne (c - floor) i with rfl | hi
    · simp [hlt, show floor + (c - floor) = c by omega]
    · simp [hi, show floor + i ≠ c by omega]
   have hcnt : (if s.reached.getD (c - floor) false then s.pending else s.pending + 1) =
     ((s.reached.set (c - floor) true).take n).count true := by
    have hlt' : c - floor < (s.reached.take n).length := by
     rw [List.length_take]
     omega
    rw [List.take_set, List.count_set hlt', List.getElem_take, List.getD_eq_getElem?_getD, List.getElem?_eq_getElem hlt, hpending]
    cases hmarked : s.reached[c - floor] with
    | false => simp
    | true =>
     have hmem : true ∈ s.reached.take n := List.mem_of_getElem (h := hlt') (by rw [List.getElem_take, hmarked])
     have hpos := List.count_pos_iff.2 hmem
     simp only [beq_self_eq_true, Option.getD_some, if_true]
     omega
   obtain ⟨hlen, hlow, hpend, hmarked⟩ := @ih ⟨s.reached.set (c - floor) true,
    if s.reached.getD (c - floor) false then s.pending else s.pending + 1, s.low⟩ (by rwa [List.length_set])
    (fun c' hc' => hcs c' (List.mem_cons_of_mem c hc')) hcnt
   refine ⟨hlen.trans List.length_set, hlow, hpend, fun i => ?_⟩
   rw [hmarked, hset, List.mem_cons, or_assoc]

theorem swept_start (hfloor : floor ≤ start) : Swept g start floor (start + 1 - floor)
  ⟨(List.replicate (start + 1 - floor) false).set (start - floor) true, 1, start⟩ := by
 have hmarked : ∀ i, ((List.replicate (start + 1 - floor) false).set (start - floor) true).getD i false = true ↔ floor + i = start := by
  intro i
  rw [getD_eq_getElem?_getD, getElem?_set, length_replicate]
  rcases eq_or_ne (start - floor) i with rfl | hi
  · simp [show start - floor < start + 1 - floor by omega, show floor + (start - floor) = start by omega]
  · simp [hi, getElem?_replicate, show floor + i ≠ start by omega]
    split <;> rfl
 refine ⟨by simp, fun i hi => ?_, (hmarked _).2 (by omega), ?_, fun i hle hi => ?_, fun i hle hi => ?_, hfloor,
  (hmarked _).2 (by dsimp only; omega)⟩
 · rw [(hmarked i).1 hi]
   exact Relation.ReflTransGen.refl
 · rw [take_of_length_le (by simp), count_set (by simp; omega), count_replicate]
   simp
 · have := (hmarked i).1 hi
   omega
 · have := (hmarked i).1 hi
   omega

theorem Swept.sweep (h : Swept g start floor n s) (hn : floor + n ≤ start + 1) : Swept g start floor 0 (g.sweep floor n s) := by
 induction n generalizing s with
 | zero => exact h
 | succ n ih =>
  have hlt : n < s.reached.length := by
   rw [h.length]
   omega
  have htake : s.reached.take (n + 1) = s.reached.take n ++ [s.reached[n]] := take_succ_eq_append_getElem hlt
  have hpending := h.pending
  rw [htake, count_append] at hpending
  rw [Dag.sweep]
  split
  next hzero =>
   -- nothing is pending: no node below is marked
   have hnone : ∀ i < n + 1, s.reached.getD i false ≠ true := by
    intro i hi hmarked
    have hcnt : (s.reached.take (n + 1)).count true = 0 := h.pending.symm.trans hzero
    rw [getD_eq_getElem?_getD] at hmarked
    refine count_eq_zero.1 hcnt (mem_iff_getElem?.2 ⟨i, ?_⟩)
    rw [getElem?_take, if_pos hi]
    cases hget : s.reached[i]? with
    | none => simp [hget] at hmarked
    | some marked => rw [hget, Option.getD_some] at hmarked; rw [hmarked]
   refine ⟨h.length, h.sound, h.root, by simpa using hzero, fun i _ hi => ?_, fun i _ hi => ?_, h.low_mem⟩
   · exact h.passed i (not_lt.1 fun hlt => hnone i hlt hi) hi
   · exact h.low_le i (not_lt.1 fun hlt => hnone i hlt hi) hi
  next hsome =>
   split
   next hmarked =>
    have hget : s.reached[n] = true := by
     rwa [getD_eq_getElem?_getD, getElem?_eq_getElem hlt, Option.getD_some] at hmarked
    obtain ⟨hlen, hlow, hpend, hreached⟩ := @foldl_mark floor n ⟨s.reached, s.pending - 1, floor + n⟩ (g.children (floor + n))
     hlt.le (fun c hc => lt_of_mem_children hc) (by simp [hget] at hpending; simpa using by omega)
    refine ih ⟨hlen.trans h.length, fun i hi => ?_, (hreached _).2 (.inl h.root), hpend, fun i hle hi child hchild hfloor => ?_,
     fun i hle hi => ?_, ?_⟩ (by omega)
    · rcases (hreached i).1 hi with hi | hchild
      · exact h.sound i hi
      · exact (h.sound n hmarked).tail hchild
    · rcases (hreached i).1 hi with hi | hmem
      · rcases Nat.eq_or_lt_of_le hle with rfl | hgt
        · exact (hreached _).2 (.inr (by rwa [Nat.add_sub_cancel' hfloor]))
        · exact (hreached _).2 (.inl (h.passed i hgt hi child hchild hfloor))
      · have := lt_of_mem_children hmem
        omega
    · rw [hlow]
      dsimp only
      omega
    · rw [hlow]
      exact ⟨Nat.le_add_right .., (hreached _).2 (.inl (by rwa [Nat.add_sub_cancel_left]))⟩
   next hmarked =>
    have hother : ∀ i, n ≤ i → s.reached.getD i false = true → n + 1 ≤ i := by
     intro i hle hi
     rcases Nat.eq_or_lt_of_le hle with rfl | hgt
     · exact absurd hi hmarked
     · exact hgt
    have hget : s.reached[n] = false := by
     rwa [getD_eq_getElem?_getD, getElem?_eq_getElem hlt, Option.getD_some, Bool.not_eq_true] at hmarked
    refine ih ⟨h.length, h.sound, h.root, by simpa [hget] using hpending, fun i hle hi => h.passed i (hother i hle hi) hi,
     fun i hle hi => h.low_le i (hother i hle hi) hi, h.low_mem⟩ (by omega)

/-- The marks are the descendants, and `low` is the least of them. -/
theorem reachable_spec (hfloor : floor ≤ start) : ∃ marks : List Bool, marks.length = start + 1 - floor ∧
  g.reachable start floor = ((g.reachable start floor).1, marks.drop ((g.reachable start floor).1 - floor)) ∧
  (∀ i, floor ≤ i → (marks.getD (i - floor) false = true ↔ g.Reaches start i)) ∧
  floor ≤ (g.reachable start floor).1 ∧ g.Reaches start (g.reachable start floor).1 ∧
  ∀ i, floor ≤ i → g.Reaches start i → (g.reachable start floor).1 ≤ i := by
 have hswept := (swept_start (g := g) hfloor).sweep (by omega)
 have hmarked : ∀ i, floor ≤ i → g.Reaches start i →
   (g.sweep floor (start + 1 - floor) ⟨(List.replicate (start + 1 - floor) false).set (start - floor) true, 1, start⟩).reached.getD
    (i - floor) false = true := by
  intro i hi hreaches
  induction hreaches with
  | refl => exact hswept.root
  | tail _ hstep ih =>
   have hlt := lt_of_mem_children hstep
   exact hswept.passed _ (Nat.zero_le _) (ih (by omega)) _ (by rwa [Nat.add_sub_cancel' (by omega)]) hi
 refine ⟨_, hswept.length, rfl, fun i hi => ⟨fun h => ?_, hmarked i hi⟩, hswept.low_mem.1, ?_, fun i hi h => ?_⟩
 · have hsound := hswept.sound _ h
   rwa [Nat.add_sub_cancel' hi] at hsound
 · have hsound := hswept.sound _ hswept.low_mem.2
   rwa [Nat.add_sub_cancel' hswept.low_mem.1] at hsound
 · have hle := hswept.low_le _ (Nat.zero_le _) (hmarked i hi h)
   rwa [Nat.add_sub_cancel' hi] at hle

theorem reaches_iff (g : Dag N L) (source target : Nat) : g.reaches source target = true ↔ g.Reaches source target := by
 rw [Dag.reaches]
 split
 next hlt => exact iff_of_false Bool.false_ne_true fun h => not_le.2 hlt h.le
 next hle =>
  obtain ⟨marks, -, heq, hmarks, hfloor, hlow, hleast⟩ := reachable_spec (g := g) (not_lt.1 hle)
  rw [heq]
  rw [Bool.and_eq_true, beq_iff_eq]
  constructor
  · rintro ⟨hsame, -⟩
    rwa [hsame] at hlow
  · intro h
    have hsame := Nat.le_antisymm (hleast target le_rfl h) hfloor
    rw [hsame, Nat.sub_self, drop_zero]
    exact ⟨rfl, by simpa using (hmarks target le_rfl).2 h⟩

theorem mem_postorder {i : Nat} : i ∈ g.postorder start ↔ g.Reaches start i := by
 obtain ⟨marks, -, heq, hmarks, -, -, hleast⟩ := reachable_spec (g := g) (Nat.zero_le start)
 rw [postorder, heq]
 rw [mem_filter, mem_range'_1, getD_eq_getElem?_getD, getElem?_drop, ← getD_eq_getElem?_getD]
 constructor
 · rintro ⟨⟨hle, -⟩, hmarked⟩
   rw [Nat.sub_zero, Nat.add_sub_cancel' hle] at hmarked
   exact (hmarks i (Nat.zero_le i)).1 hmarked
 · intro h
   have hle := hleast i (Nat.zero_le i) h
   rw [Nat.sub_zero, Nat.add_sub_cancel' hle]
   have hupper := h.le
   exact ⟨⟨hle, by omega⟩, (hmarks i (Nat.zero_le i)).2 h⟩

theorem postorder_ascending (g : Dag N L) (start : Nat) : (g.postorder start).Pairwise (· < ·) :=
 Pairwise.filter _ (pairwise_lt_range' ..)

/-! ## Depth first -/

variable (g) in
/-- The nodes seen once a node has been visited: itself, then what its children reach that was not seen, in edge order. -/
def depthFirst (seen : List Nat) (node : Nat) : List Nat :=
 if node ∈ seen then seen
 else (g.children node).attach.foldl (fun seen child => depthFirst seen child.1) (seen ++ [node])
termination_by node
decreasing_by exact lt_of_mem_children child.2

theorem depthFirst_eq (seen : List Nat) (node : Nat) : g.depthFirst seen node =
  if node ∈ seen then seen else (g.children node).foldl g.depthFirst (seen ++ [node]) := by
 rw [depthFirst]
 congr 1
 exact foldl_attach (l := g.children node) (f := g.depthFirst) (b := seen ++ [node])

/-- The stack holds what the recursive traversal has still to visit. -/
theorem preorderFrom_eq {stack seen : List Nat} {visited : List Bool}
  (hvisited : ∀ i < visited.length, visited[i]? = some (decide (i ∈ seen))) (hstack : ∀ node ∈ stack, node < visited.length) :
  ∃ listed, g.preorderFrom visited stack = some listed ∧ stack.foldl g.depthFirst seen = seen ++ listed := by
 induction visited, stack using preorderFrom.induct g generalizing seen with
 | case1 visited => exact ⟨[], by rw [preorderFrom], (append_nil seen).symm⟩
 | case2 visited node stack hnone =>
  have hlt := hstack node (.head _)
  rw [hvisited node hlt] at hnone
  cases hnone
 | case3 visited node stack hseen ih =>
  have hlt := hstack node (.head _)
  have hmem := hvisited node hlt
  rw [hseen, Option.some.injEq, eq_comm, decide_eq_true_eq] at hmem
  obtain ⟨listed, hlisted, hfold⟩ := ih hvisited fun other hother => hstack other (mem_cons_of_mem node hother)
  refine ⟨listed, ?_, ?_⟩
  · rw [preorderFrom]
    split <;> simp_all
  · rw [foldl_cons, depthFirst_eq, if_pos hmem, hfold]
 | case4 visited node stack hnew ih =>
  have hlt := hstack node (.head _)
  have hmem := hvisited node hlt
  rw [hnew, Option.some.injEq, eq_comm, decide_eq_false_iff_not] at hmem
  have hvisited' : ∀ i < (visited.set node true).length, (visited.set node true)[i]? = some (decide (i ∈ seen ++ [node])) := by
   intro i hi
   rw [length_set] at hi
   rw [getElem?_set]
   rcases eq_or_ne node i with rfl | hne
   · simp [hlt]
   · rw [if_neg hne, hvisited i hi]
     simp [hne.symm]
  obtain ⟨listed, hlisted, hfold⟩ := ih hvisited' fun other hother => by
   rw [length_set]
   rcases mem_append.1 hother with hchild | hother
   · exact (lt_of_mem_children hchild).trans hlt
   · exact hstack other (mem_cons_of_mem node hother)
  refine ⟨node :: listed, ?_, ?_⟩
  · rw [preorderFrom]
    split <;> simp_all
  · rw [foldl_cons, depthFirst_eq, if_neg hmem, ← foldl_append, hfold, append_assoc]
    rfl

/-- What visiting nodes one after the other adds to the nodes seen. -/
structure Visits (g : Dag N L) (seen nodes listed : List Nat) : Prop where
 keeps : seen ⊆ listed
 nodup : seen.Nodup → listed.Nodup
 mem : nodes ⊆ listed
 sound : ∀ i ∈ listed, i ∈ seen ∨ ∃ node ∈ nodes, g.Reaches node i
 closed : ∀ i ∈ listed, i ∉ seen → g.children i ⊆ listed

theorem visits_foldl {nodes : List Nat} (h : ∀ node ∈ nodes, ∀ seen, Visits g seen [node] (g.depthFirst seen node)) (seen : List Nat) :
  Visits g seen nodes (nodes.foldl g.depthFirst seen) := by
 induction nodes generalizing seen with
 | nil => exact ⟨fun _ h => h, id, fun _ h => (nomatch h), fun i h => .inl h, fun i h hnot => absurd h hnot⟩
 | cons node nodes ih =>
  have hfirst := h node mem_cons_self seen
  have hrest := ih (fun other hother => h other (mem_cons_of_mem node hother)) (g.depthFirst seen node)
  rw [foldl_cons]
  refine ⟨fun i hi => hrest.keeps (hfirst.keeps hi), fun hnd => hrest.nodup (hfirst.nodup hnd), ?_, fun i hi => ?_, fun i hi hnot => ?_⟩
  · exact cons_subset.2 ⟨hrest.keeps (hfirst.mem (.head _)), hrest.mem⟩
  · rcases hrest.sound i hi with hmem | ⟨other, hother, hreaches⟩
    · rcases hfirst.sound i hmem with hmem | ⟨other, hother, hreaches⟩
      · exact .inl hmem
      · exact .inr ⟨node, .head _, mem_singleton.1 hother ▸ hreaches⟩
    · exact .inr ⟨other, mem_cons_of_mem node hother, hreaches⟩
  · by_cases hmem : i ∈ g.depthFirst seen node
    · exact fun child hchild => hrest.keeps (hfirst.closed i hmem hnot hchild)
    · exact hrest.closed i hi hmem

theorem visits_depthFirst (node : Nat) (seen : List Nat) : Visits g seen [node] (g.depthFirst seen node) := by
 induction node using Nat.strongRecOn generalizing seen with
 | ind node ih =>
  rw [depthFirst_eq]
  split
  next hmem =>
   exact ⟨fun _ h => h, id, cons_subset.2 ⟨hmem, nil_subset _⟩, fun i h => .inl h, fun i h hnot => absurd h hnot⟩
  next hnew =>
   have hkids : Visits g (seen ++ [node]) (g.children node) _ :=
    visits_foldl (fun child hchild => ih child (lt_of_mem_children hchild)) (seen ++ [node])
   have hself : node ∈ (g.children node).foldl g.depthFirst (seen ++ [node]) := hkids.keeps (by simp)
   refine ⟨fun i hi => hkids.keeps (mem_append_left _ hi), fun hnd => hkids.nodup ?_,
    cons_subset.2 ⟨hself, nil_subset _⟩, fun i hi => ?_, fun i hi hnot => ?_⟩
   · exact nodup_append.2 ⟨hnd, nodup_singleton _, fun a ha b hb hab =>
      hnew (mem_singleton.1 hb ▸ hab ▸ ha)⟩
   · rcases hkids.sound i hi with hmem | ⟨child, hchild, hreaches⟩
     · rcases mem_append.1 hmem with hmem | hmem
       · exact .inl hmem
       · exact .inr ⟨node, .head _, mem_singleton.1 hmem ▸ Relation.ReflTransGen.refl⟩
     · exact .inr ⟨node, .head _, Relation.ReflTransGen.head hchild hreaches⟩
   · by_cases hroot : i = node
     · rw [hroot]
       exact hkids.mem
     · refine hkids.closed i hi fun hmem => ?_
       rcases mem_append.1 hmem with hmem | hmem
       · exact hnot hmem
       · exact hroot (mem_singleton.1 hmem)

theorem preorder_eq (g : Dag N L) (start : Nat) : g.preorder start = some (g.depthFirst [] start) := by
 have hvisited : ∀ i < (List.replicate (start + 1) false).length,
   (List.replicate (start + 1) false)[i]? = some (decide (i ∈ ([] : List Nat))) := by
  intro i hi
  rw [length_replicate] at hi
  rw [getElem?_replicate, if_pos hi]
  rfl
 have hstack : ∀ node ∈ [start], node < (List.replicate (start + 1) false).length := by simp
 obtain ⟨listed, hlisted, hfold⟩ := preorderFrom_eq (g := g) hvisited hstack
 rw [preorder, hlisted]
 exact congrArg some hfold.symm

theorem mem_depthFirst {start i : Nat} : i ∈ g.depthFirst [] start ↔ g.Reaches start i := by
 have hvisits := visits_depthFirst (g := g) start []
 constructor
 · intro hi
   rcases hvisits.sound i hi with hmem | ⟨node, hnode, hreaches⟩
   · cases hmem
   · rwa [mem_singleton.1 hnode] at hreaches
 · intro h
   induction h with
   | refl => exact hvisits.mem (.head _)
   | tail _ hstep ih => exact hvisits.closed _ ih not_mem_nil hstep

/-! ## Trees -/

/-- The tree of labels, payloads and children below a node. -/
inductive Unfolding (N L : Type) where
 | node (label : Option N) (leaf : Option (Option L)) (children : List (Unfolding N L))

variable (g) in
def unfolding (id : Nat) : Unfolding N L :=
 .node ((g.nodes[id]?).map (·.label)) ((g.nodes[id]?).map (·.leaf)) ((g.children id).attach.map fun child => unfolding child.1)
termination_by id
decreasing_by exact lt_of_mem_children child.2

theorem unfolding_eq (id : Nat) : g.unfolding id =
  .node ((g.nodes[id]?).map (·.label)) ((g.nodes[id]?).map (·.leaf)) ((g.children id).map g.unfolding) := by
 rw [unfolding, List.attach_map_val]

theorem map_eq_map_iff_zip {α β γ : Type} {f : α → γ} {k : β → γ} {l : List α} {r : List β} (hlength : l.length = r.length) :
  l.map f = r.map k ↔ ∀ pair ∈ l.zip r, f pair.1 = k pair.2 := by
 induction l generalizing r with
 | nil =>
  obtain rfl := length_eq_zero_iff.1 hlength.symm
  simp
 | cons a l ih =>
  cases r with
  | nil => nomatch hlength
  | cons b r => simp [ih (Nat.succ.inj hlength)]

theorem subgraphEqFrom_iff [DecidableEq N] [DecidableEq L] {other : Dag N L} {pending : List (Nat × Nat)} :
  g.subgraphEqFrom other pending = true ↔ ∀ pair ∈ pending, g.unfolding pair.1 = other.unfolding pair.2 := by
 induction pending using subgraphEqFrom.induct g other with
 | case1 => simp [subgraphEqFrom]
 | case2 lhs rhs pending hdiffers =>
  rw [subgraphEqFrom, if_pos hdiffers]
  refine iff_of_false Bool.false_ne_true fun h => ?_
  have hpair := h (lhs, rhs) (.head _)
  rw [unfolding_eq, unfolding_eq, Unfolding.node.injEq] at hpair
  obtain ⟨hlabel, hleaf, hkids⟩ := hpair
  have hlength := congrArg List.length hkids
  rw [length_map, length_map] at hlength
  rcases hdiffers with hne | hne | hne
  · exact hne hlabel
  · exact hne hleaf
  · exact hne hlength
 | case3 lhs rhs pending hsame ih =>
  rw [subgraphEqFrom, if_neg hsame, ih]
  obtain ⟨hlabel, hrest⟩ := not_or.1 hsame
  obtain ⟨hleaf, hlength⟩ := not_or.1 hrest
  rw [forall_mem_append, forall_mem_cons]
  refine and_congr_left' ?_
  rw [unfolding_eq, unfolding_eq, Unfolding.node.injEq, map_eq_map_iff_zip (not_not.1 hlength)]
  simp only [mem_reverse]
  exact ⟨fun h => ⟨not_not.1 hlabel, not_not.1 hleaf, h⟩, fun h => h.2.2⟩

/-! ## The traversals -/

/-- What the traversals of a node list and decide. -/
structure Traverses [DecidableEq N] [DecidableEq L] (g : Dag N L) (start : Nat) : Prop where
 postorder_nodup : (g.postorder start).Nodup
 postorder_mem : ∀ i, i ∈ g.postorder start ↔ g.Reaches start i
 children_first : ∀ parent ∈ g.postorder start, ∀ child ∈ g.children parent, [child, parent].Sublist (g.postorder start)
 preorder : g.preorder start = some (g.depthFirst [] start)
 preorder_nodup : (g.depthFirst [] start).Nodup
 preorder_mem : ∀ i, i ∈ g.depthFirst [] start ↔ g.Reaches start i
 reaches : ∀ target, g.reaches start target = true ↔ g.Reaches start target
 subgraphEq : ∀ (other : Dag N L) (otherStart : Fin other.len),
  g.subgraphEq start other otherStart = true ↔ g.unfolding start = other.unfolding otherStart

theorem traversals_correct [DecidableEq N] [DecidableEq L] (g : Dag N L) (start : Fin g.len) : Traverses g start where
 postorder_nodup := (postorder_ascending g start).imp ne_of_lt
 postorder_mem _ := mem_postorder
 children_first parent hparent child hchild := by
  have hlt := lt_of_mem_children hchild
  have hmem : child ∈ g.postorder start := mem_postorder.2 ((mem_postorder.1 hparent).tail hchild)
  have hpair : [child, parent].Pairwise (· < ·) := pairwise_pair.2 hlt
  exact sublist_of_subperm_of_pairwise (subperm_of_subset (hpair.imp ne_of_lt) (by simp [hmem, hparent])) hpair
   (postorder_ascending g start)
 preorder := preorder_eq g start
 preorder_nodup := (visits_depthFirst _ []).nodup nodup_nil
 preorder_mem _ := mem_depthFirst
 reaches := reaches_iff g start
 subgraphEq other otherStart := by
  rw [Dag.subgraphEq, subgraphEqFrom_iff, forall_mem_singleton]

end Tir.Adt.Dag
