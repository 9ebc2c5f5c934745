import Mathlib.Data.List.Basic

/-!
# Append-only DAGs

The nodes of a `Dag` are stored in topological order: every child precedes its parent
(`add_edge` asserts it), so the last node is the root and the index of a node is a measure
that falls along edges. The order is a field of the structure. Annotations are left out.
-/

open List

namespace Tir.Adt

/-- A node with its children, in edge order, and its optional leaf payload. -/
structure DagNode (N L : Type) where
 label : N
 children : List Nat
 leaf : Option L

structure Dag (N L : Type) where
 nodes : List (DagNode N L)
 topological : ∀ i (n : DagNode N L), nodes[i]? = some n → ∀ child ∈ n.children, child < i

namespace Dag

variable {N L : Type}

def len (g : Dag N L) : Nat := g.nodes.length

/-- The last node added, which every other node precedes. -/
def root (g : Dag N L) : Option Nat := if g.nodes = [] then none else some (g.len - 1)

theorem root_eq_some {g : Dag N L} {r : Nat} (h : g.root = some r) : r + 1 = g.len := by
 unfold root at h
 split at h
 · cases h
 · rename_i hne
   have hlen : 0 < g.len := length_pos_of_ne_nil hne
   cases h
   omega

def empty : Dag N L := ⟨[], fun _ _ h => by simp at h⟩

theorem topological_append (g : Dag N L) (node : DagNode N L) (h : ∀ child ∈ node.children, child < g.len) :
  ∀ i (n : DagNode N L), (g.nodes ++ [node])[i]? = some n → ∀ child ∈ n.children, child < i := by
 intro i n hn child hc
 by_cases hi : i < g.nodes.length
 · rw [getElem?_append_left hi] at hn
   exact g.topological i n hn child hc
 · rw [getElem?_append_right (by omega)] at hn
   have hi' : i = g.nodes.length := by
    have := (List.getElem?_eq_some_iff.1 hn).1
    simp only [length_singleton] at this
    omega
   subst hi'
   simp only [Nat.sub_self, getElem?_cons_zero, Option.some.injEq] at hn
   subst hn
   exact h child hc

/-- Adds a node whose children are all there already (`add_node`, `add_edge` for each
child, `set_leaf_data`); its id is the old length. A later child is refused. -/
def push (g : Dag N L) (node : DagNode N L) : Option (Dag N L) :=
 if h : ∀ child ∈ node.children, child < g.len then
  some ⟨g.nodes ++ [node], topological_append g node h⟩
 else none

end Dag

end Tir.Adt
