import Tir.Restructure.Acyclicity
import Tir.Restructure.Ports
import Tir.Restructure.ReadOrder

/-!
# The order of a threaded block

`threadBlock_orders` is the order `threadBlock` gives a block: operations that meet on a chain are
connected when one of them changes it, reads of a chain with no change of it between them are not,
and what a chain leaves the block with comes after all that was done to it. A counted loop counts as
a change of the chains it carries: reads before and after a loop that only reads are connected
through it (`loop_connects_reads`).
-/

open List Option Relation

namespace Tir.Restructure

variable {plan : Plan} {next : Nat} {types : Nat → Option StateResource}
 {entries : List (Nat × Nat)} {ops : List Op} {terminator : Nat}

/-- A block that can be threaded: its operations are as they declare, and a state is produced once
and is not one the block is entered on. -/
structure Block (plan : Plan) (next : Nat) (types : Nat → Option StateResource)
  (entries : List (Nat × Nat)) (ops : List Op) : Prop where
 entered : Entries plan next types entries
 declared : ∀ op ∈ ops, Declared next types op
 once : (ops.flatMap Op.produced).Nodup
 apart : ∀ entry ∈ entries, entry.2 ∉ ops.flatMap Op.produced

theorem Declared.produced_lt {op : Op} (h : Declared next types op) : ∀ v ∈ op.produced, v < next := by
 intro v hv
 cases h with
 | plain _ _ produced =>
  obtain ⟨effect, he, hv⟩ := mem_flatMap.1 hv
  exact (produced effect he v hv).1
 | loop _ => nomatch hv

/-- The chains a block is entered on hold none of the states its operations produce. -/
theorem Block.sound (h : Block plan next types entries ops) :
  Sound plan [] (Chains.enter next types entries) (ops.flatMap Op.produced) := by
 refine ⟨nofun, ⟨fun chain held hheld _ v hv => ?_, ?_⟩, ?_, ?_,
  nofun⟩
 · obtain ⟨written, hlookup, rfl⟩ := map_eq_some_iff.1 hheld
   obtain ⟨l1, l2, heq, -⟩ := lookup_eq_some_iff.1 hlookup
   rw [mem_singleton.1 hv]
   exact h.apart (chain, written) (by simp [heq])
 · nofun
 · intro v hcycle
   obtain ⟨w, ⟨node, hn, -⟩, -⟩ := TransGen.head'_iff.1 hcycle
   nomatch hn
 · intro v hv
   obtain ⟨op, hop, hv⟩ := mem_flatMap.1 hv
   exact (h.declared op hop).produced_lt v hv

/-- What threading a block does: its operations, then the forks of its chains. -/
theorem threadBlock_cases {nodes : List Node} {leaving : List (Nat × Nat)} {s : Chains}
  (h : threadBlock plan next types entries ops terminator = .ok (nodes, leaving, s)) :
  ∃ s1 settled, threadOps plan ops (Chains.enter next types entries) = .ok (nodes, s1) ∧
   s1.closeForks s1.keys terminator = .ok (settled, s) ∧ leaving = s.keys.zip settled := by
 obtain ⟨⟨nodes', s1⟩, h1, h⟩ := bind_ok.1 h
 obtain ⟨⟨settled, s2⟩, h2, h⟩ := bind_ok.1 h
 obtain ⟨rfl, hrest⟩ := Prod.mk.inj (Except.ok.inj h)
 cases hrest
 exact ⟨s1, settled, h1, h2, rfl⟩

/-- A cycle runs through two reads of the same state if one leads to the other. -/
theorem not_connected {all : List Node} {node node' : Node} (hacyclic : Acyclic (Follows all))
  (hnode : node ∈ all) (hpaired : node.publishes ≠ [] → node.observes ≠ [])
  (hsame : ∀ observed ∈ node.observes, ∀ observed' ∈ node'.observes, observed' = observed) :
  ¬ Connected all node node' := by
 rintro ⟨published, hpub, observed', hobserved', hdep⟩
 obtain ⟨observed, rest, hobs⟩ :=
  exists_cons_of_ne_nil (hpaired (ne_nil_of_mem hpub))
 have hobserved : observed ∈ node.observes := by
  grind
 rw [hsame observed hobserved observed' hobserved'] at hdep
 have hedge : Follows all observed published := ⟨node, hnode, hobserved, hpub⟩
 exact hacyclic observed (TransGen.head' hedge hdep)

/-- The nodes of a block's operations observe and publish in pairs. -/
theorem threadOp_paired {op : Op} {node : Node} {s s' : Chains}
  (h : threadOp plan op s = .ok (node, s')) : node.publishes ≠ [] → node.observes ≠ [] := by
 have hstates : ∀ {α : Type} (states : List α) (f g : α → Nat),
   states.map f ≠ [] → states.map g ≠ [] := by
  simp_all
 cases op with
 | plain id name operands results effects nested =>
  rw [threadOp] at h
  obtain ⟨_, -, h⟩ := bind_ok.1 h
  obtain ⟨t, -, h⟩ := bind_ok.1 h
  cases h
  exact hstates t.states _ _
 | loop id inits results body latch yields graph =>
  by_cases hempty : plan.loopTouched id = []
  · obtain ⟨rfl, -⟩ := threadLoop_skip hempty h
    exact fun h => absurd rfl h
  · obtain ⟨observed, s1, ports, entered, inner, inside, leaving, inside', published, s3, -, -, -,
     -, -, -, rfl⟩ := threadLoop_cases hempty h
    exact hstates _ _ _

theorem threadOps_paired {added : List Node} {s s' : Chains} (h : threadOps plan ops s = .ok (added, s')) :
  ∀ node ∈ added, node.publishes ≠ [] → node.observes ≠ [] := by
 induction ops generalizing s added with
 | nil =>
  cases h
  nofun
 | cons op ops ih =>
  obtain ⟨⟨node, s1⟩, h1, h⟩ := bind_ok.1 h
  obtain ⟨⟨rest, s2⟩, h2, h⟩ := bind_ok.1 h
  cases h
  intro n hn
  rcases mem_cons.1 hn with rfl | hn
  · exact threadOp_paired h1
  · exact ih h2 n hn

/-- **The order of a threaded block**: the states are operands and results; two operations that
meet on a chain are connected when one changes it; two reads of a chain of memory with no change of
it between them are not; and what each chain leaves the block with comes after every operation on
it. -/
theorem threadBlock_orders {nodes : List Node} {leaving : List (Nat × Nat)} {s : Chains}
  (hblock : Block plan next types entries ops)
  (h : threadBlock plan next types entries ops terminator = .ok (nodes, leaving, s)) :
  (nodes.length = ops.length ∧ ∀ node ∈ nodes ++ s.nodes, node.Ported) ∧
  (∀ (i j : Nat) (op op' : Op) (node node' : Node), i < j → ops[i]? = some op →
   ops[j]? = some op' → nodes[i]? = some node → nodes[j]? = some node' →
   ∀ named ∈ op.names plan, ∀ named' ∈ op'.names plan, ∀ chain ∈ named.2, chain ∈ named'.2 →
    named.1 = .change ∨ named'.1 = .change → Connected (nodes ++ s.nodes) node node') ∧
  (∀ (chain i j : Nat) (op op' : Op) (node node' : Node), plan.resource chain = .memory → i < j →
   ops[i]? = some op → ops[j]? = some op' → nodes[i]? = some node → nodes[j]? = some node' →
   op.Reads plan chain → op'.Reads plan chain →
   (∀ (k : Nat) (op : Op), i < k → k < j → ops[k]? = some op → op.Spares plan chain) →
   ¬ Connected (nodes ++ s.nodes) node node' ∧ ¬ Connected (nodes ++ s.nodes) node' node) ∧
  leaving.map Prod.fst = entries.map Prod.fst ∧
  ∀ leave ∈ leaving, ∀ (i : Nat) (op : Op) (node : Node), ops[i]? = some op →
   nodes[i]? = some node → ∀ named ∈ op.names plan, leave.1 ∈ named.2 →
    ∃ published ∈ node.publishes, Depends (nodes ++ s.nodes) published leave.2 := by
 obtain ⟨s1, settled, hthread, hclose, rfl⟩ := threadBlock_cases h
 obtain ⟨ht, hf⟩ := Chains.enter_ok hblock.entered []
 have hext := threadOps_grows ops [] _ s1 nodes hblock.declared ht hf hthread
 rw [nil_append] at hext
 obtain ⟨hlen, hord, hconnected⟩ := threadOps_ok hblock.declared ht hf hthread
 rw [nil_append] at hord hconnected
 have hkeys : s1.keys = entries.map Prod.fst := hext.keys
 have hnd : s1.keys.Nodup := by
  rw [hkeys]
  exact hblock.entered.nodup
 obtain ⟨hext', -, hsettled, -⟩ := Chains.closeForks_ok hnd hext.typed hext.forked hclose
 have hkeys' : s.keys = s1.keys := hext'.keys
 have hsound1 : Sound plan ([] ++ nodes) s1 [] := by
  refine threadOps_sound hblock.declared ht hf ?_ ?_ hthread
  · rw [append_nil]
    exact hblock.once
  · rw [append_nil]
    exact hblock.sound
 have hsound := hsound1.moves
  (Chains.closeForks_moves (fun _ => True) (fun _ _ => trivial) hext.typed hext.forked hclose)
 rw [nil_append] at hsound
 have hported := threadOps_ported hblock.declared ht hf hthread
 refine ⟨⟨hlen, fun node hn => ?_⟩, ?_, ?_, ?_, ?_⟩
 · exact (mem_append.1 hn).elim (hported node) (hsound.ported node)
 · intro i j op op' node node' hij hop hop' hnode hnode' named hnamed named' hnamed' chain hc hc' hacc
   obtain ⟨published, hpub, observed, hobserved, hdep⟩ := hconnected i j op op' node node' hij
    hop hop' hnode hnode' named hnamed named' hnamed' chain hc hc' hacc
   exact ⟨published, hpub, observed, hobserved, hext'.depends hdep⟩
 · intro chain i j op op' node node' hmemo hij hop hop' hnode hnode' hreads hreads' hspares
   have hsame := threadOps_same hmemo hblock.declared ht hf hthread hij hop hop' hnode hnode' hreads
    hreads' hspares
   have hpaired := threadOps_paired hthread
   have hmem := mem_of_getElem? hnode
   have hmem' := mem_of_getElem? hnode'
   exact ⟨not_connected hsound.acyclic (mem_append_left _ hmem) (hpaired node hmem) hsame,
    not_connected hsound.acyclic (mem_append_left _ hmem') (hpaired node' hmem')
     fun o ho o' ho' => (hsame o' ho' o ho).symm⟩
 · rw [map_fst_zip (le_of_eq (by rw [hkeys', hsettled.length_eq])), hkeys', hkeys]
 · intro leave hleave i op node hop hnode named hnamed hmem
   rw [hkeys'] at hleave
   have hset := (forall₂_iff_zip.1 hsettled).2 hleave
   obtain ⟨-, -, published, hpub, -, hreaches⟩ :=
    hord i op node hop hnode named hnamed leave.1 hmem
   exact ⟨published, hpub, hset.follows _ published hreaches⟩

/-! ## A store and a load, and a loop between loads -/

/-- Every effect on memory touches the same chains. -/
def memoryPlan (chains : List Nat) (hne : chains ≠ []) (hnd : chains.Nodup) : Plan where
 resource _ := .memory
 touched _ r := if r = .memory then some chains else none
 loopTouched _ := chains
 touched_ne_nil _ r _ h := by
  split at h
  · exact some.inj h ▸ hne
  · nomatch h
 touched_nodup _ r _ h := by
  split at h
  · exact some.inj h ▸ hnd
  · nomatch h
 touched_resource _ r _ h _ _ := by
  split at h
  · next hr => exact hr.symm
  · nomatch h
 touched_single _ _ h := nomatch h
 loopTouched_nodup _ := hnd

/-- An operation with one effect on memory, which names no state yet. -/
def memoryOp (id : Nat) (access : ResourceAccess) : Op :=
 .plain id "ptr.access" [] [] [⟨.memory, access, [], []⟩] false

theorem memoryOp_declared (next : Nat) (types : Nat → Option StateResource) (id : Nat)
  (access : ResourceAccess) : Declared next types (memoryOp id access) :=
 Declared.plain (by simp) (by simp) (by simp)

/-- Operations on memory that name no states yet make a block. -/
theorem memory_block {chains : List Nat} {hne : chains ≠ []} {hnd : chains.Nodup}
  (hentries : (entries.map Prod.fst).Nodup) (hnext : ∀ entry ∈ entries, entry.2 < next)
  (hops : ∀ op ∈ ops, Declared next (fun _ => some .memory) op) (hprod : ops.flatMap Op.produced = []) :
  Block (memoryPlan chains hne hnd) next (fun _ => some .memory) entries ops :=
 ⟨⟨hentries, fun entry he => ⟨hnext entry he, rfl⟩⟩, hops, by rw [hprod]; exact nodup_nil,
   fun _ _ => by rw [hprod]; exact not_mem_nil⟩

/-- A store that crosses two chains, and a load of the second. -/
theorem store_load_connected : ∃ nodes leaving s,
  threadBlock (memoryPlan [1, 0] (by decide) (by decide)) 2 (fun _ => some .memory)
   [(0, 0), (1, 1)] [memoryOp 1 .change, memoryOp 2 .read] 3 = .ok (nodes, leaving, s) ∧
  ∃ store load, nodes = [store, load] ∧ Connected (nodes ++ s.nodes) store load := by
 obtain ⟨⟨nodes, leaving, s⟩, h⟩ : ∃ result, threadBlock (memoryPlan [1, 0] (by decide) (by decide)) 2
   (fun _ => some .memory) [(0, 0), (1, 1)] [memoryOp 1 .change, memoryOp 2 .read] 3 = .ok result :=
  ⟨_, rfl⟩
 have hblock : Block (memoryPlan [1, 0] (by decide) (by decide)) 2 (fun _ => some .memory)
   [(0, 0), (1, 1)] [memoryOp 1 .change, memoryOp 2 .read] := by
  refine memory_block (by decide) (by decide) (fun op hop => ?_) rfl
  simp only [mem_cons, not_mem_nil, or_false] at hop
  rcases hop with rfl | rfl <;> exact memoryOp_declared _ _ _ _
 obtain ⟨⟨hlen, -⟩, hconnected, -⟩ := threadBlock_orders hblock h
 obtain ⟨store, load, rfl⟩ := length_eq_two.1 hlen
 refine ⟨_, leaving, s, h, store, load, rfl, ?_⟩
 exact hconnected 0 1 _ _ store load (by decide) rfl rfl rfl rfl (.change, [1, 0])
  (mem_singleton.2 rfl) (.read, [1]) (mem_singleton.2 rfl) 1 (by decide) (by decide)
  (Or.inl rfl)

mutual

/-- The effects of an operation, a loop's body included, each with the operation that has it. -/
def Op.effects : Op → List (Nat × ResourceEffect)
 | .plain id _ _ _ effects _ => effects.map fun effect => (id, effect)
 | .loop _ _ _ body _ _ _ => opsEffects body

def opsEffects : List Op → List (Nat × ResourceEffect)
 | [] => []
 | op :: ops => op.effects ++ opsEffects ops

end

/-- Nothing in the operation changes the chain. -/
def Op.OnlyReads (plan : Plan) (chain : Nat) (op : Op) : Prop :=
 ∀ effect ∈ op.effects, ∀ touched, plan.touched effect.1 effect.2.resource = some touched →
  chain ∈ effect.2.access.names touched → effect.2.access = .read

/-- A loop that only reads takes the state of the load before it and leaves one of its own. -/
theorem readLoop_nodes : (threadBlock (memoryPlan [0] (by decide) (by decide)) 1 (fun _ => some .memory) [(0, 0)]
  [memoryOp 1 .read, .loop 2 [] [] [memoryOp 3 .read] 4 [] false, memoryOp 5 .read] 6).map (fun result => result.1) =
  .ok [.plain 1 [0] [1] [(.memory, 0, 1)], .loop 2 [1] [4] [(0, 1, 4)] [2] [.plain 3 [2] [3] [(.memory, 2, 3)]] [3],
   .plain 5 [4] [5] [(.memory, 4, 5)]] := rfl

/-- **A loop connects the reads around it**, also one that only reads. -/
theorem loop_connects_reads :
  ¬ ∀ (plan : Plan) (next : Nat) (types : Nat → Option StateResource) (entries : List (Nat × Nat))
   (ops : List Op) (terminator : Nat) (nodes : List Node) (leaving : List (Nat × Nat))
   (s : Chains), Block plan next types entries ops →
   threadBlock plan next types entries ops terminator = .ok (nodes, leaving, s) →
   ∀ (chain i j : Nat) (op op' : Op) (node node' : Node), plan.resource chain = .memory → i < j →
    ops[i]? = some op → ops[j]? = some op' → nodes[i]? = some node → nodes[j]? = some node' →
    op.Reads plan chain → op'.Reads plan chain →
    (∀ (k : Nat) (op : Op), i < k → k < j → ops[k]? = some op → op.OnlyReads plan chain) →
    ¬ Connected (nodes ++ s.nodes) node node' := by
 intro hclaim
 have hblock : Block (memoryPlan [0] (by decide) (by decide)) 1 (fun _ => some .memory) [(0, 0)]
   [memoryOp 1 .read, .loop 2 [] [] [memoryOp 3 .read] 4 [] false, memoryOp 5 .read] := by
  refine memory_block (by decide) (by decide) (fun op hop => ?_) rfl
  simp only [mem_cons, not_mem_nil, or_false] at hop
  rcases hop with rfl | rfl | rfl
  · exact memoryOp_declared _ _ _ _
  · refine Declared.loop fun op hop => ?_
    rw [mem_singleton.1 hop]
    exact memoryOp_declared _ _ _ _
  · exact memoryOp_declared _ _ _ _
 have hnodes := readLoop_nodes
 cases hthread : threadBlock (memoryPlan [0] (by decide) (by decide)) 1 (fun _ => some .memory)
   [(0, 0)] [memoryOp 1 .read, .loop 2 [] [] [memoryOp 3 .read] 4 [] false, memoryOp 5 .read] 6 with
 | error message =>
  rw [hthread] at hnodes
  nomatch hnodes
 | ok result =>
  obtain ⟨nodes, leaving, s⟩ := result
  rw [hthread] at hnodes
  cases hnodes
  refine hclaim _ 1 _ [(0, 0)] _ 6 _ _ _ hblock hthread 0 0 2 _ _ _ _ rfl (by decide) rfl rfl rfl
   rfl (fun named hnamed => mem_singleton.1 hnamed)
   (fun named hnamed => mem_singleton.1 hnamed) (fun k op hlt hlt' hop => ?_) ?_
  · obtain rfl : k = 1 := by omega
    cases hop
    intro effect he _ _ _
    rw [mem_singleton.1 he]
  · -- the first load's state goes into the loop, and the last load takes what the loop leaves
    refine ⟨1, mem_singleton.2 rfl, 4, mem_singleton.2 rfl, ?_⟩
    exact Depends.node _ (.tail _ (.head _)) (mem_singleton.2 rfl)
     (mem_singleton.2 rfl)

end Tir.Restructure
